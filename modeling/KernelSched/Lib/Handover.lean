import KernelSched.Lib.Ledger
import KernelSched.Lib.Run

/-!
# Two slots that are drained in turn

Anyone may put an amount into either of two slots, at any time. A reader drains them in turn: a pass takes what is in
the slot whose turn it is, gives it to a total, and leaves the turn to the other slot. Amounts may also be added to the
total directly.

Nothing is said of the slot a writer chooses. An amount is given to the total once, and no later than in the second of
the passes that begin after it was put (`Inv.late`): by then either slot has had its turn.
-/

namespace KernelSched.Handover

open Run Function Multiset

variable {α : Type}

/-- An amount that was put into a slot, and how many passes had begun by then -/
structure Entry (α : Type) where
  amount : α
  begun : ℕ

inductive Phase
  | idle
  | begun
  | taken
  | given
  deriving DecidableEq

structure Slots (α : Type) where
  slot : Bool → Multiset (Entry α)
  /-- What a pass has taken and not yet given -/
  hand : Multiset (Entry α)
  given : Multiset (Entry α)
  /-- All that was ever put into a slot -/
  put : Multiset (Entry α)
  /-- All that was added to the total directly -/
  direct : Multiset α
  turn : Bool
  phase : Phase
  begun : ℕ

inductive Act (α : Type)
  | put (i : Bool) (a : α)
  | direct (a : α)
  | begin
  | take
  | give
  | finish

def step (act : Act α) (b : Slots α) : Option (Slots α) :=
  match act with
  | .put i a =>
    let x : Entry α := ⟨a, b.begun⟩
    some { b with slot := update b.slot i (b.slot i + {x}), put := b.put + {x} }
  | .direct a => some { b with direct := b.direct + {a} }
  | .begin => if b.phase = .idle then some { b with phase := .begun, begun := b.begun + 1 } else none
  | .take =>
    if b.phase = .begun then
      some { b with slot := update b.slot b.turn 0, hand := b.hand + b.slot b.turn, phase := .taken }
    else none
  | .give => if b.phase = .taken then some { b with hand := 0, given := b.given + b.hand, phase := .given } else none
  | .finish => if b.phase = .given then some { b with turn := !b.turn, phase := .idle } else none

namespace Slots

def init : Slots α := ⟨fun _ => 0, 0, 0, 0, 0, false, .idle, 0⟩

variable (b : Slots α)

/-- What has been put and not yet given -/
def waiting : Multiset (Entry α) := b.hand + ∑ i, b.slot i

def ended : ℕ := if b.phase = .idle then b.begun else b.begun - 1

end Slots

/-- When an amount that is in a slot may have been put there, in passes begun since -/
def Phase.allows (phase : Phase) (hasTurn : Prop) (since : ℕ) : Prop :=
  match phase with
  | .idle => since = 0 ∨ since = 1 ∧ hasTurn
  | .begun => since = 0 ∨ since = 1 ∨ since = 2 ∧ hasTurn
  | .taken => since = 0 ∨ since = 1 ∧ ¬hasTurn
  | .given => since = 0 ∨ since = 1 ∧ ¬hasTurn

structure Inv (b : Slots α) : Prop where
  whole : b.put = b.given + b.waiting
  held : b.phase ≠ .taken → b.hand = 0
  hand : ∀ x ∈ b.hand, b.begun ≤ x.begun + 2
  slot : ∀ i, ∀ x ∈ b.slot i, ∃ since, b.begun = x.begun + since ∧ b.phase.allows (i = b.turn) since
  pos : b.phase ≠ .idle → 0 < b.begun

theorem inv_init : Inv (Slots.init : Slots α) where
  whole := by simp [Slots.init, Slots.waiting]
  held _ := rfl
  hand _ hx := by simp [Slots.init] at hx
  slot _ _ hx := by simp [Slots.init] at hx
  pos h := absurd rfl h

variable {b b' : Slots α} {act : Act α}

theorem Inv.put (h : Inv b) (i : Bool) (a : α) :
    Inv { b with slot := update b.slot i (b.slot i + {⟨a, b.begun⟩}), put := b.put + {⟨a, b.begun⟩} } := by
  refine ⟨?_, h.held, h.hand, fun j x hx => ?_, h.pos⟩
  · have hsum : ∑ j, update b.slot i (b.slot i + {⟨a, b.begun⟩}) j = ∑ j, b.slot j + {⟨a, b.begun⟩} := by
      refine add_right_cancel ((Ledger.sum_update b.slot id i _).trans ?_)
      simp only [id]
      abel
    rw [h.whole, Slots.waiting, Slots.waiting, hsum]
    simp only [add_assoc]
  · dsimp only at hx ⊢
    rcases eq_or_ne j i with rfl | hne
    · rw [update_self, mem_add, mem_singleton] at hx
      rcases hx with hx | rfl
      · exact h.slot j x hx
      · exact ⟨0, rfl, by cases b.phase <;> exact .inl rfl⟩
    · rw [update_of_ne hne] at hx
      exact h.slot j x hx

theorem Inv.begin (h : Inv b) (hidle : b.phase = .idle) : Inv { b with phase := .begun, begun := b.begun + 1 } := by
  have hhand := h.held (by simp [hidle])
  refine ⟨h.whole, fun _ => hhand, by simp [hhand], fun i x hx => ?_, fun _ => Nat.succ_pos _⟩
  obtain ⟨since, hbegun, hallows⟩ := h.slot i x hx
  rw [hidle] at hallows
  refine ⟨since + 1, by simp [hbegun, add_assoc], ?_⟩
  rcases hallows with rfl | ⟨rfl, hturn⟩
  · exact .inr (.inl rfl)
  · exact .inr (.inr ⟨rfl, hturn⟩)

theorem Inv.take (h : Inv b) (hbegun : b.phase = .begun) : Inv { b with
    slot := update b.slot b.turn 0, hand := b.hand + b.slot b.turn, phase := .taken } := by
  refine ⟨?_, fun hne => absurd rfl hne, fun x hx => ?_, fun i x hx => ?_, fun _ => h.pos (by simp [hbegun])⟩
  · have hsum := Ledger.sum_update b.slot id b.turn 0
    simp only [id, add_zero] at hsum
    rw [h.whole, Slots.waiting, Slots.waiting, ← hsum, add_comm _ (b.slot b.turn)]
    simp only [add_assoc]
  · rw [h.held (by simp [hbegun]), zero_add] at hx
    obtain ⟨since, hsince, hallows⟩ := h.slot _ x hx
    rw [hbegun] at hallows
    simp only [Phase.allows] at hallows
    dsimp only
    omega
  · dsimp only at hx
    rcases eq_or_ne i b.turn with rfl | hne
    · simp at hx
    · rw [update_of_ne hne] at hx
      obtain ⟨since, hsince, hallows⟩ := h.slot i x hx
      rw [hbegun] at hallows
      refine ⟨since, hsince, ?_⟩
      rcases hallows with hzero | hone | ⟨-, hturn⟩
      · exact .inl hzero
      · exact .inr ⟨hone, hne⟩
      · exact absurd hturn hne

theorem Inv.give (h : Inv b) (htaken : b.phase = .taken) :
    Inv { b with hand := 0, given := b.given + b.hand, phase := .given } := by
  refine ⟨?_, fun _ => rfl, by simp, fun i x hx => ?_, fun _ => h.pos (by simp [htaken])⟩
  · rw [h.whole]
    simp [Slots.waiting, add_assoc]
  · simpa [htaken, Phase.allows] using h.slot i x hx

theorem Inv.finish (h : Inv b) (hgiven : b.phase = .given) : Inv { b with turn := !b.turn, phase := .idle } := by
  refine ⟨h.whole, fun _ => h.held (by simp [hgiven]), h.hand, fun i x hx => ?_, fun hne => absurd rfl hne⟩
  obtain ⟨since, hbegun, hallows⟩ := h.slot i x hx
  rw [hgiven] at hallows
  refine ⟨since, hbegun, ?_⟩
  rcases hallows with hzero | ⟨hone, hturn⟩
  · exact .inl hzero
  · exact .inr ⟨hone, by simpa [Bool.eq_not] using hturn⟩

theorem Inv.step (h : Inv b) (hstep : step act b = some b') : Inv b' := by
  cases act with
  | put i a =>
    cases hstep
    exact h.put i a
  | direct a =>
    cases hstep
    exact ⟨h.whole, h.held, h.hand, h.slot, h.pos⟩
  | begin =>
    obtain ⟨hidle, rfl⟩ := by simpa [Handover.step] using hstep
    exact h.begin hidle
  | take =>
    obtain ⟨hbegun, rfl⟩ := by simpa [Handover.step] using hstep
    exact h.take hbegun
  | give =>
    obtain ⟨htaken, rfl⟩ := by simpa [Handover.step] using hstep
    exact h.give htaken
  | finish =>
    obtain ⟨hgiven, rfl⟩ := by simpa [Handover.step] using hstep
    exact h.finish hgiven

theorem inv_run {acts : List (Act α)} (hrun : run step acts Slots.init = some b) : Inv b :=
  run_invariant (fun _ _ _ h hstep => h.step hstep) inv_init hrun

/-- What still waits has not seen the end of two passes that began after it was put. -/
theorem Inv.late (h : Inv b) {x : Entry α} (hx : x ∈ b.waiting) : b.ended ≤ x.begun + 1 := by
  rw [Slots.waiting, mem_add, mem_sum] at hx
  rcases hx with hhand | ⟨i, -, hslot⟩
  · have hphase : b.phase = .taken := by
      by_contra hne
      rw [h.held hne] at hhand
      simp at hhand
    have hbegun := h.hand x hhand
    have hended : b.ended = b.begun - 1 := by simp [Slots.ended, hphase]
    omega
  · obtain ⟨since, hbegun, hallows⟩ := h.slot i x hslot
    cases hphase : b.phase <;> simp only [hphase, Phase.allows] at hallows <;> simp [Slots.ended, hphase] <;> omega

/-! ## Amounts -/

section

variable [AddCommMonoid α]

def total (m : Multiset (Entry α)) : α := (m.map Entry.amount).sum

@[simp] theorem total_zero : total (0 : Multiset (Entry α)) = 0 := by simp [total]

@[simp] theorem total_add (m m' : Multiset (Entry α)) : total (m + m') = total m + total m' := by simp [total]

@[simp] theorem total_singleton (x : Entry α) : total {x} = x.amount := by simp [total]

end

end KernelSched.Handover
