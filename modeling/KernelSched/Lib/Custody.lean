import Mathlib.Logic.Function.Basic

/-!
# Ids in custody

Ids are handed out from a bit mask and kept by holders, at most one by each. `Kept` says that every id whose bit is set
is with exactly one holder, and no other id is with any. There are three things to do with an id: to take a free one, to
pass it on to a holder that has none, and to give it back.
-/

namespace KernelSched.Custody

open Function

variable {π κ : Type} {holds holds' : π → Option κ} {mask : κ → Bool} {p q : π} {c : κ}

structure Kept (holds : π → Option κ) (mask : κ → Bool) : Prop where
  one : ∀ {p q c}, holds p = some c → holds q = some c → p = q
  mask : ∀ {c}, mask c = true ↔ ∃ p, holds p = some c

theorem kept_empty (hholds : ∀ p, holds p = none) (hmask : ∀ c, mask c = false) : Kept holds mask := by
  refine ⟨fun {p q c} hp => ?_, fun {c} => ?_⟩
  · rw [hholds] at hp
    cases hp
  · rw [hmask]
    refine ⟨fun hfalse => (Bool.false_ne_true hfalse).elim, fun ⟨p, hp⟩ => ?_⟩
    rw [hholds] at hp
    cases hp

theorem Kept.congr (h : Kept holds mask) (heq : ∀ p, holds' p = holds p) : Kept holds' mask := by
  rw [funext heq]
  exact h

theorem Kept.move (h : Kept holds mask) (hp : holds p = some c) (hq : holds q = none) (hp' : holds' p = none)
    (hq' : holds' q = some c) (heq : ∀ r, r ≠ p → r ≠ q → holds' r = holds r) : Kept holds' mask := by
  -- the holder of each id is as before, but for `c`, which `q` has instead of `p`
  have hcases : ∀ {r d}, holds' r = some d ↔ r = q ∧ d = c ∨ r ≠ p ∧ r ≠ q ∧ holds r = some d := by
    intro r d
    by_cases hrq : r = q
    · subst hrq
      rw [hq', Option.some.injEq]
      simp [eq_comm]
    · by_cases hrp : r = p
      · subst hrp
        rw [hp']
        simp [hrq]
      · rw [heq r hrp hrq]
        simp [hrp, hrq]
  refine ⟨fun {r r' d} hr hr' => ?_, fun {d} => ?_⟩
  · rcases hcases.1 hr with ⟨rfl, rfl⟩ | ⟨hne, -, hr⟩ <;> rcases hcases.1 hr' with ⟨rfl, hd⟩ | ⟨hne', -, hr'⟩
    · rfl
    · exact absurd (h.one hr' hp) hne'
    · exact absurd (h.one (hd ▸ hr) hp) hne
    · exact h.one hr hr'
  · rw [h.mask]
    constructor
    · rintro ⟨r, hr⟩
      by_cases hrp : r = p
      · subst hrp
        rw [hp, Option.some.injEq] at hr
        exact ⟨q, hr ▸ hq'⟩
      · refine ⟨r, hcases.2 (.inr ⟨hrp, ?_, hr⟩)⟩
        rintro rfl
        rw [hq] at hr
        cases hr
    · rintro ⟨r, hr⟩
      rcases hcases.1 hr with ⟨rfl, rfl⟩ | ⟨-, -, hr⟩
      · exact ⟨p, hp⟩
      · exact ⟨r, hr⟩

variable [DecidableEq κ]

theorem Kept.take (h : Kept holds mask) (hp : holds p = none) (hc : mask c = false) (hp' : holds' p = some c)
    (heq : ∀ q, q ≠ p → holds' q = holds q) : Kept holds' (update mask c true) := by
  have hfree : ∀ q, holds q ≠ some c := by
    intro q hq
    rw [h.mask.2 ⟨q, hq⟩] at hc
    cases hc
  have hcases : ∀ {q d}, holds' q = some d ↔ q = p ∧ d = c ∨ q ≠ p ∧ holds q = some d := by
    intro q d
    by_cases hq : q = p
    · subst hq
      rw [hp', Option.some.injEq]
      simp [eq_comm]
    · rw [heq q hq]
      simp [hq]
  refine ⟨fun {q r d} hq hr => ?_, fun {d} => ?_⟩
  · rcases hcases.1 hq with ⟨rfl, rfl⟩ | ⟨-, hq⟩ <;> rcases hcases.1 hr with ⟨rfl, hd⟩ | ⟨-, hr⟩
    · rfl
    · exact absurd hr (hfree r)
    · exact absurd (hd ▸ hq) (hfree q)
    · exact h.one hq hr
  · by_cases hd : d = c
    · subst hd
      rw [update_self]
      exact ⟨fun _ => ⟨p, hp'⟩, fun _ => rfl⟩
    · rw [update_of_ne hd, h.mask]
      refine exists_congr fun q => ?_
      rw [hcases]
      refine ⟨fun hq => .inr ⟨?_, hq⟩, fun hq => (hq.resolve_left fun hpc => hd hpc.2).2⟩
      rintro rfl
      rw [hp] at hq
      cases hq

theorem Kept.drop (h : Kept holds mask) (hp : holds p = some c) (hp' : holds' p = none)
    (heq : ∀ q, q ≠ p → holds' q = holds q) : Kept holds' (update mask c false) := by
  have hcases : ∀ {q d}, holds' q = some d ↔ q ≠ p ∧ holds q = some d := by
    intro q d
    by_cases hq : q = p
    · subst hq
      rw [hp']
      simp
    · rw [heq q hq]
      simp [hq]
  refine ⟨fun {q r d} hq hr => h.one (hcases.1 hq).2 (hcases.1 hr).2, fun {d} => ?_⟩
  by_cases hd : d = c
  · subst hd
    rw [update_self]
    refine ⟨fun hfalse => (Bool.false_ne_true hfalse).elim, fun ⟨q, hq⟩ => ?_⟩
    exact absurd (h.one (hcases.1 hq).2 hp) (hcases.1 hq).1
  · rw [update_of_ne hd, h.mask]
    refine exists_congr fun q => ?_
    rw [hcases]
    refine ⟨fun hq => ⟨?_, hq⟩, fun hq => hq.2⟩
    rintro rfl
    rw [hp, Option.some.injEq] at hq
    exact hd hq.symm

end KernelSched.Custody
