import KernelSched.Lib.Run
import KernelSched.Psi.Group

/-!
# Pressure stall information: the times that the aggregators sample

A writer on the CPU reads its clock once, and then concludes the states of one group after the other in a write section
of the group's seqcount, all with that one reading. An aggregator on any CPU takes a snapshot of a group outside the
sections, reads the clock, and counts an active state up to that reading (`getRecentTimes`).

`Truth` is not of the code: it holds the same times as integers that do not wrap, from the same readings. A sample that
falls between the reading of a writer and its section counts an active state past the moment at which the section then
concludes it: the next sample may be less. Where no sample does, and none comes 2³² ns of stall after the one before,
every difference is the stall time in between.
-/

namespace KernelSched.Psi

open Wrap Run Function GroupCpu

inductive Aggregator
  | avgs
  | poll
  deriving DecidableEq

/-- A group's data of the CPU, with what each aggregator saw of it last: `times_prev` -/
structure Sampled where
  cpu : GroupCpu
  timesPrev : Aggregator → PsiState → U32

/-- The times of a group, with the states that are active counted up to `now` -/
def GroupCpu.timesAt (c : GroupCpu) (now : U64) (σ : PsiState) : U32 :=
  if c.stateMask σ then c.times σ + elapsed now c.stateStart else c.times σ

/-- `get_recent_times`: the group, and what has come since the aggregator's last sample -/
def Sampled.getRecentTimes (c : Sampled) (a : Aggregator) (now : U64) : Sampled × (PsiState → U32) :=
  ({ c with timesPrev := update c.timesPrev a (c.cpu.timesAt now) },
    fun σ => c.cpu.timesAt now σ - c.timesPrev a σ)

/-- A write section: of `psi_group_change`, or of `psi_account_irqtime` -/
inductive Section
  | change (clear set : Flags) (enabled currInMemstall : Bool)
  | irqtime (delta : U32)

def Section.write (now : U64) : Section → GroupCpu → GroupCpu
  | .change clear set enabled currInMemstall, c => c.change clear set enabled currInMemstall now
  | .irqtime delta, c =>
    let c' := c.recordTimes now
    { c' with times := update c'.times .irqFull (c'.times .irqFull + delta) }

/-- A current task in a memory stall is counted as one by its groups. -/
def Section.Coherent (c : GroupCpu) : Section → Prop
  | .change clear set _ currInMemstall =>
    currInMemstall = true → c.newOncpu clear set = true → c.newTasks clear set .memstall ≠ 0
  | .irqtime _ => True

instance (c : GroupCpu) (x : Section) : Decidable (x.Coherent c) := by
  cases x <;> unfold Section.Coherent <;> infer_instance

/-! ## The true times -/

/-- When the current states of a group began, how long each state lasted until then, and what each aggregator sampled
last -/
structure Truth where
  start : ℕ
  concluded : PsiState → ℤ
  sampled : Aggregator → PsiState → ℤ

/-- How long a state has lasted at `now` -/
def Truth.lasted (t : Truth) (mask : PsiState → Bool) (now : ℕ) (σ : PsiState) : ℤ :=
  t.concluded σ + if mask σ then (now : ℤ) - t.start else 0

def Section.irq : Section → PsiState → ℤ
  | .irqtime delta, .irqFull => delta.toNat
  | _, _ => 0

/-- The CPU: every group, the last reading of the clock by anyone, the writer's last reading, and the sections that it
still has to do. -/
structure Times (G : Type) where
  groups : G → Sampled
  truth : G → Truth
  clock : ℕ
  stamp : ℕ
  left : List (G × Section)

/-- What the writer and the aggregators do. The clock never goes back, whoever reads it. -/
inductive Access (G : Type)
  /-- The writer reads the clock, and knows which groups it will write. -/
  | readClock (now : ℕ) (sections : List (G × Section))
  | write
  /-- An aggregator's `get_recent_times` -/
  | sample (g : G) (a : Aggregator) (now : ℕ)

variable {G : Type} [DecidableEq G]

def Times.write (s : Times G) (g : G) (x : Section) (rest : List (G × Section)) : Times G :=
  let c := s.groups g
  let t := s.truth g
  { s with
    groups := update s.groups g { c with cpu := x.write s.stamp c.cpu }
    truth := update s.truth g
      { t with start := s.stamp, concluded := fun σ => t.lasted c.cpu.stateMask s.stamp σ + x.irq σ }
    left := rest }

def Times.sample (s : Times G) (g : G) (a : Aggregator) (now : ℕ) : Times G :=
  let c := s.groups g
  let t := s.truth g
  { s with
    groups := update s.groups g (c.getRecentTimes a now).1
    truth := update s.truth g { t with sampled := update t.sampled a (t.lasted c.cpu.stateMask now) }
    clock := now }

def Access.step : Access G → Times G → Option (Times G)
  | .readClock now sections, s =>
    if s.left.isEmpty ∧ s.clock ≤ now then some { s with clock := now, stamp := now, left := sections } else none
  | .write, s =>
    match s.left with
    | (g, x) :: rest => if x.Coherent (s.groups g).cpu then some (s.write g x rest) else none
    | [] => none
  | .sample g a now, s => if s.clock ≤ now then some (s.sample g a now) else none

/-- The stall time that an aggregator has not yet seen of a group -/
def Times.unseen (s : Times G) (g : G) (a : Aggregator) (now : ℕ) (σ : PsiState) : ℤ :=
  (s.truth g).lasted (s.groups g).cpu.stateMask now σ - (s.truth g).sampled a σ

/-- A sample is not less than the one before, and what `get_recent_times` returns is the stall time in between. -/
def Access.Right : Access G → Times G → Prop
  | .sample g a now, s => s.clock ≤ now → ∀ σ, 0 ≤ s.unseen g a now σ ∧
      ((((s.groups g).getRecentTimes a now).2 σ).toNat : ℤ) = s.unseen g a now σ
  | _, _ => True

/-- A sample does not fall between the writer's reading of the clock and its section of the group, unless it reads the
same time, and less than 2³² ns of stall have come since the aggregator's last one. -/
def Access.Careful : Access G → Times G → Prop
  | .sample g a now, s => (g ∈ s.left.map Prod.fst → now = s.stamp) ∧ ∀ σ, s.unseen g a now σ < 2 ^ 32
  | _, _ => True

/-! ## One group -/

/-- The group's words are those of the true times, and no aggregator has seen more than there was at `bound`. -/
structure GroupOk (c : Sampled) (t : Truth) (bound : ℕ) : Prop where
  nested : Nested c.cpu.stateMask
  times : ∀ σ, c.cpu.times σ = (t.concluded σ : U32)
  start : ∀ σ, c.cpu.stateMask σ = true → c.cpu.stateStart = ((t.start : ℕ) : U64)
  prev : ∀ a σ, c.timesPrev a σ = (t.sampled a σ : U32)
  seen : ∀ a σ, t.sampled a σ ≤ t.lasted c.cpu.stateMask bound σ

section

variable {c : Sampled} {t : Truth} {bound now : ℕ} {mask : PsiState → Bool} {σ : PsiState} {x : Section}

theorem Truth.lasted_mono {m n : ℕ} (h : m ≤ n) : t.lasted mask m σ ≤ t.lasted mask n σ := by
  unfold Truth.lasted
  split <;> omega

theorem elapsed_eq (now start : ℕ) : elapsed (now : U64) (start : U64) = (((now : ℤ) - start : ℤ) : U32) := by
  rw [elapsed, ← setWidth_intCast (by decide : 32 ≤ 64)]
  push_cast
  rfl

theorem GroupOk.timesAt_eq (h : GroupOk c t bound) (now : ℕ) (σ : PsiState) :
    c.cpu.timesAt now σ = (t.lasted c.cpu.stateMask now σ : U32) := by
  unfold timesAt Truth.lasted
  split
  · next hσ =>
    rw [h.times, h.start σ hσ, elapsed_eq]
    push_cast
    rfl
  · rw [h.times, add_zero]

theorem GroupOk.mono {bound' : ℕ} (h : GroupOk c t bound) (hle : bound ≤ bound') : GroupOk c t bound' :=
  { h with seen := fun a σ => (h.seen a σ).trans (Truth.lasted_mono hle) }

theorem GroupOk.recordTimes_times (h : GroupOk c t bound) (now : ℕ) (σ : PsiState) :
    (c.cpu.recordTimes now).times σ = (t.lasted c.cpu.stateMask now σ : U32) := by
  rw [← h.timesAt_eq]
  unfold recordTimes timesAt
  simp only [h.nested.concludes]

theorem Section.irq_nonneg (x : Section) (σ : PsiState) : 0 ≤ x.irq σ := by
  unfold Section.irq
  split
  · exact Int.natCast_nonneg _
  · exact le_rfl

theorem GroupOk.write_times (h : GroupOk c t bound) (x : Section) (now : ℕ) (σ : PsiState) :
    (x.write now c.cpu).times σ = ((t.lasted c.cpu.stateMask now σ + x.irq σ : ℤ) : U32) := by
  cases x with
  | change clear set enabled m =>
    have hzero : Section.irq (.change clear set enabled m) σ = 0 := rfl
    rw [hzero, add_zero, ← h.recordTimes_times]
    by_cases hrec : (enabled || c.cpu.stateMask .nonidle) = true
    · simp only [Section.write, change, if_pos hrec]
    · -- an idle CPU is in no state: there is nothing to conclude
      have hidle : ∀ σ, c.cpu.stateMask σ = false := fun σ => by
        by_contra hσ
        exact hrec (by rw [h.nested.nonidle σ (by simpa using hσ), Bool.or_true])
      have hsame : (c.cpu.recordTimes now).times σ = c.cpu.times σ := by
        simp only [recordTimes, h.nested.concludes, hidle, Bool.false_eq_true, if_false]
      simp only [Section.write, change, if_neg hrec, hsame]
  | irqtime delta =>
    by_cases hσ : σ = .irqFull
    · subst hσ
      have hdelta : ((delta.toNat : ℕ) : U32) = delta := BitVec.ofNat_toNat ..
      simp only [Section.write, update_self, Section.irq]
      rw [h.recordTimes_times]
      push_cast
      rw [hdelta]
    · have hzero : Section.irq (.irqtime delta) σ = 0 := by cases σ <;> first | rfl | exact absurd rfl hσ
      simp only [Section.write, update_of_ne hσ, hzero, add_zero]
      exact h.recordTimes_times now σ

theorem nested_write (h : Nested c.cpu.stateMask) (hx : x.Coherent c.cpu) (now : ℕ) :
    Nested (x.write now c.cpu).stateMask := by
  cases x with
  | change clear set enabled m => exact (nested_stateMaskOf hx).and enabled
  | irqtime delta => exact h

theorem write_stateStart (hσ : (x.write now c.cpu).stateMask σ = true) :
    (x.write now c.cpu).stateStart = (now : U64) := by
  cases x with
  | change clear set enabled m =>
    have hen : enabled = true := by
      simp only [Section.write, change, Bool.and_eq_true] at hσ
      exact hσ.1
    simp only [Section.write, change, hen, Bool.true_or, if_true]
    rfl
  | irqtime delta => rfl

/-- A write section keeps a group right: what was seen up to its time stays, and what comes after it is more. -/
theorem GroupOk.write (h : GroupOk c t now) (hx : x.Coherent c.cpu) (hle : now ≤ bound) :
    GroupOk { c with cpu := x.write now c.cpu }
      { t with start := now, concluded := fun σ => t.lasted c.cpu.stateMask now σ + x.irq σ } bound where
  nested := nested_write h.nested hx now
  times σ := h.write_times x now σ
  start _ hσ := write_stateStart hσ
  prev := h.prev
  seen a σ := by
    have hseen := h.seen a σ
    have hirq := x.irq_nonneg σ
    have hrest : 0 ≤ if (x.write now c.cpu).stateMask σ then (bound : ℤ) - now else 0 := by split <;> omega
    show t.sampled a σ ≤ t.lasted c.cpu.stateMask now σ + x.irq σ + _
    exact le_add_of_le_of_nonneg (le_add_of_le_of_nonneg hseen hirq) hrest

theorem GroupOk.sample (h : GroupOk c t bound) (hle : now ≤ bound) (a : Aggregator) :
    GroupOk (c.getRecentTimes a now).1 { t with sampled := update t.sampled a (t.lasted c.cpu.stateMask now) }
      bound where
  nested := h.nested
  times := h.times
  start := h.start
  prev b σ := by
    by_cases hb : b = a
    · subst hb
      simp only [Sampled.getRecentTimes, update_self]
      exact h.timesAt_eq now σ
    · simp only [Sampled.getRecentTimes, update_of_ne hb]
      exact h.prev b σ
  seen b σ := by
    by_cases hb : b = a
    · subst hb
      simp only [Sampled.getRecentTimes, update_self]
      exact Truth.lasted_mono hle
    · simp only [Sampled.getRecentTimes, update_of_ne hb]
      exact h.seen b σ

end

/-! ## Runs -/

/-- Up to when the aggregators may have looked at `g` without harm: the writer's reading, as long as its section of `g`
is still to come. -/
def Times.bound (s : Times G) (g : G) : ℕ := if g ∈ s.left.map Prod.fst then s.stamp else s.clock

structure Times.Inv (s : Times G) : Prop where
  groups : ∀ g, GroupOk (s.groups g) (s.truth g) (s.bound g)
  stamp : s.stamp ≤ s.clock

/-- No state is active, and nothing has been sampled. -/
structure Times.Start (s : Times G) : Prop where
  stateMask : ∀ g σ, (s.groups g).cpu.stateMask σ = false
  times : ∀ g σ, (s.groups g).cpu.times σ = 0
  timesPrev : ∀ g a σ, (s.groups g).timesPrev a σ = 0
  concluded : ∀ g σ, (s.truth g).concluded σ = 0
  sampled : ∀ g a σ, (s.truth g).sampled a σ = 0
  stamp : s.stamp ≤ s.clock

section

variable {s s' : Times G} {g : G}

theorem Times.Start.inv (h : s.Start) : s.Inv where
  groups g :=
    { nested := ⟨fun σ => by cases σ <;> simp [concludes, h.stateMask], fun σ hσ => by simp [h.stateMask] at hσ⟩
      times := fun σ => by rw [h.times, h.concluded, Int.cast_zero]
      start := fun σ hσ => by simp [h.stateMask] at hσ
      prev := fun a σ => by rw [h.timesPrev, h.sampled, Int.cast_zero]
      seen := fun a σ => by simp [Truth.lasted, h.stateMask, h.concluded, h.sampled] }
  stamp := h.stamp

theorem Times.Inv.bound_le_clock (h : s.Inv) (g : G) : s.bound g ≤ s.clock := by
  unfold Times.bound
  split
  · exact h.stamp
  · exact le_rfl

theorem Times.Inv.readClock (h : s.Inv) {now : ℕ} (hle : s.clock ≤ now) (l : List (G × Section)) :
    Times.Inv { s with clock := now, stamp := now, left := l } where
  groups g := by
    have hbound : Times.bound { s with clock := now, stamp := now, left := l } g = now := by
      unfold Times.bound
      split <;> rfl
    rw [hbound]
    exact (h.groups g).mono ((h.bound_le_clock g).trans hle)
  stamp := le_rfl

theorem Times.Inv.write (h : s.Inv) {x : Section} {rest : List (G × Section)} (hleft : s.left = (g, x) :: rest)
    (hx : x.Coherent (s.groups g).cpu) : (s.write g x rest).Inv where
  groups k := by
    by_cases hk : k = g
    · subst hk
      have hbound : s.bound k = s.stamp := by simp [Times.bound, hleft]
      have hok := h.groups k
      rw [hbound] at hok
      have hle : s.stamp ≤ (s.write k x rest).bound k := by
        unfold Times.bound
        split
        · exact le_rfl
        · exact h.stamp
      simp only [Times.write, update_self]
      exact hok.write hx hle
    · have hbound : (s.write g x rest).bound k = s.bound k := by
        have hiff : k ∈ s.left.map Prod.fst ↔ k ∈ rest.map Prod.fst := by
          rw [hleft, List.map_cons, List.mem_cons]
          exact or_iff_right hk
        by_cases hin : k ∈ rest.map Prod.fst
        · exact (if_pos hin).trans (if_pos (hiff.2 hin)).symm
        · exact (if_neg hin).trans (if_neg (mt hiff.1 hin)).symm
      rw [hbound]
      simp only [Times.write, update_of_ne hk]
      exact h.groups k
  stamp := h.stamp

theorem Times.Inv.sample (h : s.Inv) {now : ℕ} (hle : s.clock ≤ now) (a : Aggregator)
    (hcare : g ∈ s.left.map Prod.fst → now = s.stamp) : (s.sample g a now).Inv where
  groups k := by
    have hmono : s.bound k ≤ (s.sample g a now).bound k := by
      by_cases hin : k ∈ s.left.map Prod.fst
      · exact (if_pos hin).trans_le (if_pos hin).ge
      · exact (if_neg hin).trans_le (hle.trans (if_neg hin).ge)
    by_cases hk : k = g
    · subst hk
      have hnow : now ≤ (s.sample k a now).bound k := by
        by_cases hin : k ∈ s.left.map Prod.fst
        · exact (hcare hin).trans_le (if_pos hin).ge
        · exact (if_neg hin).ge
      simp only [Times.sample, update_self]
      exact ((h.groups k).mono hmono).sample hnow a
    · have hok := (h.groups k).mono hmono
      simp only [Times.sample, update_of_ne hk]
      exact hok
  stamp := h.stamp.trans hle

theorem Times.Inv.step (op : Access G) (s s' : Times G) (h : s.Inv) (hcare : op.Careful s) (hs : op.step s = some s') :
    s'.Inv := by
  cases op with
  | readClock now l =>
    obtain ⟨⟨-, hle⟩, rfl⟩ := of_guard hs
    exact h.readClock hle l
  | write =>
    simp only [Access.step] at hs
    split at hs
    · next g x rest hleft =>
      obtain ⟨hx, rfl⟩ := of_guard hs
      exact h.write hleft hx
    · simp at hs
  | sample g a now =>
    obtain ⟨hle, rfl⟩ := of_guard hs
    exact h.sample hle a hcare.1

/-- A sample finds no less than the last one did, and returns the difference when it is in range. -/
theorem Times.Inv.right (h : s.Inv) {op : Access G} (hcare : op.Careful s) : op.Right s := by
  cases op with
  | readClock | write => trivial
  | sample g a now =>
    intro hle σ
    have hok := h.groups g
    have hseen := (hok.seen a σ).trans (Truth.lasted_mono ((h.bound_le_clock g).trans hle))
    have hnonneg : 0 ≤ s.unseen g a now σ := sub_nonneg.2 hseen
    refine ⟨hnonneg, ?_⟩
    have hword : ((s.groups g).getRecentTimes a now).2 σ = (s.unseen g a now σ : U32) := by
      simp only [Sampled.getRecentTimes, Times.unseen]
      rw [hok.timesAt_eq, hok.prev]
      push_cast
      rfl
    rw [hword, toNat_intCast hnonneg]
    exact_mod_cast hcare.2 σ

/-- In every run in which no sample falls between a writer's reading of the clock and its section of the group, and none
comes 2³² ns of stall after the last, every sample is right. -/
theorem Access.right_of_careful {ops : List (Access G)} (hstart : s.Start)
    (hcare : Along Access.step Access.Careful ops s) : Along Access.step Access.Right ops s :=
  hcare.imp_invariant Times.Inv.step (fun _ _ hi hc => hi.right hc) hstart.inv

end

section

instance (op : Access G) (s : Times G) : Decidable (op.Right s) := by
  cases op <;> unfold Access.Right <;> infer_instance

instance (op : Access G) (s : Times G) : Decidable (op.Careful s) := by
  cases op <;> unfold Access.Careful <;> infer_instance

def quietTimes : Times Bool where
  groups _ := ⟨⟨fun _ => 0, false, fun _ => false, fun _ => 0, 0⟩, fun _ _ => 0⟩
  truth _ := ⟨0, fun _ => 0, fun _ _ => 0⟩
  clock := 0
  stamp := 0
  left := []

theorem quietTimes_start : quietTimes.Start :=
  ⟨fun _ _ => rfl, fun _ _ => rfl, fun _ _ _ => rfl, fun _ _ => rfl, fun _ _ _ => rfl, le_rfl⟩

def iowaitBit : Flags := ⟨fun t => decide (t = .iowait), false⟩

def waits : Section := .change .none iowaitBit true false

def waitsNoMore : Section := .change iowaitBit .none true false

/-- The writer reads 90, and an aggregator samples at 100, before the section: it counts 10 ns that the section then
does not conclude. The next sample is 10 ns less. -/
def racyRun : List (Access Bool) :=
  [.readClock 10 [(false, waits)], .write, .readClock 90 [(false, waitsNoMore)], .sample false .avgs 100, .write,
    .sample false .avgs 110]

theorem wrong_racyRun : ¬ Along Access.step Access.Right racyRun quietTimes := by decide +kernel

/-- The same, and a sample of another group in the same place -/
def carefulRun : List (Access Bool) :=
  [.readClock 10 [(false, waits), (true, waits)], .write, .write, .sample false .avgs 80,
    .readClock 90 [(false, waitsNoMore)],
    .sample true .avgs 100, .sample true .poll 100, .write, .sample false .avgs 110]

theorem right_carefulRun : Along Access.step Access.Right carefulRun quietTimes :=
  Access.right_of_careful quietTimes_start (by decide +kernel)

end

end KernelSched.Psi
