import KernelSched.Lib.Wrap

/-!
# Pressure stall information: what a group keeps for one CPU

A `psi_group_cpu` counts the tasks of the group's subtree on the CPU in each of four conditions, and derives from the
counts which pressure states the CPU is in. `psi_group_change` moves a task from one set of conditions to another; it
also concludes the states that were active, with the time they lasted (`record_times`).
-/

namespace KernelSched.Psi

open Wrap

abbrev U32 := BitVec 32

inductive TaskCount
  | iowait
  | memstall
  | running
  | memstallRunning
  deriving DecidableEq

instance : Fintype TaskCount := ⟨{.iowait, .memstall, .running, .memstallRunning}, fun t => by cases t <;> decide⟩

inductive PsiState
  | ioSome
  | ioFull
  | memSome
  | memFull
  | cpuSome
  | cpuFull
  | irqFull
  | nonidle
  deriving DecidableEq

instance : Fintype PsiState :=
  ⟨{.ioSome, .ioFull, .memSome, .memFull, .cpuSome, .cpuFull, .irqFull, .nonidle}, fun σ => by cases σ <;> decide⟩

/-- A set of `TSK_*` bits: one for each count, and `TSK_ONCPU`, which has none. -/
@[ext] structure Flags where
  tsk : TaskCount → Bool
  oncpu : Bool
  deriving DecidableEq

namespace Flags

def none : Flags := ⟨fun _ => false, false⟩

def onlyOncpu : Flags := ⟨fun _ => false, true⟩

/-- The bits of `f` that are not in `clear`, and those in `set` -/
def change (f clear set : Flags) : Flags :=
  ⟨fun t => f.tsk t && !clear.tsk t || set.tsk t, f.oncpu && !clear.oncpu || set.oncpu⟩

/-- `clear & ~TSK_ONCPU` -/
def dropOncpu (f : Flags) : Flags := { f with oncpu := false }

def Sub (f f' : Flags) : Prop := (∀ t, f.tsk t = true → f'.tsk t = true) ∧ (f.oncpu = true → f'.oncpu = true)

def Disjoint (f f' : Flags) : Prop := (∀ t, ¬ (f.tsk t = true ∧ f'.tsk t = true)) ∧ ¬ (f.oncpu = true ∧ f'.oncpu = true)

instance (f f' : Flags) : Decidable (f.Sub f') := inferInstanceAs (Decidable (_ ∧ _))

instance (f f' : Flags) : Decidable (f.Disjoint f') := inferInstanceAs (Decidable (_ ∧ _))

theorem none_sub (f : Flags) : none.Sub f := by simp [Sub, none]

theorem sub_self (f : Flags) : f.Sub f := ⟨fun _ h => h, fun h => h⟩

theorem disjoint_none (f : Flags) : f.Disjoint none := by simp [Disjoint, none]

theorem none_disjoint (f : Flags) : none.Disjoint f := by simp [Disjoint, none]

theorem disjoint_onlyOncpu {f : Flags} (hf : f.oncpu = false) : f.Disjoint onlyOncpu := by
  simp [Disjoint, onlyOncpu, hf]

theorem change_self (f : Flags) : f.change f none = none := by ext t <;> simp [change, none]

theorem none_change (f : Flags) : none.change none f = f := by ext t <;> simp [change, none]

end Flags

/-- `struct psi_group_cpu`, the part that the scheduler writes; `PSI_ONCPU` is a bit of its own. -/
structure GroupCpu where
  tasks : TaskCount → ℕ
  oncpu : Bool
  stateMask : PsiState → Bool
  times : PsiState → U32
  stateStart : U64

def testState (tasks : TaskCount → ℕ) (oncpu : Bool) : PsiState → Bool
  | .ioSome => decide (tasks .iowait ≠ 0)
  | .ioFull => decide (tasks .iowait ≠ 0) && decide (tasks .running = 0)
  | .memSome => decide (tasks .memstall ≠ 0)
  | .memFull => decide (tasks .memstall ≠ 0) && decide (tasks .running = tasks .memstallRunning)
  | .cpuSome => decide (oncpu.toNat < tasks .running)
  | .cpuFull => decide (tasks .running ≠ 0) && !oncpu
  | .irqFull => false
  | .nonidle => decide (tasks .iowait ≠ 0) || decide (tasks .memstall ≠ 0) || decide (tasks .running ≠ 0)

/-- The states of which `record_times` concludes the time: FULL only within SOME. -/
def concludes (mask : PsiState → Bool) : PsiState → Bool
  | .ioSome => mask .ioSome
  | .ioFull => mask .ioSome && mask .ioFull
  | .memSome => mask .memSome
  | .memFull => mask .memSome && mask .memFull
  | .cpuSome => mask .cpuSome
  | .cpuFull => mask .cpuSome && mask .cpuFull
  | .irqFull => false
  | .nonidle => mask .nonidle

/-- The time since `start`, cut to 32 bits -/
def elapsed (now start : U64) : U32 := (now - start).setWidth 32

def GroupCpu.recordTimes (c : GroupCpu) (now : U64) : GroupCpu :=
  { c with
    times := fun σ => if concludes c.stateMask σ then c.times σ + elapsed now c.stateStart else c.times σ
    stateStart := now }

/-- The mask that `psi_group_change` makes of the counts: a group whose task on the CPU is in a memory stall is in
`PSI_MEM_FULL`, whatever the counts. -/
def stateMaskOf (tasks : TaskCount → ℕ) (oncpu currInMemstall : Bool) (σ : PsiState) : Bool :=
  testState tasks oncpu σ || decide (σ = .memFull) && oncpu && currInMemstall

namespace GroupCpu

variable (c : GroupCpu) (clear set : Flags)

/-- `PSI_ONCPU` after a change: cleared, set, or carried -/
def newOncpu : Bool := if clear.oncpu then false else if set.oncpu then true else c.oncpu

/-- The counts after a change; a count that is zero is not decremented. -/
def newTasks (t : TaskCount) : ℕ :=
  (if clear.tsk t then c.tasks t - 1 else c.tasks t) + if set.tsk t then 1 else 0

/-- The change would take a count below zero ("task underflow!"). -/
def underflow : Bool := decide (∃ t, clear.tsk t = true ∧ c.tasks t = 0)

/-- `psi_group_change`, of the group's own data. A group that is not enabled keeps its counts, and concludes its states
at the first change. -/
def change (enabled currInMemstall : Bool) (now : U64) : GroupCpu :=
  let c' := if enabled || c.stateMask .nonidle then c.recordTimes now else c
  { c' with
    tasks := c.newTasks clear set
    oncpu := c.newOncpu clear set
    stateMask := fun σ => enabled && stateMaskOf (c.newTasks clear set) (c.newOncpu clear set) currInMemstall σ }

end GroupCpu

/-! ## Masks -/

/-- What `record_times` concludes is what is active, and a CPU in any state is not idle. -/
structure Nested (mask : PsiState → Bool) : Prop where
  concludes : ∀ σ, concludes mask σ = mask σ
  nonidle : ∀ σ, mask σ = true → mask .nonidle = true

theorem nested_stateMaskOf {tasks : TaskCount → ℕ} {oncpu m : Bool}
    (h : m = true → oncpu = true → tasks .memstall ≠ 0) : Nested (stateMaskOf tasks oncpu m) where
  concludes σ := by
    cases σ with
    | memFull =>
      simp [concludes, stateMaskOf, testState]
      rintro (⟨h0, -⟩ | ⟨ho, hm⟩)
      · exact h0
      · exact h hm ho
    | cpuFull =>
      simp [concludes, stateMaskOf, testState]
      rintro h0 rfl
      exact Nat.pos_of_ne_zero h0
    | _ => simp [concludes, stateMaskOf, testState]
  nonidle σ := by
    cases σ <;> simp [stateMaskOf, testState] <;> grind

theorem Nested.and {mask : PsiState → Bool} (h : Nested mask) (e : Bool) : Nested fun σ => e && mask σ := by
  cases e with
  | false => exact ⟨fun σ => by cases σ <;> rfl, fun σ hσ => absurd hσ (by simp)⟩
  | true => simpa using h

end KernelSched.Psi
