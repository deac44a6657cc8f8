import KernelSched.Lib.Run
import Mathlib.Logic.Function.Iterate

/-!
# Completions

`complete` counts up `done` and takes a task off the queue, `complete_all` sets `done` to `UINT_MAX` and takes off all.
A task that waits looks at `done` before it sleeps and each time it runs again, for whatever reason: it takes one from
it, or sleeps on. So a task may be woken in vain, but no wakeup is lost: while tasks sleep on the queue, at least as
many as `done` counts have been woken and are still to run (`completion_right`).

Each section under `wait.lock` is a step. The order of the queue does not matter here, so it is a number.
-/

namespace KernelSched.Wait

open Run

/-! ## Model -/

/-- `UINT_MAX`; as `done` it stands for any number of completions. -/
def uintMax : Nat := 0xffffffff

structure Completion where
  done : Nat
  /-- The tasks on `wait.task_list` -/
  queued : Nat
  /-- The tasks that were taken off it and have not got the lock again -/
  woken : Nat
  /-- The calls of `complete` since `reinit_completion`, and the waits that took one -/
  posted : Nat
  taken : Nat

namespace Completion

def swakeUpLocked (x : Completion) : Completion :=
  if x.queued = 0 then x else { x with queued := x.queued - 1, woken := x.woken + 1 }

def swakeUpAllLocked (x : Completion) : Completion := swakeUpLocked^[x.queued] x

def complete (x : Completion) : Completion :=
  { x with done := if x.done ≠ uintMax then x.done + 1 else x.done, posted := x.posted + 1 }.swakeUpLocked

def completeAll (x : Completion) : Completion := { x with done := uintMax }.swakeUpAllLocked

/-- What `do_wait_for_common` does each time it looks at `done`; it sleeps with time left and no signal pending. -/
def look (sleep : Bool) (x : Completion) : Completion :=
  if x.done ≠ 0 then { x with done := if x.done ≠ uintMax then x.done - 1 else x.done, taken := x.taken + 1 }
  else if sleep then { x with queued := x.queued + 1 }
  else x

/-- `resume` is a task that slept and has the lock again; after a timeout, say, it is still on the queue. -/
inductive Op
  | complete
  | completeAll
  | reinit
  | tryWait
  | wait (sleep : Bool)
  | resume (onQueue sleep : Bool)

def step (n : Nat) : Op → Completion → Option Completion
  | .complete, x => some x.complete
  | .completeAll, x => some x.completeAll
  | .reinit, x => some { x with done := 0, posted := 0, taken := 0 }
  | .tryWait, x => some (x.look false)
  | .wait sleep, x => if x.queued + x.woken < n then some (x.look sleep) else none
  | .resume true sleep, x => if x.queued ≠ 0 then some ({ x with queued := x.queued - 1 }.look sleep) else none
  | .resume false sleep, x => if x.woken ≠ 0 then some ({ x with woken := x.woken - 1 }.look sleep) else none

/-! ## Every run -/

/-- No wakeup is lost, and until `done` is `UINT_MAX` each `complete` is for one wait. -/
structure Right (n : Nat) (x : Completion) : Prop where
  total : x.queued + x.woken ≤ n
  le : x.done ≤ uintMax
  woken : x.queued ≠ 0 → x.done ≤ x.woken
  kept : x.done ≠ uintMax → x.taken + x.done = x.posted

section

variable {n : Nat} {x x' : Completion}

theorem swakeUpAllLocked_eq (x : Completion) :
    x.swakeUpAllLocked = { x with queued := 0, woken := x.queued + x.woken } := by
  obtain ⟨done, queued, woken, posted, taken⟩ := x
  induction queued generalizing woken with
  | zero => simp [swakeUpAllLocked]
  | succ k ih =>
    rw [Nat.succ_add_eq_add_succ]
    exact ih (woken + 1)

/-- The task that takes one may be the one that was woken for it, and is `woken` no more. -/
theorem look_right {sleep : Bool} (htotal : x.queued + x.woken + sleep.toNat ≤ n) (hle : x.done ≤ uintMax)
    (hwoken : x.queued ≠ 0 → x.done ≤ x.woken + 1 ∧ x.done ≠ uintMax)
    (hkept : x.done ≠ uintMax → x.taken + x.done = x.posted) : (x.look sleep).Right n := by
  constructor <;> cases sleep <;> grind [look]

theorem Right.step {op : Op} (hn : n < uintMax) (h : x.Right n) (hstep : Completion.step n op x = some x') :
    x'.Right n := by
  obtain ⟨htotal, hle, hwoken, hkept⟩ := h
  cases op with
  | complete =>
    cases hstep
    constructor <;> grind [Completion.complete, swakeUpLocked]
  | completeAll =>
    cases hstep
    rw [completeAll, swakeUpAllLocked_eq]
    exact ⟨by simpa using htotal, Nat.le_refl _, fun h => absurd rfl h, fun h => absurd rfl h⟩
  | reinit =>
    cases hstep
    exact ⟨htotal, Nat.zero_le _, fun _ => Nat.zero_le _, fun _ => rfl⟩
  | tryWait =>
    cases hstep
    exact look_right htotal hle (by omega) hkept
  | wait sleep =>
    obtain ⟨hfree, rfl⟩ := of_guard hstep
    exact look_right (by cases sleep <;> simp <;> omega) hle (by omega) hkept
  | resume onQueue sleep =>
    cases onQueue <;> obtain ⟨hthere, rfl⟩ := of_guard hstep
    all_goals
      refine look_right ?_ hle (fun hq => ?_) hkept <;> cases sleep <;> grind

end

/-- As long as fewer than `UINT_MAX` tasks wait at a time, no wakeup is lost. -/
theorem completion_right {n : Nat} (ops : List Op) {x : Completion} (hn : n < uintMax)
    (hrun : run (step n) ops ⟨0, 0, 0, 0, 0⟩ = some x) : x.Right n :=
  run_invariant (fun _ _ _ h => h.step hn) ⟨Nat.zero_le _, Nat.zero_le _, fun _ => Nat.zero_le _, fun _ => rfl⟩ hrun

/-- Two tasks sleep; a third takes what the first was woken for. -/
def overtaken : List Op := [.wait true, .wait true, .complete, .wait true, .resume false true]

theorem completion_right_overtaken : ∃ x, run (step 3) overtaken ⟨0, 0, 0, 0, 0⟩ = some x ∧ x.queued = 2 ∧ x.Right 3 :=
  ⟨_, rfl, rfl, completion_right overtaken (by decide) rfl⟩

end Completion

end KernelSched.Wait
