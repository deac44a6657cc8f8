import KernelSched.Lib.Rooted
import KernelSched.Psi.Group

/-!
# Pressure stall information: the tasks of one CPU and what the scheduler tells about them

The hooks of `stats.h` (`psi_enqueue`, `psi_dequeue`, `psi_ttwu_dequeue`), the memory stall sections,
`cgroup_move_task` and `psi_task_switch`, as operations of one CPU. `Op.step` also says when the scheduler calls each of
them: a task is taken off the queue without going to sleep only when it is not running; going to sleep is a dequeue of
the running task, after which only other tasks change until the switch; the running task alone enters and leaves memory
stalls and marks itself as waiting for I/O.
-/

namespace KernelSched.Psi

open Wrap Rooted

structure Hierarchy where
  tree : Tree
  enabled : ℕ → Bool

/-- Where the scheduler has a task: on another CPU; on this CPU and on no queue, just arrived or about to leave; on
the queue; asleep since it last ran here. -/
inductive Place
  | away
  | detached
  | queued
  | asleep
  deriving DecidableEq

/-- What psi knows of a task. `sections` are the values that its open `psi_memstall_enter` calls have saved, innermost
first. -/
structure Task where
  flags : Flags
  inMemstall : Bool
  inIowait : Bool
  group : ℕ
  place : Place
  sections : List Bool

def Task.reflag (x : Task) (clear set : Flags) : Task := { x with flags := x.flags.change clear set }

/-- Every group's data of this CPU, and whether an inconsistency has been reported -/
structure Books where
  groups : ℕ → GroupCpu
  psiBug : Bool

/-- The CPU: its tasks, the current one (`none` is the idle task) and the books. -/
structure State (P : Type) where
  task : P → Task
  curr : Option P
  books : Books

variable {P : Type} [DecidableEq P] (H : Hierarchy)

namespace State

def currInMemstall (s : State P) : Bool :=
  match s.curr with
  | some p => (s.task p).inMemstall
  | none => false

def setTask (s : State P) (p : P) (x : Task) : State P := { s with task := Function.update s.task p x }

def psiGroupChange (clear set : Flags) (now : U64) (s : State P) (g : ℕ) : State P :=
  let c := s.books.groups g
  { s with
    books :=
      { groups := Function.update s.books.groups g (c.change clear set (H.enabled g) s.currInMemstall now)
        psiBug := s.books.psiBug || c.underflow clear } }

/-- `psi_group_change` on one group after the other -/
def psiGroupsChange (clear set : Flags) (now : U64) (l : List ℕ) (s : State P) : State P :=
  l.foldl (psiGroupChange H clear set now) s

/-- `psi_flags_change`: reports bits that are set already, or cleared and not set ("inconsistent task state!"). -/
def psiFlagsChange (p : P) (clear set : Flags) (s : State P) : State P :=
  let x := s.task p
  { s.setTask p (x.reflag clear set) with
    books := { s.books with psiBug := s.books.psiBug || !decide (x.flags.Disjoint set ∧ clear.Sub x.flags) } }

/-- For a task that is not the idle task -/
def psiTaskChange (p : P) (clear set : Flags) (now : U64) (s : State P) : State P :=
  (s.psiFlagsChange p clear set).psiGroupsChange H clear set now (H.tree.path (s.task p).group)

/-! ## `psi_task_switch` -/

/-- The groups of the next task get `PSI_ONCPU`, up to the first that has it. -/
def setOncpu (now : U64) : List ℕ → State P → State P × Option ℕ
  | [], s => (s, none)
  | g :: gs, s =>
    if (s.books.groups g).oncpu then (s, some g)
    else setOncpu now gs (s.psiGroupChange H .none .onlyOncpu now g)

/-- The groups of the previous task change, up to `common`; the others are left. -/
def clearOncpu (clear set : Flags) (now : U64) (common : Option ℕ) : List ℕ → State P → State P × List ℕ
  | [], s => (s, [])
  | g :: gs, s =>
    if common = some g then (s, g :: gs)
    else clearOncpu clear set now common gs (s.psiGroupChange H clear set now g)

def switchClear (x : Task) (sleep : Bool) : Flags where
  tsk t := sleep && (decide (t = .running) || decide (t = .memstallRunning) && x.inMemstall)
  oncpu := true

def switchSet (x : Task) (sleep : Bool) : Flags where
  tsk t := sleep && decide (t = .iowait) && x.inIowait
  oncpu := false

/-- `psi_flags`; the idle task has none. -/
def flagsOf (s : State P) : Option P → Flags
  | some p => (s.task p).flags
  | none => .none

/-- The first half of `psi_task_switch`: the next task -/
def switchIn (next : Option P) (now : U64) (s : State P) : State P × Option ℕ :=
  match next with
  | none => (s, none)
  | some q => setOncpu H now (H.tree.path (s.task q).group) (s.psiFlagsChange q .none .onlyOncpu)

/-- The second half of `psi_task_switch`: the previous task -/
def switchOut (p : P) (next : Option P) (common : Option ℕ) (sleep : Bool) (now : U64) (s : State P) : State P :=
  let clear := switchClear (s.task p) sleep
  let set := switchSet (s.task p) sleep
  let s₁ := s.psiFlagsChange p clear set
  let r := clearOncpu H clear set now common (H.tree.path (s.task p).group) s₁
  -- other differences between the two tasks go on to the root
  if (r.1.flagsOf (some p)).tsk ≠ (r.1.flagsOf next).tsk then
    r.1.psiGroupsChange H clear.dropOncpu set now r.2
  else r.1

/-- `rq->curr` is the next task already. -/
def psiTaskSwitch (prev next : Option P) (sleep : Bool) (now : U64) (s : State P) : State P :=
  let r := s.switchIn H next now
  match prev with
  | none => r.1
  | some p => r.1.switchOut H p next r.2 sleep now

/-! ## The hooks -/

def enqueueSet (x : Task) (wakeup : Bool) : Flags where
  tsk
    | .running => true
    | .memstallRunning => x.inMemstall
    | .memstall => !wakeup && x.inMemstall
    | .iowait => false
  oncpu := false

def enqueueClear (x : Task) (wakeup : Bool) : Flags where
  tsk t := wakeup && decide (t = .iowait) && x.inIowait
  oncpu := false

def psiEnqueue (p : P) (wakeup : Bool) (now : U64) (s : State P) : State P :=
  s.psiTaskChange H p (enqueueClear (s.task p) wakeup) (enqueueSet (s.task p) wakeup) now

/-- `psi_dequeue`: of a task that goes to sleep, `psi_task_switch` takes care. -/
def psiDequeue (p : P) (sleep : Bool) (now : U64) (s : State P) : State P :=
  if sleep then s else s.psiTaskChange H p (s.task p).flags .none now

def psiTtwuDequeue (p : P) (now : U64) (s : State P) : State P :=
  if (s.task p).flags ≠ .none then s.psiTaskChange H p (s.task p).flags .none now else s

/-- `TSK_MEMSTALL | TSK_MEMSTALL_RUNNING` -/
def memstallBits : Flags where
  tsk t := decide (t = .memstall) || decide (t = .memstallRunning)
  oncpu := false

/-- `psi_memstall_enter` of the current task -/
def psiMemstallEnter (p : P) (now : U64) (s : State P) : State P :=
  let x := { s.task p with sections := (s.task p).inMemstall :: (s.task p).sections }
  if x.inMemstall then s.setTask p x
  else (s.setTask p { x with inMemstall := true }).psiTaskChange H p .none memstallBits now

/-- `psi_memstall_leave` of the current task, given what the call that opened the section has saved -/
def psiMemstallLeave (p : P) (saved : Bool) (now : U64) (s : State P) : State P :=
  if saved then s
  else (s.setTask p { s.task p with inMemstall := false }).psiTaskChange H p memstallBits .none now

def cgroupMoveTask (p : P) (dst : ℕ) (now now' : U64) (s : State P) : State P :=
  let flags := (s.task p).flags
  if flags = .none then s.setTask p { s.task p with group := dst }
  else
    let s₁ := s.psiTaskChange H p flags .none now
    (s₁.setTask p { s₁.task p with group := dst }).psiTaskChange H p .none flags now'

end State

/-! ## What happens on the CPU -/

/-- The values that `n` nested sections have saved, innermost first -/
def openSections : ℕ → List Bool
  | 0 => []
  | n + 1 => decide (0 < n) :: openSections n

/-- What happens on the CPU. Each hook has the times it reads from `cpu_clock`. -/
inductive Op (P : Type)
  | enqueue (p : P) (wakeup : Bool) (now : U64)
  | dequeue (p : P) (sleep : Bool) (now : U64)
  | ttwuDequeue (p : P) (now : U64)
  | memstallEnter (now : U64)
  | memstallLeave (now : U64)
  /-- `io_schedule_prepare` and `io_schedule_finish` write `in_iowait`. -/
  | setIowait (inIowait : Bool)
  | cgroupMove (p : P) (dst : ℕ) (now now' : U64)
  | switch (next : Option P) (now : U64)
  /-- `set_task_cpu` to another CPU -/
  | depart (p : P)
  /-- A task comes from another CPU, or is new: in some group, with some memory stall sections open. -/
  | arrive (p : P) (group depth : ℕ) (inIowait : Bool)

def State.putAt (s : State P) (p : P) (place : Place) : State P := s.setTask p { s.task p with place := place }

/-- `!task_on_rq_queued(prev)` -/
def State.currSleeps (s : State P) : Bool :=
  match s.curr with
  | some p => decide ((s.task p).place ≠ .queued)
  | none => false

/-- The state after an operation, if the scheduler does it in `s` -/
def Op.step : Op P → State P → Option (State P)
  | .enqueue p wakeup now, s =>
    if (s.task p).place = (if wakeup then .asleep else .detached) ∧ s.curr ≠ some p then
      some ((s.psiEnqueue H p wakeup now).putAt p .queued)
    else none
  | .dequeue p sleep now, s =>
    if (s.task p).place = .queued ∧ (sleep = true ↔ s.curr = some p) then
      some ((s.psiDequeue H p sleep now).putAt p (if sleep then .asleep else .detached))
    else none
  | .ttwuDequeue p now, s =>
    if (s.task p).place = .asleep ∧ s.curr ≠ some p then some ((s.psiTtwuDequeue H p now).putAt p .detached) else none
  | .memstallEnter now, s =>
    match s.curr with
    | some p => if (s.task p).place = .queued then some (s.psiMemstallEnter H p now) else none
    | none => none
  | .memstallLeave now, s =>
    match s.curr with
    | some p =>
      match (s.task p).sections with
      | saved :: rest =>
        if (s.task p).place = .queued then
          some ((s.setTask p { s.task p with sections := rest }).psiMemstallLeave H p saved now)
        else none
      | [] => none
    | none => none
  | .setIowait inIowait, s =>
    match s.curr with
    | some p =>
      if (s.task p).place = .queued then some (s.setTask p { s.task p with inIowait := inIowait }) else none
    | none => none
  | .cgroupMove p dst now now', s =>
    -- a task of another CPU has its bits in that CPU's books
    if (s.task p).place = .away then some (s.setTask p { s.task p with group := dst })
    else some (s.cgroupMoveTask H p dst now now')
  | .switch next now, s =>
    if next ≠ s.curr ∧ ∀ q ∈ next, (s.task q).place = .queued then
      some ({ s with curr := next }.psiTaskSwitch H s.curr next s.currSleeps now)
    else none
  | .depart p, s => if (s.task p).place = .detached then some (s.putAt p .away) else none
  | .arrive p group depth inIowait, s =>
    if (s.task p).place = .away then
      some (s.setTask p ⟨.none, decide (0 < depth), inIowait, group, .detached, openSections depth⟩)
    else none

/-- No task has come to the CPU yet. -/
structure State.Boot (s : State P) : Prop where
  away : ∀ p, (s.task p).place = .away
  idle : s.curr = none
  tasks : ∀ g t, (s.books.groups g).tasks t = 0
  oncpu : ∀ g, (s.books.groups g).oncpu = false
  stateMask : ∀ g σ, (s.books.groups g).stateMask σ = false
  psiBug : s.books.psiBug = false

end KernelSched.Psi
