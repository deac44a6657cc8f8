import KernelSched.Deadline.GlobalLimit

/-!
# Deadline tasks and their bandwidth

What a deadline task has reserved is counted in three places: in the active bandwidth of its runqueue (`running_bw`)
while it contends or its 0-lag time has not passed, in the bandwidth assigned to the runqueue (`this_bw`), and in the
bandwidth its root domain has admitted (`total_bw`). This module has the functions that keep the three, and `Sched.step`,
which does one of the things that can happen to a task.

- A function sees the machine, all runqueues and one task (`View`). A task that is between two runqueues cannot be
  locked, so only the end of its migration can happen to it.
- The inactive timer is idle, armed, or `firing`: its handler has started and waits for the lock of the runqueue. Such a
  handler can no longer be cancelled.
- Time is not modelled. Whether the 0-lag time has passed, whether a timer could be started and whether a task is
  activated between its deadline and its period are inputs of the operations.
- No task is boosted by priority inheritance, so that a task is in the deadline class exactly if that is its policy.
-/

set_option linter.style.nameCheck false

namespace KernelSched.Deadline

/-! ## Runqueues -/

/-- The bandwidths of `struct dl_rq`, as 64-bit words. `warned`: a check of the functions below has failed. -/
structure RqBw where
  runningBw : Nat
  thisBw : Nat
  warned : Bool
  deriving Repr, DecidableEq

namespace RqBw

def __addRunningBw (dlBw : Nat) (q : RqBw) : RqBw :=
  let new := (q.runningBw + dlBw) % 2 ^ 64
  { q with runningBw := new, warned := q.warned || new < q.runningBw || q.thisBw < new }

def __subRunningBw (dlBw : Nat) (q : RqBw) : RqBw :=
  let new := (q.runningBw + (2 ^ 64 - dlBw)) % 2 ^ 64
  { q with runningBw := if q.runningBw < new then 0 else new, warned := q.warned || q.runningBw < new }

def __addRqBw (dlBw : Nat) (q : RqBw) : RqBw :=
  let new := (q.thisBw + dlBw) % 2 ^ 64
  { q with thisBw := new, warned := q.warned || new < q.thisBw }

def __subRqBw (dlBw : Nat) (q : RqBw) : RqBw :=
  let new := (q.thisBw + (2 ^ 64 - dlBw)) % 2 ^ 64
  let this := if q.thisBw < new then 0 else new
  { q with thisBw := this, warned := q.warned || q.thisBw < new || this < q.runningBw }

end RqBw

/-! ## Tasks -/

/-- The policies, as far as bandwidth is concerned. -/
inductive Policy where
  | deadline
  | other
  deriving Repr, DecidableEq

/-- `__state`: `new` is `TASK_NEW`, `blocked` any state a task sleeps in. -/
inductive TaskState where
  | new
  | running
  | blocked
  | waking
  | dead
  deriving Repr, DecidableEq

inductive OnRq where
  | off
  | queued
  | migrating
  deriving Repr, DecidableEq

inductive Timer where
  | idle
  | armed
  | firing
  deriving Repr, DecidableEq

namespace Timer

def active : Timer → Bool
  | idle => false
  | _ => true

def tryToCancel : Timer → Timer
  | firing => firing
  | _ => idle

end Timer

/-- `SCHED_DL_FLAGS` -/
structure DlFlags where
  reclaim : Bool
  overrun : Bool
  sugov : Bool
  deriving Repr, DecidableEq

def DlFlags.none : DlFlags := { reclaim := false, overrun := false, sugov := false }

structure DlEntity where
  dlRuntime : Nat
  dlDeadline : Nat
  dlPeriod : Nat
  dlBw : Nat
  flags : DlFlags
  throttled : Bool
  nonContending : Bool
  inactiveTimer : Timer
  deriving Repr, DecidableEq

namespace DlEntity

def special (dl : DlEntity) : Bool := dl.flags.sugov

def isImplicit (dl : DlEntity) : Bool := dl.dlDeadline = dl.dlPeriod

/-- `__dl_clear_params`; the timer is left alone. -/
def clearParams (dl : DlEntity) : DlEntity :=
  { dlRuntime := 0, dlDeadline := 0, dlPeriod := 0, dlBw := 0, flags := DlFlags.none, throttled := false,
    nonContending := false, inactiveTimer := dl.inactiveTimer }

/-- The flag `dl_non_contending` is cleared and the timer is cancelled, if it still can be. -/
def contend (dl : DlEntity) : DlEntity :=
  { dl with nonContending := false, inactiveTimer := dl.inactiveTimer.tryToCancel }

end DlEntity

/-- `struct task_struct`. `wakeMigrated` is `sched_remote_wakeup`: a waking task has been moved to another CPU and is not
yet activated there. -/
structure Task where
  cpu : Nat
  policy : Policy
  state : TaskState
  onRq : OnRq
  wakeMigrated : Bool
  dl : DlEntity
  deriving Repr, DecidableEq

def Task.fork (cpu : Nat) : Task where
  cpu := cpu
  policy := .other
  state := .new
  onRq := .off
  wakeMigrated := false
  dl :=
    { dlRuntime := 0, dlDeadline := 0, dlPeriod := 0, dlBw := 0, flags := DlFlags.none, throttled := false,
      nonContending := false, inactiveTimer := .idle }

/-! ## Parameters -/

/-- `struct sched_attr`. The policy is `none` if it is to be kept. -/
structure SchedAttr where
  policy : Option Policy
  runtime : Nat
  deadline : Nat
  period : Nat
  flags : DlFlags
  keepParams : Bool
  utilClamp : Bool
  deriving Repr, DecidableEq

/-- `sysctl_sched_dl_period_min` and `sysctl_sched_dl_period_max`, in microseconds. -/
structure PeriodRange where
  min : Nat
  max : Nat
  deriving Repr, DecidableEq

def dlScale : Nat := 10

namespace SchedAttr

def periodOrDeadline (attr : SchedAttr) : Nat := if attr.period = 0 then attr.deadline else attr.period

def bw (attr : SchedAttr) : Nat := toRatio attr.periodOrDeadline attr.runtime

def __checkparamDl (range : PeriodRange) (attr : SchedAttr) : Bool :=
  attr.flags.sugov ||
    (attr.deadline ≠ 0 && 1 <<< dlScale ≤ attr.runtime && attr.deadline < 2 ^ 63 && attr.period < 2 ^ 63 &&
      attr.deadline ≤ attr.periodOrDeadline && attr.runtime ≤ attr.deadline &&
      range.min * 1000 ≤ attr.periodOrDeadline && attr.periodOrDeadline ≤ range.max * 1000)

/-- `__setparam_dl` -/
def setparam (attr : SchedAttr) (dl : DlEntity) : DlEntity :=
  { dl with
    dlRuntime := attr.runtime
    dlDeadline := attr.deadline
    dlPeriod := attr.periodOrDeadline
    flags := attr.flags
    dlBw := attr.bw }

def dlParamChanged (attr : SchedAttr) (dl : DlEntity) : Bool :=
  dl.dlRuntime ≠ attr.runtime || dl.dlDeadline ≠ attr.deadline || dl.dlPeriod ≠ attr.period || dl.flags ≠ attr.flags

def other : SchedAttr where
  policy := some .other
  runtime := 0
  deadline := 0
  period := 0
  flags := DlFlags.none
  keepParams := false
  utilClamp := false

/-- A deadline policy with a runtime out of 100 ms. -/
def perTenth (runtime : Nat) : SchedAttr :=
  { other with policy := some .deadline, runtime := runtime, deadline := 100000000, period := 100000000 }

end SchedAttr

def PeriodRange.default : PeriodRange := { min := 100, max := 1 <<< 22 }

/-! ## What a function of the class sees -/

/-- The machine, the bandwidths of the runqueues by CPU, and one task. -/
structure View where
  machine : Machine
  rqs : Nat → RqBw
  p : Task

def Machine.cpu (s : Machine) (i : Nat) : Cpu :=
  (s.cpus.find? fun c => c.id = i).getD { id := i, rd := 0, active := false, capacity := 0 }

/-- The root domain of a CPU, as `dl_bw_of` finds it. -/
def Machine.rdOf (s : Machine) (i : Nat) : Nat := (s.cpu i).rd

/-- The flags `enqueue_task_dl` looks at. -/
structure EnqueueFlags where
  wakeup : Bool
  restore : Bool
  replenish : Bool
  migrated : Bool
  deriving Repr, DecidableEq

namespace EnqueueFlags

def none : EnqueueFlags := { wakeup := false, restore := false, replenish := false, migrated := false }

def onlyRestore : EnqueueFlags := { none with restore := true }

def onlyReplenish : EnqueueFlags := { none with replenish := true }

def onlyMigrated : EnqueueFlags := { none with migrated := true }

def wake (migrated : Bool) : EnqueueFlags := { none with wakeup := true, migrated := migrated }

end EnqueueFlags

namespace View

@[simps p machine]
def onRq (f : RqBw → RqBw) (v : View) : View :=
  { v with rqs := Function.update v.rqs v.p.cpu (f (v.rqs v.p.cpu)) }

def addRqBw (v : View) : View := if v.p.dl.special then v else v.onRq (RqBw.__addRqBw v.p.dl.dlBw)

def subRqBw (v : View) : View := if v.p.dl.special then v else v.onRq (RqBw.__subRqBw v.p.dl.dlBw)

def addRunningBw (v : View) : View := if v.p.dl.special then v else v.onRq (RqBw.__addRunningBw v.p.dl.dlBw)

def subRunningBw (v : View) : View := if v.p.dl.special then v else v.onRq (RqBw.__subRunningBw v.p.dl.dlBw)

@[simps -fullyApplied p rqs machine]
def setDl (f : DlEntity → DlEntity) (v : View) : View := { v with p := { v.p with dl := f v.p.dl } }

/-- `__dl_sub` on the domain of the task. -/
@[simps -fullyApplied p rqs]
def dlSub (bw : Nat) (v : View) : View := { v with machine := v.machine.__dlSub (v.machine.rdOf v.p.cpu) bw }

/-- `__dl_add` on the domain of the task. -/
@[simps -fullyApplied p rqs]
def dlAdd (bw : Nat) (v : View) : View := { v with machine := v.machine.__dlAdd (v.machine.rdOf v.p.cpu) bw }

/-- The domain gets the bandwidth of the task back, and the task loses its parameters. -/
def release (v : View) : View := (v.dlSub v.p.dl.dlBw).setDl DlEntity.clearParams

section

variable (v : View)

@[simp] theorem addRqBw_p : v.addRqBw.p = v.p := by unfold addRqBw; split <;> rfl

@[simp] theorem addRqBw_machine : v.addRqBw.machine = v.machine := by unfold addRqBw; split <;> rfl

@[simp] theorem subRqBw_p : v.subRqBw.p = v.p := by unfold subRqBw; split <;> rfl

@[simp] theorem subRqBw_machine : v.subRqBw.machine = v.machine := by unfold subRqBw; split <;> rfl

@[simp] theorem addRunningBw_p : v.addRunningBw.p = v.p := by unfold addRunningBw; split <;> rfl

@[simp] theorem addRunningBw_machine : v.addRunningBw.machine = v.machine := by unfold addRunningBw; split <;> rfl

@[simp] theorem subRunningBw_p : v.subRunningBw.p = v.p := by unfold subRunningBw; split <;> rfl

@[simp] theorem subRunningBw_machine : v.subRunningBw.machine = v.machine := by unfold subRunningBw; split <;> rfl

@[simp] theorem release_p : v.release.p = { v.p with dl := v.p.dl.clearParams } := rfl

@[simp] theorem release_rqs : v.release.rqs = v.rqs := rfl

end

/-! ## Contending and not contending -/

/-- `passed`: the 0-lag time has passed. -/
def taskNonContending (passed : Bool) (v : View) : View :=
  if v.p.dl.dlRuntime = 0 then v
  else if v.p.dl.special then v
  else if passed || v.p.dl.inactiveTimer.active then
    let v₁ := if v.p.policy = .deadline then v.subRunningBw else v
    if v.p.policy ≠ .deadline ∨ v.p.state = .dead then
      (if v.p.state = .dead then v₁.subRqBw else v₁).release
    else v₁
  else v.setDl fun dl => { dl with nonContending := true, inactiveTimer := .armed }

/-- `migrated` is `ENQUEUE_MIGRATED`. -/
def taskContending (migrated : Bool) (v : View) : View :=
  if v.p.dl.dlRuntime = 0 then v
  else
    let v₁ := if migrated then v.addRqBw else v
    if v.p.dl.nonContending then v₁.setDl DlEntity.contend else v₁.addRunningBw

/-- The handler of the timer -/
def inactiveTaskTimer (v : View) : View :=
  let v₁ :=
    if v.p.policy ≠ .deadline ∨ v.p.state = .dead then
      (if v.p.state = .dead ∧ v.p.dl.nonContending then
        v.subRunningBw.subRqBw.setDl fun dl => { dl with nonContending := false }
      else v).release
    else if v.p.dl.nonContending then v.subRunningBw.setDl fun dl => { dl with nonContending := false }
    else v
  v₁.setDl fun dl => { dl with inactiveTimer := .idle }

/-! ## Enqueue and dequeue -/

/-- `dl_check_constrained_dl`; `late`: the task is between its deadline and its next period, and the timer has been
started. -/
def checkConstrained (late : Bool) (v : View) : View :=
  if !v.p.dl.throttled && !v.p.dl.isImplicit && late then v.setDl fun dl => { dl with throttled := true } else v

def enqueueDlEntity (flags : EnqueueFlags) (v : View) : View :=
  if flags.wakeup then v.taskContending flags.migrated
  else if flags.replenish then v.setDl fun dl => { dl with throttled := false }
  else v

/-- A task that migrates or is restored has not been counted on the runqueue. -/
def countIn (restore : Bool) (v : View) : View :=
  if v.p.onRq = .migrating ∨ restore then v.addRqBw.addRunningBw else v

/-- A throttled task is not enqueued, but its bandwidth is active all the same. -/
def enqueueUnlessThrottled (flags : EnqueueFlags) (v : View) : View :=
  if v.p.dl.throttled && !flags.replenish then
    if flags.wakeup then v.taskContending flags.migrated else v
  else v.enqueueDlEntity flags

def enqueueTaskDl (flags : EnqueueFlags) (late : Bool) (v : View) : View :=
  ((v.checkConstrained late).countIn flags.restore).enqueueUnlessThrottled flags

/-- A task that migrates or is saved is no longer counted on the runqueue. -/
def countOut (save : Bool) (v : View) : View :=
  if v.p.onRq = .migrating ∨ save then v.subRunningBw.subRqBw else v

/-- `dequeue_task_dl`. That `update_curr_dl` may throttle the task before is an operation of its own. -/
def dequeueTaskDl (save sleep passed : Bool) (v : View) : View :=
  if sleep then (v.countOut save).taskNonContending passed else v.countOut save

/-! ## Moving between CPUs -/

/-- A task that does not contend leaves the active bandwidth, and its timer is cancelled. -/
def deactivate (v : View) : View :=
  if v.p.dl.nonContending then v.subRunningBw.setDl DlEntity.contend else v

def migrateTaskRqDl (v : View) : View :=
  if v.p.state ≠ .waking then v else v.deactivate.subRqBw

/-- The class's `migrate_task_rq`. -/
def migrateTaskRq (v : View) : View := if v.p.policy = .deadline then v.migrateTaskRqDl else v

@[simps -fullyApplied p rqs machine]
def __setTaskCpu (cpu : Nat) (v : View) : View := { v with p := { v.p with cpu := cpu } }

def setTaskCpu (cpu : Nat) (v : View) : View :=
  if v.p.cpu = cpu then v else v.migrateTaskRq.__setTaskCpu cpu

/-- The shares of `__dl_sub` and `__dl_add` for all CPUs of the span, as `dl_task_offline_migration` gives them. -/
def dlSubSpan (r bw : Nat) (s : Machine) : Machine :=
  (s.setTotal r ((s.rds r).totalBw - bw)).__dlUpdate r (BitVec.ofInt 64 (perCpu bw (s.span r).length))

def dlAddSpan (r bw : Nat) (s : Machine) : Machine :=
  (s.setTotal r ((s.rds r).totalBw + bw)).__dlUpdate r (-BitVec.ofInt 64 (perCpu bw (s.span r).length))

/-- The bandwidth of the task is taken off its runqueue and added on that of the CPU `later`. -/
def moveRqBw (later : Nat) (v : View) : View :=
  if v.p.dl.nonContending || v.p.dl.throttled then
    ((v.subRunningBw.subRqBw.__setTaskCpu later).addRqBw.addRunningBw).__setTaskCpu v.p.cpu
  else ((v.subRqBw.__setTaskCpu later).addRqBw).__setTaskCpu v.p.cpu

/-- The bandwidth of the task is moved between the root domains. -/
def moveTotal (later : Nat) (v : View) : View :=
  { v with machine :=
      dlAddSpan (v.machine.rdOf later) v.p.dl.dlBw (dlSubSpan (v.machine.rdOf v.p.cpu) v.p.dl.dlBw v.machine) }

/-- To the runqueue that has been found -/
def dlTaskOfflineMigration (later : Nat) (v : View) : View :=
  ((v.moveRqBw later).moveTotal later).setTaskCpu later

/-- `dl_task_timer`, the handler of the replenishment timer. `offline`: the runqueue is not online, and another one has
been found. -/
def dlTaskTimer (offline : Option Nat) (v : View) : View :=
  if v.p.policy ≠ .deadline then v
  else if !v.p.dl.throttled then v
  else if v.p.onRq ≠ .queued then v.setDl fun dl => { dl with throttled := false }
  else
    match offline with
    | some later => (v.dlTaskOfflineMigration later).enqueueTaskDl .onlyReplenish false
    | none => v.enqueueTaskDl .onlyReplenish false

/-! ## Changing the policy and the parameters -/

def dlChangeUtilization (newBw : Nat) (v : View) : View :=
  if v.p.onRq = .queued then v
  else (v.deactivate.onRq (RqBw.__subRqBw v.p.dl.dlBw)).onRq (RqBw.__addRqBw newBw)

theorem dlChangeUtilization_machine (newBw : Nat) (v : View) : (v.dlChangeUtilization newBw).machine = v.machine := by
  unfold dlChangeUtilization deactivate
  split
  · rfl
  · split <;> simp

/-- `none` if the bandwidth is not available. -/
def schedDlOverflow (policy : Policy) (attr : SchedAttr) (v : View) : Option View :=
  let newBw := match policy with
    | .deadline => attr.bw
    | .other => 0
  let c := v.machine.cpu v.p.cpu
  let overflow (oldBw : Nat) : Bool := __dlOverflow (v.machine.rds c.rd) (v.machine.dlBwCapacity c) oldBw newBw
  if attr.flags.sugov then some v
  else if newBw = v.p.dl.dlBw ∧ v.p.policy = .deadline then some v
  else
    match policy, v.p.policy with
    | .deadline, .other =>
      if overflow 0 then none
      else some ((if v.p.dl.inactiveTimer.active then v.dlSub v.p.dl.dlBw else v).dlAdd newBw)
    | .deadline, .deadline =>
      if overflow v.p.dl.dlBw then none
      else some (((v.dlSub v.p.dl.dlBw).dlAdd newBw).dlChangeUtilization newBw)
    | .other, .deadline => some v
    | .other, .other => none

/-- `switched_from_dl`: a queued task stops contending, one that is not queued leaves the runqueue. -/
def switchedFromDl (passed : Bool) (v : View) : View :=
  (if v.p.onRq = .queued then
    if v.p.dl.dlRuntime ≠ 0 then v.taskNonContending passed else v
  else (if v.p.dl.nonContending then v.subRunningBw else v).subRqBw).setDl fun dl => { dl with nonContending := false }

def cancelTimer (v : View) : View := v.setDl fun dl => { dl with inactiveTimer := dl.inactiveTimer.tryToCancel }

def switchedToDl (v : View) : View := if v.p.onRq = .queued then v.cancelTimer else v.cancelTimer.addRqBw

/-- For the class the task had before -/
def checkClassChanged (prev : Policy) (passed : Bool) (v : View) : View :=
  match prev, v.p.policy with
  | .deadline, .other => v.switchedFromDl passed
  | .other, .deadline => v.switchedToDl
  | _, _ => v

def setschedulerParams (policy : Policy) (attr : SchedAttr) (v : View) : View :=
  match policy with
  | .deadline => { v with p := { v.p with policy := .deadline, dl := attr.setparam v.p.dl } }
  | .other => { v with p := { v.p with policy := .other } }

def unlessKept (attr : SchedAttr) (policy : Policy) (v : View) : View :=
  if attr.keepParams then v else v.setschedulerParams policy attr

/-- The class's `enqueue_task`; the other classes have no part in the bandwidth. -/
def enqueueTask (flags : EnqueueFlags) (late : Bool) (v : View) : View :=
  if v.p.policy = .deadline then v.enqueueTaskDl flags late else v

/-- The class's `dequeue_task`. -/
def dequeueTask (save sleep passed : Bool) (v : View) : View :=
  if v.p.policy = .deadline then v.dequeueTaskDl save sleep passed else v

/-- The part of `__sched_setscheduler` after the bandwidth has been found: a queued task is dequeued, changed and enqueued
again. -/
def setschedulerChange (policy : Policy) (attr : SchedAttr) (passed late : Bool) (v : View) : View :=
  if v.p.onRq = .queued then
    (((v.dequeueTask true false false).unlessKept attr policy).enqueueTask .onlyRestore late).checkClassChanged
      v.p.policy passed
  else (v.unlessKept attr policy).checkClassChanged v.p.policy passed

end View

inductive Errno where
  | einval
  | ebusy
  deriving Repr, DecidableEq

def SchedAttr.policyFor (attr : SchedAttr) (p : Task) : Policy := attr.policy.getD p.policy

/-- `__sched_setscheduler`. A change among the other policies does not concern this class. -/
def View.schedSetscheduler (range : PeriodRange) (attr : SchedAttr) (passed late : Bool) (v : View) : Except Errno View :=
  match attr.policyFor v.p, v.p.policy with
  | .other, .other => .ok v
  | policy, prev =>
    if policy = .deadline ∧ attr.__checkparamDl range = false then .error .einval
    else if policy = .deadline ∧ prev = .deadline ∧ attr.dlParamChanged v.p.dl = false ∧ attr.utilClamp = false then .ok v
    else
      match v.schedDlOverflow policy attr with
      | none => .error .ebusy
      | some v => .ok (v.setschedulerChange policy attr passed late)

/-! ## Steps -/

inductive Action where
  | wakeUpNewTask (cpu : Nat) (late : Bool)
  | tryToWakeUp (cpu : Nat)
  | ttwuDoActivate (late : Bool)
  | sleep (passed : Bool)
  | exit (passed : Bool)
  | throttle (timerStarted : Bool)
  | replenish (offline : Option Nat)
  | migrateOut
  | migrateIn (cpu : Nat) (late : Bool)
  | inactiveTimerExpires
  | inactiveTimerRuns
  | setscheduler (range : PeriodRange) (attr : SchedAttr) (passed late : Bool)
  deriving Repr, DecidableEq

namespace View

@[simps -fullyApplied p rqs machine]
def setState (state : TaskState) (onRq : OnRq) (v : View) : View :=
  { v with p := { v.p with state := state, onRq := onRq } }

@[simps -fullyApplied p rqs machine]
def setWakeMigrated (moved : Bool) (v : View) : View := { v with p := { v.p with wakeMigrated := moved } }

/-- `deactivate_task` with `DEQUEUE_SLEEP`, for a task that has set its state. -/
def deactivateSleep (state : TaskState) (passed : Bool) (v : View) : View :=
  (v.setState state .off).dequeueTask false true passed

/-- `try_to_wake_up` up to the point where the task waits to be activated on its CPU. -/
def tryToWakeUp (cpu : Nat) (v : View) : View :=
  ((v.setState .waking .off).setTaskCpu cpu).setWakeMigrated (v.p.cpu ≠ cpu)

/-- `ttwu_do_activate`, called by the waker or from the list of pending wakeups of the CPU. -/
def ttwuDoActivate (late : Bool) (v : View) : View :=
  ((v.enqueueTask (.wake v.p.wakeMigrated) late).setState .running .queued).setWakeMigrated false

/-- `wake_up_new_task`; the CPU is set without a word to the class. -/
def wakeUpNewTask (cpu : Nat) (late : Bool) (v : View) : View :=
  (((v.setState .running .off).__setTaskCpu cpu).enqueueTask .none late).setState .running .queued

/-- The first half of a migration of a queued task, `deactivate_task`. -/
def migrateOut (v : View) : View := (v.setState v.p.state .migrating).dequeueTask false false false

/-- The second half, `set_task_cpu` and `activate_task`. -/
def migrateIn (cpu : Nat) (late : Bool) (v : View) : View :=
  ((v.setTaskCpu cpu).enqueueTask .onlyMigrated late).setState v.p.state .queued

/-- The end of `update_curr_dl` for a task that has used up its runtime. Without a timer it is replenished at once. -/
def throttle (timerStarted : Bool) (v : View) : View :=
  if timerStarted then v.setDl fun dl => { dl with throttled := true }
  else (v.setDl fun dl => { dl with throttled := true }).enqueueTaskDl .onlyReplenish false

end View

def Action.enabled : Action → Task → Bool
  | .wakeUpNewTask _ _, p => p.state = .new
  | .tryToWakeUp _, p => p.state = .blocked
  | .ttwuDoActivate _, p => p.state = .waking
  | .sleep _, p => p.onRq = .queued
  | .exit _, p => p.onRq = .queued
  | .throttle _, p => p.onRq = .queued && p.policy = .deadline
  | .replenish _, p => p.onRq ≠ .migrating
  | .migrateOut, p => p.onRq = .queued
  | .migrateIn _ _, p => p.onRq = .migrating
  | .inactiveTimerExpires, p => p.dl.inactiveTimer = .armed
  | .inactiveTimerRuns, p => p.dl.inactiveTimer = .firing && p.onRq ≠ .migrating
  | .setscheduler _ _ _ _, p => p.onRq ≠ .migrating

def Action.act : Action → View → View
  | .wakeUpNewTask cpu late, v => v.wakeUpNewTask cpu late
  | .tryToWakeUp cpu, v => v.tryToWakeUp cpu
  | .ttwuDoActivate late, v => v.ttwuDoActivate late
  | .sleep passed, v => v.deactivateSleep .blocked passed
  | .exit passed, v => v.deactivateSleep .dead passed
  | .throttle timerStarted, v => v.throttle timerStarted
  | .replenish offline, v => v.dlTaskTimer offline
  | .migrateOut, v => v.migrateOut
  | .migrateIn cpu late, v => v.migrateIn cpu late
  | .inactiveTimerExpires, v => v.setDl fun dl => { dl with inactiveTimer := .firing }
  | .inactiveTimerRuns, v => v.inactiveTaskTimer
  | .setscheduler range attr passed late, v =>
    -- a change that is refused changes nothing
    match v.schedSetscheduler range attr passed late with
    | .ok v' => v'
    | .error _ => v

structure Sched where
  machine : Machine
  rqs : Nat → RqBw
  tasks : List Task

/-- The scheduler as the task `p` sees it. -/
def Sched.view (s : Sched) (p : Task) : View := { machine := s.machine, rqs := s.rqs, p := p }

/-- Something happens to the task with number `pid`. -/
structure Op where
  pid : Nat
  action : Action
  deriving Repr, DecidableEq

def Op.step (op : Op) (s : Sched) : Option Sched :=
  match s.tasks[op.pid]? with
  | none => none
  | some p =>
    if op.action.enabled p then
      let v := op.action.act (s.view p)
      some { machine := v.machine, rqs := v.rqs, tasks := s.tasks.set op.pid v.p }
    else none

/-- A machine just booted, with tasks forked on the given CPUs. -/
def Sched.boot (m : Machine) (homes : List Nat) : Sched where
  machine := m
  rqs := fun _ => { runningBw := 0, thisBw := 0, warned := false }
  tasks := homes.map Task.fork

end KernelSched.Deadline
