import KernelSched.Deadline.Task

/-!
# What becomes of a task

Every function of the class changes its task in few ways: the flag and the timer change when the task blocks, wakes or
its timer fires, and the parameters are set or cleared. The lemmas here say what each function leaves of the task,
whatever the runqueues and domains hold.
-/

namespace KernelSched.Deadline

/-! ## Blocking, waking and the timer -/

/-- `dl_non_contending` is cleared if it is set. -/
def DlEntity.woken (dl : DlEntity) : DlEntity := if dl.nonContending then dl.contend else dl

namespace Task

/-- The task after `task_non_contending`. -/
def block (passed : Bool) (p : Task) : Task :=
  if p.dl.dlRuntime = 0 ∨ p.dl.special then p
  else if passed || p.dl.inactiveTimer.active then
    if p.policy ≠ .deadline ∨ p.state = .dead then { p with dl := p.dl.clearParams } else p
  else { p with dl := { p.dl with nonContending := true, inactiveTimer := .armed } }

/-- The task after `task_contending`. -/
def wake (p : Task) : Task := if p.dl.dlRuntime = 0 then p else { p with dl := p.dl.woken }

def expire (p : Task) : Task :=
  { p with
    dl := { (if p.policy ≠ .deadline ∨ p.state = .dead then p.dl.clearParams else { p.dl with nonContending := false })
      with inactiveTimer := .idle } }

def throttle (t : Bool) (p : Task) : Task := { p with dl := { p.dl with throttled := t } }

end Task

namespace View

variable (v : View) (passed late : Bool)

theorem taskNonContending_p : (v.taskNonContending passed).p = v.p.block passed := by
  unfold taskNonContending Task.block
  by_cases hr : v.p.dl.dlRuntime = 0 ∨ v.p.dl.special = true
  · rw [if_pos hr]
    rcases hr with hr | hr
    · rw [if_pos hr]
    · rw [if_pos hr, ite_self]
  · rw [if_neg hr]
    rw [not_or] at hr
    rw [if_neg hr.1, if_neg hr.2]
    split
    · by_cases hd : v.p.policy ≠ .deadline ∨ v.p.state = .dead
      · split <;> split <;> simp
      · split <;> simp
    · rfl

theorem taskContending_p (migrated : Bool) : (v.taskContending migrated).p = v.p.wake := by
  unfold taskContending Task.wake DlEntity.woken
  by_cases hr : v.p.dl.dlRuntime = 0
  · simp [hr]
  · cases hn : v.p.dl.nonContending <;> cases migrated <;> simp [hr]

theorem inactiveTaskTimer_p : v.inactiveTaskTimer.p = v.p.expire := by
  unfold inactiveTaskTimer Task.expire
  by_cases hd : v.p.policy ≠ .deadline ∨ v.p.state = .dead
  · simp only [if_pos hd]
    split <;> simp [DlEntity.clearParams]
  · cases hn : v.p.dl.nonContending <;> simp [hd, hn]

/-! ## Enqueue, dequeue and moving -/

theorem checkConstrained_p : ∃ t, (v.checkConstrained late).p = v.p.throttle t := by
  unfold checkConstrained
  split
  · exact ⟨true, rfl⟩
  · exact ⟨v.p.dl.throttled, rfl⟩

theorem throttle_wake (p : Task) (t : Bool) : (p.throttle t).wake = p.wake.throttle t := by
  by_cases hr : p.dl.dlRuntime = 0
  · simp [Task.wake, Task.throttle, hr]
  · cases hn : p.dl.nonContending <;> simp [Task.wake, Task.throttle, DlEntity.woken, DlEntity.contend, hr, hn]

theorem countIn_p (restore : Bool) : (v.countIn restore).p = v.p := by
  unfold countIn
  split <;> simp

theorem countOut_p (save : Bool) : (v.countOut save).p = v.p := by
  unfold countOut
  split <;> simp

theorem enqueueUnlessThrottled_p (flags : EnqueueFlags) : ∃ t, (v.enqueueUnlessThrottled flags).p =
    (if flags.wakeup then v.p.wake else v.p).throttle t := by
  have hwake : ∃ t, (v.taskContending flags.migrated).p = v.p.wake.throttle t :=
    ⟨v.p.wake.dl.throttled, v.taskContending_p flags.migrated⟩
  unfold enqueueUnlessThrottled enqueueDlEntity
  cases flags.wakeup
  · simp only [Bool.false_eq_true, if_false]
    split
    · exact ⟨v.p.dl.throttled, rfl⟩
    · split
      · exact ⟨false, rfl⟩
      · exact ⟨v.p.dl.throttled, rfl⟩
  · simpa using hwake

theorem enqueueTaskDl_p (flags : EnqueueFlags) : ∃ t, (v.enqueueTaskDl flags late).p =
    (if flags.wakeup then v.p.wake else v.p).throttle t := by
  obtain ⟨t, ht⟩ := v.checkConstrained_p late
  obtain ⟨t', ht'⟩ := ((v.checkConstrained late).countIn flags.restore).enqueueUnlessThrottled_p flags
  refine ⟨t', ht'.trans ?_⟩
  rw [countIn_p, ht]
  split
  · rw [throttle_wake]; rfl
  · rfl

theorem dequeueTaskDl_p (save sleep : Bool) : (v.dequeueTaskDl save sleep passed).p =
    if sleep then v.p.block passed else v.p := by
  unfold dequeueTaskDl
  cases sleep <;> simp [taskNonContending_p, countOut_p]

theorem deactivate_p : v.deactivate.p = { v.p with dl := v.p.dl.woken } := by
  unfold deactivate DlEntity.woken
  split <;> simp

theorem migrateTaskRqDl_p : v.migrateTaskRqDl.p = if v.p.state = .waking then { v.p with dl :=
  v.p.dl.woken } else v.p := by
  unfold migrateTaskRqDl
  by_cases hs : v.p.state = .waking
  · rw [if_neg (not_not.2 hs), if_pos hs, subRqBw_p, deactivate_p]
  · rw [if_pos hs, if_neg hs]

theorem setTaskCpu_p (cpu : Nat) (h : v.p.state ≠ .waking) : (v.setTaskCpu cpu).p = { v.p with cpu := cpu } := by
  unfold setTaskCpu
  split
  · rename_i hc
    rw [← hc]
  · have hm : v.migrateTaskRq.p = v.p := by
      unfold migrateTaskRq
      split
      · rw [migrateTaskRqDl_p, if_neg h]
      · rfl
    show { v.migrateTaskRq.p with cpu := cpu } = _
    rw [hm]

theorem moveRqBw_p (later : Nat) : (v.moveRqBw later).p = v.p := by
  unfold moveRqBw
  split <;> simp [__setTaskCpu]

theorem dlTaskOfflineMigration_p (later : Nat) (h : v.p.state ≠ .waking) :
    (v.dlTaskOfflineMigration later).p = { v.p with cpu := later } := by
  have hp : ((v.moveRqBw later).moveTotal later).p = v.p := v.moveRqBw_p later
  unfold dlTaskOfflineMigration
  rw [setTaskCpu_p _ _ (by rw [hp]; exact h), hp]

/-- The replenishment leaves the task throttled or not, on its CPU or another one. -/
theorem dlTaskTimer_p (offline : Option Nat) (h : v.p.onRq = .queued → v.p.state ≠ .waking) :
    ∃ cpu t, (v.dlTaskTimer offline).p = { v.p with cpu := cpu }.throttle t := by
  have hsame : ∃ cpu t, v.p = { v.p with cpu := cpu }.throttle t := ⟨v.p.cpu, v.p.dl.throttled, rfl⟩
  unfold dlTaskTimer
  split
  · exact hsame
  · split
    · exact hsame
    · split
      · exact ⟨v.p.cpu, false, rfl⟩
      · rename_i hq
        have hw : v.p.state ≠ .waking := h (not_not.1 hq)
        cases offline with
        | none =>
          obtain ⟨t, ht⟩ := v.enqueueTaskDl_p false .onlyReplenish
          exact ⟨v.p.cpu, t, ht⟩
        | some later =>
          obtain ⟨t, ht⟩ := (v.dlTaskOfflineMigration later).enqueueTaskDl_p false .onlyReplenish
          refine ⟨later, t, ht.trans ?_⟩
          rw [dlTaskOfflineMigration_p _ _ hw]
          rfl

/-! ## Changing the policy and the parameters -/

end View

namespace Task

/-- The task after `__setscheduler_params`. -/
def setparams (policy : Policy) (attr : SchedAttr) (p : Task) : Task :=
  match policy with
  | .deadline => { p with policy := .deadline, dl := attr.setparam p.dl }
  | .other => { p with policy := .other }

/-- The task after `switched_from_dl`. -/
def leaveClass (passed : Bool) (p : Task) : Task :=
  let q := if p.onRq = .queued ∧ p.dl.dlRuntime ≠ 0 then p.block passed else p
  { q with dl := { q.dl with nonContending := false } }

/-- The task after `switched_to_dl`. -/
def enterClass (p : Task) : Task := { p with dl := { p.dl with inactiveTimer := p.dl.inactiveTimer.tryToCancel } }

/-- The task after `check_class_changed`. -/
def changeClass (prev : Policy) (passed : Bool) (p : Task) : Task :=
  match prev, p.policy with
  | .deadline, .other => p.leaveClass passed
  | .other, .deadline => p.enterClass
  | _, _ => p

theorem block_dl (passed : Bool) (p : Task) : ∃ e, p.block passed = { p with dl := e } := by
  unfold block
  split
  · exact ⟨p.dl, rfl⟩
  · split
    · split
      · exact ⟨_, rfl⟩
      · exact ⟨p.dl, rfl⟩
    · exact ⟨_, rfl⟩

theorem changeClass_dl (prev : Policy) (passed : Bool) (p : Task) :
    ∃ e, p.changeClass prev passed = { p with dl := e } := by
  unfold changeClass
  split
  · obtain ⟨e, he⟩ := p.block_dl passed
    unfold leaveClass
    split
    · exact ⟨_, by rw [he]⟩
    · exact ⟨_, rfl⟩
  · exact ⟨_, rfl⟩
  · exact ⟨p.dl, rfl⟩

end Task

namespace View

variable (v : View) (passed late : Bool) {attr : SchedAttr}

theorem dlChangeUtilization_p (newBw : Nat) : (v.dlChangeUtilization newBw).p =
    if v.p.onRq = .queued then v.p else { v.p with dl := v.p.dl.woken } := by
  unfold dlChangeUtilization
  split
  · rfl
  · exact v.deactivate_p

theorem switchedFromDl_p : (v.switchedFromDl passed).p = v.p.leaveClass passed := by
  unfold switchedFromDl Task.leaveClass
  by_cases hq : v.p.onRq = .queued
  · by_cases hr : v.p.dl.dlRuntime ≠ 0 <;> simp [hq, hr, taskNonContending_p]
  · simp only [hq, if_false, false_and]
    split <;> simp

theorem switchedToDl_p : v.switchedToDl.p = v.p.enterClass := by
  unfold switchedToDl
  split
  · rfl
  · exact addRqBw_p _

theorem checkClassChanged_p (prev : Policy) : (v.checkClassChanged prev passed).p = v.p.changeClass prev passed := by
  unfold checkClassChanged Task.changeClass
  cases prev <;> cases v.p.policy
  · rfl
  · exact v.switchedFromDl_p passed
  · exact v.switchedToDl_p
  · rfl

theorem checkClassChanged_same {prev : Policy} (h : v.p.policy = prev) : v.checkClassChanged prev passed = v := by
  unfold checkClassChanged
  rw [h]
  cases prev <;> rfl

theorem checkClassChanged_leave (h : v.p.policy = .other) :
    v.checkClassChanged .deadline passed = v.switchedFromDl passed := by
  unfold checkClassChanged
  rw [h]

theorem checkClassChanged_enter (h : v.p.policy = .deadline) : v.checkClassChanged .other passed = v.switchedToDl := by
  unfold checkClassChanged
  rw [h]

theorem unlessKept_p (attr : SchedAttr) (policy : Policy) :
    (v.unlessKept attr policy).p = if attr.keepParams then v.p else v.p.setparams policy attr := by
  unfold unlessKept
  cases attr.keepParams
  · cases policy <;> rfl
  · rfl

theorem enqueueTask_p (flags : EnqueueFlags) : ∃ t, (v.enqueueTask flags late).p =
    (if v.p.policy = .deadline ∧ flags.wakeup = true then v.p.wake else v.p).throttle t := by
  unfold enqueueTask
  by_cases hp : v.p.policy = .deadline
  · simpa [hp] using v.enqueueTaskDl_p late flags
  · exact ⟨v.p.dl.throttled, by simp [hp, Task.throttle]⟩

theorem dequeueTask_p (save sleep : Bool) : (v.dequeueTask save sleep passed).p =
    if v.p.policy = .deadline ∧ sleep = true then v.p.block passed else v.p := by
  unfold dequeueTask
  by_cases hp : v.p.policy = .deadline <;> simp [hp, dequeueTaskDl_p]

theorem setschedulerChange_p (policy : Policy) (attr : SchedAttr) :
    ∃ t, (v.setschedulerChange policy attr passed late).p =
    ((if attr.keepParams then v.p else v.p.setparams policy attr).throttle t).changeClass v.p.policy passed := by
  have hd : (v.dequeueTask true false false).p = v.p := by simp [dequeueTask_p]
  obtain ⟨t, ht⟩ := ((v.dequeueTask true false false).unlessKept attr policy).enqueueTask_p late .onlyRestore
  unfold setschedulerChange
  split
  · refine ⟨t, ?_⟩
    rw [checkClassChanged_p, ht, unlessKept_p, hd]
    simp [EnqueueFlags.onlyRestore, EnqueueFlags.none]
  · refine ⟨(v.unlessKept attr policy).p.dl.throttled, ?_⟩
    rw [checkClassChanged_p, ← unlessKept_p]
    rfl

/-- What an accepted change does before the task is touched: nothing, or a task enters the class, or a deadline task
changes its bandwidth. -/
theorem schedDlOverflow_cases {v w : View} {policy : Policy} (h : v.schedDlOverflow policy attr = some w) :
    w = v ∧ (attr.flags.sugov = true ∨ policy = .deadline ∧ v.p.policy = .deadline ∧ attr.bw = v.p.dl.dlBw ∨
      policy = .other ∧ v.p.policy = .deadline) ∨
    (policy = .deadline ∧ v.p.policy = .other ∧ attr.flags.sugov = false ∧
      w = (if v.p.dl.inactiveTimer.active then v.dlSub v.p.dl.dlBw else v).dlAdd attr.bw) ∨
    (policy = .deadline ∧ v.p.policy = .deadline ∧ attr.flags.sugov = false ∧ attr.bw ≠ v.p.dl.dlBw ∧
      w = ((v.dlSub v.p.dl.dlBw).dlAdd attr.bw).dlChangeUtilization attr.bw) := by
  unfold schedDlOverflow at h
  cases hs : attr.flags.sugov
  · cases policy <;> cases hp : v.p.policy <;> simp only [hs, hp, Bool.false_eq_true, if_false] at h
    · by_cases hb : attr.bw = v.p.dl.dlBw
      · simp only [hb, and_self, if_true, Option.some.injEq] at h
        exact .inl ⟨h.symm, .inr (.inl ⟨rfl, rfl, hb⟩)⟩
      · simp only [hb, false_and, if_false] at h
        split at h
        · cases h
        · exact .inr (.inr ⟨rfl, rfl, rfl, hb, (Option.some.inj h).symm⟩)
    · simp only [reduceCtorEq, and_false, if_false] at h
      split at h
      · cases h
      · exact .inr (.inl ⟨rfl, rfl, rfl, (Option.some.inj h).symm⟩)
    · have hw : w = v := by
        split at h <;> exact (Option.some.inj h).symm
      exact .inl ⟨hw, .inr (.inr ⟨rfl, rfl⟩)⟩
    · simp at h
  · simp only [hs, if_true, Option.some.injEq] at h
    exact .inl ⟨h.symm, .inl rfl⟩

/-- A change is accepted without effect, or has been checked and found room. -/
theorem schedSetscheduler_cases {v v' : View} {range : PeriodRange} {passed late : Bool}
    (h : v.schedSetscheduler range attr passed late = .ok v') :
    v' = v ∨ (attr.policyFor v.p = .deadline → attr.__checkparamDl range = true) ∧
      (attr.policyFor v.p = .deadline ∨ v.p.policy = .deadline) ∧
      ∃ w, v.schedDlOverflow (attr.policyFor v.p) attr = some w ∧
        v' = w.setschedulerChange (attr.policyFor v.p) attr passed late := by
  unfold schedSetscheduler at h
  split at h
  · exact .inl (Except.ok.inj h).symm
  · rename_i hne
    have hdl : attr.policyFor v.p = .deadline ∨ v.p.policy = .deadline := by
      cases hf : attr.policyFor v.p <;> cases hp : v.p.policy <;> simp_all
    split at h
    · cases h
    · rename_i hc
      split at h
      · exact .inl (Except.ok.inj h).symm
      · split at h
        · cases h
        · rename_i w hw
          refine .inr ⟨fun hd => ?_, hdl, w, hw, (Except.ok.inj h).symm⟩
          simpa [hd] using hc

theorem schedDlOverflow_p {v w : View} {policy : Policy}
    (h : v.schedDlOverflow policy attr = some w) : w.p = v.p ∨ w.p = { v.p with dl := v.p.dl.woken } := by
  rcases schedDlOverflow_cases h with ⟨rfl, -⟩ | ⟨-, -, -, rfl⟩ | ⟨-, -, -, -, rfl⟩
  · exact .inl rfl
  · left
    split <;> rfl
  · rw [dlChangeUtilization_p]
    split
    · exact .inl rfl
    · exact .inr rfl

/-! ## Actions -/

theorem wakeUpNewTask_p (cpu : Nat) : ∃ t, (v.wakeUpNewTask cpu late).p =
    { v.p with cpu := cpu, state := .running, onRq := .queued }.throttle t := by
  obtain ⟨t, ht⟩ := ((v.setState .running .off).__setTaskCpu cpu).enqueueTask_p late .none
  refine ⟨t, ?_⟩
  rw [wakeUpNewTask, setState_p, ht]
  simp [EnqueueFlags.none, Task.throttle]

theorem tryToWakeUp_p (cpu : Nat) : (v.tryToWakeUp cpu).p = { v.p with
      cpu := cpu, state := .waking, onRq := .off, wakeMigrated := v.p.cpu ≠ cpu,
      dl := if v.p.cpu ≠ cpu ∧ v.p.policy = .deadline then v.p.dl.woken else v.p.dl } := by
  unfold tryToWakeUp setTaskCpu
  by_cases hc : v.p.cpu = cpu
  · subst hc
    simp
  · by_cases hp : v.p.policy = .deadline <;> simp [hc, hp, migrateTaskRq, migrateTaskRqDl_p]

theorem ttwuDoActivate_p : ∃ t, (v.ttwuDoActivate late).p =
    { (if v.p.policy = Policy.deadline then v.p.wake else v.p) with
      state := .running, onRq := .queued, wakeMigrated := false }.throttle t := by
  obtain ⟨t, ht⟩ := v.enqueueTask_p late (.wake v.p.wakeMigrated)
  refine ⟨t, ?_⟩
  rw [ttwuDoActivate, setWakeMigrated_p, setState_p, ht]
  simp [EnqueueFlags.wake, Task.throttle]

theorem deactivateSleep_p (state : TaskState) : (v.deactivateSleep state passed).p =
    if v.p.policy = .deadline then { v.p with state := state, onRq := .off }.block passed
    else { v.p with state := state, onRq := .off } := by
  rw [deactivateSleep, dequeueTask_p]
  simp

theorem migrateOut_p : v.migrateOut.p = { v.p with onRq := .migrating } := by
  rw [migrateOut, dequeueTask_p]
  simp

theorem migrateIn_p (cpu : Nat) (h : v.p.state ≠ .waking) : ∃ t, (v.migrateIn cpu late).p =
    { v.p with cpu := cpu, onRq := .queued }.throttle t := by
  obtain ⟨t, ht⟩ := (v.setTaskCpu cpu).enqueueTask_p late .onlyMigrated
  refine ⟨t, ?_⟩
  rw [migrateIn, setState_p, ht, setTaskCpu_p _ _ h]
  simp [EnqueueFlags.onlyMigrated, EnqueueFlags.none, Task.throttle]

theorem throttle_p (timerStarted : Bool) : ∃ t, (v.throttle timerStarted).p = v.p.throttle t := by
  cases timerStarted
  · obtain ⟨t, ht⟩ := (v.setDl fun dl => { dl with throttled := true }).enqueueTaskDl_p false .onlyReplenish
    exact ⟨t, ht⟩
  · exact ⟨true, rfl⟩

end View

/-! ## What every action keeps -/

/-- What `add_rq_bw` and its like count of a task. -/
def Task.countedBw (p : Task) : Nat := if p.dl.special then 0 else p.dl.dlBw

/-- A task on a runqueue runs, one that has been moved by its waker is waking, and a deadline task has a runtime and at
most the bandwidth of a whole CPU. -/
structure Task.Sane (p : Task) : Prop where
  running : p.state = .running ↔ p.onRq ≠ .off
  waking : p.wakeMigrated = true → p.state = .waking
  runtime : p.policy = .deadline → p.dl.special = false → p.state ≠ .dead → p.dl.dlRuntime ≠ 0
  small : p.countedBw ≤ bwUnit

namespace Task.Sane

variable {p : Task}

section

variable (h : p.Sane)

include h

theorem of_dl {e : DlEntity} (hr : p.policy = .deadline → e.special = false → p.state ≠ .dead → e.dlRuntime ≠ 0)
    (hs : { p with dl := e }.countedBw ≤ bwUnit) : { p with dl := e }.Sane :=
  ⟨h.running, h.waking, hr, hs⟩

theorem keep {e : DlEntity} (hr : e.dlRuntime = p.dl.dlRuntime) (hb : e.dlBw = p.dl.dlBw)
    (hf : e.flags = p.dl.flags) : { p with dl := e }.Sane := by
  have hs : e.special = p.dl.special := by rw [DlEntity.special, DlEntity.special, hf]
  refine h.of_dl ?_ ?_
  · rw [hr, hs]
    exact h.runtime
  · rw [Task.countedBw, hb, hs]
    exact h.small

theorem clear (hc : p.policy ≠ .deadline ∨ p.state = .dead) : { p with dl := p.dl.clearParams }.Sane := by
  refine h.of_dl ?_ (Nat.zero_le _)
  intro hp _ hd
  rcases hc with hc | hc
  · exact absurd hp hc
  · exact absurd hc hd

theorem throttle (t : Bool) : (p.throttle t).Sane := h.keep rfl rfl rfl

theorem move {cpu : Nat} {state : TaskState} {onRq : OnRq} {moved : Bool} (hd : p.state ≠ .dead)
    (hr : state = .running ↔ onRq ≠ .off) (hw : moved = true → state = .waking) :
    { p with cpu := cpu, state := state, onRq := onRq, wakeMigrated := moved }.Sane :=
  ⟨hr, hw, fun hp hs _ => h.runtime hp hs hd, h.small⟩

theorem withCpu (cpu : Nat) : { p with cpu := cpu }.Sane := ⟨h.running, h.waking, h.runtime, h.small⟩

theorem not_moved (hs : p.state ≠ .waking) : p.wakeMigrated = false := by
  by_contra hm
  exact hs (h.waking (by simpa using hm))

theorem woken : { p with dl := p.dl.woken }.Sane := by
  unfold DlEntity.woken
  split
  · exact h.keep rfl rfl rfl
  · exact h

theorem wake : p.wake.Sane := by
  unfold Task.wake
  split
  · exact h
  · exact h.woken

theorem block (passed : Bool) : (p.block passed).Sane := by
  unfold Task.block
  split
  · exact h
  · split
    · split
      · exact h.clear ‹_›
      · exact h
    · exact h.keep rfl rfl rfl

theorem expire : p.expire.Sane := by
  unfold Task.expire
  split
  · exact (h.clear ‹_›).keep rfl rfl rfl
  · exact h.keep rfl rfl rfl

theorem leaveClass (passed : Bool) : (p.leaveClass passed).Sane := by
  unfold Task.leaveClass
  split
  · exact (h.block passed).keep rfl rfl rfl
  · exact h.keep rfl rfl rfl

theorem changeClass (prev : Policy) (passed : Bool) : (p.changeClass prev passed).Sane := by
  unfold Task.changeClass
  split
  · exact h.leaveClass passed
  · exact h.keep rfl rfl rfl
  · exact h

end

end Task.Sane

variable {range : PeriodRange} {attr : SchedAttr}

/-- Parameters that pass the check ask for a runtime and for at most the bandwidth of a whole CPU. -/
theorem SchedAttr.checked (h : attr.__checkparamDl range = true)
    (hs : attr.flags.sugov = false) : attr.runtime ≠ 0 ∧ attr.bw ≤ bwUnit := by
  simp only [SchedAttr.__checkparamDl, hs, Bool.false_or, Bool.and_eq_true, decide_eq_true_iff] at h
  obtain ⟨⟨⟨⟨⟨⟨⟨-, hrun⟩, hdead⟩, -⟩, hper⟩, hle⟩, -⟩, -⟩ := h
  have hpos : 0 < attr.runtime := lt_of_lt_of_le (by decide) hrun
  refine ⟨by omega, ?_⟩
  unfold SchedAttr.bw toRatio
  split
  · exact le_rfl
  · split
    · exact Nat.zero_le _
    · apply Nat.div_le_of_le_mul
      calc (attr.runtime <<< bwShift) % 2 ^ 64 ≤ attr.runtime <<< bwShift := Nat.mod_le _ _
        _ = attr.runtime * bwUnit := by rw [Nat.shiftLeft_eq, bwUnit, Nat.shiftLeft_eq, Nat.one_mul]
        _ ≤ attr.periodOrDeadline * bwUnit := Nat.mul_le_mul_right _ (by omega)

theorem Task.Sane.setparams {p : Task} {policy : Policy} (h : p.Sane)
    (hc : policy = .deadline → attr.__checkparamDl range = true) : (p.setparams policy attr).Sane := by
  cases policy with
  | deadline =>
    refine ⟨h.running, h.waking, ?_, ?_⟩
    · intro _ hs _
      exact (SchedAttr.checked (hc rfl) hs).1
    · show (if attr.flags.sugov = true then 0 else attr.bw) ≤ bwUnit
      split
      · exact Nat.zero_le _
      · exact (SchedAttr.checked (hc rfl) (by simpa using ‹¬attr.flags.sugov = true›)).2
  | other => exact ⟨h.running, h.waking, nofun, h.small⟩

namespace View

variable {v : View}

theorem setscheduler_sane {w : View} {passed late : Bool} (h : v.p.Sane)
    (hs : v.schedSetscheduler range attr passed late = .ok w) : w.p.Sane := by
  rcases schedSetscheduler_cases hs with rfl | ⟨hc, -, u, hu, rfl⟩
  · exact h
  · have hup : u.p.Sane := by
      rcases schedDlOverflow_p hu with e | e
      · rw [e]; exact h
      · rw [e]; exact h.woken
    obtain ⟨t, ht⟩ := u.setschedulerChange_p passed late (attr.policyFor v.p) attr
    rw [ht]
    apply Task.Sane.changeClass
    apply Task.Sane.throttle
    split
    · exact hup
    · exact hup.setparams hc

end View

open View Deadline.Action

theorem deactivateSleep_sane {v : View} (h : v.p.Sane) (hon : v.p.onRq = .queued) {state : TaskState}
    (hstate : state ≠ .running) (passed : Bool) : (v.deactivateSleep state passed).p.Sane := by
  have hst : v.p.state = .running := h.running.2 (by simp [hon])
  have hm : { v.p with state := state, onRq := .off }.Sane :=
    h.move (by simp [hst]) (by simp [hstate]) (by simp [h.not_moved, hst])
  rw [View.deactivateSleep_p]
  split
  · exact hm.block passed
  · exact hm

theorem Action.act_sane {a : Action} {v : View} (he : a.enabled v.p = true) (h : v.p.Sane) : (a.act v).p.Sane := by
  have hq : v.p.onRq ≠ .off → v.p.state = .running := h.running.2
  cases a with
  | wakeUpNewTask cpu late =>
    have hst : v.p.state = .new := by simpa [enabled] using he
    obtain ⟨t, ht⟩ := v.wakeUpNewTask_p late cpu
    rw [act, ht]
    exact (h.move (by simp [hst]) (by simp) (by simp [h.not_moved, hst])).throttle t
  | tryToWakeUp cpu =>
    have hst : v.p.state = .blocked := by simpa [enabled] using he
    rw [act, tryToWakeUp_p]
    split
    · exact h.woken.move (by simp [hst]) (by simp) (fun _ => rfl)
    · exact h.move (by simp [hst]) (by simp) (fun _ => rfl)
  | ttwuDoActivate late =>
    have hst : v.p.state = .waking := by simpa [enabled] using he
    obtain ⟨t, ht⟩ := v.ttwuDoActivate_p late
    rw [act, ht]
    apply Task.Sane.throttle
    split
    · refine h.wake.move ?_ (by simp) nofun
      unfold Task.wake
      split <;> simp [hst]
    · exact h.move (by simp [hst]) (by simp) nofun
  | sleep passed | exit passed =>
    have hon : v.p.onRq = .queued := by simpa [enabled] using he
    exact deactivateSleep_sane h hon (by simp) passed
  | throttle timerStarted =>
    obtain ⟨t, ht⟩ := v.throttle_p timerStarted
    rw [act, ht]
    exact h.throttle t
  | replenish offline =>
    obtain ⟨cpu, t, ht⟩ := v.dlTaskTimer_p offline (fun hon => by simp [hq, hon])
    rw [act, ht]
    exact (h.withCpu cpu).throttle t
  | migrateOut =>
    have hon : v.p.onRq = .queued := by simpa [enabled] using he
    have hst := hq (by simp [hon])
    rw [act, migrateOut_p]
    exact h.move (by simp [hst]) (by simp [hst]) h.waking
  | migrateIn cpu late =>
    have hon : v.p.onRq = .migrating := by simpa [enabled] using he
    have hst := hq (by simp [hon])
    obtain ⟨t, ht⟩ := v.migrateIn_p late cpu (by simp [hst])
    rw [act, ht]
    exact (h.move (by simp [hst]) (by simp [hst]) h.waking).throttle t
  | inactiveTimerExpires => exact h.keep rfl rfl rfl
  | inactiveTimerRuns =>
    rw [act, inactiveTaskTimer_p]
    exact h.expire
  | setscheduler range attr passed late =>
    rw [act]
    split
    · exact setscheduler_sane h ‹_›
    · exact h

end KernelSched.Deadline
