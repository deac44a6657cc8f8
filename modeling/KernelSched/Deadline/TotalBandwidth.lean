import KernelSched.Deadline.TaskSteps
import KernelSched.Lib.Ledger

/-!
# The bandwidth a root domain has admitted

A deadline task is admitted against its root domain, which gets the bandwidth back at the 0-lag time after the task has
left the class or has died. Until then the timer of the task is active. `sched_dl_overflow` leaves it to
`switched_from_dl` to see to that, which arms the timer of a queued task and relies on that of a task that still does not
contend; a task that is asleep and inactive when it leaves is forgotten. In all runs without such a step (and with no
task that turns special, or is said to keep its parameters, while its bandwidth is admitted) the admitted bandwidth is
the sum over the tasks.
-/

namespace KernelSched.Deadline

open Run Ledger List Function View Deadline.Task DlEntity Timer

/-! ## One task against the rest -/

/-- What the domain of a task has admitted for it: the bandwidth of a deadline task that is not special, or that of a
task of another class whose timer has not run yet. -/
def Task.charge (p : Task) : Nat :=
  match p.policy with
  | .deadline => p.countedBw
  | .other => if p.dl.inactiveTimer.active then p.dl.dlBw else 0

/-- The CPUs, and what their domains have admitted for all other tasks. -/
structure Others where
  cpus : List Cpu
  total : Nat → Nat

/-- The domains have admitted `k` for the task, besides what they have for the others. -/
structure Charged (T : Others) (v : View) (k : Nat) : Prop where
  cpus : v.machine.cpus = T.cpus
  total : ∀ r, (v.machine.rds r).totalBw = T.total r + if v.machine.rdOf v.p.cpu = r then k else 0

namespace Charged

variable {T : Others} {v w : View} {k : Nat}

theorem congr (h : Charged T v k) (hm : w.machine = v.machine) (hr : v.machine.rdOf w.p.cpu = v.machine.rdOf v.p.cpu) :
    Charged T w k := by
  refine ⟨by rw [hm]; exact h.cpus, fun r => ?_⟩
  rw [hm, hr]
  exact h.total r

theorem zero (h : Charged T v 0) (hm : w.machine = v.machine) : Charged T w 0 := by
  refine ⟨by rw [hm]; exact h.cpus, fun r => ?_⟩
  have hr := h.total r
  rw [ite_self] at hr ⊢
  rw [hm]
  exact hr

/-- The domain of the task changes what it has admitted. -/
theorem retotal (h : Charged T v k) {m : Machine} {d : RootDomain} {j : Nat}
    (hm : m.rds = Function.update v.machine.rds (v.machine.rdOf v.p.cpu) d) (hc : m.cpus = v.machine.cpus)
    (hd : d.totalBw + k = (v.machine.rds (v.machine.rdOf v.p.cpu)).totalBw + j) :
        Charged T { v with machine := m } j := by
  refine ⟨hc.trans h.cpus, fun r => ?_⟩
  have hr := h.total r
  have hrd : m.rdOf v.p.cpu = v.machine.rdOf v.p.cpu := by rw [Machine.rdOf, Machine.rdOf, Machine.cpu, Machine.cpu, hc]
  show (m.rds r).totalBw = T.total r + if m.rdOf v.p.cpu = r then j else 0
  rw [hm, hrd]
  by_cases hrd : v.machine.rdOf v.p.cpu = r
  · subst hrd
    rw [if_pos rfl] at hr ⊢
    rw [update_self]
    omega
  · rw [if_neg hrd] at hr ⊢
    rw [update_of_ne (Ne.symm hrd)]
    exact hr

theorem le_total (h : Charged T v k) : k ≤ (v.machine.rds (v.machine.rdOf v.p.cpu)).totalBw := by
  have hr := h.total (v.machine.rdOf v.p.cpu)
  rw [if_pos rfl] at hr
  omega

theorem dlSub (h : Charged T v k) {bw : Nat} (hb : bw ≤ k) : Charged T (v.dlSub bw) (k - bw) := by
  have hle := h.le_total
  refine h.retotal (m := v.machine.__dlSub (v.machine.rdOf v.p.cpu) bw) rfl rfl ?_
  show (v.machine.rds (v.machine.rdOf v.p.cpu)).totalBw - bw + k = _
  omega

theorem dlAdd (h : Charged T v k) (bw : Nat) : Charged T (v.dlAdd bw) (k + bw) := by
  refine h.retotal (m := v.machine.__dlAdd (v.machine.rdOf v.p.cpu) bw) rfl rfl ?_
  show (v.machine.rds (v.machine.rdOf v.p.cpu)).totalBw + bw + k = _
  omega

theorem release (h : Charged T v v.p.dl.dlBw) : Charged T v.release 0 := by
  have h' := h.dlSub le_rfl
  rw [Nat.sub_self] at h'
  exact h'.congr rfl rfl

theorem moveTotal (h : Charged T v v.p.dl.dlBw) (later : Nat) :
    Charged T ((v.moveTotal later).__setTaskCpu later) v.p.dl.dlBw := by
  have hle := h.le_total
  have h₀ : Charged T { v with machine := dlSubSpan (v.machine.rdOf v.p.cpu) v.p.dl.dlBw v.machine } 0 := by
    refine h.retotal (m := dlSubSpan (v.machine.rdOf v.p.cpu) v.p.dl.dlBw v.machine) rfl rfl ?_
    show (v.machine.rds (v.machine.rdOf v.p.cpu)).totalBw - v.p.dl.dlBw + v.p.dl.dlBw = _
    omega
  have h₁ : Charged T ((View.mk (View.dlSubSpan (v.machine.rdOf v.p.cpu) v.p.dl.dlBw v.machine) v.rqs v.p).__setTaskCpu
    later) 0 := h₀.zero rfl
  have h₂ := h₁.retotal (m := View.dlAddSpan (v.machine.rdOf later) v.p.dl.dlBw
    (dlSubSpan (v.machine.rdOf v.p.cpu) v.p.dl.dlBw v.machine)) (j := v.p.dl.dlBw) rfl rfl rfl
  exact h₂.congr rfl rfl

end Charged

/-! ## The machine after the functions of the class -/

namespace View

variable (v : View) (passed late : Bool)

theorem taskContending_machine (migrated : Bool) : (v.taskContending migrated).machine = v.machine := by
  unfold taskContending
  split
  · rfl
  · cases migrated <;> cases v.p.dl.nonContending <;> simp

theorem enqueueTaskDl_machine (flags : EnqueueFlags) : (v.enqueueTaskDl flags late).machine = v.machine := by
  have hc : ((v.checkConstrained late).countIn flags.restore).machine = v.machine := by
    unfold countIn checkConstrained
    split <;> split <;> simp
  unfold enqueueTaskDl enqueueUnlessThrottled enqueueDlEntity
  cases flags.wakeup <;> cases flags.replenish <;> simp [taskContending_machine, hc]

theorem enqueueTask_machine (flags : EnqueueFlags) : (v.enqueueTask flags late).machine = v.machine := by
  unfold enqueueTask
  split
  · exact v.enqueueTaskDl_machine late flags
  · rfl

theorem countOut_machine (save : Bool) : (v.countOut save).machine = v.machine := by
  unfold countOut
  split <;> simp

theorem dequeueTask_machine (save : Bool) : (v.dequeueTask save false passed).machine = v.machine := by
  unfold dequeueTask dequeueTaskDl
  split
  · exact v.countOut_machine save
  · rfl

theorem deactivate_machine : v.deactivate.machine = v.machine := by
  unfold deactivate
  split <;> simp

theorem setTaskCpu_machine (cpu : Nat) : (v.setTaskCpu cpu).machine = v.machine := by
  unfold setTaskCpu migrateTaskRq migrateTaskRqDl
  split
  · rfl
  · split
    · split
      · rfl
      · simp [deactivate_machine]
    · rfl

theorem moveRqBw_machine (later : Nat) : (v.moveRqBw later).machine = v.machine := by
  unfold moveRqBw
  split <;> simp

end View

/-! ## What is admitted for a task -/

def Task.Quiet (p : Task) : Prop := p.dl.special = true → p.dl.inactiveTimer = .idle

namespace Task

variable {p : Task}

theorem charge_of_deadline (hp : p.policy = .deadline) : p.charge = p.countedBw := by
  unfold charge
  rw [hp]

theorem charge_of_other (hp : p.policy = .other) : p.charge = if p.dl.inactiveTimer.active then p.dl.dlBw else 0 := by
  unfold charge
  rw [hp]

theorem woken_flags (dl : DlEntity) : dl.woken.flags = dl.flags ∧ dl.woken.dlBw = dl.dlBw := by
  unfold woken
  split <;> exact ⟨rfl, rfl⟩

theorem woken_counted : countedBw { p with dl := p.dl.woken } = p.countedBw := by
  obtain ⟨hf, hb⟩ := woken_flags p.dl
  have hs : p.dl.woken.special = p.dl.special := by rw [special, special, hf]
  simp only [countedBw, hs, hb]

theorem charge_woken (hp : p.policy = .deadline) : charge { p with dl := p.dl.woken } = p.charge := by
  rw [charge_of_deadline hp, charge_of_deadline (show ({ p with dl := p.dl.woken } : Task).policy = .deadline from hp)]
  exact woken_counted

theorem Quiet.woken (h : p.Quiet) : Quiet { p with dl := p.dl.woken } := by
  intro hs
  have hi : p.dl.inactiveTimer = .idle := h (by rwa [DlEntity.special, (woken_flags p.dl).1] at hs)
  show p.dl.woken.inactiveTimer = .idle
  unfold DlEntity.woken
  split
  · simp [DlEntity.contend, hi, tryToCancel]
  · exact hi

theorem Quiet.block (h : p.Quiet) (passed : Bool) : (p.block passed).Quiet := by
  unfold Task.block
  split
  · exact h
  · rename_i hs
    rw [not_or] at hs
    split
    · split
      · exact nofun
      · exact h
    · exact fun hs' => absurd hs' hs.2

end Task

namespace Charged

variable {T : Others} {v : View}

/-- A task that stops contending: its bandwidth stays admitted, or is given back with its parameters. -/
theorem taskNonContending (h : Charged T v v.p.countedBw) (hr : v.p.dl.special = false → v.p.dl.dlRuntime ≠ 0)
    (hq : v.p.Quiet) (passed : Bool) : Charged T (v.taskNonContending passed) (v.taskNonContending passed).p.charge := by
  rw [taskNonContending_p]
  unfold View.taskNonContending block
  by_cases hs : v.p.dl.special = true
  · have h0 : v.p.countedBw = 0 := by simp [countedBw, hs]
    have hc : v.p.charge = 0 := by
      cases hp : v.p.policy with
      | deadline => rw [charge_of_deadline hp, h0]
      | other => simp [charge_of_other hp, hq hs, Timer.active]
    simp only [hs, if_true, or_true, ite_self]
    rw [hc, ← h0]
    exact h
  · have hr' : v.p.dl.dlRuntime ≠ 0 := hr (by simpa using hs)
    have hbw : v.p.countedBw = v.p.dl.dlBw := by simp [countedBw, hs]
    simp only [hs, hr', if_false, or_self, Bool.false_eq_true]
    by_cases ht : (passed || v.p.dl.inactiveTimer.active) = true
    · simp only [ht, if_true]
      by_cases hd : v.p.policy ≠ .deadline ∨ v.p.state = .dead
      · simp only [hd, if_true]
        have h0 : charge { v.p with dl := v.p.dl.clearParams } = 0 := by
          unfold charge
          split
          · rfl
          · exact ite_self _
        rw [h0]
        apply Charged.release
        rw [hbw] at h
        split <;> split <;> simpa using h.congr (by simp) (by simp)
      · have hp : v.p.policy = .deadline := by
          rw [not_or, not_not] at hd
          exact hd.1
        rw [if_neg hd, if_neg hd, if_pos hp, charge_of_deadline hp]
        exact h.congr (by simp) (by simp)
    · simp only [ht, Bool.false_eq_true, if_false]
      have hc : charge { v.p with dl := { v.p.dl with nonContending := true, inactiveTimer := .armed } } =
          v.p.countedBw := by
        unfold charge
        split
        · rfl
        · rw [hbw]
          rfl
      rw [hc]
      exact h.congr rfl rfl

end Charged

/-! ## Actions -/

section

variable {T : Others} {v : View}

/-- What the actions keep: the domain has admitted what the task is charged with. -/
def Settled (T : Others) (v : View) : Prop := Charged T v v.p.charge ∧ v.p.Quiet

/-- An action that changes neither the domains nor what the task is charged with. -/
theorem Settled.congr {w : View} {p : Task} (h : Settled T v) (hm : w.machine = v.machine) (hp : w.p = p)
    (hr : v.machine.rdOf p.cpu = v.machine.rdOf v.p.cpu) (hc : p.charge = v.p.charge) (hq : p.Quiet) : Settled T w := by
  subst hp
  refine ⟨?_, hq⟩
  rw [hc]
  exact h.1.congr hm hr

variable (h : Settled T v) {cpu : Nat}

include h

theorem deactivateSleep_settled (hs : v.p.Sane) (hon : v.p.onRq = .queued) (state : TaskState)
    (passed : Bool) : Settled T (v.deactivateSleep state passed) := by
  obtain ⟨hc, hq⟩ := h
  have hrun : v.p.state = .running := hs.running.2 (by simp [hon])
  cases hp : v.p.policy with
  | deadline =>
    have hd : v.deactivateSleep state passed = (v.setState state .off).taskNonContending passed := by
      simp [deactivateSleep, dequeueTask, dequeueTaskDl, countOut, hp]
    have hr : v.p.dl.special = false → v.p.dl.dlRuntime ≠ 0 := fun hsp => hs.runtime hp hsp (by simp [hrun])
    rw [charge_of_deadline hp] at hc
    have hc' : Charged T (v.setState state .off) v.p.countedBw := hc.congr rfl rfl
    rw [hd]
    refine ⟨hc'.taskNonContending hr hq passed, ?_⟩
    rw [taskNonContending_p]
    exact Task.Quiet.block (p := (v.setState state .off).p) hq passed
  | other =>
    have hd : v.deactivateSleep state passed = v.setState state .off := by
      simp [deactivateSleep, dequeueTask, hp]
    rw [hd]
    exact Settled.congr ⟨hc, hq⟩ rfl rfl rfl rfl hq

theorem tryToWakeUp_settled (hr : v.machine.rdOf cpu = v.machine.rdOf v.p.cpu) : Settled T (v.tryToWakeUp cpu) := by
  have hm : (v.tryToWakeUp cpu).machine = v.machine := by
    simp [tryToWakeUp, setTaskCpu_machine]
  refine h.congr hm (v.tryToWakeUp_p cpu) hr ?_ ?_
  · by_cases hw : v.p.cpu ≠ cpu ∧ v.p.policy = .deadline
    · simp only [if_pos hw]
      exact charge_woken hw.2
    · simp only [if_neg hw]
      rfl
  · split
    · exact h.2.woken
    · exact h.2

theorem ttwuDoActivate_settled (late : Bool) : Settled T (v.ttwuDoActivate late) := by
  obtain ⟨t, hp'⟩ := v.ttwuDoActivate_p late
  have hm : (v.ttwuDoActivate late).machine = v.machine := by
    simp [ttwuDoActivate, enqueueTask_machine]
  -- the task after `task_contending`, whether it has a runtime or not
  have hwake : ∀ {p : Task}, p.policy = .deadline → p.Quiet → p.wake.charge = p.charge ∧ p.wake.cpu = p.cpu ∧
      p.wake.Quiet := by
    intro p hp hq
    unfold wake
    split
    · exact ⟨rfl, rfl, hq⟩
    · exact ⟨charge_woken hp, rfl, hq.woken⟩
  by_cases hp : v.p.policy = .deadline
  · rw [if_pos hp] at hp'
    obtain ⟨hc, hcpu, hq⟩ := hwake hp h.2
    exact h.congr hm hp' (congrArg v.machine.rdOf hcpu) hc hq
  · rw [if_neg hp] at hp'
    exact h.congr hm hp' rfl rfl h.2

theorem wakeUpNewTask_settled (hr : v.machine.rdOf cpu = v.machine.rdOf v.p.cpu)
    (late : Bool) : Settled T (v.wakeUpNewTask cpu late) := by
  obtain ⟨t, hp'⟩ := v.wakeUpNewTask_p late cpu
  have hm : (v.wakeUpNewTask cpu late).machine = v.machine := by
    simp [wakeUpNewTask, enqueueTask_machine]
  exact h.congr hm hp' hr rfl h.2

theorem throttle_settled (timerStarted : Bool) : Settled T (v.throttle timerStarted) := by
  obtain ⟨t, hp'⟩ := v.throttle_p timerStarted
  have hm : (v.throttle timerStarted).machine = v.machine := by
    unfold View.throttle
    split
    · rfl
    · simp [enqueueTaskDl_machine]
  exact h.congr hm hp' rfl rfl h.2

theorem migrateOut_settled : Settled T v.migrateOut := by
  have hm : v.migrateOut.machine = v.machine := by simp [migrateOut, dequeueTask_machine]
  exact h.congr hm v.migrateOut_p rfl rfl h.2

theorem migrateIn_settled (hs : v.p.Sane) (hon : v.p.onRq = .migrating)
    (hr : v.machine.rdOf cpu = v.machine.rdOf v.p.cpu) (late : Bool) : Settled T (v.migrateIn cpu late) := by
  have hrun : v.p.state = .running := hs.running.2 (by simp [hon])
  obtain ⟨t, hp'⟩ := v.migrateIn_p late cpu (by simp [hrun])
  have hm : (v.migrateIn cpu late).machine = v.machine := by
    simp [migrateIn, enqueueTask_machine, setTaskCpu_machine]
  exact h.congr hm hp' hr rfl h.2

theorem replenish_settled (hs : v.p.Sane) {offline : Option Nat}
    (hsp : offline.isSome = true → v.p.dl.throttled = true → v.p.dl.special = false) :
    Settled T (v.dlTaskTimer offline) := by
  have hq : v.p.onRq = .queued → v.p.state ≠ .waking := fun hon => by simp [hs.running.2 (by simp [hon])]
  unfold dlTaskTimer
  split
  · exact h
  · rename_i hp
    rw [not_not] at hp
    split
    · exact h
    · rename_i hth
      split
      · exact h.congr rfl rfl rfl rfl h.2
      · rename_i hon
        rw [not_not] at hon
        cases offline with
        | none =>
          obtain ⟨t, ht⟩ := v.enqueueTaskDl_p false .onlyReplenish
          exact h.congr (v.enqueueTaskDl_machine false .onlyReplenish) ht rfl rfl h.2
        | some later =>
          have hspecial : v.p.dl.special = false := hsp rfl (by simpa using hth)
          have hbw : v.p.charge = v.p.dl.dlBw := by simp [charge_of_deadline hp, countedBw, hspecial]
          have hmig := v.dlTaskOfflineMigration_p later (hq hon)
          have hmoved : Charged T (v.dlTaskOfflineMigration later) v.p.charge := by
            have hc := h.1
            rw [hbw] at hc
            have hc' := Charged.moveTotal (v := v.moveRqBw later) (by
              rw [moveRqBw_p]
              exact hc.congr (v.moveRqBw_machine later) (by rw [moveRqBw_p])) later
            rw [moveRqBw_p] at hc'
            rw [hbw]
            refine hc'.congr ?_ ?_
            · simp [dlTaskOfflineMigration, setTaskCpu_machine]
            · rw [hmig]
              rfl
          have hset : Settled T (v.dlTaskOfflineMigration later) := by
            constructor
            · rw [hmig]
              exact hmoved
            · rw [hmig]
              exact h.2
          obtain ⟨t, ht⟩ := (v.dlTaskOfflineMigration later).enqueueTaskDl_p false .onlyReplenish
          exact hset.congr (enqueueTaskDl_machine _ false .onlyReplenish) ht rfl rfl hset.2

theorem inactiveTimerExpires_settled (ha : v.p.dl.inactiveTimer = .armed) :
    Settled T (v.setDl fun dl => { dl with inactiveTimer := .firing }) := by
  refine h.congr rfl rfl rfl ?_ ?_
  · unfold charge
    show (match v.p.policy with | .deadline => v.p.countedBw | .other => v.p.dl.dlBw) = _
    simp [ha, Timer.active]
  · intro hs
    have hi := h.2 hs
    rw [ha] at hi
    cases hi

theorem inactiveTimerRuns_settled (hf : v.p.dl.inactiveTimer = .firing) : Settled T v.inactiveTaskTimer := by
  obtain ⟨hc, hq⟩ := h
  have hspecial : v.p.dl.special = false := by
    by_contra hs
    have hi := hq (by simpa using hs)
    rw [hf] at hi
    cases hi
  have hbw : v.p.charge = v.p.dl.dlBw := by
    cases hp : v.p.policy with
    | deadline => simp [charge_of_deadline hp, countedBw, hspecial]
    | other => simp [charge_of_other hp, hf, Timer.active]
  refine ⟨?_, ?_⟩
  · rw [inactiveTaskTimer_p]
    unfold inactiveTaskTimer
    by_cases hd : v.p.policy ≠ .deadline ∨ v.p.state = .dead
    · have h0 : v.p.expire.charge = 0 := by
        unfold expire charge
        rw [if_pos hd]
        split
        · rfl
        · exact ite_self _
      rw [h0]
      rw [hbw] at hc
      simp only [if_pos hd]
      refine Charged.congr (Charged.release ?_) rfl rfl
      split
      · simpa using hc.congr (by simp) (by simp)
      · exact hc
    · have hp : v.p.policy = .deadline := by
        rw [not_or, not_not] at hd
        exact hd.1
      have hce : v.p.expire.charge = v.p.charge := by
        rw [charge_of_deadline hp, charge_of_deadline (show v.p.expire.policy = .deadline from hp)]
        simp only [expire, if_neg hd]
        rfl
      rw [hce]
      simp only [if_neg hd]
      split <;> exact hc.congr (by simp) (by simp)
  · exact fun _ => rfl

end

/-! ## Changes of the policy and the parameters -/

/-- The condition on a change: a deadline task stays special or not, a task turns special only when nothing is admitted
for it, parameters are kept only if they are the ones that are asked for, and a task leaves the class only while it is
queued or its timer is active. -/
def SchedAttr.Accounted (attr : SchedAttr) (p : Task) : Prop :=
  match attr.policyFor p, p.policy with
  | .deadline, .deadline =>
    if attr.keepParams then attr.flags.sugov = true ∨ attr.bw = p.dl.dlBw else attr.flags.sugov = p.dl.special
  | .deadline, .other =>
    if attr.keepParams then attr.flags.sugov = true else attr.flags.sugov = true → p.dl.inactiveTimer = .idle
  | .other, .deadline =>
    attr.keepParams = true ∨ p.dl.special = true ∨ p.dl.dlBw = 0 ∨ p.onRq = .queued ∨ p.dl.inactiveTimer.active = true
  | .other, .other => True

section

variable {T : Others} {v w : View} {attr : SchedAttr} {policy : Policy} {passed late : Bool}

theorem unlessKept_machine (v : View) (attr : SchedAttr) (policy : Policy) :
    (v.unlessKept attr policy).machine = v.machine := by
  unfold unlessKept setschedulerParams
  split
  · rfl
  · cases policy <;> rfl

theorem setschedulerChange_machine (h : attr.keepParams = true ∨ policy = .deadline) :
    (v.setschedulerChange policy attr passed late).machine = v.machine := by
  have hclass : ∀ x : View, (x.p.policy = v.p.policy ∨ x.p.policy = .deadline) →
      (x.checkClassChanged v.p.policy passed).machine = x.machine := by
    intro x hx
    by_cases hs : x.p.policy = v.p.policy
    · rw [checkClassChanged_same _ _ hs]
    · have hd : x.p.policy = .deadline := hx.resolve_left hs
      have hv : v.p.policy = .other := by
        cases hv : v.p.policy with
        | deadline => exact absurd (hd.trans hv.symm) hs
        | other => rfl
      rw [hv, checkClassChanged_enter _ _ hd]
      unfold switchedToDl
      split <;> simp [cancelTimer]
  have hpol : ∀ x : View, x.p = v.p → (x.unlessKept attr policy).p.policy = v.p.policy ∨
      (x.unlessKept attr policy).p.policy = .deadline := by
    intro x hx
    rw [unlessKept_p, hx]
    rcases h with h | h
    · simp [h]
    · subst h
      split
      · exact .inl rfl
      · exact .inr rfl
  unfold setschedulerChange
  split
  · have hd : (v.dequeueTask true false false).p = v.p := by simp [dequeueTask_p]
    obtain ⟨t, ht⟩ := ((v.dequeueTask true false false).unlessKept attr policy).enqueueTask_p late .onlyRestore
    rw [hclass, enqueueTask_machine, unlessKept_machine, dequeueTask_machine]
    rw [ht]
    simpa [EnqueueFlags.onlyRestore, EnqueueFlags.none, Task.throttle] using hpol _ hd
  · rw [hclass _ (hpol v rfl), unlessKept_machine]

def SchedAttr.charge (attr : SchedAttr) : Nat := if attr.flags.sugov then 0 else attr.bw

theorem kept_settled (hk : attr.keepParams = true) (h : Settled T v) :
    Settled T (v.setschedulerChange policy attr passed late) := by
  obtain ⟨t, hp'⟩ := v.setschedulerChange_p passed late policy attr
  have hsame : (v.p.throttle t).changeClass v.p.policy passed = v.p.throttle t := by
    unfold Task.changeClass
    cases hp : v.p.policy <;> simp [Task.throttle, hp]
  rw [hk, if_pos rfl, hsame] at hp'
  exact h.congr (setschedulerChange_machine (.inl hk)) hp' rfl rfl h.2

theorem changed_settled (hk : attr.keepParams = false) (h : Charged T v attr.charge)
    (hq : attr.flags.sugov = true → v.p.dl.inactiveTimer = .idle) :
    Settled T (v.setschedulerChange .deadline attr passed late) := by
  obtain ⟨t, hp'⟩ := v.setschedulerChange_p passed late .deadline attr
  rw [hk] at hp'
  have hm : (v.setschedulerChange .deadline attr passed late).machine = v.machine :=
    setschedulerChange_machine (.inr rfl)
  cases hp : v.p.policy <;> rw [hp] at hp'
  · refine ⟨?_, ?_⟩ <;> rw [hp']
    · exact h.congr hm (by rw [hp']; rfl)
    · exact hq
  · refine ⟨?_, ?_⟩ <;> rw [hp']
    · exact h.congr hm (by rw [hp']; rfl)
    · intro hs
      show v.p.dl.inactiveTimer.tryToCancel = .idle
      rw [hq hs]
      rfl

/-- The task leaves the class, and is still admitted when `switched_from_dl` is called. -/
theorem setschedulerChange_leave (hk : attr.keepParams = false) (hp : v.p.policy = .deadline) (passed late : Bool) :
    ∃ x : View, v.setschedulerChange .other attr passed late = x.switchedFromDl passed ∧
      x.p = { v.p with policy := .other } ∧ x.machine = v.machine := by
  have hkept : ∀ y : View, y.p = v.p → (y.unlessKept attr .other).p = { v.p with policy := .other } := by
    intro y hy
    rw [unlessKept_p, hk, hy]
    rfl
  by_cases hon : v.p.onRq = .queued
  · have hd : (v.dequeueTask true false false).p = v.p := by simp [dequeueTask_p]
    have hy := hkept _ hd
    refine ⟨(v.dequeueTask true false false).unlessKept attr .other, ?_, hy, ?_⟩
    · have henq : ((v.dequeueTask true false false).unlessKept attr .other).enqueueTask .onlyRestore late =
          (v.dequeueTask true false false).unlessKept attr .other := by
        rw [enqueueTask, if_neg (by simp [hy])]
      rw [setschedulerChange, if_pos hon, henq, hp, checkClassChanged_leave _ _ (by rw [hy])]
    · rw [unlessKept_machine, dequeueTask_machine]
  · refine ⟨v.unlessKept attr .other, ?_, hkept v rfl, unlessKept_machine v attr .other⟩
    rw [setschedulerChange, if_neg hon, hp, checkClassChanged_leave _ _ (by rw [hkept v rfl])]

theorem leave_queued (hc : Charged T v v.p.countedBw) (hq : v.p.Quiet)
    (hch : v.p.dl.dlRuntime = 0 → v.p.charge = v.p.countedBw) :
    Settled T (if v.p.dl.dlRuntime ≠ 0 then v.taskNonContending passed else v) := by
  split
  · rename_i hr
    refine ⟨hc.taskNonContending (fun _ => hr) hq passed, ?_⟩
    rw [taskNonContending_p]
    exact hq.block passed
  · rename_i hr
    refine ⟨?_, hq⟩
    rw [hch (not_ne_iff.1 hr)]
    exact hc

/-- A task that is not queued is taken from the bandwidths of its runqueue only. -/
theorem leave_blocked (hc : Charged T v v.p.countedBw) (hq : v.p.Quiet) (hch : v.p.charge = v.p.countedBw) :
    Settled T (if v.p.dl.nonContending then v.subRunningBw else v).subRqBw := by
  have hsub : Charged T (if v.p.dl.nonContending then v.subRunningBw else v).subRqBw v.p.charge := by
    rw [hch]
    split <;> exact hc.congr (by simp) (by simp)
  have hpx : (if v.p.dl.nonContending then v.subRunningBw else v).subRqBw.p = v.p := by
    split <;> simp
  constructor <;> rw [hpx]
  · exact hsub
  · exact hq

theorem left_settled (hs : v.p.Sane) (hk : attr.keepParams = false) (h : Settled T v) (hp : v.p.policy = .deadline)
    (hl : v.p.dl.special = true ∨ v.p.dl.dlBw = 0 ∨ v.p.onRq = .queued ∨ v.p.dl.inactiveTimer.active = true) :
    Settled T (v.setschedulerChange .other attr passed late) := by
  obtain ⟨hc, hq⟩ := h
  rw [charge_of_deadline hp] at hc
  obtain ⟨x, hx, hxp, hxm⟩ := setschedulerChange_leave hk hp passed late
  have hcx : Charged T x x.p.countedBw := by
    rw [hxp]
    exact hc.congr hxm (by rw [hxp])
  have hqx : x.p.Quiet := by
    rw [hxp]
    exact hq
  have hspecial : v.p.dl.special = true → x.p.charge = x.p.countedBw := by
    intro hsp
    rw [hxp, charge_of_other rfl]
    simp [hq hsp, Timer.active, countedBw, hsp]
  have hleft : Settled T (if x.p.onRq = .queued then (if x.p.dl.dlRuntime ≠ 0 then x.taskNonContending passed else x)
      else (if x.p.dl.nonContending then x.subRunningBw else x).subRqBw) := by
    split
    · rename_i hon
      refine leave_queued hcx hqx fun hr => hspecial ?_
      -- a task that runs has a runtime, if it is not special
      by_contra hsp
      rw [hxp] at hon hr
      have hrun : v.p.state = .running := hs.running.2 (by simp [show v.p.onRq = .queued from hon])
      exact hs.runtime hp (by simpa using hsp) (by simp [hrun]) hr
    · rename_i hon
      refine leave_blocked hcx hqx ?_
      by_cases hsp : v.p.dl.special = true
      · exact hspecial hsp
      · rw [hxp] at hon ⊢
        rw [charge_of_other rfl]
        rcases hl with hl | hl | hl | hl
        · exact absurd hl hsp
        · simp [countedBw, hl]
        · exact absurd hl hon
        · simp [countedBw, hl, hsp]
  rw [hx]
  -- that the flag is cleared does not matter
  exact hleft.congr rfl rfl rfl rfl hleft.2

theorem untouched_settled (hs : v.p.Sane) (h : Settled T v) (ha : attr.Accounted v.p)
    (hdl : attr.policyFor v.p = .deadline ∨ v.p.policy = .deadline)
    (hc : attr.flags.sugov = true ∨ attr.policyFor v.p = .deadline ∧ v.p.policy = .deadline ∧ attr.bw = v.p.dl.dlBw ∨
      attr.policyFor v.p = .other ∧ v.p.policy = .deadline) :
    Settled T (v.setschedulerChange (attr.policyFor v.p) attr passed late) := by
  unfold SchedAttr.Accounted at ha
  by_cases hk : attr.keepParams = true
  · exact kept_settled hk h
  · have hk' : attr.keepParams = false := by simpa using hk
    cases hp : v.p.policy <;> cases hpol : attr.policyFor v.p
      <;> simp only [hp, hpol, hk', Bool.false_eq_true, if_false, false_or] at ha
    · have hch : v.p.charge = attr.charge := by
        rw [charge_of_deadline hp, countedBw, SchedAttr.charge, ha]
        rcases hc with hc | ⟨-, -, hc⟩ | ⟨hc, -⟩
        · simp [← ha, hc]
        · rw [hc]
        · rw [hpol] at hc; cases hc
      have hcu := h.1
      rw [hch] at hcu
      exact changed_settled hk' hcu fun hsug => h.2 (by rw [← ha, hsug])
    · exact left_settled hs hk' h hp ha
    · have hsug : attr.flags.sugov = true := by
        rcases hc with hc | ⟨-, hc, -⟩ | ⟨hc, -⟩
        · exact hc
        · rw [hp] at hc; cases hc
        · rw [hpol] at hc; cases hc
      have hcu := h.1
      have hch : v.p.charge = attr.charge := by
        simp [charge_of_other hp, ha hsug, Timer.active, SchedAttr.charge, hsug]
      rw [hch] at hcu
      exact changed_settled hk' hcu ha
    · simp [hp, hpol] at hdl

/-- The task enters the class: what a timer still held is given back first. -/
theorem entered_settled (h : Settled T v) (hk : attr.keepParams = false) (hp : v.p.policy = .other)
    (hsug : attr.flags.sugov = false) :
    Settled T (((if v.p.dl.inactiveTimer.active then v.dlSub v.p.dl.dlBw else v).dlAdd attr.bw).setschedulerChange
      .deadline attr passed late) := by
  have hcu : Charged T ((if v.p.dl.inactiveTimer.active then v.dlSub v.p.dl.dlBw else v).dlAdd attr.bw)
      (0 + attr.bw) := by
    apply Charged.dlAdd
    have hc := h.1
    rw [charge_of_other hp] at hc
    split
    · rename_i hact
      rw [if_pos hact] at hc
      have hc' := hc.dlSub le_rfl
      rwa [Nat.sub_self] at hc'
    · rename_i hact
      rwa [if_neg hact] at hc
  refine changed_settled hk ?_ (by simp [hsug])
  simpa [SchedAttr.charge, hsug] using hcu

theorem resized_settled (h : Settled T v) (hk : attr.keepParams = false) (hp : v.p.policy = .deadline)
    (hsug : attr.flags.sugov = false) (hsp : v.p.dl.special = false) :
    Settled T ((((v.dlSub v.p.dl.dlBw).dlAdd attr.bw).dlChangeUtilization attr.bw).setschedulerChange
      .deadline attr passed late) := by
  have hcu : Charged T ((v.dlSub v.p.dl.dlBw).dlAdd attr.bw) attr.bw := by
    have hc := h.1
    rw [charge_of_deadline hp, countedBw, hsp] at hc
    have hc' := (hc.dlSub le_rfl).dlAdd attr.bw
    simpa using hc'
  have hcpu : (((v.dlSub v.p.dl.dlBw).dlAdd attr.bw).dlChangeUtilization attr.bw).p.cpu = v.p.cpu := by
    rw [dlChangeUtilization_p]
    split <;> rfl
  refine changed_settled hk ?_ (by simp [hsug])
  rw [SchedAttr.charge, hsug]
  refine hcu.congr (dlChangeUtilization_machine attr.bw _) ?_
  rw [hcpu]
  rfl

theorem setscheduler_settled {range : PeriodRange} (hs : v.p.Sane) (h : Settled T v) (ha : attr.Accounted v.p)
    (hw : v.schedSetscheduler range attr passed late = .ok w) : Settled T w := by
  rcases schedSetscheduler_cases hw with rfl | ⟨-, hdl, u, hu, rfl⟩
  · exact h
  rcases schedDlOverflow_cases hu with ⟨rfl, hc⟩ | ⟨hpol, hp, hsug, rfl⟩ | ⟨hpol, hp, hsug, hne, rfl⟩
  · exact untouched_settled hs h ha hdl hc
  · unfold SchedAttr.Accounted at ha
    have hk : attr.keepParams = false := by
      by_contra hk
      simp [hp, hpol, hsug, show attr.keepParams = true by simpa using hk] at ha
    rw [hpol]
    exact entered_settled h hk hp hsug
  · unfold SchedAttr.Accounted at ha
    have hk : attr.keepParams = false := by
      by_contra hk
      simp [hp, hpol, hsug, hne, show attr.keepParams = true by simpa using hk] at ha
    rw [hpol]
    exact resized_settled h hk hp hsug (by simpa [hp, hpol, hk, hsug] using ha)

end

/-! ## Runs -/

/-- The condition on an action: a task moves within its root domain, unless its CPU is offline, and changes of the policy
are accounted for. -/
def Action.Accounted (m : Machine) : Action → Task → Prop
  | .wakeUpNewTask cpu _, p => m.rdOf cpu = m.rdOf p.cpu
  | .tryToWakeUp cpu, p => m.rdOf cpu = m.rdOf p.cpu
  | .migrateIn cpu _, p => m.rdOf cpu = m.rdOf p.cpu
  | .replenish offline, p => offline.isSome = true → p.dl.throttled = true → p.dl.special = false
  | .setscheduler _ attr _ _, p => attr.Accounted p
  | _, _ => True

instance (attr : SchedAttr) (p : Task) : Decidable (attr.Accounted p) := by
  unfold SchedAttr.Accounted
  cases attr.policyFor p <;> cases p.policy <;> infer_instance

instance (m : Machine) (a : Action) (p : Task) : Decidable (a.Accounted m p) := by
  induction a using Action.casesOn <;> unfold Action.Accounted <;> infer_instance

theorem Action.act_settled {T : Others} {v : View} {a : Action} (he : a.enabled v.p = true)
    (ho : a.Accounted v.machine v.p) (hs : v.p.Sane) (h : Settled T v) : Settled T (a.act v) := by
  cases a with
  | wakeUpNewTask cpu late => exact wakeUpNewTask_settled h ho late
  | tryToWakeUp cpu => exact tryToWakeUp_settled h ho
  | ttwuDoActivate late => exact ttwuDoActivate_settled h late
  | sleep passed => exact deactivateSleep_settled h hs (by simpa [Action.enabled] using he) .blocked passed
  | exit passed => exact deactivateSleep_settled h hs (by simpa [Action.enabled] using he) .dead passed
  | throttle timerStarted => exact throttle_settled h timerStarted
  | replenish offline => exact replenish_settled h hs ho
  | migrateOut => exact migrateOut_settled h
  | migrateIn cpu late => exact migrateIn_settled h hs (by simpa [Action.enabled] using he) ho late
  | inactiveTimerExpires => exact inactiveTimerExpires_settled h (by simpa [Action.enabled] using he)
  | inactiveTimerRuns =>
    have he' : v.p.dl.inactiveTimer = .firing ∧ v.p.onRq ≠ .migrating := by simpa [Action.enabled] using he
    exact inactiveTimerRuns_settled h he'.1
  | setscheduler range attr passed late =>
    rw [Action.act]
    split
    · exact setscheduler_settled hs h ho ‹_›
    · exact h

/-- What a task is charged with in the domain `r`. -/
def Task.chargeIn (m : Machine) (r : Nat) (p : Task) : Nat := if m.rdOf p.cpu = r then p.charge else 0

namespace Sched

/-- The invariant of runs: the domains have admitted what all tasks are charged with. -/
structure Admitted (s : Sched) : Prop where
  sane : ∀ p ∈ s.tasks, p.Sane ∧ p.Quiet
  total : ∀ r, (s.machine.rds r).totalBw = owed (Task.chargeIn s.machine r) s.tasks

variable {s : Sched} {i : Nat} {p : Task}

def others (s : Sched) (i : Nat) : Others where
  cpus := s.machine.cpus
  total r := Ledger.others (Task.chargeIn s.machine r) s.tasks i

theorem Admitted.settled (h : s.Admitted) (hp : s.tasks[i]? = some p) : Settled (s.others i) (s.view p) := by
  refine ⟨⟨rfl, fun r => ?_⟩, (h.sane p (mem_of_getElem? hp)).2⟩
  show (s.machine.rds r).totalBw = _
  rw [h.total r, owed_eq_others_add hp]
  rfl

theorem Admitted.of_settled (h : s.Admitted) (hp : s.tasks[i]? = some p) {v : View} (hs : v.p.Sane)
    (hv : Settled (s.others i) v) : Admitted { machine := v.machine, rqs := v.rqs, tasks := s.tasks.set i v.p } where
  sane := by
    intro q hq
    rcases mem_or_eq_of_mem_set hq with hq | rfl
    · exact h.sane q hq
    · exact ⟨hs, hv.2⟩
  total := by
    intro r
    have hrd : v.machine.rdOf = s.machine.rdOf := by
      funext c
      rw [Machine.rdOf, Machine.rdOf, Machine.cpu, Machine.cpu, hv.1.cpus]
      rfl
    have hc : chargeIn v.machine r = chargeIn s.machine r := by
      funext q
      rw [chargeIn, chargeIn, hrd]
    show (v.machine.rds r).totalBw = _
    rw [hv.1.total r, hc, owed_set hp, hrd]
    rfl

end Sched

def Op.Accounted (op : Op) (s : Sched) : Prop := ∀ p ∈ s.tasks[op.pid]?, op.action.Accounted s.machine p

instance (op : Op) (s : Sched) : Decidable (op.Accounted s) := inferInstanceAs (Decidable (∀ p ∈ s.tasks[op.pid]?, _))

theorem Op.step_admitted {op : Op} {s s' : Sched} (h : s.Admitted) (ho : op.Accounted s) (hs : op.step s = some s') :
    s'.Admitted := by
  unfold Op.step at hs
  split at hs
  · cases hs
  · rename_i p hp
    split at hs
    · rename_i he
      cases hs
      have hsane := (h.sane p (mem_of_getElem? hp)).1
      exact h.of_settled hp (Action.act_sane he hsane) (Action.act_settled he (ho p hp) hsane (h.settled hp))
    · cases hs

theorem Sched.admitted_boot {m : Machine} {homes : List Nat} (hm : ∀ r, (m.rds r).totalBw = 0) :
    (Sched.boot m homes).Admitted where
  sane := by
    intro p hp
    obtain ⟨c, -, rfl⟩ := mem_map.1 hp
    exact ⟨⟨by simp [fork], nofun, nofun, Nat.zero_le _⟩, fun _ => rfl⟩
  total := by
    intro r
    have h0 : ∀ c, chargeIn m r (fork c) = 0 := by
      intro c
      unfold chargeIn
      split <;> rfl
    show (m.rds r).totalBw = owed (chargeIn m r) (homes.map fork)
    rw [hm]
    simp [owed, comp_def, h0]

/-! ## The sums over the tasks -/

def Task.admitted (p : Task) : Bool := p.policy = .deadline && !p.dl.special

/-- A task that has left the class and whose timer has not run yet. -/
def Task.lingering (p : Task) : Bool := p.policy ≠ .deadline && p.dl.inactiveTimer.active

/-- The bandwidth every root domain has admitted is the sum over its deadline tasks and those that have left the class and
wait for their timer; once no task is left, it is 0. -/
def Sched.TotalsCorrect (s : Sched) : Prop :=
  ∀ r, (s.machine.rds r).totalBw =
      owed (fun p => p.dl.dlBw) (s.tasks.filter fun p => s.machine.rdOf p.cpu = r && (p.admitted || p.lingering)) ∧
    ((∀ p ∈ s.tasks, p.policy ≠ .deadline ∧ p.dl.inactiveTimer = .idle) → (s.machine.rds r).totalBw = 0)

theorem Task.chargeIn_eq (m : Machine) (r : Nat) (p : Task) : p.chargeIn m r =
    if m.rdOf p.cpu = r && (p.admitted || p.lingering) then p.dl.dlBw else 0 := by
  unfold chargeIn charge admitted lingering countedBw
  by_cases hr : m.rdOf p.cpu = r <;> cases p.policy <;> cases p.dl.special <;> simp [hr]

theorem Sched.Admitted.correct {s : Sched} (h : s.Admitted) : s.TotalsCorrect := by
  intro r
  rw [h.total r]
  constructor
  · rw [owed_filter]
    simp only [← chargeIn_eq]
  · intro hleft
    have h0 : ∀ p ∈ s.tasks, chargeIn s.machine r p ≤ 0 := by
      intro p hp
      obtain ⟨hpol, hidle⟩ := hleft p hp
      rw [chargeIn_eq]
      simp [admitted, lingering, hpol, hidle, Timer.active]
    have hle := owed_le_mul h0
    omega

/-- In every run from boot whose operations are accounted for, the admitted bandwidth of every root domain is right. -/
theorem total_bandwidth_after_run {m : Machine} {homes : List Nat} {ops : List Op} {s : Sched}
    (hm : ∀ r, (m.rds r).totalBw = 0) (ho : Along Op.step Op.Accounted ops (Sched.boot m homes))
    (hr : run Op.step ops (Sched.boot m homes) = some s) : s.TotalsCorrect := by
  have ha : s.Admitted :=
    along_invariant (fun _ _ _ h ho hs => Op.step_admitted h ho hs) (Sched.admitted_boot hm) ho hr
  exact ha.correct

/-- A deadline task leaves the class while it is asleep and its timer armed; then the timer runs. -/
def leaveBeforeZeroLag : List Op :=
  [.wakeUpNewTask 0 false, .setscheduler .default (.perTenth 10000000) false false, .sleep false,
    .setscheduler .default .other false false, .inactiveTimerExpires, .inactiveTimerRuns].map fun a => ⟨0, a⟩

theorem total_bandwidth_after_leaving : ∃ s, run Op.step leaveBeforeZeroLag (Sched.boot oneCpu [0]) = some s ∧
    s.TotalsCorrect := by
  have hs : (run Op.step leaveBeforeZeroLag (Sched.boot oneCpu [0])).isSome = true := by decide +kernel
  obtain ⟨s, hr⟩ := Option.isSome_iff_exists.1 hs
  exact ⟨s, hr, total_bandwidth_after_run (fun _ => rfl) (by decide +kernel) hr⟩

/-- The same, but the timer runs before the task leaves. -/
def leaveAfterZeroLag : List Op :=
  [.wakeUpNewTask 0 false, .setscheduler .default (.perTenth 10000000) false false, .sleep false, .inactiveTimerExpires,
    .inactiveTimerRuns, .setscheduler .default .other false false].map fun a => ⟨0, a⟩

/-- No deadline task and no timer is left, but the domain never gets the bandwidth back. -/
theorem left_bandwidth_leaks : ∃ s, run Op.step leaveAfterZeroLag (Sched.boot oneCpu [0]) = some s ∧
    (∀ p ∈ s.tasks, p.policy ≠ .deadline ∧ p.dl.inactiveTimer = .idle) ∧ (s.machine.rds 0).totalBw = 104857 ∧
    ¬ s.TotalsCorrect := by
  obtain ⟨s, hr, hleft, htotal⟩ : ∃ s, run Op.step leaveAfterZeroLag (Sched.boot oneCpu [0]) = some s ∧
      (∀ p ∈ s.tasks, p.policy ≠ .deadline ∧ p.dl.inactiveTimer = .idle) ∧ (s.machine.rds 0).totalBw = 104857 :=
    run_of_isSome (by decide +kernel)
  refine ⟨s, hr, hleft, htotal, fun hc => ?_⟩
  have h0 := (hc 0).2 hleft
  rw [htotal] at h0
  cases h0

end KernelSched.Deadline
