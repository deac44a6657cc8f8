import KernelSched.Deadline.Standing

/-!
# Wakeups, sleeps, migrations and timers on the runqueues

Every action but a change of the policy keeps a task booked with the standing it has.
-/

namespace KernelSched.Deadline

open Task.Timed View

section

variable {R : Rest} {v : View} (ht : v.p.Timed) (h : Booked R v)

include ht h

/-- A task of another class is counted nowhere, before and after. -/
theorem booked_of_other {w : View} (hp : v.p.policy = .other) (hp' : w.p.policy = .other) (hdl : w.p.dl = v.p.dl)
    (hrqs : w.rqs = v.rqs) : Booked R w ∧ w.p.Timed := by
  have hat : R.At w .outside := (h.at (standing_of_other hp)).outside hrqs
  refine ⟨hat.booked (standing_of_other hp'), of_other hp' ?_⟩
  rw [hdl]
  exact ht.contending (.inl hp)

theorem deactivateSleep_booked (hs : v.p.Sane) (hon : v.p.onRq = .queued) (state : TaskState) (passed : Bool) :
    Booked R (v.deactivateSleep state passed) ∧ (v.deactivateSleep state passed).p.Timed := by
  obtain ⟨hrun, hm, hn⟩ := ht.on_queue hs (by simp [hon])
  cases hp : v.p.policy with
  | deadline =>
    have hr : v.p.dl.special = false → v.p.dl.dlRuntime ≠ 0 := fun hsp => hs.runtime hp hsp (by simp [hrun])
    have ha : v.p.dl.inactiveTimer ≠ .armed := fun ha => by simp [ht.armed hp ha] at hn
    have hat : R.At (v.setState state .off) .active := (h.at (standing_queued hp hon hm)).congr rfl rfl rfl
    have hd : v.deactivateSleep state passed = (v.setState state .off).taskNonContending passed := by
      simp [deactivateSleep, dequeueTask, dequeueTaskDl, countOut, hp]
    rw [hd]
    refine ⟨hat.taskNonContending hs.small hp hr rfl hm hn passed, ?_⟩
    rw [taskNonContending_p]
    exact block (p := (v.setState state .off).p) hp hr rfl hm hn ha passed
  | other =>
    have hd : v.deactivateSleep state passed = v.setState state .off := by
      simp [deactivateSleep, dequeueTask, hp]
    rw [hd]
    exact booked_of_other ht h hp hp rfl rfl

theorem tryToWakeUp_booked (hs : v.p.Sane) (hst : v.p.state = .blocked) (cpu : Nat) :
    Booked R (v.tryToWakeUp cpu) ∧ (v.tryToWakeUp cpu).p.Timed := by
  have hoff : v.p.onRq = .off := by
    by_contra hon
    simpa [hst] using hs.running.2 hon
  have hm : v.p.wakeMigrated = false := hs.not_moved (by simp [hst])
  by_cases hc : v.p.cpu = cpu
  · -- the task stays: it is as active as before
    have hv : v.tryToWakeUp cpu = (v.setState .waking .off).setWakeMigrated false := by
      simp [tryToWakeUp, setTaskCpu, hc]
    have hstand : ((v.setState .waking .off).setWakeMigrated false).p.standing = v.p.standing := by
      simp [Task.standing, Task.between, hoff, hm]
    rw [hv]
    exact ⟨Rest.At.booked (Rest.At.congr h rfl rfl rfl) hstand,
      ⟨fun hn => by simpa [hoff, hm] using ht.waiting hn, ht.armed, by simp⟩⟩
  · have hp' := v.tryToWakeUp_p cpu
    have hstand : (v.tryToWakeUp cpu).p.standing = .outside := by
      rw [hp']
      exact standing_between (.inr (by simpa using hc))
    have hrqs : (v.tryToWakeUp cpu).rqs = ((v.setState .waking .off).migrateTaskRq).rqs := by
      simp [tryToWakeUp, setTaskCpu, hc]
    cases hp : v.p.policy with
    | deadline =>
      have hat : R.At (v.setState .waking .off) (if v.p.dl.nonContending then .active else .inactive) :=
        (h.at (standing_off hp hoff hm)).congr rfl rfl rfl
      have hout : R.At (v.setState .waking .off).migrateTaskRq .outside := by
        have hmig : (v.setState .waking .off).migrateTaskRq = (v.setState .waking .off).deactivate.subRqBw := by
          simp [migrateTaskRq, migrateTaskRqDl, hp]
        rw [hmig]
        apply (hat.deactivate hs.small).subRqBw
        rw [deactivate_p]
        exact hs.woken.small
      refine ⟨(hout.outside hrqs).booked hstand, ?_⟩
      rw [hp']
      simp only [hc, hp, ne_eq, not_false_eq_true, and_self, if_true]
      exact of_contending woken_contending (fun _ => ht.woken_not_armed hp) (by simp)
    | other =>
      have hout : R.At (v.setState .waking .off).migrateTaskRq .outside := by
        rw [migrateTaskRq, if_neg (by simp [hp])]
        exact (h.at (standing_of_other hp)).outside rfl
      refine ⟨(hout.outside hrqs).booked hstand, ?_⟩
      rw [hp']
      refine of_other hp ?_
      simpa [hp] using ht.contending (.inl hp)

theorem ttwuDoActivate_booked (hs : v.p.Sane) (hst : v.p.state = .waking)
    (late : Bool) : Booked R (v.ttwuDoActivate late) ∧ (v.ttwuDoActivate late).p.Timed := by
  have hoff : v.p.onRq = .off := by
    by_contra hon
    simpa [hst] using hs.running.2 hon
  obtain ⟨t, hp'⟩ := v.ttwuDoActivate_p late
  cases hp : v.p.policy with
  | deadline =>
    have hmn : v.p.wakeMigrated = true → v.p.dl.nonContending = false := fun hm => ht.contending (by simp [hm])
    have hbefore : R.At v
        (if v.p.wakeMigrated then .outside else if v.p.dl.nonContending then .active else .inactive) := by
      refine h.at ?_
      cases hm : v.p.wakeMigrated
      · exact standing_off hp hoff hm
      · exact standing_between (.inr hm)
    have hat : R.At (v.enqueueTask (.wake v.p.wakeMigrated) late) .active := by
      rw [enqueueTask, if_pos hp]
      exact Rest.At.enqueueTaskDl_wake hs.small (fun hsp => hs.runtime hp hsp (by simp [hst])) hmn hoff hbefore late
    rw [if_pos hp] at hp'
    have hwake : v.p.wake.policy = .deadline := by
      unfold Task.wake
      split <;> exact hp
    refine ⟨Rest.At.booked (s := .active) (hat.congr rfl rfl rfl) ?_, ?_⟩
    · rw [hp']
      exact standing_queued hwake rfl rfl
    · rw [hp']
      apply Task.Timed.throttle
      have hn : v.p.wake.dl.nonContending = false ∧ v.p.wake.dl.inactiveTimer ≠ .armed := by
        unfold Task.wake
        split
        · rename_i hr
          have hsp : v.p.dl.special = true := by
            by_contra hsp
            exact hs.runtime hp (by simpa using hsp) (by simp [hst]) hr
          have hn : v.p.dl.nonContending = false := by
            by_contra hn
            simp [(ht.waiting (by simpa using hn)).2.1] at hsp
          exact ⟨hn, fun ha => by simp [ht.armed hp ha] at hn⟩
        · exact ⟨woken_contending, ht.woken_not_armed hp⟩
      exact of_contending hn.1 (fun _ => hn.2) nofun
  | other =>
    have hv : v.ttwuDoActivate late = (v.setState .running .queued).setWakeMigrated false := by
      simp [ttwuDoActivate, enqueueTask, hp]
    rw [hv]
    exact booked_of_other ht h hp hp rfl rfl

theorem wakeUpNewTask_booked (hsp : v.p.policy = .deadline → v.p.dl.special = true) (cpu : Nat) (late : Bool) :
    Booked R (v.wakeUpNewTask cpu late) ∧ (v.wakeUpNewTask cpu late).p.Timed := by
  obtain ⟨t, hp'⟩ := v.wakeUpNewTask_p late cpu
  cases hp : v.p.policy with
  | deadline =>
    have h0 : v.p.countedBw = 0 := by simp [Task.countedBw, hsp hp]
    have hat : R.At ((v.setState .running .off).__setTaskCpu cpu) v.p.standing := Rest.At.zero h rfl h0 h0
    have hat' : R.At (v.wakeUpNewTask cpu late) v.p.standing := by
      have henq := hat.enqueueTaskDl .none rfl (by simp) rfl late
      have hv : v.wakeUpNewTask cpu late =
          (((v.setState .running .off).__setTaskCpu cpu).enqueueTaskDl .none late).setState .running .queued := by
        simp [wakeUpNewTask, enqueueTask, hp]
      rw [hv]
      exact henq.congr rfl rfl rfl
    have h0' : (v.wakeUpNewTask cpu late).p.countedBw = 0 := by
      rw [hp']
      exact h0
    have hn : v.p.dl.nonContending = false := by
      by_contra hn
      simpa [hsp hp] using (ht.waiting (by simpa using hn)).2.1
    refine ⟨hat'.zero rfl h0' h0', ?_⟩
    rw [hp']
    apply Task.Timed.throttle
    exact of_contending hn (fun _ ha => by simp [ht.armed hp ha] at hn) (by simp)
  | other =>
    have hv : v.wakeUpNewTask cpu late =
        ((v.setState .running .off).__setTaskCpu cpu).setState .running .queued := by
      simp [wakeUpNewTask, enqueueTask, hp]
    rw [hv]
    exact booked_of_other ht h hp hp rfl rfl

theorem throttle_booked (hon : v.p.onRq = .queued) (timerStarted : Bool) :
    Booked R (v.throttle timerStarted) ∧ (v.throttle timerStarted).p.Timed := by
  obtain ⟨t, hp'⟩ := v.throttle_p timerStarted
  have hat : R.At (v.setDl fun dl => { dl with throttled := true }) v.p.standing := Rest.At.congr h rfl rfl rfl
  constructor
  · refine Rest.At.booked (s := v.p.standing) ?_ (by rw [hp']; rfl)
    unfold View.throttle
    split
    · exact hat
    · exact hat.enqueueTaskDl _ rfl (by simp [hon]) rfl false
  · rw [hp']
    exact ht.throttle t

theorem migrateOut_booked (hs : v.p.Sane) (hon : v.p.onRq = .queued) : Booked R v.migrateOut ∧ v.migrateOut.p.Timed := by
  obtain ⟨hrun, hm, hn⟩ := ht.on_queue hs (by simp [hon])
  constructor
  · refine Rest.At.booked (s := .outside) ?_ (by rw [migrateOut_p]; exact standing_between (.inl rfl))
    unfold migrateOut dequeueTask dequeueTaskDl
    cases hp : v.p.policy with
    | deadline =>
      have hat : R.At (v.setState v.p.state .migrating) .active := (h.at (standing_queued hp hon hm)).congr rfl rfl rfl
      simpa [hp] using hat.countOut hs.small (.inl rfl)
    | other => simpa [hp] using (h.at (standing_of_other hp)).outside (w := v.setState v.p.state .migrating) rfl
  · rw [migrateOut_p]
    exact of_contending hn (fun hp ha => by simp [ht.armed hp ha] at hn) (by simp [hrun])

theorem migrateIn_booked (hs : v.p.Sane) (hon : v.p.onRq = .migrating) (cpu : Nat)
    (late : Bool) : Booked R (v.migrateIn cpu late) ∧ (v.migrateIn cpu late).p.Timed := by
  obtain ⟨hrun, hm, hn⟩ := ht.on_queue hs (by simp [hon])
  obtain ⟨t, hp'⟩ := v.migrateIn_p late cpu (by simp [hrun])
  have hcpu := v.setTaskCpu_p cpu (by simp [hrun])
  -- the task is counted nowhere, and the move does not touch the runqueues
  have hout : R.At (v.setTaskCpu cpu) .outside := by
    have hrqs : (v.setTaskCpu cpu).rqs = v.rqs := by
      unfold setTaskCpu migrateTaskRq migrateTaskRqDl
      · split <;> simp [hrun]
    exact (h.at (standing_between (.inl hon))).outside hrqs
  constructor
  · cases hp : v.p.policy with
    | deadline =>
      have hjoin : R.At ((v.setTaskCpu cpu).enqueueTaskDl .onlyMigrated late) .active := by
        apply hout.enqueueTaskDl_join
        · rw [hcpu]; exact hs.small
        · rfl
        · rw [hcpu]; exact .inl hon
      have hv : v.migrateIn cpu late = ((v.setTaskCpu cpu).enqueueTaskDl .onlyMigrated late).setState
          v.p.state .queued := by
        simp [migrateIn, enqueueTask, hcpu, hp]
      refine Rest.At.booked (s := .active) ?_ (by rw [hp']; exact standing_queued hp rfl hm)
      rw [hv]
      exact hjoin.congr rfl rfl rfl
    | other =>
      have hv : v.migrateIn cpu late = (v.setTaskCpu cpu).setState v.p.state .queued := by
        simp [migrateIn, enqueueTask, hcpu, hp]
      refine Rest.At.booked (s := .outside) ?_ (by rw [hp']; exact standing_of_other hp)
      rw [hv]
      exact hout.outside rfl
  · rw [hp']
    apply Task.Timed.throttle
    exact of_contending hn (fun hp ha => by simp [ht.armed hp ha] at hn) (by simp [hrun])

theorem replenish_booked (hs : v.p.Sane) (offline : Option Nat) :
    Booked R (v.dlTaskTimer offline) ∧ (v.dlTaskTimer offline).p.Timed := by
  have hq : v.p.onRq = .queued → v.p.state = .running := fun hon => hs.running.2 (by simp [hon])
  obtain ⟨cpu, t, hp'⟩ := v.dlTaskTimer_p offline (fun hon => by simp [hq hon])
  refine ⟨?_, by rw [hp']; exact (ht.withCpu cpu).throttle t⟩
  have hstand : (v.dlTaskTimer offline).p.standing = v.p.standing := by rw [hp']; rfl
  refine Rest.At.booked (s := v.p.standing) ?_ hstand
  unfold dlTaskTimer
  split
  · exact h
  · rename_i hp
    rw [not_not] at hp
    split
    · exact h
    · rename_i hth
      split
      · exact Rest.At.congr h rfl rfl rfl
      · rename_i hon
        rw [not_not] at hon
        have hm : v.p.wakeMigrated = false := hs.not_moved (by simp [hq hon])
        have hat : R.At v .active := h.at (standing_queued hp hon hm)
        rw [standing_queued hp hon hm]
        cases offline with
        | none => exact hat.enqueueTaskDl _ rfl (by simp [hon]) rfl false
        | some later =>
          have hmig := v.dlTaskOfflineMigration_p later (by simp [hq hon])
          have hrqs : (v.dlTaskOfflineMigration later).rqs = (v.moveRqBw later).rqs := by
            unfold dlTaskOfflineMigration setTaskCpu migrateTaskRq migrateTaskRqDl
            · split <;> simp [moveTotal, moveRqBw_p, hq hon]
          have hthere : R.At (v.dlTaskOfflineMigration later) .active := by
            rw [Rest.At, hrqs, hmig]
            exact hat.moveRqBw hs.small (by simpa using hth) later
          exact hthere.enqueueTaskDl _ rfl (by simp [hmig, hon]) rfl false

theorem inactiveTimerRuns_booked (hs : v.p.Sane) (hact : v.p.dl.inactiveTimer.active = true) :
    Booked R v.inactiveTaskTimer ∧ v.inactiveTaskTimer.p.Timed := by
  have htimed : v.inactiveTaskTimer.p.Timed := by
    rw [inactiveTaskTimer_p]
    exact expire v.p
  refine ⟨?_, htimed⟩
  -- a released task may be booked with any standing
  have hrel : ∀ {w : View}, R.At w .outside → Booked R (w.release.setDl fun dl => { dl with inactiveTimer := .idle }) :=
    fun hw => hw.release.congr rfl rfl rfl
  unfold inactiveTaskTimer
  cases hp : v.p.policy with
  | other =>
    have hn : v.p.dl.nonContending = false := ht.contending (.inl hp)
    simpa [hp, hn] using hrel (h.at (standing_of_other hp))
  | deadline =>
    cases hn : v.p.dl.nonContending with
    | true =>
      obtain ⟨-, -, hoff, hm, -⟩ := ht.waiting hn
      have hat : R.At v .active := h.at (by rw [standing_off hp hoff hm, hn]; rfl)
      by_cases hd : v.p.state = .dead
      · have hout : R.At (v.subRunningBw.subRqBw.setDl fun dl => { dl with nonContending := false }) .outside :=
          (hat.leave hs.small).outside rfl
        simpa [hp, hn, hd] using hrel hout
      · have hin : R.At ((v.subRunningBw.setDl fun dl => { dl with nonContending := false }).setDl
            fun dl => { dl with inactiveTimer := .idle }) .inactive :=
          (hat.subRunningBw hs.small).congr rfl rfl rfl
        simp only [hd, ne_eq, not_true_eq_false, or_self, if_false, if_true]
        refine hin.booked ?_
        rw [standing_off] <;> simp [hp, hoff, hm]
    | false =>
      by_cases hd : v.p.state = .dead
      · have h0 : v.p.countedBw = 0 := ht.dead hd hp hact hn
        have hout : R.At v .outside := h.zero rfl h0 h0
        simpa [hp, hn, hd] using hrel hout
      · simp only [hd, ne_eq, not_true_eq_false, or_self, if_false, Bool.false_eq_true]
        exact Rest.At.congr h rfl rfl rfl

theorem inactiveTimerExpires_booked (ha : v.p.dl.inactiveTimer = .armed) :
    Booked R (v.setDl fun dl => { dl with inactiveTimer := .firing }) ∧
      (v.setDl fun dl => { dl with inactiveTimer := .firing }).p.Timed := by
  refine ⟨Rest.At.congr h rfl rfl rfl, ⟨?_, nofun, ?_⟩⟩
  · intro hn
    obtain ⟨hp, hsp, hoff, hm, -⟩ := ht.waiting hn
    exact ⟨hp, hsp, hoff, hm, rfl⟩
  · intro _ hp _ hn
    exact absurd (ht.armed hp ha) (by simpa using hn)

end

end KernelSched.Deadline
