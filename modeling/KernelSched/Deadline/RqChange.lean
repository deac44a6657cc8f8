import KernelSched.Deadline.Standing

/-!
# Changes of the policy and the parameters on the runqueues

A queued task is taken off its runqueue, changed and put back, so that it does not matter what changes. A task that is
not queued is changed where it is counted: `SchedAttr.Steady` says when that works.
-/

namespace KernelSched.Deadline

open View Task.Timed Deadline.Task DlEntity

section

variable {R : Rest} {v : View}

theorem unlessKept_rqs (attr : SchedAttr) (policy : Policy) (v : View) : (v.unlessKept attr policy).rqs = v.rqs := by
  unfold unlessKept setschedulerParams
  split
  · rfl
  · cases policy <;> rfl

theorem switchedFromDl_queued (h : R.At v .outside) (hp : v.p.policy = .other) (hon : v.p.onRq = .queued)
    (hrun : v.p.state = .running) (passed : Bool) : R.At (v.switchedFromDl passed) .outside := by
  have hrqs : (v.switchedFromDl passed).rqs = v.rqs := by
    unfold switchedFromDl taskNonContending
    simp only [hon, hp, hrun, if_true, setDl_rqs]
    repeat' split
    all_goals simp_all
  exact h.outside hrqs

def Policy.standing : Policy → Standing
  | .deadline => .active
  | .other => .outside

theorem setschedulerChange_queued {policy : Policy} {attr : SchedAttr} (passed late : Bool)
    (h : R.At v v.p.policy.standing) (hon : v.p.onRq = .queued) (hrun : v.p.state = .running)
    (hb : v.p.countedBw ≤ bwUnit) (hb' : (v.unlessKept attr policy).p.countedBw ≤ bwUnit) :
    R.At (v.setschedulerChange policy attr passed late)
      (v.setschedulerChange policy attr passed late).p.policy.standing := by
  have hu : (v.dequeueTask true false false).p = v.p := by simp [dequeueTask_p]
  have hout : R.At (v.dequeueTask true false false) .outside := by
    unfold dequeueTask dequeueTaskDl
    cases hp : v.p.policy with
    | deadline => simpa [hp] using (show R.At v .active by rwa [hp] at h).countOut hb (.inr rfl)
    | other => simpa [hp, Policy.standing] using h
  -- the task is changed while it is counted nowhere
  obtain ⟨w, hw⟩ : ∃ w, w = (v.dequeueTask true false false).unlessKept attr policy := ⟨_, rfl⟩
  have hwp : w.p = (v.unlessKept attr policy).p := by rw [hw, unlessKept_p, unlessKept_p, hu]
  have hwon : w.p.onRq = .queued ∧ w.p.state = .running := by
    rw [hwp, unlessKept_p]
    split
    · exact ⟨hon, hrun⟩
    · cases policy <;> exact ⟨hon, hrun⟩
  have hwat : R.At w .outside := hout.outside (by rw [hw, unlessKept_rqs])
  obtain ⟨t, ht⟩ := w.enqueueTask_p late .onlyRestore
  have hx : (w.enqueueTask .onlyRestore late).p = w.p.throttle t := by
    rw [ht]
    simp [EnqueueFlags.onlyRestore, EnqueueFlags.none]
  have hxat : R.At (w.enqueueTask .onlyRestore late) w.p.policy.standing := by
    unfold enqueueTask
    cases hp : w.p.policy with
    | deadline => simpa [hp, Policy.standing] using hwat.enqueueTaskDl_join (by rw [hwp]; exact hb') rfl (.inr rfl) late
    | other => simpa [hp, Policy.standing] using hwat
  have hv : v.setschedulerChange policy attr passed late =
      (w.enqueueTask .onlyRestore late).checkClassChanged v.p.policy passed := by
    rw [setschedulerChange, if_pos hon, ← hw]
  obtain ⟨e, he⟩ := (w.p.throttle t).changeClass_dl v.p.policy passed
  have hpol : (v.setschedulerChange policy attr passed late).p.policy = w.p.policy := by
    rw [hv, checkClassChanged_p, hx, he]
    rfl
  rw [hpol, hv]
  unfold checkClassChanged
  rw [show (w.enqueueTask .onlyRestore late).p.policy = w.p.policy by rw [hx]; rfl]
  cases hprev : v.p.policy <;> cases hp : w.p.policy <;> rw [hp] at hxat
  · exact hxat
  · apply switchedFromDl_queued hxat <;> rw [hx]
    · exact hp
    · exact hwon.1
    · exact hwon.2
  · have hq : (w.enqueueTask .onlyRestore late).p.onRq = .queued := by rw [hx]; exact hwon.1
    simp only [switchedToDl, hq, if_true]
    exact hxat.congr rfl rfl rfl
  · exact hxat

end

/-- The condition on a change: it does not meet a task on its way to another CPU, nor a dead one whose timer is about to
run; and a deadline task that is not queued stays special or not, and keeps its parameters only if it asks for no other
bandwidth. -/
structure SchedAttr.Steady (attr : SchedAttr) (p : Task) : Prop where
  settled : p.wakeMigrated = true → p.policy = .other ∧ attr.policyFor p = .other
  alive : p.state = .dead → p.dl.inactiveTimer ≠ .firing
  special : p.policy = .deadline → attr.policyFor p = .deadline → p.onRq ≠ .queued → attr.flags.sugov = p.dl.special
  kept : p.policy = .deadline → attr.policyFor p = .deadline → p.onRq ≠ .queued → attr.keepParams = true →
    p.dl.special = true ∨ attr.bw = p.dl.dlBw

instance (attr : SchedAttr) (p : Task) : Decidable (attr.Steady p) :=
  decidable_of_iff (_ ∧ _ ∧ _ ∧ _) ⟨fun ⟨h₁, h₂, h₃, h₄⟩ => ⟨h₁, h₂, h₃, h₄⟩, fun h =>
    ⟨h.settled, h.alive, h.special, h.kept⟩⟩

section

variable {R : Rest} {v w : View} {attr : SchedAttr} {passed : Bool} {late : Bool}

/-- The timer of a dead task is no longer active once the task has been woken, unless its handler has started. -/
theorem woken_dead {p : Task} (ht : p.Timed) (hp : p.policy = .deadline) (hf : p.dl.inactiveTimer ≠ .firing) :
    p.dl.woken.inactiveTimer.active = false := by
  have ha := ht.woken_not_armed hp
  unfold woken at ha ⊢
  split at ha
  · rw [if_pos ‹_›] at *
    show p.dl.inactiveTimer.tryToCancel.active = false
    cases h : p.dl.inactiveTimer <;> simp_all [Timer.tryToCancel, Timer.active]
  · cases h : p.dl.inactiveTimer <;> simp_all [Timer.active]

theorem schedDlOverflow_timed (ht : v.p.Timed) (hst : attr.Steady v.p)
    (hw : v.schedDlOverflow (attr.policyFor v.p) attr = some w) : w.p.Timed := by
  rcases schedDlOverflow_cases hw with ⟨rfl, -⟩ | ⟨-, -, -, rfl⟩ | ⟨-, hp, -, -, rfl⟩
  · exact ht
  · split <;> exact ht
  · rw [dlChangeUtilization_p]
    split
    · exact ht
    · refine of_contending woken_contending (fun _ => ht.woken_not_armed hp) ?_
      intro hd _ hact
      exact absurd hact (by simp [woken_dead ht hp (hst.alive hd)])

theorem enterClass_timed {p : Task} (ht : p.Timed) (hp : p.policy = .other) (hd : p.state = .dead →
    p.dl.inactiveTimer ≠ .firing) : (p.setparams .deadline attr).enterClass.Timed := by
  refine of_contending (ht.contending (.inl hp)) ?_ ?_
  · intro _
    show p.dl.inactiveTimer.tryToCancel ≠ .armed
    cases p.dl.inactiveTimer <;> decide
  · intro hdead _ hact
    have hact' : p.dl.inactiveTimer.tryToCancel.active = true := hact
    have hf := hd hdead
    cases h : p.dl.inactiveTimer <;> simp_all [Timer.tryToCancel, Timer.active]

theorem setparams_timed (hs : v.p.Sane) (ht : v.p.Timed) (hst : attr.Steady v.p) (hp : v.p.policy = .deadline)
    (hpol : attr.policyFor v.p = .deadline) (hw : v.schedDlOverflow (attr.policyFor v.p) attr = some w) :
    (w.p.setparams .deadline attr).Timed := by
  have hoff : v.p.state = .dead → v.p.onRq ≠ .queued := by
    intro hd hon
    simpa [hd] using hs.running.2 (by simp [hon])
  rcases schedDlOverflow_cases hw with ⟨rfl, hc⟩ | ⟨-, hp', -, -⟩ | ⟨-, -, -, -, rfl⟩
  · refine ⟨fun hn => ?_, fun _ ha => ht.armed hp ha, fun hd _ hact hn => ?_⟩
    · obtain ⟨-, hsp, hon, hm, hact⟩ := ht.waiting hn
      exact ⟨rfl, (hst.special hp hpol (by simp [hon])).trans hsp, hon, hm, hact⟩
    · -- the bandwidth is the same as before, and there was none
      have h0 := ht.dead hd hp hact hn
      have hsp := hst.special hp hpol (hoff hd)
      show (if attr.flags.sugov = true then 0 else attr.bw) = 0
      rw [hsp]
      rcases hc with hc | ⟨-, -, hc⟩ | ⟨hc, -⟩
      · simp [← hsp, hc]
      · rw [hc]; exact h0
      · rw [hpol] at hc; cases hc
  · rw [hp] at hp'; cases hp'
  · rw [dlChangeUtilization_p]
    split
    · rename_i hon
      refine of_contending (ht.contending (by simp [show v.p.onRq = .queued from hon])) ?_ ?_
      · intro _ ha
        have hn := ht.contending (p := v.p) (by simp [show v.p.onRq = .queued from hon])
        simp [ht.armed hp ha] at hn
      · intro hd
        exact absurd hon (hoff hd)
    · refine of_contending (p := setparams .deadline attr { v.p with dl := v.p.dl.woken })
        woken_contending (fun _ => ht.woken_not_armed hp) ?_
      intro hd _ hact
      exact absurd hact (by simp [setparams, SchedAttr.setparam, woken_dead ht hp (hst.alive hd)])

theorem setschedulerChange_timed (hs : v.p.Sane) (ht : v.p.Timed) (hst : attr.Steady v.p)
    (hdl : attr.policyFor v.p = .deadline ∨ v.p.policy = .deadline)
    (hw : v.schedDlOverflow (attr.policyFor v.p) attr = some w) :
    (w.setschedulerChange (attr.policyFor v.p) attr passed late).p.Timed := by
  have hwt := schedDlOverflow_timed ht hst hw
  obtain ⟨t, hp'⟩ := w.setschedulerChange_p passed late (attr.policyFor v.p) attr
  have hsame : w.p.policy = v.p.policy := by
    rcases schedDlOverflow_p hw with e | e <;> rw [e]
  rw [hp']
  cases hk : attr.keepParams with
  | true =>
    -- nothing is set, and the class does not change
    have hc : (w.p.throttle t).changeClass w.p.policy passed = w.p.throttle t := by
      unfold Task.changeClass
      cases hp : w.p.policy <;> simp [Task.throttle, hp]
    simp only [if_true]
    rw [hc]
    exact hwt.throttle t
  | false =>
    simp only [Bool.false_eq_true, if_false]
    cases hpol : attr.policyFor v.p with
    | other =>
      have hp : w.p.policy = .deadline := by
        rw [hsame]
        simpa [hpol] using hdl
      rw [hp]
      obtain ⟨e, he⟩ := ((w.p.setparams .other attr).throttle t).block_dl passed
      have hc : ((w.p.setparams .other attr).throttle t).changeClass .deadline passed =
          ((w.p.setparams .other attr).throttle t).leaveClass passed := rfl
      rw [hc]
      unfold leaveClass
      split
      · exact of_other (by rw [he]; rfl) rfl
      · exact of_other rfl rfl
    | deadline =>
      cases hp : w.p.policy with
      | other =>
        have hwp : w.p = v.p := by
          rcases schedDlOverflow_cases hw with ⟨rfl, -⟩ | ⟨-, -, -, rfl⟩ | ⟨-, hp', -, -, -⟩
          · rfl
          · split <;> rfl
          · rw [hsame, hp'] at hp; cases hp
        exact (enterClass_timed hwt hp (by rw [hwp]; exact hst.alive)).throttle t
      | deadline => exact (setparams_timed hs ht hst (by rw [← hsame, hp]) hpol hw).throttle t

theorem schedDlOverflow_queued {policy : Policy} (hon : v.p.onRq = .queued)
    (hw : v.schedDlOverflow policy attr = some w) :
    w.p = v.p ∧ w.rqs = v.rqs := by
  rcases schedDlOverflow_cases hw with ⟨rfl, -⟩ | ⟨-, -, -, rfl⟩ | ⟨-, -, -, -, rfl⟩
  · exact ⟨rfl, rfl⟩
  · split <;> exact ⟨rfl, rfl⟩
  · simp [dlChangeUtilization, hon]

/-- The bandwidth of a task that is not queued is exchanged. -/
theorem dlChangeUtilization_rqs {newBw : Nat} (h : R.At v (if v.p.dl.nonContending then .active else .inactive))
    (hon : v.p.onRq ≠ .queued) (hsp : v.p.dl.special = false) (hb : v.p.countedBw ≤ bwUnit) (hb' : newBw ≤ bwUnit) :
    (v.dlChangeUtilization newBw).rqs = R.book v.p.cpu newBw .inactive := by
  have hbw : v.deactivate.p.countedBw = v.p.dl.dlBw := by
    rw [deactivate_p]
    unfold woken countedBw
    split <;> simp_all [contend, special]
  have hcpu : v.deactivate.p.cpu = v.p.cpu := by rw [deactivate_p]
  have hin := h.deactivate hb
  have hout : R.At (v.deactivate.onRq (RqBw.__subRqBw v.p.dl.dlBw)) .outside := by
    have hle : v.p.dl.dlBw ≤ bwUnit := by simpa [countedBw, hsp] using hb
    rw [← hbw] at hle ⊢
    exact hin.onRq (R.subRqBw_book hle)
  have hrqs : (v.deactivate.onRq (RqBw.__subRqBw v.p.dl.dlBw)).rqs = R.book v.p.cpu newBw .outside :=
    hout.trans (R.book_outside _ _ _ _)
  rw [dlChangeUtilization, if_neg hon]
  show Function.update (v.deactivate.onRq (RqBw.__subRqBw v.p.dl.dlBw)).rqs v.deactivate.p.cpu
    (RqBw.__addRqBw newBw ((v.deactivate.onRq (RqBw.__subRqBw v.p.dl.dlBw)).rqs v.deactivate.p.cpu)) = _
  rw [hrqs, hcpu]
  exact R.addRqBw_book hb'

section

variable (h : Booked R v) (hm : v.p.wakeMigrated = false)

include h hm

/-- A deadline task that is not queued changes its parameters. -/
theorem change_params_booked (hs : v.p.Sane) (hst : attr.Steady v.p) (hoff : v.p.onRq = .off)
    (hp : v.p.policy = .deadline)
    (hpol : attr.policyFor v.p = .deadline) (hbw : attr.flags.sugov = false → attr.bw ≤ bwUnit)
    (hw : v.schedDlOverflow (attr.policyFor v.p) attr = some w) :
    Booked R (w.setschedulerChange (attr.policyFor v.p) attr passed late) := by
  have hon : v.p.onRq ≠ .queued := by simp [hoff]
  have hsp := hst.special hp hpol hon
  -- the class does not change
  have hv : w.setschedulerChange (attr.policyFor v.p) attr passed late = w.unlessKept attr .deadline := by
    have hwon : w.p.onRq ≠ .queued ∧ w.p.policy = .deadline := by
      rcases schedDlOverflow_p hw with e | e <;> rw [e] <;> exact ⟨hon, hp⟩
    have hx : (w.unlessKept attr .deadline).p.policy = .deadline := by
      rw [unlessKept_p]
      split
      · exact hwon.2
      · rfl
    rw [setschedulerChange, if_neg hwon.1, hpol, hwon.2, checkClassChanged_same _ _ hx]
  rw [hv]
  rcases schedDlOverflow_cases hw with ⟨rfl, hc⟩ | ⟨-, hp', -, -⟩ | ⟨-, -, hsug, hne, rfl⟩
  · unfold unlessKept
    split
    · exact h
    · -- the bandwidth that is counted stays the same
      have hbw : (w.setschedulerParams .deadline attr).p.countedBw = w.p.countedBw := by
        show (if attr.flags.sugov = true then 0 else attr.bw) = if w.p.dl.special = true then 0 else w.p.dl.dlBw
        rw [hsp]
        rcases hc with hc | ⟨-, -, hc⟩ | ⟨hc, -⟩
        · simp [← hsp, hc]
        · rw [hc]
        · rw [hpol] at hc; cases hc
      refine Rest.At.booked (Rest.At.congr h rfl rfl hbw) ?_
      simp [standing, setschedulerParams, between, SchedAttr.setparam, hp, hoff, hm]
  · rw [hp] at hp'; cases hp'
  · have hspecial : v.p.dl.special = false := by rw [← hsp, hsug]
    have hk : attr.keepParams = false := by
      by_contra hk
      rcases hst.kept hp hpol hon (by simpa using hk) with hk | hk
      · simp [hspecial] at hk
      · exact hne hk
    have hrqs := dlChangeUtilization_rqs (v := (v.dlSub v.p.dl.dlBw).dlAdd attr.bw) (h.at (standing_off hp hoff hm)) hon
      hspecial hs.small (hbw hsug)
    have hpw := ((v.dlSub v.p.dl.dlBw).dlAdd attr.bw).dlChangeUtilization_p attr.bw
    rw [if_neg (show ((v.dlSub v.p.dl.dlBw).dlAdd attr.bw).p.onRq ≠ .queued from hon)] at hpw
    have hat : R.At ((((v.dlSub v.p.dl.dlBw).dlAdd attr.bw).dlChangeUtilization attr.bw).unlessKept attr .deadline)
        .inactive := by
      rw [Rest.At, unlessKept_rqs, hrqs, unlessKept_p, hk, hpw]
      simp [setparams, SchedAttr.setparam, countedBw, special, hsug]
    refine hat.booked ?_
    rw [unlessKept_p, hk, hpw]
    simp [standing, between, setparams, SchedAttr.setparam, hoff, hm, woken_contending]

theorem change_leave_booked (hs : v.p.Sane) (hoff : v.p.onRq = .off) (hp : v.p.policy = .deadline) :
    Booked R (v.setschedulerChange .other attr passed late) := by
  have hon : v.p.onRq ≠ .queued := by simp [hoff]
  rw [setschedulerChange, if_neg hon]
  unfold unlessKept
  split
  · rw [checkClassChanged_same _ _ rfl]
    exact h
  · have hat : R.At (v.setschedulerParams .other attr) (if v.p.dl.nonContending then .active else .inactive) :=
      (h.at (standing_off hp hoff hm)).congr rfl rfl rfl
    have hin : R.At (if (v.setschedulerParams .other attr).p.dl.nonContending = true then
        (v.setschedulerParams .other attr).subRunningBw else v.setschedulerParams .other attr) .inactive := by
      split
      · rw [if_pos ‹_›] at hat
        exact hat.subRunningBw hs.small
      · rw [if_neg ‹_›] at hat
        exact hat
    have hout := hin.subRqBw (by
      have hb : (v.setschedulerParams .other attr).p.countedBw ≤ bwUnit := hs.small
      split
      · rw [subRunningBw_p]; exact hb
      · exact hb)
    rw [hp, checkClassChanged_leave _ _ rfl]
    refine Rest.At.booked (s := .outside) ?_ ?_
    · rw [switchedFromDl, if_neg (show (v.setschedulerParams .other attr).p.onRq ≠ .queued from hon)]
      exact hout.outside rfl
    · rw [switchedFromDl_p]
      apply standing_of_other
      obtain ⟨e, he⟩ := (v.setschedulerParams .other attr).p.changeClass_dl .deadline passed
      exact congrArg policy he

/-- A task that is not queued enters the class. -/
theorem change_enter_booked (ht : v.p.Timed) (hoff : v.p.onRq = .off) (hp : v.p.policy = .other) (hwp : w.p = v.p)
    (hwr : w.rqs = v.rqs) (hb : (v.p.setparams .deadline attr).countedBw ≤ bwUnit) :
    Booked R (w.setschedulerChange .deadline attr passed late) := by
  have hon : w.p.onRq ≠ .queued := by simp [hwp, hoff]
  have hout : R.At w .outside := (h.at (standing_of_other hp)).outside hwr
  rw [setschedulerChange, if_neg hon]
  unfold unlessKept
  split
  · rw [checkClassChanged_same _ _ rfl]
    exact hout.booked (by rw [hwp]; exact standing_of_other hp)
  · have hx : (w.setschedulerParams .deadline attr).p = v.p.setparams .deadline attr := by rw [← hwp]; rfl
    have hin : R.At (w.setschedulerParams .deadline attr).cancelTimer.addRqBw .inactive := by
      refine Rest.At.addRqBw ?_ (hout.outside rfl)
      show (w.setschedulerParams .deadline attr).p.countedBw ≤ bwUnit
      rw [hx]
      exact hb
    rw [hwp, hp, checkClassChanged_enter _ _ rfl]
    refine Rest.At.booked (s := .inactive) ?_ ?_
    · rw [switchedToDl, if_neg (show (w.setschedulerParams .deadline attr).p.onRq ≠ .queued from hon)]
      exact hin
    · rw [switchedToDl_p, hx, standing_off (p := (v.p.setparams .deadline attr).enterClass) rfl hoff hm]
      show (if v.p.dl.nonContending = true then Standing.active else .inactive) = .inactive
      rw [ht.contending (.inl hp)]
      rfl

/-- A queued task is changed: it is taken off, changed and queued again. -/
theorem change_queued_booked (hs : v.p.Sane) (hsane : (v.p.setparams (attr.policyFor v.p) attr).Sane)
    (hon : v.p.onRq = .queued) (hu : v.schedDlOverflow (attr.policyFor v.p) attr = some u) :
    Booked R (u.setschedulerChange (attr.policyFor v.p) attr passed late) := by
  have hrun : v.p.state = .running := hs.running.2 (by simp [hon])
  obtain ⟨hup, hur⟩ := schedDlOverflow_queued hon hu
  have hat : R.At u u.p.policy.standing := by
    refine Rest.At.congr ?_ hur (by rw [hup]) (by rw [hup])
    rw [hup]
    refine h.at ?_
    cases hp : v.p.policy with
    | deadline => exact standing_queued hp hon hm
    | other => exact standing_of_other hp
  have hb' : (u.unlessKept attr (attr.policyFor v.p)).p.countedBw ≤ bwUnit := by
    rw [unlessKept_p, hup]
    split
    · exact hs.small
    · exact hsane.small
  have hfin := setschedulerChange_queued passed late hat (by rw [hup]; exact hon)
    (by rw [hup]; exact hrun) (by rw [hup]; exact hs.small) hb'
  refine hfin.booked ?_
  -- the task is queued as before
  obtain ⟨t, hp'⟩ := u.setschedulerChange_p passed late (attr.policyFor v.p) attr
  obtain ⟨e, he⟩ := (((if attr.keepParams = true then u.p else u.p.setparams (attr.policyFor v.p) attr).throttle
    t)).changeClass_dl u.p.policy passed
  have hshape : (u.setschedulerChange (attr.policyFor v.p) attr passed late).p.onRq = .queued ∧
      (u.setschedulerChange (attr.policyFor v.p) attr passed late).p.wakeMigrated = false := by
    rw [hp', he, hup]
    split
    · exact ⟨hon, hm⟩
    · cases attr.policyFor v.p <;> exact ⟨hon, hm⟩
  cases hp : (u.setschedulerChange (attr.policyFor v.p) attr passed late).p.policy with
  | deadline => exact standing_queued hp hshape.1 hshape.2
  | other => exact standing_of_other hp

end

theorem setscheduler_booked {range : PeriodRange} (hs : v.p.Sane) (ht : v.p.Timed) (h : Booked R v)
    (hmig : v.p.onRq ≠ .migrating) (hst : attr.Steady v.p) (hw : v.schedSetscheduler range attr passed late = .ok w) :
    Booked R w ∧ w.p.Timed := by
  rcases schedSetscheduler_cases hw with rfl | ⟨hc, hdl, u, hu, rfl⟩
  · exact ⟨h, ht⟩
  refine ⟨?_, setschedulerChange_timed hs ht hst hdl hu⟩
  have hm : v.p.wakeMigrated = false := by
    by_contra hm
    obtain ⟨hp, hpol⟩ := hst.settled (by simpa using hm)
    simp [hp, hpol] at hdl
  have hsane : (v.p.setparams (attr.policyFor v.p) attr).Sane := hs.setparams hc
  by_cases hon : v.p.onRq = .queued
  · exact change_queued_booked h hm hs hsane hon hu
  · have hoff : v.p.onRq = .off := by
      cases hq : v.p.onRq with
      | off => rfl
      | queued => exact absurd hq hon
      | migrating => exact absurd hq hmig
    cases hp : v.p.policy with
    | deadline =>
      cases hpol : attr.policyFor v.p with
      | deadline =>
        rw [← hpol]
        refine change_params_booked h hm hs hst hoff hp hpol ?_ hu
        intro hsug
        exact (SchedAttr.checked (hc hpol) hsug).2
      | other =>
        rcases schedDlOverflow_cases hu with ⟨rfl, -⟩ | ⟨hd, -⟩ | ⟨hd, -⟩
        · exact change_leave_booked h hm hs hoff hp
        · rw [hpol] at hd; cases hd
        · rw [hpol] at hd; cases hd
    | other =>
      have hpol : attr.policyFor v.p = .deadline := by simpa [hp] using hdl
      rw [hpol] at hsane hu ⊢
      rcases schedDlOverflow_cases hu with ⟨rfl, -⟩ | ⟨-, -, -, rfl⟩ | ⟨-, hd, -⟩
      · exact change_enter_booked h hm ht hoff hp rfl rfl hsane.small
      · exact change_enter_booked h hm ht hoff hp (by split <;> rfl) (by split <;> rfl) hsane.small
      · rw [hp] at hd; cases hd

end

end KernelSched.Deadline
