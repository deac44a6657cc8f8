import KernelSched.Deadline.TaskSteps

/-!
# The standing of a task on its runqueue

On the runqueue of its CPU a deadline task is counted nowhere, in `this_bw` only, or in `running_bw` as well: the three
states `outside`, `inactive` and `active` of the diagram above `task_non_contending`. The runqueues hold what the rest
counts and the one task with its standing (`Rest.book`). The four functions on the words of a runqueue move the task one
state on or back and then no check fails (`Rest.At.addRqBw` and the like); the functions of the class are put together
from these moves.
-/

namespace KernelSched.Deadline

open Function Deadline.Task

/-! ## The words of a runqueue -/

namespace RqBw

variable {r t b : Nat}

theorem addRqBw_eq (h : t + b < 2 ^ 64) : __addRqBw b ⟨r, t, false⟩ = ⟨r, t + b, false⟩ := by
  have hm : (t + b) % 2 ^ 64 = t + b := Nat.mod_eq_of_lt h
  simp only [__addRqBw, hm]
  simp

theorem subRqBw_eq (h : t + b < 2 ^ 64) (hr : r ≤ t) : __subRqBw b ⟨r, t + b, false⟩ = ⟨r, t, false⟩ := by
  have hm : (t + b + (2 ^ 64 - b)) % 2 ^ 64 = t := by omega
  simp only [__subRqBw, hm]
  simp [hr]

theorem addRunningBw_eq (h : t < 2 ^ 64) (hr : r + b ≤ t) : __addRunningBw b ⟨r, t, false⟩ = ⟨r + b, t, false⟩ := by
  have hm : (r + b) % 2 ^ 64 = r + b := Nat.mod_eq_of_lt (by omega)
  simp only [__addRunningBw, hm]
  simp [hr]

theorem subRunningBw_eq (h : r + b < 2 ^ 64) : __subRunningBw b ⟨r + b, t, false⟩ = ⟨r, t, false⟩ := by
  have hm : (r + b + (2 ^ 64 - b)) % 2 ^ 64 = r := by omega
  simp only [__subRunningBw, hm]
  simp

end RqBw

/-! ## One task against the rest -/

/-- A task on its runqueue, as the diagram above `task_non_contending` has it: not counted, counted in `this_bw` only, or
counted in `running_bw` as well. -/
inductive Standing where
  | outside
  | inactive
  | active
  deriving Repr, DecidableEq

namespace Standing

def running (bw : Nat) : Standing → Nat
  | active => bw
  | _ => 0

def this (bw : Nat) : Standing → Nat
  | outside => 0
  | _ => bw

end Standing

/-- What the runqueues count of all other tasks. -/
structure Rest where
  running : Nat → Nat
  this : Nat → Nat
  le : ∀ c, running c ≤ this c
  small : ∀ c, this c + bwUnit < 2 ^ 64

/-- The runqueues with one task of bandwidth `bw` on `cpu`. -/
def Rest.book (R : Rest) (cpu bw : Nat) (st : Standing) (c : Nat) : RqBw :=
  if c = cpu then { runningBw := R.running c + st.running bw, thisBw := R.this c + st.this bw, warned := false }
  else { runningBw := R.running c, thisBw := R.this c, warned := false }

namespace Rest

variable (R : Rest) {cpu bw : Nat}

theorem book_outside (cpu cpu' bw bw' : Nat) : R.book cpu bw .outside = R.book cpu' bw' .outside := by
  funext c
  simp [book, Standing.running, Standing.this]

theorem book_zero (cpu cpu' : Nat) (st st' : Standing) : R.book cpu 0 st = R.book cpu' 0 st' := by
  funext c
  cases st <;> cases st' <;> simp [book, Standing.running, Standing.this]

theorem update_book {st st' : Standing} {f : RqBw → RqBw}
    (h : f { runningBw := R.running cpu + st.running bw, thisBw := R.this cpu + st.this bw, warned := false } =
      { runningBw := R.running cpu + st'.running bw, thisBw := R.this cpu + st'.this bw, warned := false }) :
    update (R.book cpu bw st) cpu (f (R.book cpu bw st cpu)) = R.book cpu bw st' := by
  funext c
  by_cases hc : c = cpu
  · subst hc
    simp [book, h]
  · simp [book, hc]

theorem addRqBw_book (hb : bw ≤ bwUnit) : update (R.book cpu bw .outside) cpu
    ((R.book cpu bw .outside cpu).__addRqBw bw) = R.book cpu bw .inactive := by
  have := R.small cpu
  exact R.update_book (RqBw.addRqBw_eq (r := R.running cpu) (t := R.this cpu) (by omega))

theorem subRqBw_book (hb : bw ≤ bwUnit) : update (R.book cpu bw .inactive) cpu
    ((R.book cpu bw .inactive cpu).__subRqBw bw) = R.book cpu bw .outside := by
  have := R.small cpu
  have := R.le cpu
  exact R.update_book (RqBw.subRqBw_eq (r := R.running cpu) (t := R.this cpu) (by omega) (by omega))

theorem addRunningBw_book (hb : bw ≤ bwUnit) : update (R.book cpu bw .inactive) cpu
    ((R.book cpu bw .inactive cpu).__addRunningBw bw) = R.book cpu bw .active := by
  have := R.small cpu
  have := R.le cpu
  exact R.update_book (RqBw.addRunningBw_eq (r := R.running cpu) (t := R.this cpu + bw) (by omega) (by omega))

theorem subRunningBw_book (hb : bw ≤ bwUnit) : update (R.book cpu bw .active) cpu
    ((R.book cpu bw .active cpu).__subRunningBw bw) = R.book cpu bw .inactive := by
  have := R.small cpu
  have := R.le cpu
  exact R.update_book (RqBw.subRunningBw_eq (r := R.running cpu) (t := R.this cpu + bw) (by omega))

end Rest

/-- The runqueues count the rest, and the task with standing `st`. -/
def Rest.At (R : Rest) (v : View) (st : Standing) : Prop := v.rqs = R.book v.p.cpu v.p.countedBw st

namespace Rest.At

variable {R : Rest} {v w : View} {st st' : Standing}

theorem congr (h : R.At v st) (hr : w.rqs = v.rqs) (hc : w.p.cpu = v.p.cpu) (hb : w.p.countedBw = v.p.countedBw) :
    R.At w st := by
  rw [At, hr, hc, hb]
  exact h

theorem outside (h : R.At v .outside) (hr : w.rqs = v.rqs) : R.At w .outside := by
  rw [At, hr, h]
  exact R.book_outside _ _ _ _

theorem zero (h : R.At v st) (hr : w.rqs = v.rqs) (hv : v.p.countedBw = 0) (hw : w.p.countedBw = 0) : R.At w st' := by
  rw [At, hr, h, hv, hw]
  exact R.book_zero _ _ _ _

theorem onRq (h : R.At v st) {f : RqBw → RqBw}
    (hf : update (R.book v.p.cpu v.p.countedBw st) v.p.cpu (f (R.book v.p.cpu v.p.countedBw st v.p.cpu)) =
      R.book v.p.cpu v.p.countedBw st') : R.At (v.onRq f) st' := by
  show update v.rqs v.p.cpu (f (v.rqs v.p.cpu)) = _
  rw [show v.rqs = R.book v.p.cpu v.p.countedBw st from h]
  exact hf

section

variable (hb : v.p.countedBw ≤ bwUnit)

include hb

/-- One of the four functions moves the task, unless it is special. -/
theorem move (h : R.At v st) {f : Nat → RqBw → RqBw}
    (hf : ∀ {bw}, bw ≤ bwUnit → update (R.book v.p.cpu bw st) v.p.cpu (f bw (R.book v.p.cpu bw st v.p.cpu)) =
      R.book v.p.cpu bw st') : R.At (if v.p.dl.special then v else v.onRq (f v.p.dl.dlBw)) st' := by
  split
  · have h0 : v.p.countedBw = 0 := by simp [countedBw, *]
    exact h.zero rfl h0 h0
  · have h0 : v.p.dl.dlBw = v.p.countedBw := by simp [countedBw, *]
    rw [h0]
    exact h.onRq (hf hb)

theorem addRqBw (h : R.At v .outside) : R.At v.addRqBw .inactive :=
  h.move hb R.addRqBw_book

theorem subRqBw (h : R.At v .inactive) : R.At v.subRqBw .outside :=
  h.move hb R.subRqBw_book

theorem addRunningBw (h : R.At v .inactive) : R.At v.addRunningBw .active :=
  h.move hb R.addRunningBw_book

theorem subRunningBw (h : R.At v .active) : R.At v.subRunningBw .inactive :=
  h.move hb R.subRunningBw_book

theorem join (h : R.At v .outside) : R.At v.addRqBw.addRunningBw .active :=
  (h.addRqBw hb).addRunningBw (by simpa using hb)

theorem leave (h : R.At v .active) : R.At v.subRunningBw.subRqBw .outside :=
  (h.subRunningBw hb).subRqBw (by simpa using hb)

end

theorem release (h : R.At v .outside) : R.At v.release st := by
  have h' : R.At v.release .outside := h.outside rfl
  exact h'.zero rfl rfl rfl

end Rest.At

/-! ## The standing of a task -/

/-- A task between two runqueues is counted on neither of them. -/
def Task.between (p : Task) : Bool := p.onRq = .migrating || p.wakeMigrated

/-- A deadline task is active on its runqueue while it contends or its 0-lag time has not passed. -/
def Task.standing (p : Task) : Standing :=
  if p.policy ≠ .deadline ∨ p.between = true then .outside
  else if p.onRq = .queued ∨ p.dl.nonContending = true then .active
  else .inactive

/-- What the actions that meet the condition keep of the flag and the timer: a task that does not contend is off the
runqueue and its timer will fire, an armed timer belongs to such a task, and a dead task that the timer will find
contending has no bandwidth left. -/
structure Task.Timed (p : Task) : Prop where
  waiting : p.dl.nonContending = true → p.policy = .deadline ∧ p.dl.special = false ∧ p.onRq = .off ∧
    p.wakeMigrated = false ∧ p.dl.inactiveTimer.active = true
  armed : p.policy = .deadline → p.dl.inactiveTimer = .armed → p.dl.nonContending = true
  dead : p.state = .dead → p.policy = .deadline → p.dl.inactiveTimer.active = true → p.dl.nonContending = false →
    p.countedBw = 0

def Booked (R : Rest) (v : View) : Prop := R.At v v.p.standing

theorem Booked.at {R : Rest} {v : View} {st : Standing} (h : Booked R v) (hst : v.p.standing = st) : R.At v st :=
  hst ▸ h

theorem Rest.At.booked {R : Rest} {v : View} {s : Standing} (h : R.At v s) (hst : v.p.standing = s) : Booked R v := by
  rw [Booked, hst]
  exact h

variable {p : Task}

theorem standing_of_other (hp : p.policy = .other) : p.standing = .outside := by
  simp [standing, hp]

theorem standing_off (hp : p.policy = .deadline) (hoff : p.onRq = .off) (hm : p.wakeMigrated = false) :
    p.standing = if p.dl.nonContending then .active else .inactive := by
  simp [standing, between, hp, hoff, hm]

theorem standing_queued (hp : p.policy = .deadline) (hon : p.onRq = .queued) (hm : p.wakeMigrated = false) :
    p.standing = .active := by
  simp [standing, between, hp, hon, hm]

theorem standing_between (h : p.onRq = .migrating ∨ p.wakeMigrated = true) : p.standing = .outside := by
  have hb : p.between = true := by simpa [between] using h
  simp [standing, hb]

/-! ## The functions of the class -/

namespace Rest.At

variable {R : Rest} {v : View} {st : Standing} {flags : EnqueueFlags}

theorem taskNonContending (h : R.At v .active) (hb : v.p.countedBw ≤ bwUnit) (hd : v.p.policy = .deadline)
    (hr : v.p.dl.special = false → v.p.dl.dlRuntime ≠ 0) (hoff : v.p.onRq = .off) (hm : v.p.wakeMigrated = false)
    (hn : v.p.dl.nonContending = false) (passed : Bool) :
    R.At (v.taskNonContending passed) (v.taskNonContending passed).p.standing := by
  rw [View.taskNonContending_p]
  unfold View.taskNonContending block
  by_cases hs : v.p.dl.special = true
  · have h0 : v.p.countedBw = 0 := by simp [countedBw, hs]
    simp only [hs, if_true, or_true, ite_self]
    exact h.zero rfl h0 h0
  · have hr' : v.p.dl.dlRuntime ≠ 0 := hr (by simpa using hs)
    simp only [hs, hr', if_false, or_self, Bool.false_eq_true]
    by_cases ht : (passed || v.p.dl.inactiveTimer.active) = true
    · simp only [ht, if_true, hd, ne_eq, not_true_eq_false, false_or]
      by_cases hdead : v.p.state = .dead
      · simp only [hdead, if_true]
        exact (h.leave hb).release
      · simp only [hdead, if_false]
        have hst : v.p.standing = .inactive := by simp [standing, between, hd, hoff, hm, hn]
        rw [hst]
        exact h.subRunningBw hb
    · simp only [ht, Bool.false_eq_true, if_false]
      have hst : standing { v.p with dl := { v.p.dl with nonContending := true, inactiveTimer := .armed } } =
          .active := by
        simp [standing, between, hd, hoff, hm]
      rw [hst]
      exact h.congr rfl rfl rfl

/-- A task that wakes up is counted on its runqueue, unless it has been moved. -/
theorem taskContending {migrated : Bool} (hb : v.p.countedBw ≤ bwUnit)
    (hr : v.p.dl.special = false → v.p.dl.dlRuntime ≠ 0) (hm : migrated = true → v.p.dl.nonContending = false)
    (h : R.At v (if migrated then .outside else if v.p.dl.nonContending then .active else .inactive)) :
    R.At (v.taskContending migrated) .active := by
  unfold View.taskContending
  by_cases hr0 : v.p.dl.dlRuntime = 0
  · have h0 : v.p.countedBw = 0 := by
      have hs : v.p.dl.special = true := by
        by_contra hs
        exact hr (by simpa using hs) hr0
      simp [countedBw, hs]
    rw [if_pos hr0]
    exact h.zero rfl h0 h0
  · rw [if_neg hr0]
    cases migrated with
    | true =>
      simp only [hm rfl, if_true, Bool.false_eq_true, if_false] at h ⊢
      exact h.join hb
    | false =>
      cases hn : v.p.dl.nonContending with
      | true =>
        simp only [hn, Bool.false_eq_true, if_false, if_true] at h ⊢
        exact h.congr rfl rfl rfl
      | false =>
        simp only [hn, Bool.false_eq_true, if_false] at h ⊢
        exact h.addRunningBw hb

theorem checkConstrained (h : R.At v st) (late : Bool) : R.At (v.checkConstrained late) st := by
  unfold View.checkConstrained
  split
  · exact h.congr rfl rfl rfl
  · exact h

theorem enqueueUnlessThrottled_wake (hf : flags.wakeup = true) (hb : v.p.countedBw ≤ bwUnit)
    (hr : v.p.dl.special = false → v.p.dl.dlRuntime ≠ 0) (hm : flags.migrated = true → v.p.dl.nonContending = false)
    (h : R.At v (if flags.migrated then .outside else if v.p.dl.nonContending then .active else .inactive)) :
    R.At (v.enqueueUnlessThrottled flags) .active := by
  unfold View.enqueueUnlessThrottled View.enqueueDlEntity
  simp only [hf, if_true, ite_self]
  exact taskContending hb hr hm h

theorem enqueueUnlessThrottled (h : R.At v st) (hf : flags.wakeup = false) :
    R.At (v.enqueueUnlessThrottled flags) st := by
  unfold View.enqueueUnlessThrottled View.enqueueDlEntity
  simp only [hf, Bool.false_eq_true, if_false]
  split
  · exact h
  · split
    · exact h.congr rfl rfl rfl
    · exact h

theorem countIn (h : R.At v .outside) (hb : v.p.countedBw ≤ bwUnit) {restore : Bool}
    (hc : v.p.onRq = .migrating ∨ restore = true) : R.At (v.countIn restore) .active := by
  rw [View.countIn, if_pos hc]
  exact h.join hb

theorem countOut (h : R.At v .active) (hb : v.p.countedBw ≤ bwUnit) {save : Bool}
    (hc : v.p.onRq = .migrating ∨ save = true) : R.At (v.countOut save) .outside := by
  rw [View.countOut, if_pos hc]
  exact h.leave hb

theorem enqueueTaskDl_join (h : R.At v .outside) (hb : v.p.countedBw ≤ bwUnit)
    (hf : flags.wakeup = false) (hc : v.p.onRq = .migrating ∨ flags.restore = true) (late : Bool) :
    R.At (v.enqueueTaskDl flags late) .active := by
  obtain ⟨t, ht⟩ := v.checkConstrained_p late
  apply Rest.At.enqueueUnlessThrottled _ hf
  apply Rest.At.countIn (h.checkConstrained late)
  · rw [ht]; exact hb
  · rw [ht]; exact hc

theorem enqueueTaskDl (h : R.At v st) (flags : EnqueueFlags) (hf : flags.wakeup = false) (hm : v.p.onRq ≠ .migrating)
    (hs : flags.restore = false) (late : Bool) : R.At (v.enqueueTaskDl flags late) st := by
  obtain ⟨t, ht⟩ := v.checkConstrained_p late
  apply Rest.At.enqueueUnlessThrottled _ hf
  have hc : ¬((v.checkConstrained late).p.onRq = .migrating ∨ flags.restore = true) := by
    rw [ht, hs]
    simpa [throttle] using hm
  rw [View.countIn, if_neg hc]
  exact h.checkConstrained late

theorem enqueueTaskDl_wake {migrated : Bool} (hb : v.p.countedBw ≤ bwUnit)
    (hr : v.p.dl.special = false → v.p.dl.dlRuntime ≠ 0) (hm : migrated = true → v.p.dl.nonContending = false)
    (hon : v.p.onRq = .off)
    (h : R.At v (if migrated then .outside else if v.p.dl.nonContending then .active else .inactive)) (late : Bool) :
    R.At (v.enqueueTaskDl (.wake migrated) late) .active := by
  obtain ⟨t, ht⟩ := v.checkConstrained_p late
  have hc : ¬((v.checkConstrained late).p.onRq = .migrating ∨ (EnqueueFlags.wake migrated).restore = true) := by
    rw [ht]
    simp [throttle, hon, EnqueueFlags.wake, EnqueueFlags.none]
  unfold View.enqueueTaskDl
  rw [View.countIn, if_neg hc]
  apply enqueueUnlessThrottled_wake rfl
  · rw [ht]; exact hb
  · rw [ht]; exact hr
  · rw [ht]; exact hm
  · rw [ht]; exact h.checkConstrained late

theorem deactivate (h : R.At v (if v.p.dl.nonContending then .active else .inactive)) (hb : v.p.countedBw ≤ bwUnit) :
    R.At v.deactivate .inactive := by
  unfold View.deactivate
  cases hn : v.p.dl.nonContending with
  | true =>
    rw [hn] at h
    exact Rest.At.congr (Rest.At.subRunningBw hb h) rfl (by simp)
      (by simp [countedBw, DlEntity.contend, DlEntity.special])
  | false =>
    rw [hn] at h
    exact h

theorem moveRqBw (h : R.At v .active) (hb : v.p.countedBw ≤ bwUnit) (ht : v.p.dl.throttled = true) (later : Nat) :
    (v.moveRqBw later).rqs = R.book later v.p.countedBw .active := by
  have hout : R.At (v.subRunningBw.subRqBw.__setTaskCpu later) .outside := (h.leave hb).outside rfl
  have hbw : (v.subRunningBw.subRqBw.__setTaskCpu later).p.countedBw = v.p.countedBw := by simp [countedBw]
  have hjoin := hout.join (by rw [hbw]; exact hb)
  rw [At, View.addRunningBw_p, View.addRqBw_p, hbw] at hjoin
  unfold View.moveRqBw
  rw [ht, Bool.or_true, if_pos rfl]
  exact hjoin

end Rest.At

/-! ## The flag and the timer -/

namespace Task.Timed

variable {p : Task}

theorem of_contending (hn : p.dl.nonContending = false) (ha : p.policy = .deadline → p.dl.inactiveTimer ≠ .armed)
    (hd : p.state = .dead → p.policy = .deadline → p.dl.inactiveTimer.active = true → p.countedBw = 0) : p.Timed where
  waiting := by simp [hn]
  armed := fun hp ht => absurd ht (ha hp)
  dead := fun hst hp ht _ => hd hst hp ht

theorem of_other (hp : p.policy = .other) (hn : p.dl.nonContending = false) : p.Timed :=
  of_contending hn (by simp [hp]) (by simp [hp])

theorem contending (h : p.Timed) (ho : p.policy = .other ∨ p.onRq ≠ .off ∨ p.wakeMigrated = true) :
    p.dl.nonContending = false := by
  by_contra hn
  obtain ⟨hp, -, hoff, hm, -⟩ := h.waiting (by simpa using hn)
  rcases ho with ho | ho | ho
  · rw [hp] at ho; cases ho
  · exact ho hoff
  · rw [hm] at ho; cases ho

/-- A task on a runqueue, or between two of them, runs and contends. -/
theorem on_queue (h : p.Timed) (hs : p.Sane) (hon : p.onRq ≠ .off) :
    p.state = .running ∧ p.wakeMigrated = false ∧ p.dl.nonContending = false := by
  have hrun := hs.running.2 hon
  exact ⟨hrun, hs.not_moved (by simp [hrun]), h.contending (.inr (.inl hon))⟩

theorem throttle (h : p.Timed) (t : Bool) : (p.throttle t).Timed := ⟨h.waiting, h.armed, h.dead⟩

theorem withCpu (h : p.Timed) (cpu : Nat) : { p with cpu := cpu }.Timed := ⟨h.waiting, h.armed, h.dead⟩

theorem woken_contending : p.dl.woken.nonContending = false := by
  unfold DlEntity.woken
  split
  · rfl
  · simpa using ‹¬p.dl.nonContending = true›

theorem woken_not_armed (h : p.Timed) (hp : p.policy = .deadline) : p.dl.woken.inactiveTimer ≠ .armed := by
  unfold DlEntity.woken
  split
  · show p.dl.inactiveTimer.tryToCancel ≠ .armed
    cases p.dl.inactiveTimer <;> decide
  · intro ha
    exact absurd (h.armed hp ha) ‹_›

theorem block (hp : p.policy = .deadline) (hr : p.dl.special = false → p.dl.dlRuntime ≠ 0) (hoff : p.onRq = .off)
    (hm : p.wakeMigrated = false) (hn : p.dl.nonContending = false) (ha : p.dl.inactiveTimer ≠ .armed) (passed : Bool) :
    (p.block passed).Timed := by
  unfold Task.block
  split
  · rename_i h
    have hs : p.dl.special = true := by
      rcases h with h | h
      · by_contra hs
        exact hr (by simpa using hs) h
      · exact h
    exact of_contending hn (fun _ => ha) (fun _ _ _ => by simp [countedBw, hs])
  · rename_i h
    split
    · split
      · exact of_contending rfl (fun _ => ha) (fun _ _ _ => rfl)
      · rename_i hd
        exact of_contending hn (fun _ => ha) (fun hdead _ _ => absurd (.inr hdead) hd)
    · refine ⟨fun _ => ⟨hp, ?_, hoff, hm, rfl⟩, fun _ _ => rfl, by simp⟩
      rw [not_or] at h
      exact Bool.eq_false_iff.2 h.2

theorem expire (p : Task) : p.expire.Timed := by
  have hn : p.expire.dl.nonContending = false := by
    unfold Task.expire
    split <;> rfl
  exact of_contending hn (fun _ => by simp [Task.expire]) (fun _ _ ht => by simp [Task.expire, Timer.active] at ht)

end Task.Timed

end KernelSched.Deadline
