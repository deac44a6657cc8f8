import KernelSched.Group.Settled

/-!
# Entities that enter and leave

`enqueue_entity` leaves the tasks of the entity missing at its runqueue, `dequeue_entity` leaves them there as too many;
the loops then add them (`linkEntity_spec`, `dequeueEntity_spec`). `Moved` says what else the two do.
-/

namespace KernelSched.Group

open Rooted Entity

namespace Rq

/-- `r` is `s` with the entity `e` on, or off, the runqueue `c`, which has `k` more entities; weights may differ. -/
structure Moved (c : Nat) (k : Int) (e : Entity) (on : Bool) (s r : Rq) : Prop where
  nr : ∀ x, (r.cfs x).counts.nrRunning = (s.cfs x).counts.nrRunning + if x = c then k else 0
  h : ∀ x, (r.cfs x).counts.hNrRunning = (s.cfs x).counts.hNrRunning
  idleH : ∀ x, (r.cfs x).counts.idleHNrRunning = (s.cfs x).counts.idleHNrRunning
  idle : ∀ x, (r.cfs x).idle = (s.cfs x).idle
  throttled : ∀ x, (r.cfs x).throttled = (s.cfs x).throttled
  throttleCount : ∀ x, (r.cfs x).throttleCount = (s.cfs x).throttleCount
  seOnRq : ∀ x, (r.cfs x).seOnRq = if e = .group x then on else (s.cfs x).seOnRq
  nrRunning : r.nrRunning = s.nrRunning
  leaf : r.leaf = s.leaf

variable {T : Tree} {s r u : Rq} {b c g x : Nat} {k : Int} {e : Entity} {on : Bool}

theorem setOnRq_cfs (e : Entity) (on : Bool) (x : Nat) :
    (s.setOnRq e on).cfs x = { s.cfs x with seOnRq := if e = .group x then on else (s.cfs x).seOnRq } := by
  cases e with
  | task t => simp [setOnRq]
  | group b =>
    rw [setOnRq, upd_cfs]
    by_cases hx : x = b
    · simp [hx]
    · simp [hx, Ne.symm hx]

theorem setOnRq_nrRunning (e : Entity) (on : Bool) : (s.setOnRq e on).nrRunning = s.nrRunning := by cases e <;> rfl

theorem setOnRq_leaf (e : Entity) (on : Bool) : (s.setOnRq e on).leaf = s.leaf := by cases e <;> rfl

theorem add_cfs_with (d : Counts) :
    (s.add c d).cfs x = { s.cfs x with counts := (s.cfs x).counts + if x = c then d else 0 } := by
  rw [add_cfs]
  split
  · rfl
  · rw [add_zero]

section

variable {d : Counts} (hn : d.nrRunning = k) (hh : d.hNrRunning = 0) (hi : d.idleHNrRunning = 0)

include hn hh hi

theorem Moved.account (hcfs : ∀ x, r.cfs x = { s.cfs x with
      counts := (s.cfs x).counts + if x = c then d else 0
      seOnRq := if e = .group x then on else (s.cfs x).seOnRq })
    (hnr : r.nrRunning = s.nrRunning) (hleaf : r.leaf = s.leaf) : Moved c k e on s r := by
  refine ⟨fun x => ?_, fun x => ?_, fun x => ?_, fun x => by rw [hcfs], fun x => by rw [hcfs], fun x => by rw [hcfs],
    fun x => by rw [hcfs], hnr, hleaf⟩ <;> by_cases hx : x = c <;> simp [hcfs, hx, hn, hh, hi]

theorem Moved.link : Moved c k e on s ((s.add c d).setOnRq e on) :=
  .account hn hh hi (fun x => by rw [setOnRq_cfs, add_cfs_with]) (setOnRq_nrRunning e on) (setOnRq_leaf e on)

theorem Moved.unlink : Moved c k e on s ((s.setOnRq e on).add c d) :=
  .account hn hh hi (fun x => by rw [add_cfs_with, setOnRq_cfs]) (setOnRq_nrRunning e on) (setOnRq_leaf e on)

end

theorem Moved.of_reweighed (hr : Reweighed s u) (hm : Moved c k e on u r) : Moved c k e on s r := by
  have hcfs := hr.cfs
  constructor <;> (try intro x; obtain ⟨w, l, hx⟩ := hcfs x)
  · rw [hm.nr, hx]
  · rw [hm.h, hx]
  · rw [hm.idleH, hx]
  · rw [hm.idle, hx]
  · rw [hm.throttled, hx]
  · rw [hm.throttleCount, hx]
  · rw [hm.seOnRq, hx]
  · rw [hm.nrRunning, hr.nrRunning]
  · rw [hm.leaf, hr.leaf]

theorem Moved.reweighed (hm : Moved c k e on s u) (hr : Reweighed u r) : Moved c k e on s r := by
  have hcfs := hr.cfs
  constructor <;> (try intro x; obtain ⟨w, l, hx⟩ := hcfs x; rw [hx])
  · exact hm.nr x
  · exact hm.h x
  · exact hm.idleH x
  · exact hm.idle x
  · exact hm.throttled x
  · exact hm.throttleCount x
  · exact hm.seOnRq x
  · rw [hr.nrRunning, hm.nrRunning]
  · rw [hr.leaf, hm.leaf]

/-! ## What an entity holds -/

theorem In.ne {b : Nat} (h : b ∈ T.children c) : b ≠ c := (T.lt_of_child h).ne'

theorem share_add_of_in {d : Counts} (hin : e.In T c) : e.share (s.add c d) = e.share s := by
  cases e with
  | task t => rfl
  | group b =>
    have hb : (s.add c d).cfs b = s.cfs b := by rw [add_cfs, if_neg (In.ne hin)]
    simp [Entity.share, Entity.weight, Entity.isIdle, Entity.tasks, Entity.idleTasks, hb]

theorem Reweighed.tasks_eq (hr : Reweighed s u) (e : Entity) : e.tasks u = e.tasks s := by
  cases e with
  | task t => rfl
  | group b =>
    obtain ⟨w, l, hb⟩ := hr.cfs b
    simp [Entity.tasks, hb]

theorem Reweighed.idleTasks_eq (hr : Reweighed s u) (e : Entity) : e.idleTasks u = e.idleTasks s := by
  cases e with
  | task t => rfl
  | group b =>
    obtain ⟨w, l, hb⟩ := hr.cfs b
    simp [idleTasks, GroupRq.idleBelow, hb]

theorem Reweighed.onRq_eq (hr : Reweighed s u) (e : Entity) : e.onRq u = e.onRq s := by
  cases e with
  | task t => simp [onRq, hr.tasks]
  | group b =>
    obtain ⟨w, l, hb⟩ := hr.cfs b
    simp [onRq, hb]

theorem Sound.weight_pos (hs : s.Sound T) (hw : 0 < e.weight u) : 0 < e.weight s := by
  cases e with
  | task t => exact hw
  | group b => exact (hs.valid b).seWeight

/-! ## The two entity operations -/

/-- After the first part of `enqueue_entity`, the tasks of the entity are missing at its runqueue. -/
theorem linkEntity_spec (o : Env) (hs : s.Sound T) (hl : s.Lacks T [] 0) (hin : e.In T c) (hoff : e.onRq s = false)
    (hw : 0 < e.weight s) : (s.linkEntity o c e).Sound T ∧
      (s.linkEntity o c e).Lacks T (c :: T.above c) (.ofTasks (e.tasks s) (e.idleTasks s)) ∧
        Moved c 1 e true s (s.linkEntity o c e) := by
  have hr := updateCfsGroup_reweighed (s := s) o c e
  have hgc : s.gap T c = .ofTasks 0 0 := by simpa using hl.1 c
  obtain ⟨hsu, hgu⟩ := updateCfsGroup_spec o hs hin hgc
  unfold linkEntity accountEntityEnqueue
  generalize s.updateCfsGroup o c e = u at hr hsu hgu
  have hwu : 0 < e.weight u := hsu.weight_pos hw
  have hoffu : e.onRq u = false := (hr.onRq_eq e).trans hoff
  have hsa : (u.add c (.ofEntity (e.weight u) (e.isIdle u))).Sound T := by
    refine hsu.add ((hsu.valid c).fits.add ?_)
    have := (Counts.proper_entity (e.isIdle u) hwu le_rfl le_rfl).fits
    simpa using this
  have hm : Moved c 1 e true s ((u.add c (.ofEntity (e.weight u) (e.isIdle u))).setOnRq e true) :=
    .of_reweighed hr (.link rfl rfl rfl)
  have hoffa : e.onRq (u.add c (.ofEntity (e.weight u) (e.isIdle u))) = false := by
    cases e with
    | task t => exact hoffu
    | group b =>
      rw [onRq, add_cfs, if_neg (In.ne hin)]
      exact hoffu
  refine ⟨hsa.setOnRq_true hin (hsa.weight_pos hw), ⟨fun x => ?_, ?_⟩, hm⟩
  · rw [gap_enter hin hoffa, share_add_of_in hin, gap_add_local rfl rfl, hgu, hl.1]
    by_cases hx : x = c
    · simp [hx, share, hr.tasks_eq, hr.idleTasks_eq]
    · simp [hx, Ne.symm hx]
  · rw [hm.nrRunning, hm.h]
    simpa using hl.2

theorem dequeueEntity_moved (o : Env) (c : Nat) (e : Entity) : Moved c (-1) e false s (s.dequeueEntity o c e) :=
  .reweighed (.unlink rfl rfl rfl) (updateCfsGroup_reweighed o c e)

/-- After `dequeue_entity`, `h` tasks are too many at the runqueue, if before `h` were so with those of the entity. -/
theorem dequeueEntity_spec (o : Env) {h i : Int} {cs : List Nat} (hs : s.Sound T)
    (hl : s.Lacks T (c :: cs) (.ofTasks (e.tasks s - h) (e.idleTasks s - i))) (hin : e.In T c) (hon : e.Present s) :
    (s.dequeueEntity o c e).Sound T ∧ (s.dequeueEntity o c e).Lacks T (c :: T.above c) (.ofTasks (-h) (-i)) ∧
      Moved c (-1) e false s (s.dequeueEntity o c e) := by
  have hm := dequeueEntity_moved (s := s) o c e
  have hgc : s.gap T c = .ofTasks (e.tasks s - h) (e.idleTasks s - i) := by simpa using hl.1 c
  have hcounts := setOnRq_counts (s := s) (x := c) e false
  have hweight : e.weight (s.setOnRq e false) = e.weight s := by
    cases e <;> simp [weight, setOnRq_cfs]
  have hidle : e.isIdle (s.setOnRq e false) = e.isIdle s := by
    cases e <;> simp [isIdle, setOnRq_cfs]
  unfold dequeueEntity accountEntityDequeue at hm ⊢
  rw [hweight, hidle] at hm ⊢
  generalize ha : (s.setOnRq e false).add c (-.ofEntity (e.weight s) (e.isIdle s)) = a at hm ⊢
  have hsa : a.Sound T := by
    rw [← ha]
    refine (hs.setOnRq_false e).add ?_
    rw [hcounts]
    exact hs.fits_sub hin hon hgc
  have hga : ∀ x, a.gap T x = if x = c then .ofTasks (-h) (-i) else 0 := by
    intro x
    rw [← ha, gap_add_local rfl rfl, gap_leave hin hon, hl.1]
    by_cases hx : x = c
    · subst hx
      simp only [List.head?_cons, if_true, share]
      ext <;> simp [Counts.ofEntity, Counts.ofTasks, sub_eq_add_neg]
    · simp [hx, Ne.symm hx]
  obtain ⟨hsu, hgu⟩ := updateCfsGroup_spec o hsa hin (by rw [hga, if_pos rfl])
  refine ⟨hsu, ⟨fun x => ?_, ?_⟩, hm⟩
  · rw [hgu, hga]
    simp [eq_comm (a := x)]
  · rw [hm.nrRunning, hm.h]
    simpa using hl.2

end Rq

end KernelSched.Group
