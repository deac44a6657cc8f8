import KernelSched.Lib.Run
import Mathlib.Algebra.Group.Equiv.TypeTags
import Mathlib.Order.Bounds.Basic
import KernelSched.Lib.Rollup
import KernelSched.Rt.Saved
import KernelSched.Units

/-!
# The real-time runqueues after any run

`Good` is what the lists, bitmaps, counters and priorities of all runqueues should be after every operation. It follows
from `Sound`, which every operation keeps but one: a task that is put back without being moved (`DEQUEUE_SAVE` without
`DEQUEUE_MOVE`).

The entities of the groups above it stay on their lists meanwhile, and the flags tell `__enqueue_rt_entity` not to list
them again. But it takes a group that is throttled off its list, and whether it is (`rt_rq_throttled`) depends on the
tasks that are boosted. If the task was the only one, the group leaves its list while the task is away and is not listed
again when it comes back; it counts in its parent and cannot be picked. So the groups above must be throttled in between
and afterwards just as before (`Careful`).
-/

namespace KernelSched.Rt

open Rooted List

/-! ## What should hold -/

namespace Rq

variable {n : Nat} (T : Tree)

def isListed (s : Rq n) (e : Entity n) : Bool :=
  (List.range maxRtPrio).any fun i => decide (e ∈ (s.rt (s.rtRqOfSe T e)).queue i)

/-- Task `p` is queued in group `c` or below it: the task is on a list, and so are the groups between. -/
def isQueuedBelow (s : Rq n) (c : Nat) (p : Fin n) : Bool :=
  s.isListed T (.task p) && decide (T.Reaches (fun x => s.isListed T (.group x)) c (s.task p).group)

structure Good (s : Rq n) : Prop where
  /-- A bit is set exactly if the list is not empty. -/
  bitmap : ∀ c i, (s.rt c).bitmap i = true ↔ (s.rt c).queue i ≠ []
  /-- A group that is not throttled and not empty is queued at its highest priority, and no other group is. -/
  entity : ∀ g, g ≠ 0 → g < T.size → ∀ i, .group g ∈ (s.rt (T.parent g)).queue i ↔
    i = (s.rt g).highestPrio ∧ s.rtRqThrottled g = false ∧ (s.rt g).counts.rtNrRunning ≠ 0
  /-- `rt_nr_running` is the number of tasks that are queued below. -/
  running : ∀ c, (s.rt c).counts.rtNrRunning = (List.finRange n).countP (s.isQueuedBelow T c)
  /-- `highest_prio.curr` is the least priority that is queued, and that of an empty runqueue is `MAX_RT_PRIO-1`. -/
  least : ∀ c i, (s.rt c).queue i ≠ [] → IsLeast {i | (s.rt c).queue i ≠ []} (s.rt c).highestPrio
  empty : ∀ c, (∀ i, (s.rt c).queue i = []) → (s.rt c).highestPrio = maxRtPrio - 1
  /-- `rq->nr_running` has the tasks exactly if `rt_queued` is set. -/
  top : s.nrRunning = if s.rtQueued then (s.rt 0).counts.rtNrRunning else 0

variable {T} {s u r : Rq n} {c g i : Nat} {e : Entity n} {p : Fin n}

/-! ## It follows -/

section

variable (h : s.Sound T)

include h

theorem Sound.mem_queue : e ∈ (s.rt c).queue i ↔ s.onRq e = true ∧ s.rtRqOfSe T e = c ∧ s.key e = i := by
  rw [h.kept.lists.mem, h.kept.onList_eq]

theorem Sound.isListed (e : Entity n) : s.isListed T e = s.onRq e := by
  rw [Bool.eq_iff_iff, Rq.isListed, any_eq_true]
  constructor
  · rintro ⟨i, -, hi⟩
    exact (h.mem_queue.1 (of_decide_eq_true hi)).1
  · intro hon
    have hlt := (h.kept.lists.there e (h.kept.listed e hon)).2
    exact ⟨s.key e, mem_range.2 hlt, decide_eq_true (h.mem_queue.2 ⟨hon, rfl, rfl⟩)⟩

theorem Sound.nr_ne_zero : (s.rt c).counts.rtNrRunning ≠ 0 ↔ ∃ i, (s.rt c).queue i ≠ [] := by
  rw [h.kept.tallies.nr_ne_zero]
  constructor
  · rintro ⟨e, hon, rfl⟩
    exact ⟨s.key e, ne_nil_of_mem (h.mem_queue.2 ⟨hon, rfl, rfl⟩)⟩
  · rintro ⟨i, hi⟩
    obtain ⟨e, he⟩ := exists_mem_of_ne_nil _ hi
    obtain ⟨hon, hc, -⟩ := h.mem_queue.1 he
    exact ⟨e, hon, hc⟩

theorem Sound.lt_of_queue (hi : (s.rt c).queue i ≠ []) : i < maxRtPrio := by
  obtain ⟨e, he⟩ := exists_mem_of_ne_nil _ hi
  obtain ⟨hon, -, rfl⟩ := h.mem_queue.1 he
  exact (h.kept.lists.there e (h.kept.listed e hon)).2

theorem Sound.least (hi : (s.rt c).queue i ≠ []) : IsLeast {i | (s.rt c).queue i ≠ []} (s.rt c).highestPrio := by
  have hbit : ∀ j, (s.rt c).queue j ≠ [] → firstBit (s.rt c).bitmap ≤ j := fun j hj =>
    firstBit_le (h.lt_of_queue hj) ((h.kept.lists.bit c j).2 hj)
  have hlt := (hbit i hi).trans_lt (h.lt_of_queue hi)
  rw [(h.kept.highest c).trans (if_neg (h.nr_ne_zero.2 ⟨i, hi⟩))]
  exact ⟨(h.kept.lists.bit c _).1 ((firstBit_eq_iff hlt).1 rfl).1, hbit⟩

theorem Sound.empty (hno : ∀ i, (s.rt c).queue i = []) : (s.rt c).highestPrio = maxRtPrio - 1 := by
  refine (h.kept.highest c).trans (if_pos ?_)
  by_contra hne
  obtain ⟨i, hi⟩ := h.nr_ne_zero.1 hne
  exact hi (hno i)

theorem Sound.entity (hg0 : g ≠ 0) (hg : g < T.size) : .group g ∈ (s.rt (T.parent g)).queue i ↔
    i = (s.rt g).highestPrio ∧ s.rtRqThrottled g = false ∧ (s.rt g).counts.rtNrRunning ≠ 0 := by
  have hfree : s.blocked (.group g) = false ↔ s.rtRqThrottled g = false ∧ (s.rt g).counts.rtNrRunning ≠ 0 := by
    simp [blocked]
  rw [h.mem_queue, h.groups g hg0 hg id, hfree]
  constructor
  · rintro ⟨⟨hthr, hne⟩, -, hkey⟩
    exact ⟨hkey.symm.trans (h.kept.prio_eq_key (e := .group g) (by rintro x ⟨⟩; exact hne)).symm, hthr, hne⟩
  · rintro ⟨rfl, hthr, hne⟩
    exact ⟨⟨hthr, hne⟩, rfl, (h.kept.prio_eq_key (e := .group g) (by rintro x ⟨⟩; exact hne)).symm⟩

end

/-! ### Tasks below a group -/

/-- A counter that a group passes on whole, from the tasks and groups on its runqueue. -/
theorem Tallies.split (h : s.Tallies T) (φ : Counts →+ Int) (hφ : ∀ g, φ (s.share (.group g)) = φ (s.rt g).counts)
    (c : Nat) : φ (s.rt c).counts =
      (((List.finRange n).filter fun p => s.onRq (.task p)).map fun p =>
        if (s.task p).group = c then φ (s.share (.task p)) else 0).sum +
      ((T.children c).map fun b => if s.onRq (.group b) then φ (s.rt b).counts else 0).sum := by
  have hroot : s.onRq (.group 0) = false := by
    by_contra hon
    exact (h.there (.group 0) (by simpa using hon)).1 rfl
  have hone : ∀ e, φ (if s.isIn T c e then s.share e else 0) =
      if s.onRq e then (if s.rtRqOfSe T e = c then φ (s.share e) else 0) else 0 := by
    intro e
    by_cases hin : s.isIn T c e
    · rw [if_pos hin, if_pos hin.1, if_pos hin.2]
    · rw [if_neg hin, map_zero, ← ite_and]
      exact (if_neg hin).symm
  rw [h.counts, sums, entities, map_append, sum_append, map_add, map_list_sum, map_list_sum, map_map,
    map_map, map_map, map_map, Tree.children, map_reverse, sum_reverse, Ledger.sum_map_filter,
    Ledger.sum_map_filter]
  congr 2
  · exact map_congr_left fun p _ => hone (.task p)
  · refine map_congr_left fun b _ => (hone (.group b)).trans ?_
    rw [hφ, rtRqOfSe]
    by_cases hb : b = 0
    · simp [hb, hroot]
    · simp only [ne_eq, hb, not_false_eq_true, true_and, decide_eq_true_eq, ← ite_and, and_comm]

theorem Tallies.below (h : s.Tallies T) (φ : Counts →+ Int) (hφ : ∀ g, φ (s.share (.group g)) = φ (s.rt g).counts)
    (c : Nat) : φ (s.rt c).counts = (((List.finRange n).filter fun p => s.onRq (.task p)).map fun p =>
      if T.Reaches (fun x => s.onRq (.group x)) c (s.task p).group then φ (s.share (.task p)) else 0).sum := by
  refine T.rollup_reaches (f := fun c => φ (s.rt c).counts) (fun p hp => ?_) (h.split φ hφ) c
  exact h.there (.task p) (mem_filter.1 hp).2

theorem Sound.below (h : s.Sound T) (φ : Counts →+ Int) (hφ : ∀ g, φ (s.share (.group g)) = φ (s.rt g).counts) (c : Nat) :
    φ (s.rt c).counts = (((List.finRange n).filter (s.isQueuedBelow T c)).map fun p => φ (s.share (.task p))).sum := by
  rw [h.kept.tallies.below φ hφ, Ledger.sum_map_filter, Ledger.sum_map_filter]
  simp only [isQueuedBelow, h.isListed, Bool.and_eq_true, decide_eq_true_eq, ite_and]

theorem Sound.running (h : s.Sound T) (c : Nat) :
    (s.rt c).counts.rtNrRunning = (List.finRange n).countP (s.isQueuedBelow T c) := by
  have hsum := h.below ⟨⟨Counts.rtNrRunning, rfl⟩, fun _ _ => rfl⟩ (fun _ => rfl) c
  rw [countP_eq_length_filter]
  refine hsum.trans ?_
  simp [share, rtSeNrRunning]

theorem Sound.good (h : s.Sound T) : s.Good T where
  bitmap := h.kept.lists.bit
  entity := fun _ hg0 hg _ => h.entity hg0 hg
  running := h.running
  least := fun _ _ => h.least
  empty := fun _ => h.empty
  top := h.top

/-! ## Operations -/

/-- From `s` to `r`, the tasks have kept their attributes and the groups their flag. -/
structure Frame (s r : Rq n) : Prop where
  task : r.task = s.task
  throttled : ∀ x, (r.rt x).rtThrottled = (s.rt x).rtThrottled

theorem Frame.refl (s : Rq n) : Frame s s := ⟨rfl, fun _ => rfl⟩

theorem Frame.trans (h : Frame s u) (h' : Frame u r) : Frame s r :=
  ⟨h'.task.trans h.task, fun x => (h'.throttled x).trans (h.throttled x)⟩

theorem Inside.frame (h : Inside s r) : Frame s r := ⟨h.task, fun x => by rw [h.rt]⟩

theorem delist_frame (e : Entity n) (s : Rq n) : Frame s (s.__delistRtEntity T e) := by
  have hr : Relisted T e s (s.__delistRtEntity T e) := by
    refine .upd ?_ ?_ ?_ false <;> exact fun _ => rfl
  exact ⟨hr.task, hr.throttled⟩

theorem enqueue_frame (flags : Flags) (e : Entity n) (s : Rq n) : Frame s (s.__enqueueRtEntity T flags e) := by
  cases hb : s.blocked e with
  | false =>
    have ht := enqueue_turned (T := T) hb flags
    exact ⟨ht.task, ht.throttled⟩
  | true =>
    rw [__enqueueRtEntity, if_pos hb]
    split
    · exact delist_frame e s
    · exact .refl s

theorem dequeue_frame (flags : Flags) (e : Entity n) (s : Rq n) : Frame s (s.__dequeueRtEntity T flags e) :=
  have ht := dequeue_turned (T := T) flags e s
  ⟨ht.task, ht.throttled⟩

theorem dequeueBack_frame (flags : Flags) (es : List (Entity n)) (s : Rq n) : Frame s (s.dequeueBack T flags es) := by
  induction es with
  | nil => exact .refl s
  | cons e es ih =>
    rw [dequeueBack, foldr_cons, ← dequeueBack]
    split
    · exact ih.trans (dequeue_frame flags e _)
    · exact ih

theorem foldl_frame {f : Rq n → Entity n → Rq n} (hf : ∀ s e, Frame s (f s e)) (es : List (Entity n)) (s : Rq n) :
    Frame s (es.foldl f s) := by
  induction es generalizing s with
  | nil => exact .refl s
  | cons e es ih => exact (hf s e).trans (ih (f s e))

theorem dequeueRtEntity_frame (flags : Flags) (e : Entity n) (s : Rq n) : Frame s (s.dequeueRtEntity T flags e) := by
  refine ((dequeueBack_frame flags _ s).trans (dequeueTop_inside _ _).frame).trans
    (.trans (foldl_frame (fun s e => ?_) _ _) (enqueueTop_inside _).frame)
  split
  · exact enqueue_frame flags e s
  · exact .refl s

@[simp] theorem setTask_self (p : Fin n) (a : RtTask) (s : Rq n) : (s.setTask p a).task p = a := if_pos rfl

theorem sound_boot : (boot n).Sound T where
  kept := by
    refine ⟨⟨?_, ?_, nofun⟩, ⟨fun c => ?_, nofun, nofun⟩, fun _ => rfl, nofun, nofun⟩
    · simp [boot, RtRq.init]
    · simp [boot, RtRq.init]
    · refine (sum_eq_zero fun v hv => ?_).symm
      obtain ⟨e, -, rfl⟩ := mem_map.1 hv
      exact if_neg fun hin => Bool.false_ne_true hin.1
  groups := fun g _ _ _ => by simp [boot, blocked, rtRqThrottled, RtRq.init]
  top := rfl

end Rq

namespace Op

variable {n : Nat} {T : Tree} {s s' : Rq n} {op : Op n}

/-- A task that is put back without being moved leaves the groups above throttled, or not, while it is away and then. -/
def Careful (T : Tree) (op : Op n) (s : Rq n) : Prop :=
  match op with
  | change p a flags => flags.moveEntity = true ∨ ∀ g ∈ T.path (s.task p).group, g ≠ 0 →
      (s.dequeueRtEntity T flags (.task p)).rtRqThrottled g = s.rtRqThrottled g ∧
        ((change p a flags).act T s).rtRqThrottled g = s.rtRqThrottled g
  | enqueue _ _ _ | dequeue _ _ | throttle _ | unthrottle _ => True

instance (T : Tree) (op : Op n) (s : Rq n) : Decidable (op.Careful T s) := by
  cases op <;> unfold Careful <;> infer_instance

theorem act_sound (h : s.Sound T) (hen : op.enabled T s) (hc : op.Careful T s) : (op.act T s).Sound T := by
  cases op with
  | enqueue p a flags =>
    obtain ⟨hm, hv, hoff⟩ := hen
    exact (h.setTask hoff a).enqueueTask hm (by rw [Rq.setTask_self]; exact hv)
  | dequeue p flags => exact (h.dequeueTask hen.1 hen.2).1
  | change p a flags =>
    obtain ⟨hon, hv, hsame⟩ := hen
    by_cases hm : flags.moveEntity = true
    · obtain ⟨hout, hoff⟩ := h.dequeueTask hm hon
      exact (hout.setTask hoff a).enqueueTask hm (by rw [Rq.setTask_self]; exact hv)
    · have hthr := hc.resolve_left hm
      obtain ⟨hgroup, hprio⟩ := hsame.resolve_left hm
      have hm : flags.moveEntity = false := by simpa using hm
      have hg : (s.task p).group < T.size := h.kept.tallies.there _ hon
      obtain ⟨hheld, hoff, htop⟩ := h.dequeue_saved hm hon fun g hg hg0 => (hthr g hg hg0).1
      have htask : (s.dequeueRtEntity T flags (.task p)).task p = s.task p := by
        rw [(Rq.dequeueRtEntity_frame flags _ s).task]
      have hheld' := hheld.setTask hoff (a := a) (by rw [htask, hgroup]) (by rw [htask, hprio])
      exact hheld'.restore h hm hoff htop hg (h.kept.listed _ hon) fun g hg hg0 => (hthr g hg hg0).2
  | throttle g => exact h.throttle hen
  | unthrottle g => exact h.unthrottle hen

theorem step_sound (h : s.Sound T) (hc : op.Careful T s) (hs : op.step T s = some s') : s'.Sound T := by
  obtain ⟨hen, rfl⟩ := Run.of_guard hs
  exact act_sound h hen hc

/-- After every run whose tasks are put back with care, all runqueues are as they should be. -/
theorem good_after_run (T : Tree) (n : Nat) (ops : List (Op n)) (s : Rq n)
    (hc : Run.Along (step T) (Careful T) ops (.boot n)) (h : Run.run (step T) ops (.boot n) = some s) : s.Good T :=
  (Run.along_invariant (fun _ _ _ => step_sound) Rq.sound_boot hc h).good

def oneGroup : Tree where
  size := 2
  parent := fun _ => 0
  parent_lt := Nat.pos_of_ne_zero

/-- `DEQUEUE_SAVE`, as in `__do_set_cpus_allowed`. -/
def saved : Flags := ⟨true, false, false⟩

/-- Task 0 is boosted, so that the group runs without runtime; task 1 is put back meanwhile. Then task 0 leaves. -/
def carefulRun : List (Op 2) :=
  [.enqueue 0 ⟨1, 10, 50, false⟩ .none, .enqueue 1 ⟨1, 20, 20, true⟩ .none, .throttle 1,
    .change 1 ⟨1, 20, 20, false⟩ saved,
    .dequeue 0 .none, .unthrottle 1]

theorem good_after_carefulRun : Run.Along (step oneGroup) (Careful oneGroup) carefulRun (.boot 2) ∧
    ∃ s, Run.run (step oneGroup) carefulRun (.boot 2) = some s ∧ (s.rt 0).counts.rtNrRunning = 1 ∧ s.Good oneGroup := by
  have hc : Run.Along (step oneGroup) (Careful oneGroup) carefulRun (.boot 2) := by decide +kernel
  obtain ⟨s, hs, hnr⟩ : ∃ s, Run.run (step oneGroup) carefulRun (.boot 2) = some s ∧ (s.rt 0).counts.rtNrRunning = 1 :=
    Run.run_of_isSome (by decide +kernel)
  exact ⟨hc, s, hs, hnr, good_after_run oneGroup 2 carefulRun s hc hs⟩

/-- Now the boosted task is the one that is put back. -/
def boostedRun : List (Op 2) :=
  [.enqueue 0 ⟨1, 10, 50, false⟩ .none, .enqueue 1 ⟨1, 20, 20, true⟩ .none, .throttle 1,
    .change 0 ⟨1, 10, 50, false⟩ saved]

/-- The group counts for two tasks in the root and is on no list. -/
theorem lost_after_boostedRun : ∃ s, Run.run (step oneGroup) boostedRun (.boot 2) = some s ∧ s.rtRqThrottled 1 = false ∧
    (s.rt 0).counts.rtNrRunning = 2 ∧ s.rtQueued = true ∧ (∀ i < maxRtPrio, (s.rt 0).queue i = []) ∧
        ¬ s.Good oneGroup := by
  obtain ⟨s, hs, hthr, hnr, hq, hlt, hne, hempty⟩ : ∃ s, Run.run (step oneGroup) boostedRun (.boot 2) = some s ∧
      s.rtRqThrottled 1 = false ∧ (s.rt 0).counts.rtNrRunning = 2 ∧ s.rtQueued = true ∧ (s.rt 1).highestPrio < maxRtPrio ∧
        (s.rt 1).counts.rtNrRunning ≠ 0 ∧ ∀ i < maxRtPrio, (s.rt 0).queue i = [] := Run.run_of_isSome (by decide +kernel)
  refine ⟨s, hs, hthr, hnr, hq, hempty, fun hgood => ?_⟩
  have hmem := (hgood.entity 1 (by decide) (by decide) _).2 ⟨rfl, hthr, hne⟩
  rw [show oneGroup.parent 1 = 0 from rfl, hempty _ hlt] at hmem
  cases hmem

end Op

end KernelSched.Rt
