import KernelSched.Fair.CfsRq
import KernelSched.Lib.Run

/-!
# The timeline over whole runs

Linking, unlinking and reweighting entities in any order, balanced by any rotations. As long as the vruntimes of the
queued entities fit in a window of half the range, and their deadlines do, every cached deadline is the least one of
its subtree, the tree is sorted and the cached first node is a first one. The windows are needed: three deadlines a
third of the range apart have no least one.
-/

namespace KernelSched.Fair

open Wrap AugTree Run Timeline

inductive TimelineOp where
  | enqueue (ds : Rotations) (se : SchedEntity)
  | dequeue (ds : Rotations) (id : Nat)
  | reweight (now : U64) (id : Nat) (weight : U64)

/-- An entity is linked when it is not in the tree, and unlinked when it is. -/
def TimelineOp.step (cfg : Config) : TimelineOp → CfsRq → Option CfsRq
  | .enqueue ds se, cfs => if (cfs.tasksTimeline.find se.id).isSome then none else some (cfs.__enqueueEntity ds se)
  | .dequeue ds id, cfs => (cfs.tasksTimeline.find id).map fun se => cfs.__dequeueEntity ds se
  | .reweight now id weight, cfs => some (cfs.reweightEntity cfg now id weight)

variable {cfg : Config}

theorem CfsRq.reweight_timeline (cfg : Config) (now : U64) (id : Nat) (w : U64) (cfs : CfsRq) :
    (cfs.reweightEntity cfg now id w).tasksTimeline = cfs.tasksTimeline ∨
      (cfs.reweightEntity cfg now id w).tasksTimeline = cfs.tasksTimeline.change (CfsRq.rescale w) id := by
  unfold CfsRq.reweightEntity
  split
  · left
    unfold CfsRq.reweightCurr
    split
    · rfl
    · split
      · exact CfsRq.updateCurr_timeline
      · rfl
  · split
    · exact .inl rfl
    · rename_i se hf
      right
      rw [← (find_mem hf).2]
      rfl

/-- One operation keeps the invariant, if the entities queued after it fit in windows. -/
theorem TimelineOp.step_ok {op : TimelineOp} {cfs cfs' : CfsRq} (h : cfs.tasksTimeline.Ok)
    (hs : op.step cfg cfs = some cfs') (hn : cfs'.tasksTimeline.Narrow) : cfs'.tasksTimeline.Ok := by
  cases op with
  | enqueue ds se =>
    obtain ⟨hf, rfl⟩ := of_guard_not hs
    refine h.rbAdd ?_ ds hn
    intro hid
    obtain ⟨e, he, hi⟩ := List.mem_map.1 hid
    exact hf (by rw [← hi, h.find_eq he]; rfl)
  | dequeue ds id =>
    obtain ⟨se, hf, rfl⟩ := Option.map_eq_some_iff.1 hs
    exact h.rbErase se.id ds hn
  | reweight now id w =>
    cases hs
    rcases CfsRq.reweight_timeline cfg now id w cfs with e | e
    · rw [e]; exact h
    · rw [e]; exact h.change id (CfsRq.rescale_id w) fun se => CfsRq.rescale_vruntime se w

/-- The queued entities fit in windows after the operation. -/
def TimelineOp.narrow (cfg : Config) (op : TimelineOp) (cfs : CfsRq) : Prop :=
  ∀ cfs' ∈ op.step cfg cfs, cfs'.tasksTimeline.Narrow

instance (op : TimelineOp) (cfs : CfsRq) : Decidable (op.narrow cfg cfs) :=
  inferInstanceAs (Decidable (∀ cfs' ∈ op.step cfg cfs, cfs'.tasksTimeline.Narrow))

theorem TimelineOp.run_ok {ops : List TimelineOp} {cfs cfs' : CfsRq} (h : cfs.tasksTimeline = .empty)
    (hn : Along (TimelineOp.step cfg) (TimelineOp.narrow cfg) ops cfs)
    (hr : run (TimelineOp.step cfg) ops cfs = some cfs') : cfs'.tasksTimeline.Ok ∧ cfs'.tasksTimeline.Narrow := by
  refine along_invariant (I := fun c => c.tasksTimeline.Ok ∧ c.tasksTimeline.Narrow) ?_ ?_ hn hr
  · intro op s s' hi ho hs
    exact ⟨op.step_ok hi.1 hs (ho s' hs), ho s' hs⟩
  · rw [h]
    exact ⟨ok_empty, ⟨0, by simp [empty, entities, ATree.toList]⟩,
      ⟨0, by simp [empty, entities, ATree.toList]⟩⟩

/-- After every run in windows: each node caches the least deadline of its subtree, the entities are in the order of
`entity_before`, and the cached first node is there when anything is queued, with no queued entity before it. -/
theorem timeline_after_run {ops : List TimelineOp} {cfs cfs' : CfsRq} (h : cfs.tasksTimeline = .empty)
    (hn : Along (TimelineOp.step cfg) (TimelineOp.narrow cfg) ops cfs)
    (hr : run (TimelineOp.step cfg) ops cfs = some cfs') :
    (∀ u ∈ subtrees cfs'.tasksTimeline.root, ∀ m ∈ u.aug?, Least m (u.toList.map SchedEntity.deadline)) ∧
      cfs'.tasksTimeline.entities.Pairwise (fun a b => entityBefore b a = false) ∧
      (cfs'.__pickFirstEntity = none ↔ cfs'.tasksTimeline.entities = []) ∧
      ∀ e, cfs'.__pickFirstEntity = some e → e ∈ cfs'.tasksTimeline.entities ∧
        ∀ e' ∈ cfs'.tasksTimeline.entities, entityBefore e' e = false := by
  obtain ⟨hok, hw⟩ := TimelineOp.run_ok h hn hr
  refine ⟨fun u hu m hm => hok.node hw hu hm, hok.sorted, ?_, fun e he => hok.rbFirst_least he⟩
  rw [CfsRq.__pickFirstEntity, hok.rbFirst_eq, List.head?_eq_none_iff]

def queuedEntity (id : Nat) (vruntime deadline : U64) : SchedEntity where
  id := id
  load := updateLoadSet nice0Load
  onRq := true
  execStart := 0
  sumExecRuntime := 0
  prevSumExecRuntime := 0
  vruntime := vruntime
  vlag := 0
  deadline := deadline
  slice := 0

/-- Two entities linked with a rotation, one reweighted in place to a quarter of its weight, the other unlinked. -/
theorem timeline_after_run_of_two :
    let ops := [.enqueue [] (queuedEntity 1 10 30), .enqueue [([], .left)] (queuedEntity 2 20 25),
      .reweight 0 1 (nice0Load / 4), .dequeue [] 2]
    ∃ cfs', run (TimelineOp.step .default) ops initCfsRq = some cfs' ∧
      ∀ u ∈ subtrees cfs'.tasksTimeline.root, ∀ m ∈ u.aug?, Least m (u.toList.map SchedEntity.deadline) := by
  intro ops
  have hn : Along (TimelineOp.step .default) (TimelineOp.narrow .default) ops initCfsRq := by decide +kernel
  have hs : (run (TimelineOp.step .default) ops initCfsRq).isSome = true := by decide +kernel
  obtain ⟨cfs', hr⟩ := Option.isSome_iff_exists.1 hs
  exact ⟨cfs', hr, (timeline_after_run rfl hn hr).1⟩

/-- Entities with deadlines a third of the range apart. -/
def thirds : List SchedEntity :=
  [queuedEntity 1 0 0, queuedEntity 2 0 0x6000000000000000, queuedEntity 3 0 0xC000000000000000]

/-- Once they are linked, the root caches a deadline that is ahead of another one. -/
theorem min_deadline_not_least :
    ∃ ops cfs', run (TimelineOp.step .default) ops initCfsRq = some cfs' ∧
      ¬ ∀ u ∈ subtrees cfs'.tasksTimeline.root, ∀ m ∈ u.aug?, Least m (u.toList.map SchedEntity.deadline) := by
  refine ⟨thirds.map (.enqueue []), thirds.foldl (fun c se => c.__enqueueEntity [] se) initCfsRq, rfl, ?_⟩
  intro h
  have hl : Least 0 (thirds.map SchedEntity.deadline) := h _ List.mem_cons_self 0 rfl
  exact absurd hl (by decide)

end KernelSched.Fair
