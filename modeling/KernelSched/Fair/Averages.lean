import KernelSched.Fair.CfsRq
import KernelSched.Lib.Run
import Mathlib.Algebra.BigOperators.Group.List.Basic
import Mathlib.Tactic.Ring

/-!
# The averages over whole runs

`avg_load` and `avg_vruntime` are kept up to date by hand: an entity is added when it is linked, taken off when it is
unlinked, taken off and added again around a change of weight, and every move of `min_vruntime` shifts the sum.
`CfsRq.Averaged` is what the two words should be; every call keeps it, over any run from `init_cfs_rq`.

`min_vruntime` only moves forward: each store of it does (`__updateMinVruntime_forward`). A call that stores it twice can
still end behind where it started, when the two advances add up to half the range.
-/

set_option linter.style.nameCheck false

namespace KernelSched.Fair

open Wrap Run Option Timeline CfsRq

/-! ## The sums -/

def weightSum (es : List SchedEntity) : U64 := (es.map SchedEntity.seWeight).sum

/-- The sum of the weighted distances from `m`, as a word. -/
def keySum (m : U64) (es : List SchedEntity) : U64 := (es.map fun e => (e.vruntime - m) * e.seWeight).sum

section

variable {m d : U64} {e : SchedEntity} {es fs : List SchedEntity}

theorem weightSum_perm (h : es.Perm fs) : weightSum es = weightSum fs := (h.map _).sum_eq

theorem keySum_perm (h : es.Perm fs) : keySum m es = keySum m fs := (h.map _).sum_eq

@[simp] theorem weightSum_cons : weightSum (e :: es) = e.seWeight + weightSum es := List.sum_cons

@[simp] theorem keySum_cons : keySum m (e :: es) = (e.vruntime - m) * e.seWeight + keySum m es := List.sum_cons

/-- Moving the origin forward takes the distance off once per unit of weight. -/
theorem keySum_shift : ∀ es : List SchedEntity, keySum (m + d) es = keySum m es - weightSum es * d
  | [] => by simp [keySum, weightSum]
  | e :: es => by
    rw [keySum_cons, keySum_cons, weightSum_cons, keySum_shift es]
    ring

theorem weightSum_toNat : ∀ es : List SchedEntity, (es.map fun e => e.seWeight.toNat).sum < 2 ^ 64 →
    (weightSum es).toNat = (es.map fun e => e.seWeight.toNat).sum
  | [], _ => rfl
  | e :: es, h => by
    simp only [List.map_cons, List.sum_cons] at h ⊢
    have ih := weightSum_toNat es (by omega)
    rw [weightSum_cons, BitVec.toNat_add, ih, Nat.mod_eq_of_lt h]

end

/-! ## What is queued, up to order -/

namespace Timeline

variable {t : Timeline} {id : Nat} {e : SchedEntity}

theorem rbAdd_perm (ds : Rotations) (se : SchedEntity) (t : Timeline) :
    (t.rbAddAugmentedCached ds se).entities.Perm (se :: t.entities) := by
  obtain ⟨L, R, e, e', -⟩ := rbAdd_entities ds se t
  rw [e, e']
  exact List.perm_middle

theorem rbErase_perm (ds : Rotations) (h : t.find id = some e) :
    t.entities.Perm (e :: (t.rbEraseAugmentedCached ds id).entities) := by
  obtain ⟨s, hs, rfl⟩ := map_eq_some_iff.1 h
  obtain ⟨L, R, e, e', -⟩ := rbErase_entities ds hs
  rw [e, e']
  exact List.perm_middle

theorem change_perm (f : SchedEntity → SchedEntity) (h : t.find id = some e) :
    ∃ es, t.entities.Perm (e :: es) ∧ (t.change f id).entities.Perm (f e :: es) := by
  obtain ⟨s, hs, rfl⟩ := map_eq_some_iff.1 h
  obtain ⟨L, R, e, e'⟩ := change_entities f hs
  rw [e, e']
  exact ⟨L ++ R, List.perm_middle, List.perm_middle⟩

theorem find_none (h : t.find id = none) : id ∉ t.entities.map SchedEntity.id := by
  intro hm
  obtain ⟨s, hs⟩ := spot_isSome hm
  rw [find, hs] at h
  cases h

end Timeline

/-! ## What each step does to the averages -/

namespace CfsRq

variable {cfg : Config} {now v : U64} {cfs : CfsRq} {se e : SchedEntity}

/-- The two averages are the sums over the tree. -/
structure Averaged (cfs : CfsRq) : Prop where
  load : cfs.avgLoad = weightSum cfs.tasksTimeline.entities
  sum : cfs.avgVruntime = keySum cfs.minVruntime cfs.tasksTimeline.entities

section

variable (h : cfs.Averaged)

include h

theorem Averaged.congr (cfs' : CfsRq) (ht : cfs'.tasksTimeline = cfs.tasksTimeline)
    (hl : cfs'.avgLoad = cfs.avgLoad) (ha : cfs'.avgVruntime = cfs.avgVruntime)
    (hm : cfs'.minVruntime = cfs.minVruntime) : cfs'.Averaged :=
  ⟨by rw [hl, ht, h.load], by rw [ha, hm, ht, h.sum]⟩

theorem Averaged.enqueue (ds : Rotations) (se : SchedEntity) : (cfs.__enqueueEntity ds se).Averaged := by
  have hp := rbAdd_perm ds se cfs.tasksTimeline
  constructor
  · show cfs.avgLoad + se.seWeight = weightSum (cfs.tasksTimeline.rbAddAugmentedCached ds se).entities
    rw [weightSum_perm hp, weightSum_cons, h.load, add_comm]
  · show cfs.avgVruntime + (se.vruntime - cfs.minVruntime) * se.seWeight =
      keySum cfs.minVruntime (cfs.tasksTimeline.rbAddAugmentedCached ds se).entities
    rw [keySum_perm hp, keySum_cons, h.sum, add_comm]

/-- Unlinking takes off what the queued entity counts with; the copy at hand may differ from it in other fields. -/
theorem Averaged.dequeue (ds : Rotations) (hf : cfs.tasksTimeline.find se.id = some e)
    (hv : se.vruntime = e.vruntime) (hw : se.seWeight = e.seWeight) : (cfs.__dequeueEntity ds se).Averaged := by
  have hp := rbErase_perm ds hf
  constructor
  · show cfs.avgLoad - se.seWeight = weightSum (cfs.tasksTimeline.rbEraseAugmentedCached ds se.id).entities
    rw [h.load, weightSum_perm hp, weightSum_cons, hw, add_sub_cancel_left]
  · show cfs.avgVruntime - (se.vruntime - cfs.minVruntime) * se.seWeight =
      keySum cfs.minVruntime (cfs.tasksTimeline.rbEraseAugmentedCached ds se.id).entities
    rw [h.sum, keySum_perm hp, keySum_cons, hv, hw, add_sub_cancel_left]

theorem Averaged.min (v : U64) : (cfs.__updateMinVruntime v).Averaged := by
  unfold __updateMinVruntime
  split
  · refine ⟨h.load, ?_⟩
    show cfs.avgVruntime - cfs.avgLoad * (v - cfs.minVruntime) = keySum v cfs.tasksTimeline.entities
    have hs := keySum_shift (m := cfs.minVruntime) (d := v - cfs.minVruntime) cfs.tasksTimeline.entities
    rw [add_sub_cancel] at hs
    rw [hs, h.sum, h.load]
  · exact h

theorem Averaged.updateCurr : (cfs.updateCurr cfg now).Averaged := by
  rcases updateCurr_cases cfg now cfs with hc | ⟨c, d, v, -, hc⟩
  · rw [hc]; exact h
  · rw [hc]
    exact (h.congr { cfs with curr := some (chargeCurr cfg now d c) } rfl rfl rfl rfl).min v

/-- A change of weight takes the entity off with the old weight and adds it with the new one. -/
theorem Averaged.reweightQueued (hf : cfs.tasksTimeline.find se.id = some se) (w : U64) :
    (cfs.reweightQueued w se).Averaged := by
  obtain ⟨es, hp, hp'⟩ := change_perm (rescale w) hf
  constructor
  · show cfs.avgLoad - se.seWeight + (rescale w se).seWeight =
      weightSum (cfs.tasksTimeline.change (rescale w) se.id).entities
    rw [weightSum_perm hp', weightSum_cons, h.load, weightSum_perm hp, weightSum_cons]
    ring
  · show cfs.avgVruntime - (se.vruntime - cfs.minVruntime) * se.seWeight +
        ((rescale w se).vruntime - cfs.minVruntime) * (rescale w se).seWeight =
      keySum cfs.minVruntime (cfs.tasksTimeline.change (rescale w) se.id).entities
    rw [keySum_perm hp', keySum_cons, h.sum, keySum_perm hp, keySum_cons]
    ring

end

/-! ## Forward -/

theorem __updateMinVruntime_forward (cfs : CfsRq) (v : U64) :
    before (cfs.__updateMinVruntime v).minVruntime cfs.minVruntime = false := by
  unfold __updateMinVruntime
  split
  · rename_i h
    rw [ahead_iff] at h
    show before v cfs.minVruntime = false
    rw [← Bool.not_eq_true, before_iff]
    omega
  · simp [before]

theorem updateCurr_forward (cfg : Config) (now : U64) (cfs : CfsRq) :
    before (cfs.updateCurr cfg now).minVruntime cfs.minVruntime = false := by
  rcases updateCurr_cases cfg now cfs with hc | ⟨c, d, v, -, hc⟩
  · rw [hc]; simp [before]
  · rw [hc]
    exact __updateMinVruntime_forward _ v

end CfsRq

/-- Two moves forward are a move forward when they add up to less than half the range. -/
theorem forward_trans {a b c : U64} (h : (b - a).toNat + (c - b).toNat < 2 ^ 63) : before c a = false := by
  have hs : (c - a).toNat = (b - a).toNat + (c - b).toNat := by
    rw [← sub_add_sub_cancel c b a, BitVec.toNat_add]
    omega
  rw [← Bool.not_eq_true, before_iff, BitVec.toInt_eq_toNat_cond]
  split <;> omega

/-! ## Calls -/

/-- A call of one of the entity operations, with what it reads from elsewhere. -/
inductive Call where
  | enqueue (now : U64) (flags : CfsRq.EnqueueFlags) (shares : Option U64) (ds : Rotations) (se : SchedEntity)
  | dequeue (now : U64) (save : Bool) (shares : Option U64) (ds : Rotations) (id : Nat)
  | setNext (now : U64) (ds : Rotations) (id : Nat)
  | setNextOff (now : U64) (se : SchedEntity)
  | putPrev (now : U64) (ds : Rotations)
  | updateCurr (now : U64)
  | reweight (now : U64) (id : Nat) (weight : U64)

/-- The state after a call. The callers promise that an entity to enqueue is not on the runqueue and that one to dequeue
is. The next one is a queued entity, or one that is not on the runqueue (`setNextOff`, under a throttled group). -/
def Call.step (cfg : Config) : Call → CfsRq → Option CfsRq
  | .enqueue now flags shares ds se, cfs =>
    if se.onRq = false ∧ (cfs.curr = some se ∨ cfs.isCurr se.id = false ∧ cfs.tasksTimeline.find se.id = none) then
      some (cfs.enqueueEntity cfg now flags shares ds se)
    else none
  | .dequeue now save shares ds id, cfs =>
    if cfs.curr.all fun c => c.id != id || c.onRq then (cfs.dequeueEntity cfg now save shares ds id).map Prod.snd
    else none
  | .setNext now ds id, cfs => (cfs.tasksTimeline.find id).map fun se => cfs.setNextEntity now ds se
  | .setNextOff now se, cfs =>
    if se.onRq = false ∧ cfs.tasksTimeline.find se.id = none then some (cfs.setNextEntity now [] se) else none
  | .putPrev now ds, cfs => if cfs.curr.isSome then some (cfs.putPrevEntity cfg now ds) else none
  | .updateCurr now, cfs => some (cfs.updateCurr cfg now)
  | .reweight now id weight, cfs => some (cfs.reweightEntity cfg now id weight)

/-! ## Who is where -/

/-- The queued entities have distinct addresses, are on the runqueue, and the current one is not among them. -/
structure Linked (es : List SchedEntity) (curr : Option Nat) : Prop where
  ids : (es.map SchedEntity.id).Nodup
  onRq : ∀ e ∈ es, e.onRq = true
  curr : ∀ i ∈ curr, i ∉ es.map SchedEntity.id

namespace Linked

variable {es fs : List SchedEntity} {e : SchedEntity} {curr : Option Nat}

theorem perm (h : Linked es curr) (hp : es.Perm fs) : Linked fs curr where
  ids := (hp.map _).nodup_iff.1 h.ids
  onRq := fun e he => h.onRq e (hp.mem_iff.2 he)
  curr := fun i hi hm => h.curr i hi ((hp.map _).mem_iff.2 hm)

theorem cons (h : Linked es curr) (ho : e.onRq = true) (hi : e.id ∉ es.map SchedEntity.id) (hc : e.id ∉ curr) :
    Linked (e :: es) curr where
  ids := List.nodup_cons.2 ⟨hi, h.ids⟩
  onRq := List.forall_mem_cons.2 ⟨ho, h.onRq⟩
  curr := by
    intro i hi' hm
    rcases List.mem_cons.1 hm with rfl | hm
    · exact hc hi'
    · exact h.curr i hi' hm

theorem tail (h : Linked (e :: es) curr) : Linked es curr where
  ids := (List.nodup_cons.1 h.ids).2
  onRq := fun e he => h.onRq e (List.mem_cons_of_mem _ he)
  curr := fun i hi hm => h.curr i hi (List.mem_cons_of_mem _ hm)

theorem replace (h : Linked es curr) {curr' : Option Nat} (hc : ∀ i ∈ curr', i ∉ es.map SchedEntity.id) :
    Linked es curr' := ⟨h.ids, h.onRq, hc⟩

theorem head_not_mem (h : Linked (e :: es) curr) : e.id ∉ es.map SchedEntity.id := (List.nodup_cons.1 h.ids).1

end Linked

structure CfsRq.Inv (cfs : CfsRq) : Prop where
  averaged : cfs.Averaged
  linked : Linked cfs.tasksTimeline.entities (cfs.curr.map SchedEntity.id)

namespace CfsRq

variable {cfg : Config} {now : U64} {cfs : CfsRq} {se : SchedEntity}

theorem isCurr_iff {id : Nat} : cfs.isCurr id = true ↔ cfs.curr.map SchedEntity.id = some id := by
  cases h : cfs.curr <;> simp [isCurr, h]

theorem inv_init : initCfsRq.Inv := by
  refine ⟨⟨rfl, rfl⟩, ⟨List.nodup_nil, ?_, ?_⟩⟩
  · intro e he
    cases he
  · intro i hi
    cases hi

/-- The invariant sees the timeline, the averages and the address of the current entity. -/
theorem Inv.congr (h : cfs.Inv) (cfs' : CfsRq) (ht : cfs'.tasksTimeline = cfs.tasksTimeline)
    (hl : cfs'.avgLoad = cfs.avgLoad) (ha : cfs'.avgVruntime = cfs.avgVruntime)
    (hm : cfs'.minVruntime = cfs.minVruntime) (hc : cfs'.curr.map SchedEntity.id = cfs.curr.map SchedEntity.id) :
        cfs'.Inv :=
  ⟨h.averaged.congr cfs' ht hl ha hm, by rw [ht, hc]; exact h.linked⟩

theorem Inv.updateCurr (h : cfs.Inv) : (cfs.updateCurr cfg now).Inv :=
  ⟨h.averaged.updateCurr, by rw [updateCurr_timeline, updateCurr_currId]; exact h.linked⟩

theorem Inv.updateMin (h : cfs.Inv) : cfs.updateMinVruntime.Inv :=
  ⟨h.averaged.min _, by rw [updateMinVruntime_timeline, updateMinVruntime_curr]; exact h.linked⟩

theorem Inv.enqueue (h : cfs.Inv) (ds : Rotations) (ho : se.onRq = true)
    (hi : se.id ∉ cfs.tasksTimeline.entities.map SchedEntity.id) (hc : se.id ∉ cfs.curr.map SchedEntity.id) :
    (cfs.__enqueueEntity ds se).Inv :=
  ⟨h.averaged.enqueue ds se, (h.linked.cons ho hi hc).perm (rbAdd_perm ds se cfs.tasksTimeline).symm⟩

/-- Unlinking a queued entity, given by a copy with its vruntime and weight; it may become the current one. -/
theorem Inv.dequeue (h : cfs.Inv) (ds : Rotations) {e : SchedEntity} (hf : cfs.tasksTimeline.find se.id = some e)
    (hv : se.vruntime = e.vruntime) (hw : se.seWeight = e.seWeight) : (cfs.__dequeueEntity ds se).Inv ∧
      se.id ∉ (cfs.__dequeueEntity ds se).tasksTimeline.entities.map SchedEntity.id := by
  have hl := h.linked.perm (rbErase_perm ds hf)
  refine ⟨⟨h.averaged.dequeue ds hf hv hw, hl.tail⟩, ?_⟩
  rw [← (find_mem hf).2]
  exact hl.head_not_mem

theorem Inv.reweightQueued (h : cfs.Inv) (hf : cfs.tasksTimeline.find se.id = some se) (w : U64) :
    (cfs.reweightQueued w se).Inv := by
  obtain ⟨es, hp, hp'⟩ := change_perm (rescale w) hf
  have hl := h.linked.perm hp
  refine ⟨h.averaged.reweightQueued hf w, Linked.perm ?_ hp'.symm⟩
  refine hl.tail.cons ?_ ?_ ?_
  · rw [rescale_onRq]; exact hl.onRq se List.mem_cons_self
  · rw [rescale_id]; exact hl.head_not_mem
  · rw [rescale_id]; exact fun hc => hl.curr _ hc List.mem_cons_self

/-! ## Each call keeps the invariant -/

section

variable (h : cfs.Inv)

include h

theorem Inv.joinCurr (flags : EnqueueFlags) (shares : Option U64) : (cfs.joinCurr flags shares).Inv := by
  unfold CfsRq.joinCurr
  split
  · exact h
  · rename_i c hc
    exact h.congr _ rfl rfl rfl rfl (by simp [hc, join])

theorem Inv.enqueueCurr (hc : cfs.curr = some se) (flags : EnqueueFlags) (shares : Option U64) :
    (cfs.enqueueCurr cfg now flags shares se).Inv := by
  have h₁ : ({ cfs with curr := some (cfs.placeEntity cfg flags.initial se) } : CfsRq).Inv :=
    h.congr _ rfl rfl rfl rfl (by simp [hc])
  exact h₁.updateCurr.joinCurr flags shares

theorem Inv.enqueueOther (hc : cfs.isCurr se.id = false) (hf : cfs.tasksTimeline.find se.id = none)
    (flags : EnqueueFlags) (shares : Option U64) (ds : Rotations) :
    (cfs.enqueueOther cfg now flags shares ds se).Inv := by
  have h₁ : (cfs.updateCurr cfg now).Inv := h.updateCurr
  have h₂ : ∀ e, (accountEntityEnqueue e (cfs.updateCurr cfg now)).Inv := fun e => h₁.congr _ rfl rfl rfl rfl rfl
  refine (h₂ _).enqueue ds rfl ?_ ?_
  · show (join flags _).id ∉ (cfs.updateCurr cfg now).tasksTimeline.entities.map SchedEntity.id
    simpa [join] using find_none hf
  · show (join flags _).id ∉ (cfs.updateCurr cfg now).curr.map SchedEntity.id
    intro hm
    have ht : cfs.isCurr se.id = true := isCurr_iff.2 (by simpa [join] using hm)
    rw [hc] at ht
    cases ht

/-- Taking off the current entity, or a queued one given by a copy with its vruntime and weight. -/
theorem Inv.unlink {e out : SchedEntity} (hg : (if cfs.isCurr se.id then cfs.curr
    else cfs.tasksTimeline.find se.id) = some e) (hv : se.vruntime = e.vruntime) (hw : se.seWeight = e.seWeight)
    (ho : out.id = e.id) (ds : Rotations) : (cfs.unlink ds se out).Inv := by
  unfold CfsRq.unlink
  by_cases hc : cfs.isCurr se.id = true
  · rw [if_pos hc] at hg ⊢
    exact h.congr _ rfl rfl rfl rfl (by simp [hg, ho])
  · rw [if_neg hc] at hg ⊢
    exact (h.dequeue ds hg hv hw).1

theorem Inv.settle (save : Bool) : (cfs.settle save).Inv := by
  cases save with
  | true => exact h
  | false => exact h.updateMin

theorem Inv.dequeueEntity {save : Bool} {shares : Option U64} {ds : Rotations} {id : Nat} {r : SchedEntity × CfsRq}
    (hd : cfs.dequeueEntity cfg now save shares ds id = some r) : r.2.Inv := by
  obtain ⟨gone, hg, rfl⟩ := map_eq_some_iff.1 hd
  have hid : gone.id = id := by
    split at hg
    · rename_i hc
      rw [isCurr_iff, hg] at hc
      simpa using hc
    · exact (find_mem hg).2
  subst hid
  set se := CfsRq.leave cfg (cfs.updateCurr cfg now) gone
  have hu : (CfsRq.unlink ds se (updateCfsGroup shares se) (cfs.updateCurr cfg now)).Inv := by
    refine h.updateCurr.unlink ?_ (leave_vruntime gone) (leave_seWeight gone) ?_ ds
    · rw [leave_id]; exact hg
    · rw [updateCfsGroup_id, leave_id]
  exact (hu.congr (accountEntityDequeue se _) rfl rfl rfl rfl rfl).settle save

theorem Inv.setNext (ds : Rotations) (hf : cfs.tasksTimeline.find se.id = some se) :
    (cfs.setNextEntity now ds se).Inv := by
  have ho : se.onRq = true := h.linked.onRq se (find_mem hf).1
  obtain ⟨hd, hn⟩ := h.dequeue ds hf rfl rfl
  simp only [setNextEntity, ho, if_true]
  exact ⟨hd.averaged.congr _ rfl rfl rfl rfl, hd.linked.replace (by rintro i ⟨⟩; exact hn)⟩

theorem Inv.setNextOff (ds : Rotations) (ho : se.onRq = false)
    (hf : cfs.tasksTimeline.find se.id = none) : (cfs.setNextEntity now ds se).Inv := by
  have hn := find_none hf
  simp only [setNextEntity, ho, Bool.false_eq_true, if_false]
  exact ⟨h.averaged.congr _ rfl rfl rfl rfl, h.linked.replace (by rintro i ⟨⟩; exact hn)⟩

theorem Inv.dropCurr : ({ cfs with curr := none } : CfsRq).Inv :=
  ⟨h.averaged.congr _ rfl rfl rfl rfl, h.linked.replace (by intro i hi; cases hi)⟩

theorem Inv.putBack (ho : ∀ c ∈ cfs.curr, c.onRq = true) (ds : Rotations) : (cfs.putBack ds).Inv := by
  unfold CfsRq.putBack
  split
  · exact h
  · rename_i prev hc
    have hn : prev.id ∉ cfs.tasksTimeline.entities.map SchedEntity.id := h.linked.curr _ (by simp [hc])
    have h₁ := h.dropCurr.enqueue ds (ho prev hc) hn (by simp)
    exact h₁.congr _ rfl rfl rfl rfl rfl

theorem Inv.putPrev (ds : Rotations) : (cfs.putPrevEntity cfg now ds).Inv := by
  unfold putPrevEntity
  split
  · rename_i ho
    refine h.updateCurr.putBack ?_ ds
    intro c hc
    rcases updateCurr_curr cfg now cfs with e | ⟨c', d, hc', e⟩
    · rw [e] at hc
      rwa [hc] at ho
    · rw [e] at hc
      cases hc
      rw [chargeCurr_onRq]
      rwa [hc'] at ho
  · exact h.dropCurr

theorem Inv.reweight (id : Nat) (w : U64) : (cfs.reweightEntity cfg now id w).Inv := by
  unfold reweightEntity
  split
  · unfold reweightCurr
    split
    · exact h
    · rename_i c hc
      split
      · exact h.updateCurr.congr _ rfl rfl rfl rfl (by simp [map_map, Function.comp_def])
      · exact h.congr _ rfl rfl rfl rfl (by simp [hc])
  · split
    · exact h
    · rename_i se hf
      exact h.reweightQueued (by rw [(find_mem hf).2]; exact hf) w

end

end CfsRq

/-! ## Runs -/

variable {cfg : Config} {cfs cfs' : CfsRq}

theorem Call.step_inv {call : Call} (h : cfs.Inv) (hs : call.step cfg cfs = some cfs') : cfs'.Inv := by
  cases call with
  | enqueue now flags shares ds se =>
    obtain ⟨hg, rfl⟩ := of_guard hs
    unfold enqueueEntity
    by_cases hc : cfs.isCurr se.id = true
    · rw [if_pos hc]
      refine h.enqueueCurr ?_ flags shares
      rcases hg.2 with hg | ⟨hg, -⟩
      · exact hg
      · rw [hc] at hg; cases hg
    · rw [if_neg hc]
      rcases hg.2 with hg | ⟨hg, hf⟩
      · exact absurd (isCurr_iff.2 (by simp [hg])) hc
      · exact h.enqueueOther hg hf flags shares ds
  | dequeue now save shares ds id =>
    obtain ⟨-, hs⟩ := ite_none_right_eq_some.1 hs
    obtain ⟨r, hr, rfl⟩ := map_eq_some_iff.1 hs
    exact h.dequeueEntity hr
  | setNext now ds id =>
    obtain ⟨se, hf, rfl⟩ := map_eq_some_iff.1 hs
    exact h.setNext ds (by rw [(find_mem hf).2]; exact hf)
  | setNextOff now se =>
    obtain ⟨hg, rfl⟩ := of_guard hs
    exact h.setNextOff [] hg.1 hg.2
  | putPrev now ds =>
    obtain ⟨-, rfl⟩ := of_guard hs
    exact h.putPrev ds
  | updateCurr now =>
    cases hs
    exact h.updateCurr
  | reweight now id weight =>
    cases hs
    exact h.reweight id weight

/-- How a call moves `min_vruntime`. A call stores it at most once and never backwards; only `dequeue_entity` stores it
twice, each time not backwards, so that it ends behind only if the two advances reach half the range. -/
def Call.Forward (cfg : Config) : Call → CfsRq → CfsRq → Prop
  | .dequeue now _ _ _ _, cfs, cfs' =>
    let mid := (cfs.updateCurr cfg now).minVruntime
    before mid cfs.minVruntime = false ∧ before cfs'.minVruntime mid = false ∧
      ((mid - cfs.minVruntime).toNat + (cfs'.minVruntime - mid).toNat < 2 ^ 63 →
        before cfs'.minVruntime cfs.minVruntime = false)
  | _, cfs, cfs' => before cfs'.minVruntime cfs.minVruntime = false

theorem before_self (a : U64) : before a a = false := by simp [before]

theorem CfsRq.unlink_min (ds : Rotations) (se out : SchedEntity) (cfs : CfsRq) :
    (cfs.unlink ds se out).minVruntime = cfs.minVruntime := by
  unfold unlink
  split <;> rfl

theorem CfsRq.settle_forward (save : Bool) (cfs : CfsRq) :
    before (cfs.settle save).minVruntime cfs.minVruntime = false := by
  cases save with
  | true => exact before_self _
  | false => exact __updateMinVruntime_forward cfs _

theorem CfsRq.dequeue_forward {save : Bool} {shares : Option U64} {ds : Rotations} {id : Nat}
    {r : SchedEntity × CfsRq} (hd : cfs.dequeueCharged cfg save shares ds id = some r) :
    before r.2.minVruntime cfs.minVruntime = false := by
  obtain ⟨gone, -, rfl⟩ := map_eq_some_iff.1 hd
  have hs := settle_forward save (accountEntityDequeue (cfs.leave cfg gone)
    (cfs.unlink ds (cfs.leave cfg gone) (updateCfsGroup shares (cfs.leave cfg gone))))
  have hm := unlink_min ds (cfs.leave cfg gone) (updateCfsGroup shares (cfs.leave cfg gone)) cfs
  rw [← hm]
  exact hs

theorem CfsRq.reweight_forward (cfg : Config) (now : U64) (id : Nat) (w : U64) (cfs : CfsRq) :
    before (cfs.reweightEntity cfg now id w).minVruntime cfs.minVruntime = false := by
  unfold reweightEntity
  split
  · unfold reweightCurr
    split
    · exact before_self _
    · split
      · exact updateCurr_forward cfg now cfs
      · exact before_self cfs.minVruntime
  · split
    · exact before_self _
    · exact before_self cfs.minVruntime

theorem CfsRq.enqueue_forward (cfg : Config) (now : U64) (flags : EnqueueFlags) (shares : Option U64) (ds : Rotations)
    (se : SchedEntity) (cfs : CfsRq) :
    before (cfs.enqueueEntity cfg now flags shares ds se).minVruntime cfs.minVruntime = false := by
  unfold enqueueEntity
  split
  · have hm : ∀ c : CfsRq, (c.joinCurr flags shares).minVruntime = c.minVruntime := by
      intro c
      unfold joinCurr
      split <;> rfl
    rw [enqueueCurr, hm]
    exact updateCurr_forward cfg now _
  · exact updateCurr_forward cfg now cfs

theorem CfsRq.setNext_forward (now : U64) (ds : Rotations) (se : SchedEntity) (cfs : CfsRq) :
    before (cfs.setNextEntity now ds se).minVruntime cfs.minVruntime = false := by
  have hm : (cfs.setNextEntity now ds se).minVruntime = cfs.minVruntime := by
    unfold setNextEntity
    cases se.onRq <;> rfl
  rw [hm]
  exact before_self _

theorem CfsRq.putPrev_forward (cfg : Config) (now : U64) (ds : Rotations) (cfs : CfsRq) :
    before (cfs.putPrevEntity cfg now ds).minVruntime cfs.minVruntime = false := by
  unfold putPrevEntity
  split
  · have hm : ∀ c : CfsRq, (c.putBack ds).minVruntime = c.minVruntime := by
      intro c
      unfold putBack
      split <;> rfl
    rw [hm]
    exact updateCurr_forward cfg now cfs
  · exact before_self cfs.minVruntime

theorem Call.step_forward {call : Call} (hs : call.step cfg cfs = some cfs') : call.Forward cfg cfs cfs' := by
  cases call with
  | enqueue now flags shares ds se =>
    obtain ⟨-, rfl⟩ := of_guard hs
    exact enqueue_forward cfg now flags shares ds se cfs
  | dequeue now save shares ds id =>
    obtain ⟨-, hs⟩ := ite_none_right_eq_some.1 hs
    obtain ⟨r, hr, rfl⟩ := map_eq_some_iff.1 hs
    exact ⟨updateCurr_forward cfg now cfs, dequeue_forward hr, forward_trans⟩
  | setNext now ds id =>
    obtain ⟨se, -, rfl⟩ := map_eq_some_iff.1 hs
    exact setNext_forward now ds se cfs
  | setNextOff now se =>
    obtain ⟨-, rfl⟩ := of_guard hs
    exact setNext_forward now [] se cfs
  | putPrev now ds =>
    obtain ⟨-, rfl⟩ := of_guard hs
    exact putPrev_forward cfg now ds cfs
  | updateCurr now =>
    cases hs
    exact updateCurr_forward cfg now cfs
  | reweight now id weight =>
    cases hs
    exact reweight_forward cfg now id weight cfs

/-- After every run from `init_cfs_rq`, `avg_load` is the sum of the weights in the tree and `avg_vruntime` the weighted
sum of the distances from `min_vruntime`, and the next call moves `min_vruntime` forward in each of its stores. -/
theorem averages_after_run {calls : List Call} (hr : run (Call.step cfg) calls initCfsRq = some cfs) :
    cfs.avgLoad = weightSum cfs.tasksTimeline.entities ∧
      ((cfs.tasksTimeline.entities.map fun e => e.seWeight.toNat).sum < 2 ^ 64 →
        cfs.avgLoad.toNat = (cfs.tasksTimeline.entities.map fun e => e.seWeight.toNat).sum) ∧
      cfs.avgVruntime = keySum cfs.minVruntime cfs.tasksTimeline.entities ∧
      ∀ (call : Call) (cfs' : CfsRq), call.step cfg cfs = some cfs' → call.Forward cfg cfs cfs' := by
  have hi : cfs.Inv := run_invariant (fun call s s' hs h => call.step_inv hs h) inv_init hr
  refine ⟨hi.averaged.load, ?_, hi.averaged.sum, fun call cfs' hs => Call.step_forward hs⟩
  intro hf
  rw [hi.averaged.load]
  exact weightSum_toNat _ hf

def newEntity (id : Nat) : SchedEntity where
  id := id
  load := updateLoadSet nice0Load
  onRq := false
  execStart := 0
  sumExecRuntime := 0
  prevSumExecRuntime := 0
  vruntime := 0
  vlag := 0
  deadline := 0
  slice := 0

/-- Two entities, run in turns until the first is more than half the range ahead of the second, so that it counts as
behind; the second is current again. -/
def farApart : List Call :=
  [.enqueue 0 ⟨false, false⟩ none [] (newEntity 1), .enqueue 0 ⟨false, false⟩ none [] (newEntity 2),
    .setNext 0 [] 1, .putPrev 0x7fffffffffffffff [],
    .setNext 0x7fffffffffffffff [] 2, .putPrev 0xbfffffffffffffff [],
    .setNext 0xbfffffffffffffff [] 1, .putPrev 9 [], .setNext 9 [] 2]

/-- Two entities enqueued: the averages are those of the tree. -/
theorem averages_after_two_enqueues : ∃ cfs, run (Call.step .default) (farApart.take 2) initCfsRq = some cfs ∧
    cfs.avgLoad = weightSum cfs.tasksTimeline.entities := by
  have hs : (run (Call.step .default) (farApart.take 2) initCfsRq).isSome = true := by decide +kernel
  obtain ⟨cfs, hr⟩ := isSome_iff_exists.1 hs
  exact ⟨cfs, hr, (averages_after_run hr).1⟩

/-- Dequeueing the second then moves `min_vruntime` forward twice, and further than half the range. -/
theorem min_vruntime_backwards : ∃ calls cfs call cfs', run (Call.step .default) calls initCfsRq = some cfs ∧
    Call.step .default call cfs = some cfs' ∧ before cfs'.minVruntime cfs.minVruntime = true := by
  have hs : ((run (Call.step .default) farApart initCfsRq).bind fun cfs =>
      (Call.step .default (.dequeue 104 false none [] 2) cfs).filter fun cfs' =>
        before cfs'.minVruntime cfs.minVruntime).isSome = true := by decide +kernel
  obtain ⟨c, hc⟩ := isSome_iff_exists.1 hs
  obtain ⟨cfs, hr, hc⟩ := bind_eq_some_iff.1 hc
  obtain ⟨hd, hb⟩ := filter_eq_some_iff.1 hc
  exact ⟨farApart, cfs, _, c, hr, hd, hb⟩

end KernelSched.Fair
