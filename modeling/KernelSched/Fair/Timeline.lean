import KernelSched.Fair.Entity
import KernelSched.Lib.AugTree

/-!
# The timeline of a runqueue

The queued entities of a runqueue are kept in a red-black tree ordered by `vruntime` (`struct rb_root_cached
tasks_timeline`), every node caching the least deadline below it and the root caching its first node.

- The cache is `minDeadlineUpdate`, the instance of `AugTree.minOf` at deadlines compared as wrapping words.
- How the tree balances is left open: an insertion or an erasure takes a script of rotations, any of them, run through
  the same `rotate` callback.
- `Timeline.Ok` is what every operation keeps; `Timeline.Ok.node` reads it at each node.
-/

namespace KernelSched.Fair

open Wrap AugTree List

/-- `min_deadline_update`: the own deadline, then the right child's cached one, then the left child's. -/
abbrev minDeadlineUpdate : SchedEntity → Option U64 → Option U64 → U64 := minOf SchedEntity.deadline wmin

/-- Rotations done to balance the tree: where, and to which side. -/
abbrev Rotations := List (List Side × Side)

/-- `struct rb_root_cached`: the tree and the first node of it. -/
structure Timeline where
  root : ATree SchedEntity U64
  leftmost : Option Nat
  deriving DecidableEq

def Timeline.empty : Timeline := ⟨.nil, none⟩

namespace Timeline

def entities (t : Timeline) : List SchedEntity := t.root.toList

def spot (id : Nat) (t : Timeline) : Option (Spot SchedEntity U64) := locate (fun e => e.id == id) t.root []

def find (id : Nat) (t : Timeline) : Option SchedEntity := (t.spot id).map Spot.a

/-- `rb_add_augmented_cached`, for an entity that comes with its own deadline cached. -/
def rbAddAugmentedCached (ds : Rotations) (se : SchedEntity) (t : Timeline) : Timeline where
  root := rebalance minDeadlineUpdate ds (link minDeadlineUpdate entityBefore se se.deadline t.root)
  leftmost := if AugTree.leftmost entityBefore se t.root then some se.id else t.leftmost

/-- `rb_erase_augmented_cached`; the first node is looked up again only when it is the one that goes. -/
def rbEraseAugmentedCached (ds : Rotations) (id : Nat) (t : Timeline) : Timeline :=
  match t.spot id with
  | none => t
  | some s =>
    { root := rebalance minDeadlineUpdate ds (eraseAt minDeadlineUpdate s)
      leftmost := if t.leftmost = some id then (next? s.r s.k).map SchedEntity.id else t.leftmost }

/-- Change a queued entity in place, and run `min_deadline_cb_propagate` from its node. -/
def change (f : SchedEntity → SchedEntity) (id : Nat) (t : Timeline) : Timeline :=
  match t.spot id with
  | none => t
  | some s => { t with root := setAt minDeadlineUpdate s (f s.a) }

end Timeline

/-! ## What is queued -/

namespace Timeline

variable {t : Timeline} {id : Nat} {s : Spot SchedEntity U64} {e : SchedEntity}

theorem spot_tree (h : t.spot id = some s) : s.tree = t.root ∧ s.a.id = id := by
  obtain ⟨h₁, h₂⟩ := locate_some h
  exact ⟨h₁, by simpa using h₂⟩

theorem entities_spot (h : t.spot id = some s) :
    t.entities = (lefts s.k ++ s.l.toList) ++ s.a :: (s.r.toList ++ rights s.k) := by
  rw [entities, ← (spot_tree h).1, Spot.toList_tree]
  simp

theorem spot_isSome (h : id ∈ t.entities.map SchedEntity.id) : ∃ s, t.spot id = some s := by
  cases hs : t.spot id with
  | some s => exact ⟨s, rfl⟩
  | none =>
    obtain ⟨e, he, rfl⟩ := mem_map.1 h
    have hn := locate_none hs e he
    simp at hn

theorem find_mem (h : t.find id = some e) : e ∈ t.entities ∧ e.id = id := by
  obtain ⟨s, hs, rfl⟩ := Option.map_eq_some_iff.1 h
  refine ⟨?_, (spot_tree hs).2⟩
  rw [entities_spot hs]
  simp

theorem rbAdd_entities (ds : Rotations) (se : SchedEntity) (t : Timeline) : ∃ L R, t.entities = L ++ R ∧
    (t.rbAddAugmentedCached ds se).entities = L ++ se :: R ∧
      (AugTree.leftmost entityBefore se t.root = true ↔ L = []) := by
  obtain ⟨L, R, h, hl, hm⟩ := toList_link (c := minDeadlineUpdate) entityBefore se se.deadline t.root
  exact ⟨L, R, h, (toList_rebalance _ ds _).trans hl, hm⟩

theorem rbErase_entities (ds : Rotations) (h : t.spot id = some s) : ∃ L R, t.entities = L ++ s.a :: R ∧
    (t.rbEraseAugmentedCached ds id).entities = L ++ R ∧ next? s.r s.k = R.head? := by
  refine ⟨lefts s.k ++ s.l.toList, s.r.toList ++ rights s.k, entities_spot h, ?_, next?_eq _ _⟩
  rw [entities, rbEraseAugmentedCached, h]
  simp [toList_rebalance, toList_eraseAt]

theorem change_entities (f : SchedEntity → SchedEntity) (h : t.spot id = some s) : ∃ L R,
    t.entities = L ++ s.a :: R ∧ (t.change f id).entities = L ++ f s.a :: R := by
  refine ⟨lefts s.k ++ s.l.toList, s.r.toList ++ rights s.k, entities_spot h, ?_⟩
  rw [entities, change, h]
  simp [toList_setAt]

def rbFirstCached (t : Timeline) : Option SchedEntity := t.leftmost.bind t.find

/-! ## The invariant -/

/-- The vruntimes of the queued entities lie in one window, and so do their deadlines. -/
def Narrow (t : Timeline) : Prop :=
  Windowed (t.entities.map SchedEntity.vruntime) ∧ Windowed (t.entities.map SchedEntity.deadline)

instance (t : Timeline) : Decidable t.Narrow := inferInstanceAs (Decidable (_ ∧ _))

/-- Every cached deadline is computed from the ones below it, the tree is sorted, the cached first node is the first
one, and no entity is queued twice. -/
structure Ok (t : Timeline) : Prop where
  aug : Aug minDeadlineUpdate t.root
  sorted : t.entities.Pairwise fun a b => entityBefore b a = false
  first : t.leftmost = t.entities.head?.map SchedEntity.id
  ids : (t.entities.map SchedEntity.id).Nodup

theorem ok_empty : Ok empty := ⟨trivial, List.Pairwise.nil, rfl, nodup_nil⟩

theorem minLaw (base : U64) :
    MinLaw SchedEntity.deadline wmin (fun e => Within base e.deadline) (Within base) (off base) where
  own_mem := id
  join_mem := wmin_within
  rk_join := off_wmin
  rk_inj := eq_of_off

theorem aug_rotations {u : ATree SchedEntity U64} (hu : Aug minDeadlineUpdate u)
    (hw : Windowed (u.toList.map SchedEntity.deadline)) (ds : Rotations) :
    Aug minDeadlineUpdate (rebalance minDeadlineUpdate ds u) := by
  obtain ⟨base, hb⟩ := hw
  refine aug_rebalance (minLaw base).law ds hu fun e he => ?_
  exact hb _ (mem_map_of_mem he)

theorem entityBefore_iff_off {base : U64} {a b : SchedEntity} (ha : Within base a.vruntime)
    (hb : Within base b.vruntime) : entityBefore a b = true ↔ off base a.vruntime < off base b.vruntime :=
  before_iff_off ha hb

/-- Inside a window, sorted by `entity_before` is sorted by the distance from the base. -/
theorem sorted_iff_off {base : U64} {es : List SchedEntity} (h : ∀ e ∈ es, Within base e.vruntime) :
    es.Pairwise (fun a b => entityBefore b a = false) ↔
      es.Pairwise fun a b => off base a.vruntime ≤ off base b.vruntime := by
  refine List.Pairwise.iff_of_mem fun {a b} ha hb => ?_
  rw [← Bool.not_eq_true, entityBefore_iff_off (h b hb) (h a ha), not_lt]

theorem Ok.rbAdd {se : SchedEntity} (h : t.Ok) (hid : se.id ∉ t.entities.map SchedEntity.id) (ds : Rotations)
    (hn : (t.rbAddAugmentedCached ds se).Narrow) : (t.rbAddAugmentedCached ds se).Ok := by
  obtain ⟨L, R, e, e', hm⟩ := rbAdd_entities ds se t
  obtain ⟨⟨base, hv⟩, hd⟩ := hn
  have hw : ∀ x ∈ L ++ se :: R, Within base x.vruntime := fun x hx =>
    hv _ (by rw [e']; exact mem_map_of_mem hx)
  refine ⟨?_, ?_, ?_, ?_⟩
  · -- the leaf is linked first, so the rotations start from a tree that is right
    refine aug_rotations (aug_link entityBefore h.aug rfl) ?_ ds
    rwa [entities, rbAddAugmentedCached, toList_rebalance] at hd
  · have hold : ∀ x ∈ t.entities, Within base x.vruntime := fun x hx => hw x (by
      rw [e] at hx
      rcases mem_append.1 hx with hx | hx <;> simp [hx])
    rw [← e'] at hw
    rw [sorted_iff_off hw, entities, rbAddAugmentedCached, toList_rebalance]
    refine sorted_link (fun a ha => ?_) ((sorted_iff_off hold).1 h.sorted)
    exact entityBefore_iff_off (hw se (by simp [e'])) (hold a ha)
  · rw [e']
    show (if AugTree.leftmost entityBefore se t.root then some se.id else t.leftmost) = _
    split
    · rename_i hl
      rw [hm.1 hl]; rfl
    · rename_i hl
      rw [h.first, e]
      cases L with
      | nil => exact absurd (hm.2 rfl) hl
      | cons x L => rfl
  · rw [e']
    have hp : (L ++ se :: R).Perm (se :: t.entities) := by rw [e]; exact perm_middle
    rw [(hp.map SchedEntity.id).nodup_iff]
    exact nodup_cons.2 ⟨hid, h.ids⟩

theorem Ok.first_iff {L R : List SchedEntity} {a : SchedEntity} (h : t.Ok) (e : t.entities = L ++ a :: R) :
    t.leftmost = some a.id ↔ L = [] := by
  rw [h.first, e]
  cases L with
  | nil => simp
  | cons x L =>
    have hn := h.ids
    rw [e] at hn
    simp only [cons_append, map_cons, nodup_cons, mem_map] at hn
    simp only [cons_append, List.head?_cons, Option.map_some, Option.some.injEq, reduceCtorEq, iff_false]
    intro hx
    exact hn.1 ⟨a, by simp, hx.symm⟩

theorem Ok.rbErase (h : t.Ok) (id : Nat) (ds : Rotations) (hn : (t.rbEraseAugmentedCached ds id).Narrow) :
    (t.rbEraseAugmentedCached ds id).Ok := by
  cases hs : t.spot id with
  | none => rw [rbEraseAugmentedCached, hs]; exact h
  | some s =>
    obtain ⟨L, R, e, e', hx⟩ := rbErase_entities ds hs
    have hid := (spot_tree hs).2
    have hsub : (L ++ R).Sublist t.entities := by rw [e]; simp
    refine ⟨?_, ?_, ?_, ?_⟩
    · have hd := hn.2
      rw [entities, rbEraseAugmentedCached, hs] at hd
      rw [rbEraseAugmentedCached, hs]
      refine aug_rotations (aug_eraseAt ?_) ?_ ds
      · rw [(spot_tree hs).1]; exact h.aug
      · simpa only [toList_rebalance] using hd
    · rw [e']; exact h.sorted.sublist hsub
    · have hf := h.first_iff e
      rw [hid] at hf
      rw [e', rbEraseAugmentedCached, hs]
      show (if t.leftmost = some id then (next? s.r s.k).map SchedEntity.id else t.leftmost) = _
      split
      · rename_i hl
        rw [hf.1 hl, hx]; rfl
      · rename_i hl
        rw [h.first, e]
        cases L with
        | nil => exact absurd (hf.2 rfl) hl
        | cons x L => rfl
    · rw [e']; exact h.ids.sublist (hsub.map _)

theorem Ok.change {f : SchedEntity → SchedEntity} (h : t.Ok) (id : Nat) (hi : ∀ e, (f e).id = e.id)
    (hv : ∀ e, (f e).vruntime = e.vruntime) : (t.change f id).Ok := by
  cases hs : t.spot id with
  | none => rw [Timeline.change, hs]; exact h
  | some s =>
    obtain ⟨L, R, e, e'⟩ := change_entities f hs
    refine ⟨?_, ?_, ?_, ?_⟩
    · rw [Timeline.change, hs]
      exact aug_setAt (by rw [(spot_tree hs).1]; exact h.aug) _
    · have hp := h.sorted
      rw [e] at hp
      rw [e']
      simpa only [pairwise_append, pairwise_cons, forall_mem_cons, entityBefore, hv] using hp
    · have hl : (t.change f id).leftmost = t.leftmost := by rw [Timeline.change, hs]
      rw [hl, e', h.first, e]
      cases L with
      | nil => simp [hi]
      | cons x L => rfl
    · have hp := h.ids
      rw [e] at hp
      rw [e']
      simpa [hi] using hp

/-- What the invariant says of each node: its cached deadline is the least one of its subtree. -/
theorem Ok.node (h : t.Ok) (hw : t.Narrow) {u : ATree SchedEntity U64} (hu : u ∈ subtrees t.root) {m : U64}
    (hm : m ∈ u.aug?) : Least m (u.toList.map SchedEntity.deadline) := by
  obtain ⟨base, hb⟩ := hw.2
  have hin : ∀ e ∈ u.toList, Within base e.deadline := fun e he =>
    hb _ (mem_map_of_mem (mem_of_subtree hu e he))
  obtain ⟨h₁, h₂⟩ := aug_least (minLaw base) (h.aug.subtree hu) hin m hm
  have hin' : ∀ x ∈ u.toList.map SchedEntity.deadline, Within base x := forall_mem_map.2 hin
  exact (least_iff_off hin').2 ⟨h₁, forall_mem_map.2 h₂⟩

theorem Ok.find_eq (h : t.Ok) (he : e ∈ t.entities) : t.find e.id = some e := by
  obtain ⟨s, hs⟩ := spot_isSome (mem_map_of_mem he)
  have hf : t.find e.id = some s.a := by rw [find, hs]; rfl
  obtain ⟨hm, hi⟩ := find_mem hf
  rw [hf, inj_on_of_nodup_map h.ids hm he hi]

theorem Ok.rbFirst_eq (h : t.Ok) : t.rbFirstCached = t.entities.head? := by
  rw [rbFirstCached, h.first]
  cases hd : t.entities.head? with
  | none => rfl
  | some e =>
    show t.find e.id = some e
    exact h.find_eq (mem_of_mem_head? hd)

/-- The cached first node is queued whenever something is, and no queued entity is before it. -/
theorem Ok.rbFirst_least (h : t.Ok) (he : t.rbFirstCached = some e) :
    e ∈ t.entities ∧ ∀ e' ∈ t.entities, entityBefore e' e = false := by
  rw [h.rbFirst_eq] at he
  refine ⟨mem_of_mem_head? he, ?_⟩
  have hp := h.sorted
  cases hd : t.entities with
  | nil => simp [hd] at he
  | cons x es =>
    rw [hd] at he hp
    cases he
    intro e' he'
    rcases mem_cons.1 he' with rfl | he'
    · simp [entityBefore, before]
    · exact (pairwise_cons.1 hp).1 e' he'

end Timeline

end KernelSched.Fair
