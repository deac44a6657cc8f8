import KernelSched.Lib.AugTree

/-!
# Ordered trees with their first node at hand

A `CTree α` is a binary tree, in which a new node goes down to a leaf by a comparison `less` that need not be an order,
and the first node of it, which is looked up again only when it is taken out. `addr` tells nodes apart. How the tree is
balanced is left open: every change takes a script of rotations, any at all.

Every operation is described by its effect on the list of the nodes (`add_items`, `Ok.erase`); `Ok` is what it keeps.
With a comparison of keys the list is sorted (`sorted_add`).
-/

namespace KernelSched.CachedTree

open AugTree List

/-- A tree and its first node. -/
structure CTree (α : Type) where
  root : ATree α Unit
  leftmost : Option α

abbrev Rotations := List (List Side × Side)

variable {α κ : Type}

namespace CTree

/-- Nothing is cached at the nodes. -/
def plain (_ : α) (_ _ : Option Unit) : Unit := ()

def empty : CTree α := ⟨.nil, none⟩

def items (t : CTree α) : List α := t.root.toList

/-- The new node goes before all others. -/
def first (less : α → α → Bool) (x : α) (t : CTree α) : Bool := AugTree.leftmost less x t.root

def add (less : α → α → Bool) (ds : Rotations) (x : α) (t : CTree α) : CTree α where
  root := rebalance plain ds (link plain less x () t.root)
  leftmost := if t.first less x then some x else t.leftmost

variable [DecidableEq κ] (addr : α → κ)

/-- Take out a node. When it was the first one, the second result is the one that is first now. -/
def erase (ds : Rotations) (k : κ) (t : CTree α) : CTree α × Option α :=
  match locate (fun a => addr a == k) t.root [] with
  | none => (t, none)
  | some s =>
    let root := rebalance plain ds (eraseAt plain s)
    if t.leftmost.map addr = some k then (⟨root, next? s.r s.k⟩, next? s.r s.k) else (⟨root, t.leftmost⟩, none)

/-- The first node is the cached one, and no node is in the tree twice. -/
structure Ok (t : CTree α) : Prop where
  first : t.leftmost = t.items.head?
  nodup : (t.items.map addr).Nodup

variable {addr} {t : CTree α} {x : α} {k : κ}

omit [DecidableEq κ] in
theorem ok_empty : Ok addr (empty : CTree α) := ⟨rfl, nodup_nil⟩

theorem add_items (less : α → α → Bool) (ds : Rotations) (x : α) (t : CTree α) : ∃ L R, t.items = L ++ R ∧
    (t.add less ds x).items = L ++ x :: R ∧ (t.first less x = true ↔ L = []) := by
  obtain ⟨L, R, h, hl, hm⟩ := toList_link (c := plain) less x () t.root
  exact ⟨L, R, h, (toList_rebalance _ ds _).trans hl, hm⟩

theorem perm_add (less : α → α → Bool) (ds : Rotations) (x : α) (t : CTree α) :
    (t.add less ds x).items.Perm (x :: t.items) := by
  obtain ⟨L, R, h, h', -⟩ := add_items less ds x t
  rw [h, h']
  exact perm_middle

theorem mem_add {less : α → α → Bool} {ds : Rotations} {y : α} : y ∈ (t.add less ds x).items ↔ y = x ∨ y ∈ t.items := by
  rw [(perm_add less ds x t).mem_iff, mem_cons]

omit [DecidableEq κ] in
theorem Ok.add (h : Ok addr t) (less : α → α → Bool) (ds : Rotations) (hx : addr x ∉ t.items.map addr) :
    Ok addr (t.add less ds x) := by
  obtain ⟨L, R, e, e', hm⟩ := add_items less ds x t
  refine ⟨?_, ?_⟩
  · rw [e', CTree.add]
    split
    · next hl => rw [hm.1 hl, nil_append, List.head?_cons]
    · next hl =>
      rw [h.first, e]
      cases L with
      | nil => exact absurd (hm.2 rfl) hl
      | cons y L => rfl
  · rw [((perm_add less ds x t).map addr).nodup_iff, map_cons, nodup_cons]
    exact ⟨hx, h.nodup⟩

theorem sorted_add {ι : Type} [LinearOrder ι] {less : α → α → Bool} {key : α → ι} (ds : Rotations)
    (hx : ∀ a ∈ t.items, less x a = true ↔ key x < key a) (hs : t.items.Pairwise fun a b => key a ≤ key b) :
    (t.add less ds x).items.Pairwise fun a b => key a ≤ key b := by
  rw [items, CTree.add, toList_rebalance]
  exact sorted_link hx hs

theorem spot_items {s : Spot α Unit} (hs : locate (fun a => addr a == k) t.root [] = some s) :
    t.items = (lefts s.k ++ s.l.toList) ++ s.a :: (s.r.toList ++ rights s.k) ∧ addr s.a = k := by
  obtain ⟨htree, hp⟩ := locate_some hs
  have hlist := s.toList_tree
  rw [htree] at hlist
  refine ⟨?_, by simpa using hp⟩
  rw [items, ← show plug t.root [] = t.root from rfl, hlist]
  simp

theorem erase_of_notMem (ds : Rotations) (hk : k ∉ t.items.map addr) : t.erase addr ds k = (t, none) := by
  unfold erase
  split
  · rfl
  · next s hs =>
    obtain ⟨hitems, haddr⟩ := spot_items hs
    exact absurd (mem_map.2 ⟨s.a, by simp [hitems], haddr⟩) hk

theorem Ok.erase (h : Ok addr t) (ds : Rotations) (hk : k ∈ t.items.map addr) : ∃ L a R,
    t.items = L ++ a :: R ∧ addr a = k ∧ (t.erase addr ds k).1.items = L ++ R ∧
      (t.erase addr ds k).2 = (if L = [] then R.head? else none) ∧ Ok addr (t.erase addr ds k).1 := by
  cases hs : locate (fun a => addr a == k) t.root [] with
  | none =>
    obtain ⟨a, ha, rfl⟩ := mem_map.1 hk
    have hno := locate_none hs a ha
    simp at hno
  | some s =>
    obtain ⟨hitems, haddr⟩ := spot_items hs
    have hrest : (rebalance plain ds (eraseAt plain s)).toList = (lefts s.k ++ s.l.toList) ++
        (s.r.toList ++ rights s.k) := by
      simp [toList_rebalance, toList_eraseAt]
    have hnext := next?_eq s.r s.k
    have hnodup := h.nodup
    generalize lefts s.k ++ s.l.toList = L at hitems hrest
    generalize s.r.toList ++ rights s.k = R at hitems hrest hnext
    rw [hitems] at hnodup
    have hsub : ((rebalance plain ds (eraseAt plain s)).toList.map addr).Nodup := by
      rw [hrest]
      exact hnodup.sublist (List.Sublist.map addr (by simp))
    cases L with
    | nil =>
      have hleft : t.leftmost.map addr = some k := by rw [h.first, hitems]; simp [haddr]
      refine ⟨[], s.a, R, hitems, haddr, ?_⟩
      simp only [CTree.erase, hs, hleft, if_true]
      exact ⟨hrest, hnext, hnext.trans (congrArg List.head? hrest.symm), hsub⟩
    | cons b L =>
      have hleft : ¬ t.leftmost.map addr = some k := by
        simp only [cons_append, map_cons, nodup_cons, map_append, mem_append,
          mem_cons] at hnodup
        rw [h.first, hitems]
        intro hb
        refine hnodup.1 (.inr (.inl ?_))
        rw [haddr]
        simpa using hb
      refine ⟨b :: L, s.a, R, hitems, haddr, ?_⟩
      simp only [CTree.erase, hs, hleft, if_false, reduceCtorEq]
      refine ⟨hrest, trivial, ?_, hsub⟩
      rw [h.first, hitems]
      exact (congrArg List.head? hrest).symm

/-! ### A removal, whether the node is there or not -/

theorem Ok.erase_ok (h : Ok addr t) (ds : Rotations) (k : κ) : Ok addr (t.erase addr ds k).1 := by
  by_cases hk : k ∈ t.items.map addr
  · obtain ⟨L, a, R, -, -, -, -, hok⟩ := h.erase ds hk
    exact hok
  · rw [erase_of_notMem ds hk]
    exact h

theorem Ok.erase_sublist (h : Ok addr t) (ds : Rotations) (k : κ) : (t.erase addr ds k).1.items.Sublist t.items := by
  by_cases hk : k ∈ t.items.map addr
  · obtain ⟨L, a, R, hitems, -, hrest, -, -⟩ := h.erase ds hk
    rw [hrest, hitems]
    simp
  · rw [erase_of_notMem ds hk]

theorem Ok.mem_erase (h : Ok addr t) (ds : Rotations) (k : κ) {y : α} :
    y ∈ (t.erase addr ds k).1.items ↔ y ∈ t.items ∧ addr y ≠ k := by
  by_cases hk : k ∈ t.items.map addr
  · obtain ⟨L, a, R, hitems, rfl, hrest, -, -⟩ := h.erase ds hk
    have hnodup := h.nodup
    rw [hitems, (perm_middle.map addr).nodup_iff, map_cons, nodup_cons] at hnodup
    rw [hrest, hitems, perm_middle.mem_iff, mem_cons]
    constructor
    · intro hy
      exact ⟨.inr hy, fun heq => hnodup.1 (heq ▸ mem_map_of_mem hy)⟩
    · rintro ⟨rfl | hy, hne⟩
      · exact absurd rfl hne
      · exact hy
  · rw [erase_of_notMem ds hk]
    exact ⟨fun hy => ⟨hy, fun heq => hk (heq ▸ mem_map_of_mem hy)⟩, And.left⟩

/-- What is first after a removal is the second result, or what was first before. -/
theorem Ok.erase_leftmost (h : Ok addr t) (ds : Rotations) (k : κ) :
    (t.erase addr ds k).1.leftmost = if t.leftmost.map addr = some k then (t.erase addr ds k).2 else t.leftmost := by
  unfold CTree.erase
  split
  · next hs =>
    rw [if_neg]
    rw [h.first]
    intro hfirst
    obtain ⟨a, ha, haddr⟩ := Option.map_eq_some_iff.1 hfirst
    have hno := locate_none hs a (mem_of_mem_head? ha)
    simp [haddr] at hno
  · split <;> rfl

theorem erase_snd_of_ne (ds : Rotations) (hne : t.leftmost.map addr ≠ some k) : (t.erase addr ds k).2 = none := by
  unfold erase
  split
  · rfl
  · rw [if_neg hne]

end CTree

end KernelSched.CachedTree
