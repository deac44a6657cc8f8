import Mathlib.Order.MinMax
import Mathlib.Data.List.Basic

/-!
# Binary trees that cache a value of their subtrees

Each node of an `ATree α β` holds a payload and a cached value, computed (`c`) from the payload and the cached values of
the two children. Trees are changed through their zipper: a subtree and the frames above it. Three ways of repairing the
cache after a change are given, and all of them keep every cached value right (`Aug`):

- `propagate` recomputes the nodes above the change and stops at the first whose value does not change
  (`aug_propagate`): below that node all is recomputed, above it nothing has changed;
- `rotateAt` hands the cached value of the old root of a rotation to the new one and recomputes the old root
  (`aug_rotateAt`); this needs the computation to be associative (`Law`), the other changes do not;
- `eraseAt` unlinks a node, moving its successor to its place when it has two children (`aug_eraseAt`).

`toList` lists the payloads in order; every operation is described by its effect on that list, and a computation that
takes minima caches the minimum of the subtree (`aug_least`).
-/

namespace KernelSched.AugTree

open List (mem_cons mem_append)

/-- A binary tree with a payload and a cached value at each node. -/
inductive ATree (α β : Type) where
  | nil
  | node (l : ATree α β) (a : α) (m : β) (r : ATree α β)
  deriving Repr, DecidableEq

/-- A parent without one of its children. -/
inductive Frame (α β : Type) where
  | left (a : α) (m : β) (r : ATree α β)
  | right (l : ATree α β) (a : α) (m : β)

/-- The two children of a node, and the two directions of a rotation. -/
inductive Side where
  | left
  | right
  deriving Repr, DecidableEq

variable {α β : Type} {t : ATree α β} {a : α} {m : β}

namespace ATree

def aug? : ATree α β → Option β
  | nil => none
  | node _ _ m _ => some m

def toList : ATree α β → List α
  | nil => []
  | node l a _ r => l.toList ++ a :: r.toList

end ATree

open ATree

theorem aug_isSome_of_mem (h : a ∈ t.toList) : ∃ m, m ∈ t.aug? := by
  cases t with
  | nil => simp [toList] at h
  | node l b m r => exact ⟨m, rfl⟩

/-- All nodes of a tree, each with what is below it. -/
def subtrees : ATree α β → List (ATree α β)
  | nil => []
  | node l a m r => node l a m r :: (subtrees l ++ subtrees r)

theorem mem_subtrees_self (h : m ∈ t.aug?) : t ∈ subtrees t := by
  cases t with
  | nil => cases h
  | node l a m' r => exact List.mem_cons_self

theorem subtrees_trans : ∀ {t s u : ATree α β}, s ∈ subtrees t → u ∈ subtrees s → u ∈ subtrees t
  | nil, _, _, h, _ => by simp [subtrees] at h
  | node l a m r, s, u, h, hu => by
    simp only [subtrees, mem_cons, mem_append] at h
    rcases h with rfl | h | h
    · exact hu
    · exact List.mem_cons_of_mem _ (List.mem_append_left _ (subtrees_trans h hu))
    · exact List.mem_cons_of_mem _ (List.mem_append_right _ (subtrees_trans h hu))

theorem mem_of_subtree : ∀ {t s : ATree α β}, s ∈ subtrees t → ∀ a ∈ s.toList, a ∈ t.toList
  | nil, _, h, _, _ => by simp [subtrees] at h
  | node l b m r, s, h, a, ha => by
    simp only [subtrees, mem_cons, mem_append] at h
    simp only [toList, mem_append, mem_cons]
    rcases h with rfl | h | h
    · simpa [toList] using ha
    · exact .inl (mem_of_subtree h a ha)
    · exact .inr (.inr (mem_of_subtree h a ha))

/-! ## Zippers -/

def Frame.fill : Frame α β → ATree α β → ATree α β
  | .left a m r, t => node t a m r
  | .right l a m, t => node l a m t

def Frame.cached : Frame α β → β
  | .left _ m _ => m
  | .right _ _ m => m

/-- The whole tree: `t` under the frames of `k`, innermost first. -/
def plug : ATree α β → List (Frame α β) → ATree α β
  | t, [] => t
  | t, f :: k => plug (f.fill t) k

/-- The payloads before the hole. -/
def lefts : List (Frame α β) → List α
  | [] => []
  | .left _ _ _ :: k => lefts k
  | .right l a _ :: k => lefts k ++ l.toList ++ [a]

/-- The payloads after the hole. -/
def rights : List (Frame α β) → List α
  | [] => []
  | .left a _ r :: k => a :: r.toList ++ rights k
  | .right _ _ _ :: k => rights k

theorem toList_plug : ∀ (k : List (Frame α β)) (t : ATree α β), (plug t k).toList = lefts k ++ t.toList ++ rights k
  | [], t => by simp [plug, lefts, rights]
  | .left a m r :: k, t => by
    rw [plug, toList_plug k]
    simp [Frame.fill, toList, lefts, rights]
  | .right l a m :: k, t => by
    rw [plug, toList_plug k]
    simp [Frame.fill, toList, lefts, rights]

/-! ## Repairing the cache -/

section

variable (c : α → Option β → Option β → β)

def refresh : ATree α β → ATree α β
  | nil => nil
  | node l a _ r => node l a (c a l.aug? r.aug?) r

/-- Recompute the frames above `t`, up to the first one whose value stays the same. -/
def propagate [DecidableEq β] : ATree α β → List (Frame α β) → ATree α β
  | t, [] => t
  | t, f :: k =>
    let n := refresh c (f.fill t)
    if n.aug? = some f.cached then plug n k else propagate n k

/-- The same, starting at the root of `t` itself. -/
def propagateFrom [DecidableEq β] (t : ATree α β) (k : List (Frame α β)) : ATree α β :=
  let n := refresh c t
  if n.aug? = t.aug? then plug n k else propagate c n k

def rotateLeft : ATree α β → ATree α β
  | node l a m (node rl b _ rr) => node (node l a (c a l.aug? rl.aug?) rl) b m rr
  | t => t

def rotateRight : ATree α β → ATree α β
  | node (node ll b _ lr) a m r => node ll b m (node lr a (c a lr.aug? r.aug?) r)
  | t => t

def rotateAt : List Side → Side → ATree α β → ATree α β
  | [], .left, t => rotateLeft c t
  | [], .right, t => rotateRight c t
  | _ :: _, _, nil => nil
  | .left :: p, d, node l a m r => node (rotateAt p d l) a m r
  | .right :: p, d, node l a m r => node l a m (rotateAt p d r)

def rebalance (ds : List (List Side × Side)) (t : ATree α β) : ATree α β :=
  ds.foldl (fun t d => rotateAt c d.1 d.2 t) t

/-! ### Payloads -/

theorem toList_refresh (t : ATree α β) : (refresh c t).toList = t.toList := by cases t <;> rfl

theorem toList_propagate [DecidableEq β] : ∀ (k : List (Frame α β)) (t : ATree α β),
    (propagate c t k).toList = lefts k ++ t.toList ++ rights k
  | [], t => by simp [propagate, lefts, rights]
  | f :: k, t => by
    rw [← toList_plug, plug, toList_plug]
    simp only [propagate]
    split
    · rw [toList_plug, toList_refresh]
    · rw [toList_propagate k, toList_refresh]

theorem toList_propagateFrom [DecidableEq β] (t : ATree α β) (k : List (Frame α β)) :
    (propagateFrom c t k).toList = lefts k ++ t.toList ++ rights k := by
  simp only [propagateFrom]
  split
  · rw [toList_plug, toList_refresh]
  · rw [toList_propagate, toList_refresh]

theorem toList_rotateLeft (t : ATree α β) : (rotateLeft c t).toList = t.toList := by
  unfold rotateLeft
  split <;> simp [toList]

theorem toList_rotateRight (t : ATree α β) : (rotateRight c t).toList = t.toList := by
  unfold rotateRight
  split <;> simp [toList]

theorem toList_rotateAt : ∀ (p : List Side) (d : Side) (t : ATree α β), (rotateAt c p d t).toList = t.toList
  | [], .left, t => by rw [rotateAt, toList_rotateLeft]
  | [], .right, t => by rw [rotateAt, toList_rotateRight]
  | _ :: _, _, nil => by simp [rotateAt]
  | .left :: p, d, node l a m r => by simp [rotateAt, toList, toList_rotateAt p d l]
  | .right :: p, d, node l a m r => by simp [rotateAt, toList, toList_rotateAt p d r]

theorem toList_rebalance (ds : List (List Side × Side)) (t : ATree α β) : (rebalance c ds t).toList = t.toList := by
  unfold rebalance
  induction ds generalizing t with
  | nil => rfl
  | cons d ds ih => rw [List.foldl_cons, ih, toList_rotateAt]

/-! ### Correct caches -/

/-- Every cached value is the computation at its node. -/
def Aug : ATree α β → Prop
  | nil => True
  | node l a m r => Aug l ∧ Aug r ∧ m = c a l.aug? r.aug?

/-- The sibling is right, and so is the cached value when the hole has the value `x`. -/
def Frame.Aug : Frame α β → Option β → Prop
  | .left a m r, x => AugTree.Aug c r ∧ m = c a x r.aug?
  | .right l a m, x => AugTree.Aug c l ∧ m = c a l.aug? x

/-- The frames are right when the hole has the value `x`. -/
def CtxAug : Option β → List (Frame α β) → Prop
  | _, [] => True
  | x, f :: k => f.Aug c x ∧ CtxAug (some f.cached) k

variable {c}

theorem Aug.subtree : ∀ {t s : ATree α β}, Aug c t → s ∈ subtrees t → Aug c s
  | nil, _, _, h => by simp [subtrees] at h
  | node l a m r, s, ht, h => by
    simp only [subtrees, mem_cons, mem_append] at h
    rcases h with rfl | h | h
    · exact ht
    · exact Aug.subtree ht.1 h
    · exact Aug.subtree ht.2.1 h

theorem aug_plug : ∀ {k : List (Frame α β)} {t : ATree α β}, Aug c (plug t k) ↔ Aug c t ∧ CtxAug c t.aug? k
  | [], t => by simp [plug, CtxAug]
  | .left a m r :: k, t => by
    rw [plug, aug_plug (k := k)]
    simp [Frame.fill, Aug, CtxAug, Frame.Aug, Frame.cached, aug?, and_assoc]
  | .right l a m :: k, t => by
    rw [plug, aug_plug (k := k)]
    simp only [Frame.fill, Aug, CtxAug, Frame.Aug, Frame.cached, aug?]
    tauto

theorem aug_refresh_fill {f : Frame α β} {x : Option β} (ht : Aug c t) (hf : f.Aug c x) :
    Aug c (refresh c (f.fill t)) := by
  cases f with
  | left a m r => exact ⟨ht, hf.1, rfl⟩
  | right l a m => exact ⟨hf.1, ht, rfl⟩

/-- The early exit is sound: the frames only have to have been right before the change, for whatever value `x` the hole
had then. -/
theorem aug_propagate [DecidableEq β] : ∀ {k : List (Frame α β)} {t : ATree α β} {x : Option β}, Aug c t → CtxAug c x k →
    Aug c (propagate c t k)
  | [], _, _, ht, _ => ht
  | f :: k, t, x, ht, hk => by
    have hn := aug_refresh_fill ht hk.1
    simp only [propagate]
    split
    · rename_i he
      exact aug_plug.2 ⟨hn, he ▸ hk.2⟩
    · exact aug_propagate hn hk.2

theorem aug_propagateFrom [DecidableEq β] {l r : ATree α β} {k : List (Frame α β)} (hl : Aug c l) (hr : Aug c r)
    (hk : CtxAug c (some m) k) : Aug c (propagateFrom c (node l a m r) k) := by
  have hn : Aug c (refresh c (node l a m r)) := ⟨hl, hr, rfl⟩
  simp only [propagateFrom]
  split
  · rename_i he
    exact aug_plug.2 ⟨hn, he ▸ hk⟩
  · exact aug_propagate hn hk

end

/-! ## Rotations -/

section

variable {c : α → Option β → Option β → β} {P : α → Prop} {Q : β → Prop}

/-- What a rotation needs of the computation, on payloads with `P` and values with `Q`. -/
structure Law (c : α → Option β → Option β → β) (P : α → Prop) (Q : β → Prop) : Prop where
  closed : ∀ {a : α} {x y : Option β}, P a → (∀ u ∈ x, Q u) → (∀ u ∈ y, Q u) → Q (c a x y)
  assoc : ∀ {a b : α} {x y z : Option β}, P a → P b → (∀ u ∈ x, Q u) → (∀ u ∈ y, Q u) → (∀ u ∈ z, Q u) →
    c b (some (c a x y)) z = c a x (some (c b y z))

theorem Law.aug (h : Law c P Q) : ∀ {t : ATree α β}, Aug c t → (∀ a ∈ t.toList, P a) → ∀ m ∈ t.aug?, Q m
  | nil, _, _, _, hm => by simp [aug?] at hm
  | node l a m r, ht, hp, _, hm => by
    simp only [aug?, Option.mem_def, Option.some.injEq] at hm
    rw [← hm, ht.2.2]
    simp only [toList, mem_append, mem_cons] at hp
    exact h.closed (hp a (.inr (.inl rfl))) (h.aug ht.1 fun b hb => hp b (.inl hb))
      (h.aug ht.2.1 fun b hb => hp b (.inr (.inr hb)))

theorem aug_rotateLeft (h : Law c P Q) (ht : Aug c t) (hp : ∀ a ∈ t.toList, P a) :
    Aug c (rotateLeft c t) ∧ (rotateLeft c t).aug? = t.aug? := by
  unfold rotateLeft
  split
  · rename_i l a m rl b mb rr
    obtain ⟨hl, ⟨hrl, hrr, hb⟩, hm⟩ := ht
    simp only [toList, mem_append, mem_cons] at hp
    have ql := h.aug hl fun x hx => hp x (by tauto)
    have qrl := h.aug hrl fun x hx => hp x (by tauto)
    have qrr := h.aug hrr fun x hx => hp x (by tauto)
    refine ⟨⟨⟨hl, hrl, rfl⟩, hrr, ?_⟩, rfl⟩
    rw [hm, aug?, aug?, hb]
    exact (h.assoc (hp a (by tauto)) (hp b (by tauto)) ql qrl qrr).symm
  · exact ⟨ht, rfl⟩

theorem aug_rotateRight (h : Law c P Q) (ht : Aug c t) (hp : ∀ a ∈ t.toList, P a) :
    Aug c (rotateRight c t) ∧ (rotateRight c t).aug? = t.aug? := by
  unfold rotateRight
  split
  · rename_i ll b mb lr a m r
    obtain ⟨⟨hll, hlr, hb⟩, hr, hm⟩ := ht
    simp only [toList, mem_append, mem_cons] at hp
    have qll := h.aug hll fun x hx => hp x (by tauto)
    have qlr := h.aug hlr fun x hx => hp x (by tauto)
    have qr := h.aug hr fun x hx => hp x (by tauto)
    refine ⟨⟨hll, ⟨hlr, hr, rfl⟩, ?_⟩, rfl⟩
    rw [hm, aug?, aug?, hb]
    exact h.assoc (hp b (by tauto)) (hp a (by tauto)) qll qlr qr
  · exact ⟨ht, rfl⟩

theorem aug_rotateAt (h : Law c P Q) : ∀ (p : List Side) (d : Side) {t : ATree α β}, Aug c t →
    (∀ a ∈ t.toList, P a) → Aug c (rotateAt c p d t) ∧ (rotateAt c p d t).aug? = t.aug?
  | [], .left, _, ht, hp => aug_rotateLeft h ht hp
  | [], .right, _, ht, hp => aug_rotateRight h ht hp
  | _ :: _, _, nil, ht, _ => ⟨ht, rfl⟩
  | .left :: p, d, node l a m r, ht, hp => by
    obtain ⟨hl, he⟩ := aug_rotateAt h p d ht.1 fun b hb => hp b (by simp [toList, hb])
    exact ⟨⟨hl, ht.2.1, he ▸ ht.2.2⟩, rfl⟩
  | .right :: p, d, node l a m r, ht, hp => by
    obtain ⟨hr, he⟩ := aug_rotateAt h p d ht.2.1 fun b hb => hp b (by simp [toList, hb])
    exact ⟨⟨ht.1, hr, he ▸ ht.2.2⟩, rfl⟩

theorem aug_rebalance (h : Law c P Q) (ds : List (List Side × Side)) (ht : Aug c t)
    (hp : ∀ a ∈ t.toList, P a) : Aug c (rebalance c ds t) := by
  unfold rebalance
  induction ds generalizing t with
  | nil => exact ht
  | cons d ds ih =>
    exact ih (aug_rotateAt h d.1 d.2 ht hp).1 fun a ha => hp a (by rwa [toList_rotateAt] at ha)

end

/-! ## Linking a leaf -/

section

variable (c : α → Option β → Option β → β) (less : α → α → Bool)

/-- The frames above the leaf position of `x`: left of the payloads it is less than, right of the others. -/
def descend (x : α) : ATree α β → List (Frame α β) → List (Frame α β)
  | nil, k => k
  | node l a m r, k => if less x a then descend x l (.left a m r :: k) else descend x r (.right l a m :: k)

/-- The descent only went left. -/
def leftmost (x : α) : ATree α β → Bool
  | nil => true
  | node l a _ _ => if less x a then leftmost x l else false

/-- Add a leaf with the cached value `m`, and repair the frames above it. -/
def link [DecidableEq β] (x : α) (m : β) (t : ATree α β) : ATree α β :=
  propagate c (node nil x m nil) (descend less x t [])

variable {c}

theorem plug_descend (x : α) : ∀ (t : ATree α β) (k : List (Frame α β)), plug nil (descend less x t k) = plug t k
  | nil, k => rfl
  | node l a m r, k => by
    unfold descend
    split
    · rw [plug_descend x l]; rfl
    · rw [plug_descend x r]; rfl

/-- The leaf position cuts the payloads in two; nothing precedes it exactly when the descent only went left. -/
theorem descend_split (x : α) : ∀ (t : ATree α β) (k : List (Frame α β)), ∃ L R, t.toList = L ++ R ∧
    lefts (descend less x t k) = lefts k ++ L ∧ rights (descend less x t k) = R ++ rights k ∧
    (leftmost less x t = true ↔ L = [])
  | nil, k => ⟨[], [], by simp [toList, descend, leftmost]⟩
  | node l a m r, k => by
    unfold descend leftmost
    split
    · obtain ⟨L, R, h, hl, hr, hm⟩ := descend_split x l (.left a m r :: k)
      exact ⟨L, R ++ a :: r.toList, by simp [toList, h], by simp [hl, lefts], by simp [hr, rights], hm⟩
    · obtain ⟨L, R, h, hl, hr, -⟩ := descend_split x r (.right l a m :: k)
      exact ⟨l.toList ++ a :: L, R, by simp [toList, h], by simp [hl, lefts], by simp [hr, rights], by simp⟩

theorem toList_link [DecidableEq β] (x : α) (m : β) (t : ATree α β) : ∃ L R, t.toList = L ++ R ∧
    (link c less x m t).toList = L ++ x :: R ∧ (leftmost less x t = true ↔ L = []) := by
  obtain ⟨L, R, h, hl, hr, hm⟩ := descend_split less x t []
  refine ⟨L, R, h, ?_, hm⟩
  rw [link, toList_propagate, hl, hr]
  simp [lefts, rights, toList]

/-- Linking a leaf keeps the cache: the frames were right around the empty position. -/
theorem aug_link [DecidableEq β] {x : α} (ht : Aug c t) (hm : m = c x none none) : Aug c (link c less x m t) := by
  have h : Aug c (plug nil (descend less x t [])) := by rw [plug_descend]; exact ht
  exact aug_propagate ⟨trivial, trivial, hm⟩ (aug_plug.1 h).2

variable {less}

/-- In a sorted tree the leaf goes after the payloads with a key at most its own and before the others. -/
theorem descend_sorted {κ : Type} [LinearOrder κ] {key : α → κ} {x : α} :
    ∀ {t : ATree α β} (k : List (Frame α β)), (∀ a ∈ t.toList, less x a = true ↔ key x < key a) →
      t.toList.Pairwise (fun a b => key a ≤ key b) → ∃ L R, t.toList = L ++ R ∧
      lefts (descend less x t k) = lefts k ++ L ∧ rights (descend less x t k) = R ++ rights k ∧
      (∀ a ∈ L, key a ≤ key x) ∧ ∀ a ∈ R, key x ≤ key a
  | nil, k, _, _ => ⟨[], [], by simp [toList, descend]⟩
  | node l a m r, k, hx, hs => by
    simp only [toList, List.pairwise_append, List.pairwise_cons, mem_cons] at hs
    obtain ⟨hl, ⟨har, hr⟩, hlr⟩ := hs
    have ha := hx a (by simp [toList])
    unfold descend
    split
    · rename_i h
      obtain ⟨L, R, e, el, er, hL, hR⟩ := descend_sorted (.left a m r :: k) (t := l)
        (fun b hb => hx b (by simp [toList, hb])) hl
      refine ⟨L, R ++ a :: r.toList, by simp [toList, e], by simp [el, lefts], by simp [er, rights], hL, ?_⟩
      have hxa := (ha.1 h).le
      simp only [mem_append, mem_cons]
      rintro b (hb | rfl | hb)
      · exact hR b hb
      · exact hxa
      · exact hxa.trans (har b hb)
    · rename_i h
      obtain ⟨L, R, e, el, er, hL, hR⟩ := descend_sorted (.right l a m :: k) (t := r)
        (fun b hb => hx b (by simp [toList, hb])) hr
      refine ⟨l.toList ++ a :: L, R, by simp [toList, e], by simp [el, lefts], by simp [er, rights], ?_, hR⟩
      have hax : key a ≤ key x := not_lt.1 (mt ha.2 h)
      simp only [mem_append, mem_cons]
      rintro b (hb | rfl | hb)
      · exact (hlr b hb a (.inl rfl)).trans hax
      · exact hax
      · exact hL b hb

theorem sorted_link [DecidableEq β] {κ : Type} [LinearOrder κ] {key : α → κ} {x : α}
    (hx : ∀ a ∈ t.toList, less x a = true ↔ key x < key a) (hs : t.toList.Pairwise (fun a b => key a ≤ key b)) :
    (link c less x m t).toList.Pairwise (fun a b => key a ≤ key b) := by
  obtain ⟨L, R, e, el, er, hL, hR⟩ := descend_sorted [] hx hs
  rw [link, toList_propagate, el, er]
  rw [e, List.pairwise_append] at hs
  simp only [lefts, rights, toList, List.nil_append, List.append_nil, List.append_assoc, List.singleton_append,
    List.pairwise_append, List.pairwise_cons, mem_cons]
  refine ⟨hs.1, ⟨hR, hs.2.1⟩, fun a ha b hb => ?_⟩
  rcases hb with rfl | hb
  · exact hL a ha
  · exact hs.2.2 a ha b hb

end

/-! ## Finding a node -/

/-- A node of a tree: its children, its payload and cached value, and the frames above it. -/
structure Spot (α β : Type) where
  l : ATree α β
  a : α
  m : β
  r : ATree α β
  k : List (Frame α β)

def Spot.tree (s : Spot α β) : ATree α β := plug (node s.l s.a s.m s.r) s.k

theorem Spot.toList_tree (s : Spot α β) : s.tree.toList = lefts s.k ++ (s.l.toList ++ s.a :: s.r.toList) ++
    rights s.k := by
  rw [Spot.tree, toList_plug]; rfl

section

variable {p : α → Bool}

/-- The node with a payload that satisfies `p`. -/
def locate (p : α → Bool) : ATree α β → List (Frame α β) → Option (Spot α β)
  | nil, _ => none
  | node l a m r, k =>
    if p a then some ⟨l, a, m, r, k⟩ else (locate p l (.left a m r :: k)).or (locate p r (.right l a m :: k))

theorem locate_some : ∀ {t : ATree α β} {k : List (Frame α β)} {s : Spot α β}, locate p t k = some s →
    s.tree = plug t k ∧ p s.a = true
  | nil, _, _, h => by simp [locate] at h
  | node l a m r, k, s, h => by
    unfold locate at h
    split at h
    · rename_i ha
      cases h
      exact ⟨rfl, ha⟩
    · rcases Option.or_eq_some_iff.1 h with h | ⟨-, h⟩
      · exact locate_some (t := l) h
      · exact locate_some (t := r) h

theorem locate_none : ∀ {t : ATree α β} {k : List (Frame α β)}, locate p t k = none → ∀ a ∈ t.toList, p a = false
  | nil, _, _, _, h => by simp [toList] at h
  | node l a m r, k, h, b, hb => by
    unfold locate at h
    split at h
    · cases h
    · rename_i ha
      rw [Option.or_eq_none_iff] at h
      simp only [toList, mem_append, mem_cons] at hb
      rcases hb with hb | rfl | hb
      · exact locate_none h.1 b hb
      · simpa using ha
      · exact locate_none h.2 b hb

end

/-! ## Changing and unlinking a node -/

section

variable (c : α → Option β → Option β → β)

/-- Put `a` in place of the payload, and repair the cache from the node on. -/
def setAt [DecidableEq β] (s : Spot α β) (a : α) : ATree α β := propagateFrom c (node s.l a s.m s.r) s.k

/-- The least node of `node l a m r`: its payload, its right child and the frames above it. -/
def splitMin : ATree α β → α → β → ATree α β → List (Frame α β) → α × ATree α β × List (Frame α β)
  | nil, a, _, r, k => (a, r, k)
  | node ll b mb lr, a, m, r, k => splitMin ll b mb lr (.left a m r :: k)

/-- Unlink a node. With two children its successor takes its place and its cached value; the frames the successor is
taken from are repaired first, then the ones from the successor on. -/
def eraseAt [DecidableEq β] (s : Spot α β) : ATree α β :=
  match s.l, s.r with
  | nil, r => propagate c r s.k
  | node ll b mb lr, nil => propagate c (node ll b mb lr) s.k
  | node ll b mb lr, node rl y my rr =>
    let n := splitMin rl y my rr []
    propagateFrom c (node (node ll b mb lr) n.1 s.m (propagate c n.2.1 n.2.2)) s.k

/-- The payload after a node with right child `r` under `k`. -/
def next? : ATree α β → List (Frame α β) → Option α
  | node rl y my rr, _ => some (splitMin rl y my rr []).1
  | nil, [] => none
  | nil, .left a _ _ :: _ => some a
  | nil, .right _ _ _ :: k => next? nil k

variable {c}

theorem toList_setAt [DecidableEq β] (s : Spot α β) (a : α) :
    (setAt c s a).toList = lefts s.k ++ (s.l.toList ++ a :: s.r.toList) ++ rights s.k := by
  rw [setAt, toList_propagateFrom]; rfl

theorem aug_setAt [DecidableEq β] {s : Spot α β} (h : Aug c s.tree) (a : α) : Aug c (setAt c s a) := by
  obtain ⟨⟨hl, hr, -⟩, hk⟩ := aug_plug.1 h
  exact aug_propagateFrom hl hr hk

theorem splitMin_plug : ∀ (l : ATree α β) (a : α) (m : β) (r : ATree α β) (k : List (Frame α β)),
    ∃ m', plug (node nil (splitMin l a m r k).1 m' (splitMin l a m r k).2.1) (splitMin l a m r k).2.2 =
      plug (node l a m r) k
  | nil, a, m, r, k => ⟨m, rfl⟩
  | node ll b mb lr, a, m, r, k => by
    obtain ⟨m', h⟩ := splitMin_plug ll b mb lr (.left a m r :: k)
    exact ⟨m', by rw [splitMin, h]; rfl⟩

theorem splitMin_lefts : ∀ (l : ATree α β) (a : α) (m : β) (r : ATree α β) (k : List (Frame α β)),
    lefts (splitMin l a m r k).2.2 = lefts k
  | nil, _, _, _, _ => rfl
  | node ll b mb lr, a, m, r, k => by rw [splitMin, splitMin_lefts]; rfl

theorem splitMin_toList (l : ATree α β) (a : α) (m : β) (r : ATree α β) :
    (splitMin l a m r []).1 :: ((splitMin l a m r []).2.1.toList ++ rights (splitMin l a m r []).2.2) =
      (node l a m r).toList := by
  obtain ⟨m', h⟩ := splitMin_plug l a m r []
  have h' := congrArg toList h
  rw [toList_plug, splitMin_lefts] at h'
  simpa [lefts, toList, plug] using h'

theorem toList_eraseAt [DecidableEq β] (s : Spot α β) :
    (eraseAt c s).toList = lefts s.k ++ (s.l.toList ++ s.r.toList) ++ rights s.k := by
  obtain ⟨l, a, m, r, k⟩ := s
  cases l with
  | nil => rw [eraseAt, toList_propagate]; simp [toList]
  | node ll b mb lr =>
    cases r with
    | nil => rw [eraseAt, toList_propagate]; simp [toList]
    | node rl y my rr =>
      rw [eraseAt, toList_propagateFrom, ← splitMin_toList rl y my rr]
      simp [toList, toList_propagate, splitMin_lefts, lefts]

/-- Unlinking keeps the cache: both repairs start from frames that were right before. -/
theorem aug_eraseAt [DecidableEq β] {s : Spot α β} (h : Aug c s.tree) : Aug c (eraseAt c s) := by
  obtain ⟨l, a, m, r, k⟩ := s
  obtain ⟨⟨hl, hr, -⟩, hk⟩ := aug_plug.1 h
  cases l with
  | nil => exact aug_propagate hr hk
  | node ll b mb lr =>
    cases r with
    | nil => exact aug_propagate hl hk
    | node rl y my rr =>
      obtain ⟨m', hs⟩ := splitMin_plug rl y my rr []
      have hs' : Aug c (plug (node rl y my rr) []) := hr
      rw [← hs] at hs'
      obtain ⟨⟨-, hc, -⟩, hk'⟩ := aug_plug.1 hs'
      exact aug_propagateFrom hl (aug_propagate hc hk') hk

theorem next?_eq : ∀ (r : ATree α β) (k : List (Frame α β)), next? r k = (r.toList ++ rights k).head?
  | node rl y my rr, k => by
    rw [← splitMin_toList rl y my rr]
    cases k <;> rfl
  | nil, [] => rfl
  | nil, .left _ _ _ :: _ => rfl
  | nil, .right _ _ _ :: k => by rw [next?, next?_eq nil k]; rfl

end

/-! ## Computations that take minima -/

section

variable {κ : Type} [LinearOrder κ] (own : α → β) (join : β → β → β)

/-- The value of the payload, then of the right child, then of the left child. -/
def minOf (a : α) (l r : Option β) : β :=
  let m := r.elim (own a) (join (own a))
  l.elim m (join m)

variable {own join} {P : α → Prop} {Q : β → Prop} {rk : β → κ}

/-- `join` is the minimum of a rank on the values with `Q`, and the payloads with `P` have such values. -/
structure MinLaw (own : α → β) (join : β → β → β) (P : α → Prop) (Q : β → Prop) (rk : β → κ) : Prop where
  own_mem : ∀ {a : α}, P a → Q (own a)
  join_mem : ∀ {x y : β}, Q x → Q y → Q (join x y)
  rk_join : ∀ {x y : β}, Q x → Q y → rk (join x y) = min (rk x) (rk y)
  rk_inj : ∀ {x y : β}, rk x = rk y → x = y

section

variable (h : MinLaw own join P Q rk)

include h

theorem MinLaw.closed {x y : Option β} (ha : P a) (hx : ∀ u ∈ x, Q u) (hy : ∀ u ∈ y, Q u) : Q (minOf own join a x y) := by
  have hr : Q (y.elim (own a) (join (own a))) := by
    cases y with
    | none => exact h.own_mem ha
    | some v => exact h.join_mem (h.own_mem ha) (hy v rfl)
  cases x with
  | none => exact hr
  | some u => exact h.join_mem hr (hx u rfl)

/-- The rank of the computed value, with `⊤`-free minima over the children present. -/
theorem MinLaw.rk_minOf {x y : Option β} (ha : P a) (hx : ∀ u ∈ x, Q u) (hy : ∀ u ∈ y, Q u) : rk (minOf own join a x y) =
      x.elim (y.elim (rk (own a)) fun v => min (rk (own a)) (rk v))
        fun u => min (y.elim (rk (own a)) fun v => min (rk (own a)) (rk v)) (rk u) := by
  have ho := h.own_mem ha
  cases x with
  | none =>
    cases y with
    | none => rfl
    | some v => exact h.rk_join ho (hy v rfl)
  | some u =>
    cases y with
    | none => exact h.rk_join ho (hx u rfl)
    | some v => exact (h.rk_join (h.join_mem ho (hy v rfl)) (hx u rfl)).trans (by rw [h.rk_join ho (hy v rfl)]; rfl)

theorem MinLaw.join_eq {x y : β} (hx : Q x) (hy : Q y) : join x y = x ∨ join x y = y := by
  rcases min_choice (rk x) (rk y) with e | e
  · exact .inl (h.rk_inj ((h.rk_join hx hy).trans e))
  · exact .inr (h.rk_inj ((h.rk_join hx hy).trans e))

theorem MinLaw.minOf_mem {x y : Option β} (ha : P a) (hx : ∀ u ∈ x, Q u) (hy : ∀ u ∈ y, Q u) :
    minOf own join a x y = own a ∨ minOf own join a x y ∈ x ∨ minOf own join a x y ∈ y := by
  have ho := h.own_mem ha
  have hr : y.elim (own a) (join (own a)) = own a ∨ y.elim (own a) (join (own a)) ∈ y := by
    cases y with
    | none => exact .inl rfl
    | some v => exact (h.join_eq ho (hy v rfl)).imp id fun e => congrArg some e.symm
  cases x with
  | none => exact hr.imp id .inr
  | some u =>
    rcases h.join_eq (h.closed (x := none) ha (by simp) hy) (hx u rfl) with e | e
    · exact hr.imp (e.trans ·) fun hm => .inr (by rw [minOf, Option.elim_some]; exact e ▸ hm)
    · exact .inr (.inl (congrArg some e.symm))

theorem MinLaw.minOf_le {x y : Option β} (ha : P a) (hx : ∀ u ∈ x, Q u)
    (hy : ∀ u ∈ y, Q u) : rk (minOf own join a x y) ≤ rk (own a) ∧ (∀ u ∈ x, rk (minOf own join a x y) ≤ rk u) ∧
      ∀ u ∈ y, rk (minOf own join a x y) ≤ rk u := by
  rw [h.rk_minOf ha hx hy]
  cases x <;> cases y <;> simp

theorem MinLaw.law : Law (minOf own join) P Q where
  closed := h.closed
  assoc := by
    intro a b x y z ha hb hx hy hz
    have h₁ : ∀ u ∈ some (minOf own join a x y), Q u := by rintro u ⟨⟩; exact h.closed ha hx hy
    have h₂ : ∀ u ∈ some (minOf own join b y z), Q u := by rintro u ⟨⟩; exact h.closed hb hy hz
    apply h.rk_inj
    rw [h.rk_minOf hb h₁ hz, h.rk_minOf ha hx h₂]
    simp only [Option.elim_some, h.rk_minOf ha hx hy, h.rk_minOf hb hy hz]
    cases x <;> cases y <;> cases z <;> simp [min_comm, min_left_comm]

end

/-- The cached value of a tree is one of the values of its payloads and has the least rank among them. -/
theorem aug_least (h : MinLaw own join P Q rk) : ∀ {t : ATree α β}, Aug (minOf own join) t →
    (∀ a ∈ t.toList, P a) → ∀ m ∈ t.aug?, m ∈ t.toList.map own ∧ ∀ a ∈ t.toList, rk m ≤ rk (own a)
  | nil, _, _, _, hm => by simp [aug?] at hm
  | node l a m r, ht, hp, m', hm => by
    simp only [aug?, Option.mem_def, Option.some.injEq] at hm
    subst hm
    obtain ⟨hl, hr, rfl⟩ := ht
    have pa : P a := hp a (by simp [toList])
    have pl : ∀ b ∈ l.toList, P b := fun b hb => hp b (by simp [toList, hb])
    have pr : ∀ b ∈ r.toList, P b := fun b hb => hp b (by simp [toList, hb])
    have il := aug_least h hl pl
    have ir := aug_least h hr pr
    have ql := h.law.aug hl pl
    have qr := h.law.aug hr pr
    obtain ⟨ha, hbl, hbr⟩ := h.minOf_le pa ql qr
    simp only [toList, List.map_append, List.map_cons, mem_append, mem_cons]
    refine ⟨?_, ?_⟩
    · rcases h.minOf_mem pa ql qr with e | e | e
      · exact .inr (.inl e)
      · exact .inl (il _ e).1
      · exact .inr (.inr (ir _ e).1)
    · rintro b (hb | rfl | hb)
      · obtain ⟨u, hu⟩ := aug_isSome_of_mem hb
        exact (hbl u hu).trans ((il u hu).2 b hb)
      · exact ha
      · obtain ⟨u, hu⟩ := aug_isSome_of_mem hb
        exact (hbr u hu).trans ((ir u hu).2 b hb)

end

end KernelSched.AugTree
