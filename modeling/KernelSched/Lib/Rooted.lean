import Mathlib.Data.List.Range
import Mathlib.Data.List.Perm.Lattice
import Mathlib.Algebra.BigOperators.Group.List.Basic

/-!
# Rooted trees by parent

The nodes are `0 … size - 1`, the root is `0`, and a node has a greater number than its parent, as when nodes are numbered
in the order they were made. `path` goes from a node up to the root, `walk` goes through the nodes under a node, depth
first, with one visitor on the way down and one on the way up.
-/

namespace KernelSched.Rooted

open List

/-- A tree, by the parent of each node. -/
structure Tree where
  size : Nat
  parent : Nat → Nat
  parent_lt : ∀ {g : Nat}, g ≠ 0 → parent g < g

namespace Tree

variable (T : Tree) {a b c g x : Nat} {p : Nat}

theorem root_induction {P : Nat → Prop} (zero : P 0) (step : ∀ g, g ≠ 0 → P (T.parent g) → P g) (g : Nat) : P g := by
  induction g using Nat.strong_induction_on with
  | _ g ih =>
    by_cases hg : g = 0
    · exact hg ▸ zero
    · exact step g hg (ih _ (T.parent_lt hg))

/-! ## Paths -/

/-- The first `n + 1` nodes from `g` upwards. -/
def pathAux : Nat → Nat → List Nat
  | 0, g => [g]
  | n + 1, g => if g = 0 then [0] else g :: pathAux n (T.parent g)

def path (g : Nat) : List Nat := T.pathAux g g

theorem pathAux_eq {m n : Nat} (hm : g ≤ m) (hn : g ≤ n) : T.pathAux m g = T.pathAux n g := by
  induction m generalizing n g with
  | zero =>
    obtain rfl : g = 0 := by omega
    cases n <;> rfl
  | succ m ih =>
    by_cases hg : g = 0
    · subst hg
      cases n <;> rfl
    · obtain ⟨n, rfl⟩ : ∃ k, n = k + 1 := ⟨n - 1, by omega⟩
      have hp := T.parent_lt hg
      simp only [pathAux, if_neg hg]
      rw [ih (n := n) (by omega) (by omega)]

@[simp] theorem path_zero : T.path 0 = [0] := rfl

theorem path_of_ne (hg : g ≠ 0) : T.path g = g :: T.path (T.parent g) := by
  have hp := T.parent_lt hg
  obtain ⟨n, rfl⟩ : ∃ n, g = n + 1 := ⟨g - 1, by omega⟩
  rw [path, pathAux, if_neg hg, path, T.pathAux_eq (m := n) (n := T.parent (n + 1)) (by omega) le_rfl]

theorem mem_path_iff : a ∈ T.path g ↔ a = g ∨ g ≠ 0 ∧ a ∈ T.path (T.parent g) := by
  by_cases hg : g = 0
  · subst hg; simp
  · rw [T.path_of_ne hg, mem_cons]
    simp [hg]

@[simp] theorem mem_path_self : g ∈ T.path g := T.mem_path_iff.2 (.inl rfl)

theorem zero_mem_path : 0 ∈ T.path g := by
  induction g using T.root_induction with
  | zero => exact T.mem_path_self
  | step g hg ih => exact T.mem_path_iff.2 (.inr ⟨hg, ih⟩)

theorem le_of_mem_path : a ∈ T.path g → a ≤ g := by
  induction g using T.root_induction with
  | zero => simp
  | step g hg ih =>
    intro h
    have hp := T.parent_lt hg
    rcases T.mem_path_iff.1 h with rfl | ⟨-, h⟩
    · exact le_rfl
    · exact (ih h).trans hp.le

theorem mem_path_trans (hab : a ∈ T.path b) : b ∈ T.path g → a ∈ T.path g := by
  induction g using T.root_induction with
  | zero =>
    intro h
    obtain rfl : b = 0 := by simpa using h
    exact hab
  | step g hg ih =>
    intro h
    rcases T.mem_path_iff.1 h with rfl | ⟨-, h⟩
    · exact hab
    · exact T.mem_path_iff.2 (.inr ⟨hg, ih h⟩)

theorem parent_mem_path (hg : g ≠ 0) : T.parent g ∈ T.path g :=
  T.mem_path_iff.2 (.inr ⟨hg, T.mem_path_self⟩)

theorem path_chain : a ∈ T.path g → b ∈ T.path g → a ∈ T.path b ∨ b ∈ T.path a := by
  induction g using T.root_induction with
  | zero =>
    intro ha hb
    obtain rfl : a = 0 := by simpa using ha
    exact .inl T.zero_mem_path
  | step g hg ih =>
    intro ha hb
    rcases T.mem_path_iff.1 ha with rfl | ⟨-, ha'⟩
    · exact .inr hb
    · rcases T.mem_path_iff.1 hb with rfl | ⟨-, hb'⟩
      · exact .inl ha
      · exact ih ha' hb'

/-- The nodes strictly above `g`, from its parent upwards. -/
def above (g : Nat) : List Nat := if g = 0 then [] else T.path (T.parent g)

@[simp] theorem above_zero : T.above 0 = [] := rfl

theorem above_of_ne (hg : g ≠ 0) : T.above g = T.path (T.parent g) := if_neg hg

theorem path_eq_cons : T.path g = g :: T.above g := by
  by_cases hg : g = 0
  · subst hg; rfl
  · rw [T.path_of_ne hg, T.above_of_ne hg]

theorem above_head (h : (T.above g).head? = some p) : g ≠ 0 ∧ T.parent g = p := by
  by_cases hg : g = 0
  · subst hg
    cases h
  · rw [T.above_of_ne hg, T.path_eq_cons] at h
    exact ⟨hg, Option.some.inj h⟩

theorem above_head_of_ne (hg : g ≠ 0) : (T.above g).head? = some (T.parent g) := by
  rw [T.above_of_ne hg, T.path_eq_cons]
  rfl

theorem above_ne_nil (hg : g ≠ 0) : T.above g ≠ [] := by
  rw [T.above_of_ne hg, T.path_eq_cons]
  exact cons_ne_nil _ _

/-! ## Climbs that stop -/

theorem not_mem_path_parent (hg : g ≠ 0) (ha : a ∈ T.path (T.parent g)) : g ∉ T.path a := fun hmem => by
  have hlt := T.parent_lt hg
  have hle := T.le_of_mem_path ha
  have hle' := T.le_of_mem_path hmem
  omega

theorem path_nodup : (T.path g).Nodup := by
  induction g using T.root_induction with
  | zero => simp
  | step g hg ih =>
    rw [T.path_of_ne hg, nodup_cons]
    exact ⟨T.not_mem_path_parent hg T.mem_path_self, ih⟩

theorem dropWhile_path (ha : a ∈ T.path g) : (T.path g).dropWhile (fun x => decide (x ≠ a)) = T.path a := by
  induction g using T.root_induction with
  | zero =>
    obtain rfl : a = 0 := by simpa using ha
    simp
  | step g hg ih =>
    by_cases hag : a = g
    · subst hag
      rw [T.path_of_ne hg]
      simp
    · have ha' : a ∈ T.path (T.parent g) := (T.mem_path_iff.1 ha).elim (absurd · hag) And.right
      rw [T.path_of_ne hg, dropWhile_cons_of_pos (by simp [Ne.symm hag]), ih ha']

/-- A climb from `g` that stops at `a` passes the nodes of the path that are not above `a`. -/
theorem mem_takeWhile_path (ha : a ∈ T.path g) :
    x ∈ (T.path g).takeWhile (fun y => decide (y ≠ a)) ↔ x ∈ T.path g ∧ x ∉ T.path a := by
  have hsplit := takeWhile_append_dropWhile (p := fun y => decide (y ≠ a)) (l := T.path g)
  rw [T.dropWhile_path ha] at hsplit
  have hdisj := disjoint_of_nodup_append (hsplit ▸ T.path_nodup (g := g))
  constructor
  · intro hx
    refine ⟨?_, fun hxa => hdisj hx hxa⟩
    rw [← hsplit]
    exact mem_append_left _ hx
  · rintro ⟨hx, hxa⟩
    rw [← hsplit, mem_append] at hx
    exact hx.resolve_right hxa

section

variable {S : Nat → Bool} (hS : ∀ x y, S x = true → y ∈ T.path x → S y = true)

include hS

/-- A climb that stops in a set that has, with a node, all those above it passes the nodes that are not in it. -/
theorem mem_takeWhile_closed : x ∈ (T.path g).takeWhile (fun y => !S y) ↔ x ∈ T.path g ∧ S x = false := by
  induction g using T.root_induction with
  | zero => cases h0 : S 0 <;> simp [h0] <;> rintro rfl <;> exact h0
  | step g hg ih =>
    rw [T.path_of_ne hg]
    cases hSg : S g with
    | true =>
      rw [takeWhile_cons_of_neg (by simp [hSg]), ← T.path_of_ne hg]
      simp only [not_mem_nil, false_iff, not_and, Bool.not_eq_false]
      exact fun hx => hS g x hSg hx
    | false =>
      rw [takeWhile_cons_of_pos (by simp [hSg]), mem_cons, mem_cons, ih]
      constructor
      · rintro (rfl | ⟨hx, hx'⟩)
        · exact ⟨.inl rfl, hSg⟩
        · exact ⟨.inr hx, hx'⟩
      · rintro ⟨rfl | hx, hx'⟩
        · exact .inl rfl
        · exact .inr ⟨hx, hx'⟩

theorem find_path (hc : (T.path g).find? S = some c) : c ∈ T.path g ∧ ∀ x ∈ T.path g, S x = true ↔ x ∈ T.path c := by
  refine ⟨mem_of_find?_eq_some hc, ?_⟩
  induction g using T.root_induction with
  | zero =>
    intro x hx
    obtain rfl : x = 0 := by simpa using hx
    have hSc := List.find?_some hc
    obtain rfl : c = 0 := by simpa using mem_of_find?_eq_some hc
    simp [hSc]
  | step g hg ih =>
    rw [T.path_of_ne hg] at hc ⊢
    intro x hx
    by_cases hSg : S g = true
    · rw [List.find?_cons_of_pos hSg] at hc
      obtain rfl := Option.some.inj hc
      rw [← T.path_of_ne hg] at hx
      exact ⟨fun _ => hx, fun _ => hS g x hSg hx⟩
    · rw [List.find?_cons_of_neg hSg] at hc
      rcases mem_cons.1 hx with rfl | hx
      · exact ⟨fun h => absurd h hSg, fun h => absurd h (T.not_mem_path_parent hg (mem_of_find?_eq_some hc))⟩
      · exact ih hc x hx

end

/-! ## Marked nodes on a path -/

section

variable {f f' : Nat → Bool}

/-- The number of marked nodes from `g` up to the root. -/
def marks (f : Nat → Bool) (g : Nat) : Nat := (T.path g).countP f

theorem marks_eq_zero : T.marks f g = 0 ↔ ∀ x ∈ T.path g, f x = false := by simp [marks, countP_eq_zero]

theorem marks_mono (h : a ∈ T.path g) (h0 : T.marks f g = 0) : T.marks f a = 0 :=
  T.marks_eq_zero.2 fun x hx => T.marks_eq_zero.1 h0 x (T.mem_path_trans hx h)

theorem marks_of_ne (hg : g ≠ 0) : T.marks f g = T.marks f (T.parent g) + (f g).toNat := by
  rw [marks, T.path_of_ne hg, countP_cons, marks]
  cases f g <;> rfl

theorem marks_set (ha : f a = false) (h : ∀ x, f' x = if x = a then true else f x) (g : Nat) :
    T.marks f' g = T.marks f g + if a ∈ T.path g then 1 else 0 := by
  induction g using T.root_induction with
  | zero =>
    by_cases ha0 : a = 0
    · subst ha0
      simp [marks, h, ha]
    · simp [marks, h, ha0, Ne.symm ha0]
  | step g hg ih =>
    rw [T.marks_of_ne hg, T.marks_of_ne hg, ih, h]
    by_cases hga : g = a
    · subst hga
      have hnot : g ∉ T.path (T.parent g) := fun hmem => by
        have := T.le_of_mem_path hmem
        have := T.parent_lt hg
        omega
      simp [ha, hnot]
    · have hiff : a ∈ T.path g ↔ a ∈ T.path (T.parent g) := by
        rw [T.mem_path_iff]
        simp [hg, Ne.symm hga]
      simp only [hga, if_false, hiff]
      omega

end

/-! ## Ways up -/

/-- A way up to the root, from its first node on. -/
def Upward : List Nat → Prop
  | [] => True
  | c :: cs => c < T.size ∧ cs = T.above c

theorem upward_path (hg : g < T.size) : T.Upward (T.path g) := by
  rw [T.path_eq_cons]
  exact ⟨hg, rfl⟩

theorem upward_above (hg : g < T.size) : T.Upward (T.above g) := by
  by_cases hg0 : g = 0
  · subst hg0
    exact trivial
  · rw [T.above_of_ne hg0]
    exact T.upward_path ((T.parent_lt hg0).trans hg)

/-! ## Children -/

/-- The children, the youngest first. -/
def children (g : Nat) : List Nat :=
  ((List.range T.size).filter fun c => decide (c ≠ 0 ∧ T.parent c = g)).reverse

@[simp] theorem mem_children : c ∈ T.children g ↔ c < T.size ∧ c ≠ 0 ∧ T.parent c = g := by
  simp [children]

theorem children_nodup : (T.children g).Nodup := nodup_reverse.2 (nodup_range.filter _)

theorem lt_of_child (hc : c ∈ T.children g) : g < c := by
  obtain ⟨-, hc0, rfl⟩ := T.mem_children.1 hc
  exact T.parent_lt hc0

theorem lt_of_mem_child_path (hc : c ∈ T.children g) (hx : c ∈ T.path x) : g < x :=
  (T.lt_of_child hc).trans_le (T.le_of_mem_path hx)

theorem mem_path_of_child (hc : c ∈ T.children g) (hx : c ∈ T.path x) : g ∈ T.path x := by
  obtain ⟨-, hc0, rfl⟩ := T.mem_children.1 hc
  exact T.mem_path_trans (T.parent_mem_path hc0) hx

theorem child_unique (ha : a ∈ T.children g) (hb : b ∈ T.children g) (hxa : a ∈ T.path x) (hxb : b ∈ T.path x) :
    a = b := by
  -- were `a` above `b`, it would be above their parent
  have above : ∀ {u v : Nat}, u ∈ T.children g → v ∈ T.children g → u ∈ T.path v → u = v := by
    intro u v hu hv h
    rcases T.mem_path_iff.1 h with rfl | ⟨-, h⟩
    · rfl
    · rw [(T.mem_children.1 hv).2.2] at h
      exact absurd (T.lt_of_mem_child_path hu h) (lt_irrefl _)
  rcases T.path_chain hxa hxb with h | h
  · exact above ha hb h
  · exact (above hb ha h).symm

theorem exists_child (hx : x < T.size) (h : g ∈ T.path x) (hne : x ≠ g) : ∃ c ∈ T.children g, c ∈ T.path x := by
  induction x using T.root_induction with
  | zero =>
    obtain rfl : g = 0 := by simpa using h
    exact absurd rfl hne
  | step x hx0 ih =>
    have hp := T.parent_lt hx0
    rcases T.mem_path_iff.1 h with rfl | ⟨-, h⟩
    · exact absurd rfl hne
    · by_cases hpg : T.parent x = g
      · exact ⟨x, T.mem_children.2 ⟨hx, hx0, hpg⟩, T.mem_path_self⟩
      · obtain ⟨c, hc, hcx⟩ := ih (by omega) h hpg
        exact ⟨c, hc, T.mem_path_trans hcx (T.parent_mem_path hx0)⟩

/-! ## Growth -/

def grow (p : Nat) : Tree where
  size := T.size + 1
  parent := fun g => if g = T.size ∧ p < T.size then p else T.parent g
  parent_lt := by
    intro g hg
    split
    · omega
    · exact T.parent_lt hg

theorem grow_parent (hg : g < T.size) : (T.grow p).parent g = T.parent g := by
  simp [grow, hg.ne]

theorem grow_parent_new (hp : p < T.size) : (T.grow p).parent T.size = p := by simp [grow, hp]

theorem grow_path (hg : g < T.size) : (T.grow p).path g = T.path g := by
  induction g using T.root_induction with
  | zero => rfl
  | step g hg0 ih =>
    have hp := T.parent_lt hg0
    rw [T.path_of_ne hg0, (T.grow p).path_of_ne hg0, T.grow_parent hg, ih (hp.trans hg)]

/-! ## Walks -/

section

variable {σ : Type} (down up : Nat → σ → σ)

/-- The walk through the nodes under `g` that are less than `n` levels below it. -/
def walkAux : Nat → Nat → σ → σ
  | 0, _, s => s
  | n + 1, g, s => up g ((T.children g).foldl (fun s c => walkAux n c s) (down g s))

/-- The walk through all nodes under `g`: `down` at a node before its children, `up` after them. -/
def walk (g : Nat) (s : σ) : σ := T.walkAux down up T.size g s

end

/-- The nodes in the order of the way down. -/
def preorder : Nat → Nat → List Nat
  | 0, _ => []
  | n + 1, g => g :: (T.children g).flatMap (preorder n)

/-- The nodes in the order of the way up. -/
def postorder : Nat → Nat → List Nat
  | 0, _ => []
  | n + 1, g => (T.children g).flatMap (postorder n) ++ [g]

theorem mem_preorder {n : Nat} (hg : g < T.size) (hn : T.size ≤ n + g) :
    x ∈ T.preorder n g ↔ x < T.size ∧ g ∈ T.path x := by
  induction n generalizing g with
  | zero => omega
  | succ n ih =>
    rw [preorder, mem_cons, mem_flatMap]
    constructor
    · rintro (rfl | ⟨c, hc, hx⟩)
      · exact ⟨hg, T.mem_path_self⟩
      · have hlt := T.lt_of_child hc
        obtain ⟨hx, hcx⟩ := (ih (T.mem_children.1 hc).1 (by omega)).1 hx
        exact ⟨hx, T.mem_path_of_child hc hcx⟩
    · rintro ⟨hx, h⟩
      by_cases hne : x = g
      · exact .inl hne
      · obtain ⟨c, hc, hcx⟩ := T.exists_child hx h hne
        have hlt := T.lt_of_child hc
        exact .inr ⟨c, hc, (ih (T.mem_children.1 hc).1 (by omega)).2 ⟨hx, hcx⟩⟩

theorem preorder_nodup {n : Nat} (hg : g < T.size) (hn : T.size ≤ n + g) : (T.preorder n g).Nodup := by
  induction n generalizing g with
  | zero => exact nodup_nil
  | succ n ih =>
    have enough : ∀ c ∈ T.children g, c < T.size ∧ T.size ≤ n + c := by
      intro c hc
      have hlt := T.lt_of_child hc
      exact ⟨(T.mem_children.1 hc).1, by omega⟩
    rw [preorder, nodup_cons, nodup_flatMap]
    refine ⟨fun h => ?_, fun c hc => ih (enough c hc).1 (enough c hc).2, ?_⟩
    · obtain ⟨c, hc, hgc⟩ := mem_flatMap.1 h
      exact (T.lt_of_mem_child_path hc ((T.mem_preorder (enough c hc).1 (enough c hc).2).1 hgc).2).false
    · refine List.Pairwise.imp_of_mem (fun {a b} ha hb hab => ?_) T.children_nodup
      intro x hxa hxb
      exact hab (T.child_unique ha hb ((T.mem_preorder (enough a ha).1 (enough a ha).2).1 hxa).2
        ((T.mem_preorder (enough b hb).1 (enough b hb).2).1 hxb).2)

theorem postorder_perm (n g : Nat) : (T.postorder n g).Perm (T.preorder n g) := by
  induction n generalizing g with
  | zero => exact List.Perm.nil
  | succ n ih =>
    refine perm_append_singleton _ _ |>.trans (List.Perm.cons _ ?_)
    exact List.Perm.flatMap_left _ fun c _ => ih c

theorem walkAux_down {σ : Type} (down : Nat → σ → σ) (n g : Nat) (s : σ) :
    T.walkAux down (fun _ s => s) n g s = (T.preorder n g).foldl (fun s x => down x s) s := by
  induction n generalizing g s with
  | zero => rfl
  | succ n ih => simp only [walkAux, preorder, foldl_cons, foldl_flatMap, ih]

theorem walkAux_up {σ : Type} (up : Nat → σ → σ) (n g : Nat) (s : σ) :
    T.walkAux (fun _ s => s) up n g s = (T.postorder n g).foldl (fun s x => up x s) s := by
  induction n generalizing g s with
  | zero => rfl
  | succ n ih =>
    simp only [walkAux, postorder, foldl_append, foldl_flatMap, ih, foldl_cons, foldl_nil]

end Tree

end KernelSched.Rooted
