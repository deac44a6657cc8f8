import KernelSched.Lib.Ledger
import KernelSched.Lib.Rooted

/-!
# Sums rolled up a tree

Every member belongs to a node of a tree. A node has the sum of its own members and of what its children pass on, so a
member counts at every node above it with what is left of it there (`rollup`). Where a node passes on all or nothing, it
counts at the nodes that it reaches through nodes that are passed on (`rollup_reaches`).
-/

namespace KernelSched.Rooted.Tree

open List

variable (T : Tree) {b c h : Nat} {on : Nat → Bool}

/-! ## What is passed on -/

section

variable {M ι : Type} [AddCommGroup M] {pass : Nat → M → M} {own : ι → Nat} {w : ι → M} {v : ι → Nat → M} {l : List ι}

/-- A member of `h` that counts `w` there counts `v c` at `c`. -/
structure Carried (pass : Nat → M → M) (h : Nat) (w : M) (v : Nat → M) : Prop where
  own : v h = w
  off : ∀ c, c ∉ T.path h → v c = 0
  step : ∀ c, ∀ b ∈ T.children c, b ∈ T.path h → v c = pass b (v b)

variable {T} in
theorem Carried.eq_add {w : M} {v : Nat → M} (hv : T.Carried pass h w v) (hzero : ∀ b, pass b 0 = 0) (hh : h < T.size)
    (c : Nat) : v c = (if h = c then w else 0) + ((T.children c).map fun b => pass b (v b)).sum := by
  have hnone : ∀ l : List Nat, (∀ b ∈ l, b ∉ T.path h) → (l.map fun b => pass b (v b)).sum = 0 := by
    intro l hl
    refine sum_eq_zero fun x hx => ?_
    obtain ⟨b, hb, rfl⟩ := mem_map.1 hx
    rw [hv.off b (hl b hb), hzero]
  by_cases hhc : h = c
  · subst hhc
    rw [if_pos rfl, hnone, add_zero, hv.own]
    exact fun b hb hmem => (T.lt_of_mem_child_path hb hmem).false
  · rw [if_neg hhc, zero_add]
    by_cases hmem : c ∈ T.path h
    · obtain ⟨b, hb, hbh⟩ := T.exists_child hh hmem hhc
      have hsum := Ledger.sum_map_change (a := b) (fun _ : Nat => (0 : M))
        (fun y => if y ∈ T.children c then pass y (v y) else 0) (T.children_nodup (g := c)) fun y hy => by
          split
          · next hyc => rw [hv.off y fun hyh => hy (T.child_unique hyc hb hyh hbh), hzero]
          · rfl
      rw [map_congr_left fun y hy => if_pos hy, if_pos hb, if_pos hb] at hsum
      rw [hsum, hv.step c b hb hbh]
      simp
    · rw [hv.off c hmem, hnone]
      intro b hb hbh
      obtain ⟨-, hb0, rfl⟩ := T.mem_children.1 hb
      exact hmem (T.mem_path_trans (T.parent_mem_path hb0) hbh)

variable (pass) (hzero : ∀ b, pass b 0 = 0) (hadd : ∀ b x y, pass b (x + y) = pass b x + pass b y)
  (hl : ∀ p ∈ l, own p < T.size) (hv : ∀ p ∈ l, T.Carried pass (own p) (w p) (v p))

include hzero hadd hl hv

/-- What the members of a list count at `c`. -/
theorem carried_sums (c : Nat) : (l.map fun p => v p c).sum = (l.map fun p => if own p = c then w p else 0).sum +
    ((T.children c).map fun b => pass b (l.map fun p => v p b).sum).sum := by
  induction l with
  | nil =>
    refine (sum_eq_zero fun x hx => ?_).symm.trans (zero_add _).symm
    obtain ⟨b, -, rfl⟩ := mem_map.1 hx
    exact hzero b
  | cons p l ih =>
    simp only [map_cons, sum_cons, hadd, sum_map_add]
    rw [ih (fun q hq => hl q (mem_cons_of_mem p hq)) fun q hq => hv q (mem_cons_of_mem p hq),
      (hv p mem_cons_self).eq_add hzero (hl p mem_cons_self) c]
    abel

/-- A sum that every node makes of its own members and of what its children pass on is what the members count there. -/
theorem rollup {f : Nat → M} (hf : ∀ c, f c = (l.map fun p => if own p = c then w p else 0).sum +
    ((T.children c).map fun b => pass b (f b)).sum) (c : Nat) : f c = (l.map fun p => v p c).sum := by
  -- from the leaves of the tree upwards
  have aux : ∀ k c, T.size ≤ k + c → f c = (l.map fun p => v p c).sum := by
    intro k
    induction k with
    | zero =>
      intro c hc
      have hnil : T.children c = [] := by
        rw [eq_nil_iff_forall_not_mem]
        intro b hb
        have hsize := (T.mem_children.1 hb).1
        have hlt := T.lt_of_child hb
        omega
      rw [hf, T.carried_sums pass hzero hadd hl hv, hnil]
      rfl
    | succ k ih =>
      intro c hc
      rw [hf, T.carried_sums pass hzero hadd hl hv]
      congr 2
      refine map_congr_left fun b hb => ?_
      have hlt := T.lt_of_child hb
      rw [ih b (by omega)]
  exact aux T.size c (by omega)

end

/-! ## All or nothing -/

/-- From `h` one gets up to `c` through nodes that are passed on. -/
def Reaches (on : Nat → Bool) (c h : Nat) : Prop := c ∈ T.path h ∧ ∀ x ∈ T.path h, x ∉ T.path c → on x = true

instance (on : Nat → Bool) (c h : Nat) : Decidable (T.Reaches on c h) := inferInstanceAs (Decidable (_ ∧ _))

theorem reaches_self : T.Reaches on c c := ⟨T.mem_path_self, fun _ hx hno => absurd hx hno⟩

theorem reaches_child (hb : b ∈ T.children c) (hbh : b ∈ T.path h) :
    T.Reaches on c h ↔ on b = true ∧ T.Reaches on b h := by
  obtain ⟨-, hb0, rfl⟩ := T.mem_children.1 hb
  have hlt := T.parent_lt hb0
  have hnot : b ∉ T.path (T.parent b) := fun hmem => by
    have := T.le_of_mem_path hmem
    omega
  constructor
  · rintro ⟨-, hall⟩
    refine ⟨hall b hbh hnot, hbh, fun x hx hxb => hall x hx fun hxc => hxb ?_⟩
    exact T.mem_path_iff.2 (.inr ⟨hb0, hxc⟩)
  · rintro ⟨hon, -, hall⟩
    refine ⟨T.mem_path_trans (T.parent_mem_path hb0) hbh, fun x hx hxc => ?_⟩
    by_cases hxb : x = b
    · exact hxb ▸ hon
    · refine hall x hx fun hmem => ?_
      rcases T.mem_path_iff.1 hmem with rfl | ⟨-, hmem⟩
      · exact hxb rfl
      · exact hxc hmem

theorem rollup_reaches {M ι : Type} [AddCommGroup M] {own : ι → Nat} {w : ι → M} {l : List ι}
    (hl : ∀ p ∈ l, own p < T.size) {f : Nat → M} (hf : ∀ c, f c = (l.map fun p => if own p = c then w p else 0).sum +
      ((T.children c).map fun b => if on b then f b else 0).sum) (c : Nat) :
    f c = (l.map fun p => if T.Reaches on c (own p) then w p else 0).sum := by
  refine T.rollup (fun b x => if on b then x else 0) (v := fun p c => if T.Reaches on c (own p) then w p else 0)
    (fun _ => ite_self 0) (fun b x y => ?_) hl
    (fun p _ => ⟨if_pos T.reaches_self, fun c hc => ?_, fun c b hb hbh => ?_⟩) hf c
  · cases on b <;> simp
  · exact if_neg fun hr => hc hr.1
  · simp only [T.reaches_child hb hbh]
    cases on b <;> simp

end KernelSched.Rooted.Tree
