import KernelSched.Lib.Rooted

/-!
# Values that nodes inherit

The value of a node is a function of the value of its parent. After the function of one node has changed, a walk from that
node downwards sets the values anew and leaves out what is under a node whose value stays the same (`walkChanged`). All
values are right again (`Inherits.walk_right`).

The walk works on any state with a value for each node; `Inherits` is what its visitor has to do.
-/

namespace KernelSched.Rooted

open List

variable {σ V : Type} (T : Tree) (visit : Nat → σ → σ × Bool)

/-- The walk through the nodes under `g` that are less than `n` levels below it, the oldest child first. The visitor says
whether the value has changed; if not, the nodes below are left out. -/
def Tree.walkChanged : Nat → Nat → σ → σ
  | 0, _, s => s
  | n + 1, g, s =>
    if (visit g s).2 then (T.children g).reverse.foldl (fun s c => walkChanged n c s) (visit g s).1 else (visit g s).1

/-- In states with `I`, the visitor sets the value of a node to `F` of that of its parent, and reports a change. -/
structure Inherits (val : σ → Nat → V) (F : Nat → V → V) (I : σ → Prop) : Prop where
  root : ∀ v w, F 0 v = F 0 w
  keeps : ∀ {g : Nat} {s : σ}, I s → I (visit g s).1
  self : ∀ {g : Nat} {s : σ}, I s → val (visit g s).1 g = F g (val s (T.parent g))
  others : ∀ {g x : Nat} {s : σ}, I s → x ≠ g → val (visit g s).1 x = val s x
  still : ∀ {g : Nat} {s : σ}, I s → (visit g s).2 = false → val (visit g s).1 g = val s g

/-- The value of a node is the one it inherits. -/
def Tree.IsRight (F : Nat → V → V) (v : Nat → V) (x : Nat) : Prop := v x = F x (v (T.parent x))

/-- The values under `g` are right after what has been done there, and no others have changed. -/
structure Tree.Righted (F : Nat → V → V) (v v' : Nat → V) (g : Nat) : Prop where
  right : ∀ x < T.size, g ∈ T.path x → T.IsRight F v' x
  others : ∀ x, g ∉ T.path x → v' x = v x

namespace Inherits

variable {T visit} {val : σ → Nat → V} {F : Nat → V → V} {I : σ → Prop} {g x : Nat} {s : σ}

theorem congr {v v' : Nat → V} (h : T.IsRight F v x) (hx : v' x = v x) (hp : v' (T.parent x) = v (T.parent x)) :
    T.IsRight F v' x := by
  rw [Tree.IsRight, hx, hp]
  exact h

theorem visit_right (h : Inherits T visit val F I) (hs : I s) : T.IsRight F (val (visit g s).1) g := by
  rw [Tree.IsRight, h.self hs]
  by_cases hg : g = 0
  · subst hg
    exact h.root _ _
  · rw [h.others hs (T.parent_lt hg).ne]

/-- The children one after another. What is strictly under each of them is right before, since its parent has not
changed. -/
theorem fold_right {n : Nat} (ih : ∀ {c : Nat} {s : σ}, I s → c ∈ T.children g →
      (∀ x < T.size, c ∈ T.path x → x ≠ c → T.IsRight F (val s) x) →
      I (T.walkChanged visit n c s) ∧ T.Righted F (val s) (val (T.walkChanged visit n c s)) c) :
    ∀ {cs : List Nat} {s : σ}, cs.Nodup → (∀ c ∈ cs, c ∈ T.children g) → I s →
      (∀ c ∈ cs, ∀ x < T.size, c ∈ T.path x → x ≠ c → T.IsRight F (val s) x) →
      I (cs.foldl (fun s c => T.walkChanged visit n c s) s) ∧
        (∀ c ∈ cs, ∀ x < T.size, c ∈ T.path x → T.IsRight F (val (cs.foldl (fun s c => T.walkChanged visit n c s) s)) x) ∧
        ∀ x, (∀ c ∈ cs, c ∉ T.path x) → val (cs.foldl (fun s c => T.walkChanged visit n c s) s) x = val s x
  | [], s, _, _, hs, _ => ⟨hs, fun c hc => absurd hc not_mem_nil, fun _ _ => rfl⟩
  | c :: cs, s, hnd, hcs, hs, hbelow => by
    obtain ⟨hc, hnd⟩ := nodup_cons.1 hnd
    obtain ⟨hcg, hcs⟩ := forall_mem_cons.1 hcs
    obtain ⟨hbc, hbelow⟩ := forall_mem_cons.1 hbelow
    obtain ⟨hs₁, hr₁⟩ := ih hs hcg hbc
    -- neither what is under another child nor `g` is under `c`
    have apart : ∀ a ∈ cs, ∀ x, (c ∈ T.path x → a ∉ T.path x) ∧ (a ∈ T.path x → c ∉ T.path x) := fun a ha x =>
      ⟨fun hx hax => hc (T.child_unique hcg (hcs a ha) hx hax ▸ ha),
        fun hax hx => hc (T.child_unique hcg (hcs a ha) hx hax ▸ ha)⟩
    have hbelow₁ : ∀ a ∈ cs, ∀ x < T.size, a ∈ T.path x → x ≠ a → T.IsRight F (val (T.walkChanged visit n c s)) x := by
      intro a ha x hx hax hxa
      have hap : a ∈ T.path (T.parent x) := ((T.mem_path_iff.1 hax).resolve_left (Ne.symm hxa)).2
      exact congr (hbelow a ha x hx hax hxa) (hr₁.others x ((apart a ha x).2 hax)) (hr₁.others _ ((apart a ha _).2 hap))
    obtain ⟨hs₂, hr₂, ho₂⟩ := fold_right ih hnd hcs hs₁ hbelow₁
    refine ⟨hs₂, forall_mem_cons.2 ⟨fun x hx hcx => ?_, hr₂⟩, fun x hx => ?_⟩
    · refine congr (hr₁.right x hx hcx) (ho₂ x fun a ha => (apart a ha x).1 hcx) (ho₂ _ fun a ha hap => ?_)
      rcases T.mem_path_iff.1 hcx with rfl | ⟨-, hcp⟩
      · -- the parent of `c` is `g`, which is under no child
        rw [(T.mem_children.1 hcg).2.2] at hap
        exact (T.lt_of_mem_child_path (hcs a ha) hap).false
      · exact (apart a ha _).1 hcp hap
    · obtain ⟨hcx, hx⟩ := forall_mem_cons.1 hx
      exact (ho₂ x hx).trans (hr₁.others x hcx)

section

variable (h : Inherits T visit val F I) (hs : I s)

include h hs

theorem visit_below (hbelow : ∀ x < T.size, g ∈ T.path x → x ≠ g → T.IsRight F (val s) x) {c : Nat}
    (hc : c ∈ T.children g) :
    ∀ x < T.size, c ∈ T.path x → x ≠ c → T.IsRight F (val (visit g s).1) x := by
  intro x hx hcx hxc
  have hpx : c ∈ T.path (T.parent x) := ((T.mem_path_iff.1 hcx).resolve_left (Ne.symm hxc)).2
  have hne : ∀ {y : Nat}, c ∈ T.path y → y ≠ g := fun hy => (T.lt_of_mem_child_path hc hy).ne'
  exact congr (hbelow x hx (T.mem_path_of_child hc hcx) (hne hcx)) (h.others hs (hne hcx)) (h.others hs (hne hpx))

theorem visit_still (hbelow : ∀ x < T.size, g ∈ T.path x → x ≠ g → T.IsRight F (val s) x)
    (hstill : (visit g s).2 = false) :
    T.Righted F (val s) (val (visit g s).1) g := by
  have hsame : ∀ x, val (visit g s).1 x = val s x := fun x => by
    by_cases hx : x = g
    · rw [hx]
      exact h.still hs hstill
    · exact h.others hs hx
  refine ⟨fun x hx hgx => ?_, fun x _ => hsame x⟩
  by_cases hxg : x = g
  · rw [hxg]
    exact h.visit_right hs
  · exact congr (hbelow x hx hgx hxg) (hsame x) (hsame _)

/-- The node that was visited stays right as long as neither its value nor its parent's changes. -/
theorem right_of_kept {v : Nat → V} (hv : ∀ y ≤ g, v y = val (visit g s).1 y) : T.IsRight F v g := by
  by_cases hg : g = 0
  · subst hg
    rw [Tree.IsRight, hv 0 le_rfl, h.self hs]
    exact h.root _ _
  · exact congr (h.visit_right hs) (hv g le_rfl) (hv _ (T.parent_lt hg).le)

end

/-- When all values strictly under `g` are right, the walk from `g` makes all under `g` right and changes no others. -/
theorem walkChanged_right (h : Inherits T visit val F I) : ∀ (n : Nat) {g : Nat} {s : σ}, g < T.size →
    T.size ≤ n + g → I s →
    (∀ x < T.size, g ∈ T.path x → x ≠ g → T.IsRight F (val s) x) →
    I (T.walkChanged visit n g s) ∧ T.Righted F (val s) (val (T.walkChanged visit n g s)) g
  | 0, g, s, hg, hn, _, _ => by omega
  | n + 1, g, s, hg, hn, hs, hbelow => by
    rw [Tree.walkChanged]
    cases hch : (visit g s).2 with
    | false => exact ⟨h.keeps hs, h.visit_still hs hbelow hch⟩
    | true =>
      rw [if_pos rfl]
      have hmem : ∀ c ∈ (T.children g).reverse, c ∈ T.children g := fun c hc => mem_reverse.1 hc
      obtain ⟨hs₂, hr₂, ho₂⟩ := fold_right (n := n) (fun {c s} hs hc hb => by
          have hlt := T.lt_of_child hc
          exact walkChanged_right h n (T.mem_children.1 hc).1 (by omega) hs hb)
        (nodup_reverse.2 T.children_nodup) hmem (h.keeps hs) (fun c hc => h.visit_below hs hbelow (hmem c hc))
      refine ⟨hs₂, fun x hx hgx => ?_, fun x hgx => ?_⟩
      · by_cases hxg : x = g
        · subst hxg
          exact h.right_of_kept hs fun y hy =>
            ho₂ y fun c hc hcy => (T.lt_of_mem_child_path (hmem c hc) hcy).not_ge hy
        · obtain ⟨c, hc, hcx⟩ := T.exists_child hx hgx hxg
          exact hr₂ c (mem_reverse.2 hc) x hx hcx
      · rw [ho₂ x fun c hc hcx => hgx (T.mem_path_of_child (hmem c hc) hcx)]
        exact h.others hs fun hxg => hgx (hxg ▸ T.mem_path_self)

/-- The function of one node has changed; the walk from it makes all values right. -/
theorem walk_right (h : Inherits T visit val F I) (hg : g < T.size) (hs : I s)
    (hright : ∀ x < T.size, x ≠ g → T.IsRight F (val s) x) :
    I (T.walkChanged visit T.size g s) ∧ ∀ x < T.size, T.IsRight F (val (T.walkChanged visit T.size g s)) x := by
  obtain ⟨hs', hr⟩ := h.walkChanged_right T.size hg (Nat.le_add_right _ _) hs fun x hx _ hxg => hright x hx hxg
  refine ⟨hs', fun x hx => ?_⟩
  by_cases hgx : g ∈ T.path x
  · exact hr.right x hx hgx
  · -- neither `x` nor its parent is under `g`
    have hxg : x ≠ g := fun hxg => hgx (hxg ▸ T.mem_path_self)
    have hx0 := hright x hx hxg
    by_cases hzero : x = 0
    · subst hzero
      rw [Tree.IsRight, hr.others 0 hgx, hx0]
      exact h.root _ _
    · exact congr hx0 (hr.others x hgx) (hr.others _ fun hp => hgx (T.mem_path_iff.2 (.inr ⟨hzero, hp⟩)))

end Inherits

end KernelSched.Rooted
