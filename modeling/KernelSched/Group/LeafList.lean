import KernelSched.Group.Rq

/-!
# The leaf list while a branch is put on it

A branch of groups is put on the list from below. As long as its parent is not there, it stands alone at the front of the
list, and `tmp_alone_branch` points to its last runqueue (`Hangs`). The lemmas say what becomes of the branch when a
runqueue is added or taken off.
-/

namespace KernelSched.Group

open Rooted Links

namespace LeafList

/-- The branch `br` stands alone in front of the rest of the list. -/
structure Hangs (br rest : List Nat) (L : LeafList) : Prop where
  list : L.list = br ++ rest
  tmp : L.tmp = br.getLast?
  nodup : (br ++ rest).Nodup
  mem : ∀ g, L.onList g = true ↔ g ∈ br ++ rest

variable {T : Tree} {L : LeafList} {br rest : List Nat} {g : Nat}

section

variable (h : L.Hangs br rest)

include h

theorem Hangs.not_mem : L.onList g = false ↔ g ∉ br ++ rest := by
  rw [← h.mem, Bool.not_eq_true]

theorem Hangs.add_mem (hg : g ∈ br ++ rest) : L.listAddLeafCfsRq T g = (L, L.tmp.isNone) :=
  if_pos ((h.mem g).2 hg)

theorem Hangs.mem_set {l : List Nat} (hl : ∀ x, x ∈ l ↔ x = g ∨ x ∈ br ++ rest) (x : Nat) :
    (if x = g then true else L.onList x) = true ↔ x ∈ l := by
  rw [hl]
  split
  · next hx => simp [hx]
  · next hx => simp [hx, h.mem]

theorem Hangs.add_alone (hg0 : g ≠ 0) (hg : g ∉ br ++ rest) (hp : T.parent g ∉ br ++ rest) :
    (L.listAddLeafCfsRq T g).1.Hangs (br ++ [g]) rest ∧ (L.listAddLeafCfsRq T g).2 = false := by
  have hnd : (br ++ [g] ++ rest).Nodup := by
    have : (g :: (br ++ rest)).Nodup := List.nodup_cons.2 ⟨hg, h.nodup⟩
    refine (List.Perm.nodup_iff ?_).1 this
    rw [List.append_assoc]
    exact List.perm_middle.symm
  have hmem : ∀ x, x ∈ br ++ [g] ++ rest ↔ x = g ∨ x ∈ br ++ rest := by
    intro x
    simp only [List.mem_append, List.mem_singleton]
    tauto
  have hoff := h.not_mem.2 hg
  have hpoff := h.not_mem.2 hp
  rw [listAddLeafCfsRq, if_neg (by simp [hoff])]
  dsimp only
  rw [if_neg (by simp [hpoff]), if_neg hg0]
  rcases List.eq_nil_or_concat' br with rfl | ⟨br, t, rfl⟩
  · have ht : L.tmp = none := h.tmp
    simp only [ht]
    exact ⟨⟨by rw [h.list]; rfl, rfl, hnd, h.mem_set hmem⟩, trivial⟩
  · have ht : L.tmp = some t := by rw [h.tmp, List.getLast?_concat]
    have htbr : t ∉ br := by
      have := (List.nodup_append.1 h.nodup).1
      intro hmem
      exact (List.nodup_append.1 this).2.2 t hmem t (by simp) rfl
    simp only [ht]
    refine ⟨⟨?_, by rw [List.getLast?_concat], hnd, h.mem_set hmem⟩, trivial⟩
    have hsplit : br ++ [t] ++ rest = br ++ t :: rest := by simp
    rw [h.list, hsplit, insertAfter_append htbr]
    simp

/-- The parent is on the list: the branch is connected. -/
theorem Hangs.add_connected (hg0 : g ≠ 0) (hg : g ∉ br ++ rest) (hbr : T.parent g ∉ br) (hp : T.parent g ∈ rest) :
    ∃ pre post, rest = pre ++ T.parent g :: post ∧
      (L.listAddLeafCfsRq T g).1.Hangs [] (br ++ (pre ++ g :: T.parent g :: post)) ∧
        (L.listAddLeafCfsRq T g).2 = true := by
  obtain ⟨pre, post, rfl⟩ := List.append_of_mem hp
  have hoff := h.not_mem.2 hg
  have hpon : L.onList (T.parent g) = true := (h.mem _).2 (List.mem_append_right _ hp)
  have hpre : T.parent g ∉ pre := fun hmem =>
    (List.nodup_append.1 (List.nodup_append.1 h.nodup).2.1).2.2 _ hmem _ List.mem_cons_self rfl
  have hmem : ∀ x, x ∈ br ++ (pre ++ g :: T.parent g :: post) ↔ x = g ∨ x ∈ br ++ (pre ++ T.parent g :: post) := by
    intro x
    simp only [List.mem_append, List.mem_cons]
    tauto
  refine ⟨pre, post, rfl, ?_⟩
  rw [listAddLeafCfsRq, if_neg (by simp [hoff])]
  dsimp only
  rw [if_pos ⟨hg0, hpon⟩]
  refine ⟨⟨?_, rfl, ?_, h.mem_set hmem⟩, rfl⟩
  · have hsplit : br ++ (pre ++ T.parent g :: post) = (br ++ pre) ++ T.parent g :: post := by simp
    have hnot : T.parent g ∉ br ++ pre := by simp [hbr, hpre]
    rw [h.list, hsplit, insertBefore_append hnot]
    simp
  · have : (g :: (br ++ (pre ++ T.parent g :: post))).Nodup := List.nodup_cons.2 ⟨hg, h.nodup⟩
    refine (List.Perm.nodup_iff ?_).1 this
    rw [List.nil_append, ← List.append_assoc, ← List.append_assoc]
    exact List.perm_middle.symm

theorem Hangs.add_root (hg : 0 ∉ br ++ rest) :
    (L.listAddLeafCfsRq T 0).1.Hangs [] ((br ++ rest) ++ [0]) ∧ (L.listAddLeafCfsRq T 0).2 = true := by
  have hoff := h.not_mem.2 hg
  rw [listAddLeafCfsRq, if_neg (by simp [hoff])]
  dsimp only
  rw [if_neg (by simp), if_pos rfl]
  refine ⟨⟨by rw [h.list]; rfl, rfl, ?_, h.mem_set fun x => ?_⟩, rfl⟩
  · show (br ++ rest ++ [0]).Nodup
    refine List.nodup_append.2 ⟨h.nodup, by simp, fun a ha b hb => ?_⟩
    rw [List.mem_singleton.1 hb]
    exact ne_of_mem_of_not_mem ha hg
  · rw [List.nil_append, List.mem_append, List.mem_singleton, or_comm]

theorem Hangs.del (g : Nat) :
    (L.listDelLeafCfsRq g).Hangs (br.filter fun x => decide (x ≠ g)) (rest.filter fun x => decide (x ≠ g)) := by
  by_cases hg : g ∈ br ++ rest
  · rw [listDelLeafCfsRq, if_pos ((h.mem g).2 hg)]
    refine ⟨?_, ?_, ?_, fun x => ?_⟩
    · show L.list.erase g = _
      rw [h.list, h.nodup.erase_eq_filter, ← List.filter_append]
      exact List.filter_congr fun x _ => by simp [bne, beq_eq_decide]
    · rw [getLast?_filter_ne h.nodup hg, ← h.tmp, ← h.list]
    · rw [← List.filter_append]
      exact h.nodup.filter _
    · rw [← List.filter_append, List.mem_filter]
      show (if x = g then false else L.onList x) = true ↔ _
      split
      · next hx => simp [hx]
      · next hx => simp only [h.mem, hx, ne_eq, not_false_iff, decide_true, and_true]
  · obtain ⟨hbr, hrest⟩ := not_or.1 (mt List.mem_append.2 hg)
    rw [listDelLeafCfsRq, if_neg (by simp [h.not_mem.2 hg]), filter_ne_of_not_mem hbr, filter_ne_of_not_mem hrest]
    exact h

end

end LeafList

end KernelSched.Group
