import Mathlib.Data.List.Sublists

/-!
# Linked lists

What insertion next to a member and removal of a member do to a list without duplicates, and which member comes before
which.
-/

namespace KernelSched.Links

open List

variable {α : Type} {l pre post br rest : List α} {a b c g x y : α}

def Before (l : List α) (a b : α) : Prop := [a, b].Sublist l

theorem Before.right (h : Before l a b) : b ∈ l := h.subset (by simp)

theorem Before.mono {l' : List α} (h : Before l a b) (hs : l.Sublist l') : Before l' a b := List.Sublist.trans h hs

theorem before_append {p q : List α} (ha : a ∈ p) (hb : b ∈ q) : Before (p ++ q) a b :=
  List.Sublist.append (singleton_sublist.2 ha) (singleton_sublist.2 hb)

theorem Before.filter {p : α → Bool} (h : Before l a b) (ha : p a = true) (hb : p b = true) :
    Before (l.filter p) a b := by
  have := List.Sublist.filter p h
  simpa [Before, ha, hb] using this

theorem Before.mem_front {p q : List α} (h : Before (p ++ b :: q) a b) (hnd : (p ++ b :: q).Nodup) : a ∈ p := by
  obtain ⟨l₁, l₂, heq, hp, hq⟩ := sublist_append_iff.1 h
  have hb : b ∉ q := (nodup_cons.1 (nodup_append.1 hnd).2.1).1
  cases l₁ with
  | nil =>
    rw [nil_append] at heq
    rw [← heq, sublist_cons_iff] at hq
    rcases hq with hq | ⟨l, hl, hq⟩
    · exact absurd (hq.subset (by simp)) hb
    · obtain ⟨-, rfl⟩ := cons.inj hl
      exact absurd (hq.subset mem_cons_self) hb
  | cons x l =>
    obtain ⟨rfl, -⟩ := cons.inj heq
    exact hp.subset mem_cons_self

variable [DecidableEq α]

def insertBefore (x y : α) : List α → List α
  | [] => [x]
  | a :: l => if a = y then x :: a :: l else a :: insertBefore x y l

def insertAfter (x y : α) : List α → List α
  | [] => [x]
  | a :: l => if a = y then a :: x :: l else a :: insertAfter x y l

def prev (x : α) : List α → Option α
  | a :: b :: l => if b = x then some a else prev x (b :: l)
  | _ => none

theorem insertBefore_append (h : y ∉ pre) : insertBefore x y (pre ++ y :: post) = pre ++ x :: y :: post := by
  induction pre with
  | nil => simp [insertBefore]
  | cons a pre ih =>
    obtain ⟨hy, hpre⟩ := not_or.1 (mt mem_cons.2 h)
    simp [insertBefore, Ne.symm hy, ih hpre]

theorem insertAfter_append (h : y ∉ pre) : insertAfter x y (pre ++ y :: post) = pre ++ y :: x :: post := by
  induction pre with
  | nil => simp [insertAfter]
  | cons a pre ih =>
    obtain ⟨hy, hpre⟩ := not_or.1 (mt mem_cons.2 h)
    simp [insertAfter, Ne.symm hy, ih hpre]

theorem prev_append (h : x ∉ pre) (ha : a ≠ x) : prev x (pre ++ a :: x :: post) = some a := by
  induction pre with
  | nil => simp [prev]
  | cons b pre ih =>
    obtain ⟨hb, hpre⟩ := not_or.1 (mt mem_cons.2 h)
    cases pre with
    | nil => simp [prev, ha]
    | cons c pre =>
      have hc : c ≠ x := fun hc => hpre (hc ▸ mem_cons_self)
      simpa [prev, hc] using ih hpre

theorem prev_head (h : x ∉ post) : prev x (x :: post) = none := by
  cases post with
  | nil => rfl
  | cons b post =>
    have aux : ∀ (l : List α) (a : α), x ∉ l → prev x (a :: l) = none := by
      intro l
      induction l with
      | nil => intro a _; rfl
      | cons b l ih =>
        intro a hx
        obtain ⟨hb, hl⟩ := not_or.1 (mt mem_cons.2 hx)
        simp [prev, Ne.symm hb, ih b hl]
    exact aux _ _ h

theorem prev_eq_some (hl : l.Nodup) (hx : x ∈ l) : prev x l = some a ↔ ∃ pre post, l = pre ++ a :: x :: post := by
  obtain ⟨pre, post, rfl⟩ := append_of_mem hx
  have hnd := nodup_append.1 hl
  have hpre : x ∉ pre := fun h => hnd.2.2 x h x mem_cons_self rfl
  constructor
  · intro h
    rcases eq_nil_or_concat' pre with rfl | ⟨pre, b, rfl⟩
    · rw [nil_append, prev_head (nodup_cons.1 hnd.2.1).1] at h
      cases h
    · have hb : b ≠ x := fun hb => hpre (by simp [hb])
      rw [append_assoc, singleton_append, prev_append (fun h => hpre (by simp [h])) hb] at h
      obtain rfl := Option.some.inj h
      exact ⟨pre, post, by simp⟩
  · rintro ⟨pre', post', h⟩
    rw [h] at hl ⊢
    obtain ⟨-, hrest, hdis⟩ := nodup_append.1 hl
    refine prev_append (fun hx => hdis x hx x (by simp) rfl) fun ha => ?_
    exact (nodup_cons.1 hrest).1 (by simp [ha])

/-! ## The last of a front part -/

theorem filter_ne_of_not_mem (h : g ∉ l) : l.filter (fun x => decide (x ≠ g)) = l := by
  refine filter_eq_self.2 fun x hx => ?_
  simpa using ne_of_mem_of_not_mem hx h

/-- The last of a list that `g` is taken out of: if `g` was the last, it is the one in front of it. -/
theorem getLast?_filter_ne (hnd : (br ++ rest).Nodup) (hg : g ∈ br ++ rest) :
    (br.filter fun x => decide (x ≠ g)).getLast? = if br.getLast? = some g then prev g (br ++ rest) else br.getLast? := by
  rcases eq_nil_or_concat' br with rfl | ⟨br, t, rfl⟩
  · rfl
  · rw [List.getLast?_concat]
    have hsplit : br ++ [t] ++ rest = br ++ t :: rest := by simp
    rw [hsplit] at hnd ⊢
    obtain ⟨-, hrest, hdis⟩ := nodup_append.1 hnd
    have htbr : t ∉ br := fun h => hdis t h t mem_cons_self rfl
    by_cases ht : t = g
    · subst ht
      rw [if_pos rfl, filter_append, filter_ne_of_not_mem htbr]
      simp only [ne_eq, decide_not, filter_cons, decide_true, Bool.not_true, Bool.false_eq_true, if_false,
        filter_nil, append_nil]
      rcases eq_nil_or_concat' br with rfl | ⟨br, u, rfl⟩
      · exact (prev_head (nodup_cons.1 hrest).1).symm
      · have hut : u ≠ t := fun h => htbr (by simp [h])
        rw [List.getLast?_concat, append_assoc, singleton_append,
          prev_append (fun h => htbr (by simp [h])) hut]
    · simp [ht]

end KernelSched.Links
