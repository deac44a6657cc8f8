import Mathlib.Algebra.BigOperators.Group.Finset.Basic
import Mathlib.Algebra.Order.BigOperators.Group.List
import Mathlib.Algebra.Order.Ring.Nat
import Mathlib.Tactic.Abel

/-!
# Accounts that are sums over members

An account is kept equal to the sum of the shares of all members. When one member changes, the account is its share and
what the others owe (`owed_eq_others_add`); the others are the same before and after (`owed_set`). So a change has to be
looked at for one member against an arbitrary rest only.
-/

namespace KernelSched.Ledger

open Function List Finset

variable {α : Type} {f g : α → Nat} {l : List α} {i : Nat} {a : α} {M : Type}

def owed (f : α → Nat) (l : List α) : Nat := (l.map f).sum

/-- The sum of the shares of all members but the one at `i`. -/
def others (f : α → Nat) (l : List α) (i : Nat) : Nat := owed f (l.eraseIdx i)

@[simp] theorem owed_cons (a : α) (l : List α) : owed f (a :: l) = f a + owed f l := List.sum_cons

theorem owed_eq_others_add (h : l[i]? = some a) : owed f l = others f l i + f a := by
  induction l generalizing i with
  | nil => cases h
  | cons b l ih =>
    cases i with
    | zero =>
      obtain rfl : b = a := by simpa using h
      rw [owed_cons, others, eraseIdx_zero, tail_cons, add_comm]
    | succ i =>
      have ih := ih (i := i) (by simpa using h)
      rw [others] at ih
      rw [owed_cons, others, eraseIdx_cons_succ, owed_cons, ih, add_assoc]

theorem owed_set (h : l[i]? = some a) (b : α) : owed f (l.set i b) = others f l i + f b := by
  have hi : i < l.length := (List.getElem?_eq_some_iff.1 h).1
  have hb : (l.set i b)[i]? = some b := by simp [hi]
  rw [owed_eq_others_add hb, others, others, eraseIdx_set_eq]

theorem owed_le (h : ∀ a ∈ l, f a ≤ g a) : owed f l ≤ owed g l := sum_le_sum h

theorem others_le (h : ∀ a ∈ l, f a ≤ g a) : others f l i ≤ others g l i :=
  owed_le fun a ha => h a (mem_of_mem_eraseIdx ha)

theorem owed_le_mul {b : Nat} (h : ∀ a ∈ l, f a ≤ b) : owed f l ≤ l.length * b := by
  have hb : ∀ x ∈ l.map f, x ≤ b := by
    intro x hx
    obtain ⟨a, ha, rfl⟩ := mem_map.1 hx
    exact h a ha
  have hsum := sum_le_card_nsmul (l.map f) b hb
  rw [length_map] at hsum
  exact hsum

theorem others_add_le {b : Nat} (h : ∀ a ∈ l, f a ≤ b) (hi : i < l.length) : others f l i + b ≤ l.length * b := by
  have ho : others f l i ≤ (l.eraseIdx i).length * b := owed_le_mul fun a ha => h a (mem_of_mem_eraseIdx ha)
  rw [length_eraseIdx_of_lt hi] at ho
  obtain ⟨n, hn⟩ : ∃ n, l.length = n + 1 := ⟨l.length - 1, by omega⟩
  rw [hn, Nat.add_sub_cancel] at ho
  rw [hn, Nat.add_mul, Nat.one_mul]
  omega

/-- A sum over the members with a property is the sum of shares that are 0 for all others. -/
theorem sum_map_filter [AddCommMonoid M] (k : α → M) (q : α → Bool) (l : List α) :
    ((l.filter q).map k).sum = (l.map fun a => if q a then k a else 0).sum := by
  induction l with
  | nil => rfl
  | cons a l ih => by_cases h : q a = true <;> simp [h, ih]

theorem owed_filter (q : α → Bool) : owed f (l.filter q) = owed (fun a => if q a then f a else 0) l :=
  sum_map_filter f q l

theorem sum_update {ι : Type} [Fintype ι] [DecidableEq ι] [AddCommMonoid M] (r : ι → α) (s : α → M) (i : ι) (a : α) :
    ∑ j, s (update r i a j) + s (r i) = ∑ j, s (r j) + s a := by
  have hsplit : ∀ q : ι → α, ∑ j, s (q j) = s (q i) + ∑ j ∈ Finset.univ.erase i, s (q j) := fun q =>
    (add_sum_erase _ _ (mem_univ i)).symm
  have hrest : ∑ j ∈ Finset.univ.erase i, s (update r i a j) = ∑ j ∈ Finset.univ.erase i, s (r j) :=
    sum_congr rfl fun j hj => by rw [update_of_ne (ne_of_mem_erase hj)]
  rw [hsplit, hsplit r, hrest, update_self]
  abel

theorem sum_map_change [AddCommGroup M] [DecidableEq α] (f k : α → M) (hl : l.Nodup)
    (h : ∀ x, x ≠ a → k x = f x) : (l.map k).sum = (l.map f).sum + if a ∈ l then k a - f a else 0 := by
  induction l with
  | nil => simp
  | cons b l ih =>
    obtain ⟨hb, hl⟩ := nodup_cons.1 hl
    rw [List.map_cons, List.sum_cons, List.map_cons, List.sum_cons, ih hl]
    by_cases hba : b = a
    · subst hba
      simp [hb]
      abel
    · rw [h b hba]
      simp only [List.mem_cons, Ne.symm hba, false_or]
      abel

/-! ## Members that change in place -/

section

variable {M : Type} [AddCommMonoid M] [DecidableEq α] {f k : α → M} {b : α}

theorem sum_map_replace (hl : l.Nodup) (ha : a ∈ l) (h : ∀ x, x ≠ a → k x = f x) :
    (l.map k).sum + f a = (l.map f).sum + k a := by
  have hrest : (l.erase a).map k = (l.erase a).map f := map_congr_left fun x hx => h x ((hl.mem_erase_iff.1 hx).1)
  rw [← sum_map_erase f ha, ← sum_map_erase k ha, hrest]
  abel

theorem sum_map_transfer (hl : l.Nodup) (ha : a ∈ l) (hb : b ∈ l) (hab : a ≠ b) (hsum : k a + k b = f a + f b)
    (h : ∀ x, x ≠ a → x ≠ b → k x = f x) : (l.map k).sum = (l.map f).sum := by
  have hb' : b ∈ l.erase a := hl.mem_erase_iff.2 ⟨hab.symm, hb⟩
  have hrest : ((l.erase a).erase b).map k = ((l.erase a).erase b).map f := map_congr_left fun x hx => by
    obtain ⟨hxb, hx⟩ := (hl.erase a).mem_erase_iff.1 hx
    exact h x (hl.mem_erase_iff.1 hx).1 hxb
  rw [← sum_map_erase f ha, ← sum_map_erase k ha, ← sum_map_erase f hb', ← sum_map_erase k hb', hrest,
    ← add_assoc, ← add_assoc, hsum]

end

theorem add_le_owed [DecidableEq α] {b : α} (hl : l.Nodup) (ha : a ∈ l) (hb : b ∈ l) (hab : a ≠ b) :
    f a + f b ≤ owed f l := by
  have hb' : b ∈ l.erase a := hl.mem_erase_iff.2 ⟨hab.symm, hb⟩
  rw [owed, ← sum_map_erase f ha, ← sum_map_erase f hb']
  omega

theorem le_owed [DecidableEq α] (ha : a ∈ l) : f a ≤ owed f l := by
  rw [owed, ← sum_map_erase f ha]
  omega

end KernelSched.Ledger
