import Mathlib.Tactic.Linarith
import Mathlib.Tactic.LinearCombination
import Mathlib.Tactic.Ring

/-!
# Weighted sums and averages

A list of elements with keys `k` and weights `w`. The average of the keys is `wsum / total`; multiplied out, a bound on
all `k e * total` is a bound on `wsum` (`le_wsum`, `wsum_le`), and some key is at most the average (`exists_le_wsum`).

The average itself is rounded down (`tdiv_biased`). An element can join so that it ends up at a given distance from the
average that includes it (`join_average`).
-/

namespace KernelSched.Weighted

variable {α : Type} (k : α → ℤ) (w : α → ℕ)

def total (es : List α) : ℤ := (es.map fun e => (w e : ℤ)).sum

def wsum (es : List α) : ℤ := (es.map fun e => k e * w e).sum

variable {k w} {es : List α}

@[simp] theorem total_cons (e : α) (es : List α) : total w (e :: es) = w e + total w es := List.sum_cons

@[simp] theorem wsum_cons (e : α) (es : List α) : wsum k w (e :: es) = k e * w e + wsum k w es := List.sum_cons

theorem total_nonneg (es : List α) : 0 ≤ total w es := by
  induction es with
  | nil => exact le_rfl
  | cons e es ih => rw [total_cons]; omega

theorem wsum_of_total_eq_zero (h : total w es = 0) : wsum k w es = 0 := by
  induction es with
  | nil => rfl
  | cons e es ih =>
    rw [total_cons] at h
    have hn : 0 ≤ total w es := total_nonneg es
    have hw : w e = 0 := by omega
    rw [wsum_cons, ih (by omega), hw]
    simp

theorem mul_total_le {T lo : ℤ} (h : ∀ e ∈ es, lo ≤ k e * T) : lo * total w es ≤ wsum k w es * T := by
  induction es with
  | nil => simp [total, wsum]
  | cons e es ih =>
    have ih := ih fun e' he' => h e' (List.mem_cons_of_mem _ he')
    have he := mul_le_mul_of_nonneg_right (h e List.mem_cons_self) (Int.natCast_nonneg (w e))
    calc lo * (w e + total w es) = lo * w e + lo * total w es := by ring
      _ ≤ k e * T * w e + wsum k w es * T := add_le_add he ih
      _ = (k e * w e + wsum k w es) * T := by ring

theorem le_wsum {lo : ℤ} (h : ∀ e ∈ es, lo ≤ k e * total w es) (ht : 0 < total w es) : lo ≤ wsum k w es :=
  le_of_mul_le_mul_right (mul_total_le h) ht

theorem wsum_neg (es : List α) : wsum (fun e => -k e) w es = -wsum k w es := by
  induction es with
  | nil => rfl
  | cons e es ih => rw [wsum_cons, wsum_cons, ih]; ring

theorem wsum_le {hi : ℤ} (h : ∀ e ∈ es, k e * total w es ≤ hi) (ht : 0 < total w es) : wsum k w es ≤ hi := by
  have hn : -hi ≤ wsum (fun e => -k e) w es := le_wsum (fun e he => by have := h e he; linarith) ht
  rw [wsum_neg] at hn
  omega

theorem exists_le_wsum (ht : 0 < total w es) : ∃ e ∈ es, k e * total w es ≤ wsum k w es := by
  by_contra hc
  have hall : ∀ e ∈ es, wsum k w es + 1 ≤ k e * total w es := by
    intro e he
    by_contra hle
    exact hc ⟨e, he, by omega⟩
  have := le_wsum hall ht
  omega

theorem exists_wsum_le (ht : 0 < total w es) : ∃ e ∈ es, wsum k w es ≤ k e * total w es := by
  obtain ⟨e, he, hle⟩ := exists_le_wsum (k := fun e => -k e) ht
  rw [wsum_neg] at hle
  exact ⟨e, he, by linarith⟩

/-! ## The average, rounded -/

/-- A quotient that rounds to zero is the floor when a negative dividend is moved down first. -/
theorem tdiv_biased {s d : ℤ} (hd : 0 < d) : (if s < 0 then s - (d - 1) else s).tdiv d = s / d := by
  split
  · next hneg =>
    have hdiv := Int.mul_ediv_add_emod s d
    have hlow := Int.emod_nonneg s hd.ne'
    have hhigh := Int.emod_lt_of_pos s hd
    generalize s / d = q at *
    generalize s % d = r at *
    have hflip : s - (d - 1) = -(d - 1 - r + -q * d) := by rw [← hdiv]; ring
    have hnn : 0 ≤ d - 1 - r + -q * d := by omega
    rw [hflip, Int.neg_tdiv, Int.tdiv_eq_ediv_of_nonneg hnn, Int.add_mul_ediv_right _ _ hd.ne',
      Int.ediv_eq_zero_of_lt (by omega) (by omega), zero_add, neg_neg]
  · next hnn => exact Int.tdiv_eq_ediv_of_nonneg (not_lt.1 hnn)

/-- An element that joins at the average, less `lag` inflated by the weight it brings, is behind the new average by `lag`,
up to the rounding. -/
theorem join_average (s lag : ℤ) {t w v : ℤ} (ht : 0 < t) (hw : 0 < w) (hv : v = s / t - (lag * (t + w)).tdiv t) :
    |(s + v * w) / (t + w) - v - lag| ≤ 1 := by
  have hdiv := Int.mul_ediv_add_emod s t
  have htdiv := Int.mul_tdiv_add_tmod (lag * (t + w)) t
  -- what both divisions lose together is less than twice the old weight
  have hlost : s + v * w = s % t - (lag * (t + w)).tmod t + (v + lag) * (t + w) := by
    rw [hv]
    linear_combination -hdiv + htdiv
  have hlow := Int.emod_nonneg s ht.ne'
  have hhigh := Int.emod_lt_of_pos s ht
  have hlow' := Int.tmod_lt_of_pos (lag * (t + w)) ht
  have hhigh' := Int.lt_tmod_of_pos (lag * (t + w)) ht
  rw [hlost, Int.add_mul_ediv_right _ _ (by omega)]
  have hfloor : -1 ≤ (s % t - (lag * (t + w)).tmod t) / (t + w) := by
    rw [Int.le_ediv_iff_mul_le (by omega)]
    omega
  have hceil : (s % t - (lag * (t + w)).tmod t) / (t + w) < 2 := by
    rw [Int.ediv_lt_iff_lt_mul (by omega)]
    omega
  rw [abs_le]
  omega

end KernelSched.Weighted
