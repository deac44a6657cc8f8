import Mathlib.Tactic.Ring

/-!
# Division by a reciprocal in fixed point

`d * f / w` is computed as `d * (f * inv) / 2 ^ s`, with a whole number `inv` near `2 ^ s / w`. When the factor `f * inv`
has too many bits, its last `e` bits are dropped and the shift is shorter by as much (`mulShift`). What is lost comes from
the factor (`le_mulShift_succ`) and from the reciprocal (`Inverse`).
-/

namespace KernelSched.Reciprocal

variable {d f inv w s e c F : ℕ}

/-- `d * F / 2 ^ s`, where `F` first loses its last `e` bits. -/
def mulShift (d F e s : ℕ) : ℕ := d * (F / 2 ^ e) / 2 ^ (s - e)

theorem mulShift_mul_le (he : e ≤ s) : mulShift d F e s * 2 ^ s ≤ d * F := by
  have hpow : 2 ^ s = 2 ^ (s - e) * 2 ^ e := by rw [← pow_add, Nat.sub_add_cancel he]
  calc mulShift d F e s * 2 ^ s = d * (F / 2 ^ e) / 2 ^ (s - e) * 2 ^ (s - e) * 2 ^ e := by
        rw [hpow, mulShift, mul_assoc]
    _ ≤ d * (F / 2 ^ e) * 2 ^ e := Nat.mul_le_mul_right _ (Nat.div_mul_le_self _ _)
    _ = d * (F / 2 ^ e * 2 ^ e) := mul_assoc _ _ _
    _ ≤ d * F := Nat.mul_le_mul_left _ (Nat.div_mul_le_self _ _)

theorem le_mulShift_succ (he : e ≤ s) : d * F ≤ (mulShift d F e s + 1) * 2 ^ s + d * 2 ^ e := by
  have hpow : 2 ^ s = 2 ^ (s - e) * 2 ^ e := by rw [← pow_add, Nat.sub_add_cancel he]
  have hfactor : F ≤ F / 2 ^ e * 2 ^ e + 2 ^ e := (Nat.lt_div_mul_add (Nat.two_pow_pos e)).le
  have hproduct : d * (F / 2 ^ e) ≤ (mulShift d F e s + 1) * 2 ^ (s - e) := by
    rw [mulShift, add_mul, one_mul]
    exact (Nat.lt_div_mul_add (Nat.two_pow_pos (s - e))).le
  calc d * F ≤ d * (F / 2 ^ e * 2 ^ e + 2 ^ e) := Nat.mul_le_mul_left d hfactor
    _ = d * (F / 2 ^ e) * 2 ^ e + d * 2 ^ e := by ring
    _ ≤ (mulShift d F e s + 1) * 2 ^ (s - e) * 2 ^ e + d * 2 ^ e :=
        Nat.add_le_add_right (Nat.mul_le_mul_right _ hproduct) _
    _ = (mulShift d F e s + 1) * 2 ^ s + d * 2 ^ e := by rw [hpow, mul_assoc]

/-- `inv` is near `2 ^ s / w`: rounded down, or rounded up by very little. -/
structure Inverse (s c w inv : ℕ) : Prop where
  low : 2 ^ s ≤ inv * w + w
  high : inv * w ≤ 2 ^ s + c

theorem inverse_div (hw : 0 < w) : Inverse s 0 w ((2 ^ s - 1) / w) where
  low := by
    have hlt := Nat.lt_div_mul_add (a := 2 ^ s - 1) hw
    omega
  high := (Nat.div_mul_le_self _ _).trans (Nat.sub_le _ _)

theorem Inverse.mono (h : Inverse s c w inv) {c' : ℕ} (hc : c ≤ c') : Inverse s c' w inv :=
  ⟨h.low, h.high.trans (Nat.add_le_add_left hc _)⟩

theorem Inverse.mulShift_le (h : Inverse s c w inv) (he : e ≤ s) :
    mulShift d (f * inv) e s * w * 2 ^ s ≤ d * f * (2 ^ s + c) :=
  calc mulShift d (f * inv) e s * w * 2 ^ s = mulShift d (f * inv) e s * 2 ^ s * w := by ring
    _ ≤ d * (f * inv) * w := Nat.mul_le_mul_right _ (mulShift_mul_le he)
    _ = d * f * (inv * w) := by ring
    _ ≤ d * f * (2 ^ s + c) := Nat.mul_le_mul_left _ h.high

theorem Inverse.le_mulShift (h : Inverse s c w inv) (he : e ≤ s) :
    d * f * 2 ^ s ≤ (mulShift d (f * inv) e s + 1) * w * 2 ^ s + d * (w * 2 ^ e) + d * f * w :=
  calc d * f * 2 ^ s ≤ d * f * (inv * w + w) := Nat.mul_le_mul_left _ h.low
    _ = d * (f * inv) * w + d * f * w := by ring
    _ ≤ ((mulShift d (f * inv) e s + 1) * 2 ^ s + d * 2 ^ e) * w + d * f * w :=
        Nat.add_le_add_right (Nat.mul_le_mul_right _ (le_mulShift_succ he)) _
    _ = (mulShift d (f * inv) e s + 1) * w * 2 ^ s + d * (w * 2 ^ e) + d * f * w := by ring

end KernelSched.Reciprocal
