import Mathlib.Tactic.Linarith
import Mathlib.Tactic.Ring

/-!
# Decay in fixed point

A sum decays by a shift and a factor `a / d` below 1, rounded down twice (`decay`). Rounding makes it superadditive
(`decay_add_le`): parts that decay separately lose more than their sum. The other way, a sum that is kept in units of
`1 / m` loses less than `m` times the plain sum, but not more than a slack that the decay itself makes up for
(`decay_mul_add_le`). It is less than two below the exact product (`exact_lt_decay`).
-/

namespace KernelSched.Decay

/-- `v` divided by `s` and multiplied by `a / d`, rounded down each time. -/
def decay (s a d v : Nat) : Nat := v / s * a / d

variable {s a d v w m e : Nat}

theorem decay_mono (h : v ≤ w) : decay s a d v ≤ decay s a d w :=
  Nat.div_le_div_right (Nat.mul_le_mul_right a (Nat.div_le_div_right h))

theorem decay_le (ha : a ≤ d) : decay s a d v ≤ v / s := by
  · exact Nat.div_le_of_le_mul (by rw [Nat.mul_comm d]; exact Nat.mul_le_mul_left _ ha)

theorem decay_add_le : decay s a d v + decay s a d w ≤ decay s a d (v + w) := by
  refine Nat.div_add_div_le_add_div.trans (Nat.div_le_div_right ?_)
  rw [← Nat.add_mul]
  exact Nat.mul_le_mul_right a Nat.div_add_div_le_add_div

theorem mul_decay_le : m * decay s a d v ≤ decay s a d (m * v) := by
  induction m with
  | zero => simp
  | succ m ih =>
    rw [Nat.succ_mul, Nat.succ_mul]
    exact (Nat.add_le_add_right ih _).trans decay_add_le

/-- The slack `e` covers the rounding of `m` units if the factor takes that much of it away. -/
theorem decay_one_mul_add_le (hd : 0 < d) (h : m * d + e * a ≤ e * d) :
    decay 1 a d (m * v + e) ≤ m * decay 1 a d v + e := by
  unfold decay
  rw [Nat.div_one, Nat.div_one]
  have hdiv := Nat.div_add_mod (v * a) d
  have hmod := Nat.mod_lt (v * a) hd
  generalize v * a / d = q at *
  generalize v * a % d = r at *
  refine Nat.le_of_lt_succ ((Nat.div_lt_iff_lt_mul hd).2 ?_)
  calc (m * v + e) * a = m * (v * a) + e * a := by ring
    _ = m * q * d + (m * r + e * a) := by rw [← hdiv]; ring
    _ < (m * q + e + 1) * d := by nlinarith

theorem decay_mul_add_le (hs : 2 ≤ s) (hd : 0 < d) (ha : a ≤ d) (h : 4 * m ≤ e) :
    decay s a d (m * v + e) ≤ m * decay s a d v + e := by
  have hshift : (m * v + e) / s ≤ m * (v / s) + (m + e / 2) := by
    have hdiv := Nat.div_add_mod v s
    have hmod := Nat.mod_lt v (show 0 < s by omega)
    generalize v / s = q at *
    generalize v % s = r at *
    have hr : m * r ≤ m * s := Nat.mul_le_mul_left m hmod.le
    have he : e ≤ (e / 2 + 1) * s - 1 := by
      have : (e / 2 + 1) * 2 ≤ (e / 2 + 1) * s := Nat.mul_le_mul_left _ hs
      omega
    refine Nat.le_of_lt_succ ((Nat.div_lt_iff_lt_mul (show 0 < s by omega)).2 ?_)
    have hpos : 0 < (e / 2 + 1) * s := mul_pos (by omega) (by omega)
    calc m * v + e = m * q * s + (m * r + e) := by rw [← hdiv]; ring
      _ < m * q * s + (m * s + (e / 2 + 1) * s) := by omega
      _ = (m * q + (m + e / 2) + 1) * s := by ring
  have hfactor : (m * (v / s) + (m + e / 2)) * a / d ≤ m * (v / s * a / d) + m + (m + e / 2) := by
    have hdiv := Nat.div_add_mod (v / s * a) d
    have hmod := Nat.mod_lt (v / s * a) hd
    generalize v / s = u at *
    generalize u * a / d = q at *
    generalize u * a % d = r at *
    have hr : m * r ≤ m * d := Nat.mul_le_mul_left m hmod.le
    have hk : (m + e / 2) * a ≤ (m + e / 2) * d := Nat.mul_le_mul_left _ ha
    refine Nat.le_of_lt_succ ((Nat.div_lt_iff_lt_mul hd).2 ?_)
    calc (m * u + (m + e / 2)) * a = m * (u * a) + (m + e / 2) * a := by ring
      _ = m * q * d + (m * r + (m + e / 2) * a) := by rw [← hdiv]; ring
      _ < m * q * d + (m * d + (m + e / 2) * d) + d := by omega
      _ = (m * q + m + (m + e / 2) + 1) * d := by ring
  calc decay s a d (m * v + e) ≤ (m * (v / s) + (m + e / 2)) * a / d :=
        Nat.div_le_div_right (Nat.mul_le_mul_right a hshift)
    _ ≤ m * (v / s * a / d) + m + (m + e / 2) := hfactor
    _ ≤ m * decay s a d v + e := by unfold decay; omega

/-! ## Against the exact product -/

theorem decay_le_exact (hs : 0 < s) (hd : 0 < d) : (decay s a d v : ℚ) ≤ v * (a / d / s) := by
  have hfactor : decay s a d v * d ≤ v / s * a := Nat.div_mul_le_self _ _
  have hshift : v / s * s ≤ v := Nat.div_mul_le_self _ _
  have hnat : decay s a d v * (d * s) ≤ v * a :=
    calc decay s a d v * (d * s) = decay s a d v * d * s := (mul_assoc _ _ _).symm
      _ ≤ v / s * a * s := Nat.mul_le_mul_right s hfactor
      _ = v / s * s * a := by ring
      _ ≤ v * a := Nat.mul_le_mul_right a hshift
  have hpos : (0 : ℚ) < d * s := by exact_mod_cast Nat.mul_pos hd hs
  rw [div_div, ← mul_div_assoc, le_div_iff₀ hpos]
  exact_mod_cast hnat

theorem exact_lt_decay (hs : 0 < s) (hd : 0 < d) (ha : a ≤ d) : v * ((a : ℚ) / d / s) < decay s a d v + 2 := by
  have hfactor : v / s * a < (decay s a d v + 1) * d := by
    rw [add_mul, one_mul]
    exact Nat.lt_div_mul_add hd
  have hshift : v ≤ v / s * s + s := (Nat.lt_div_mul_add hs).le
  have hnat : v * a < (decay s a d v + 2) * (d * s) :=
    calc v * a ≤ (v / s * s + s) * a := Nat.mul_le_mul_right a hshift
      _ = v / s * a * s + s * a := by ring
      _ ≤ v / s * a * s + s * d := Nat.add_le_add_left (Nat.mul_le_mul_left s ha) _
      _ < (decay s a d v + 1) * d * s + s * d := Nat.add_lt_add_right (Nat.mul_lt_mul_of_pos_right hfactor hs) _
      _ = (decay s a d v + 2) * (d * s) := by ring
  have hpos : (0 : ℚ) < d * s := by exact_mod_cast Nat.mul_pos hd hs
  rw [div_div, ← mul_div_assoc, div_lt_iff₀ hpos]
  exact_mod_cast hnat

end KernelSched.Decay
