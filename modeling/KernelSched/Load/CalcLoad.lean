import KernelSched.Lib.Wrap

/-!
# Load averages in fixed point

`calc_load` moves an average a step towards a value, `calc_load_n` several steps at once with a power of the weight that
is rounded after every multiplication. All words are `unsigned long`, and the arithmetic is the machine's. As long as
the weight is at most one (`fixed1`), an average never leaves the range of the values (`calcLoad_le`), and neither does
a power of the weight (`fixedPowerInt_le`), whatever the rounding.
-/

namespace KernelSched.Load

open Wrap BitVec

def fshift : ℕ := 11

def fixed1 : U64 := 2048

def calcLoad (load exp active : U64) : U64 :=
  let newload := load * exp + active * (fixed1 - exp)
  (if load ≤ active then newload + (fixed1 - 1) else newload) / fixed1

/-- A product in fixed point, rounded -/
def mulRound (fracBits : ℕ) (a b : U64) : U64 := (a * b + 1 <<< (fracBits - 1)) >>> fracBits

def fixedPowerLoop (fracBits : ℕ) (result x : U64) (n : ℕ) : U64 :=
  let result := if n % 2 = 1 then mulRound fracBits result x else result
  if n / 2 = 0 then result else fixedPowerLoop fracBits result (mulRound fracBits x x) (n / 2)
termination_by n
decreasing_by omega

def fixedPowerInt (x : U64) (fracBits n : ℕ) : U64 :=
  if n = 0 then 1 <<< fracBits else fixedPowerLoop fracBits (1 <<< fracBits) x n

def calcLoadN (load exp active : U64) (n : ℕ) : U64 := calcLoad load (fixedPowerInt exp fshift n) active

/-! ## Bounds -/

theorem mulRound_le {a b : U64} (ha : a ≤ fixed1) (hb : b ≤ fixed1) : mulRound fshift a b ≤ fixed1 := by
  rw [le_def] at ha hb ⊢
  have hprod : a.toNat * b.toNat ≤ 2048 * 2048 := Nat.mul_le_mul ha hb
  have hhalf : (1 <<< (fshift - 1) : U64).toNat = 1024 := by decide
  rw [mulRound, toNat_ushiftRight, toNat_add, toNat_mul, hhalf, Nat.shiftRight_eq_div_pow]
  show _ / 2 ^ 11 ≤ 2048
  omega

theorem fixedPowerLoop_le (result x : U64) (n : ℕ) (hresult : result ≤ fixed1) (hx : x ≤ fixed1) :
    fixedPowerLoop fshift result x n ≤ fixed1 := by
  induction n using Nat.strong_induction_on generalizing result x with
  | _ n ih =>
    rw [fixedPowerLoop]
    have hnext : (if n % 2 = 1 then mulRound fshift result x else result) ≤ fixed1 := by
      split
      · exact mulRound_le hresult hx
      · exact hresult
    split
    · exact hnext
    · exact ih (n / 2) (by omega) _ _ hnext (mulRound_le hx hx)

theorem fixedPowerInt_le {x : U64} (hx : x ≤ fixed1) (n : ℕ) : fixedPowerInt x fshift n ≤ fixed1 := by
  have hone : (1 <<< fshift : U64) ≤ fixed1 := by decide
  unfold fixedPowerInt
  split
  · exact hone
  · exact fixedPowerLoop_le _ _ n hone hx

/-- The weighted sum of two numbers up to `m`, the weights summing to 2048 -/
private theorem weighted_le {load active exp m : ℕ} (hload : load ≤ m) (hactive : active ≤ m) (hexp : exp ≤ 2048) :
    load * exp + active * (2048 - exp) ≤ m * 2048 := by
  calc load * exp + active * (2048 - exp) ≤ m * exp + m * (2048 - exp) :=
        Nat.add_le_add (Nat.mul_le_mul_right _ hload) (Nat.mul_le_mul_right _ hactive)
    _ = m * 2048 := by rw [← Nat.mul_add]; congr 1; omega

theorem calcLoad_le {load exp active : U64} {m : ℕ} (hm : m < 2 ^ 40) (hload : load.toNat ≤ m)
    (hactive : active.toNat ≤ m)
    (hexp : exp ≤ fixed1) : (calcLoad load exp active).toNat ≤ m := by
  have hrest : (fixed1 - exp).toNat = 2048 - exp.toNat := toNat_sub_of_le hexp
  have hsum := weighted_le hload hactive (le_def.1 hexp)
  have hnewload : (load * exp + active * (fixed1 - exp)).toNat ≤ m * 2048 := by
    rw [toNat_add, toNat_mul, toNat_mul, hrest]
    omega
  show _ / 2048 ≤ m
  split
  · rw [toNat_add]
    have hround : (fixed1 - 1).toNat = 2047 := by decide
    omega
  · omega

theorem calcLoadN_le {load exp active : U64} {m : ℕ} (hm : m < 2 ^ 40) (hload : load.toNat ≤ m)
    (hactive : active.toNat ≤ m) (hexp : exp ≤ fixed1) (n : ℕ) : (calcLoadN load exp active n).toNat ≤ m :=
  calcLoad_le hm hload hactive (fixedPowerInt_le hexp n)

end KernelSched.Load
