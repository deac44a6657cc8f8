import KernelSched.Lib.Wrap

/-!
# Units

The capacity of a CPU and the scaling with it, on words and on numbers, the runtime that stands for no limit, and the
numerals of machines with two and three CPUs.
-/

namespace KernelSched

open Wrap BitVec

def schedCapacityShift : Nat := 10

def schedCapacityScale : Nat := 1 <<< schedCapacityShift

instance neZero_two : @NeZero Nat Zero.ofOfNat0 2 := ⟨nofun⟩

instance neZero_three : @NeZero Nat Zero.ofOfNat0 3 := ⟨nofun⟩

/-- `cap_scale` of a product that fits -/
def capScale (v s : Nat) : Nat := (v * s) >>> schedCapacityShift

/-- `cap_scale` of words -/
def capScaleU64 (v s : U64) : U64 := (v * s) >>> schedCapacityShift

def runtimeInf : Nat := 2 ^ 64 - 1

theorem capScale_le {v s : Nat} (hs : s ≤ schedCapacityScale) : capScale v s ≤ v := by
  rw [capScale, Nat.shiftRight_eq_div_pow]
  exact Nat.div_le_of_le_mul ((Nat.mul_le_mul_left v hs).trans_eq (Nat.mul_comm ..))

/-- A product that overflows only counts less. -/
theorem toNat_capScaleU64_le {v s : U64} (hs : s.toNat ≤ schedCapacityScale) : (capScaleU64 v s).toNat ≤ v.toNat := by
  refine le_trans ?_ (capScale_le hs)
  rw [capScaleU64, capScale, toNat_ushiftRight, toNat_mul, Nat.shiftRight_eq_div_pow, Nat.shiftRight_eq_div_pow]
  exact Nat.div_le_div_right (Nat.mod_le ..)

end KernelSched
