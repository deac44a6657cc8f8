import Mathlib.Tactic.Linarith
import KernelSched.Fair.Entity
import KernelSched.Lib.Reciprocal

/-!
# Dividing a duration by a weight

`calc_delta_fair` divides by a weight through its 32-bit inverse. The inverse is computed once for a weight, or comes with
the weight of a nice level from a table in which some entries are rounded up. The factor `NICE_0_LOAD * inv_weight` is cut
to 32 bits, and the product with the duration is shifted back by what is left of 32 bits. For weights up to `MAX_SHARES`
the result is off by at most a 2¹³th part, and one unit.
-/

namespace KernelSched.Fair

open Wrap Reciprocal

/-! ## Where inverses come from -/

def schedPrioToWeight : Array ℕ :=
  #[88761, 71755, 56483, 46273, 36291,
    29154, 23254, 18705, 14949, 11916,
    9548, 7620, 6100, 4904, 3906,
    3121, 2501, 1991, 1586, 1277,
    1024, 820, 655, 526, 423,
    335, 272, 215, 172, 137,
    110, 87, 70, 56, 45,
    36, 29, 23, 18, 15]

def schedPrioToWmult : Array ℕ :=
  #[48388, 59856, 76040, 92818, 118348,
    147320, 184698, 229616, 287308, 360437,
    449829, 563644, 704093, 875809, 1099582,
    1376151, 1717300, 2157191, 2708050, 3363326,
    4194304, 5237765, 6557202, 8165337, 10153587,
    12820798, 15790321, 19976592, 24970740, 31350126,
    39045157, 49367440, 61356676, 76695844, 95443717,
    119304647, 148102320, 186737708, 238609294, 286331153]

/-- What `set_load_weight` gives a task: by its nice level, or for `SCHED_IDLE`. -/
def setLoadWeight (idlePolicy : Bool) (prio : Fin 40) : LoadWeight :=
  if idlePolicy then ⟨scaleLoad 3, 1431655765⟩
  else ⟨scaleLoad (BitVec.ofNat 64 schedPrioToWeight[prio]!), BitVec.ofNat 32 schedPrioToWmult[prio]!⟩

/-- The inverse is one that the code stores beside the weight: none yet, the one that is computed, or that of a task. -/
inductive LoadWeight.Stored : LoadWeight → Prop
  | unset (w : U64) : Stored (updateLoadSet w)
  | computed (w : U64) : Stored (updateInvWeight (updateLoadSet w))
  | task (idlePolicy : Bool) (prio : Fin 40) : Stored (setLoadWeight idlePolicy prio)

def LoadWeight.scaled (lw : LoadWeight) : ℕ := (scaleLoadDown lw.weight).toNat

theorem updateInvWeight_weight (lw : LoadWeight) : (updateInvWeight lw).weight = lw.weight := by
  simp only [updateInvWeight]
  split_ifs <;> rfl

theorem updateInvWeight_unset {w : U64} (h : (scaleLoadDown w).toNat ∈ Set.Icc 2 (2 ^ 18)) :
    (updateInvWeight (updateLoadSet w)).invWeight.toNat = (2 ^ 32 - 1) / (scaleLoadDown w).toNat := by
  obtain ⟨hlow, hhigh⟩ := h
  have hmax : ¬ wmultConst.setWidth 64 ≤ scaleLoadDown w := by
    rw [BitVec.le_def]
    have hconst : (wmultConst.setWidth 64).toNat = 4294967295 := by decide
    omega
  have hzero : scaleLoadDown w ≠ 0 := by
    intro h0
    rw [h0] at hlow
    exact absurd hlow (by decide)
  simp only [updateInvWeight, updateLoadSet, ne_eq, not_true_eq_false, if_false, hmax, hzero]
  rw [BitVec.toNat_udiv, BitVec.toNat_setWidth, Nat.mod_eq_of_lt (by omega)]
  rfl

theorem setLoadWeight_inverse (idlePolicy : Bool) (prio : Fin 40) : (setLoadWeight idlePolicy prio).invWeight ≠ 0 ∧
      Inverse 32 64 (setLoadWeight idlePolicy prio).scaled (setLoadWeight idlePolicy prio).invWeight.toNat := by
  have h : ∀ idlePolicy prio,
      let lw := setLoadWeight idlePolicy prio
      lw.invWeight ≠ 0 ∧ 2 ^ 32 ≤ lw.invWeight.toNat * lw.scaled + lw.scaled ∧
        lw.invWeight.toNat * lw.scaled ≤ 2 ^ 32 + 64 := by decide +kernel
  obtain ⟨hset, hlow, hhigh⟩ := h idlePolicy prio
  exact ⟨hset, hlow, hhigh⟩

theorem LoadWeight.Stored.inverse {lw : LoadWeight} (h : lw.Stored) (hw : lw.scaled ∈ Set.Icc 2 (2 ^ 18)) :
    Inverse 32 64 lw.scaled (updateInvWeight lw).invWeight.toNat := by
  have hcomputed : ∀ {w : U64}, (updateLoadSet w).scaled ∈ Set.Icc 2 (2 ^ 18) →
      Inverse 32 64 (updateLoadSet w).scaled (updateInvWeight (updateLoadSet w)).invWeight.toNat := by
    intro w hw
    have hinv := updateInvWeight_unset (w := w) hw
    rw [hinv]
    exact (inverse_div (by have := hw.1; omega)).mono (Nat.zero_le _)
  have hset : ∀ {lw : LoadWeight}, lw.invWeight ≠ 0 → updateInvWeight lw = lw := fun h => if_pos h
  cases h with
  | unset w => exact hcomputed hw
  | computed w =>
    have hscaled : (updateInvWeight (updateLoadSet w)).scaled = (updateLoadSet w).scaled := by
      rw [LoadWeight.scaled, updateInvWeight_weight]
      rfl
    rw [hscaled] at hw ⊢
    have hinverse := hcomputed hw
    rwa [hset]
    intro hzero
    have hlow := hinverse.low
    rw [hzero] at hlow
    have := hw.2
    simp at hlow
    omega
  | task idlePolicy prio =>
    obtain ⟨hne, hinverse⟩ := setLoadWeight_inverse idlePolicy prio
    rwa [hset hne]

/-! ## The factor -/

/-- How many bits a factor has beyond 32. -/
def excess (fact : U64) : ℕ := fls ((fact >>> 32).setWidth 32)

/-- The product that `mul_u32_u32` computes. -/
def factor (weight : U64) (inv : BitVec 32) : U64 :=
  ((scaleLoadDown weight >>> excess (scaleLoadDown weight)).setWidth 32).setWidth 64 * inv.setWidth 64

/-- What is left of the factor, passed as a `u32`. -/
def cutFactor (weight : U64) (inv : BitVec 32) : BitVec 32 :=
  (factor weight inv >>> excess (factor weight inv)).setWidth 32

/-- The variable `shift` at the end of `__calc_delta`. -/
def deltaShift (weight : U64) (inv : BitVec 32) : ℤ := 32 - excess (scaleLoadDown weight) - excess (factor weight inv)

/-- `mul_u64_u32_shr` where the compiler has no 128-bit numbers: the two halves apart -/
def mulU64U32ShrHalves (a : U64) (mul : BitVec 32) (shift : ℕ) : U64 :=
  let al := a.setWidth 32
  let ah := (a >>> 32).setWidth 32
  let ret := (al.setWidth 64 * mul.setWidth 64) >>> shift
  if ah ≠ 0 then ret + (ah.setWidth 64 * mul.setWidth 64) <<< (32 - shift) else ret

theorem calcDelta_eq (deltaExec weight : U64) (lw : LoadWeight) : (calcDelta deltaExec weight lw).1 =
    mulU64U32Shr deltaExec (cutFactor weight (updateInvWeight lw).invWeight)
      (deltaShift weight (updateInvWeight lw).invWeight).toNat := by
  have hshift : (deltaShift weight (updateInvWeight lw).invWeight).toNat =
      32 - excess (scaleLoadDown weight) - excess (factor weight (updateInvWeight lw).invWeight) := by
    unfold deltaShift
    omega
  rw [hshift]
  rfl

theorem toNat_high (x : U64) : ((x >>> 32).setWidth 32).toNat = x.toNat / 2 ^ 32 := by
  rw [BitVec.toNat_setWidth, BitVec.toNat_ushiftRight, Nat.shiftRight_eq_div_pow, Nat.mod_eq_of_lt]
  omega

theorem excess_spec (x : U64) : x.toNat / 2 ^ excess x < 2 ^ 32 ∧ (excess x = 0 ∨ 2 ^ (31 + excess x) ≤ x.toNat) := by
  have hhigh := toNat_high x
  unfold excess fls
  split
  · next hzero =>
    rw [hzero] at hhigh
    have hnone : x.toNat / 2 ^ 32 = 0 := hhigh.symm
    omega
  · next hne =>
    have hne : x.toNat / 2 ^ 32 ≠ 0 := by
      rw [← hhigh]
      exact fun h => hne (BitVec.eq_of_toNat_eq h)
    rw [hhigh]
    have hlow := Nat.log2_self_le hne
    have hlt := Nat.lt_log2_self (n := x.toNat / 2 ^ 32)
    have hdiv := Nat.div_mul_le_self x.toNat (2 ^ 32)
    have hrest := Nat.lt_div_mul_add (a := x.toNat) (Nat.two_pow_pos 32)
    generalize x.toNat / 2 ^ 32 = h at *
    generalize h.log2 = n at *
    refine ⟨?_, .inr ?_⟩
    · rw [Nat.div_lt_iff_lt_mul (Nat.two_pow_pos _)]
      linarith
    · have := Nat.mul_le_mul_right (2 ^ 32) hlow
      rw [show 31 + (n + 1) = n + 32 by ring, pow_add]
      exact this.trans hdiv

theorem toNat_mulU32U32 (x y : BitVec 32) : (x.setWidth 64 * y.setWidth 64).toNat = x.toNat * y.toNat := by
  refine Nat.mod_eq_of_lt ?_
  calc x.toNat * y.toNat < 2 ^ 32 * 2 ^ 32 := Nat.mul_lt_mul'' x.isLt y.isLt
    _ = 2 ^ 64 := by norm_num

theorem mulU64U32ShrHalves_eq (a : U64) (mul : BitVec 32) {shift : ℕ} (h : shift ≤ 32) :
    mulU64U32ShrHalves a mul shift = mulU64U32Shr a mul shift := by
  have hsplit := Nat.div_add_mod a.toNat (2 ^ 32)
  have hlow : (a.setWidth 32).toNat = a.toNat % 2 ^ 32 := BitVec.toNat_setWidth _ _
  have hhigh := toNat_high a
  -- the upper half times the factor has as many zeros at its end as are shifted out
  have hwhole : (a.toNat * mul.toNat) >>> shift =
      a.toNat % 2 ^ 32 * mul.toNat / 2 ^ shift + a.toNat / 2 ^ 32 * mul.toNat * 2 ^ (32 - shift) := by
    have hpow : 2 ^ 32 = 2 ^ (32 - shift) * 2 ^ shift := by rw [← pow_add, Nat.sub_add_cancel h]
    rw [Nat.shiftRight_eq_div_pow, ← Nat.add_mul_div_right _ _ (Nat.two_pow_pos shift), mul_assoc _ (2 ^ (32 - shift)),
      ← hpow]
    conv_lhs => rw [← hsplit]
    ring_nf
  apply BitVec.eq_of_toNat_eq
  rw [mulU64U32Shr, BitVec.toNat_ofNat, hwhole]
  simp only [mulU64U32ShrHalves]
  split
  · rw [BitVec.toNat_add, BitVec.toNat_ushiftRight, BitVec.toNat_shiftLeft, toNat_mulU32U32, toNat_mulU32U32, hlow, hhigh,
      Nat.shiftRight_eq_div_pow, Nat.shiftLeft_eq, Nat.add_mod_mod]
  · next hzero =>
    have hnone : a.toNat / 2 ^ 32 = 0 := by
      rw [← hhigh, not_not.1 hzero]
      rfl
    rw [BitVec.toNat_ushiftRight, toNat_mulU32U32, hlow, Nat.shiftRight_eq_div_pow, hnone, zero_mul, zero_mul, add_zero]
    refine (Nat.mod_eq_of_lt ((Nat.div_le_self _ _).trans_lt ?_)).symm
    calc a.toNat % 2 ^ 32 * mul.toNat < 2 ^ 32 * 2 ^ 32 := Nat.mul_lt_mul'' (Nat.mod_lt _ (by norm_num)) mul.isLt
      _ = 2 ^ 64 := by norm_num

/-! ## The error -/

section

variable {w : ℕ} {inv : BitVec 32}

theorem factor_nice0 (inv : BitVec 32) : (factor nice0Load inv).toNat = 1024 * inv.toNat := by
  exact Nat.mod_eq_of_lt (by change 1024 * inv.toNat < _; omega)

theorem toNat_cutFactor (weight : U64) (inv : BitVec 32) :
    (cutFactor weight inv).toNat = (factor weight inv).toNat / 2 ^ excess (factor weight inv) := by
  rw [cutFactor, BitVec.toNat_setWidth, BitVec.toNat_ushiftRight, Nat.shiftRight_eq_div_pow]
  exact Nat.mod_eq_of_lt (excess_spec _).1

theorem excess_factor (hw : w ∈ Set.Icc 2 (2 ^ 18)) (h : Inverse 32 64 w inv.toNat) :
    excess (factor nice0Load inv) ≤ 10 ∧ w * 2 ^ excess (factor nice0Load inv) ≤ 2 ^ 18 := by
  obtain ⟨hlow, hhigh⟩ := hw
  rcases (excess_spec (factor nice0Load inv)).2 with hzero | hle
  · rw [hzero]
    omega
  · rw [factor_nice0, pow_add] at hle
    generalize excess (factor nice0Load inv) = e at *
    have hscaled : w * 2 ^ e * 2 ^ 31 ≤ 1024 * (2 ^ 32 + 64) :=
      calc w * 2 ^ e * 2 ^ 31 = w * (2 ^ 31 * 2 ^ e) := by ring
        _ ≤ w * (1024 * inv.toNat) := Nat.mul_le_mul_left w hle
        _ = 1024 * (inv.toNat * w) := by ring
        _ ≤ 1024 * (2 ^ 32 + 64) := Nat.mul_le_mul_left _ h.high
    refine ⟨?_, by omega⟩
    have hpow : 2 ^ e < 2 ^ 11 := by omega
    exact Nat.le_of_lt_succ ((Nat.pow_lt_pow_iff_right (by norm_num)).1 hpow)

/-- The word that `mul_u64_u32_shr` returns is the product, shifted, with all its bits. -/
theorem toNat_mulU64U32Shr (hw : w ∈ Set.Icc 2 (2 ^ 18)) (h : Inverse 32 64 w inv.toNat) {delta : U64}
    (hdelta : delta.toNat < 2 ^ 54) : (mulU64U32Shr delta (cutFactor nice0Load inv)
    (deltaShift nice0Load inv).toNat).toNat =
      mulShift delta.toNat (1024 * inv.toNat) (excess (factor nice0Load inv)) 32 := by
  have hexcess : excess (scaleLoadDown nice0Load) = 0 := by decide
  have hshift : (deltaShift nice0Load inv).toNat = 32 - excess (factor nice0Load inv) := by
    rw [deltaShift, hexcess]
    omega
  have hle := (excess_factor hw h).1
  rw [mulU64U32Shr, BitVec.toNat_ofNat, toNat_cutFactor, factor_nice0, Nat.shiftRight_eq_div_pow, hshift]
  refine Nat.mod_eq_of_lt ?_
  have hupper := h.mulShift_le (d := delta.toNat) (f := 1024) (e := excess (factor nice0Load inv)) (by omega)
  change mulShift delta.toNat (1024 * inv.toNat) (excess (factor nice0Load inv)) 32 < 2 ^ 64
  generalize mulShift delta.toNat (1024 * inv.toNat) (excess (factor nice0Load inv)) 32 = r at *
  have htwo : r * 2 ≤ r * w := Nat.mul_le_mul_left r hw.1
  omega

theorem calcDelta_between {delta : U64} {lw : LoadWeight} (hdelta : delta.toNat < 2 ^ 54) (hstored : lw.Stored)
    (hw : lw.scaled ∈ Set.Icc 2 (2 ^ 18)) :
    (calcDelta delta nice0Load lw).1.toNat * lw.scaled * 2 ^ 32 ≤ delta.toNat * 1024 * (2 ^ 32 + 64) ∧
      delta.toNat * 1024 * 2 ^ 32 ≤ ((calcDelta delta nice0Load lw).1.toNat + 1) * lw.scaled * 2 ^ 32 +
        delta.toNat * 2 ^ 18 + delta.toNat * 1024 * 2 ^ 18 := by
  have hinverse := hstored.inverse hw
  obtain ⟨he, hlost⟩ := excess_factor hw hinverse
  rw [calcDelta_eq, toNat_mulU64U32Shr hw hinverse hdelta]
  generalize excess (factor nice0Load (updateInvWeight lw).invWeight) = e at *
  have hlower := hinverse.le_mulShift (d := delta.toNat) (f := 1024) (by omega : e ≤ 32)
  have hdropped : delta.toNat * (lw.scaled * 2 ^ e) ≤ delta.toNat * 2 ^ 18 := Nat.mul_le_mul_left _ hlost
  have hrounded : delta.toNat * 1024 * lw.scaled ≤ delta.toNat * 1024 * 2 ^ 18 := Nat.mul_le_mul_left _ hw.2
  exact ⟨hinverse.mulShift_le (by omega), by linarith⟩

end

/-! ## calc_delta_fair -/

/-- `delta * NICE_0_LOAD / w`, not rounded -/
def exactDelta (delta : U64) (lw : LoadWeight) : ℚ := delta.toNat * 1024 / lw.scaled

def deltaError (delta : U64) (lw : LoadWeight) : ℚ := exactDelta delta lw / 2 ^ 13 + 1

/-- The division is accurate, and nothing is cut off on the way but what is shifted out. -/
structure DeltaRight (delta : U64) (se : SchedEntity) (inv : BitVec 32) : Prop where
  near : |((calcDeltaFair delta se).1.toNat : ℚ) - exactDelta delta se.load| ≤ deltaError delta se.load
  nice0 : se.load.weight = nice0Load → (calcDeltaFair delta se).1 = delta
  shift : 22 ≤ deltaShift nice0Load inv ∧ deltaShift nice0Load inv ≤ 32
  factor : (factor nice0Load inv).toNat = (scaleLoadDown nice0Load).toNat * inv.toNat
  cut : (cutFactor nice0Load inv).toNat = (Fair.factor nice0Load inv).toNat / 2 ^ excess (Fair.factor nice0Load inv)
  product : (mulU64U32Shr delta (cutFactor nice0Load inv) (deltaShift nice0Load inv).toNat).toNat =
    delta.toNat * (cutFactor nice0Load inv).toNat / 2 ^ (deltaShift nice0Load inv).toNat
  halves : mulU64U32ShrHalves delta (cutFactor nice0Load inv) (deltaShift nice0Load inv).toNat =
    mulU64U32Shr delta (cutFactor nice0Load inv) (deltaShift nice0Load inv).toNat

section

variable {delta : U64} {se : SchedEntity}

/-- The result is above the exact quotient by very little, and below it by an error that grows with the weight. -/
theorem calcDeltaFair_bounds (hdelta : delta.toNat < 2 ^ 54) (hstored : se.load.Stored)
    (hw : se.load.scaled ∈ Set.Icc 2 (2 ^ 18)) :
    ((calcDeltaFair delta se).1.toNat : ℚ) ≤ exactDelta delta se.load * (1 + 1 / 2 ^ 26) ∧
      exactDelta delta se.load * (1 - 1 / 2 ^ 14 - 1 / 2 ^ 24) ≤ (calcDeltaFair delta se).1.toNat + 1 := by
  have hpos : (0 : ℚ) < se.load.scaled := by
    have := hw.1
    exact_mod_cast (by omega : 0 < se.load.scaled)
  unfold calcDeltaFair exactDelta
  split
  · next hnice =>
    have hscaled : se.load.scaled = 1024 := by
      rw [LoadWeight.scaled, hnice]
      decide
    rw [hscaled]
    constructor <;> linarith
  · obtain ⟨hupper, hlower⟩ := calcDelta_between hdelta hstored hw
    have hupper := (Nat.cast_le (α := ℚ)).2 hupper
    have hlower := (Nat.cast_le (α := ℚ)).2 hlower
    push_cast at hupper hlower
    rw [div_mul_eq_mul_div, le_div_iff₀ hpos, div_mul_eq_mul_div, div_le_iff₀ hpos]
    constructor <;> linarith

theorem exactDelta_anti (delta : U64) {lw lw' : LoadWeight} (hpos : 0 < lw.scaled) (hle : lw.scaled ≤ lw'.scaled) :
    exactDelta delta lw' ≤ exactDelta delta lw := by
  unfold exactDelta
  gcongr

end

/-- For weights up to `MAX_SHARES` the division is accurate and does not overflow, and a larger weight gives no larger
result, up to the error. -/
theorem calc_delta_fair_right {delta : U64} {se : SchedEntity} (hdelta : delta.toNat < 2 ^ 54)
    (hstored : se.load.Stored) (hw : se.load.scaled ∈ Set.Icc 2 (2 ^ 18)) :
    DeltaRight delta se (updateInvWeight se.load).invWeight ∧
      ∀ se' : SchedEntity, se'.load.Stored → se'.load.scaled ≤ 2 ^ 18 → se.load.scaled ≤ se'.load.scaled →
        ((calcDeltaFair delta se').1.toNat : ℚ) ≤ (calcDeltaFair delta se).1.toNat + deltaError delta se.load := by
  have hinverse := hstored.inverse hw
  obtain ⟨he, -⟩ := excess_factor hw hinverse
  obtain ⟨hupper, hlower⟩ := calcDeltaFair_bounds hdelta hstored hw
  have hscaled : excess (scaleLoadDown nice0Load) = 0 := by decide
  have hshift : deltaShift nice0Load (updateInvWeight se.load).invWeight =
      32 - excess (factor nice0Load (updateInvWeight se.load).invWeight) := by
    rw [deltaShift, hscaled]
    simp
  refine ⟨⟨?_, fun h => ?_, ?_, factor_nice0 _, toNat_cutFactor _ _, ?_, ?_⟩, fun se' hstored' hmax hle => ?_⟩
  · rw [abs_le, deltaError]
    constructor <;> linarith
  · rw [calcDeltaFair, if_pos h]
  · omega
  · rw [toNat_mulU64U32Shr hw hinverse hdelta, toNat_cutFactor, factor_nice0, mulShift, hshift]
    congr 2
    omega
  · exact mulU64U32ShrHalves_eq _ _ (by omega)
  · have hw' : se'.load.scaled ∈ Set.Icc 2 (2 ^ 18) := ⟨hw.1.trans hle, hmax⟩
    have hupper' := (calcDeltaFair_bounds hdelta hstored' hw').1
    have hanti := exactDelta_anti delta (by have := hw.1; omega) hle
    rw [deltaError]
    linarith

def niceTask (prio : Fin 40) : SchedEntity where
  id := 1
  load := setLoadWeight false prio
  onRq := true
  execStart := 0
  sumExecRuntime := 0
  prevSumExecRuntime := 0
  vruntime := 0
  vlag := 0
  deadline := 0
  slice := 0

/-- A tick of 1 ms at nice 5, where the inverse of the table is rounded up. -/
theorem calc_delta_fair_right_nice5 : (calcDeltaFair 1000000 (niceTask 25)).1 = 3056716 ∧
    DeltaRight 1000000 (niceTask 25) 12820798 ∧
    ((calcDeltaFair 1000000 (niceTask 24)).1.toNat : ℚ) ≤ 3056716 + deltaError 1000000 (niceTask 25).load := by
  have hw : (niceTask 25).load.scaled = 335 := by decide
  have hmem : (niceTask 25).load.scaled ∈ Set.Icc 2 (2 ^ 18) := by
    rw [hw]
    constructor <;> norm_num
  have hshort : (1000000#64).toNat < 2 ^ 54 := by decide
  obtain ⟨hright, hmono⟩ := calc_delta_fair_right hshort (.task false 25) hmem
  refine ⟨by decide, hright, ?_⟩
  have hresult : (calcDeltaFair 1000000#64 (niceTask 25)).1.toNat = 3056716 := by decide
  have hle := hmono (niceTask 24) (.task false 24) (by decide) (by decide)
  exact_mod_cast hle

end KernelSched.Fair
