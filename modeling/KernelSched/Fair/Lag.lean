import KernelSched.Fair.Delta
import KernelSched.Fair.Pick

/-!
# The average vruntime and the lag

`avg_vruntime` divides the weighted sum of the keys by the total load. The load is a word of 64 bits, but `div_s64` takes
a divisor of 32: the quotient is the average, rounded down, as long as the load is below 2³¹ (`avgVruntimeOf_eq`). Then
`entity_eligible`, which multiplies instead, agrees with it, `update_entity_lag` stores a lag with the right sign, and
`place_entity` puts an entity where it has its lag again once it is counted itself.
-/

namespace KernelSched.Fair

open Wrap Weighted Run CfsRq
open BitVec (ofInt ofInt_add ofInt_toInt ofInt_mul toInt_neg ofNat)

theorem ofInt_sub (x y : ℤ) : ofInt 64 (x - y) = ofInt 64 x - ofInt 64 y := by
  rw [sub_eq_add_neg, ofInt_add, BitVec.ofInt_neg, BitVec.sub_eq_add_neg]

theorem ofInt_toNat (x : U64) : ofInt 64 x.toNat = x := by simp

/-- What `div_s64` divides by: the divisor is passed as an `s32`. -/
def divisor (d : U64) : ℤ := (d.setWidth 32).toInt

theorem divS64_eq (x d : U64) : divS64 x d = ofInt 64 (x.toInt.tdiv (divisor d)) := rfl

theorem divisor_of_lt {d : U64} (h : d.toNat < 2 ^ 31) : divisor d = d.toNat := by
  have hcut : (d.setWidth 32).toNat = d.toNat := by
    exact Nat.mod_eq_of_lt (by omega)
  rw [divisor, BitVec.toInt_eq_toNat_of_lt (by omega), hcut]

namespace CfsRq

/-- The sum of weighted keys that `avg_vruntime` divides, as a number. -/
def avgSum (cfs : CfsRq) : ℤ := cfs.avgAndLoad.1.toInt

def totalLoad (cfs : CfsRq) : ℕ := cfs.avgAndLoad.2.toNat

variable {cfs : CfsRq}

/-- `avg_vruntime` is the average rounded down, with a load that fits the divisor. -/
theorem avgVruntimeOf_eq (hpos : 0 < cfs.totalLoad) (hlt : cfs.totalLoad < 2 ^ 31)
    (hfits : InS64 (cfs.avgSum - (cfs.totalLoad - 1))) :
    cfs.avgVruntimeOf = cfs.minVruntime + ofInt 64 (cfs.avgSum / cfs.totalLoad) := by
  have hne : cfs.avgAndLoad.2 ≠ 0 := by
    intro h0
    rw [totalLoad, h0] at hpos
    exact absurd hpos (by decide)
  have hbiased : (if cfs.avgAndLoad.1.toInt < 0 then cfs.avgAndLoad.1 - (cfs.avgAndLoad.2 - 1)
    else cfs.avgAndLoad.1).toInt =
      if cfs.avgSum < 0 then cfs.avgSum - (cfs.totalLoad - 1) else cfs.avgSum := by
    rw [avgSum]
    split
    · have hword : cfs.avgAndLoad.1 - (cfs.avgAndLoad.2 - 1) =
          ofInt 64 (cfs.avgSum - (cfs.totalLoad - 1)) := by
        rw [ofInt_sub, ofInt_sub, avgSum, totalLoad, ofInt_toInt, ofInt_toNat]
        rfl
      rw [hword, hfits.toInt_ofInt]
      rfl
    · rfl
  have hpos : (0 : ℤ) < cfs.totalLoad := by exact_mod_cast hpos
  simp only [avgVruntimeOf, hne, if_false]
  rw [divS64_eq, divisor_of_lt hlt, hbiased]
  exact congrArg (fun q => cfs.minVruntime + ofInt 64 q) (tdiv_biased hpos)

/-! ## Eligible or not -/

/-- No signed word overflows when `se` is compared with the average. -/
structure Comparable (cfs : CfsRq) (se : SchedEntity) : Prop where
  product : InS64 (cfs.key se * cfs.totalLoad)
  sum : InS64 (cfs.avgSum - (cfs.totalLoad - 1))
  lag : |cfs.avgSum / cfs.totalLoad - cfs.key se| < 2 ^ 63

section

variable {se : SchedEntity}

section

variable (h : cfs.Comparable se) (hpos : 0 < cfs.totalLoad)

include h hpos

theorem Comparable.lag_eq (hlt : cfs.totalLoad < 2 ^ 31) :
    (cfs.avgVruntimeOf - se.vruntime).toInt = cfs.avgSum / cfs.totalLoad - cfs.key se := by
  have hword : cfs.avgVruntimeOf - se.vruntime = ofInt 64 (cfs.avgSum / cfs.totalLoad - cfs.key se) := by
    rw [avgVruntimeOf_eq hpos hlt h.sum, ofInt_sub, ofInt_key, entityKey]
    ring
  obtain ⟨hlow, hhigh⟩ := abs_lt.1 h.lag
  rw [hword, InS64.toInt_ofInt ⟨hlow.le, hhigh⟩]

theorem Comparable.eligible_iff : cfs.entityEligible se = true ↔ cfs.key se ≤ cfs.avgSum / cfs.totalLoad := by
  have hpos : (0 : ℤ) < cfs.totalLoad := by exact_mod_cast hpos
  have hword : cfs.entityKey se * cfs.avgAndLoad.2 = ofInt 64 (cfs.key se * cfs.totalLoad) := by
    rw [ofInt_mul, ofInt_key, totalLoad, ofInt_toNat]
  rw [entityEligible, decide_eq_true_iff, hword, h.product.toInt_ofInt, Int.le_ediv_iff_mul_le hpos]
  rfl

theorem Comparable.ahead_iff (hlt : cfs.totalLoad < 2 ^ 31) :
    ahead se.vruntime cfs.avgVruntimeOf = true ↔ cfs.avgSum / cfs.totalLoad < cfs.key se := by
  have hneg : (se.vruntime - cfs.avgVruntimeOf).toInt = cfs.key se - cfs.avgSum / cfs.totalLoad := by
    obtain ⟨hlow, hhigh⟩ := abs_lt.1 h.lag
    rw [← neg_sub, toInt_neg, h.lag_eq hpos hlt, neg_sub]
    exact Int.bmod_eq_of_le (by omega) (by omega)
  rw [Wrap.ahead_iff, hneg]
  omega

theorem Comparable.ahead_avg_iff (hlt : cfs.totalLoad < 2 ^ 31) :
    ahead cfs.avgVruntimeOf se.vruntime = true ↔ cfs.key se < cfs.avgSum / cfs.totalLoad := by
  rw [Wrap.ahead_iff, h.lag_eq hpos hlt]
  omega

end

end

/-! ## The stored lag -/

def lagLimit (cfg : Config) (se : SchedEntity) : U64 :=
  (calcDeltaFair (if 2 * se.slice < cfg.tickNsec then cfg.tickNsec else 2 * se.slice) se).1

theorem updateEntityLag_vlag {cfg : Config} {se : SchedEntity} (hlimit : 0 ≤ (lagLimit cfg se).toInt) :
    (cfs.updateEntityLag cfg se).vlag.toInt =
      max (-(lagLimit cfg se).toInt) (min (lagLimit cfg se).toInt (cfs.avgVruntimeOf - se.vruntime).toInt) := by
  have hneg : (-lagLimit cfg se).toInt = -(lagLimit cfg se).toInt := by
    have hlt := (inS64_toInt (lagLimit cfg se)).2
    rw [toInt_neg]
    exact Int.bmod_eq_of_le (by omega) (by omega)
  have hvlag : (cfs.updateEntityLag cfg se).vlag =
      let lag := cfs.avgVruntimeOf - se.vruntime
      let low := if lag.toInt < (-lagLimit cfg se).toInt then -lagLimit cfg se else lag
      if (lagLimit cfg se).toInt < low.toInt then lagLimit cfg se else low := rfl
  rw [hvlag]
  dsimp only
  split
  · rw [hneg, if_neg (by omega), hneg]
    omega
  · split <;> omega

end CfsRq

/-! ## Entities as the code makes them -/

def tickNsecOf (hz : ℕ) : ℕ := (1000000000 + hz / 2) / hz

/-- The tick of a kernel that `jiffies.h` accepts. -/
def Config.HasHz (cfg : Config) : Prop := ∃ hz, 12 ≤ hz ∧ hz < 12288 ∧ cfg.tickNsec = ofNat 64 (tickNsecOf hz)

theorem Config.HasHz.bounds {cfg : Config} (h : cfg.HasHz) :
    2 ^ 16 ≤ cfg.tickNsec.toNat ∧ cfg.tickNsec.toNat < 2 ^ 27 := by
  obtain ⟨hz, hlow, hhigh, htick⟩ := h
  have hle : 2 ^ 16 ≤ tickNsecOf hz := by
    rw [tickNsecOf, Nat.le_div_iff_mul_le (by omega)]
    omega
  have hlt : tickNsecOf hz < 2 ^ 27 := by
    rw [tickNsecOf, Nat.div_lt_iff_lt_mul (by omega)]
    omega
  rw [htick, BitVec.toNat_ofNat, Nat.mod_eq_of_lt (by omega)]
  exact ⟨hle, hlt⟩

/-- The weights are those of tasks, and shares of groups up to `MAX_SHARES`; the slice comes from an `unsigned int`. -/
structure SchedEntity.Accepted (se : SchedEntity) : Prop where
  stored : se.load.Stored
  low : 2 ≤ se.load.weight.toNat
  high : se.load.weight.toNat ≤ 2 ^ 28
  slice : se.slice.toNat < 2 ^ 32

theorem scaleLoadDown_bounds {w : U64} (hlow : 2 ≤ w.toNat) :
    2 ≤ (scaleLoadDown w).toNat ∧ w.toNat < 1024 * ((scaleLoadDown w).toNat + 1) ∧
      (scaleLoadDown w).toNat ≤ max 2 (w.toNat / 1024) := by
  have hne : w ≠ 0 := by
    rintro rfl
    exact absurd hlow (by decide)
  have hshift : (w >>> 10).toNat = w.toNat / 1024 := by
    rw [BitVec.toNat_ushiftRight, Nat.shiftRight_eq_div_pow]
  have htwo : (2 : U64).toNat = 2 := rfl
  rw [scaleLoadDown, if_neg hne]
  split
  · next hlt =>
    rw [BitVec.lt_def, hshift, htwo] at hlt
    omega
  · next hge =>
    rw [BitVec.lt_def, hshift, htwo] at hge
    omega

theorem SchedEntity.Accepted.scaled {se : SchedEntity} (h : se.Accepted) : se.load.scaled ∈ Set.Icc 2 (2 ^ 18) := by
  have hhigh := h.high
  obtain ⟨htwo, -, hmax⟩ := scaleLoadDown_bounds h.low
  exact ⟨htwo, by unfold LoadWeight.scaled; omega⟩

namespace CfsRq

variable {cfs : CfsRq} {cfg : Config} {se : SchedEntity}

theorem limitDelta_bounds (hse : se.Accepted) (htick : cfg.HasHz) :
    2 ^ 16 ≤ (if 2 * se.slice < cfg.tickNsec then cfg.tickNsec else 2 * se.slice).toNat ∧
      (if 2 * se.slice < cfg.tickNsec then cfg.tickNsec else 2 * se.slice).toNat < 2 ^ 34 := by
  obtain ⟨hlow, hhigh⟩ := htick.bounds
  have hslice : (2 * se.slice).toNat = 2 * se.slice.toNat := by
    have := hse.slice
    exact Nat.mod_eq_of_lt (by change 2 * se.slice.toNat < _; omega)
  have hlt := hse.slice
  split
  · omega
  · next hge =>
    rw [BitVec.lt_def, hslice] at hge
    omega

theorem lagLimit_bounds (hse : se.Accepted) (htick : cfg.HasHz) :
    0 < (lagLimit cfg se).toNat ∧ (lagLimit cfg se).toNat * se.load.weight.toNat < 2 ^ 60 := by
  obtain ⟨hlow, hhigh⟩ := limitDelta_bounds hse htick
  unfold lagLimit
  generalize (if 2 * se.slice < cfg.tickNsec then cfg.tickNsec else 2 * se.slice) = delta at *
  unfold calcDeltaFair
  split
  · next hnice =>
    have hweight : se.load.weight.toNat = 2 ^ 20 := by
      rw [hnice]
      decide
    rw [hweight]
    dsimp only
    omega
  · have hshort : delta.toNat < 2 ^ 54 := by omega
    obtain ⟨hupper, hlower⟩ := calcDelta_between hshort hse.stored hse.scaled
    obtain ⟨htwo, hmax⟩ := hse.scaled
    have hweight : se.load.weight.toNat ≤ 1024 * (se.load.scaled + 1) := (scaleLoadDown_bounds hse.low).2.1.le
    dsimp only
    generalize (calcDelta delta nice0Load se.load).1.toNat = r at *
    constructor
    · by_contra hzero
      obtain rfl : r = 0 := by omega
      omega
    · have hproduct : r * se.load.weight.toNat ≤ r * (1024 * (se.load.scaled + 1)) := Nat.mul_le_mul_left r hweight
      have hshare : r * (1024 * (se.load.scaled + 1)) ≤ 2048 * (r * se.load.scaled) := by nlinarith
      omega

theorem lagLimit_pos (hse : se.Accepted) (htick : cfg.HasHz) : 0 < (lagLimit cfg se).toInt := by
  obtain ⟨hpos, hlt⟩ := lagLimit_bounds hse htick
  have hle : (lagLimit cfg se).toNat * 1 ≤ (lagLimit cfg se).toNat * se.load.weight.toNat :=
    Nat.mul_le_mul_left _ (by have := hse.low; omega)
  rw [BitVec.toInt_eq_toNat_of_lt (by omega)]
  omega

def Clamped (cfg : Config) (cfs : CfsRq) (se : SchedEntity) : Prop :=
  (cfs.updateEntityLag cfg se).vlag.toInt =
    max (-(lagLimit cfg se).toInt) (min (lagLimit cfg se).toInt (cfs.avgVruntimeOf - se.vruntime).toInt)

/-- The sign of the lag says whether the entity was eligible. It is scaled with the weight of a group entity, so that it
may be rounded to 0 then. -/
structure SignRight (cfg : Config) (cfs : CfsRq) (se : SchedEntity) : Prop where
  eligible : cfs.entityEligible se = true → 0 ≤ (cfs.updateEntityLag cfg se).vlag.toInt
  ineligible : cfs.entityEligible se = false → (cfs.updateEntityLag cfg se).vlag.toInt < 0

/-- The same for what `dequeue_entity` hands back. -/
structure DequeuedRight (cfs : CfsRq) (se : SchedEntity) (shares : Option U64) (out : SchedEntity) : Prop where
  eligible : cfs.entityEligible se = true → 0 ≤ out.vlag.toInt
  ineligible : cfs.entityEligible se = false → out.vlag.toInt ≤ 0
  task : cfs.entityEligible se = false → shares = none → out.vlag.toInt < 0

theorem tdiv_between {x d : ℤ} (hd : 0 < d) : (0 ≤ x → 0 ≤ x.tdiv d ∧ x.tdiv d ≤ x) ∧
    (x ≤ 0 → x ≤ x.tdiv d ∧ x.tdiv d ≤ 0) := by
  refine ⟨fun hx => ⟨Int.tdiv_nonneg hx hd.le, Int.tdiv_le_self d hx⟩, fun hx => ?_⟩
  have hle := Int.tdiv_le_self d (a := -x) (by omega)
  have hnn := Int.tdiv_nonneg (a := -x) (b := d) (by omega) hd.le
  rw [Int.neg_tdiv] at hle hnn
  omega

theorem toInt_rescaled {vlag old new : U64} (hfits : InS64 (vlag.toInt * old.toNat)) (hnew : 2 ≤ new.toNat)
    (hmax : new.toNat ≤ 2 ^ 28) :
    (0 ≤ vlag.toInt → 0 ≤ (divS64 (vlag * old) new).toInt) ∧ (vlag.toInt ≤ 0 → (divS64 (vlag * old) new).toInt ≤ 0) := by
  have hword : vlag * old = ofInt 64 (vlag.toInt * old.toNat) := by
    rw [ofInt_mul, ofInt_toInt, ofInt_toNat]
  obtain ⟨hup, hdown⟩ := tdiv_between (x := vlag.toInt * old.toNat) (d := new.toNat) (by omega)
  obtain ⟨hlow, hhigh⟩ := hfits
  rw [divS64_eq, divisor_of_lt (by omega), hword, InS64.toInt_ofInt ⟨hlow, hhigh⟩]
  constructor
  · intro hnn
    obtain ⟨hq, hle⟩ := hup (mul_nonneg hnn (Int.natCast_nonneg _))
    rwa [InS64.toInt_ofInt ⟨by omega, by omega⟩]
  · intro hnp
    obtain ⟨hge, hq⟩ := hdown (mul_nonpos_of_nonpos_of_nonneg hnp (Int.natCast_nonneg _))
    rwa [InS64.toInt_ofInt ⟨by omega, by omega⟩]

theorem inS64_lag_mul (hse : se.Accepted) (htick : cfg.HasHz) {x : ℤ} (hlow : -(lagLimit cfg se).toInt ≤ x)
    (hhigh : x ≤ (lagLimit cfg se).toInt) : InS64 (x * se.load.weight.toNat) := by
  obtain ⟨-, hlt⟩ := lagLimit_bounds hse htick
  have hpos := lagLimit_pos hse htick
  have hnat : (lagLimit cfg se).toInt = (lagLimit cfg se).toNat := by
    rw [BitVec.toInt_eq_toNat_cond] at hpos ⊢
    split at hpos <;> omega
  have hweight : (0 : ℤ) ≤ se.load.weight.toNat := Int.natCast_nonneg _
  have hlt : (lagLimit cfg se).toInt * se.load.weight.toNat < 2 ^ 60 := by
    rw [hnat]
    exact_mod_cast hlt
  have hup := mul_le_mul_of_nonneg_right hhigh hweight
  have hdown := mul_le_mul_of_nonneg_right hlow hweight
  rw [neg_mul] at hdown
  constructor <;> omega

end CfsRq

/-- With a load that is not 0 and fits the divisor, an entity is eligible exactly when it is not past the average, the
stored lag is the distance to the average, within the limits, and it has the sign that goes with it. -/
theorem lag_right {cfs : CfsRq} {se : SchedEntity} (hpos : 0 < cfs.totalLoad) (hlt : cfs.totalLoad < 2 ^ 31)
    (h : cfs.Comparable se) :
    (cfs.entityEligible se = true ↔ ahead se.vruntime cfs.avgVruntimeOf = false) ∧
    ∀ cfg : Config, cfg.HasHz → se.Accepted →
      CfsRq.Clamped cfg cfs se ∧ CfsRq.SignRight cfg cfs se ∧
      ∀ save shares ds out cfs', (if cfs.isCurr se.id then cfs.curr else cfs.tasksTimeline.find se.id) = some se →
        (∀ w ∈ shares, 2 ≤ w.toNat ∧ w.toNat ≤ 2 ^ 28) →
        cfs.dequeueCharged cfg save shares ds se.id = some (out, cfs') → CfsRq.DequeuedRight cfs se shares out := by
  have hlag := h.lag_eq hpos hlt
  have hel := h.eligible_iff hpos
  refine ⟨?_, fun cfg htick hse => ?_⟩
  · rw [hel, ← Bool.not_eq_true, h.ahead_iff hpos hlt, not_lt]
  have hlimit := lagLimit_pos hse htick
  have hclamped : CfsRq.Clamped cfg cfs se := cfs.updateEntityLag_vlag hlimit.le
  have hvlag : (cfs.updateEntityLag cfg se).vlag.toInt = max (-(lagLimit cfg se).toInt)
      (min (lagLimit cfg se).toInt (cfs.avgSum / cfs.totalLoad - cfs.key se)) := by rw [← hlag, hclamped]
  have hsign : CfsRq.SignRight cfg cfs se := by
    constructor
    · rw [hel]
      omega
    · rw [← Bool.not_eq_true, hel]
      omega
  refine ⟨hclamped, hsign, fun save shares ds out cfs' hfound hshares hdequeue => ?_⟩
  -- what is handed back is the entity with its lag, scaled to the new weight of a group
  have hout : out = updateCfsGroup shares (cfs.leave cfg se) := by
    rw [dequeueCharged, hfound] at hdequeue
    exact (congrArg Prod.fst (Option.some.inj hdequeue)).symm
  cases shares with
  | none =>
    rw [hout]
    exact ⟨hsign.eligible, fun hnot => (hsign.ineligible hnot).le, fun hnot _ => hsign.ineligible hnot⟩
  | some w =>
    obtain ⟨hlow, hhigh⟩ := hshares w rfl
    have hfits := inS64_lag_mul hse htick (x := (cfs.updateEntityLag cfg se).vlag.toInt) (by omega) (by omega)
    obtain ⟨hup, hdown⟩ := toInt_rescaled hfits hlow hhigh
    have hscaled : out.vlag = divS64 ((cfs.updateEntityLag cfg se).vlag * se.load.weight) w := by
      rw [hout]
      simp [updateCfsGroup, rescale, leave, updateEntityLag]
    rw [← hscaled] at hup hdown
    exact ⟨fun hyes => hup (hsign.eligible hyes), fun hnot => hdown (hsign.ineligible hnot).le, fun _ h => by cases h⟩

/-- Of the entities with vruntimes 10, 15 and 20, the last is not eligible, and leaves with a lag of -5. -/
theorem lag_right_of_three : ∃ se ∈ threeRunnable.tasksTimeline.entities, se.vruntime = 20 ∧
    threeRunnable.entityEligible se = false ∧ ahead se.vruntime threeRunnable.avgVruntimeOf = true ∧
    (threeRunnable.updateEntityLag .default se).vlag.toInt = -5 ∧ CfsRq.SignRight .default threeRunnable se := by
  let se : SchedEntity := { newEntity 2 with onRq := true, vruntime := 20, deadline := 30 }
  have hcomparable : threeRunnable.Comparable se :=
    ⟨⟨by decide, by decide⟩, ⟨by decide, by decide⟩, by decide⟩
  have htick : Config.default.HasHz := ⟨1000, by decide, by decide, by decide⟩
  have hse : se.Accepted := ⟨.unset nice0Load, by decide, by decide, by decide⟩
  obtain ⟨heligible, hlag⟩ := lag_right (by decide) (by decide) hcomparable
  refine ⟨se, by decide, rfl, by decide, ?_, by decide, (hlag .default htick hse).2.1⟩
  decide

/-- The first entity runs and goes to sleep, and while it is still the current one the second, which is behind it, goes
too. -/
def lastOneLeft : List Call :=
  [.enqueue 0 ⟨false, false⟩ none [] (newEntity 1), .enqueue 0 ⟨false, false⟩ none [] (newEntity 2),
    .setNext 0 [] 1, .dequeue 1000000 false none [] 1, .dequeue 1000000 false none [] 2]

/-- Without load everything counts as eligible, also a current entity that is past `min_vruntime`; and the lag of a group
entity whose weight doubles when it leaves is rounded to 0. -/
theorem lag_not_right :
    (∃ cfs se, run (Call.step .default) lastOneLeft initCfsRq = some cfs ∧ cfs.curr = some se ∧ cfs.totalLoad = 0 ∧
      cfs.entityEligible se = true ∧ ahead se.vruntime cfs.avgVruntimeOf = true) ∧
    ∃ cfs se out cfs', run (Call.step .default) (lastOneLeft.take 3 ++ [.updateCurr 2]) initCfsRq = some cfs ∧
      cfs.curr = some se ∧ cfs.entityEligible se = false ∧
      cfs.dequeueCharged .default false (some (2 * nice0Load)) [] 1 = some (out, cfs') ∧ out.vlag = 0 := by
  have hlast : ((run (Call.step .default) lastOneLeft initCfsRq).any fun cfs => cfs.curr.any fun se =>
      cfs.totalLoad = 0 ∧ cfs.entityEligible se = true ∧ ahead se.vruntime cfs.avgVruntimeOf = true) = true := by
    decide +kernel
  have hgroup : ((run (Call.step .default) (lastOneLeft.take 3 ++ [.updateCurr 2]) initCfsRq).any fun cfs =>
      cfs.curr.any fun se => cfs.entityEligible se = false ∧
        ((cfs.dequeueCharged .default false (some (2 * nice0Load)) [] 1).any fun r => r.1.vlag = 0) = true) = true := by
    decide +kernel
  constructor
  · obtain ⟨cfs, hrun, hcfs⟩ := (Option.any_eq_true _ _).1 hlast
    obtain ⟨se, hcurr, hse⟩ := (Option.any_eq_true _ _).1 hcfs
    exact ⟨cfs, se, hrun, hcurr, of_decide_eq_true hse⟩
  · obtain ⟨cfs, hrun, hcfs⟩ := (Option.any_eq_true _ _).1 hgroup
    obtain ⟨se, hcurr, hse⟩ := (Option.any_eq_true _ _).1 hcfs
    obtain ⟨heligible, hout⟩ := of_decide_eq_true hse
    obtain ⟨⟨out, cfs'⟩, hdequeue, hvlag⟩ := (Option.any_eq_true _ _).1 hout
    exact ⟨cfs, se, out, cfs', hrun, hcurr, heligible, hdequeue, of_decide_eq_true hvlag⟩

/-! ## Placement -/

namespace CfsRq

variable {cfs : CfsRq} {cfg : Config} {se : SchedEntity} (initial : Bool)

/-- The key that `place_entity` gives an entity, as a number. -/
def placedKey (cfs : CfsRq) (se : SchedEntity) : ℤ :=
  cfs.avgSum / cfs.totalLoad - (se.vlag.toInt * (cfs.totalLoad + se.weightNat)).tdiv cfs.totalLoad

/-- No signed word overflows when `se` is placed and counted. -/
structure Placeable (cfs : CfsRq) (se : SchedEntity) : Prop where
  sum : InS64 (cfs.avgSum - (cfs.totalLoad - 1))
  product : InS64 (se.vlag.toInt * (cfs.totalLoad + se.weightNat))
  newSum : InS64 (cfs.avgSum + cfs.placedKey se * se.weightNat)
  biased : InS64 (cfs.avgSum + cfs.placedKey se * se.weightNat - (cfs.totalLoad + se.weightNat - 1))

theorem placeEntity_seWeight : (cfs.placeEntity cfg initial se).seWeight = se.seWeight := by
  simp [placeEntity, SchedEntity.seWeight]

theorem placeEntity_vruntime (hplace : cfg.placeLag = true) (hnr : cfs.nrRunning ≠ 0) (hpos : 0 < cfs.totalLoad)
    (hlt : cfs.totalLoad < 2 ^ 31) (h : cfs.Placeable se) :
    (cfs.placeEntity cfg initial se).vruntime = cfs.minVruntime + ofInt 64 (cfs.placedKey se) := by
  have hne : cfs.avgAndLoad.2 ≠ 0 := by
    intro h0
    rw [totalLoad, h0] at hpos
    exact absurd hpos (by decide)
  have hweight : ofInt 64 (se.weightNat : ℤ) = se.seWeight := se.ofInt_weightNat
  have hword : se.vlag * (cfs.avgAndLoad.2 + se.seWeight) =
      ofInt 64 (se.vlag.toInt * (cfs.totalLoad + se.weightNat)) := by
    rw [ofInt_mul, ofInt_toInt, ofInt_add, hweight, totalLoad, ofInt_toNat]
  have hvruntime : (cfs.placeEntity cfg initial se).vruntime =
      cfs.avgVruntimeOf - divS64 (se.vlag * (cfs.avgAndLoad.2 + se.seWeight)) cfs.avgAndLoad.2 := by
    obtain ⟨lw, hframe, hlw⟩ := calcDeltaFair_frame cfg.baseSlice { se with slice := cfg.baseSlice }
    simp only [placeEntity, hframe, hplace, hnr, hne, ne_eq, not_false_eq_true, decide_true, Bool.and_self, if_true,
      if_false, SchedEntity.seWeight, hlw]
  rw [hvruntime, hword, divS64_eq, h.product.toInt_ofInt, divisor_of_lt hlt, avgVruntimeOf_eq hpos hlt h.sum, placedKey,
    ofInt_sub]
  change cfs.minVruntime + _ - ofInt 64 ((se.vlag.toInt * (cfs.totalLoad + se.weightNat)).tdiv cfs.totalLoad) = _
  ring

theorem avgAndLoad_enqueue (ds : Rotations) (cfs : CfsRq) (se : SchedEntity) : (cfs.__enqueueEntity ds se).avgAndLoad =
    (cfs.avgAndLoad.1 + cfs.entityKey se * se.seWeight, cfs.avgAndLoad.2 + se.seWeight) := by
  simp only [avgAndLoad, __enqueueEntity, avgVruntimeAdd, entityKey]
  split
  · split
    · exact Prod.ext (add_right_comm _ _ _) (add_right_comm _ _ _)
    · rfl
  · rfl

end CfsRq

/-- An entity that is placed and inserted has its lag again, up to one unit. -/
theorem placed_lag_near {cfg : Config} {cfs : CfsRq} {se : SchedEntity} {initial : Bool} (ds : Rotations)
    (hplace : cfg.placeLag = true) (hnr : cfs.nrRunning ≠ 0) (hpos : 0 < cfs.totalLoad) (hweight : 0 < se.weightNat)
    (hlt : cfs.totalLoad + se.weightNat < 2 ^ 31) (h : cfs.Placeable se) :
    let placed := cfs.placeEntity cfg initial se
    |((cfs.__enqueueEntity ds placed).avgVruntimeOf - placed.vruntime).toInt - se.vlag.toInt| ≤ 1 := by
  intro placed
  have hvruntime := placeEntity_vruntime initial hplace hnr hpos (by omega) h
  have hseWeight : placed.seWeight = se.seWeight := placeEntity_seWeight initial
  have hword : ofInt 64 (se.weightNat : ℤ) = se.seWeight := se.ofInt_weightNat
  -- the words of the new averages, as numbers
  have hload : (cfs.__enqueueEntity ds placed).totalLoad = cfs.totalLoad + se.weightNat := by
    rw [totalLoad, avgAndLoad_enqueue, hseWeight, BitVec.toNat_add]
    exact Nat.mod_eq_of_lt (by change cfs.totalLoad + se.weightNat < _; omega)
  have hsum : (cfs.__enqueueEntity ds placed).avgSum = cfs.avgSum + cfs.placedKey se * se.weightNat := by
    have hkey : cfs.entityKey placed = ofInt 64 (cfs.placedKey se) := by
      rw [entityKey, hvruntime, add_sub_cancel_left]
    have hnew : (cfs.__enqueueEntity ds placed).avgAndLoad.1 =
        ofInt 64 (cfs.avgSum + cfs.placedKey se * se.weightNat) := by
      rw [avgAndLoad_enqueue, hseWeight, hkey, ofInt_add, ofInt_mul, hword, avgSum,
        ofInt_toInt]
    rw [avgSum, hnew, h.newSum.toInt_ofInt]
  have havg : (cfs.__enqueueEntity ds placed).avgVruntimeOf = cfs.minVruntime +
      ofInt 64 ((cfs.avgSum + cfs.placedKey se * se.weightNat) / (cfs.totalLoad + se.weightNat)) := by
    have hbiased : InS64 ((cfs.__enqueueEntity ds placed).avgSum - ((cfs.__enqueueEntity ds placed).totalLoad - 1)) := by
      rw [hsum, hload]
      exact_mod_cast h.biased
    rw [avgVruntimeOf_eq (by omega) (by omega) hbiased, hsum, hload]
    rfl
  have hpos : (0 : ℤ) < cfs.totalLoad := by exact_mod_cast hpos
  have hweight : (0 : ℤ) < se.weightNat := by exact_mod_cast hweight
  have hnear := join_average cfs.avgSum se.vlag.toInt hpos hweight (rfl : cfs.placedKey se = _)
  generalize (cfs.avgSum + cfs.placedKey se * se.weightNat) / (cfs.totalLoad + se.weightNat) = avg at *
  have hfits : InS64 (avg - cfs.placedKey se) := by
    obtain ⟨hlow, hhigh⟩ := half_of_mul_two_le (by omega) h.product.1 h.product.2
    obtain ⟨hless, hmore⟩ := abs_le.1 hnear
    constructor <;> omega
  have hdiff : (cfs.__enqueueEntity ds placed).avgVruntimeOf - placed.vruntime = ofInt 64 (avg - cfs.placedKey se) := by
    rw [havg, hvruntime, ofInt_sub, add_sub_add_left_eq_sub]
  rwa [hdiff, hfits.toInt_ofInt]

/-- Joining the entities with vruntimes 10, 15 and 20 with a lag of -7. -/
theorem placed_lag_near_of_three :
    let se := { newEntity 4 with vlag := -7 }
    let placed := threeRunnable.placeEntity .default false se
    placed.vruntime = 24 ∧ (threeRunnable.__enqueueEntity [] placed).avgVruntimeOf = 17 ∧
    |((threeRunnable.__enqueueEntity [] placed).avgVruntimeOf - placed.vruntime).toInt - se.vlag.toInt| ≤ 1 := by
  intro se placed
  have hplaceable : threeRunnable.Placeable se :=
    ⟨⟨by decide, by decide⟩, ⟨by decide, by decide⟩, ⟨by decide, by decide⟩, ⟨by decide, by decide⟩⟩
  exact ⟨by decide, by decide, placed_lag_near [] rfl (by decide) (by decide) (by decide) (by decide) hplaceable⟩

end KernelSched.Fair
