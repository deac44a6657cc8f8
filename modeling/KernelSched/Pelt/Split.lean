import KernelSched.Pelt.Average
import Mathlib.Tactic.FieldSimp
import Mathlib.Tactic.Positivity

/-!
# Updating once or twice

An interval in which nothing changes can be accounted by one update at its end, or be split at any point. Both end at the
same time and at the same place in a period. The load differs by the rounding of the decays only: each is less than two
below the exact product (`decayLoad_near`), the factors of the table multiply up to a 2³⁰th (`factor_mul`), and what an
update adds fits the decay, so the errors of at most seven decays remain.
-/

namespace KernelSched.Pelt

open Wrap Decay

/-! ## The factors -/

/-- The factor by which `decay_load` decays over `n` periods. -/
def factor (n : ℕ) : ℚ := runnableAvgYNInv.getD (n % 32) 0 / 2 ^ 32 / 2 ^ (n / 32)

theorem factor_nonneg (n : ℕ) : 0 ≤ factor n := by
  unfold factor
  positivity

theorem table_le_one (n : ℕ) : (runnableAvgYNInv.getD (n % 32) 0 : ℚ) / 2 ^ 32 ≤ 1 := by
  rw [div_le_one (by positivity)]
  exact_mod_cast (runnableAvgYNInv_lt (n % 32) (Nat.mod_lt n (by norm_num))).le

theorem factor_le_one (n : ℕ) : factor n ≤ 1 := by
  have hpow : (1 : ℚ) ≤ 2 ^ (n / 32) := one_le_pow₀ (by norm_num)
  exact (div_le_one (by positivity)).2 ((table_le_one n).trans hpow)

theorem decayLoad_near {v : ℕ} (hv : v < 2 ^ 32) (n : ℕ) :
    (decayLoad v n : ℚ) ≤ v * factor n ∧ v * factor n < decayLoad v n + 2 := by
  rcases lt_or_ge (loadAvgPeriod * 63) n with hbig | hle
  · -- the factor is so small that nothing is left
    have hsmall : factor n ≤ 1 / 2 ^ 32 := by
      have hpow : (2 : ℚ) ^ 32 ≤ 2 ^ (n / 32) := by
        refine pow_le_pow_right₀ (by norm_num) ?_
        unfold loadAvgPeriod at hbig
        omega
      exact div_le_div₀ (by norm_num) (table_le_one n) (by positivity) hpow
    have hv : (v : ℚ) ≤ 2 ^ 32 := by exact_mod_cast hv.le
    have hproduct : v * factor n ≤ 2 ^ 32 * (1 / 2 ^ 32) :=
      mul_le_mul hv hsmall (factor_nonneg n) (by positivity)
    rw [decayLoad_eq_zero hbig]
    refine ⟨by simpa using mul_nonneg (Nat.cast_nonneg v) (factor_nonneg n), ?_⟩
    linarith
  · have hexact : v * factor n =
        v * ((runnableAvgYNInv.getD (n % loadAvgPeriod) 0 : ℚ) / (2 ^ 32 : ℕ) / (2 ^ (n / loadAvgPeriod) : ℕ)) := by
      push_cast
      rfl
    rw [decayLoad_eq hle, hexact]
    exact ⟨decay_le_exact (by positivity) (by positivity),
      exact_lt_decay (by positivity) (by positivity) (runnableAvgYNInv_lt _ (Nat.mod_lt n (by decide))).le⟩

theorem table_mul : ∀ r < 32, ∀ r' < 32, let a := (runnableAvgYNInv.getD r 0 : ℤ)
    let b := (runnableAvgYNInv.getD r' 0 : ℤ)
    let c := (runnableAvgYNInv.getD ((r + r') % 32) 0 : ℤ)
    |2 ^ ((r + r') / 32) * (a * b) - 2 ^ 32 * c| ≤ 2 ^ 34 := by
  decide +kernel

theorem factor_mul (m n : ℕ) : |factor m * factor n - factor (m + n)| ≤ 1 / 2 ^ 30 := by
  have htable := table_mul (m % 32) (Nat.mod_lt m (by norm_num)) (n % 32) (Nat.mod_lt n (by norm_num))
  have hmod : (m + n) % 32 = (m % 32 + n % 32) % 32 := Nat.add_mod m n 32
  have hdiv : (m + n) / 32 = m / 32 + n / 32 + (m % 32 + n % 32) / 32 := by omega
  unfold factor
  rw [hmod, hdiv]
  generalize (m % 32 + n % 32) / 32 = k at *
  generalize runnableAvgYNInv.getD ((m % 32 + n % 32) % 32) 0 = c at *
  generalize runnableAvgYNInv.getD (m % 32) 0 = a at *
  generalize runnableAvgYNInv.getD (n % 32) 0 = b at *
  generalize m / 32 = i
  generalize n / 32 = j
  have htable : |(2 : ℚ) ^ k * (a * b) - 2 ^ 32 * c| ≤ 2 ^ 34 := by
    have hcast := (Int.cast_le (R := ℚ)).2 htable
    push_cast at hcast
    exact hcast
  have hcommon : (a : ℚ) / 2 ^ 32 / 2 ^ i * (b / 2 ^ 32 / 2 ^ j) - c / 2 ^ 32 / 2 ^ (i + j + k) =
      (2 ^ k * (a * b) - 2 ^ 32 * c) / (2 ^ 64 * 2 ^ (i + j + k)) := by
    rw [pow_add, pow_add]
    field_simp
  have hpow : (1 : ℚ) ≤ 2 ^ (i + j + k) := one_le_pow₀ (by norm_num)
  rw [hcommon, abs_div, abs_of_pos (by positivity : (0 : ℚ) < 2 ^ 64 * 2 ^ (i + j + k)), div_le_iff₀ (by positivity)]
  calc |(2 : ℚ) ^ k * (a * b) - 2 ^ 32 * c| ≤ 2 ^ 34 := htable
    _ ≤ 2 ^ 34 * 2 ^ (i + j + k) := le_mul_of_one_le_right (by positivity) hpow
    _ = 1 / 2 ^ 30 * (2 ^ 64 * 2 ^ (i + j + k)) := by ring

/-! ## One update -/

/-- The factor for what was there before, 1 within a period. -/
def passed (p : ℕ) : ℚ := if p = 0 then 1 else factor p

theorem passed_nonneg (p : ℕ) : 0 ≤ passed p := by
  unfold passed
  split
  · exact zero_le_one
  · exact factor_nonneg p

theorem passed_le_one (p : ℕ) : passed p ≤ 1 := by
  unfold passed
  split
  · exact le_refl 1
  · exact factor_le_one p

theorem passed_mul (m n : ℕ) : |passed m * passed n - passed (m + n)| ≤ 1 / 2 ^ 30 := by
  unfold passed
  by_cases hm : m = 0
  · simp [hm]
  · by_cases hn : n = 0
    · simp [hn]
    · have hmn : m + n ≠ 0 := by omega
      rw [if_neg hm, if_neg hn, if_neg hmn]
      exact factor_mul m n

/-- The load after `delta` units from the position `c`, without rounding. The missing part of a full sum decays. -/
def exactLoad (on : Bool) (delta c sum : ℕ) : ℚ :=
  if on then (sum + (1024 - c) - loadAvgMax) * passed ((delta + c) / 1024) + peltMinDivider + ((delta + c) % 1024 : ℕ)
  else sum * passed ((delta + c) / 1024)

theorem segments_eq {p d1 d3 : ℕ} (hp : 1 ≤ p) (hd1 : d1 ≤ 1024) (hd3 : d3 < 1024) :
    (accumulatePeltSegments p d1 d3 : ℚ) = decayLoad d1 p + (peltMinDivider - decayLoad loadAvgMax p) + d3 := by
  have hmax := decayLoad_max_le hp
  have hd1' : decayLoad d1 p ≤ d1 := by
    have hnear := (decayLoad_near (by omega : d1 < 2 ^ 32) p).1
    have hle := mul_le_of_le_one_right (Nat.cast_nonneg (α := ℚ) d1) (factor_le_one p)
    exact_mod_cast hnear.trans hle
  have hnat : accumulatePeltSegments p d1 d3 + decayLoad loadAvgMax p = decayLoad d1 p + peltMinDivider + d3 := by
    unfold accumulatePeltSegments u32
    unfold peltMinDivider loadAvgMax at *
    dsimp only
    omega
  have hcast := congrArg (Nat.cast (R := ℚ)) hnat
  push_cast at hcast
  linarith

theorem nextSum_near (on : Bool) (delta : ℕ) {c sum : ℕ} (hc : c < 1024) (hsum : sum ≤ peltMinDivider + c) :
    exactLoad on delta c sum - 4 < nextSum 1 delta c sum (on = true) ∧
      (nextSum 1 delta c sum (on = true) : ℚ) < exactLoad on delta c sum + 2 := by
  have hmin : (peltMinDivider : ℚ) = 46718 := by
    rw [show peltMinDivider = 46718 from rfl]
    norm_num
  have hmax : (loadAvgMax : ℚ) = 47742 := by
    rw [loadAvgMax]
    norm_num
  unfold nextSum keptSum contribution exactLoad passed
  by_cases hp : (delta + c) / 1024 = 0
  · have hmod : (delta + c) % 1024 = delta + c := Nat.mod_eq_of_lt (by omega)
    have hdelta : u32 delta = delta := by
      unfold u32
      omega
    simp only [hp, ne_eq, not_true_eq_false, if_false, if_true, hmod, hdelta]
    cases on with
    | true =>
      simp only [if_true, one_mul, mul_one]
      push_cast
      constructor <;> linarith
    | false =>
      simp only [Bool.false_eq_true, if_false, add_zero, mul_one]
      constructor <;> linarith
  · have hpos : 1 ≤ (delta + c) / 1024 := Nat.one_le_iff_ne_zero.2 hp
    have hsegments := segments_eq hpos (Nat.sub_le 1024 c) (Nat.mod_lt (delta + c) (by norm_num))
    simp only [hp, ne_eq, not_false_eq_true, if_true, if_false]
    generalize (delta + c) / 1024 = p at *
    obtain ⟨hold, hold'⟩ := decayLoad_near (by unfold peltMinDivider loadAvgMax at hsum; omega : sum < 2 ^ 32) p
    cases on with
    | true =>
      obtain ⟨hfirst, hfirst'⟩ := decayLoad_near (by omega : 1024 - c < 2 ^ 32) p
      obtain ⟨hfull, hfull'⟩ := decayLoad_near (by norm_num [loadAvgMax] : loadAvgMax < 2 ^ 32) p
      rw [Nat.cast_sub hc.le] at hfirst hfirst'
      simp only [if_true, one_mul]
      rw [Nat.cast_add, hsegments, sub_mul, add_mul]
      push_cast at hfirst hfirst'
      constructor <;> linarith
    | false =>
      simp only [Bool.false_eq_true, if_false, add_zero]
      constructor <;> linarith

/-! ## Two updates -/

/-- What decays over the interval: the sum, less a full one while the entity is on. -/
def decaying (on : Bool) (c sum : ℕ) : ℚ := if on then sum + (1024 - c) - loadAvgMax else sum

theorem abs_decaying_le {on : Bool} {c sum : ℕ} (hc : c < 1024) (hsum : sum ≤ peltMinDivider + c) :
    |decaying on c sum| ≤ 47742 := by
  have hmax : (loadAvgMax : ℚ) = 47742 := by
    rw [loadAvgMax]
    norm_num
  have hle : (sum : ℚ) + 1024 ≤ 47742 + c := by
    unfold peltMinDivider loadAvgMax at hsum
    exact_mod_cast (by omega : sum + 1024 ≤ 47742 + c)
  have hc : (c : ℚ) < 1024 := by exact_mod_cast hc
  unfold decaying
  rw [hmax, abs_le]
  split <;> constructor <;> linarith

/-- The error of the first update decays; the rest is one update over both parts, up to what the factors of the table
lose. -/
theorem exactLoad_split (on : Bool) (delta delta' c sum x : ℕ) :
    exactLoad on delta' ((delta + c) % 1024) x = exactLoad on (delta + delta') c sum +
      (x - exactLoad on delta c sum) * passed ((delta' + (delta + c) % 1024) / 1024) +
      decaying on c sum * (passed ((delta + c) / 1024) * passed ((delta' + (delta + c) % 1024) / 1024) -
        passed ((delta + c) / 1024 + (delta' + (delta + c) % 1024) / 1024)) := by
  have hperiods : (delta + delta' + c) / 1024 = (delta + c) / 1024 + (delta' + (delta + c) % 1024) / 1024 := by omega
  have hrest : (delta + delta' + c) % 1024 = (delta' + (delta + c) % 1024) % 1024 := by omega
  have hfull : (loadAvgMax : ℚ) = peltMinDivider + 1024 := by
    rw [show peltMinDivider = 46718 from rfl, loadAvgMax]
    norm_num
  unfold exactLoad decaying
  rw [hperiods, hrest, hfull]
  split <;> ring

theorem nextSum_split (on : Bool) {c sum : ℕ} (delta delta' : ℕ) (hc : c < 1024) (hsum : sum ≤ peltMinDivider + c) :
    |(nextSum 1 delta' ((delta + c) % 1024) (nextSum 1 delta c sum (on = true)) (on = true) : ℤ) -
      nextSum 1 (delta + delta') c sum (on = true)| ≤ 10 := by
  have hmid : nextSum 1 delta c sum (on = true) ≤ peltMinDivider + (delta + c) % 1024 := by
    have hfits : sum ≤ 1 * (peltMinDivider + c) + 0 := by rwa [one_mul, add_zero]
    have hle := nextSum_le delta keeps_one hc hfits (on = true)
    rwa [one_mul, add_zero] at hle
  obtain ⟨honce, honce'⟩ := nextSum_near on (delta + delta') hc hsum
  obtain ⟨hfirst, hfirst'⟩ := nextSum_near on delta hc hsum
  obtain ⟨hsecond, hsecond'⟩ := nextSum_near on delta' (Nat.mod_lt (delta + c) (by norm_num)) hmid
  rw [exactLoad_split on delta delta' c sum] at hsecond hsecond'
  generalize nextSum 1 delta c sum (on = true) = x at *
  generalize nextSum 1 delta' ((delta + c) % 1024) x (on = true) = twice at *
  generalize nextSum 1 (delta + delta') c sum (on = true) = once at *
  -- what the table loses is far below one
  have htable : |decaying on c sum * (passed ((delta + c) / 1024) * passed ((delta' + (delta + c) % 1024) / 1024) -
      passed ((delta + c) / 1024 + (delta' + (delta + c) % 1024) / 1024))| ≤ 47742 * (1 / 2 ^ 30) := by
    rw [abs_mul]
    exact mul_le_mul (abs_decaying_le hc hsum) (passed_mul _ _) (abs_nonneg _) (by norm_num)
  obtain ⟨htable, htable'⟩ := abs_le.1 htable
  have hnn := passed_nonneg ((delta' + (delta + c) % 1024) / 1024)
  have hle := passed_le_one ((delta' + (delta + c) % 1024) / 1024)
  generalize passed ((delta' + (delta + c) % 1024) / 1024) = y at *
  have hup : (x - exactLoad on delta c sum) * y ≤ 2 := by nlinarith
  have hdown : -4 ≤ (x - exactLoad on delta c sum) * y := by nlinarith
  have hmore : (twice : ℚ) < once + 11 := by linarith
  have hless : (once : ℚ) < twice + 11 := by linarith
  have hmore : twice < once + 11 := by exact_mod_cast hmore
  have hless : once < twice + 11 := by exact_mod_cast hless
  rw [abs_le]
  omega

/-! ## Updates at two times -/

def SchedAvg.units (sa : SchedAvg) (now : U64) : ℕ := (now - sa.lastUpdateTime).toNat / 1024

section

variable {now : U64} {sa : SchedAvg} (load runnable : ℕ) (running : Bool)

/-- An update at a later time accumulates the units that have passed, if there are any. -/
theorem updateLoadSum_eq (hlater : (now - sa.lastUpdateTime).toNat < 2 ^ 63) :
    ∃ r b, (load = 0 → r = 0 ∧ b = false) ∧ (updateLoadSum now sa load runnable running).1 =
      if sa.units now = 0 then sa
      else (accumulateSum (sa.units now)
        { sa with lastUpdateTime := sa.lastUpdateTime + BitVec.ofNat 64 (sa.units now * 1024) } load r b).1 := by
  have hsign : ¬ (now - sa.lastUpdateTime).toInt < 0 := by
    rw [BitVec.toInt_eq_toNat_of_lt (by omega)]
    omega
  have hshift : ((now - sa.lastUpdateTime) >>> 10).toNat = sa.units now := by
    rw [BitVec.toNat_ushiftRight, Nat.shiftRight_eq_div_pow]
    rfl
  have hzero : (now - sa.lastUpdateTime) >>> 10 = 0 ↔ sa.units now = 0 := by
    rw [← hshift]
    exact ⟨fun h => by rw [h]; rfl, fun h => BitVec.eq_of_toNat_eq h⟩
  have hback : ((now - sa.lastUpdateTime) >>> 10) <<< 10 = BitVec.ofNat 64 (sa.units now * 1024) := by
    apply BitVec.eq_of_toNat_eq
    rw [BitVec.toNat_shiftLeft, hshift, Nat.shiftLeft_eq, BitVec.toNat_ofNat]
  refine ⟨if load = 0 then 0 else runnable, if load = 0 then false else running, fun h => by simp [h], ?_⟩
  simp only [updateLoadSum, hsign, if_false, hzero]
  split
  · rfl
  · rw [hback, hshift]
    split <;> rfl

/-- Where the update ends, whatever the load is. -/
theorem updateLoadSum_position (hlater : (now - sa.lastUpdateTime).toNat < 2 ^ 63) (hc : sa.periodContrib < 1024) :
    (updateLoadSum now sa load runnable running).1.lastUpdateTime =
        sa.lastUpdateTime + BitVec.ofNat 64 (sa.units now * 1024) ∧
      (updateLoadSum now sa load runnable running).1.periodContrib = (sa.units now + sa.periodContrib) % 1024 := by
  obtain ⟨r, b, hoff, heq⟩ := updateLoadSum_eq load runnable running hlater
  rw [heq]
  split
  · next hzero =>
    rw [hzero]
    exact ⟨by simp, by omega⟩
  · rw [accumulateSum_eq _ _ hoff]
    exact ⟨rfl, rfl⟩

theorem updateLoadSum_loadSum (h : LoadBound sa) (hload : load ≤ 1) (hlater : (now - sa.lastUpdateTime).toNat < 2 ^ 63) :
    (updateLoadSum now sa load runnable running).1.loadSum =
      nextSum 1 (sa.units now) sa.periodContrib sa.loadSum (decide (load ≠ 0) = true) := by
  have hc := h.contrib
  have hsum : sa.loadSum ≤ 1 * (peltMinDivider + sa.periodContrib) + 0 := by
    rw [one_mul, add_zero]
    exact h.load
  have hfits := nextSum_le (sa.units now) keeps_one hc hsum (decide (load ≠ 0) = true)
  obtain ⟨r, b, hoff, heq⟩ := updateLoadSum_eq load runnable running hlater
  rw [heq]
  split
  · next hzero =>
    have hperiods : sa.periodContrib / 1024 = 0 := Nat.div_eq_of_lt hc
    simp [nextSum, keptSum, contribution, hzero, hperiods, u32]
  · rw [accumulateSum_eq _ _ hoff]
    unfold nextSum at hfits ⊢
    unfold peltMinDivider loadAvgMax at hfits
    simp only [decide_eq_true_eq] at hfits ⊢
    split
    · next hon =>
      obtain rfl : load = 1 := by omega
      rw [if_pos hon] at hfits
      exact Nat.mod_eq_of_lt (by omega)
    · rfl

end

/-- An interval in which nothing changes, from the last update to `t'`, split at `t`. -/
structure Interval (sa : SchedAvg) (t t' : U64) : Prop where
  contrib : sa.periodContrib < 1024
  split : (t - sa.lastUpdateTime).toNat ≤ (t' - sa.lastUpdateTime).toNat
  short : (t' - sa.lastUpdateTime).toNat < 2 ^ 63

theorem Interval.rest {sa : SchedAvg} {t t' : U64} (h : Interval sa t t') :
    (t' - (sa.lastUpdateTime + BitVec.ofNat 64 (sa.units t * 1024))).toNat =
      (t' - sa.lastUpdateTime).toNat - sa.units t * 1024 := by
  have hle : sa.units t * 1024 ≤ (t - sa.lastUpdateTime).toNat := Nat.div_mul_le_self _ _
  have hsplit := h.split
  have hword : (BitVec.ofNat 64 (sa.units t * 1024)).toNat = sa.units t * 1024 := by
    exact Nat.mod_eq_of_lt (by omega)
  rw [← sub_sub, BitVec.toNat_sub_of_le, hword]
  rw [BitVec.le_def, hword]
  omega

/-- Updating at the end of the interval, or also at any time before, ends at the same time and the same place in a period;
the loads differ by at most ten, however long the interval is. -/
theorem split_update_near {sa : SchedAvg} {t t' : U64} (h : Interval sa t t') (load runnable : ℕ) (running : Bool) :
    let once := (updateLoadSum t' sa load runnable running).1
    let twice := (updateLoadSum t' (updateLoadSum t sa load runnable running).1 load runnable running).1
    twice.lastUpdateTime = once.lastUpdateTime ∧ twice.periodContrib = once.periodContrib ∧
      (load ≤ 1 → sa.loadSum ≤ getPeltDivider sa → |(twice.loadSum : ℤ) - once.loadSum| ≤ 10) := by
  intro once twice
  have hsplit := h.split
  have hshort := h.short
  obtain ⟨htime, hplace⟩ := updateLoadSum_position load runnable running (hsplit.trans_lt hshort) h.contrib
  obtain ⟨htime', hplace'⟩ := updateLoadSum_position load runnable running hshort h.contrib
  have hrest := h.rest
  rw [← htime] at hrest
  have hmid : (updateLoadSum t sa load runnable running).1.periodContrib < 1024 := by
    rw [hplace]
    exact Nat.mod_lt _ (by norm_num)
  have hunits : (updateLoadSum t sa load runnable running).1.units t' = sa.units t' - sa.units t := by
    unfold SchedAvg.units at *
    omega
  have hunits' : sa.units t ≤ sa.units t' := Nat.div_le_div_right hsplit
  have hlater : (t' - (updateLoadSum t sa load runnable running).1.lastUpdateTime).toNat < 2 ^ 63 := by
    omega
  obtain ⟨htime'', hplace''⟩ := updateLoadSum_position load runnable running hlater hmid
  refine ⟨?_, ?_, fun hload hsum => ?_⟩
  · rw [htime'', hunits, htime, htime', add_assoc, ← BitVec.ofNat_add, ← add_mul, Nat.add_sub_cancel' hunits']
  · rw [hplace'', hunits, hplace, hplace']
    omega
  · have hbound : LoadBound sa := ⟨h.contrib, hsum⟩
    have hnear := nextSum_split (decide (load ≠ 0)) (sa.units t) (sa.units t' - sa.units t) h.contrib hsum
    rw [Nat.add_sub_cancel' hunits'] at hnear
    rw [updateLoadSum_loadSum load runnable running hbound hload hshort,
      updateLoadSum_loadSum load runnable running (hbound.updateLoadSum t hload runnable running) hload hlater,
      updateLoadSum_loadSum load runnable running hbound hload (hsplit.trans_lt hshort), hunits, hplace]
    exact hnear

/-- A task that runs for 300 periods, with a sum of 23000 before, updated also after 100 of them -/
theorem split_update_near_running :
    let sa : SchedAvg := ⟨5, 23000, 0, 0, 700, 0, 0, 0⟩
    let once := (updateLoadSum 314572805 sa 1 1 true).1
    let twice := (updateLoadSum 314572805 (updateLoadSum 104857605 sa 1 1 true).1 1 1 true).1
    once.loadSum = 47380 ∧ twice.loadSum = 47382 ∧ |(twice.loadSum : ℤ) - once.loadSum| ≤ 10 := by
  intro sa once twice
  have hinterval : Interval sa 104857605 314572805 := ⟨by decide, by decide, by decide⟩
  exact ⟨by decide, by decide, (split_update_near hinterval 1 1 true).2.2 (by decide) (by decide)⟩

/-- An interval of half the range of the clock is taken for time that goes back: nothing is accumulated. -/
theorem long_interval_not_near :
    let sa : SchedAvg := ⟨0, 0, 0, 0, 0, 0, 0, 0⟩
    let once := (updateLoadSum 0x8000000000000001 sa 1 1 true).1
    let twice := (updateLoadSum 0x8000000000000001 (updateLoadSum 0x4000000000000000 sa 1 1 true).1 1 1 true).1
    twice.lastUpdateTime ≠ once.lastUpdateTime ∧ once.loadSum = 0 ∧ twice.loadSum = 46718 := by
  decide +kernel

end KernelSched.Pelt
