import KernelSched.Fair.Lag

/-!
# The divisor of the averages

`avg_vruntime` and `place_entity` divide by the total load of the runnable entities, a sum without a bound, through
`div_s64`, whose divisor has 32 bits. The divisor is the load exactly as long as the load is below 2³¹
(`divisor_right_iff`); the average then lies among the vruntimes it is taken of. With 8192 groups of `MAX_SHARES` on a
runqueue the divisor is negative, with 16384 of them it is 0.
-/

namespace KernelSched.Fair

open Wrap Weighted List

/-- The weights that the code gives to tasks and groups. -/
def SchedEntity.WeightAccepted (se : SchedEntity) : Prop := 2 ≤ se.load.weight.toNat ∧ se.load.weight.toNat ≤ 2 ^ 28

namespace CfsRq

variable {cfs : CfsRq}

def trueLoad (cfs : CfsRq) : ℤ := total SchedEntity.weightNat cfs.runnable

/-- `avg_vruntime`, and with it `update_entity_lag`, and `place_entity` divide by the load of the runnable entities. -/
structure DividesRight (cfs : CfsRq) : Prop where
  positive : 0 < cfs.trueLoad
  average : divisor cfs.avgAndLoad.2 = cfs.trueLoad
  place : divisor (if cfs.avgAndLoad.2 = 0 then 1 else cfs.avgAndLoad.2) = cfs.trueLoad

/-- The average is not before all runnable entities, and not past them all. -/
def AverageAmong (cfs : CfsRq) : Prop :=
  (∃ e ∈ cfs.runnable, ahead e.vruntime cfs.avgVruntimeOf = false) ∧
    ∃ e ∈ cfs.runnable, ahead cfs.avgVruntimeOf e.vruntime = false

/-- No signed word overflows in the average and in the comparisons with it. -/
structure SumFits (cfs : CfsRq) : Prop where
  keys : ∀ e ∈ cfs.runnable, InS64 (cfs.key e * cfs.trueLoad)
  biased : InS64 (wsum cfs.key SchedEntity.weightNat cfs.runnable - (cfs.trueLoad - 1))

theorem two_le_trueLoad (hne : cfs.runnable ≠ []) (hweights : ∀ e ∈ cfs.runnable, e.WeightAccepted) :
    2 ≤ cfs.trueLoad := by
  obtain ⟨e, es, hcons⟩ := exists_cons_of_ne_nil hne
  have htwo : 2 ≤ e.weightNat := (scaleLoadDown_bounds (hweights e (hcons ▸ mem_cons_self)).1).1
  have hnn : 0 ≤ total SchedEntity.weightNat es := total_nonneg es
  rw [trueLoad, hcons, total_cons]
  omega

theorem Averaged.divisor_eq (h : cfs.Averaged) : divisor cfs.avgAndLoad.2 = cfs.trueLoad.bmod (2 ^ 32) := by
  rw [divisor, h.avgAndLoad_eq]
  change ((cfs.trueLoad : BitVec 64).setWidth 32).toInt = _
  rw [setWidth_intCast (by norm_num)]
  exact BitVec.toInt_ofInt _

theorem Averaged.totalLoad_eq (h : cfs.Averaged) (hnn : 0 ≤ cfs.trueLoad) (hlt : cfs.trueLoad < 2 ^ 31) :
    (cfs.totalLoad : ℤ) = cfs.trueLoad := by
  rw [totalLoad, h.avgAndLoad_eq]
  exact toNat_intCast hnn (hlt.trans (by norm_num))

theorem SumFits.avgSum_eq (hfits : cfs.SumFits) (h : cfs.Averaged) (hpos : 0 < cfs.trueLoad) :
    cfs.avgSum = wsum cfs.key SchedEntity.weightNat cfs.runnable := by
  rw [avgSum, h.avgAndLoad_eq]
  refine InS64.toInt_ofInt ⟨?_, ?_⟩
  · have := hfits.biased.1
    omega
  · have hle : ∀ e ∈ cfs.runnable, cfs.key e * cfs.trueLoad ≤ 2 ^ 63 - 1 := by
      intro e he
      have := (hfits.keys e he).2
      omega
    have := wsum_le hle hpos
    omega

theorem SumFits.comparable (hfits : cfs.SumFits) (h : cfs.Averaged) (htwo : 2 ≤ cfs.trueLoad)
    (hlt : cfs.trueLoad < 2 ^ 31) {e : SchedEntity} (he : e ∈ cfs.runnable) : cfs.Comparable e := by
  have hload := h.totalLoad_eq (by omega) hlt
  have hsum := hfits.avgSum_eq h (by omega)
  obtain ⟨hlow, hhigh⟩ := hfits.keys e he
  obtain ⟨hkey, hkey'⟩ := half_of_mul_two_le htwo hlow hhigh
  refine ⟨by rw [hload]; exact ⟨hlow, hhigh⟩, by rw [hload, hsum]; exact hfits.biased, ?_⟩
  rw [hload]
  -- the average takes up no more than half of the range either
  obtain ⟨hsumLow, hsumHigh⟩ := inS64_toInt cfs.avgAndLoad.1
  have hfloor : -2 ^ 62 ≤ cfs.avgSum / cfs.trueLoad := by
    rw [Int.le_ediv_iff_mul_le (by omega)]
    change _ ≤ cfs.avgAndLoad.1.toInt
    omega
  have hceil : cfs.avgSum / cfs.trueLoad < 2 ^ 62 := by
    rw [Int.ediv_lt_iff_lt_mul (by omega)]
    change cfs.avgAndLoad.1.toInt < _
    omega
  rw [abs_lt]
  constructor <;> omega

end CfsRq

/-- For any number of runnable entities: the divisor is their load exactly if the load is below 2³¹; then, as long as the
sums fit, the average lies among the vruntimes. -/
theorem divisor_right_iff {cfs : CfsRq} (h : cfs.Averaged) (hne : cfs.runnable ≠ [])
    (hweights : ∀ e ∈ cfs.runnable, e.WeightAccepted) :
    (cfs.DividesRight ↔ cfs.trueLoad < 2 ^ 31) ∧ (cfs.trueLoad < 2 ^ 31 → cfs.SumFits → cfs.AverageAmong) := by
  have htwo := CfsRq.two_le_trueLoad hne hweights
  refine ⟨⟨fun hright => ?_, fun hlt => ?_⟩, fun hlt hfits => ?_⟩
  · have haverage := hright.average
    rw [h.divisor_eq] at haverage
    have := Int.bmod_lt (x := cfs.trueLoad) (m := 2 ^ 32) (by norm_num)
    omega
  · have hload := h.totalLoad_eq (by omega) hlt
    have hdivisor : divisor cfs.avgAndLoad.2 = cfs.trueLoad := by
      rw [h.divisor_eq]
      exact Int.bmod_eq_of_le (by omega) (by omega)
    refine ⟨by omega, hdivisor, ?_⟩
    rwa [if_neg]
    intro hzero
    rw [CfsRq.totalLoad, hzero] at hload
    have : (0 : ℤ) = cfs.trueLoad := hload
    omega
  · have hload := h.totalLoad_eq (by omega) hlt
    have hsum := hfits.avgSum_eq h (by omega)
    have hpos : 0 < cfs.totalLoad := by omega
    have hlt' : cfs.totalLoad < 2 ^ 31 := by omega
    constructor
    · obtain ⟨e, he, hle⟩ := exists_le_wsum (k := cfs.key) (by omega : 0 < cfs.trueLoad)
      refine ⟨e, he, ?_⟩
      rw [← Bool.not_eq_true, (hfits.comparable h htwo hlt he).ahead_iff hpos hlt', not_lt, hload, hsum]
      exact (Int.le_ediv_iff_mul_le (by omega)).2 hle
    · obtain ⟨e, he, hle⟩ := exists_wsum_le (k := cfs.key) (by omega : 0 < cfs.trueLoad)
      refine ⟨e, he, ?_⟩
      rw [← Bool.not_eq_true, (hfits.comparable h htwo hlt he).ahead_avg_iff hpos hlt', not_lt, hload, hsum]
      exact Int.ediv_le_of_le_mul (by omega) hle

/-- The entities with vruntimes 10, 15 and 20. -/
theorem divisor_right_of_three : threeRunnable.DividesRight ∧ threeRunnable.AverageAmong := by
  have haveraged : threeRunnable.Averaged := ⟨by decide, by decide⟩
  have hweights : ∀ e ∈ threeRunnable.runnable, e.WeightAccepted := by
    have hall : ∀ e ∈ threeRunnable.runnable, 2 ≤ e.load.weight.toNat ∧ e.load.weight.toNat ≤ 2 ^ 28 := by decide
    exact hall
  have hkeys : ∀ e ∈ threeRunnable.runnable, InS64 (threeRunnable.key e * threeRunnable.trueLoad) := by
    have hall : ∀ e ∈ threeRunnable.runnable, -2 ^ 63 ≤ threeRunnable.key e * threeRunnable.trueLoad ∧
        threeRunnable.key e * threeRunnable.trueLoad < 2 ^ 63 := by decide
    exact hall
  obtain ⟨hdivides, hamong⟩ := divisor_right_iff haveraged (by decide) hweights
  exact ⟨hdivides.2 (by decide), hamong (by decide) ⟨hkeys, by decide, by decide⟩⟩

/-! ## Many groups -/

/-- The entity of a group with `MAX_SHARES`, one past the first `min_vruntime`. -/
def fullGroup (id : ℕ) : SchedEntity :=
  { newEntity id with load := updateLoadSet (scaleLoad (1 <<< 18)), onRq := true, vruntime := initCfsRq.minVruntime + 1 }

def crowd : ℕ → CfsRq
  | 0 => initCfsRq
  | n + 1 => (crowd n).__enqueueEntity [] (fullGroup n)

theorem crowd_averaged (n : ℕ) : (crowd n).Averaged := by
  induction n with
  | zero => exact ⟨rfl, rfl⟩
  | succ n ih => exact ih.enqueue [] (fullGroup n)

section

variable (ds : Rotations) (cfs : CfsRq) (se : SchedEntity)

theorem enqueue_minVruntime : (cfs.__enqueueEntity ds se).minVruntime = cfs.minVruntime := rfl

theorem enqueue_curr : (cfs.__enqueueEntity ds se).curr = cfs.curr := rfl

theorem enqueue_timeline : (cfs.__enqueueEntity ds se).tasksTimeline = cfs.tasksTimeline.rbAddAugmentedCached ds se := rfl

end

theorem crowd_minVruntime (n : ℕ) : (crowd n).minVruntime = initCfsRq.minVruntime := by
  induction n with
  | zero => rw [crowd]
  | succ n ih => rw [crowd, enqueue_minVruntime, ih]

theorem crowd_curr (n : ℕ) : (crowd n).curr = none := by
  induction n with
  | zero => rw [crowd, initCfsRq]
  | succ n ih => rw [crowd, enqueue_curr, ih]

theorem crowd_entities (n : ℕ) : (crowd n).tasksTimeline.entities.Perm ((List.range n).map fullGroup).reverse := by
  induction n with
  | zero =>
    exact List.Perm.nil
  | succ n ih =>
    rw [range_succ, map_append, reverse_append, crowd, enqueue_timeline]
    exact (Timeline.rbAdd_perm [] (fullGroup n) (crowd n).tasksTimeline).trans (ih.cons _)

theorem fullGroup_seWeight (n : ℕ) : (fullGroup n).seWeight = 262144#64 := by
  change scaleLoadDown (scaleLoad (1 <<< 18)) = _
  decide

theorem crowd_avgAndLoad (n : ℕ) :
    (crowd n).avgAndLoad = (BitVec.ofNat 64 n * 262144#64, BitVec.ofNat 64 n * 262144#64) := by
  induction n with
  | zero =>
    rfl
  | succ n ih =>
    have hkey : (crowd n).entityKey (fullGroup n) = 1 := by
      rw [CfsRq.entityKey, crowd_minVruntime]
      exact add_sub_cancel_left _ _
    have hsucc : BitVec.ofNat 64 (n + 1) * 262144#64 = BitVec.ofNat 64 n * 262144#64 + 262144#64 := by
      rw [BitVec.ofNat_add, add_mul]
      rfl
    rw [crowd, CfsRq.avgAndLoad_enqueue, ih, hkey, fullGroup_seWeight, hsucc, one_mul]

theorem crowd_runnable (n : ℕ) : (crowd n).runnable.Perm ((List.range n).map fullGroup).reverse := by
  rw [CfsRq.runnable, crowd_curr]
  exact crowd_entities n

/-- With 8192 groups of `MAX_SHARES` the divisor is negative and the average is before all of them; with twice as many
`div_s64` divides by 0. -/
theorem divisor_not_right :
    (∃ cfs : CfsRq, cfs.Averaged ∧ cfs.runnable.length = 8192 ∧ (∀ e ∈ cfs.runnable, e.WeightAccepted) ∧
      divisor cfs.avgAndLoad.2 = -2 ^ 31 ∧ ∀ e ∈ cfs.runnable, ahead e.vruntime cfs.avgVruntimeOf = true) ∧
    ∃ cfs : CfsRq, cfs.Averaged ∧ cfs.runnable.length = 16384 ∧ (∀ e ∈ cfs.runnable, e.WeightAccepted) ∧
      cfs.avgAndLoad.2 ≠ 0 ∧ divisor cfs.avgAndLoad.2 = 0 := by
  have hlength : ∀ n, (crowd n).runnable.length = n := by
    intro n
    rw [(crowd_runnable n).length_eq, length_reverse, length_map, length_range]
  have hgroup : ∀ n, ∀ e ∈ (crowd n).runnable, ∃ i, e = fullGroup i := by
    intro n e he
    obtain ⟨i, -, hi⟩ := mem_map.1 (mem_reverse.1 ((crowd_runnable n).mem_iff.1 he))
    exact ⟨i, hi.symm⟩
  have hweights : ∀ n, ∀ e ∈ (crowd n).runnable, e.WeightAccepted := by
    intro n e he
    obtain ⟨i, rfl⟩ := hgroup n e he
    have hweight : (fullGroup i).load.weight = scaleLoad (1 <<< 18) := rfl
    rw [SchedEntity.WeightAccepted, hweight]
    decide
  refine ⟨⟨crowd 8192, crowd_averaged _, hlength _, hweights _, ?_, fun e he => ?_⟩,
    crowd 16384, crowd_averaged _, hlength _, hweights _, ?_, ?_⟩
  · rw [crowd_avgAndLoad]
    decide
  · obtain ⟨i, rfl⟩ := hgroup _ e he
    have havg : (crowd 8192).avgVruntimeOf = initCfsRq.minVruntime - 1 := by
      rw [CfsRq.avgVruntimeOf, crowd_avgAndLoad, crowd_minVruntime]
      decide
    have hvruntime : (fullGroup i).vruntime = initCfsRq.minVruntime + 1 := rfl
    rw [havg, hvruntime]
    decide
  · rw [crowd_avgAndLoad]
    decide
  · rw [crowd_avgAndLoad]
    decide

end KernelSched.Fair
