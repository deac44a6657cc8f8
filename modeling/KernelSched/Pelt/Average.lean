import KernelSched.Lib.Decay
import KernelSched.Lib.Wrap

/-!
# Per-entity load tracking

`struct sched_avg` holds decaying sums of the time an entity was runnable and running, in periods of 1024 units, and their
averages. A sum that is full decays to `LOAD_AVG_MAX - 1024` over a period, so the greatest sum is
`LOAD_AVG_MAX - 1024 + period_contrib`, the divider of the averages.

The decay is rounded down. `loadSum` counts units; `runnableSum` and `utilSum` count them in 1024ths, so they lose less
when they decay than the divider assumes.
-/

namespace KernelSched.Pelt

open Wrap Decay

/-! ## Model -/

def loadAvgPeriod : Nat := 32

def loadAvgMax : Nat := 47742

def runnableAvgYNInv : List Nat :=
  [0xffffffff, 0xfa83b2da, 0xf5257d14, 0xefe4b99a, 0xeac0c6e6, 0xe5b906e6,
    0xe0ccdeeb, 0xdbfbb796, 0xd744fcc9, 0xd2a81d91, 0xce248c14, 0xc9b9bd85,
    0xc5672a10, 0xc12c4cc9, 0xbd08a39e, 0xb8fbaf46, 0xb504f333, 0xb123f581,
    0xad583ee9, 0xa9a15ab4, 0xa5fed6a9, 0xa2704302, 0x9ef5325f, 0x9b8d39b9,
    0x9837f050, 0x94f4efa8, 0x91c3d373, 0x8ea4398a, 0x8b95c1e3, 0x88980e80,
    0x85aac367, 0x82cd8698]

def decayLoad (val n : Nat) : Nat :=
  if loadAvgPeriod * 63 < n then 0
  else
    let (val, n) := if loadAvgPeriod ≤ n then (val >>> (n / loadAvgPeriod), n % loadAvgPeriod) else (val, n)
    -- `mul_u64_u32_shr`
    (val * runnableAvgYNInv.getD n 0) >>> 32

def u32 (x : Int) : Nat := (x % 2 ^ 32).toNat

def accumulatePeltSegments (periods d1 d3 : Nat) : Nat :=
  let c1 := u32 (decayLoad d1 periods)
  let c2 := u32 (loadAvgMax - decayLoad loadAvgMax periods - 1024)
  u32 (c1 + c2 + d3)

structure SchedAvg where
  lastUpdateTime : U64
  loadSum : Nat
  runnableSum : Nat
  utilSum : Nat
  periodContrib : Nat
  loadAvg : Nat
  runnableAvg : Nat
  utilAvg : Nat

/-- The decay of the sums in `accumulate_sum` -/
def SchedAvg.decayed (periods : Nat) (sa : SchedAvg) : SchedAvg :=
  { sa with
    loadSum := decayLoad sa.loadSum periods
    runnableSum := decayLoad sa.runnableSum periods
    utilSum := decayLoad sa.utilSum periods }

/-- With the number of periods it returns -/
def accumulateSum (delta : Nat) (sa : SchedAvg) (load runnable : Nat) (running : Bool) : SchedAvg × Nat :=
  let contrib := u32 delta
  let delta := delta + sa.periodContrib
  let periods := delta / 1024
  let (sa, delta, contrib) :=
    if periods ≠ 0 then
      let d1 := 1024 - sa.periodContrib
      (sa.decayed periods, delta % 1024,
        if load ≠ 0 then accumulatePeltSegments periods d1 (delta % 1024) else contrib)
    else (sa, delta, contrib)
  let sa := { sa with periodContrib := delta }
  let sa := if load ≠ 0 then { sa with loadSum := (sa.loadSum + load * contrib) % 2 ^ 64 } else sa
  let sa := if runnable ≠ 0 then { sa with runnableSum := (sa.runnableSum + runnable * contrib * 1024) % 2 ^ 64 } else sa
  let sa := if running then { sa with utilSum := (sa.utilSum + contrib * 1024) % 2 ^ 32 } else sa
  (sa, periods)

/-- `___update_load_sum`, and whether a period has passed -/
def updateLoadSum (now : U64) (sa : SchedAvg) (load runnable : Nat) (running : Bool) : SchedAvg × Bool :=
  let delta := now - sa.lastUpdateTime
  if delta.toInt < 0 then ({ sa with lastUpdateTime := now }, false)
  else
    let delta := delta >>> 10
    if delta = 0 then (sa, false)
    else
      let sa := { sa with lastUpdateTime := sa.lastUpdateTime + delta <<< 10 }
      let (runnable, running) := if load = 0 then (0, false) else (runnable, running)
      let (sa, periods) := accumulateSum delta.toNat sa load runnable running
      (sa, periods ≠ 0)

def peltMinDivider : Nat := loadAvgMax - 1024

def getPeltDivider (sa : SchedAvg) : Nat := peltMinDivider + sa.periodContrib

def updateLoadAvg (sa : SchedAvg) (load : Nat) : SchedAvg :=
  let divider := getPeltDivider sa
  { sa with
    loadAvg := load * sa.loadSum % 2 ^ 64 / divider
    runnableAvg := sa.runnableSum / divider
    utilAvg := sa.utilSum / divider }

/-- One update of an entity: when, whether it is on the runqueue, how many of its tasks are runnable, whether it runs, and
its weight. -/
structure Sample where
  now : U64
  onRq : Bool
  runnable : Nat
  running : Bool
  weight : Nat

/-- `__update_load_avg_se`, and `__update_load_avg_blocked_se` for an entity that is not on the runqueue -/
def updateLoadAvgSe (sa : SchedAvg) (x : Sample) : SchedAvg :=
  let (sa, crossed) := updateLoadSum x.now sa x.onRq.toNat x.runnable x.running
  if crossed then updateLoadAvg sa x.weight else sa

def zeroAvg (t : U64) (c : Fin 1024) : SchedAvg := ⟨t, 0, 0, 0, c, 0, 0, 0⟩

def runSamples (t : U64) (c : Fin 1024) (xs : List Sample) : SchedAvg := xs.foldl updateLoadAvgSe (zeroAvg t c)

/-! ## Decay -/

section

variable {v w n m e : Nat}

theorem decayLoad_eq (hn : n ≤ loadAvgPeriod * 63) :
    decayLoad v n = decay (2 ^ (n / loadAvgPeriod)) (runnableAvgYNInv.getD (n % loadAvgPeriod) 0) (2 ^ 32) v := by
  rw [decayLoad, if_neg (not_lt.2 hn)]
  by_cases hp : loadAvgPeriod ≤ n
  · simp only [if_pos hp, Nat.shiftRight_eq_div_pow, decay]
  · have hlt : n < loadAvgPeriod := Nat.lt_of_not_le hp
    simp only [if_neg hp, Nat.shiftRight_eq_div_pow, decay, Nat.div_eq_of_lt hlt, Nat.mod_eq_of_lt hlt, Nat.pow_zero,
      Nat.div_one]

theorem decayLoad_eq_zero (hn : loadAvgPeriod * 63 < n) : decayLoad v n = 0 := if_pos hn

theorem runnableAvgYNInv_lt : ∀ r < 32, runnableAvgYNInv.getD r 0 < 2 ^ 32 := by decide

theorem runnableAvgYNInv_le : ∀ r < 32, 0 < r → runnableAvgYNInv.getD r 0 ≤ 0xfa83b2da := by decide

theorem decayLoad_mono (h : v ≤ w) : decayLoad v n ≤ decayLoad w n := by
  rcases lt_or_ge (loadAvgPeriod * 63) n with hn | hn
  · rw [decayLoad_eq_zero hn, decayLoad_eq_zero hn]
  · rw [decayLoad_eq hn, decayLoad_eq hn]
    exact decay_mono h

theorem decayLoad_add_le : decayLoad v n + decayLoad w n ≤ decayLoad (v + w) n := by
  rcases lt_or_ge (loadAvgPeriod * 63) n with hn | hn
  · simp only [decayLoad_eq_zero hn, le_refl]
  · rw [decayLoad_eq hn, decayLoad_eq hn, decayLoad_eq hn]
    exact decay_add_le

theorem mul_decayLoad_le : m * decayLoad v n ≤ decayLoad (m * v) n := by
  rcases lt_or_ge (loadAvgPeriod * 63) n with hn | hn
  · simp only [decayLoad_eq_zero hn, mul_zero, le_refl]
  · rw [decayLoad_eq hn, decayLoad_eq hn]
    exact mul_decay_le

theorem decayLoad_max_le (hn : 1 ≤ n) : decayLoad loadAvgMax n ≤ peltMinDivider := by
  rcases lt_or_ge n 32 with hlt | hge
  · have htable : ∀ n < 32, 1 ≤ n → decayLoad loadAvgMax n ≤ peltMinDivider := by decide
    exact htable n hlt hn
  · rcases Nat.lt_or_ge (loadAvgPeriod * 63) n with hbig | hn
    · exact (decayLoad_eq_zero hbig).trans_le (Nat.zero_le _)
    · have hpow : 2 ^ 1 ≤ 2 ^ (n / loadAvgPeriod) :=
        Nat.pow_le_pow_right (by decide) ((Nat.le_div_iff_mul_le (by decide)).2 hge)
      rw [decayLoad_eq hn]
      calc decay _ _ _ loadAvgMax ≤ loadAvgMax / 2 ^ (n / loadAvgPeriod) :=
            decay_le (runnableAvgYNInv_lt _ (Nat.mod_lt _ (by decide))).le
        _ ≤ loadAvgMax / 2 ^ 1 := Nat.div_le_div_left hpow (by decide)
        _ ≤ peltMinDivider := by decide

/-- How much a sum in 1024ths can exceed the divider. -/
def slack : Nat := 47789

/-- `m` and `e` are such that a sum in `m`-ths, with the excess `e`, keeps it when it decays. -/
def Keeps (m e : Nat) : Prop := ∀ n, 1 ≤ n → decayLoad (m * loadAvgMax + e) n ≤ m * decayLoad loadAvgMax n + e

theorem keeps_one : Keeps 1 0 := fun n _ => by rw [Nat.one_mul, Nat.one_mul, Nat.add_zero, Nat.add_zero]

theorem keeps_scale : Keeps 1024 slack := by
  intro n hn
  rcases Nat.lt_or_ge (loadAvgPeriod * 63) n with hbig | hle
  · rw [decayLoad_eq_zero hbig]
    exact Nat.zero_le _
  · rw [decayLoad_eq hle, decayLoad_eq hle]
    rcases Nat.lt_or_ge n loadAvgPeriod with hlt | hge
    · have hinv := runnableAvgYNInv_le n hlt hn
      rw [Nat.div_eq_of_lt hlt, Nat.mod_eq_of_lt hlt, pow_zero]
      refine decay_one_mul_add_le (by decide) ?_
      unfold slack
      omega
    · have hpow : 2 ^ 1 ≤ 2 ^ (n / loadAvgPeriod) :=
        Nat.pow_le_pow_right (by decide) ((Nat.le_div_iff_mul_le (by decide)).2 hge)
      exact decay_mul_add_le hpow (by decide) (runnableAvgYNInv_lt _ (Nat.mod_lt _ (by decide))).le (by decide)

end

/-! ## One sum -/

theorem u32_le (x : Nat) : u32 x ≤ x := by
  unfold u32
  omega

/-- What is added for a time of `delta` units from the position `c` in a period. -/
def contribution (delta c : Nat) : Nat :=
  if (delta + c) / 1024 ≠ 0 then accumulatePeltSegments ((delta + c) / 1024) (1024 - c)
    ((delta + c) % 1024) else u32 delta

/-- A sum that nothing is added to. -/
def keptSum (delta c sum : Nat) : Nat := if (delta + c) / 1024 ≠ 0 then decayLoad sum ((delta + c) / 1024) else sum

/-- A sum in `m`-ths after `delta` units, with the entity on or off. -/
def nextSum (m delta c sum : Nat) (on : Prop) [Decidable on] : Nat :=
  keptSum delta c sum + if on then m * contribution delta c else 0

theorem segments_add_le {p : Nat} (hp : 1 ≤ p) (d1 d3 : Nat) :
    accumulatePeltSegments p d1 d3 + decayLoad loadAvgMax p ≤ decayLoad d1 p + peltMinDivider + d3 := by
  have hmax := decayLoad_max_le hp
  have hc1 := u32_le (decayLoad d1 p)
  have hc2 : u32 (loadAvgMax - decayLoad loadAvgMax p - 1024) = peltMinDivider - decayLoad loadAvgMax p := by
    unfold peltMinDivider loadAvgMax at *
    unfold u32
    omega
  have hsum := u32_le (u32 (decayLoad d1 p) + (peltMinDivider - decayLoad loadAvgMax p) + d3)
  simp only [accumulatePeltSegments, hc2]
  push_cast at hsum
  omega

theorem nextSum_le (delta : Nat) {m e c sum : Nat} (hm : Keeps m e) (hc : c < 1024)
    (hsum : sum ≤ m * (peltMinDivider + c) + e)
    (on : Prop) [Decidable on] : nextSum m delta c sum on ≤ m * (peltMinDivider + (delta + c) % 1024) + e := by
  unfold nextSum keptSum contribution
  by_cases hp : (delta + c) / 1024 = 0
  · have hmod : (delta + c) % 1024 = delta + c := Nat.mod_eq_of_lt (by omega)
    have hcontrib : m * u32 delta ≤ m * delta := Nat.mul_le_mul_left m (u32_le delta)
    have hsplit : m * (peltMinDivider + (delta + c)) = m * (peltMinDivider + c) + m * delta := by ring
    simp only [hp, ne_eq, not_true_eq_false, if_false, hmod, hsplit]
    split <;> omega
  · simp only [ne_eq, hp, not_false_eq_true, if_true]
    generalize (delta + c) / 1024 = p at hp ⊢
    generalize (delta + c) % 1024 = d3
    have hp : 1 ≤ p := Nat.one_le_iff_ne_zero.2 hp
    have hmax : m * decayLoad loadAvgMax p ≤ m * peltMinDivider := Nat.mul_le_mul_left m (decayLoad_max_le hp)
    have hfull : sum + m * (1024 - c) ≤ m * loadAvgMax + e := by
      have hsplit : m * (peltMinDivider + c) + m * (1024 - c) = m * loadAvgMax := by
        rw [← mul_add]
        congr 1
        unfold peltMinDivider loadAvgMax
        omega
      omega
    -- the old sum and the rest of its period decay to less than a full sum does
    have hdecay : decayLoad sum p + m * decayLoad (1024 - c) p ≤ m * decayLoad loadAvgMax p + e :=
      calc decayLoad sum p + m * decayLoad (1024 - c) p
          ≤ decayLoad sum p + decayLoad (m * (1024 - c)) p := Nat.add_le_add_left mul_decayLoad_le _
        _ ≤ decayLoad (sum + m * (1024 - c)) p := decayLoad_add_le
        _ ≤ decayLoad (m * loadAvgMax + e) p := decayLoad_mono hfull
        _ ≤ m * decayLoad loadAvgMax p + e := hm p hp
    have hgoal : m * (peltMinDivider + d3) = m * peltMinDivider + m * d3 := Nat.mul_add ..
    split
    · have hseg := Nat.mul_le_mul_left m (segments_add_le hp (1024 - c) d3)
      simp only [Nat.mul_add] at hseg
      omega
    · omega

/-! ## Updates -/

variable {running : Bool} {load : Nat} {runnable : Nat}

/-- `accumulate_sum` on each field, for an entity that neither is runnable nor runs without load. -/
theorem accumulateSum_eq (delta : Nat) (sa : SchedAvg) (hoff : load = 0 → runnable = 0 ∧ running = false) :
    (accumulateSum delta sa load runnable running).1 =
      { sa with
        periodContrib := (delta + sa.periodContrib) % 1024
        loadSum :=
          if load ≠ 0 then
            (keptSum delta sa.periodContrib sa.loadSum + load * contribution delta sa.periodContrib) % 2 ^ 64
          else keptSum delta sa.periodContrib sa.loadSum
        runnableSum :=
          if runnable ≠ 0 then
            (keptSum delta sa.periodContrib sa.runnableSum + runnable * contribution delta sa.periodContrib * 1024) %
              2 ^ 64
          else keptSum delta sa.periodContrib sa.runnableSum
        utilSum :=
          if running then
            (keptSum delta sa.periodContrib sa.utilSum + contribution delta sa.periodContrib * 1024) % 2 ^ 32
          else keptSum delta sa.periodContrib sa.utilSum } := by
  unfold accumulateSum keptSum contribution SchedAvg.decayed
  by_cases hp : (delta + sa.periodContrib) / 1024 = 0
  · have hmod : (delta + sa.periodContrib) % 1024 = delta + sa.periodContrib := Nat.mod_eq_of_lt (by omega)
    simp only [hp, ne_eq, not_true_eq_false, if_false, hmod]
    split_ifs <;> rfl
  · simp only [ne_eq, hp, not_false_eq_true, if_true]
    by_cases hl : load = 0
    · simp only [hl, hoff hl, not_true_eq_false, if_false, Bool.false_eq_true]
    · split_ifs <;> rfl

variable {sa : SchedAvg}

theorem updateLoadSum_cases {P : SchedAvg → Prop} {now : U64} (htime : ∀ t, P { sa with lastUpdateTime := t })
    (haccumulate : ∀ t delta r b, r ≤ runnable → (load = 0 → r = 0 ∧ b = false) →
      P (accumulateSum delta { sa with lastUpdateTime := t } load r b).1) :
    P (updateLoadSum now sa load runnable running).1 := by
  unfold updateLoadSum
  dsimp only
  split
  · exact htime now
  · split
    · exact htime sa.lastUpdateTime
    · by_cases hload : load = 0
      · rw [if_pos hload]
        exact haccumulate _ _ 0 false (Nat.zero_le _) fun _ => ⟨rfl, rfl⟩
      · rw [if_neg hload]
        exact haccumulate _ _ runnable running (Nat.le_refl _) fun hzero => absurd hzero hload

/-! ### The load -/

/-- The position is in a period, and the load is within the divider. -/
structure LoadBound (sa : SchedAvg) : Prop where
  contrib : sa.periodContrib < 1024
  load : sa.loadSum ≤ getPeltDivider sa

section

variable {sa : SchedAvg} (h : LoadBound sa)

include h

theorem LoadBound.accumulate {delta : Nat} (hload : load ≤ 1)
    (hoff : load = 0 → runnable = 0 ∧ running = false) : LoadBound (accumulateSum delta sa load runnable running).1 := by
  have hsum : sa.loadSum ≤ 1 * (peltMinDivider + sa.periodContrib) + 0 := by
    rw [one_mul]
    exact h.load
  have hnext := nextSum_le delta keeps_one h.contrib hsum (load ≠ 0)
  rw [one_mul, add_zero] at hnext
  rw [accumulateSum_eq delta sa hoff]
  refine ⟨Nat.mod_lt _ (by decide), le_trans ?_ hnext⟩
  unfold nextSum
  split
  · next hon =>
    obtain rfl : load = 1 := by omega
    exact Nat.mod_le _ _
  · exact le_refl _

theorem LoadBound.setTime (t : U64) : LoadBound { sa with lastUpdateTime := t } :=
  ⟨h.contrib, h.load⟩

theorem LoadBound.updateLoadSum (now : U64) (hload : load ≤ 1) (runnable : Nat)
    (running : Bool) : LoadBound (updateLoadSum now sa load runnable running).1 :=
  updateLoadSum_cases h.setTime fun t _ _ _ _ hoff => (h.setTime t).accumulate hload hoff

theorem LoadBound.loadAvg_le (weight : Nat) : (updateLoadAvg sa weight).loadAvg ≤ weight :=
  calc weight * sa.loadSum % 2 ^ 64 / getPeltDivider sa ≤ weight * getPeltDivider sa / getPeltDivider sa :=
        Nat.div_le_div_right ((Nat.mod_le _ _).trans (Nat.mul_le_mul_left weight h.load))
    _ = weight := Nat.mul_div_cancel weight (Nat.add_pos_left (by decide) _)

theorem LoadBound.update (x : Sample) : LoadBound (updateLoadAvgSe sa x) := by
  have hsum := h.updateLoadSum x.now (Bool.toNat_le x.onRq) x.runnable x.running
  unfold updateLoadAvgSe
  dsimp only
  split
  · exact ⟨hsum.contrib, hsum.load⟩
  · exact hsum

end

/-- In every history the load is within the divider, and its average is at most the weight. -/
theorem load_avg_le_weight (t : U64) (c : Fin 1024) (xs : List Sample) :
    (runSamples t c xs).periodContrib < 1024 ∧
      (runSamples t c xs).loadSum ≤ loadAvgMax - 1024 + (runSamples t c xs).periodContrib ∧
        ∀ weight, (updateLoadAvg (runSamples t c xs) weight).loadAvg ≤ weight := by
  have hbound : ∀ sa, LoadBound sa → LoadBound (xs.foldl updateLoadAvgSe sa) := by
    induction xs with
    | nil => exact fun _ h => h
    | cons x xs ih => exact fun sa h => ih _ (h.update x)
  have h : LoadBound (runSamples t c xs) := hbound _ ⟨c.isLt, Nat.zero_le _⟩
  exact ⟨h.contrib, h.load, h.loadAvg_le⟩

/-! ### Runnable and running time -/

def ScaledBound (sa : SchedAvg) (sum : Nat) : Prop := sum ≤ 1024 * getPeltDivider sa + slack

structure AvgBound (sa : SchedAvg) : Prop where
  contrib : sa.periodContrib < 1024
  runnable : ScaledBound sa sa.runnableSum
  util : ScaledBound sa sa.utilSum
  runnableAvg : sa.runnableAvg ≤ 1025
  utilAvg : sa.utilAvg ≤ 1025

theorem ScaledBound.div_le {sum : Nat} (h : ScaledBound sa sum) : sum / getPeltDivider sa ≤ 1025 := by
  have hdiv : peltMinDivider ≤ getPeltDivider sa := Nat.le_add_right _ _
  unfold ScaledBound slack at h
  unfold peltMinDivider loadAvgMax at hdiv
  refine Nat.le_of_lt_succ ((Nat.div_lt_iff_lt_mul (by omega)).2 ?_)
  omega

theorem AvgBound.accumulate (h : AvgBound sa) {delta : Nat}
    (hrunnable : runnable ≤ 1) (hoff : load = 0 → runnable = 0 ∧ running = false) :
    AvgBound (accumulateSum delta sa load runnable running).1 := by
  have hnext : ∀ sum, ScaledBound sa sum → ∀ on : Bool, nextSum 1024 delta sa.periodContrib sum (on = true) ≤
      1024 * (peltMinDivider + (delta + sa.periodContrib) % 1024) + slack := fun sum hsum on =>
    nextSum_le delta keeps_scale h.contrib hsum (on = true)
  rw [accumulateSum_eq delta sa hoff]
  refine ⟨Nat.mod_lt _ (by decide), ?_, ?_, h.runnableAvg, h.utilAvg⟩
  · refine le_trans ?_ (hnext _ h.runnable (decide (runnable ≠ 0)))
    simp only [nextSum, decide_eq_true_eq]
    split
    · next hon =>
      obtain rfl : runnable = 1 := by omega
      exact (Nat.mod_le _ _).trans (by omega)
    · exact le_refl _
  · refine le_trans ?_ (hnext _ h.util running)
    simp only [nextSum]
    split
    · exact (Nat.mod_le _ _).trans (by omega)
    · exact le_refl _

theorem AvgBound.setTime (h : AvgBound sa) (t : U64) : AvgBound { sa with lastUpdateTime := t } :=
  ⟨h.contrib, h.runnable, h.util, h.runnableAvg, h.utilAvg⟩

theorem AvgBound.update (h : AvgBound sa) {x : Sample} (hx : x.runnable ≤ 1) : AvgBound (updateLoadAvgSe sa x) := by
  have hsum : AvgBound (updateLoadSum x.now sa x.onRq.toNat x.runnable x.running).1 :=
    updateLoadSum_cases h.setTime fun t _ _ _ hr hoff => (h.setTime t).accumulate (hr.trans hx) hoff
  unfold updateLoadAvgSe
  dsimp only
  split
  · exact ⟨hsum.contrib, hsum.runnable, hsum.util, hsum.runnable.div_le, hsum.util.div_le⟩
  · exact hsum

end KernelSched.Pelt
