import KernelSched.Lib.Run
import KernelSched.Pelt.Sync

/-!
# Attaching entities to a runqueue

An entity that comes to a `cfs_rq` brings its averages; its sums are computed from them with the divider of the `cfs_rq`
and added. Each sum is then still at least its average times `PELT_MIN_DIVIDER`, as long as two things hold of every
attach: no sum leaves its width, which for `util_sum` is 32 bits, and what the division by the weight cuts from the load
is within what the place in the period adds to the divider.
-/

namespace KernelSched.Pelt

open Run

/-! ## Model -/

structure WeightedSe where
  weight : Nat
  avg : SchedAvg
  weight_pos : 0 < weight
  weight_lt : weight < 2 ^ 32
  util_le : avg.utilAvg ≤ 1024

/-- The `load_sum` in `attach_entity_load_avg` of an entity, from `load_avg * divider` -/
def attachLoadSum (weight loadSum : Nat) : Nat :=
  -- `div_u64` has a divisor of 32 bits
  if weight < loadSum then loadSum / (weight % 2 ^ 32) else 1

/-- The entity in `attach_entity_load_avg`: at the same place as the `cfs_rq`, with new sums -/
def WeightedSe.aligned (sa : SchedAvg) (se : WeightedSe) : WeightedSe :=
  let divider := getPeltDivider sa
  { se with
    avg := { se.avg with
      lastUpdateTime := sa.lastUpdateTime
      periodContrib := sa.periodContrib
      utilSum := se.avg.utilAvg * divider % 2 ^ 32
      runnableSum := se.avg.runnableAvg * divider % 2 ^ 64
      loadSum := attachLoadSum se.weight (se.avg.loadAvg * divider % 2 ^ 64) } }

def enqueueLoadAvg (se : WeightedSe) (sa : SchedAvg) : SchedAvg :=
  { sa with
    loadAvg := (sa.loadAvg + se.avg.loadAvg) % 2 ^ 64
    loadSum := (sa.loadSum + se.weight * se.avg.loadSum) % 2 ^ 64 }

/-- `attach_entity_load_avg`: the entity and the averages of the `cfs_rq` -/
def attachEntityLoadAvg (se : WeightedSe) (sa : SchedAvg) : WeightedSe × SchedAvg :=
  let se := se.aligned sa
  let sa := enqueueLoadAvg se sa
  (se, { sa with
    utilAvg := (sa.utilAvg + se.avg.utilAvg) % 2 ^ 64
    utilSum := (sa.utilSum + se.avg.utilSum) % 2 ^ 32
    runnableAvg := (sa.runnableAvg + se.avg.runnableAvg) % 2 ^ 64
    runnableSum := (sa.runnableSum + se.avg.runnableSum) % 2 ^ 64 })

def attachStep (se : WeightedSe) (sa : SchedAvg) : Option SchedAvg := some (attachEntityLoadAvg se sa).2

/-! ## Sums without a width -/

/-- What an entity adds to the load, without a width. -/
def WeightedSe.loadPart (sa : SchedAvg) (se : WeightedSe) : Nat :=
  se.weight * attachLoadSum se.weight (se.avg.loadAvg * getPeltDivider sa)

/-- The averages of the `cfs_rq` if no field had a width. -/
def attachExact (se : WeightedSe) (sa : SchedAvg) : SchedAvg :=
  { sa with
    loadAvg := sa.loadAvg + se.avg.loadAvg
    loadSum := sa.loadSum + se.loadPart sa
    utilAvg := sa.utilAvg + se.avg.utilAvg
    utilSum := sa.utilSum + se.avg.utilAvg * getPeltDivider sa
    runnableAvg := sa.runnableAvg + se.avg.runnableAvg
    runnableSum := sa.runnableSum + se.avg.runnableAvg * getPeltDivider sa }

/-- An attach is right if nothing wraps and every sum fits its average. -/
structure AttachRight (se : WeightedSe) (sa : SchedAvg) : Prop where
  exact : (attachEntityLoadAvg se sa).2 = attachExact se sa
  synced : Synced (attachEntityLoadAvg se sa).2

structure SumsFit (se : WeightedSe) (sa : SchedAvg) : Prop where
  util : sa.utilSum + se.avg.utilAvg * getPeltDivider sa < 2 ^ 32
  runnable : sa.runnableSum + se.avg.runnableAvg * getPeltDivider sa < 2 ^ 64
  product : se.avg.loadAvg * getPeltDivider sa < 2 ^ 64
  load : sa.loadSum + se.loadPart sa < 2 ^ 64

/-- Moreover, what the division by the weight cuts off is within the share of the place in the period. -/
structure AttachFits (se : WeightedSe) (sa : SchedAvg) : Prop extends SumsFit se sa where
  cut : se.weight < se.avg.loadAvg * getPeltDivider sa →
    se.avg.loadAvg * getPeltDivider sa % se.weight ≤ se.avg.loadAvg * sa.periodContrib

theorem mul_peltMinDivider_le (avg : Nat) (sa : SchedAvg) : avg * peltMinDivider ≤ avg * getPeltDivider sa :=
  Nat.mul_le_mul_left _ (Nat.le_add_right _ _)

theorem le_mul_peltMinDivider (avg : Nat) : avg ≤ avg * peltMinDivider := Nat.le_mul_of_pos_right _ (by decide)

theorem WeightedSe.attachLoadSum_eq (se : WeightedSe) {sum : Nat} (h : se.weight < sum) :
    attachLoadSum se.weight sum = sum / se.weight := by
  rw [attachLoadSum, if_pos h, Nat.mod_eq_of_lt se.weight_lt]

section

variable {se : WeightedSe} {sa : SchedAvg}

/-- The load of the entity covers its average if the division does not cut too much. -/
theorem AttachFits.le_loadPart (h : AttachFits se sa) : se.avg.loadAvg * peltMinDivider ≤ se.loadPart sa := by
  have hsplit : se.avg.loadAvg * getPeltDivider sa =
      se.avg.loadAvg * peltMinDivider + se.avg.loadAvg * sa.periodContrib := mul_add _ _ _
  rcases lt_or_ge se.weight (se.avg.loadAvg * getPeltDivider sa) with hlt | hle
  · have hcut := h.cut hlt
    have hdiv := Nat.div_add_mod (se.avg.loadAvg * getPeltDivider sa) se.weight
    rw [WeightedSe.loadPart, se.attachLoadSum_eq hlt]
    omega
  · rw [WeightedSe.loadPart, attachLoadSum, if_neg (not_lt.2 hle)]
    omega

theorem SumsFit.exact (h : SumsFit se sa) (hs : Synced (attachExact se sa)) :
    (attachEntityLoadAvg se sa).2 = attachExact se sa := by
  have hutil := h.util
  have hrunnable := h.runnable
  have hload := h.load
  -- an average is at most its sum
  have hloadAvg := (le_mul_peltMinDivider _).trans hs.load
  have hutilAvg := (le_mul_peltMinDivider _).trans hs.util
  have hrunnableAvg := (le_mul_peltMinDivider _).trans hs.runnable
  simp only [attachExact] at hloadAvg hutilAvg hrunnableAvg
  have hpart : se.weight * attachLoadSum se.weight (se.avg.loadAvg * getPeltDivider sa % 2 ^ 64) = se.loadPart sa := by
    rw [Nat.mod_eq_of_lt h.product, WeightedSe.loadPart]
  simp only [attachEntityLoadAvg, enqueueLoadAvg, WeightedSe.aligned, attachExact, hpart]
  simp only [SchedAvg.mk.injEq, true_and]
  refine ⟨?_, ?_, ?_, ?_, ?_, ?_⟩ <;> omega

theorem AttachFits.right (hs : Synced sa) (h : AttachFits se sa) : AttachRight se sa := by
  have hexact : Synced (attachExact se sa) := by
    refine ⟨?_, ?_, ?_⟩
    · show (sa.loadAvg + se.avg.loadAvg) * peltMinDivider ≤ sa.loadSum + se.loadPart sa
      rw [add_mul]
      exact add_le_add hs.load h.le_loadPart
    · show (sa.utilAvg + se.avg.utilAvg) * peltMinDivider ≤ _
      rw [add_mul]
      exact add_le_add hs.util (mul_peltMinDivider_le _ _)
    · show (sa.runnableAvg + se.avg.runnableAvg) * peltMinDivider ≤ _
      rw [add_mul]
      exact add_le_add hs.runnable (mul_peltMinDivider_le _ _)
  have heq := h.toSumsFit.exact hexact
  exact ⟨heq, heq ▸ hexact⟩

/-- Where the product of the load wraps, the sum that the `cfs_rq` gets is not the right one. -/
theorem product_fits (h : (sa.loadSum +
    se.weight * attachLoadSum se.weight (se.avg.loadAvg * getPeltDivider sa % 2 ^ 64)) % 2 ^ 64 =
      sa.loadSum + se.loadPart sa) : se.avg.loadAvg * getPeltDivider sa < 2 ^ 64 := by
  by_contra hnot
  have hweight := se.weight_lt
  have hlt : se.weight < se.avg.loadAvg * getPeltDivider sa := by omega
  have hpart : se.loadPart sa = se.weight * (se.avg.loadAvg * getPeltDivider sa / se.weight) := by
    rw [WeightedSe.loadPart, se.attachLoadSum_eq hlt]
  have hdiv := Nat.div_add_mod (se.avg.loadAvg * getPeltDivider sa) se.weight
  have hmod := Nat.mod_lt (se.avg.loadAvg * getPeltDivider sa) se.weight_pos
  -- so little is left of the product that the entity gets the least sum
  have hsmall : ¬ se.weight < se.avg.loadAvg * getPeltDivider sa % 2 ^ 64 := by omega
  rw [attachLoadSum, if_neg hsmall] at h
  omega

theorem AttachRight.fit (h : AttachRight se sa) : SumsFit se sa := by
  have heq := h.exact
  simp only [attachEntityLoadAvg, enqueueLoadAvg, WeightedSe.aligned, attachExact, SchedAvg.mk.injEq] at heq
  obtain ⟨-, hload, hrunnable, hutil, -⟩ := heq
  refine ⟨?_, ?_, product_fits hload, ?_⟩ <;> omega

end

def UtilFits (se : WeightedSe) (sa : SchedAvg) : Prop := sa.utilSum + se.avg.utilAvg * getPeltDivider sa < 2 ^ 32

instance (se : WeightedSe) (sa : SchedAvg) : Decidable (UtilFits se sa) := Nat.decLt _ _

/-- So many entities fit, whatever their averages and the place in the period are. -/
theorem utilFits_of_length : ∀ (ses : List WeightedSe) {sa : SchedAvg}, sa.periodContrib < 1024 →
    sa.utilSum + ses.length * (1024 * 47741) < 2 ^ 32 → Along attachStep UtilFits ses sa
  | [], _, _, _ => trivial
  | se :: ses, sa, hc, h => by
    have hdivider : getPeltDivider sa ≤ 47741 := by
      unfold getPeltDivider peltMinDivider loadAvgMax
      omega
    have hpart : se.avg.utilAvg * getPeltDivider sa ≤ 1024 * 47741 := Nat.mul_le_mul se.util_le hdivider
    rw [List.length_cons] at h
    refine ⟨?_, fun sa' hsa' => ?_⟩
    · unfold UtilFits
      omega
    · cases hsa'
      refine utilFits_of_length ses hc ?_
      show (sa.utilSum + se.avg.utilAvg * getPeltDivider sa % 2 ^ 32) % 2 ^ 32 + _ < _
      omega

/-- Along every sequence of attaches: they are right if the sums fit and the division does not cut too much. Only then
do the sums fit; and 87 entities on an empty `cfs_rq` always fit in `util_sum`. -/
theorem attach_right {sa : SchedAvg} (hs : Synced sa) (hc : sa.periodContrib < 1024) (ses : List WeightedSe) :
    (Along attachStep AttachFits ses sa → Along attachStep AttachRight ses sa) ∧
      (Along attachStep AttachRight ses sa → Along attachStep SumsFit ses sa) ∧
        (sa.utilSum + ses.length * (1024 * 47741) < 2 ^ 32 → Along attachStep UtilFits ses sa) := by
  refine ⟨fun hfits => ?_, fun hright => hright.imp fun _ _ h => h.fit, utilFits_of_length ses hc⟩
  refine hfits.imp_invariant (fun se sa sa' hs hfits hstep => ?_) (fun se sa hs hfits => hfits.right hs) hs
  cases hstep
  exact (hfits.right hs).synced

def emptyAvg (contrib : Nat) : SchedAvg := ⟨0, 0, 0, 0, contrib, 0, 0, 0⟩

/-- A task of nice 0 that has always been running. -/
def busyTask : WeightedSe := ⟨1024, ⟨0, 0, 0, 0, 0, 1024, 1024, 1024⟩, by decide, by decide, by decide⟩

theorem attach_right_busy : Along attachStep AttachRight [busyTask, busyTask] (emptyAvg 0) ∧
    Along attachStep UtilFits (List.replicate 87 busyTask) (emptyAvg 1023) := by
  have hempty : ∀ contrib, Synced (emptyAvg contrib) := fun _ =>
    ⟨(zero_mul _).le, (zero_mul _).le, (zero_mul _).le⟩
  refine ⟨(attach_right (hempty 0) (by decide) _).1 ⟨⟨?_, ?_⟩, fun sa hsa => ⟨⟨?_, ?_⟩, fun _ _ => trivial⟩⟩,
    (attach_right (hempty 1023) (by decide) _).2.2 (by decide)⟩
  · exact ⟨by decide, by decide, by decide, by decide⟩
  · decide
  · cases hsa
    exact ⟨by decide, by decide, by decide, by decide⟩
  · cases hsa
    decide

/-- A task of nice -20 that has hardly been runnable. -/
def quietTask : WeightedSe := ⟨88761, ⟨0, 0, 0, 0, 0, 2, 0, 0⟩, by decide, by decide, by decide⟩

/-- Of 90 tasks the last one makes `util_sum` wrap: its average is 92160, and the next update makes it 226. The load of
one task alone can be cut below its average. -/
theorem attach_not_right :
    (run attachStep (List.replicate 90 busyTask) (emptyAvg 0)).map
        (fun sa => (sa.utilAvg, sa.utilSum, (updateLoadAvg sa 1).utilAvg)) = some (92160, 10563584, 226) ∧
      ¬ Along attachStep AttachRight (List.replicate 90 busyTask) (emptyAvg 0) ∧
      (attachEntityLoadAvg quietTask (emptyAvg 0)).2.loadSum = 88761 ∧
      (attachEntityLoadAvg quietTask (emptyAvg 0)).2.loadAvg * peltMinDivider = 93436 := by
  refine ⟨by decide +kernel, fun hright => ?_, by decide, by decide⟩
  have hfits : Along attachStep UtilFits (List.replicate 90 busyTask) (emptyAvg 0) := hright.imp fun _ _ h => h.fit.util
  revert hfits
  decide +kernel

end KernelSched.Pelt
