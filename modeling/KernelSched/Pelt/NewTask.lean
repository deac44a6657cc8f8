import KernelSched.Pelt.Attach

/-!
# The utilisation a new task starts with

A new task is given a share of the utilisation of its `cfs_rq`, by its weight in the load, but no more than half of the
capacity that is left (`post_init_entity_util_avg`); then it is attached. So the forks of a `cfs_rq` never take it past
the capacity of the CPU (`fork_run_le`).

The share is computed from `se->load.weight`, which is 1024 times the weight that the load is made of. It is the one that
is meant just where that one is already cut to the half, or where even the larger one is zero (`new_task_util`).
-/

namespace KernelSched.Pelt

open Run

/-! ## Model -/

def scaleLoadDown (w : Nat) : Nat := if w = 0 then 0 else max 2 (w / 1024)

/-- `init_entity_runnable_average` of a task -/
def initEntityRunnableAverage (weight : Nat) : SchedAvg := ⟨0, 0, 0, 0, 0, scaleLoadDown weight, 0, 0⟩

/-- Half of the capacity that is left; a negative one is zero here, and has the same effect. -/
def utilCap (cpuScale : Nat) (cfs : SchedAvg) : Nat := (cpuScale - cfs.utilAvg) / 2

/-- `post_init_entity_util_avg` of a fair task -/
def postInitEntityUtilAvg (cpuScale : Nat) (cfs : SchedAvg) (weight : Nat) (sa : SchedAvg) : SchedAvg :=
  let cap := utilCap cpuScale cfs
  let util :=
    if 0 < cap then
      if cfs.utilAvg ≠ 0 then min (cfs.utilAvg * weight % 2 ^ 64 / ((cfs.loadAvg + 1) % 2 ^ 64)) cap else cap
    else sa.utilAvg
  { sa with utilAvg := util, runnableAvg := util }

theorem postInit_util_le (cpuScale weight : Nat) (cfs : SchedAvg) :
    (postInitEntityUtilAvg cpuScale cfs weight (initEntityRunnableAverage weight)).utilAvg ≤ utilCap cpuScale cfs := by
  simp only [postInitEntityUtilAvg]
  split
  · split
    · exact Nat.min_le_right _ _
    · exact Nat.le_refl _
  · exact Nat.zero_le _

/-- A CPU, with its capacity, and `load.weight` of a new task -/
structure Newcomer where
  cpuScale : Nat
  weight : Nat
  scale_le : cpuScale ≤ 1024
  /-- `scale_load` of at least `MIN_SHARES` -/
  weight_ge : 2048 ≤ weight
  weight_lt : weight < 2 ^ 42

def Newcomer.entity (n : Newcomer) (cfs : SchedAvg) : WeightedSe where
  weight := scaleLoadDown n.weight
  avg := postInitEntityUtilAvg n.cpuScale cfs n.weight (initEntityRunnableAverage n.weight)
  weight_pos := by
    have := n.weight_ge
    rw [scaleLoadDown, if_neg (by omega)]
    omega
  weight_lt := by
    have := n.weight_lt
    rw [scaleLoadDown]
    split <;> omega
  util_le := by
    have := n.scale_le
    refine (postInit_util_le ..).trans ?_
    unfold utilCap
    omega

/-- A fork: the new task is attached, and nothing decays. -/
def Newcomer.fork (n : Newcomer) (cfs : SchedAvg) : Option SchedAvg := attachStep (n.entity cfs) cfs

/-! ## What holds -/

variable {cfs : SchedAvg}

/-- The weight in the unit of the load is 1024 times smaller. -/
theorem Newcomer.scaleLoadDown_mul_le (n : Newcomer) : scaleLoadDown n.weight * 1024 ≤ n.weight := by
  have := n.weight_ge
  rw [scaleLoadDown, if_neg (by omega)]
  omega

theorem fork_le {n : Newcomer} {cfs' : SchedAvg} (hle : cfs.utilAvg ≤ n.cpuScale) (hs : n.fork cfs = some cfs') :
    cfs'.utilAvg ≤ n.cpuScale := by
  obtain rfl := Option.some.inj hs
  have hutil := postInit_util_le n.cpuScale n.weight cfs
  refine (Nat.mod_le _ _).trans ?_
  show cfs.utilAvg + (postInitEntityUtilAvg n.cpuScale cfs n.weight (initEntityRunnableAverage n.weight)).utilAvg ≤ _
  unfold utilCap at hutil
  omega

theorem fork_run_le {cpuScale : Nat} : ∀ {ns : List Newcomer} {cfs cfs' : SchedAvg}, (∀ n ∈ ns, n.cpuScale = cpuScale) →
    cfs.utilAvg ≤ cpuScale → run Newcomer.fork ns cfs = some cfs' → cfs'.utilAvg ≤ cpuScale
  | [], _, _, _, hle, hr => by cases hr; exact hle
  | n :: ns, cfs, cfs', hn, hle, hr => by
    obtain ⟨next, hs, hr⟩ := Option.bind_eq_some_iff.1 hr
    have hscale := hn n List.mem_cons_self
    exact fork_run_le (fun m hm => hn m (List.mem_cons_of_mem n hm)) (hscale ▸ fork_le (hscale ▸ hle) hs) hr

/-- The share that is meant, with the weight in the unit of the load -/
def Newcomer.share (n : Newcomer) (cfs : SchedAvg) : Nat := cfs.utilAvg * scaleLoadDown n.weight / (cfs.loadAvg + 1)

/-- What a new task should start with: its share, but no more than half of the capacity that is left. Beside `m` tasks of
its weight that is at most one part in `m` of the utilisation. -/
structure Newcomer.Right (n : Newcomer) (cfs : SchedAvg) : Prop where
  util : (n.entity cfs).avg.utilAvg = min (utilCap n.cpuScale cfs) (n.share cfs)
  part : ∀ m, m * scaleLoadDown n.weight ≤ cfs.loadAvg → 0 < m → (n.entity cfs).avg.utilAvg ≤ cfs.utilAvg / m

theorem Newcomer.share_le (n : Newcomer) {m : Nat} (hm : m * scaleLoadDown n.weight ≤ cfs.loadAvg) (hpos : 0 < m) :
    n.share cfs ≤ cfs.utilAvg / m := by
  have hw : 0 < scaleLoadDown n.weight := (n.entity cfs).weight_pos
  calc n.share cfs ≤ cfs.utilAvg * scaleLoadDown n.weight / (m * scaleLoadDown n.weight) :=
        Nat.div_le_div_left (by omega) (mul_pos hpos hw)
    _ = cfs.utilAvg / m := Nat.mul_div_mul_right _ _ hw

/-- The share that is computed is 1024 times the one that is meant, or more. -/
theorem Newcomer.share_mul_le (n : Newcomer) (cfs : SchedAvg) :
    n.share cfs * 1024 ≤ cfs.utilAvg * n.weight / (cfs.loadAvg + 1) := by
  rw [Nat.le_div_iff_mul_le (by omega)]
  have hfloor := Nat.div_mul_le_self (cfs.utilAvg * scaleLoadDown n.weight) (cfs.loadAvg + 1)
  have hscaled := Nat.mul_le_mul_left cfs.utilAvg n.scaleLoadDown_mul_le
  unfold Newcomer.share
  rw [mul_right_comm]
  rw [← mul_assoc] at hscaled
  exact (Nat.mul_le_mul_right _ hfloor).trans hscaled

/-- A new task starts with what is meant just where that reaches half of the capacity that is left, or where the
utilisation times `load.weight` is within the load; and in any case forks never go past the capacity. -/
theorem new_task_util {n : Newcomer} (hcap : 0 < utilCap n.cpuScale cfs) (hutil : cfs.utilAvg ≠ 0)
    (hfits : cfs.utilAvg * n.weight < 2 ^ 64) (hload : cfs.loadAvg + 1 < 2 ^ 64) :
    (n.Right cfs ↔ utilCap n.cpuScale cfs ≤ n.share cfs ∨ cfs.utilAvg * n.weight ≤ cfs.loadAvg) ∧
    ∀ ns cfs', (∀ k ∈ ns, k.cpuScale = n.cpuScale) → run Newcomer.fork ns cfs = some cfs' →
        cfs'.utilAvg ≤ n.cpuScale := by
  have hmore := n.share_mul_le cfs
  have heq : (n.entity cfs).avg.utilAvg = min (cfs.utilAvg * n.weight / (cfs.loadAvg + 1)) (utilCap n.cpuScale cfs) := by
    show (if _ then _ else _ : Nat) = _
    rw [if_pos hcap, if_pos hutil, Nat.mod_eq_of_lt hfits, Nat.mod_eq_of_lt hload]
  have hzero : cfs.utilAvg * n.weight / (cfs.loadAvg + 1) = 0 ↔ cfs.utilAvg * n.weight ≤ cfs.loadAvg := by
    rw [Nat.div_eq_zero_iff_lt (by omega), Nat.lt_succ_iff]
  refine ⟨⟨fun hright => ?_, fun hcases => ?_⟩, fun ns cfs' hns hr =>
    fork_run_le hns (by unfold utilCap at hcap; omega) hr⟩
  · have hshare := hright.util
    rw [← hzero]
    omega
  · rw [← hzero] at hcases
    have hshare : (n.entity cfs).avg.utilAvg = min (utilCap n.cpuScale cfs) (n.share cfs) := by omega
    refine ⟨hshare, fun m hm hpos => ?_⟩
    rw [hshare]
    exact (Nat.min_le_right ..).trans (n.share_le hm hpos)

def niceZero : Newcomer := ⟨1024, 1048576, by decide, by decide, by decide⟩

/-- Beside a task with the load of one and 600 of the capacity, the new task is given 212. -/
theorem new_task_util_busy : (niceZero.entity ⟨0, 0, 0, 0, 0, 1024, 0, 600⟩).avg.utilAvg = 212 := by
  obtain ⟨hiff, -⟩ := @new_task_util ⟨0, 0, 0, 0, 0, 1024, 0, 600⟩ niceZero (by decide) (by decide)
    (by decide) (by decide)
  exact (hiff.2 (.inl (by decide))).util.trans (by decide +kernel)

/-- Beside ten tasks that have 100 of the capacity together, the share is 9, and the new task is given 462. -/
theorem new_task_overstated :
    (niceZero.entity ⟨0, 0, 0, 0, 0, 10 * scaleLoadDown niceZero.weight, 0, 100⟩).avg.utilAvg = 462 ∧
    min (utilCap 1024 ⟨0, 0, 0, 0, 0, 10240, 0, 100⟩) (niceZero.share ⟨0, 0, 0, 0, 0, 10240, 0, 100⟩) = 9 :=
  ⟨by decide, by decide⟩

end KernelSched.Pelt
