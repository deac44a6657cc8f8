import KernelSched.Lib.Run
import Mathlib.Algebra.Group.Int.Defs
import Mathlib.Algebra.Group.Nat.Defs

/-!
# The scan period of NUMA balancing

Hinting faults are counted by type in the buffers of `numa_faults`, which every placement pass empties, and by locality
in `numa_faults_locality`, which `update_task_scan_period` clears only after it has used the ratios: what a pass that
scans slower has counted counts again in the next one. A pass is right that would do the same with `since` alone, what
was recorded since the last pass.

The counters are exact numbers, those of the buffers summed up over the nodes, which all stay online; the period has 32
bits. `task_scan_min` and `task_scan_max` are given with a pass.
-/

namespace KernelSched.Numa

open KernelSched.Run

/-! ## Model -/

/-- `numa_faults_locality`, then what the buffers hold -/
structure Faults where
  remote : Nat
  loc : Nat
  failed : Nat
  shared : Nat
  priv : Nat

/-- What `task_numa_fault` counts. -/
def Faults.record (priv loc failed : Bool) (pages : Nat) (f : Faults) : Faults where
  remote := if loc then f.remote else f.remote + pages
  loc := if loc then f.loc + pages else f.loc
  failed := if failed then f.failed + pages else f.failed
  shared := if priv then f.shared else f.shared + pages
  priv := if priv then f.priv + pages else f.priv

def Faults.none : Faults := ⟨0, 0, 0, 0, 0⟩

structure Task where
  faults : Faults
  scanSeq : Nat
  scanPeriod : Nat
  since : Faults

/-- The period by the ratios of local to remote and of private to shared faults; it has 32 bits before it is clamped. -/
def ratioPeriod (scanMin scanMax : Nat) (f : Faults) (period : Nat) : Nat :=
  let slot : Int := (period + 9) % 2 ^ 32 / 10
  let lr := f.loc * 10 / (f.loc + f.remote)
  let ps := f.priv * 10 / (f.priv + f.shared)
  let diff : Int :=
    if 7 ≤ ps then (if ps = 7 then 1 else ps - 7) * slot
    else if 7 ≤ lr then (if lr = 7 then 1 else lr - 7) * slot
    else -(7 - max lr ps) * slot
  min (max ((period + diff) % 2 ^ 32).toNat scanMin) scanMax

/-- The first test of `update_task_scan_period` -/
def Faults.ScansSlower (f : Faults) : Prop := f.loc + f.shared = 0 ∨ f.failed ≠ 0

instance (f : Faults) : Decidable f.ScansSlower := instDecidableOr

/-- `update_task_scan_period`, with the counters it leaves; `none` is a division by zero -/
def updateTaskScanPeriod (scanMin scanMax : Nat) (f : Faults) (period : Nat) : Option (Nat × Faults) :=
  if f.ScansSlower then some (min scanMax (period * 2 % 2 ^ 32), f)
  else if f.loc + f.remote = 0 ∨ f.priv + f.shared = 0 then none
  else some (ratioPeriod scanMin scanMax f period, { f with remote := 0, loc := 0, failed := 0 })

/-- `task_numa_placement` -/
def Task.placement (seq scanMin scanMax : Nat) (t : Task) : Option Task :=
  if t.scanSeq = seq then some t
  else (updateTaskScanPeriod scanMin scanMax t.faults t.scanPeriod).map fun (period, f) =>
    ⟨{ f with shared := 0, priv := 0 }, seq, period, .none⟩

inductive Op
  | fault (priv loc failed : Bool) (pages : Nat)
  | pass (seq scanMin scanMax : Nat)

def Op.step : Op → Task → Option Task
  | fault priv loc failed pages, t =>
    some { t with
      faults := t.faults.record priv loc failed pages
      since := t.since.record priv loc failed pages }
  | pass seq scanMin scanMax, t => t.placement seq scanMin scanMax

def Task.new (seq period : Nat) : Task := ⟨.none, seq, period, .none⟩

/-! ## Every run -/

/-- A pass does what it would do with what was recorded since the last one, and the period is in its bounds. -/
def Task.PassRight (seq scanMin scanMax : Nat) (t : Task) : Prop :=
  ∃ t', t.placement seq scanMin scanMax = some t' ∧
    (updateTaskScanPeriod scanMin scanMax t.since t.scanPeriod).map Prod.fst = some t'.scanPeriod ∧
      scanMin ≤ t'.scanPeriod ∧ t'.scanPeriod ≤ scanMax

/-- A pass that scans slower has counted neither remote faults nor failed migrations. -/
def Op.Clean : Op → Task → Prop
  | pass _ _ _, t => t.faults.ScansSlower → t.faults.remote = 0 ∧ t.faults.failed = 0
  | _, _ => True

variable {op : Op} {ops : List Op} {t t' : Task} {seq scanMin scanMax period : Nat}

/-- No division is by zero. -/
structure Task.Counted (t : Task) : Prop where
  le : t.faults.shared + t.faults.priv ≤ t.faults.loc + t.faults.remote
  loc : t.faults.failed = 0 → t.faults.loc ≤ t.faults.shared + t.faults.priv

theorem Task.Counted.placement (h : t.Counted) : ∃ t', t.placement seq scanMin scanMax = some t' ∧ t'.Counted := by
  obtain ⟨hle, hloc⟩ := h
  unfold Task.placement updateTaskScanPeriod
  by_cases hseq : t.scanSeq = seq
  · exact ⟨t, if_pos hseq, hle, hloc⟩
  rw [if_neg hseq]
  by_cases hslow : t.faults.ScansSlower
  · rw [if_pos hslow]
    refine ⟨_, rfl, Nat.zero_le _, fun hfail => ?_⟩
    exact Nat.le_of_eq (Nat.eq_zero_of_add_eq_zero (hslow.resolve_right (not_not.2 hfail))).1
  · obtain ⟨hsome, hfail⟩ := not_or.1 hslow
    rw [if_neg hslow, if_neg (by omega)]
    exact ⟨_, rfl, Nat.le_refl _, fun _ => Nat.le_refl _⟩

theorem Op.step_counted (op : Op) (h : t.Counted) : ∃ t', op.step t = some t' ∧ t'.Counted := by
  cases op with
  | pass seq scanMin scanMax => exact h.placement
  | fault priv loc failed pages =>
    obtain ⟨hle, hloc⟩ := h
    refine ⟨_, rfl, ?_, ?_⟩ <;> cases priv <;> cases loc <;> cases failed <;> simp [Faults.record] <;> omega

theorem run_counted : ∀ (ops : List Op) {t : Task}, t.Counted → ∃ t', run Op.step ops t = some t' ∧ t'.Counted
  | [], t, h => ⟨t, rfl, h⟩
  | op :: ops, t, h => by
    obtain ⟨t', hstep, h'⟩ := op.step_counted h
    obtain ⟨u, hrun, hu⟩ := run_counted ops h'
    exact ⟨u, by rw [run, hstep, Option.bind_some, hrun], hu⟩

theorem Op.step_since (h : t.faults = t.since) (hclean : op.Clean t) (hstep : op.step t = some t') :
    t'.faults = t'.since := by
  cases op with
  | fault priv loc failed pages =>
    cases hstep
    exact congrArg (Faults.record priv loc failed pages) h
  | pass seq scanMin scanMax =>
    simp only [Op.step, Task.placement, updateTaskScanPeriod] at hstep
    split at hstep
    · cases hstep
      exact h
    split at hstep
    · next hslow =>
      cases hstep
      obtain ⟨hremote, hfail⟩ := hclean hslow
      have hloc := (Nat.eq_zero_of_add_eq_zero (hslow.resolve_right (not_not.2 hfail))).1
      simp only [hremote, hfail, hloc]
      rfl
    split at hstep <;> cases hstep
    rfl

theorem task_numa_placement_right {seq₀ : Nat} (hclean : Along Op.step Op.Clean ops (.new seq₀ period))
    (hrange : scanMin ≤ scanMax) : ∃ t, run Op.step ops (.new seq₀ period) = some t ∧ (t.scanSeq ≠ seq →
      (t.faults.ScansSlower → scanMin ≤ t.scanPeriod * 2 % 2 ^ 32) → t.PassRight seq scanMin scanMax) := by
  have hnew : (Task.new seq₀ period).Counted := ⟨Nat.le_refl _, fun _ => Nat.le_refl _⟩
  obtain ⟨t, hrun, hcounted⟩ := run_counted ops hnew
  have hsince : t.faults = t.since := along_invariant (fun _ _ _ => Op.step_since) rfl hclean hrun
  refine ⟨t, hrun, fun hseq hslow => ?_⟩
  obtain ⟨t', hpass, -⟩ := @hcounted.placement _ seq scanMin scanMax
  refine ⟨t', hpass, ?_⟩
  rw [← hsince]
  unfold Task.placement at hpass
  rw [if_neg hseq] at hpass
  obtain ⟨⟨period, f⟩, hupdate, rfl⟩ := Option.map_eq_some_iff.1 hpass
  refine ⟨by rw [hupdate]; rfl, ?_⟩
  unfold updateTaskScanPeriod at hupdate
  split at hupdate
  · next h =>
    cases hupdate
    exact ⟨Nat.le_min.2 ⟨hrange, hslow h⟩, Nat.min_le_left _ _⟩
  · split at hupdate <;> cases hupdate
    exact ⟨Nat.le_min.2 ⟨Nat.le_max_right _ _, hrange⟩, Nat.min_le_right _ _⟩

/-- A pass without any fault scans slower; the next one has a local fault. -/
theorem task_numa_placement_clean : ∃ t, run Op.step [.pass 1 100 1000, .fault false true false 1] (.new 0 200) = some t ∧
    t.scanPeriod = 400 ∧ t.PassRight 2 100 1000 := by
  obtain ⟨t, hrun, h⟩ := @task_numa_placement_right [.pass 1 100 1000, .fault false true false 1] 2 100 1000 200 0
    ⟨fun _ => ⟨rfl, rfl⟩, fun _ _ => ⟨trivial, fun _ _ => trivial⟩⟩ (by decide)
  cases hrun
  exact ⟨_, rfl, rfl, h (by decide) (fun h => absurd h (by decide))⟩

/-- A migration fails in the first window; the second has a local fault only, and its pass scans slower again. -/
theorem task_numa_placement_stale : ∃ t, run Op.step [.fault false true true 1, .pass 1 100 1000,
    .fault false true false 1]
    (.new 0 200) = some t ∧ ¬ t.PassRight 2 100 1000 := by
  refine ⟨_, rfl, ?_⟩
  rintro ⟨t', hpass, hsince, -⟩
  cases hpass
  revert hsince
  decide

end KernelSched.Numa
