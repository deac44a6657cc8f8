import KernelSched.Pelt.Average

/-!
# Sums and averages of a runqueue

The averages of a `cfs_rq` are those of its entities added up. When an entity leaves or changes, its part is taken from
the sums and from the averages separately, so rounding could leave an average without its sum. Each time the sum is
therefore raised to the least value that fits the average, `avg * PELT_MIN_DIVIDER`, with `max_t(u32, ..)`: both numbers
are cut to 32 bits first, while `load_sum` and `runnable_sum` have 64.

Products of weights, averages and dividers are exact numbers here; they do not reach `2 ^ 64`.
-/

namespace KernelSched.Pelt

/-! ## Model -/

def subPositive (var val : Nat) : Nat := var - val

def addPositive (var : Nat) (val : Int) : Nat := (var + val).toNat

/-- `max_t(u32, sum, avg * PELT_MIN_DIVIDER)` -/
def atLeastAvg (sum avg : Nat) : Nat := max (sum % 2 ^ 32) (avg * peltMinDivider % 2 ^ 32)

/-- Raise a sum to fit its average. -/
def SchedAvg.syncLoad (sa : SchedAvg) : SchedAvg := { sa with loadSum := atLeastAvg sa.loadSum sa.loadAvg }

@[inherit_doc SchedAvg.syncLoad]
def SchedAvg.syncUtil (sa : SchedAvg) : SchedAvg := { sa with utilSum := atLeastAvg sa.utilSum sa.utilAvg }

@[inherit_doc SchedAvg.syncLoad]
def SchedAvg.syncRunnable (sa : SchedAvg) : SchedAvg :=
  { sa with runnableSum := atLeastAvg sa.runnableSum sa.runnableAvg }

/-- Take a part from an average and from its sum. -/
def SchedAvg.subLoad (avg sum : Nat) (sa : SchedAvg) : SchedAvg :=
  { sa with loadAvg := subPositive sa.loadAvg avg, loadSum := subPositive sa.loadSum sum }

/-- `util_sum` is a `u32`, and so is what is taken from it. -/
def SchedAvg.subUtil (avg sum : Nat) (sa : SchedAvg) : SchedAvg :=
  { sa with utilAvg := subPositive sa.utilAvg avg, utilSum := subPositive sa.utilSum (sum % 2 ^ 32) }

@[inherit_doc SchedAvg.subLoad]
def SchedAvg.subRunnable (avg sum : Nat) (sa : SchedAvg) : SchedAvg :=
  { sa with runnableAvg := subPositive sa.runnableAvg avg, runnableSum := subPositive sa.runnableSum sum }

/-- `dequeue_load_avg` of an entity with its `se_weight` -/
def dequeueLoadAvg (weight : Nat) (se sa : SchedAvg) : SchedAvg := (sa.subLoad se.loadAvg (weight * se.loadSum)).syncLoad

/-- For the averages of the `cfs_rq` -/
def detachEntityLoadAvg (weight : Nat) (se sa : SchedAvg) : SchedAvg :=
  let sa := dequeueLoadAvg weight se sa
  let sa := (sa.subUtil se.utilAvg se.utilSum).syncUtil
  (sa.subRunnable se.runnableAvg se.runnableSum).syncRunnable

structure Removed where
  loadAvg : Nat
  utilAvg : Nat
  runnableAvg : Nat

/-- The removal in `update_cfs_rq_load_avg` -/
def processRemoved (r : Removed) (sa : SchedAvg) : SchedAvg :=
  let divider := getPeltDivider sa
  let sa := (sa.subLoad r.loadAvg (r.loadAvg * divider)).syncLoad
  let sa := (sa.subUtil r.utilAvg (r.utilAvg * divider)).syncUtil
  (sa.subRunnable r.runnableAvg (r.runnableAvg * divider)).syncRunnable

/-- A group entity with its weight, and its group's `cfs_rq` with `scale_load_down(load.weight)` and
`prop_runnable_sum`. -/
structure GroupSe where
  avg : SchedAvg
  weight : Nat
  grqAvg : SchedAvg
  grqWeight : Nat
  propRunnableSum : Int

/-- The new `load_sum` of the entity in `update_tg_cfs_load` -/
def GroupSe.newLoadSum (ge : GroupSe) (divider : Nat) : Nat :=
  let runnableSum :=
    if 0 ≤ ge.propRunnableSum then min (ge.propRunnableSum + ge.avg.loadSum) divider
    else
      -- `div_u64` has a divisor of 32 bits
      let loadSum := if ge.grqWeight ≠ 0 then ge.grqAvg.loadSum / (ge.grqWeight % 2 ^ 32) else 0
      ((min ge.avg.loadSum loadSum : Nat) : Int)
  let runningSum := ge.avg.utilSum >>> 10
  (max runnableSum runningSum).toNat

/-- The new `load_avg` of the entity in `update_tg_cfs_load` -/
def GroupSe.newLoadAvg (ge : GroupSe) (divider : Nat) : Nat := ge.weight * ge.newLoadSum divider / divider

/-- Whether `update_tg_cfs_load` has something to update -/
def GroupSe.Changes (ge : GroupSe) (divider : Nat) : Prop :=
  ge.propRunnableSum ≠ 0 ∧ ge.newLoadAvg divider ≠ ge.avg.loadAvg

instance (ge : GroupSe) (divider : Nat) : Decidable (ge.Changes divider) := inferInstanceAs (Decidable (_ ∧ _))

/-- The change of a group entity is added to the `cfs_rq` it is on. -/
def SchedAvg.addGroup (ge : GroupSe) (sa : SchedAvg) : SchedAvg :=
  let divider := getPeltDivider sa
  let deltaAvg : Int := ge.newLoadAvg divider - ge.avg.loadAvg
  let deltaSum : Int := (ge.weight * ge.newLoadSum divider : Nat) - (ge.weight * ge.avg.loadSum : Nat)
  { sa with loadAvg := addPositive sa.loadAvg deltaAvg, loadSum := addPositive sa.loadSum deltaSum }

/-- `update_tg_cfs_load`: the averages of the `cfs_rq`, and the group entity -/
def updateTgCfsLoad (ge : GroupSe) (sa : SchedAvg) : SchedAvg × GroupSe :=
  let divider := getPeltDivider sa
  if ge.Changes divider then
    ((sa.addGroup ge).syncLoad,
      { ge with
        avg := { ge.avg with loadSum := ge.newLoadSum divider, loadAvg := ge.newLoadAvg divider }
        propRunnableSum := 0 })
  else (sa, { ge with propRunnableSum := 0 })

/-- `load_avg_is_decayed`, and whether it warns -/
def loadAvgIsDecayed (sa : SchedAvg) : Bool × Bool :=
  if sa.loadSum ≠ 0 then (false, false)
  else if sa.utilSum ≠ 0 then (false, false)
  else if sa.runnableSum ≠ 0 then (false, false)
  else (true, sa.loadAvg ≠ 0 || sa.utilAvg ≠ 0 || sa.runnableAvg ≠ 0)

/-! ## Sums that fit their averages -/

/-- Every sum is at least its average times the least divider. -/
structure Synced (sa : SchedAvg) : Prop where
  load : sa.loadAvg * peltMinDivider ≤ sa.loadSum
  util : sa.utilAvg * peltMinDivider ≤ sa.utilSum
  runnable : sa.runnableAvg * peltMinDivider ≤ sa.runnableSum

variable {sa : SchedAvg}

theorem Synced.not_warned (h : Synced sa) : (loadAvgIsDecayed sa).2 = false := by
  have hzero : ∀ {sum avg : Nat}, avg * peltMinDivider ≤ sum → sum = 0 → avg = 0 := by
    intro sum avg hle hsum
    unfold peltMinDivider loadAvgMax at hle
    omega
  unfold loadAvgIsDecayed
  split
  · rfl
  · next hload =>
    split
    · rfl
    · next hutil =>
      split
      · rfl
      · next hrunnable =>
        rw [not_not] at hload hutil hrunnable
        simp [hzero h.load hload, hzero h.util hutil, hzero h.runnable hrunnable]

/-- The four changes of the averages of a `cfs_rq`. -/
inductive AvgOp
  | dequeue (weight : Nat) (se : SchedAvg)
  | detach (weight : Nat) (se : SchedAvg)
  | remove (r : Removed)
  | group (ge : GroupSe)

namespace AvgOp

def apply (sa : SchedAvg) : AvgOp → SchedAvg
  | dequeue weight se => dequeueLoadAvg weight se sa
  | detach weight se => detachEntityLoadAvg weight se sa
  | remove r => processRemoved r sa
  | group ge => (updateTgCfsLoad ge sa).1

/-- The averages and the exact sums that a change leaves. -/
def exact (sa : SchedAvg) : AvgOp → SchedAvg
  | dequeue weight se => sa.subLoad se.loadAvg (weight * se.loadSum)
  | detach weight se =>
    ((sa.subLoad se.loadAvg (weight * se.loadSum)).subUtil se.utilAvg se.utilSum).subRunnable
      se.runnableAvg se.runnableSum
  | remove r =>
    ((sa.subLoad r.loadAvg (r.loadAvg * getPeltDivider sa)).subUtil r.utilAvg (r.utilAvg * getPeltDivider sa)).subRunnable
      r.runnableAvg (r.runnableAvg * getPeltDivider sa)
  | group ge => if ge.Changes (getPeltDivider sa) then sa.addGroup ge else sa

/-- A change is right if the sums fit the averages after it and the load is not less than it should be. -/
structure Right (sa : SchedAvg) (op : AvgOp) : Prop where
  synced : Synced (op.apply sa)
  load : (op.exact sa).loadSum ≤ (op.apply sa).loadSum
  quiet : (loadAvgIsDecayed (op.apply sa)).2 = false

/-- The load that is left has 32 bits. -/
structure LoadFits (sa : SchedAvg) : Prop where
  sum : sa.loadSum < 2 ^ 32
  avg : sa.loadAvg * peltMinDivider < 2 ^ 32

/-- What a change leaves has 32 bits, where it is cut. -/
def Fits (sa : SchedAvg) : AvgOp → Prop
  | dequeue weight se => LoadFits ((dequeue weight se).exact sa)
  | detach weight se =>
    LoadFits ((detach weight se).exact sa) ∧ ((detach weight se).exact sa).runnableAvg * peltMinDivider < 2 ^ 32
  | remove r => LoadFits ((remove r).exact sa) ∧ ((remove r).exact sa).runnableAvg * peltMinDivider < 2 ^ 32
  | group ge => ge.Changes (getPeltDivider sa) → LoadFits ((group ge).exact sa)

end AvgOp

theorem le_atLeastAvg_iff (sum avg : Nat) : avg * peltMinDivider ≤ atLeastAvg sum avg ↔
    avg * peltMinDivider < 2 ^ 32 := by
  unfold atLeastAvg
  omega

theorem sum_le_atLeastAvg_iff (sum avg : Nat) : sum ≤ atLeastAvg sum avg ↔ sum < 2 ^ 32 := by
  unfold atLeastAvg
  omega

/-- Raising the load keeps what is asked of it if, and only if, it has 32 bits. -/
theorem syncLoad_iff (sa : SchedAvg) : (sa.loadAvg * peltMinDivider ≤ sa.syncLoad.loadSum ∧
    sa.loadSum ≤ sa.syncLoad.loadSum) ↔ AvgOp.LoadFits sa := by
  show (sa.loadAvg * peltMinDivider ≤ atLeastAvg sa.loadSum sa.loadAvg ∧
    sa.loadSum ≤ atLeastAvg sa.loadSum sa.loadAvg) ↔ _
  rw [le_atLeastAvg_iff, sum_le_atLeastAvg_iff]
  exact ⟨fun ⟨havg, hsum⟩ => ⟨hsum, havg⟩, fun ⟨hsum, havg⟩ => ⟨havg, hsum⟩⟩

theorem subUtil_le (h : sa.utilAvg * peltMinDivider ≤ sa.utilSum) (hutil : sa.utilSum < 2 ^ 32) (avg sum : Nat) :
    (sa.subUtil avg sum).utilAvg * peltMinDivider ≤ atLeastAvg (sa.subUtil avg sum).utilSum
    (sa.subUtil avg sum).utilAvg := by
  rw [le_atLeastAvg_iff]
  have hle : (sa.utilAvg - avg) * peltMinDivider ≤ sa.utilAvg * peltMinDivider := Nat.mul_le_mul_right _ (Nat.sub_le _ _)
  show (sa.utilAvg - avg) * peltMinDivider < 2 ^ 32
  omega

namespace AvgOp

theorem right_iff (op : AvgOp) : op.Right sa ↔ Synced (op.apply sa) ∧ (op.exact sa).loadSum ≤ (op.apply sa).loadSum :=
  ⟨fun h => ⟨h.synced, h.load⟩, fun h => ⟨h.1, h.2, h.1.not_warned⟩⟩

/-- A change of the averages is right if, and only if, what it leaves has 32 bits. -/
theorem right_iff_fits {sa : SchedAvg} (h : Synced sa) (hutil : sa.utilSum < 2 ^ 32) (op : AvgOp) :
    op.Right sa ↔ op.Fits sa := by
  rw [right_iff]
  have hload := syncLoad_iff (op.exact sa)
  have hrunnable := le_atLeastAvg_iff (op.exact sa).runnableSum (op.exact sa).runnableAvg
  cases op
  case dequeue =>
    constructor
    · intro hright
      exact hload.1 ⟨hright.1.load, hright.2⟩
    · intro hfits
      exact ⟨⟨(hload.2 hfits).1, h.util, h.runnable⟩, (hload.2 hfits).2⟩
  case detach | remove =>
    constructor
    · intro hright
      exact ⟨hload.1 ⟨hright.1.load, hright.2⟩, hrunnable.1 hright.1.runnable⟩
    · intro hfits
      exact ⟨⟨(hload.2 hfits.1).1, subUtil_le h.util hutil _ _, hrunnable.2 hfits.2⟩, (hload.2 hfits.1).2⟩
  case group ge =>
    by_cases hchanges : ge.Changes (getPeltDivider sa)
    · have hexact : (group ge).exact sa = sa.addGroup ge := if_pos hchanges
      have happly : (group ge).apply sa = (sa.addGroup ge).syncLoad := by
        show (updateTgCfsLoad ge sa).1 = _
        simp only [updateTgCfsLoad, if_pos hchanges]
      rw [hexact] at hload
      rw [happly, hexact]
      constructor
      · intro hright _
        rw [hexact]
        exact hload.1 ⟨hright.1.load, hright.2⟩
      · intro hfits
        have hfits := hfits hchanges
        rw [hexact] at hfits
        exact ⟨⟨(hload.2 hfits).1, h.util, h.runnable⟩, (hload.2 hfits).2⟩
    · have hexact : (group ge).exact sa = sa := if_neg hchanges
      have happly : (group ge).apply sa = sa := by
        show (updateTgCfsLoad ge sa).1 = _
        simp only [updateTgCfsLoad, if_neg hchanges]
      rw [happly, hexact]
      exact ⟨fun _ hyes => absurd hyes hchanges, fun _ => ⟨h, le_refl _⟩⟩

/-- A task with the weight of nice -20 that has always been runnable. -/
def heavyTask : SchedAvg := ⟨0, 46718, 0, 0, 0, 88761, 0, 0⟩

/-- A `cfs_rq` with `n` such tasks. -/
def heavyRq (n : Nat) : SchedAvg := ⟨0, n * 88761 * 46718, 0, 0, 0, n * 88761, 0, 0⟩

theorem right_iff_fits_heavy : Synced (heavyRq 2) ∧ (dequeue 88761 heavyTask).Right (heavyRq 2) := by
  have hsynced : Synced (heavyRq 2) := ⟨by decide, by decide, by decide⟩
  have hfits : (dequeue 88761 heavyTask).Fits (heavyRq 2) := ⟨by decide, by decide⟩
  exact ⟨hsynced, (right_iff_fits hsynced (by decide) (dequeue 88761 heavyTask)).2 hfits⟩

/-- Of three tasks one leaves. The load of the other two needs 33 bits. -/
theorem dequeue_cuts_load : Synced (heavyRq 3) ∧ ¬ (dequeue 88761 heavyTask).Right (heavyRq 3) ∧
    ((dequeue 88761 heavyTask).exact (heavyRq 3)).loadSum = 8293472796 ∧
      ((dequeue 88761 heavyTask).apply (heavyRq 3)).loadSum = 3998505500 ∧
        ((dequeue 88761 heavyTask).apply (heavyRq 3)).loadAvg * peltMinDivider = 8293472796 := by
  refine ⟨⟨by decide, by decide, by decide⟩, fun hright => ?_, by decide, by decide, by decide⟩
  have hle := hright.load
  revert hle
  decide

end AvgOp

end KernelSched.Pelt
