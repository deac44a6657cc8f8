import KernelSched.Lib.Wrap

/-!
# Scheduling entities and their weights

A `SchedEntity` is a task or a group as its runqueue sees it (`struct sched_entity`). Its cached `min_deadline` is not a
field here: the entity only has one while it is a node of the timeline, and it is the cached value of that node. The
weight arithmetic is that of a 64-bit kernel: weights carry ten extra bits (`scaleLoadDown` drops them), and a duration
is divided by a weight through the 32-bit inverse kept beside it (`calcDelta`).
-/

namespace KernelSched.Fair

open Wrap

/-! ## Weights -/

/-- A weight and its inverse, `0` when the inverse has not been computed. -/
structure LoadWeight where
  weight : U64
  invWeight : BitVec 32
  deriving Repr, DecidableEq

def nice0Load : U64 := 1#64 <<< 20

def scaleLoad (w : U64) : U64 := w <<< 10

/-- Drop the extra resolution of a weight, keeping nonzero weights at 2 or more. -/
def scaleLoadDown (w : U64) : U64 := if w = 0 then 0 else if w >>> 10 < 2 then 2 else w >>> 10

def wmultConst : BitVec 32 := ~~~0

def updateLoadSet (w : U64) : LoadWeight := ⟨w, 0⟩

def updateInvWeight (lw : LoadWeight) : LoadWeight :=
  if lw.invWeight ≠ 0 then lw
  else
    let w := scaleLoadDown lw.weight
    if wmultConst.setWidth 64 ≤ w then { lw with invWeight := 1 }
    else if w = 0 then { lw with invWeight := wmultConst }
    else { lw with invWeight := wmultConst / w.setWidth 32 }

/-- The position of the highest bit set, counted from 1. -/
def fls (x : BitVec 32) : Nat := if x = 0 then 0 else x.toNat.log2 + 1

/-- The product of a 64-bit and a 32-bit word, taken with all its bits before the shift. -/
def mulU64U32Shr (a : U64) (mul : BitVec 32) (shift : Nat) : U64 := BitVec.ofNat 64 ((a.toNat * mul.toNat) >>> shift)

/-- `delta * weight / lw.weight`, and `lw` with its inverse filled in. Both shifts keep the factor at 32 bits. -/
def calcDelta (deltaExec weight : U64) (lw : LoadWeight) : U64 × LoadWeight :=
  let lw := updateInvWeight lw
  let fact := scaleLoadDown weight
  let fs := fls ((fact >>> 32).setWidth 32)
  let fact := ((fact >>> fs).setWidth 32).setWidth 64 * lw.invWeight.setWidth 64
  let fs' := fls ((fact >>> 32).setWidth 32)
  (mulU64U32Shr deltaExec ((fact >>> fs').setWidth 32) (32 - fs - fs'), lw)

/-- `div_s64`: a signed quotient, rounded to zero; only the low 32 bits of the divisor count. A zero divisor traps in the
source; here it gives `0`, and no result below looks at the quotient. -/
def divS64 (x d : U64) : U64 := BitVec.ofInt 64 (x.toInt.tdiv (d.setWidth 32).toInt)

/-! ## Entities -/

/-- What a runqueue keeps of an entity; `id` is its address. -/
structure SchedEntity where
  id : Nat
  load : LoadWeight
  onRq : Bool
  execStart : U64
  sumExecRuntime : U64
  prevSumExecRuntime : U64
  vruntime : U64
  /-- A signed word: the lag at the last dequeue, or the deadline at the last pick. -/
  vlag : U64
  deadline : U64
  slice : U64
  deriving Repr, DecidableEq

def SchedEntity.seWeight (se : SchedEntity) : U64 := scaleLoadDown se.load.weight

/-- `delta / w`, with the inverse of the weight filled in. -/
def calcDeltaFair (delta : U64) (se : SchedEntity) : U64 × SchedEntity :=
  if se.load.weight = nice0Load then (delta, se)
  else
    let d := calcDelta delta nice0Load se.load
    (d.1, { se with load := d.2 })

/-- `entity_before`: the order of the timeline. -/
def entityBefore (a b : SchedEntity) : Bool := before a.vruntime b.vruntime

/-- The scheduler features and tunables the operations read. -/
structure Config where
  placeLag : Bool
  placeDeadlineInitial : Bool
  runToParity : Bool
  /-- `sysctl_sched_base_slice` -/
  baseSlice : U64
  tickNsec : U64

/-- The features as `features.h` sets them, the tunables of a machine with one CPU and a tick of 1 ms. -/
def Config.default : Config where
  placeLag := true
  placeDeadlineInitial := true
  runToParity := true
  baseSlice := 750000
  tickNsec := 1000000

theorem calcDelta_weight (d w : U64) (lw : LoadWeight) : (calcDelta d w lw).2.weight = lw.weight := by
  simp only [calcDelta, updateInvWeight]
  split_ifs <;> rfl

theorem calcDeltaFair_frame (d : U64) (se : SchedEntity) : ∃ lw, (calcDeltaFair d se).2 = { se with load := lw } ∧
    lw.weight = se.load.weight := by
  unfold calcDeltaFair
  split
  · exact ⟨se.load, rfl, rfl⟩
  · exact ⟨_, rfl, calcDelta_weight _ _ _⟩

section

variable (d : U64) (se : SchedEntity)

@[simp] theorem calcDeltaFair_id : (calcDeltaFair d se).2.id = se.id := by
  obtain ⟨lw, h, -⟩ := calcDeltaFair_frame d se
  rw [h]

@[simp] theorem calcDeltaFair_onRq : (calcDeltaFair d se).2.onRq = se.onRq := by
  obtain ⟨lw, h, -⟩ := calcDeltaFair_frame d se
  rw [h]

@[simp] theorem calcDeltaFair_vruntime : (calcDeltaFair d se).2.vruntime = se.vruntime := by
  obtain ⟨lw, h, -⟩ := calcDeltaFair_frame d se
  rw [h]

@[simp] theorem calcDeltaFair_weight : (calcDeltaFair d se).2.load.weight = se.load.weight := by
  obtain ⟨lw, h, hw⟩ := calcDeltaFair_frame d se
  rw [h, ← hw]

end

end KernelSched.Fair
