import Mathlib.Algebra.Group.Nat.Defs
import Mathlib.Order.Basic
import KernelSched.Units

/-!
# Utilization clamps requested for a task

A task asks for a lower and an upper clamp of its utilization with `sched_setattr()`. `uclamp_validate` checks the request
and `__setscheduler_uclamp` stores it. A stored clamp is a bit field of 11 bits (`uclampSeSet`) with the number of its
bucket; `-1` resets a clamp to its default.

The check compares `int`s: the values from the request are `u32`, and those above `INT_MAX` count as negative.
-/

namespace KernelSched.Uclamp

/-! ## Model -/

inductive ClampId
  | min
  | max
  deriving DecidableEq

/-- `UCLAMP_BUCKET_DELTA`, for a number of buckets -/
def uclampBucketDelta (buckets : Nat) : Nat := (schedCapacityScale + buckets / 2) / buckets

def uclampBucketId (buckets clampValue : Nat) : Nat := Min.min (clampValue / uclampBucketDelta buckets) (buckets - 1)

def uclampNone : ClampId → Nat
  | .min => 0
  | .max => schedCapacityScale

structure UclampSe where
  value : Nat
  bucketId : Nat
  active : Bool
  userDefined : Bool

/-- `uclamp_se_set`: the value goes into a field of `bits_per(SCHED_CAPACITY_SCALE)`, the bucket is that of the
argument. -/
def uclampSeSet (buckets value : Nat) (userDefined : Bool) (se : UclampSe) : UclampSe :=
  { se with value := value % 2 ^ 11, bucketId := uclampBucketId buckets value, userDefined := userDefined }

/-- The two flags of `struct sched_attr` for the clamps (`SCHED_FLAG_UTIL_CLAMP_MIN`, `_MAX`) and the two values. -/
structure SchedAttr where
  flag : ClampId → Bool
  util : ClampId → BitVec 32

/-- `p->uclamp_req` -/
abbrev Request := ClampId → UclampSe

variable (attr : SchedAttr) (req : Request) (id : ClampId)

/-- The test `util + 1 > SCHED_CAPACITY_SCALE + 1`; the left side is an `int`. -/
def SchedAttr.inRange : Bool := !attr.flag id || (attr.util id + 1).toInt ≤ schedCapacityScale + 1

/-- The variables `util_min` and `util_max` -/
def checkedUtil : Int := if attr.flag id then (attr.util id).toInt else (req id).value

/-- `uclamp_validate`, if it accepts -/
def uclampValidate : Bool :=
  attr.inRange .min && attr.inRange .max &&
    !(checkedUtil attr req .min ≠ -1 && checkedUtil attr req .max ≠ -1 &&
      checkedUtil attr req .max < checkedUtil attr req .min)

def uclampReset : Bool :=
  (!(attr.flag .min || attr.flag .max) && !(req id).userDefined) || (attr.flag id && attr.util id == -1)

/-- The default of a clamp; `rt` if the task has a realtime priority, with
`sysctl_sched_uclamp_util_min_rt_default`. -/
def uclampDefault (rt : Bool) (utilMinRtDefault : Nat) (id : ClampId) : Nat :=
  if rt ∧ id = .min then utilMinRtDefault else uclampNone id

def setschedulerUclamp (buckets : Nat) (rt : Bool) (utilMinRtDefault : Nat) (attr : SchedAttr) (req : Request) :
    Request :=
  fun id =>
    let se :=
      if uclampReset attr req id then uclampSeSet buckets (uclampDefault rt utilMinRtDefault id) false (req id)
      else req id
    if attr.flag id ∧ attr.util id ≠ -1 then uclampSeSet buckets (attr.util id).toNat true se else se

/-! ## What is stored -/

variable {attr req id} {buckets utilMinRtDefault : Nat} {rt : Bool}

/-- What a request should do to the clamps of the task. -/
structure Stored (buckets : Nat) (rt : Bool) (utilMinRtDefault : Nat) (attr : SchedAttr) (req : Request) : Prop where
  exact : ∀ id, attr.flag id = true → attr.util id ≠ -1 → (req id).value = (attr.util id).toNat
  le : ∀ id, (req id).value ≤ schedCapacityScale
  ordered : (req .min).value ≤ (req .max).value
  bucket : ∀ id, (req id).bucketId = uclampBucketId buckets (req id).value
  reset : ∀ id, attr.flag id = true → attr.util id = -1 →
    (req id).value = uclampDefault rt utilMinRtDefault id ∧ (req id).userDefined = false

/-- The clamp that a request leaves, if it does not reset it. -/
def asked (attr : SchedAttr) (req : Request) (id : ClampId) : Nat :=
  if attr.flag id then (attr.util id).toNat else (req id).value

/-- A request asks for clamps that are `-1` or in range, the clamps it keeps are right, and the default it may set for a
realtime task is not above the upper clamp it leaves. -/
structure Proper (buckets : Nat) (rt : Bool) (utilMinRtDefault : Nat) (attr : SchedAttr) (req : Request) : Prop where
  inRange : ∀ id, attr.flag id = true → attr.util id = -1 ∨ (attr.util id).toNat ≤ schedCapacityScale
  kept : ∀ id, attr.flag id = false → uclampReset attr req id = false →
    (req id).value ≤ schedCapacityScale ∧ (req id).bucketId = uclampBucketId buckets (req id).value
  boost : rt = true → uclampReset attr req .min = true → uclampReset attr req .max = false →
    utilMinRtDefault ≤ asked attr req .max

theorem uclampSeSet_value {v : Nat} (hv : v ≤ schedCapacityScale) (u : Bool) (se : UclampSe) :
    (uclampSeSet buckets v u se).value = v := by
  unfold schedCapacityScale schedCapacityShift at hv
  exact Nat.mod_eq_of_lt (by omega)

theorem uclampDefault_le (hrt : utilMinRtDefault ≤ schedCapacityScale) (rt : Bool) (id : ClampId) :
    uclampDefault rt utilMinRtDefault id ≤ schedCapacityScale := by
  unfold uclampDefault
  split
  · exact hrt
  · cases id
    · exact Nat.zero_le _
    · exact Nat.le_refl _

theorem setscheduler_asked (buckets : Nat) (rt : Bool) (utilMinRtDefault : Nat) (hflag : attr.flag id = true)
    (hutil : attr.util id ≠ -1) :
    ∃ se, setschedulerUclamp buckets rt utilMinRtDefault attr req id =
        uclampSeSet buckets (attr.util id).toNat true se := by
  simp only [setschedulerUclamp, if_pos (And.intro hflag hutil)]
  exact ⟨_, rfl⟩

theorem setscheduler_reset (hreset : uclampReset attr req id = true) :
    setschedulerUclamp buckets rt utilMinRtDefault attr req id =
      uclampSeSet buckets (uclampDefault rt utilMinRtDefault id) false (req id) := by
  have hnot : ¬ (attr.flag id = true ∧ attr.util id ≠ -1) := by
    rintro ⟨hflag, hutil⟩
    simp only [uclampReset, Bool.or_eq_true, Bool.and_eq_true, Bool.not_eq_true', beq_iff_eq,
      Bool.or_eq_false_iff] at hreset
    rcases hreset with ⟨hnone, -⟩ | ⟨-, hneg⟩
    · cases id
      · exact Bool.false_ne_true (hnone.1.symm.trans hflag)
      · exact Bool.false_ne_true (hnone.2.symm.trans hflag)
    · exact hutil hneg
  simp only [setschedulerUclamp, if_neg hnot, if_pos hreset]

theorem setscheduler_kept (hflag : attr.flag id = false) (hreset : uclampReset attr req id = false) :
    setschedulerUclamp buckets rt utilMinRtDefault attr req id = req id := by
  simp [setschedulerUclamp, hflag, hreset]

theorem uclampReset_of_neg (hflag : attr.flag id = true) (hutil : attr.util id = -1) :
    uclampReset attr req id = true := by
  simp [uclampReset, hflag, hutil]

theorem ne_neg_one_of_not_reset (hflag : attr.flag id = true) (hreset : uclampReset attr req id = false) :
    attr.util id ≠ -1 := by
  intro hutil
  rw [uclampReset_of_neg hflag hutil] at hreset
  cases hreset

section

variable (hrange : attr.flag id = true → attr.util id = -1 ∨ (attr.util id).toNat ≤ schedCapacityScale)
  (hreset : uclampReset attr req id = false)

include hrange hreset

theorem value_of_not_reset : (setschedulerUclamp buckets rt utilMinRtDefault attr req id).value = asked attr req id := by
  unfold asked
  cases hflag : attr.flag id with
  | false => rw [setscheduler_kept hflag hreset, if_neg Bool.false_ne_true]
  | true =>
    have hutil := ne_neg_one_of_not_reset hflag hreset
    obtain ⟨se, heq⟩ := setscheduler_asked buckets rt utilMinRtDefault hflag hutil
    rw [heq, uclampSeSet_value ((hrange hflag).resolve_left hutil), if_pos rfl]

theorem checkedUtil_eq : checkedUtil attr req id = asked attr req id := by
  unfold checkedUtil asked
  cases hflag : attr.flag id with
  | false => rfl
  | true =>
    have hle := (hrange hflag).resolve_left (ne_neg_one_of_not_reset hflag hreset)
    unfold schedCapacityScale schedCapacityShift at hle
    exact BitVec.toInt_eq_toNat_of_lt (by omega)

end

section

variable (h : Proper buckets rt utilMinRtDefault attr req) (hrt : utilMinRtDefault ≤ schedCapacityScale)

include h hrt

theorem Proper.le
    (id : ClampId) : (setschedulerUclamp buckets rt utilMinRtDefault attr req id).value ≤ schedCapacityScale := by
  cases hreset : uclampReset attr req id with
  | true =>
    rw [setscheduler_reset hreset, uclampSeSet_value (uclampDefault_le hrt rt id)]
    exact uclampDefault_le hrt rt id
  | false =>
    rw [value_of_not_reset (h.inRange id) hreset]
    unfold asked
    cases hflag : attr.flag id with
    | false => exact (h.kept id hflag hreset).1
    | true => exact (h.inRange id hflag).resolve_left (ne_neg_one_of_not_reset hflag hreset)

theorem Proper.bucket (id : ClampId) : (setschedulerUclamp buckets rt utilMinRtDefault attr req id).bucketId =
      uclampBucketId buckets (setschedulerUclamp buckets rt utilMinRtDefault attr req id).value := by
  have hset : ∀ v u se, v ≤ schedCapacityScale → (uclampSeSet buckets v u se).bucketId =
      uclampBucketId buckets (uclampSeSet buckets v u se).value := fun v u se hv => by
    rw [uclampSeSet_value hv]
    rfl
  cases hreset : uclampReset attr req id with
  | true =>
    rw [setscheduler_reset hreset]
    exact hset _ _ _ (uclampDefault_le hrt rt id)
  | false =>
    cases hflag : attr.flag id with
    | false =>
      rw [setscheduler_kept hflag hreset]
      exact (h.kept id hflag hreset).2
    | true =>
      have hutil := ne_neg_one_of_not_reset hflag hreset
      obtain ⟨se, heq⟩ := setscheduler_asked buckets rt utilMinRtDefault hflag hutil
      rw [heq]
      exact hset _ _ _ ((h.inRange id hflag).resolve_left hutil)

/-- The check orders the clamps that are asked for; only the default for realtime tasks is not checked. -/
theorem Proper.ordered (hvalid : uclampValidate attr req = true) :
    (setschedulerUclamp buckets rt utilMinRtDefault attr req .min).value ≤
      (setschedulerUclamp buckets rt utilMinRtDefault attr req .max).value := by
  cases hmax : uclampReset attr req .max with
  | true =>
    have hval : (setschedulerUclamp buckets rt utilMinRtDefault attr req .max).value = schedCapacityScale := by
      rw [setscheduler_reset hmax, uclampSeSet_value (uclampDefault_le hrt rt .max)]
      simp [uclampDefault, uclampNone]
    rw [hval]
    exact h.le hrt .min
  | false =>
    rw [value_of_not_reset (h.inRange .max) hmax]
    cases hmin : uclampReset attr req .min with
    | true =>
      rw [setscheduler_reset hmin, uclampSeSet_value (uclampDefault_le hrt rt .min)]
      cases rt with
      | true => exact h.boost rfl hmin hmax
      | false => exact Nat.zero_le _
    | false =>
      rw [value_of_not_reset (h.inRange .min) hmin]
      have hcheck := checkedUtil_eq (h.inRange .min) hmin
      have hcheck' := checkedUtil_eq (h.inRange .max) hmax
      simp only [uclampValidate, Bool.and_eq_true, Bool.not_eq_true', Bool.and_eq_false_iff, decide_eq_false_iff_not,
        hcheck, hcheck'] at hvalid
      · omega

end

/-- An accepted request is stored as it should be if, and only if, it is proper. -/
theorem stored_iff_proper (hrt : utilMinRtDefault ≤ schedCapacityScale) (hvalid : uclampValidate attr req = true) :
    Stored buckets rt utilMinRtDefault attr (setschedulerUclamp buckets rt utilMinRtDefault attr req) ↔
      Proper buckets rt utilMinRtDefault attr req := by
  constructor
  · intro h
    have hrange : ∀ id, attr.flag id = true → attr.util id = -1 ∨ (attr.util id).toNat ≤ schedCapacityScale := by
      intro id hflag
      by_cases hutil : attr.util id = -1
      · exact .inl hutil
      · exact .inr (h.exact id hflag hutil ▸ h.le id)
    refine ⟨hrange, fun id hflag hreset => ?_, fun hisrt hmin hmax => ?_⟩
    · have hle := h.le id
      have hbucket := h.bucket id
      rw [setscheduler_kept hflag hreset] at hle hbucket
      exact ⟨hle, hbucket⟩
    · have hord := h.ordered
      rw [value_of_not_reset (hrange .max) hmax, setscheduler_reset hmin,
        uclampSeSet_value (uclampDefault_le hrt rt .min), uclampDefault, if_pos ⟨hisrt, rfl⟩] at hord
      exact hord
  · intro h
    refine ⟨fun id hflag hutil => ?_, h.le hrt, h.ordered hrt hvalid, h.bucket hrt, fun id hflag hutil => ?_⟩
    · obtain ⟨se, heq⟩ := setscheduler_asked buckets rt utilMinRtDefault hflag hutil
      rw [heq, uclampSeSet_value ((h.inRange id hflag).resolve_left hutil)]
    · rw [setscheduler_reset (uclampReset_of_neg hflag hutil)]
      exact ⟨uclampSeSet_value (uclampDefault_le hrt rt id) _ _, rfl⟩

def noRequest (buckets : Nat) : Request := fun id => ⟨uclampNone id, uclampBucketId buckets (uclampNone id), false, false⟩

def askFor (utilMin utilMax : BitVec 32) : SchedAttr :=
  ⟨fun _ => true, fun | .min => utilMin | .max => utilMax⟩

theorem stored_iff_proper_half : uclampValidate (askFor 512 (-1)) (noRequest 5) = true ∧
    Proper 5 false 1024 (askFor 512 (-1)) (noRequest 5) ∧
      Stored 5 false 1024 (askFor 512 (-1)) (setschedulerUclamp 5 false 1024 (askFor 512 (-1)) (noRequest 5)) := by
  have hproper : Proper 5 false 1024 (askFor 512 (-1)) (noRequest 5) :=
    ⟨fun id _ => by cases id <;> decide, nofun, nofun⟩
  exact ⟨by decide, hproper, (stored_iff_proper (by decide) (by decide)).2 hproper⟩

/-- A lower clamp of `-2` is accepted and stored as 2046. A realtime task that resets its lower clamp and asks for an
upper clamp of 512 gets a lower clamp of 1024. -/
theorem request_out_of_range :
    (uclampValidate (askFor (-2) 512) (noRequest 5) = true ∧
      (setschedulerUclamp 5 false 1024 (askFor (-2) 512) (noRequest 5) .min).value = 2046) ∧
    uclampValidate (askFor (-1) 512) (noRequest 5) = true ∧
      (setschedulerUclamp 5 true 1024 (askFor (-1) 512) (noRequest 5) .min).value = 1024 ∧
        (setschedulerUclamp 5 true 1024 (askFor (-1) 512) (noRequest 5) .max).value = 512 := by
  decide

end KernelSched.Uclamp
