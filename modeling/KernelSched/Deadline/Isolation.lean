import KernelSched.Deadline.Cbs
import KernelSched.Lib.Server

/-!
# A deadline task stays within its bandwidth

Whatever a task with an implicit deadline does, in any stretches of constant deadline in a row it is charged no more than
its share of the time from the first of them to the last deadline, and what it still owes. Two things come on top. A
wakeup compares what is left in units of 1024 ns, and may begin a new stretch up to 2048 ns of runtime too early, each
time it does so; and a timer that is late begins a stretch later than it counts from.

The stretches are those of `Server`; every step of the task pays for the runtime it gives by moving the deadline
(`Moves`).
-/

namespace KernelSched.Cbs

open Wrap Run Deadline Server BitVec Option Entity

variable {p : Params}

namespace Entity

/-! ## Times and words -/

/-- A deadline is close enough to the clock for what is computed with the difference. -/
def Fits (p : Params) (deadline clock : ℤ) : Prop :=
  deadline - clock < 2 ^ 63 ∧ (deadline - clock) / 1024 * (p.dlRuntime / 1024 : ℕ) < 2 ^ 63

instance (deadline clock : ℤ) : Decidable (Fits p deadline clock) := inferInstanceAs (Decidable (_ ∧ _))

theorem Fits.mono {deadline deadline' clock : ℤ} (h : Fits p deadline' clock) (hle : deadline ≤ deadline') :
    Fits p deadline clock := by
  refine ⟨by have := h.1; omega, lt_of_le_of_lt ?_ h.2⟩
  exact mul_le_mul_of_nonneg_right (by omega) (Int.natCast_nonneg _)

theorem lt_of_dlTimeBefore {deadline clock : ℤ} (hfits : Fits p deadline clock)
    (h : dlTimeBefore deadline clock = true) : deadline < clock := by
  by_contra hge
  have hlt := hfits.1
  rw [dlTimeBefore, before_iff, ← Int.cast_sub, toInt_intCast, Int.bmod_eq_of_le (by omega) (by omega)] at h
  omega

theorem toNat_scaled {a : ℤ} (h0 : 0 ≤ a) (h : a < 2 ^ 63) : ((((a : ℤ) : U64) >>> dlScale).toNat : ℤ) = a / 1024 := by
  have hnat := toNat_intCast (w := 64) h0 (by omega)
  rw [toNat_ushiftRight, Nat.shiftRight_eq_div_pow]
  show (((a : U64).toNat / 1024 : ℕ) : ℤ) = a / 1024
  omega

/-- If the word of a product of numbers is above a word in the lower half, so is the product. -/
theorem lt_of_before_mul {right a b : U64} (hright : right.toNat < 2 ^ 63) (h : before right (a * b) = true) :
    right.toNat < a.toNat * b.toNat := by
  by_contra hle
  have hmod : (a * b).toNat = a.toNat * b.toNat := by
    exact Nat.mod_eq_of_lt (by omega)
  have hr := toInt_eq_toNat_of_lt (x := right) (by omega)
  have hl := toInt_eq_toNat_of_lt (x := a * b) (by omega)
  rw [before_iff, toInt_sub_of_range (by omega) (by omega)] at h
  omega

/-- A wakeup that finds an overflow does so in units of 1024 ns. -/
theorem dlEntityOverflow_spec {s : Entity} (hfits : Fits p s.deadline s.clock) (hle : s.clock ≤ s.deadline)
    (hnonneg : 0 ≤ s.runtime) (hruntime : s.runtime ≤ p.dlRuntime) (h : s.dlEntityOverflow p = true) :
    (s.deadline - s.clock) / 1024 * ((p.dlRuntime : ℤ) / 1024) < (p.dlDeadline : ℤ) / 1024 * (s.runtime / 1024) := by
  obtain ⟨hlt, hprod⟩ := hfits
  have := p.runtime_le
  have := p.deadline_le
  have := p.period_lt
  have hmsb : (s.runtime : U64).msb = false := by
    rw [msb_eq_false_iff_two_mul_lt]
    have := toNat_intCast (w := 64) hnonneg (by omega)
    omega
  have hleft := toNat_scaled hnonneg (by omega)
  have htime := toNat_scaled (a := s.deadline - s.clock) (by omega) hlt
  have hbudget := toNat_scaled (a := p.dlRuntime) (by omega) (by omega)
  have hperiod := toNat_scaled (a := p.dlDeadline) (by omega) (by omega)
  rw [Int.cast_natCast] at hbudget hperiod
  have hright : (((((s.deadline - s.clock : ℤ) : U64) >>> dlScale) * ((p.dlRuntime : U64) >>> dlScale)).toNat : ℤ) =
      (s.deadline - s.clock) / 1024 * ((p.dlRuntime : ℤ) / 1024) := by
    rw [toNat_mul, Int.natCast_emod, Int.natCast_mul, htime, hbudget]
    refine Int.emod_eq_of_lt (mul_nonneg (by omega) (by omega)) ?_
    push_cast at hprod ⊢
    omega
  unfold dlEntityOverflow at h
  rw [sshiftRight_eq_of_msb_false hmsb] at h
  have hover := lt_of_before_mul (by push_cast at hprod; omega) h
  rw [← hright, ← hperiod, ← hleft]
  exact_mod_cast hover

/-- In units of 1024 ns: what is left does not fit the time that is left. In nanoseconds: it may fit, by less than 2048.
-/
theorem slack_bound {period budget time left : ℤ} (hbudget : budget ≤ period) (hleft : left ≤ budget) (hnonneg : 0 ≤ left)
    (htime : 0 ≤ time) (h : time / 1024 * (budget / 1024) < period / 1024 * (left / 1024)) :
    time * budget ≤ period * (left + 2048) ∧ time < period := by
  have hltime : time / 1024 < period / 1024 := by
    by_contra hge
    have hperiod : period / 1024 * (left / 1024) ≤ time / 1024 * (left / 1024) :=
      mul_le_mul_of_nonneg_right (by omega) (by omega)
    have hround : time / 1024 * (left / 1024) ≤ time / 1024 * (budget / 1024) :=
      mul_le_mul_of_nonneg_left (by omega) (by omega)
    omega
  refine ⟨?_, by omega⟩
  calc time * budget ≤ (1024 * (time / 1024 + 1)) * (1024 * (budget / 1024 + 1)) :=
        mul_le_mul (by omega) (by omega) (by omega) (by omega)
    _ = 1024 * 1024 * (time / 1024 * (budget / 1024) + (time / 1024 + budget / 1024 + 1)) := by ring
    _ ≤ 1024 * 1024 * (period / 1024 * (left / 1024) + 2 * (period / 1024)) := by
        refine mul_le_mul_of_nonneg_left ?_ (by omega)
        omega
    _ = (1024 * (period / 1024)) * (1024 * (left / 1024) + 2048) := by ring
    _ ≤ period * (left + 2048) := mul_le_mul (by omega) (by omega) (by omega) (by omega)

/-! ## What a step does -/

/-- A task has at most the runtime of a period, and some unless it is throttled. -/
structure Good (p : Params) (s : Entity) : Prop where
  le : s.runtime ≤ p.dlRuntime
  pos : s.dlThrottled = true ∨ 0 < s.runtime

/-- A new deadline comes with new runtime, and is far enough from the old one to pay for it, up to a slack. The latter
needs something of the state before (`H`). -/
structure Moves (p : Params) (slack : ℤ) (H : Prop) (s s' : Entity) : Prop where
  range : s'.deadline ≠ s.deadline → 0 < s'.runtime ∧ s'.runtime ≤ p.dlRuntime
  kept : H → s'.deadline = s.deadline → s'.runtime = s.runtime
  paid : H → s'.deadline ≠ s.deadline →
    p.dlPeriod * (s'.runtime - s.runtime) ≤ (s'.deadline - s.deadline) * p.dlRuntime + p.dlPeriod * slack
  good : H → s'.Good p

section

variable {s s' : Entity} {slack : ℤ} {H H' : Prop}

theorem Moves.imp (h : Moves p slack H s s') (himp : H' → H) : Moves p slack H' s s' :=
  ⟨h.range, fun hh => h.kept (himp hh), fun hh => h.paid (himp hh), fun hh => h.good (himp hh)⟩

theorem Moves.same (hdeadline : s'.deadline = s.deadline) (hruntime : s'.runtime = s.runtime)
    (hgood : H → s'.Good p) : Moves p slack H s s' :=
  ⟨fun h => absurd hdeadline h, fun _ _ => hruntime, fun _ h => absurd hdeadline h, hgood⟩

/-- The flags may be changed before and after. -/
theorem Moves.congr {t t' : Entity} (h : Moves p slack H s s') (hdeadline : t.deadline = s.deadline)
    (hruntime : t.runtime = s.runtime) (hdeadline' : t'.deadline = s'.deadline) (hruntime' : t'.runtime = s'.runtime)
    (hgood : H → s'.Good p → t'.Good p) : Moves p slack H t t' := by
  refine ⟨?_, ?_, ?_, fun hh => hgood hh (h.good hh)⟩
  · rw [hdeadline', hdeadline, hruntime']
    exact h.range
  · rw [hdeadline', hdeadline, hruntime', hruntime]
    exact h.kept
  · rw [hdeadline', hdeadline, hruntime', hruntime]
    exact h.paid

/-- A new period pays for its runtime if what was left did not fit the time that was left. -/
theorem replenishDlNewPeriod_moves (himplicit : p.dlDeadline = p.dlPeriod)
    (h : H → (s.deadline - s.clock) * p.dlRuntime ≤ p.dlPeriod * (s.runtime + slack) ∧
      s.deadline - s.clock < p.dlPeriod) :
    Moves p slack H s (s.replenishDlNewPeriod p) := by
  have hpos := p.runtime_pos
  have hdeadline : (s.replenishDlNewPeriod p).deadline = s.clock + p.dlPeriod := by
    rw [← himplicit]
    rfl
  have hruntime : (s.replenishDlNewPeriod p).runtime = p.dlRuntime := rfl
  refine ⟨fun _ => ?_, fun hh heq => ?_, fun hh _ => ?_, fun _ => ⟨hruntime.le, .inr ?_⟩⟩
  · exact ⟨hpos, le_rfl⟩
  · have := (h hh).2
    omega
  · rw [hdeadline, hruntime]
    have := (h hh).1
    linarith
  · exact hpos

/-- The loop pays as it goes; a reset comes only when even the new deadline is over. -/
theorem replenishDlEntity_moves (himplicit : p.dlDeadline = p.dlPeriod) (hfits : Fits p (s.settle p).deadline s.clock) :
    Moves p 0 (s.runtime ≤ p.dlRuntime) s (s.replenishDlEntity p) := by
  have hpos := p.runtime_pos
  have hle := p.runtime_le_period
  obtain ⟨k, hset⟩ := settle_spec (p := p) s
  have hzero : p.dlDeadline ≠ 0 := by omega
  have hback : (p.dlPeriod : ℤ) * (s.settle p).runtime ≤ p.dlPeriod * (s.runtime + k * p.dlRuntime) :=
    mul_le_mul_of_nonneg_left hset.runtime (by omega)
  have hmoved : 0 ≤ (k : ℤ) * p.dlPeriod := mul_nonneg (Int.natCast_nonneg k) (Int.natCast_nonneg _)
  simp only [replenishDlEntity, hzero, if_false]
  split
  · next hbefore =>
    have hlt := lt_of_dlTimeBefore hfits hbefore
    rw [hset.deadline] at hlt
    have hnew : Moves p 0 (s.runtime ≤ p.dlRuntime) s (s.replenishDlNewPeriod p) := by
      refine replenishDlNewPeriod_moves himplicit fun _ => ⟨?_, by omega⟩
      have hover : (s.deadline + k * p.dlPeriod - s.clock) * p.dlRuntime ≤ 0 :=
        mul_nonpos_of_nonpos_of_nonneg (by omega) (by omega)
      have hleft : 0 ≤ (p.dlPeriod : ℤ) * (s.settle p).runtime := mul_nonneg (by omega) hset.pos.le
      linarith
    refine hnew.congr rfl rfl ?_ rfl fun _ _ => ⟨le_rfl, .inr hpos⟩
    show (s.settle p).clock + _ = s.clock + _
    rw [hset.clock]
  · refine ⟨fun hne => ⟨hset.pos, hset.some ?_⟩, fun _ heq => hset.none ?_, fun _ _ => ?_, fun hruntime =>
      ⟨?_, .inr hset.pos⟩⟩
    · by_contra hk
      obtain rfl : k = 0 := by omega
      exact hne (by simpa using hset.deadline)
    · by_contra hk
      have hfar : (p.dlPeriod : ℤ) ≤ k * p.dlPeriod := le_mul_of_one_le_left (by omega) (by omega)
      have hdeadline : s.deadline + k * p.dlPeriod = s.deadline := hset.deadline.symm.trans heq
      omega
    · show p.dlPeriod * ((s.settle p).runtime - s.runtime) ≤ ((s.settle p).deadline - s.deadline) * p.dlRuntime + _
      rw [hset.deadline]
      linarith
    · rcases Nat.eq_zero_or_pos k with hk | hk
      · exact (hset.none hk).trans_le hruntime
      · exact hset.some hk

/-- The slack of a wakeup: before the deadline it is the test in units of 1024 ns that decides. -/
def wakeSlack (s : Entity) : ℤ := if dlTimeBefore s.deadline s.clock then 0 else 2048

theorem updateDlEntity_moves (himplicit : p.dlDeadline = p.dlPeriod) (hfits : Fits p s.deadline s.clock)
    (hthrottled : s.dlThrottled = false) : Moves p s.wakeSlack (s.Good p) s (s.updateDlEntity p) := by
  have hle := p.runtime_le_period
  have hruntime : s.Good p → 0 < s.runtime := fun hgood => hgood.pos.resolve_left (by simp [hthrottled])
  -- Past the deadline any runtime that is left is too much.
  have hover : ∀ slack, 0 ≤ slack → s.deadline < s.clock → s.Good p →
      (s.deadline - s.clock) * p.dlRuntime ≤ p.dlPeriod * (s.runtime + slack) ∧ s.deadline - s.clock < p.dlPeriod := by
    intro slack hslack hlt hgood
    have hleft : 0 ≤ (p.dlPeriod : ℤ) * (s.runtime + slack) := mul_nonneg (by omega) (by have := hruntime hgood; omega)
    have hneg : (s.deadline - s.clock) * p.dlRuntime ≤ 0 := mul_nonpos_of_nonpos_of_nonneg (by omega) (by omega)
    exact ⟨hneg.trans hleft, by omega⟩
  have himp : p.dlIsImplicit = true := decide_eq_true himplicit
  unfold updateDlEntity
  split
  · next hnew =>
    rw [if_neg (by simp [himp])]
    refine replenishDlNewPeriod_moves himplicit fun hgood => ?_
    unfold wakeSlack
    split
    · next hbefore => exact hover 0 le_rfl (lt_of_dlTimeBefore hfits hbefore) hgood
    · next hbefore =>
      rcases lt_or_ge s.deadline s.clock with hlt | hge
      · exact hover 2048 (by omega) hlt hgood
      · have hoverflow : s.dlEntityOverflow p = true := by simpa [hbefore] using hnew
        have hunits := dlEntityOverflow_spec hfits hge (hruntime hgood).le hgood.le hoverflow
        rw [himplicit] at hunits
        exact slack_bound hle hgood.le (hruntime hgood).le (by omega) hunits
  · exact .same rfl rfl id

def enqueueSlack (flags : EnqueueFlags) (s : Entity) : ℤ := if flags.wakeup then s.wakeSlack else 0

section

variable (himplicit : p.dlDeadline = p.dlPeriod)

include himplicit

theorem enqueueTaskDl_moves (hfits : Fits p s.deadline s.clock) (flags : EnqueueFlags)
    (hflags : flags.replenish = false) :
    Moves p (s.enqueueSlack flags) (s.Good p) s (s.enqueueTaskDl p flags) := by
  have himp : p.dlIsImplicit = true := decide_eq_true himplicit
  cases hthrottled : s.dlThrottled with
  | true =>
    have heq : s.enqueueTaskDl p flags = s := by simp [enqueueTaskDl, hthrottled, hflags]
    rw [heq]
    exact .same rfl rfl id
  | false =>
    have heq : s.enqueueTaskDl p flags = s.enqueueDlEntity p flags := by simp [enqueueTaskDl, hthrottled, himp]
    rw [heq]
    unfold enqueueDlEntity enqueueSlack
    split
    · refine (updateDlEntity_moves himplicit hfits hthrottled).congr rfl rfl rfl rfl fun _ hgood => ?_
      exact ⟨hgood.le, hgood.pos⟩
    · rw [if_neg (by simp [hflags])]
      split
      · next hrestore =>
        simp only [Bool.and_eq_true] at hrestore
        have hpast := updateDlEntity_moves himplicit hfits hthrottled
        have hsame : s.updateDlEntity p = s.setupNewDlEntity p := by
          simp [updateDlEntity, setupNewDlEntity, hrestore.2, himp, hthrottled]
        rw [hsame, wakeSlack, if_pos hrestore.2] at hpast
        exact hpast.congr rfl rfl rfl rfl fun _ hgood => ⟨hgood.le, hgood.pos⟩
      · exact .same rfl rfl fun hgood => ⟨hgood.le, hgood.pos⟩

theorem throttle_moves (hfits : Fits p (s.settle p).deadline s.clock) :
    Moves p 0 (s.runtime ≤ p.dlRuntime) s (s.throttle p) := by
  rcases throttle_cases p s with ⟨hpos, heq⟩ | heq | heq <;> rw [heq]
  · exact .same rfl rfl fun hruntime => ⟨hruntime, .inr hpos⟩
  · exact .same rfl rfl fun hruntime => ⟨hruntime, .inl rfl⟩
  · have hmoves := replenishDlEntity_moves (s := { s with dlThrottled := true, onDlRq := false }) himplicit hfits
    exact hmoves.congr rfl rfl rfl rfl fun _ hgood => ⟨hgood.le, hgood.pos⟩

theorem dlTaskTimer_moves (hfits : Fits p (s.settle p).deadline s.clock) : Moves p 0 (s.Good p) s (s.dlTaskTimer p) := by
  rcases dlTaskTimer_cases p s with heq | ⟨on, heq⟩ <;> rw [heq]
  · exact .same rfl rfl id
  · have hreplenish := (replenishDlEntity_moves himplicit hfits).imp fun hgood : s.Good p => hgood.le
    exact hreplenish.congr rfl rfl rfl rfl fun _ hgood => ⟨hgood.le, hgood.pos⟩

theorem updateCurrDl_moves {e : Exec}
    (hfits : Fits p ((s.charge e).settle p).deadline s.clock) :
        Moves p 0 (s.Good p) (s.charge e) (s.updateCurrDl p e) := by
  rcases updateCurrDl_cases p e s with ⟨hnone, heq⟩ | ⟨-, heq⟩ <;> rw [heq]
  · rw [hnone]
    exact .same rfl rfl id
  · refine (throttle_moves himplicit hfits).imp fun hgood => ?_
    have hle := hgood.le
    have hcharge : (s.charge e).runtime = s.runtime - s.taken e := rfl
    omega

end

end

end Entity

namespace Op

/-- The task when what it has executed is charged, and nothing else has happened yet -/
def charge : Op → Entity → Entity
  | .tick e, s => s.charge e
  | .yield e, s => { s with dlYielded := true }.charge e
  | .dequeue (some e) _, s => s.charge e
  | _, s => s

def slack : Op → Entity → ℤ
  | .enqueue flags, s => s.enqueueSlack flags
  | _, _ => 0

/-- The deadline with which the overrun of the task would be paid off is close enough to the clock. -/
def InReach (p : Params) (op : Op) (s : Entity) : Prop := Entity.Fits p ((op.charge s).settle p).deadline s.clock

instance (op : Op) (s : Entity) : Decidable (op.InReach p s) := inferInstanceAs (Decidable (Entity.Fits _ _ _))

theorem step_moves {op : Op} {s s' : Entity} (himplicit : p.dlDeadline = p.dlPeriod) (hreach : op.InReach p s)
    (hstep : step p op s = some s') : Entity.Moves p (op.slack s) (s.Good p) (op.charge s) s' := by
  cases op with
  | clock now =>
    cases hstep
    exact .same rfl rfl fun hgood => ⟨hgood.le, hgood.pos⟩
  | tick e =>
    cases hstep
    exact updateCurrDl_moves himplicit hreach
  | yield e =>
    cases hstep
    have hmoves := updateCurrDl_moves (s := { s with dlYielded := true }) himplicit hreach
    exact hmoves.imp fun hgood => ⟨hgood.le, hgood.pos⟩
  | dequeue e sleep =>
    cases hstep
    cases e with
    | none => exact .same rfl rfl fun hgood => ⟨hgood.le, hgood.pos⟩
    | some e =>
      have hmoves := updateCurrDl_moves himplicit hreach
      exact hmoves.congr rfl rfl rfl rfl fun _ hgood => ⟨hgood.le, hgood.pos⟩
  | enqueue flags =>
    obtain ⟨hflags, rfl⟩ := of_guard_not hstep
    obtain ⟨k, hset⟩ := settle_spec (p := p) s
    have hle : s.deadline ≤ (s.settle p).deadline := by
      rw [hset.deadline]
      exact le_add_of_nonneg_right (mul_nonneg (Int.natCast_nonneg k) (Int.natCast_nonneg _))
    have hmoves := enqueueTaskDl_moves himplicit (Entity.Fits.mono hreach hle) flags (by simp_all)
    exact hmoves.congr rfl rfl rfl rfl fun _ hgood => ⟨hgood.le, hgood.pos⟩
  | timer =>
    obtain ⟨-, rfl⟩ := of_guard hstep
    have hmoves := dlTaskTimer_moves (s := { s with dlTimer := false }) himplicit hreach
    have hsame : s.Good p → Entity.Good p { s with dlTimer := false } := fun hgood => ⟨hgood.le, hgood.pos⟩
    exact (hmoves.imp hsame).congr rfl rfl rfl rfl fun _ hgood => hgood

end Op

/-! ## Every run -/

/-- A task and the stretches it has been through, from the first that a wakeup or a replenishment began -/
structure Traced where
  entity : Entity
  log : List Stretch

namespace Traced

/-- The charge belongs to the stretch before the step; a new deadline begins a new stretch. -/
def record (op : Op) (s s' : Entity) (log : List Stretch) : List Stretch :=
  let log := chargeLast (s.runtime - (op.charge s).runtime) log
  if s'.deadline = s.deadline then log else ⟨s'.clock, s'.deadline, 0, s'.runtime, op.slack s⟩ :: log

def step (p : Params) (op : Op) (t : Traced) : Option Traced :=
  (Cbs.step p op t.entity).map fun s' => ⟨s', record op t.entity s' t.log⟩

/-- The last stretch has the deadline and the runtime of the task. -/
def Inv (p : Params) (t : Traced) : Prop :=
  ∀ x log, t.log = x :: log → x.deadline = t.entity.deadline ∧ x.left = t.entity.runtime ∧ t.entity.Good p ∧
    Isolated p.dlRuntime p.dlPeriod t.log

theorem Inv.step {op : Op} {t t' : Traced} (himplicit : p.dlDeadline = p.dlPeriod) (h : Inv p t)
    (hreach : op.InReach p t.entity) (hstep : step p op t = some t') : Inv p t' := by
  obtain ⟨s', hs', rfl⟩ := map_eq_some_iff.1 hstep
  have hmoves := Op.step_moves himplicit hreach hs'
  have hbudget := p.runtime_pos.le
  have hperiod : (0 : ℤ) ≤ p.dlPeriod := Int.natCast_nonneg _
  have hdeadline : (op.charge t.entity).deadline = t.entity.deadline := by
    cases op with
    | dequeue e sleep => cases e <;> rfl
    | _ => rfl
  cases hlog : t.log with
  | nil =>
    intro x log heq
    simp only [record, chargeLast] at heq ⊢
    split at heq
    · cases heq
    · next hne =>
      obtain ⟨rfl, rfl⟩ := List.cons_eq_cons.1 heq
      have hrange := hmoves.range (hdeadline ▸ hne)
      rw [if_neg hne]
      exact ⟨rfl, rfl, ⟨hrange.2, .inr hrange.1⟩, isolated_first hbudget hperiod rfl hrange.2⟩
  | cons y rest =>
    obtain ⟨hy, hleft, hgood, hisolated⟩ := h y rest hlog
    rw [hlog] at hisolated
    have hcharged := hisolated.charge (t.entity.runtime - (op.charge t.entity).runtime)
    intro x log heq
    simp only [record] at heq ⊢
    split at heq
    · next hsame =>
      obtain ⟨rfl, rfl⟩ := List.cons_eq_cons.1 heq
      rw [if_pos hsame]
      refine ⟨hy.trans hsame.symm, ?_, hmoves.good hgood, hcharged⟩
      rw [hmoves.kept hgood (hsame.trans hdeadline.symm)]
      show y.left - _ = _
      omega
    · next hne =>
      obtain ⟨rfl, rfl⟩ := List.cons_eq_cons.1 heq
      rw [if_neg hne]
      have hne' : s'.deadline ≠ (op.charge t.entity).deadline := hdeadline ▸ hne
      refine ⟨rfl, rfl, hmoves.good hgood, hcharged.push hbudget hperiod ⟨rfl, (hmoves.range hne').2, ?_⟩⟩
      have hpaid := hmoves.paid hgood hne'
      rw [hdeadline] at hpaid
      rw [hy, hleft, sub_sub_cancel]
      exact hpaid

/-- In any stretches in a row, of which `y` is the first, a task is charged no more than its share of the time from there
to the last deadline, the overrun it still owes, and the slack of the wakeups after the first stretch. -/
theorem charged_le_share (himplicit : p.dlDeadline = p.dlPeriod) (s : Entity) (ops : List Op) {t : Traced}
    (hrun : run (step p) ops ⟨s, []⟩ = some t)
    (hreach : Along (step p) (fun op t => op.InReach p t.entity) ops ⟨s, []⟩)
    {after later before : List Stretch} {y : Stretch} (hlog : t.log = after ++ later ++ y :: before) :
    p.dlPeriod * charged (later ++ [y]) ≤
      ((later.headD y).deadline - y.start p.dlPeriod) * p.dlRuntime + p.dlPeriod * (later.headD y).owed +
        p.dlPeriod * slack later := by
  have hinv : Inv p t := by
    refine along_invariant (fun _ _ _ h hok hstep => h.step himplicit hok hstep) ?_ hreach hrun
    intro x log heq
    cases heq
  have hisolated : Isolated p.dlRuntime p.dlPeriod t.log := by
    cases hcons : t.log with
    | nil => trivial
    | cons x log =>
      rw [← hcons]
      exact (hinv x log hcons).2.2.2
  exact hisolated.bound (Int.natCast_nonneg _) hlog

def fresh : Traced := ⟨⟨0, 0, 0, false, false, false, false, false⟩, []⟩

def full (ns : U64) : Exec := ⟨ns, 1024, 1024⟩

def half : Params := ⟨50000000, 100000000, 100000000, by decide, by decide, by decide, by decide⟩

/-- An overrun that takes two periods to pay off, a sleep that is too long for what is left, and a yield -/
def eventful : List Op :=
  [.clock 1000000, .enqueue (.wake false), .clock 101000000, .tick (full 100000000), .timer, .clock 111000000,
    .dequeue (some (full 10000000)) true, .clock 280000000, .enqueue (.wake false), .clock 290000000,
    .yield (full 10000000), .clock 380000000, .timer]

theorem charged_le_share_eventful : ∃ t later y, run (step half) eventful fresh = some t ∧ t.log = later ++ [y] ∧
    later.length = 3 ∧ charged (later ++ [y]) = 120000000 ∧
    half.dlPeriod * charged (later ++ [y]) ≤
      ((later.headD y).deadline - y.start half.dlPeriod) * half.dlRuntime + half.dlPeriod * (later.headD y).owed +
        half.dlPeriod * slack later := by
  have hlog : ((run (step half) eventful fresh).map Traced.log) = some
      ([⟨380000000, 480000000, 0, 50000000, 0⟩, ⟨280000000, 380000000, 10000000, 40000000, 2048⟩,
        ⟨101000000, 301000000, 10000000, 40000000, 0⟩] ++ [⟨1000000, 101000000, 100000000, -50000000, 0⟩]) := by
    decide +kernel
  obtain ⟨t, hrun, hlog⟩ := map_eq_some_iff.1 hlog
  refine ⟨t, _, _, hrun, hlog, rfl, by decide, ?_⟩
  have hcut : t.log = [] ++ _ ++ _ :: [] := hlog
  exact charged_le_share rfl _ eventful hrun (by decide +kernel) hcut

theorem inRange_run_eventful : ∃ s, run (Cbs.step half) eventful fresh.1 = some s ∧ Entity.InRange s := by
  have hrun : (run (Cbs.step half) eventful fresh.1).isSome = true := by decide +kernel
  obtain ⟨s, hs⟩ := isSome_iff_exists.1 hrun
  exact ⟨s, hs, Entity.inRange_run ⟨by decide, by decide, fun _ => le_rfl⟩ hs⟩

/-! ## Where more is charged

Without the slack of every wakeup, and counted from the time a stretch really began, the bound does not hold. -/

/-- More is charged than the share of the time since `y` began, the overrun and 4096 ns. -/
def Exceeded (p : Params) (later : List Stretch) (y : Stretch) : Prop :=
  ((later.headD y).deadline - y.begun) * p.dlRuntime + p.dlPeriod * (later.headD y).owed + p.dlPeriod * 4096 <
    p.dlPeriod * charged (later ++ [y])

instance (later : List Stretch) (y : Stretch) : Decidable (Exceeded p later y) := inferInstanceAs (Decidable (_ < _))

def tiny : Params := ⟨2047, 102400, 102400, by decide, by decide, by decide, by decide⟩

/-- A task sleeps for a nanosecond in every 1024. Of what it has left, and of its runtime, one unit counts. -/
def naps (n : ℕ) : List Op :=
  (List.range n).flatMap fun k =>
    [.clock (1000000 + 1024 * k), .enqueue (.wake false), .dequeue (some (full 1023)) true]

def lateTimer : List Op :=
  [.clock 1000000, .enqueue (.wake false), .clock 51000000, .tick (full 50000000), .clock 101020000, .timer,
    .clock 151020000, .tick (full 50000000)]

theorem share_exceeded :
    (∃ t later y, run (step tiny) (naps 7) fresh = some t ∧ t.log = later ++ [y] ∧ Exceeded tiny later y) ∧
    ∃ t y before, run (step half) lateTimer fresh = some t ∧ t.log = y :: before ∧ Exceeded half [] y := by
  have hnaps : ((run (step tiny) (naps 7) fresh).map Traced.log) = some
      ((List.map (fun k : ℤ => ⟨1000000 + 1024 * k, 1102400 + 1024 * k, 1023, 1024, 2048⟩) [6, 5, 4, 3, 2, 1]) ++
        [⟨1000000, 1102400, 1023, 1024, 0⟩]) := by decide +kernel
  have hlate : ((run (step half) lateTimer fresh).map Traced.log) = some
      [⟨101020000, 201000000, 50000000, 0, 0⟩, ⟨1000000, 101000000, 50000000, 0, 0⟩] := by decide +kernel
  obtain ⟨t, hrun, hlog⟩ := map_eq_some_iff.1 hnaps
  obtain ⟨u, hrun', hlog'⟩ := map_eq_some_iff.1 hlate
  exact ⟨⟨t, _, _, hrun, hlog, by decide +kernel⟩, u, _, _, hrun', hlog', by decide +kernel⟩

end Traced

end KernelSched.Cbs
