import KernelSched.Deadline.Task

/-!
# The budget of a deadline task

A deadline task has a runtime for every period. What it executes is charged (`update_curr_dl`); when the runtime is used
up it is throttled until its deadline, where a timer gives it new runtime and a later deadline (`replenish_dl_entity`).
When it wakes up its runtime and deadline are kept if what is left fits the time that is left, and are set anew
otherwise (`update_dl_entity`).

Here is one task, not boosted and with neither of the flags for reclaiming and for the frequency governor. The clock is
that of the runqueue it is on and may be set to anything. The clock and the deadline are numbers; the source has their
last 64 bits, and these are compared, here as there. The runtime is a number too: a charge takes less than `2 ^ 54` from
a task that has no overrun, so the runtime never leaves the range of a `s64` (`Entity.InRange`).
-/

namespace KernelSched.Cbs

open Wrap Run Deadline

/-! ## State -/

/-- The parameters of a task, as `__checkparam_dl` lets them pass -/
structure Params where
  dlRuntime : ℕ
  dlDeadline : ℕ
  dlPeriod : ℕ
  scale_le : 1 <<< dlScale ≤ dlRuntime
  runtime_le : dlRuntime ≤ dlDeadline
  deadline_le : dlDeadline ≤ dlPeriod
  period_lt : dlPeriod < 2 ^ 63

/-- What changes of a task, with the clock it sees -/
structure Entity where
  /-- `rq_clock` -/
  clock : ℤ
  deadline : ℤ
  runtime : ℤ
  dlThrottled : Bool
  dlYielded : Bool
  /-- `task_on_rq_queued` -/
  onRq : Bool
  onDlRq : Bool
  /-- `dl_timer` is queued. -/
  dlTimer : Bool
  deriving DecidableEq

variable (p : Params)

def dlTimeBefore (a b : ℤ) : Bool := before (a : U64) (b : U64)

def Params.dlIsImplicit : Bool := p.dlDeadline = p.dlPeriod

/-! ## Replenishment -/

namespace Entity

def replenishDlNewPeriod (s : Entity) : Entity :=
  { s with deadline := s.clock + p.dlDeadline, runtime := p.dlRuntime }

/-- The loop of `replenish_dl_entity` over the deadline and the runtime. Each round adds to the runtime, so there are no
more rounds than `1 - runtime`. -/
def replenishLoop : ℕ → ℤ × ℤ → ℤ × ℤ
  | 0, x => x
  | n + 1, (deadline, runtime) =>
    if runtime ≤ 0 then replenishLoop n (deadline + p.dlPeriod, runtime + p.dlRuntime) else (deadline, runtime)

/-- `replenish_dl_entity` up to the end of its loop -/
def settle (s : Entity) : Entity :=
  let runtime := if s.dlYielded && 0 < s.runtime then 0 else s.runtime
  let r := replenishLoop p (1 - runtime).toNat (s.deadline, runtime)
  { s with deadline := r.1, runtime := r.2 }

def replenishDlEntity (s : Entity) : Entity :=
  let s := if p.dlDeadline = 0 then s.replenishDlNewPeriod p else s
  let s := s.settle p
  let s := if dlTimeBefore s.deadline s.clock then s.replenishDlNewPeriod p else s
  { s with dlYielded := false, dlThrottled := false }

def setupNewDlEntity (s : Entity) : Entity := if s.dlThrottled then s else s.replenishDlNewPeriod p

/-! ## Wakeups -/

def dlEntityOverflow (s : Entity) : Bool :=
  let left := ((p.dlDeadline : U64) >>> dlScale) * ((s.runtime : U64).sshiftRight dlScale)
  let right := (((s.deadline - s.clock : ℤ) : U64) >>> dlScale) * ((p.dlRuntime : U64) >>> dlScale)
  before right left

def updateDlRevisedWakeup (s : Entity) : Entity :=
  let laxity : U64 := ((s.deadline - s.clock : ℤ) : U64)
  let dlDensity : U64 := (toRatio p.dlDeadline p.dlRuntime : U64)
  { s with runtime := ((dlDensity * laxity) >>> bwShift).toInt }

def updateDlEntity (s : Entity) : Entity :=
  if dlTimeBefore s.deadline s.clock || s.dlEntityOverflow p then
    if !p.dlIsImplicit && !dlTimeBefore s.deadline s.clock then s.updateDlRevisedWakeup p
    else s.replenishDlNewPeriod p
  else s

/-! ## The timer -/

def dlNextPeriod (s : Entity) : ℤ := s.deadline - p.dlDeadline + p.dlPeriod

/-- `none` if the timer would be in the past, by a microsecond at least. -/
def startDlTimer (s : Entity) : Option Entity :=
  if ((s.dlNextPeriod p - s.clock : ℤ) : U64).toInt.tdiv 1000 < 0 then none else some { s with dlTimer := true }

def dlCheckConstrainedDl (s : Entity) : Entity :=
  if dlTimeBefore s.deadline s.clock && dlTimeBefore s.clock (s.dlNextPeriod p) then
    match s.startDlTimer p with
    | none => s
    | some s => { s with dlThrottled := true, runtime := if 0 < s.runtime then 0 else s.runtime }
  else s

/-! ## Queueing -/

def enqueueDlEntity (flags : EnqueueFlags) (s : Entity) : Entity :=
  let s :=
    if flags.wakeup then s.updateDlEntity p
    else if flags.replenish then s.replenishDlEntity p
    else if flags.restore && dlTimeBefore s.deadline s.clock then s.setupNewDlEntity p
    else s
  { s with onDlRq := true }

def enqueueTaskDl (flags : EnqueueFlags) (s : Entity) : Entity :=
  let s := if !s.dlThrottled && !p.dlIsImplicit then s.dlCheckConstrainedDl p else s
  if s.dlThrottled && !flags.replenish then s else s.enqueueDlEntity p flags

def dlTaskTimer (s : Entity) : Entity :=
  if !s.dlThrottled then s
  else if !s.onRq then s.replenishDlEntity p
  else s.enqueueTaskDl p .onlyReplenish

/-! ## Charges -/

end Entity

/-- What `update_curr_dl` reads of the runqueue: the time since the last charge, and the capacities of the CPU -/
structure Exec where
  deltaExec : U64
  scaleFreq : U64
  scaleCpu : U64

/-- `scaled_delta_exec` -/
def Exec.scaled (e : Exec) : U64 := capScaleU64 (capScaleU64 e.deltaExec e.scaleFreq) e.scaleCpu

namespace Entity

/-- The end of `update_curr_dl`, from the label `throttle` -/
def throttle (s : Entity) : Entity :=
  if s.runtime ≤ 0 || s.dlYielded then
    let s := { s with dlThrottled := true, onDlRq := false }
    match s.startDlTimer p with
    | some s => s
    | none => s.enqueueTaskDl p .onlyReplenish
  else s

def updateCurrDl (e : Exec) (s : Entity) : Entity :=
  if !s.onDlRq then s
  else if e.deltaExec.toInt ≤ 0 then if s.dlYielded then s.throttle p else s
  else { s with runtime := s.runtime - e.scaled.toNat }.throttle p

end Entity

/-! ## Steps -/

inductive Op
  /-- The clock is updated, or the task is on another runqueue. -/
  | clock (now : ℤ)
  /-- `update_curr_dl`, with the task running -/
  | tick (e : Exec)
  /-- `yield_task_dl` -/
  | yield (e : Exec)
  /-- `dequeue_task_dl`. A task that is running is charged first. -/
  | dequeue (e : Option Exec) (sleep : Bool)
  /-- `enqueue_task_dl` of a task that wakes up, is restored or was moved -/
  | enqueue (flags : EnqueueFlags)
  /-- `dl_task_timer` -/
  | timer

def step (op : Op) (s : Entity) : Option Entity :=
  match op with
  | .clock now => some { s with clock := now }
  | .tick e => some (s.updateCurrDl p e)
  | .yield e => some ({ s with dlYielded := true }.updateCurrDl p e)
  | .dequeue e sleep =>
    let s := match e with
      | some e => s.updateCurrDl p e
      | none => s
    some { s with onDlRq := false, onRq := s.onRq && !sleep }
  | .enqueue flags =>
    if s.onDlRq || flags.replenish then none else some { s.enqueueTaskDl p flags with onRq := true }
  | .timer => if s.dlTimer then some ({ s with dlTimer := false }.dlTaskTimer p) else none

variable {p : Params}

theorem Params.runtime_pos (p : Params) : 0 < (p.dlRuntime : ℤ) := by
  have := p.scale_le
  have hscale : 1 <<< dlScale = 1024 := rfl
  omega

theorem Params.runtime_le_period (p : Params) : (p.dlRuntime : ℤ) ≤ p.dlPeriod := by
  have := p.runtime_le
  have := p.deadline_le
  omega

theorem Params.runtime_lt (p : Params) : (p.dlRuntime : ℤ) < 2 ^ 63 := by
  have := p.runtime_le_period
  have := p.period_lt
  omega

/-! ## The loop -/

namespace Entity

/-- After `k` rounds the runtime is positive, and at most the runtime of a period if there was a round. -/
theorem replenishLoop_spec (n : ℕ) (deadline runtime : ℤ) (hfuel : 1 - runtime ≤ n) : ∃ k : ℕ,
    replenishLoop p n (deadline, runtime) = (deadline + k * p.dlPeriod, runtime + k * p.dlRuntime) ∧
      0 < runtime + k * p.dlRuntime ∧ (0 < runtime → k = 0) ∧
          (runtime ≤ 0 → 0 < k ∧ runtime + k * p.dlRuntime ≤ p.dlRuntime) := by
  have hpos := p.runtime_pos
  induction n generalizing deadline runtime with
  | zero => exact ⟨0, by simp [replenishLoop], by omega, fun _ => rfl, fun hle => by omega⟩
  | succ n ih =>
    by_cases hle : runtime ≤ 0
    · obtain ⟨k, hloop, hk, hnone, hsome⟩ := ih (deadline + p.dlPeriod) (runtime + p.dlRuntime) (by omega)
      have hdeadline : deadline + p.dlPeriod + k * p.dlPeriod = deadline + (k + 1 : ℕ) * p.dlPeriod := by push_cast; ring
      have hruntime : runtime + p.dlRuntime + k * p.dlRuntime = runtime + (k + 1 : ℕ) * p.dlRuntime := by push_cast; ring
      rw [hdeadline, hruntime] at hloop
      rw [hruntime] at hk hsome
      refine ⟨k + 1, by rw [replenishLoop, if_pos hle, hloop], hk, fun h => by omega, fun _ => ⟨Nat.succ_pos k, ?_⟩⟩
      by_cases hneg : runtime + p.dlRuntime ≤ 0
      · exact (hsome hneg).2
      · have hzero := hnone (by omega)
        subst hzero
        omega
    · exact ⟨0, by simp [replenishLoop, hle], by simpa using hle, fun _ => rfl, fun h => absurd h hle⟩

/-- What the part of `replenish_dl_entity` up to the end of the loop does -/
structure Settled (p : Params) (s : Entity) (k : ℕ) : Prop where
  clock : (s.settle p).clock = s.clock
  deadline : (s.settle p).deadline = s.deadline + k * p.dlPeriod
  runtime : (s.settle p).runtime ≤ s.runtime + k * p.dlRuntime
  pos : 0 < (s.settle p).runtime
  none : k = 0 → (s.settle p).runtime = s.runtime
  some : 0 < k → (s.settle p).runtime ≤ p.dlRuntime

theorem settle_spec (s : Entity) : ∃ k, Settled p s k := by
  -- A task that yields gives up what it has left.
  obtain ⟨r, hle, hr, hsettle⟩ : ∃ r ≤ s.runtime, (0 < r → r = s.runtime) ∧ s.settle p = { s with
      deadline := (replenishLoop p (1 - r).toNat (s.deadline, r)).1
      runtime := (replenishLoop p (1 - r).toNat (s.deadline, r)).2 } := by
    unfold settle
    split
    · next hyield =>
      simp only [Bool.and_eq_true, decide_eq_true_iff] at hyield
      exact ⟨0, hyield.2.le, fun h => absurd h (lt_irrefl 0), rfl⟩
    · exact ⟨s.runtime, le_rfl, fun _ => rfl, rfl⟩
  obtain ⟨k, hloop, hpos, hnone, hsome⟩ := replenishLoop_spec (p := p) (1 - r).toNat s.deadline r (Int.self_le_toNat _)
  rw [hloop] at hsettle
  refine ⟨k, ?_, ?_, ?_, ?_, fun hk => ?_, fun hk => ?_⟩ <;> rw [hsettle]
  · exact add_le_add_left hle _
  · exact hpos
  · subst hk
    have hrpos : 0 < r := by simpa using hpos
    simp [hr hrpos]
  · by_contra hgt
    have hrneg : ¬r ≤ 0 := fun h => hgt (hsome h).2
    omega

/-! ## What the calls can do -/

section

variable {s : Entity}

theorem startDlTimer_eq {s' : Entity} (h : s.startDlTimer p = some s') : s' = { s with dlTimer := true } := by
  unfold startDlTimer at h
  split at h
  · cases h
  · exact (Option.some.inj h).symm

theorem enqueueTaskDl_replenish (hthrottled : s.dlThrottled = true) :
    s.enqueueTaskDl p .onlyReplenish = { s.replenishDlEntity p with onDlRq := true } := by
  simp [enqueueTaskDl, hthrottled, enqueueDlEntity, EnqueueFlags.onlyReplenish, EnqueueFlags.none]

theorem throttle_cases (p : Params) (s : Entity) : (0 < s.runtime ∧ s.throttle p = s) ∨
    s.throttle p = { s with dlThrottled := true, onDlRq := false, dlTimer := true } ∨
    s.throttle p = { replenishDlEntity p { s with dlThrottled := true, onDlRq := false } with onDlRq := true } := by
  unfold throttle
  split
  · right
    dsimp only
    split
    · next s' hstart => exact .inl (startDlTimer_eq hstart)
    · exact .inr (enqueueTaskDl_replenish rfl)
  · next hneither =>
    simp only [Bool.or_eq_true, decide_eq_true_iff, not_or, not_le] at hneither
    exact .inl ⟨hneither.1, rfl⟩

/-- What `update_curr_dl` takes from a task -/
def taken (e : Exec) (s : Entity) : ℕ := if s.onDlRq && 0 < e.deltaExec.toInt then e.scaled.toNat else 0

def charge (e : Exec) (s : Entity) : Entity := { s with runtime := s.runtime - s.taken e }

theorem charge_of_taken_eq_zero {e : Exec} (h : s.taken e = 0) : s.charge e = s := by simp [charge, h]

theorem updateCurrDl_cases (p : Params) (e : Exec) (s : Entity) : (s.charge e = s ∧ s.updateCurrDl p e = s) ∨
    (s.onDlRq = true ∧ s.updateCurrDl p e = (s.charge e).throttle p) := by
  unfold updateCurrDl
  split
  · next hoff => exact .inl ⟨charge_of_taken_eq_zero (by simp_all [taken]), rfl⟩
  · next hon =>
    have hon : s.onDlRq = true := by simpa using hon
    split
    · next hdelta =>
      have hnone : s.charge e = s := charge_of_taken_eq_zero (by simp [taken, not_lt.2 hdelta])
      split
      · exact .inr ⟨hon, by rw [hnone]⟩
      · exact .inl ⟨hnone, rfl⟩
    · next hdelta =>
      have hsome : s.taken e = e.scaled.toNat := by simp_all [taken]
      exact .inr ⟨hon, by rw [charge, hsome]⟩

theorem dlTaskTimer_cases (p : Params) (s : Entity) :
    s.dlTaskTimer p = s ∨ ∃ on, s.dlTaskTimer p = { s.replenishDlEntity p with onDlRq := on } := by
  unfold dlTaskTimer
  split
  · exact .inl rfl
  · next hthrottled =>
    right
    split
    · exact ⟨_, rfl⟩
    · exact ⟨true, enqueueTaskDl_replenish (by simpa using hthrottled)⟩

end

/-! ## The range of the runtime -/

/-- The task has no overrun, and the runtime fits a `s64`. -/
def Whole (s : Entity) : Prop := 0 ≤ s.runtime ∧ s.runtime < 2 ^ 63

/-- The runtime fits a `s64` with room for another charge, and a task that can be charged has no overrun yet. -/
structure InRange (s : Entity) : Prop where
  low : -2 ^ 54 < s.runtime
  high : s.runtime < 2 ^ 63
  nonneg : s.onDlRq = true ∨ s.dlThrottled = false → 0 ≤ s.runtime

section

variable {s : Entity}

theorem Whole.inRange (h : s.Whole) : InRange s := ⟨by have := h.1; omega, h.2, fun _ => h.1⟩

theorem whole_replenish (hhigh : s.runtime < 2 ^ 63) : (s.replenishDlEntity p).Whole := by
  have hpos := p.runtime_pos
  have hlt := p.runtime_lt
  have hzero : p.dlDeadline ≠ 0 := by
    have := p.runtime_le
    omega
  obtain ⟨k, hset⟩ := settle_spec (p := p) s
  simp only [replenishDlEntity, hzero, if_false]
  split
  · exact ⟨hpos.le, hlt⟩
  · refine ⟨hset.pos.le, ?_⟩
    rcases Nat.eq_zero_or_pos k with hk | hk
    · exact (hset.none hk).trans_lt hhigh
    · exact (hset.some hk).trans_lt hlt

theorem Whole.updateDlEntity (h : s.Whole) : (s.updateDlEntity p).Whole := by
  unfold Entity.updateDlEntity
  split
  · split
    · have hshift : ∀ w : U64, 0 ≤ (w >>> bwShift).toInt ∧ (w >>> bwShift).toInt < 2 ^ 63 := by
        intro w
        have hnat : (w >>> bwShift).toNat < 2 ^ 44 := by
          rw [BitVec.toNat_ushiftRight, Nat.shiftRight_eq_div_pow]
          show w.toNat / 2 ^ 20 < 2 ^ 44
          omega
        rw [BitVec.toInt_eq_toNat_of_lt (by omega)]
        omega
      exact hshift _
    · exact ⟨p.runtime_pos.le, p.runtime_lt⟩
  · exact h

theorem Whole.dlCheckConstrainedDl (h : s.Whole) : (s.dlCheckConstrainedDl p).Whole := by
  unfold Entity.dlCheckConstrainedDl
  split
  · split
    · exact h
    · next s' hstart =>
      rw [startDlTimer_eq hstart]
      obtain ⟨hnonneg, hhigh⟩ := h
      unfold Whole
      dsimp only
      split <;> omega
  · exact h

theorem Whole.enqueueDlEntity (h : s.Whole) {flags : EnqueueFlags} (hflags : flags.replenish = false) :
    InRange (s.enqueueDlEntity p flags) := by
  have hkeep : InRange { s with onDlRq := true } := Whole.inRange h
  unfold Entity.enqueueDlEntity
  split
  · exact Whole.inRange (h.updateDlEntity (p := p))
  · rw [if_neg (by simp [hflags])]
    split
    · unfold setupNewDlEntity
      split
      · exact hkeep
      · exact Whole.inRange ⟨p.runtime_pos.le, p.runtime_lt⟩
    · exact hkeep

theorem InRange.enqueueTaskDl (h : InRange s) (flags : EnqueueFlags) (hflags : flags.replenish = false) :
    InRange (s.enqueueTaskDl p flags) := by
  have hqueue : ∀ s : Entity, InRange s →
      InRange (if s.dlThrottled && !flags.replenish then s else s.enqueueDlEntity p flags) := by
    intro s h
    split
    · exact h
    · next hthrottled =>
      have hfalse : s.dlThrottled = false := by simpa [hflags] using hthrottled
      exact Whole.enqueueDlEntity ⟨h.nonneg (.inr hfalse), h.high⟩ hflags
  unfold Entity.enqueueTaskDl
  split
  · next hconstrained =>
    simp only [Bool.and_eq_true, Bool.not_eq_true'] at hconstrained
    have hwhole : s.Whole := ⟨h.nonneg (.inr hconstrained.1), h.high⟩
    exact hqueue _ hwhole.dlCheckConstrainedDl.inRange
  · exact hqueue s h

theorem throttle_range (hlow : -2 ^ 54 < s.runtime) (hhigh : s.runtime < 2 ^ 63) : InRange (s.throttle p) := by
  rcases throttle_cases p s with ⟨hpos, heq⟩ | heq | heq <;> rw [heq]
  · exact Whole.inRange ⟨hpos.le, hhigh⟩
  · exact ⟨hlow, hhigh, by simp⟩
  · have hhigh' : ({ s with dlThrottled := true, onDlRq := false } : Entity).runtime < 2 ^ 63 := hhigh
    exact Whole.inRange (whole_replenish (p := p) hhigh')

theorem taken_lt (e : Exec) (s : Entity) : s.taken e < 2 ^ 54 := by
  have hscaled : e.scaled.toNat < 2 ^ 54 := by
    rw [Exec.scaled, capScaleU64, BitVec.toNat_ushiftRight, Nat.shiftRight_eq_div_pow]
    show _ / 2 ^ 10 < 2 ^ 54
    omega
  unfold taken
  split <;> omega

theorem InRange.updateCurrDl (h : InRange s) (e : Exec) : InRange (s.updateCurrDl p e) := by
  rcases updateCurrDl_cases p e s with ⟨-, heq⟩ | ⟨hon, heq⟩ <;> rw [heq]
  · exact h
  · have hnonneg := h.nonneg (.inl hon)
    have htaken := taken_lt e s
    have hhigh := h.high
    have hcharge : (s.charge e).runtime = s.runtime - s.taken e := rfl
    exact throttle_range (by omega) (by omega)

theorem InRange.dlTaskTimer (h : InRange s) : InRange (s.dlTaskTimer p) := by
  rcases dlTaskTimer_cases p s with heq | ⟨on, heq⟩ <;> rw [heq]
  · exact h
  · exact Whole.inRange (whole_replenish (p := p) h.high)

theorem InRange.step {op : Op} {s' : Entity} (h : InRange s) (hstep : step p op s = some s') : InRange s' := by
  cases op with
  | clock now =>
    cases hstep
    exact ⟨h.low, h.high, h.nonneg⟩
  | tick e =>
    cases hstep
    exact h.updateCurrDl e
  | yield e =>
    cases hstep
    have hyield : InRange { s with dlYielded := true } := ⟨h.low, h.high, h.nonneg⟩
    exact hyield.updateCurrDl e
  | dequeue e sleep =>
    cases hstep
    cases e with
    | none => exact ⟨h.low, h.high, fun hor => h.nonneg (.inr (by simpa using hor))⟩
    | some e =>
      have hcharged := h.updateCurrDl (p := p) e
      exact ⟨hcharged.low, hcharged.high, fun hor => hcharged.nonneg (.inr (by simpa using hor))⟩
  | enqueue flags =>
    obtain ⟨hflags, rfl⟩ := of_guard_not hstep
    have hqueued := h.enqueueTaskDl (p := p) flags (by simp_all)
    exact ⟨hqueued.low, hqueued.high, hqueued.nonneg⟩
  | timer =>
    obtain ⟨-, rfl⟩ := of_guard hstep
    have hfired : InRange { s with dlTimer := false } := ⟨h.low, h.high, h.nonneg⟩
    exact hfired.dlTaskTimer

/-- However late the timer is, the runtime stays in range. -/
theorem inRange_run {ops : List Op} {s' : Entity} (h : InRange s) (hrun : run (Cbs.step p) ops s = some s') :
    InRange s' :=
  run_invariant (fun _ _ _ h hstep => h.step hstep) h hrun

end

end Entity

end KernelSched.Cbs
