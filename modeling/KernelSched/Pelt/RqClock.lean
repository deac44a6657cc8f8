import KernelSched.Lib.Run
import KernelSched.Units

/-!
# The clock of the averages

A busy runqueue counts less time than has passed (`clock_pelt`), by the capacity of its CPU and the frequency. When it
gets idle the clock catches up with `clock_task`; on a runqueue that was fully used there was no idle time to catch up
with, and the difference is taken off for good (`lost_idle_time`).

Both scalings are products of 64 bits without sign. One that overflows only counts less (`toNat_capScaleU64_le`), so
nothing is asked of the time between two updates.
-/

namespace KernelSched.Pelt

open Run Wrap BitVec

/-! ## Model -/

structure RqClock where
  clockTask : U64
  clockPelt : U64
  lostIdleTime : U64

/-- What `update_idle_rq_clock_pelt` compares the utilisation with -/
def idleDivider : BitVec 32 := (47742 - 1024) <<< 10 - 47742

namespace RqClock

def rqClockPelt (r : RqClock) : U64 := r.clockPelt - r.lostIdleTime

def _updateIdleRqClockPelt (r : RqClock) : RqClock := { r with clockPelt := r.clockTask }

def updateRqClockPelt (idle : Bool) (cpuCapacity freqCapacity delta : U64) (r : RqClock) : RqClock :=
  if idle then r._updateIdleRqClockPelt
  else { r with clockPelt := r.clockPelt + capScaleU64 (capScaleU64 delta cpuCapacity) freqCapacity }

def updateIdleRqClockPelt (cfs rt dl : BitVec 32) (r : RqClock) : RqClock :=
  _updateIdleRqClockPelt
    (if idleDivider ≤ cfs + rt + dl then { r with lostIdleTime := r.lostIdleTime + (r.clockTask - r.clockPelt) } else r)

end RqClock

inductive ClockOp
  /-- `clock_task` goes on by `delta`, and `update_rq_clock_pelt` is called. -/
  | tick (idle : Bool) (cpuCapacity freqCapacity delta : U64)
  /-- The runqueue gets idle, with these `util_sum`s. -/
  | enterIdle (cfs rt dl : BitVec 32)

namespace ClockOp

/-- `clock_task` does not wrap, and capacities are at most 1024. -/
def step : ClockOp → RqClock → Option RqClock
  | tick idle cpuCapacity freqCapacity delta, r =>
    if r.clockTask.toNat + delta.toNat < 2 ^ 64 ∧ cpuCapacity.toNat ≤ 1024 ∧ freqCapacity.toNat ≤ 1024 then
      some ({ r with clockTask := r.clockTask + delta }.updateRqClockPelt idle cpuCapacity freqCapacity delta)
    else none
  | enterIdle cfs rt dl, r => some (r.updateIdleRqClockPelt cfs rt dl)

/-- The clock catches up: the runqueue is idle, and the clock was behind. -/
def catchesUp (r : RqClock) : ClockOp → Prop
  | tick idle _ _ _ => idle = true ∧ r.clockPelt ≠ r.clockTask
  | enterIdle _ _ _ => r.clockPelt ≠ r.clockTask

end ClockOp

/-! ## What holds -/

structure RqClock.Ok (r : RqClock) : Prop where
  pelt : r.clockPelt.toNat ≤ r.clockTask.toNat
  lost : r.lostIdleTime.toNat ≤ r.clockPelt.toNat

/-- The clock goes from one state to the next as it should: never back, never past what is left of `clock_task`, and not
faster than it but to catch up. -/
structure ClockOp.Sound (o : ClockOp) (r r' : RqClock) : Prop where
  ok : r'.Ok
  forward : r.rqClockPelt.toNat ≤ r'.rqClockPelt.toNat
  bound : r'.rqClockPelt.toNat ≤ r'.clockTask.toNat - r'.lostIdleTime.toNat
  slower : ¬ o.catchesUp r →
    r'.rqClockPelt.toNat - r.rqClockPelt.toNat ≤ r'.clockTask.toNat - r.clockTask.toNat

variable {r r' : RqClock}

theorem RqClock.Ok.rqClockPelt (h : r.Ok) : r.rqClockPelt.toNat = r.clockPelt.toNat - r.lostIdleTime.toNat :=
  toNat_sub_of_le h.lost

/-- The rules in numbers, for clocks that are right before and after -/
theorem ClockOp.Sound.of_ok {o : ClockOp} (h : r.Ok) (h' : r'.Ok)
    (hforward : r.clockPelt.toNat + r'.lostIdleTime.toNat ≤ r'.clockPelt.toNat + r.lostIdleTime.toNat)
    (hslower : ¬ o.catchesUp r → r'.clockPelt.toNat + r.clockTask.toNat + r.lostIdleTime.toNat ≤
      r'.clockTask.toNat + r.clockPelt.toNat + r'.lostIdleTime.toNat) : o.Sound r r' := by
  have hlost := h.lost
  have hlost' := h'.lost
  have hpelt' := h'.pelt
  refine ⟨h', ?_, ?_, fun hno => ?_⟩ <;> rw [h'.rqClockPelt]
  · rw [h.rqClockPelt]
    omega
  · omega
  · have := hslower hno
    rw [h.rqClockPelt]
    omega

theorem ClockOp.sound_step {o : ClockOp} (h : r.Ok) (hs : o.step r = some r') : o.Sound r r' := by
  have hpelt := h.pelt
  have hlost := h.lost
  cases o with
  | tick idle cpuCapacity freqCapacity delta =>
    obtain ⟨⟨hwrap, hcpu, hfreq⟩, rfl⟩ := of_guard hs
    have htask : (r.clockTask + delta).toNat = r.clockTask.toNat + delta.toNat := by
      rw [toNat_add, Nat.mod_eq_of_lt hwrap]
    have hscaled : (capScaleU64 (capScaleU64 delta cpuCapacity) freqCapacity).toNat ≤ delta.toNat :=
      (toNat_capScaleU64_le hfreq).trans (toNat_capScaleU64_le hcpu)
    cases idle with
    | true =>
      refine .of_ok h ⟨le_refl _, ?_⟩ ?_ fun hno => ?_
      · show r.lostIdleTime.toNat ≤ (r.clockTask + delta).toNat
        omega
      · show r.clockPelt.toNat + r.lostIdleTime.toNat ≤ (r.clockTask + delta).toNat + r.lostIdleTime.toNat
        omega
      · have hsame : r.clockPelt = r.clockTask := not_not.1 fun hne => hno ⟨rfl, hne⟩
        show (r.clockTask + delta).toNat + r.clockTask.toNat + r.lostIdleTime.toNat ≤
          (r.clockTask + delta).toNat + r.clockPelt.toNat + r.lostIdleTime.toNat
        rw [hsame]
    | false =>
      have hnew : (r.clockPelt + capScaleU64 (capScaleU64 delta cpuCapacity) freqCapacity).toNat =
          r.clockPelt.toNat + (capScaleU64 (capScaleU64 delta cpuCapacity) freqCapacity).toNat := by
        rw [toNat_add, Nat.mod_eq_of_lt (by omega)]
      refine .of_ok h ⟨?_, ?_⟩ ?_ fun _ => ?_ <;> simp only [RqClock.updateRqClockPelt, Bool.false_eq_true, if_false] <;>
        omega
  | enterIdle cfs rt dl =>
    obtain rfl := Option.some.inj hs
    have hnew : (r.lostIdleTime + (r.clockTask - r.clockPelt)).toNat =
        r.lostIdleTime.toNat + (r.clockTask.toNat - r.clockPelt.toNat) := by
      rw [toNat_add, toNat_sub_of_le hpelt, Nat.mod_eq_of_lt (by omega)]
    by_cases hfull : idleDivider ≤ cfs + rt + dl
    · refine .of_ok h ⟨?_, ?_⟩ ?_ fun hno => ?_ <;>
        simp only [RqClock.updateIdleRqClockPelt, RqClock._updateIdleRqClockPelt, if_pos hfull] <;> omega
    · refine .of_ok h ⟨?_, ?_⟩ ?_ fun hno => ?_ <;>
        simp only [RqClock.updateIdleRqClockPelt, RqClock._updateIdleRqClockPelt, if_neg hfull] <;> try omega
      rw [show r.clockPelt = r.clockTask from not_not.1 hno]

/-- Along all busy and idle updates the clocks are right, and the clock of the averages goes as it should. -/
theorem rq_clock_pelt_sound (h : r.Ok) (ops : List ClockOp) :
    Along ClockOp.step (fun o r => ∀ r' ∈ o.step r, o.Sound r r') ops r := by
  have hall : Along ClockOp.step (fun _ _ => True) ops r := along_of_forall (fun _ _ => trivial) ops r
  exact hall.imp_invariant (fun _ _ _ hr _ hs => (ClockOp.sound_step hr hs).ok)
    (fun _ _ hr _ _ hs => ClockOp.sound_step hr hs) h

/-- At boot all clocks are zero; half the speed, then idle. -/
theorem rq_clock_pelt_sound_boot : (∃ r, run ClockOp.step [.tick false 512 1024 4000, .enterIdle 0 0 0]
    ⟨0, 0, 0⟩ = some r ∧
    r.rqClockPelt = 4000) ∧ Along ClockOp.step (fun o r => ∀ r' ∈ o.step r, o.Sound r r')
      [.tick false 512 1024 4000, .enterIdle 0 0 0] ⟨0, 0, 0⟩ :=
  ⟨⟨_, rfl, by decide⟩, rq_clock_pelt_sound ⟨by decide, by decide⟩ _⟩

end KernelSched.Pelt
