import KernelSched.Deadline.RqBandwidth
import Mathlib.Tactic.Linarith

/-!
# Reclaiming, and the 0-lag time

A task with `SCHED_FLAG_RECLAIM` is charged by `grub_reclaim` at the rate `max {u, Umax - Uinact - Uextra} / Umax`. The
maximum is taken without negative numbers, which is right as long as the task itself does not need more than `Umax`; on
several CPUs such a task can be admitted. A task that blocks keeps its bandwidth until its 0-lag time, which
`task_non_contending` computes from a product of two times in nanoseconds; with a period of a few seconds the product can
exceed its word.
-/

namespace KernelSched.Deadline

open Wrap Run BitVec

/-! ## Reclaiming -/

namespace DlRq

end DlRq

variable {lim : RtLimit} {q : RqBw} {d : DlRq} {dlBw : Nat} {delta : U64}

theorem toNat_word (n : Nat) : (n : U64).toNat = n % 2 ^ 64 := by rw [natCast_eq_ofNat, toNat_ofNat]

variable {dl : DlEntity} {runtime deadline clock : ℤ}

/-- The time to the 0-lag time, as `task_non_contending` computes it -/
def zerolagTime (dl : DlEntity) (runtime deadline clock : ℤ) : ℤ :=
  ((deadline : U64) - ((runtime : U64) * (dl.dlPeriod : U64)).sdiv (dl.dlRuntime : U64) - (clock : U64)).toInt

def zeroLag (dl : DlEntity) (runtime deadline : ℤ) : ℤ := deadline - (runtime * dl.dlPeriod).tdiv dl.dlRuntime

namespace View

/-- `task_non_contending`, with the time at which the timer expires if it is started -/
def taskNonContendingAt (runtime deadline clock : ℤ) (v : View) : View × Option ℤ :=
  let z := zerolagTime v.p.dl runtime deadline clock
  let v' := v.taskNonContending (decide (z < 0))
  (v', if !v.p.dl.inactiveTimer.active && v'.p.dl.inactiveTimer.active then some (clock + z) else none)

end View

theorem zerolagTime_eq_bmod (hlt : dl.dlRuntime < 2 ^ 63) : zerolagTime dl runtime deadline clock =
    (deadline - ((runtime * dl.dlPeriod).bmod (2 ^ 64)).tdiv dl.dlRuntime - clock).bmod (2 ^ 64) := by
  have hruntime : (dl.dlRuntime : U64).toInt = dl.dlRuntime := by
    rw [toInt_eq_toNat_of_lt (by rw [toNat_word]; omega), toNat_word, Nat.mod_eq_of_lt (by omega)]
  have hquotient : ((runtime : U64) * (dl.dlPeriod : U64)).sdiv (dl.dlRuntime : U64) =
      ((((runtime * dl.dlPeriod).bmod (2 ^ 64)).tdiv dl.dlRuntime : ℤ) : U64) := by
    rw [← toInt_inj, toInt_sdiv, hruntime, toInt_intCast,
      show (runtime : U64) * (dl.dlPeriod : U64) = ((runtime * dl.dlPeriod : ℤ) : U64) by push_cast; rfl, toInt_intCast]
  rw [zerolagTime, hquotient, ← Int.cast_sub, ← Int.cast_sub, toInt_intCast]

/-- Two numbers with one quotient are less than two divisors apart. -/
theorem abs_sub_lt_of_tdiv_eq {a b r : ℤ} (hr : 0 < r) (h : a.tdiv r = b.tdiv r) : |a - b| < 2 * r := by
  have ha := Int.mul_tdiv_add_tmod a r
  have hb := Int.mul_tdiv_add_tmod b r
  have hra := Int.tmod_lt_of_pos a hr
  have hrb := Int.tmod_lt_of_pos b hr
  have hra' := Int.lt_tmod_of_pos a hr
  have hrb' := Int.lt_tmod_of_pos b hr
  rw [h] at ha
  rw [abs_lt]
  constructor <;> linarith

/-- The time is exact just if the product and the result fit their words: a product that has wrapped is a multiple of
`2 ^ 64` away, and no quotient by the runtime is the same. -/
theorem zerolagTime_eq_iff (hpos : 1024 ≤ dl.dlRuntime) (hlt : dl.dlRuntime < 2 ^ 63) (hperiod : dl.dlPeriod < 2 ^ 63)
    (hlow : -(dl.dlRuntime : ℤ) < runtime) (hhigh : runtime ≤ dl.dlRuntime) :
    zerolagTime dl runtime deadline clock = zeroLag dl runtime deadline - clock ↔
      InS64 (runtime * dl.dlPeriod) ∧ InS64 (zeroLag dl runtime deadline - clock) := by
  have hr : (0 : ℤ) < dl.dlRuntime := by omega
  rw [zerolagTime_eq_bmod hlt, zeroLag]
  generalize hP : runtime * (dl.dlPeriod : ℤ) = P
  have hlow' := Int.le_bmod (x := P) (m := 2 ^ 64) (by norm_num)
  have hhigh' := Int.bmod_lt (x := P) (m := 2 ^ 64) (by norm_num)
  constructor
  · intro heq
    have hnear : InS64 (deadline - P.tdiv dl.dlRuntime - clock) := by
      rw [← heq, ← hP, ← zerolagTime_eq_bmod hlt]
      exact inS64_toInt _
    refine ⟨?_, hnear⟩
    -- both quotients are at most half of a word, so they are equal if their words are
    have hwrapped := Int.natAbs_tdiv_le_natAbs (P.bmod (2 ^ 64)) dl.dlRuntime
    have hexact : (P.tdiv dl.dlRuntime).natAbs ≤ dl.dlPeriod := by
      rw [Int.natAbs_tdiv, ← hP, Int.natAbs_mul, Int.natAbs_natCast, Int.natAbs_natCast]
      exact Nat.div_le_of_le_mul (Nat.mul_le_mul_right _ (by omega))
    have hsame : (P.bmod (2 ^ 64)).tdiv dl.dlRuntime = P.tdiv dl.dlRuntime := by
      have hmod : (deadline - (P.bmod (2 ^ 64)).tdiv dl.dlRuntime - clock) % (2 ^ 64 : ℕ) =
          (deadline - P.tdiv dl.dlRuntime - clock) % (2 ^ 64 : ℕ) := by rw [← heq, Int.bmod_emod]
      omega
    have hclose := abs_sub_lt_of_tdiv_eq hr hsame
    have hmod : P.bmod (2 ^ 64) % 2 ^ 64 = P % 2 ^ 64 := Int.bmod_emod
    rw [abs_lt] at hclose
    exact ⟨by omega, by omega⟩
  · rintro ⟨⟨hfits, hfits'⟩, hnear, hnear'⟩
    rw [Int.bmod_eq_of_le (n := P) (by omega) (by omega), Int.bmod_eq_of_le (by omega) (by omega)]

/-- What a task that blocks should find: its 0-lag time without truncation, and until then it keeps its bandwidth, and the
timer is set for just that time. -/
structure View.ZeroLagRight (v : View) (runtime deadline clock : ℤ) : Prop where
  exact : zerolagTime v.p.dl runtime deadline clock = zeroLag v.p.dl runtime deadline - clock
  keeps : clock ≤ zeroLag v.p.dl runtime deadline →
    (v.taskNonContendingAt runtime deadline clock).1.rqs = v.rqs ∧
    (v.taskNonContendingAt runtime deadline clock).1.machine = v.machine ∧
    (v.taskNonContendingAt runtime deadline clock).2 = some (zeroLag v.p.dl runtime deadline)

/-- With parameters that are accepted, a task that blocks finds its 0-lag time exactly when the product and the time fit
their words and the timer is not active before that time. -/
theorem zero_lag_exact {attr : SchedAttr} {range : PeriodRange} {v : View} (hattr : attr.__checkparamDl range = true)
    (hsugov : attr.flags.sugov = false) (hdl : attr.setparam v.p.dl = v.p.dl) (hlow : -(attr.runtime : ℤ) < runtime)
    (hhigh : runtime ≤ attr.runtime) : v.ZeroLagRight runtime deadline clock ↔
    InS64 (runtime * v.p.dl.dlPeriod) ∧ InS64 (zeroLag v.p.dl runtime deadline - clock) ∧
      (zeroLag v.p.dl runtime deadline < clock ∨ v.p.dl.inactiveTimer.active = false) := by
  have hruntime : v.p.dl.dlRuntime = attr.runtime := by rw [← hdl]; rfl
  have hperiod : v.p.dl.dlPeriod = attr.periodOrDeadline := by rw [← hdl]; rfl
  have hspecial : v.p.dl.special = false := by rw [← hdl]; exact hsugov
  have hbounds : 1024 ≤ attr.runtime ∧ attr.runtime < 2 ^ 63 ∧ attr.periodOrDeadline < 2 ^ 63 := by
    simp only [SchedAttr.__checkparamDl, SchedAttr.periodOrDeadline, hsugov, Bool.false_or, Bool.and_eq_true,
      decide_eq_true_eq] at hattr ⊢
    have hscale : 1 <<< dlScale = 1024 := rfl
    split_ifs <;> omega
  have hexact := @zerolagTime_eq_iff v.p.dl runtime deadline clock (by omega) (by omega) (by omega) (by omega) (by omega)
  constructor
  · intro h
    obtain ⟨hfits, hnear⟩ := hexact.1 h.exact
    refine ⟨hfits, hnear, or_iff_not_imp_left.2 fun hle => Bool.eq_false_iff.2 fun hactive => ?_⟩
    have hexpires := (h.keeps (not_lt.1 hle)).2.2
    simp [View.taskNonContendingAt, hactive] at hexpires
  · rintro ⟨hfits, hnear, htimer⟩
    have heq := hexact.2 ⟨hfits, hnear⟩
    refine ⟨heq, fun hle => ?_⟩
    have hidle := htimer.resolve_left (not_lt.2 hle)
    have hleft : v.taskNonContending (decide (zeroLag v.p.dl runtime deadline - clock < 0)) =
        v.setDl fun dl => { dl with nonContending := true, inactiveTimer := .armed } := by
      rw [View.taskNonContending, if_neg (by omega), if_neg (by simp [hspecial]), if_neg (by simp [hidle, hle])]
    simp only [View.taskNonContendingAt, heq, hleft, hidle]
    exact ⟨rfl, rfl, congrArg some (add_sub_cancel ..)⟩

/-- A deadline task, with bandwidth on its runqueue, that has these parameters -/
def blocking (attr : SchedAttr) : View where
  machine := twoCpus
  rqs := fun _ => ⟨attr.bw, attr.bw, false⟩
  p := { Task.fork 0 with policy := .deadline, dl := attr.setparam (Task.fork 0).dl }

/-- Half of the runtime is left 80 ms before the deadline; the timer expires 30 ms later. -/
theorem zero_lag_exact_half : ((blocking (.perTenth 10000000)).taskNonContendingAt 5000000 1000000000 920000000).2 =
    some 950000000 :=
  (((zero_lag_exact (v := blocking (.perTenth 10000000))
    (show (SchedAttr.perTenth 10000000).__checkparamDl .default = true by decide) rfl rfl (by decide) (by decide)).2
    (by decide)).keeps (by decide)).2.2

/-- The longest period by default, and all of it is asked for -/
def fourSeconds : SchedAttr :=
  { SchedAttr.other with policy := some .deadline, runtime := 4194304000, deadline := 4194304000, period := 4194304000 }

/-- After an overrun the 0-lag time is four seconds after the deadline, and the bandwidth is given back at the deadline.
-/
theorem zero_lag_early : fourSeconds.__checkparamDl .default = true ∧ zeroLag (blocking fourSeconds).p.dl
    (-4194303999) 9000000000 = 13194303999 ∧
    zerolagTime (blocking fourSeconds).p.dl (-4194303999) 9000000000 9000000000 < 0 ∧
    ((blocking fourSeconds).taskNonContendingAt (-4194303999) 9000000000 9000000000).1.rqs 0 = ⟨0, 2 ^ 20, false⟩ := by
  decide +kernel

end KernelSched.Deadline
