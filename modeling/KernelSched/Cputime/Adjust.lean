import KernelSched.Lib.Run
import Mathlib.Tactic.Ring

/-!
# User and system time scaled to the runtime

Ticks sample how much of its time a task spends in the kernel (`stime`) and in user space (`utime`); the scheduler knows
the sum exactly (`sum_exec_runtime`). `cputime_adjust` divides the exact time in the ratio of the samples, and keeps
what it has returned (`prev_cputime`), so that neither part ever goes back. It should return parts that add up to the
largest runtime seen.

The part of the kernel is `stime * rtime / (stime + utime)`. The generic `mul_u64_u64_div_u64` drops low bits of `rtime`
and of the sum when the product does not fit in a word. Then the part may be more than the whole, and the rest wraps
around. When nothing is dropped the part is exact (`mulU64U64DivU64_exact`), and calls of which this holds keep the
guarantees (`good_run`).

Words are natural numbers, and what wraps is reduced modulo `2^64`.
-/

namespace KernelSched.Cputime

open Run

/-! ## The product and quotient of words -/

/-- `ilog2`, of a word that may be 0 -/
def ilog2 (n : Nat) : Int := if n = 0 then -1 else n.log2

/-- `mul_u64_u64_div_u64` of `lib/math/div64.c`. A shift by the width of the word has no defined result. -/
def mulU64U64DivU64 (a b c : Nat) : Option Nat :=
  if 62 < ilog2 a + ilog2 b then
    let res := b / c * a % 2 ^ 64
    let b := b % c
    let shift := ilog2 a + ilog2 b - 62
    if 0 < shift then
      if 64 ≤ shift then none
      else
        let b := b >>> shift.toNat
        let c := c >>> shift.toNat
        if c = 0 then some res else some ((res + a * b % 2 ^ 64 / c) % 2 ^ 64)
    else some ((res + a * b % 2 ^ 64 / c) % 2 ^ 64)
  else some (a * b % 2 ^ 64 / c)

/-! ## The adjustment -/

structure PrevCputime where
  stime : Nat
  utime : Nat
  deriving DecidableEq, Repr

structure TaskCputime where
  stime : Nat
  utime : Nat
  sumExecRuntime : Nat
  sampled : stime + utime < 2 ^ 64
  runtime : sumExecRuntime < 2 ^ 64

/-- The part of the kernel, before it is compared with what was returned -/
def scaledStime (curr : TaskCputime) : Option Nat :=
  if curr.stime = 0 then some 0
  else if curr.utime = 0 then some curr.sumExecRuntime
  else mulU64U64DivU64 curr.stime curr.sumExecRuntime (curr.stime + curr.utime)

def wrapSub (x y : Nat) : Nat := (x + (2 ^ 64 - y)) % 2 ^ 64

/-- `cputime_adjust` from the label `update` on -/
def update (prev : PrevCputime) (rtime stime : Nat) : PrevCputime :=
  let stime := if stime < prev.stime then prev.stime else stime
  let utime := wrapSub rtime stime
  if utime < prev.utime then ⟨wrapSub rtime prev.utime, prev.utime⟩ else ⟨stime, utime⟩

/-- Returns what it has left in `prev` -/
def cputimeAdjust (curr : TaskCputime) (prev : PrevCputime) : Option PrevCputime :=
  if curr.sumExecRuntime ≤ (prev.stime + prev.utime) % 2 ^ 64 then some prev
  else (scaledStime curr).map (update prev curr.sumExecRuntime)

/-! ## Runs -/

/-- What was returned, and the largest runtime seen -/
structure History where
  prev : PrevCputime
  largest : Nat

def step (curr : TaskCputime) (h : History) : Option History :=
  (cputimeAdjust curr h.prev).map fun p => ⟨p, max h.largest curr.sumExecRuntime⟩

/-- `prev_cputime_init` -/
def History.start : History := ⟨⟨0, 0⟩, 0⟩

/-- The call returns times that have not gone back and add up to the largest runtime. -/
def Good (curr : TaskCputime) (h : History) : Prop :=
  ∃ h', step curr h = some h' ∧ h.prev.stime ≤ h'.prev.stime ∧ h.prev.utime ≤ h'.prev.utime ∧
    h'.prev.stime + h'.prev.utime = h'.largest

/-- The runtime has not grown; or no sample was in user space; or the runtime, modulo the sum of the samples, is small
enough to be multiplied as it is. -/
def NoShift (curr : TaskCputime) (h : History) : Prop :=
  curr.sumExecRuntime ≤ h.largest ∨ curr.utime = 0 ∨
    ilog2 curr.stime + ilog2 (curr.sumExecRuntime % (curr.stime + curr.utime)) ≤ 62

instance (curr : TaskCputime) (h : History) : Decidable (NoShift curr h) := inferInstanceAs (Decidable (_ ∨ _))

/-- The times add up to the largest runtime, which is a word. -/
structure Inv (h : History) : Prop where
  sum : h.prev.stime + h.prev.utime = h.largest
  word : h.largest < 2 ^ 64

/-! ## When nothing is dropped -/

section

variable {a b c : Nat}

theorem mul_lt_of_ilog2 (h : ilog2 a + ilog2 b ≤ 62) : a * b < 2 ^ 64 := by
  by_cases ha : a = 0
  · rw [ha, Nat.zero_mul]
    exact Nat.two_pow_pos 64
  by_cases hb : b = 0
  · rw [hb, Nat.mul_zero]
    exact Nat.two_pow_pos 64
  have hlog : a.log2 + 1 + (b.log2 + 1) ≤ 64 := by
    rw [ilog2, ilog2, if_neg ha, if_neg hb] at h
    omega
  calc a * b < 2 ^ (a.log2 + 1) * 2 ^ (b.log2 + 1) := Nat.mul_lt_mul'' Nat.lt_log2_self Nat.lt_log2_self
    _ = 2 ^ (a.log2 + 1 + (b.log2 + 1)) := (Nat.pow_add ..).symm
    _ ≤ 2 ^ 64 := Nat.pow_le_pow_right Nat.two_pos hlog

/-- With a quotient of at most one, the product is exact if the remainder needs no shift. -/
theorem mulU64U64DivU64_exact (hc : 0 < c) (hac : a ≤ c) (hb : b < 2 ^ 64) (hlog : ilog2 a + ilog2 (b % c) ≤ 62) :
    mulU64U64DivU64 a b c = some (a * b / c) := by
  unfold mulU64U64DivU64
  by_cases hfit : 62 < ilog2 a + ilog2 b
  · have hres : b / c * a < 2 ^ 64 := by
      have hle := Nat.div_mul_le_self b c
      have hmul := Nat.mul_le_mul_left (b / c) hac
      omega
    have hsplit : b / c * a + a * (b % c) / c = a * b / c := by
      have hab : a * b = a * (b % c) + c * (b / c * a) := by
        conv_lhs => rw [← Nat.mod_add_div b c]
        ring
      rw [hab, Nat.add_mul_div_left _ _ hc, Nat.add_comm]
    have hle : a * b / c < 2 ^ 64 := by
      have hmul : a * b ≤ c * b := Nat.mul_le_mul_right b hac
      have hdiv := Nat.div_le_div_right (c := c) hmul
      rw [Nat.mul_div_cancel_left b hc] at hdiv
      omega
    rw [if_pos hfit]
    rw [if_neg (by omega), Nat.mod_eq_of_lt hres, Nat.mod_eq_of_lt (mul_lt_of_ilog2 hlog), hsplit, Nat.mod_eq_of_lt hle]
  · rw [if_neg hfit, Nat.mod_eq_of_lt (mul_lt_of_ilog2 (not_lt.1 hfit))]

end

/-! ## What a call returns -/

section

variable {curr : TaskCputime} {h h' : History} {prev : PrevCputime} {rtime stime : Nat}

theorem wrapSub_of_le {x y : Nat} (h : y ≤ x) (hx : x < 2 ^ 64) : wrapSub x y = x - y := by
  unfold wrapSub
  generalize 2 ^ 64 = m at hx
  rw [show x + (m - y) = x - y + m by omega, Nat.add_mod_right, Nat.mod_eq_of_lt (by omega)]

/-- When the runtime has grown and the part is not more than it, it is divided without wrapping. -/
theorem update_good (hgrown : prev.stime + prev.utime < rtime) (hword : rtime < 2 ^ 64) (hle : stime ≤ rtime) :
    prev.stime ≤ (update prev rtime stime).stime ∧ prev.utime ≤ (update prev rtime stime).utime ∧
      (update prev rtime stime).stime + (update prev rtime stime).utime = rtime := by
  have hkeep : wrapSub rtime prev.utime = rtime - prev.utime := wrapSub_of_le (by omega) hword
  have hst : prev.stime ≤ (if stime < prev.stime then prev.stime else stime) ∧
      (if stime < prev.stime then prev.stime else stime) ≤ rtime := by
    split <;> omega
  unfold update
  dsimp only
  generalize (if stime < prev.stime then prev.stime else stime) = st at hst
  rw [wrapSub_of_le hst.2 hword]
  split
  · exact ⟨by dsimp only; omega, le_rfl, by dsimp only; omega⟩
  · exact ⟨hst.1, by dsimp only; omega, by dsimp only; omega⟩

theorem adjust_still (hi : Inv h) (hr : curr.sumExecRuntime ≤ h.prev.stime + h.prev.utime) :
    step curr h = some ⟨h.prev, h.largest⟩ := by
  have hlt : h.prev.stime + h.prev.utime < 2 ^ 64 := hi.sum ▸ hi.word
  rw [step, cputimeAdjust, Nat.mod_eq_of_lt hlt, if_pos hr, Option.map_some, max_eq_left (hi.sum ▸ hr)]

theorem adjust_grown (hi : Inv h) (hr : h.prev.stime + h.prev.utime < curr.sumExecRuntime) :
    step curr h = (scaledStime curr).map fun v => ⟨update h.prev curr.sumExecRuntime v, curr.sumExecRuntime⟩ := by
  have hlt : h.prev.stime + h.prev.utime < 2 ^ 64 := hi.sum ▸ hi.word
  rw [step, cputimeAdjust, Nat.mod_eq_of_lt hlt, if_neg (not_le.2 hr), Option.map_map, max_eq_right (hi.sum ▸ hr.le)]
  rfl

/-- The part of the kernel is not more than the whole. -/
theorem scaledStime_le (hn : curr.utime = 0 ∨
    ilog2 curr.stime + ilog2 (curr.sumExecRuntime % (curr.stime + curr.utime)) ≤ 62) :
    ∃ v, scaledStime curr = some v ∧ v ≤ curr.sumExecRuntime := by
  unfold scaledStime
  split
  · exact ⟨0, rfl, Nat.zero_le _⟩
  split
  · exact ⟨curr.sumExecRuntime, rfl, le_rfl⟩
  · next huser =>
    refine ⟨_, mulU64U64DivU64_exact (by omega) (Nat.le_add_right _ _) curr.runtime (hn.resolve_left huser), ?_⟩
    calc curr.stime * curr.sumExecRuntime / (curr.stime + curr.utime)
        ≤ (curr.stime + curr.utime) * curr.sumExecRuntime / (curr.stime + curr.utime) :=
          Nat.div_le_div_right (Nat.mul_le_mul_right _ (Nat.le_add_right _ _))
      _ = curr.sumExecRuntime := Nat.mul_div_cancel_left _ (by omega)

theorem good_of_noShift (hi : Inv h) (hn : NoShift curr h) : Good curr h := by
  by_cases hr : curr.sumExecRuntime ≤ h.prev.stime + h.prev.utime
  · exact ⟨_, adjust_still hi hr, le_rfl, le_rfl, hi.sum⟩
  · obtain ⟨v, hv, hle⟩ := scaledStime_le (hn.resolve_left (hi.sum ▸ hr))
    have hgood := update_good (not_le.1 hr) curr.runtime hle
    refine ⟨⟨update h.prev curr.sumExecRuntime v, curr.sumExecRuntime⟩, ?_, hgood⟩
    rw [adjust_grown hi (not_le.1 hr), hv, Option.map_some]

theorem inv_step (hi : Inv h) (hn : NoShift curr h) (hs : step curr h = some h') : Inv h' := by
  obtain ⟨h'', hs'', -, -, hsum⟩ := good_of_noShift hi hn
  obtain rfl := Option.some.inj (hs.symm.trans hs'')
  refine ⟨hsum, ?_⟩
  obtain ⟨p, -, rfl⟩ := Option.map_eq_some_iff.1 hs
  exact max_lt hi.word curr.runtime

end

/-- In every run whose calls need no shift, all calls return times that never go back and add up to the largest runtime.
-/
theorem good_run (calls : List TaskCputime) (h : Along step NoShift calls History.start) :
    Along step Good calls History.start :=
  h.imp_invariant (I := Inv) (fun _ _ _ => inv_step) (fun _ _ => good_of_noShift) ⟨rfl, Nat.two_pow_pos 64⟩

/-! ## Two hours in the kernel -/

/-- A task that has been sampled for 117 minutes in the kernel and for one tick of 4 ms in user space. -/
def inKernel : TaskCputime := ⟨7022452000000, 4000000, 7004034801331, by decide, by decide⟩

/-- The part of the kernel is 9.5 us more than the runtime, so the user time is almost `2^64` ns. -/
theorem overshoot_inKernel : scaledStime inKernel = some 7004034810831 ∧
    (step inKernel History.start).map History.prev = some ⟨7004034810831, 2 ^ 64 - 9500⟩ ∧
        ¬ Good inKernel History.start := by
  have hs : step inKernel History.start = some ⟨⟨7004034810831, 2 ^ 64 - 9500⟩, 7004034801331⟩ := by rfl
  refine ⟨by decide, by rfl, ?_⟩
  rintro ⟨h', hs', -, -, hsum⟩
  obtain rfl := Option.some.inj (hs.symm.trans hs')
  exact absurd hsum (by decide)

/-- Three calls for a younger task; the second comes with an older runtime. -/
def young : List TaskCputime :=
  [⟨8000000, 4000000, 11500000, by decide, by decide⟩, ⟨8000000, 8000000, 11000000, by decide, by decide⟩,
    ⟨8000000, 12000000, 19000000, by decide, by decide⟩]

theorem good_young : Along step Good young History.start :=
  good_run young (by decide +kernel)

end KernelSched.Cputime
