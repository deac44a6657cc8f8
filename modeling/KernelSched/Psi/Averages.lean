import KernelSched.Load.CalcLoad
import KernelSched.Psi.Aggregate

/-!
# Pressure stall information: the reported averages

`update_averages` divides the stall time of a state by the time since the update before, less the whole periods that
were missed, and moves three averages towards the percentage. Two timestamps drift apart: the time of the last update,
and the time at which the next one is due, which goes in whole periods. What links them is that the next update is due
within a period of the last one (`Spaced`); it holds as a statement about 64-bit words, so it outlives a clock that runs
past its end. The divisor is then between one nanosecond and two periods.
-/

namespace KernelSched.Psi

open Wrap Run

/-! ## The averages -/

/-- The three averages of a state: over 10, 60 and 300 seconds -/
inductive Span
  | avg10
  | avg60
  | avg300
  deriving DecidableEq

def Span.exp : Span → U64
  | .avg10 => 1677
  | .avg60 => 1981
  | .avg300 => 2034

/-- `calc_avgs`: the count of missed periods is passed as an `int`, and the divisor of `div_u64` has 32 bits. -/
def calcAvgs (avg : Span → U64) (missedPeriods time period : ℕ) : Span → U64 :=
  let missed := missedPeriods % 2 ^ 32
  let avg := fun n => if missed ≠ 0 then Load.calcLoadN (avg n) n.exp 0 missed else avg n
  let pct : U64 := (time * 100 % 2 ^ 64 / (period % 2 ^ 32) : ℕ)
  fun n => Load.calcLoad (avg n) n.exp (pct * Load.fixed1)

/-- `jiffies_to_nsecs`, with `hz` ticks a second -/
def jiffiesToNsecs (hz j : ℕ) : ℕ := j * 1000000 / hz * 1000

/-- `PSI_FREQ`: two seconds and a jiffy -/
def psiFreq (hz : ℕ) : ℕ := 2 * hz + 1

/-- The constants of a kernel that is built for `hz` ticks a second -/
def Config.ofHz (hz : ℕ) : Config := ⟨jiffiesToNsecs hz (psiFreq hz), 1000000000 / hz⟩

namespace Group

variable {C : Type} (K : Config)

/-- `period` of `update_averages`: the time since the last update, less the missed periods -/
def period (now : ℕ) (g : Group C) : ℕ := sub64 now (g.avgLastUpdate + g.missedPeriods K now * K.psiPeriod)

/-- `sample` of `update_averages`, once it is cut to the period -/
def stallSample (now : ℕ) (g : Group C) (σ : PsiState) : ℕ :=
  let sample := sub64 (g.total .avgs σ) (g.avgTotal σ) % 2 ^ 32
  if g.period K now < sample then g.period K now % 2 ^ 32 else sample

end Group

structure Averaged (C : Type) where
  group : Group C
  avg : PsiState → Span → U64

/-- What the averages see: stall time that a collection adds to the totals, and an update -/
inductive AvgOp
  | collect (stalls : PsiState → ℕ)
  | update (now : ℕ)

namespace Averaged

variable {C : Type} (K : Config)

/-- `update_averages`, the averages included -/
def updateAverages (now : ℕ) (s : Averaged C) : Averaged C where
  group := s.group.updateAverages K now
  avg := fun σ => calcAvgs (s.avg σ) (s.group.missedPeriods K now) (s.group.stallSample K now σ) (s.group.period K now)

def step : AvgOp → Averaged C → Option (Averaged C)
  | .collect stalls, s =>
    some { s with
      group := { s.group with
        total := Function.update s.group.total .avgs fun σ => s.group.total .avgs σ + stalls σ } }
  | .update now, s => some (s.updateAverages K now)

/-- A group that `group_init` has just set up -/
def init (C : Type) (clock : ℕ) : Averaged C := ⟨groupInit C K clock, fun _ _ => 0⟩

/-- What an update does right. The divisor is not 0, and its 32 bits are all of it. The next update is due after this one
and within a period of it: as words always, and as numbers when the update was due and the time has 64 bits. The averages
are percentages. The stall time that leaves the backlog is what the averages took in. -/
structure UpdatesRight (now : ℕ) (s : Averaged C) : Prop where
  divisor : 1 ≤ s.group.period K now ∧ s.group.period K now < 2 ^ 32
  nextWord : 1 ≤ sub64 (s.updateAverages K now).group.avgNextUpdate now ∧
    sub64 (s.updateAverages K now).group.avgNextUpdate now ≤ K.psiPeriod
  next : s.group.avgNextUpdate ≤ now → now < 2 ^ 64 →
    now < (s.updateAverages K now).group.avgNextUpdate ∧
      (s.updateAverages K now).group.avgNextUpdate ≤ now + K.psiPeriod
  avg : ∀ σ n, (s.updateAverages K now).avg σ n ≤ 100 * Load.fixed1
  carried : ∀ σ, (s.updateAverages K now).group.avgTotal σ = s.group.avgTotal σ + s.group.stallSample K now σ
  sample : ∀ σ, s.group.avgTotal σ + s.group.stallSample K now σ ≤ s.group.total .avgs σ

def Right : AvgOp → Averaged C → Prop
  | .collect _, _ => True
  | .update now, s => s.UpdatesRight K now

/-! ## Invariants -/

/-- As a word, the time of the next update is at most a period after the last one. -/
structure Spaced (s : Averaged C) : Prop where
  pos : 1 ≤ sub64 s.group.avgNextUpdate s.group.avgLastUpdate
  le : sub64 s.group.avgNextUpdate s.group.avgLastUpdate ≤ K.psiPeriod

/-- The averages are percentages, and no stall time has been taken in that is not in the totals. -/
structure Bounded (s : Averaged C) : Prop where
  avg : ∀ σ n, s.avg σ n ≤ 100 * Load.fixed1
  seen : ∀ σ, s.group.avgTotal σ ≤ s.group.total .avgs σ

/-! ## The two timestamps -/

section

variable {K} (now : ℕ) (g : Group C)

theorem missedPeriods_eq : g.missedPeriods K now = sub64 now g.avgNextUpdate / K.psiPeriod := by
  unfold Group.missedPeriods
  split
  case isTrue => rfl
  case isFalse h => exact (Nat.div_eq_of_lt (by omega)).symm

theorem missedPeriods_mul_add : g.missedPeriods K now * K.psiPeriod + sub64 now g.avgNextUpdate % K.psiPeriod =
    sub64 now g.avgNextUpdate := by
  rw [missedPeriods_eq, mul_comm]
  exact Nat.div_add_mod _ _

theorem avgNextUpdate_updateAverages : (g.updateAverages K now).avgNextUpdate =
    g.avgNextUpdate + K.psiPeriod + g.missedPeriods K now * K.psiPeriod := by
  show g.avgNextUpdate + (1 + g.missedPeriods K now) * K.psiPeriod = _
  rw [add_mul, one_mul, add_assoc]

theorem sub64_next (hpos : 0 < K.psiPeriod) (hlt : K.psiPeriod < 2 ^ 64) :
    sub64 (g.updateAverages K now).avgNextUpdate now = K.psiPeriod - sub64 now g.avgNextUpdate % K.psiPeriod := by
  have hsplit := missedPeriods_mul_add (K := K) now g
  have hrest := Nat.mod_lt (sub64 now g.avgNextUpdate) hpos
  rw [avgNextUpdate_updateAverages]
  simp only [sub64_eq] at *
  omega

theorem next_of_due (hpos : 0 < K.psiPeriod) (hdue : g.avgNextUpdate ≤ now) (hnow : now < 2 ^ 64) :
    now < (g.updateAverages K now).avgNextUpdate ∧ (g.updateAverages K now).avgNextUpdate ≤ now + K.psiPeriod := by
  have hsplit := missedPeriods_mul_add (K := K) now g
  have hrest := Nat.mod_lt (sub64 now g.avgNextUpdate) hpos
  have hlate : sub64 now g.avgNextUpdate = now - g.avgNextUpdate := by rw [sub64_eq]; omega
  rw [avgNextUpdate_updateAverages]
  omega

/-- The divisor is what has passed of the period that runs, and the time from the last update to when the next was due. -/
theorem period_eq {s : Averaged C} (hlt : K.psiPeriod < 2 ^ 31) (hs : s.Spaced K) : s.group.period K now =
    sub64 now s.group.avgNextUpdate % K.psiPeriod + sub64 s.group.avgNextUpdate s.group.avgLastUpdate := by
  obtain ⟨hpos, hle⟩ := hs
  have hsplit := missedPeriods_mul_add (K := K) now s.group
  have hrest := Nat.mod_lt (sub64 now s.group.avgNextUpdate) (lt_of_lt_of_le hpos hle)
  unfold Group.period
  simp only [sub64_eq] at *
  omega

end

/-! ## One update -/

section

variable {K} {s : Averaged C} (now : ℕ)

theorem period_bounds (hlt : K.psiPeriod < 2 ^ 31) (hs : s.Spaced K) :
    1 ≤ s.group.period K now ∧ s.group.period K now < 2 ^ 32 := by
  rw [period_eq now hlt hs]
  obtain ⟨hpos, hle⟩ := hs
  have hrest := Nat.mod_lt (sub64 now s.group.avgNextUpdate) (lt_of_lt_of_le hpos hle)
  omega

theorem stallSample_le_period (σ : PsiState) : s.group.stallSample K now σ ≤ s.group.period K now := by
  unfold Group.stallSample
  dsimp only
  split
  · exact Nat.mod_le _ _
  · omega

theorem stallSample_le_backlog (hb : s.Bounded) (σ : PsiState) :
    s.group.avgTotal σ + s.group.stallSample K now σ ≤ s.group.total .avgs σ := by
  have hdiff := sub64_le (hb.seen σ)
  have hseen := hb.seen σ
  unfold Group.stallSample
  dsimp only
  split <;> omega

theorem exp_le (n : Span) : n.exp ≤ Load.fixed1 := by cases n <;> decide

/-- Averages that are percentages stay so when the stall time is at most the period. -/
theorem calcAvgs_le {avg : Span → U64} {missed time period : ℕ} (havg : ∀ n, avg n ≤ 100 * Load.fixed1)
    (htime : time ≤ period) (hlt : period < 2 ^ 32) (n : Span) :
        calcAvgs avg missed time period n ≤ 100 * Load.fixed1 := by
  have hpct : time * 100 % 2 ^ 64 / (period % 2 ^ 32) ≤ 100 := by
    rw [Nat.mod_eq_of_lt hlt]
    refine Nat.div_le_of_le_mul ((Nat.mod_le _ _).trans ?_)
    exact Nat.mul_le_mul_right 100 htime
  have hactive : (((time * 100 % 2 ^ 64 / (period % 2 ^ 32) : ℕ) : U64) * Load.fixed1).toNat ≤ 204800 := by
    have hcast : ((time * 100 % 2 ^ 64 / (period % 2 ^ 32) : ℕ) : U64).toNat ≤ 100 := (Nat.mod_le _ _).trans hpct
    have hone : Load.fixed1.toNat = 2048 := rfl
    rw [BitVec.toNat_mul, hone]
    omega
  -- the averages after the missed periods, in which nothing stalled
  have hdecayed : ∀ n, (if missed % 2 ^ 32 ≠ 0 then Load.calcLoadN (avg n) n.exp 0 (missed % 2 ^ 32)
      else avg n).toNat ≤ 204800 := by
    intro n
    split
    · exact Load.calcLoadN_le (by decide) (havg n) (Nat.zero_le _) (exp_le n) _
    · exact havg n
  exact Load.calcLoad_le (by decide) (hdecayed n) hactive (exp_le n)

theorem Spaced.updateAverages (hpos : 0 < K.psiPeriod) (hlt : K.psiPeriod < 2 ^ 31) :
    (s.updateAverages K now).Spaced K := by
  have hrest := Nat.mod_lt (sub64 now s.group.avgNextUpdate) hpos
  have hnext := sub64_next now s.group hpos (by omega)
  constructor
  · show 1 ≤ sub64 (s.group.updateAverages K now).avgNextUpdate now
    omega
  · show sub64 (s.group.updateAverages K now).avgNextUpdate now ≤ K.psiPeriod
    omega

theorem Bounded.updateAverages (hlt : K.psiPeriod < 2 ^ 31) (hs : s.Spaced K) (hb : s.Bounded) :
    (s.updateAverages K now).Bounded := by
  have hshort := (period_bounds now hlt hs).2
  constructor
  · intro σ n
    exact calcAvgs_le (hb.avg σ) (stallSample_le_period now σ) hshort n
  · exact stallSample_le_backlog now hb

theorem updatesRight (hlt : K.psiPeriod < 2 ^ 31) (hs : s.Spaced K) (hb : s.Bounded) : s.UpdatesRight K now := by
  have hpos := lt_of_lt_of_le hs.pos hs.le
  have hspaced := Spaced.updateAverages (s := s) now hpos hlt
  exact {
    divisor := period_bounds now hlt hs
    nextWord := ⟨hspaced.pos, hspaced.le⟩
    next := next_of_due now s.group hpos
    avg := (hb.updateAverages now hlt hs).avg
    carried := fun _ => rfl
    sample := stallSample_le_backlog now hb }

end

/-! ## Runs -/

theorem psiPeriod_pos {hz : ℕ} (h : 0 < hz) : 0 < (Config.ofHz hz).psiPeriod := by
  have hdiv : 1 ≤ psiFreq hz * 1000000 / hz := (Nat.le_div_iff_mul_le h).2 (by unfold psiFreq; omega)
  show 0 < psiFreq hz * 1000000 / hz * 1000
  omega

/-- With 12 ticks a second or more, which the kernel insists on, two periods fit into 32 bits. -/
theorem psiPeriod_lt {hz : ℕ} (h : 12 ≤ hz) : (Config.ofHz hz).psiPeriod < 2 ^ 31 := by
  have hdiv : psiFreq hz * 1000000 / hz ≤ 2083334 := Nat.div_le_of_le_mul (by unfold psiFreq; omega)
  show psiFreq hz * 1000000 / hz * 1000 < 2 ^ 31
  omega

variable {K}

theorem spaced_init (hpos : 0 < K.psiPeriod) (hlt : K.psiPeriod < 2 ^ 31) (clock : ℕ) : (init K C clock).Spaced K := by
  have hdist : sub64 (clock + K.psiPeriod) clock = K.psiPeriod := by
    rw [sub64_eq]
    omega
  exact ⟨hdist.symm ▸ hpos, hdist.le⟩

theorem bounded_init (clock : ℕ) : (init K C clock).Bounded :=
  ⟨fun _ _ => show (0 : U64) ≤ 100 * Load.fixed1 by decide, fun _ => le_refl 0⟩

theorem inv_step (hlt : K.psiPeriod < 2 ^ 31) (op : AvgOp) (s s' : Averaged C) (h : s.Spaced K ∧ s.Bounded)
    (hstep : step K op s = some s') : s'.Spaced K ∧ s'.Bounded := by
  obtain ⟨hs, hb⟩ := h
  cases op with
  | collect stalls =>
    cases hstep
    refine ⟨⟨hs.pos, hs.le⟩, hb.avg, ?_⟩
    intro σ
    have hseen := hb.seen σ
    simp only [Function.update_self]
    omega
  | update now =>
    cases hstep
    exact ⟨.updateAverages now (lt_of_lt_of_le hs.pos hs.le) hlt, hb.updateAverages now hlt hs⟩

/-- From the initialisation of a group on, every update does its work right, whatever stalls the totals take in and at
whatever times it is called; and the averages stay percentages, with no stall time taken in that the totals do not have.
-/
theorem averages_right {hz : ℕ} (hhz : 12 ≤ hz) (clock : ℕ) (ops : List AvgOp) :
    Along (step (Config.ofHz hz)) (Right (Config.ofHz hz)) ops (init (Config.ofHz hz) C clock) ∧
      ∀ s', run (step (Config.ofHz hz)) ops (init (Config.ofHz hz) C clock) = some s' → s'.Bounded := by
  have hlt := psiPeriod_lt hhz
  have hinit : (init (Config.ofHz hz) C clock).Spaced (Config.ofHz hz) ∧ (init (Config.ofHz hz) C clock).Bounded :=
    ⟨spaced_init (psiPeriod_pos (by omega)) hlt clock, bounded_init clock⟩
  constructor
  · refine (along_of_forall (fun _ _ => trivial) ops _).imp_invariant (fun op t t' ht _ =>
      inv_step hlt op t t' ht) ?_ hinit
    intro op t ht _
    cases op with
    | collect stalls => trivial
    | update now => exact updatesRight now hlt ht.1 ht.2
  · intro s' hrun
    exact (run_invariant (inv_step hlt) hinit hrun).2

/-- What a wait for I/O of 3.5 seconds exceeds the period by is left for the second update, three periods late. -/
theorem averages_right_hz250 : 12 ≤ 250 ∧
    Along (step (C := Unit) (Config.ofHz 250)) (Right (Config.ofHz 250))
      [.collect fun σ => if σ = .ioSome then 3500000000 else 0, .update 2004000000, .update 12000000000]
      (init (Config.ofHz 250) Unit 0) :=
  ⟨by decide, (averages_right (by decide) 0 _).1⟩

end Averaged

end KernelSched.Psi
