import KernelSched.Lib.Run
import KernelSched.Lib.Wrap

/-!
# The load of a policy

`dbs_update` samples the CPUs of a policy: the time since the last sample and the idle time in it, cut to 32 bits. The
idle time can be negative, and then the CPU has been busy. But it is compared with the sampling rate without its sign,
so that such a CPU seems to come out of a long idle phase. `Sample.Plain` says when this and the other words do no harm.
-/

namespace KernelSched.Cpufreq

open Run Wrap
open BitVec (lt_def not_le toNat_mul)

abbrev U32 := BitVec 32

/-! ## Model -/

structure CpuDbs where
  prevUpdateTime : U64
  prevCpuIdle : U64
  prevCpuNice : U64
  prevLoad : U32

/-- The tunables, and what is read of the CPUs in one call -/
structure DbsCall where
  ignoreNice : Bool
  samplingRate : U32
  rateMult : U32
  updateTime : Nat → U64
  curIdleTime : Nat → U64
  curNice : Nat → U64

structure Sample where
  timeElapsed : U32
  idleTime : U32
  samplingRate : U32

namespace Sample

/-- `(int)idle_time > 2 * sampling_rate`, which has no sign -/
def longIdle (x : Sample) : Bool := decide (2 * x.samplingRate < x.idleTime)

def computed (x : Sample) : U32 :=
  if x.idleTime ≤ x.timeElapsed then 100 * (x.timeElapsed - x.idleTime) / x.timeElapsed
  else if x.idleTime.toInt < 0 then 100 else 0

/-- The load, and the new `prev_load` -/
def load (x : Sample) (prevLoad : U32) : U32 × U32 :=
  if x.timeElapsed = 0 then (prevLoad, prevLoad)
  else if x.longIdle ∧ prevLoad ≠ 0 then (prevLoad, 0)
  else (x.computed, x.computed)

end Sample

namespace DbsCall

variable (c : DbsCall) (cpus : List Nat) (f : Nat → CpuDbs) (j : Nat)

def sample : Sample where
  timeElapsed := (c.updateTime j - (f j).prevUpdateTime).setWidth 32
  idleTime := (c.curIdleTime j - (f j).prevCpuIdle).setWidth 32 +
    if c.ignoreNice then ((c.curNice j - (f j).prevCpuNice) / 1000).setWidth 32 else 0
  samplingRate := c.samplingRate * c.rateMult

def load : U32 × U32 := (c.sample f j).load (f j).prevLoad

/-- The CPUs after `dbs_update` -/
def step (cpus : List Nat) (c : DbsCall) (f : Nat → CpuDbs) : Option (Nat → CpuDbs) :=
  some fun j =>
    if j ∈ cpus then
      ⟨c.updateTime j, c.curIdleTime j, if c.ignoreNice then c.curNice j else (f j).prevCpuNice, (c.load f j).2⟩
    else f j

/-- What `dbs_update` returns -/
def maxLoad : U32 := cpus.foldl (fun m j => if m < (c.load f j).1 then (c.load f j).1 else m) 0

/-- `idle_periods` of the policy after `dbs_update` -/
def idlePeriods : U32 :=
  cpus.foldl (fun p j =>
    let periods := (c.sample f j).idleTime / (c.sample f j).samplingRate
    if (c.sample f j).longIdle ∧ periods < p then periods else p) (.allOnes 32)

end DbsCall

/-! ## What holds -/

namespace Sample

variable {x : Sample} {prevLoad : U32}

def exact (x : Sample) : Nat :=
  if x.idleTime.toInt < 0 then 100 else 100 * (x.timeElapsed.toNat - x.idleTime.toNat) / x.timeElapsed.toNat

structure Right (x : Sample) (prevLoad : U32) : Prop where
  load : x.timeElapsed ≠ 0 → x.longIdle = false ∨ prevLoad = 0 → (x.load prevLoad).1.toNat = x.exact
  le : (x.load prevLoad).1.toNat ≤ 100 ∧ (x.load prevLoad).2.toNat ≤ 100
  idle : x.longIdle = true → (2 * x.samplingRate.toNat : ℤ) < x.idleTime.toInt

/-- A negative idle time is not found to be long, nothing exceeds 32 bits, and nothing is divided by 0. -/
def Plain (x : Sample) : Prop :=
  if x.idleTime.toInt < 0 then x.timeElapsed < x.idleTime ∧ x.longIdle = false
  else 100 * (x.timeElapsed.toNat - x.idleTime.toNat) < 2 ^ 32 ∧ 2 * x.samplingRate.toNat < 2 ^ 32 ∧ x.samplingRate ≠ 0

instance (x : Sample) : Decidable x.Plain := by
  unfold Plain
  infer_instance

theorem Plain.computed (h : x.Plain) : x.computed.toNat = x.exact ∧ x.exact ≤ 100 := by
  unfold Plain at h
  unfold Sample.computed exact
  split at h
  · next hneg =>
    rw [if_neg (not_le.2 h.1), if_pos hneg, if_pos hneg]
    exact ⟨rfl, le_rfl⟩
  · next hneg =>
    rw [if_neg hneg, if_neg hneg]
    refine ⟨?_, Nat.div_le_of_le_mul ?_⟩
    · split
      · next hle =>
        rw [BitVec.toNat_udiv, toNat_mul, BitVec.toNat_sub_of_le hle]
        exact congrArg (· / _) (Nat.mod_eq_of_lt h.1)
      · next hlt =>
        rw [not_le, lt_def] at hlt
        rw [Nat.sub_eq_zero_of_le hlt.le, Nat.mul_zero, Nat.zero_div]
        rfl
    · rw [Nat.mul_comm]
      exact Nat.mul_le_mul_right _ (Nat.sub_le _ _)

theorem Plain.right (h : x.Plain) (hprev : prevLoad.toNat ≤ 100) : x.Right prevLoad := by
  refine ⟨fun he hnot => ?_, ?_, fun hlong => ?_⟩
  · have hno : ¬ (x.longIdle = true ∧ prevLoad ≠ 0) := by simpa [imp_iff_not_or] using hnot
    rw [Sample.load, if_neg he, if_neg hno]
    exact h.computed.1
  · unfold Sample.load
    split
    · exact ⟨hprev, hprev⟩
    · obtain ⟨heq, hle⟩ := h.computed
      rw [← heq] at hle
      split
      · exact ⟨hprev, Nat.zero_le _⟩
      · exact ⟨hle, hle⟩
  · unfold Plain at h
    split at h
    · rw [h.2] at hlong
      cases hlong
    · next hneg =>
      have hlt := lt_def.1 (of_decide_eq_true hlong)
      rw [toNat_mul, show (2 : U32).toNat = 2 from rfl, Nat.mod_eq_of_lt h.2.1] at hlt
      rw [BitVec.toInt_eq_toNat_cond] at hneg ⊢
      split at hneg <;> split <;> omega

end Sample

namespace DbsCall

variable {c : DbsCall} {cpus : List Nat} {f : Nat → CpuDbs}

/-- What a call should do: the samples are right, and so is what is made of them. -/
structure Right (cpus : List Nat) (c : DbsCall) (f : Nat → CpuDbs) : Prop where
  cpu : ∀ j ∈ cpus, (c.sample f j).Right (f j).prevLoad
  load : (c.maxLoad cpus f).toNat ≤ 100
  idle : c.idlePeriods cpus f ≠ .allOnes 32 →
    ∃ j ∈ cpus, (2 * (c.sample f j).samplingRate.toNat : ℤ) < (c.sample f j).idleTime.toInt

theorem right_of_plain (hf : ∀ j, (f j).prevLoad.toNat ≤ 100) (h : ∀ j ∈ cpus, (c.sample f j).Plain) :
    c.Right cpus f := by
  have hcpu : ∀ j ∈ cpus, (c.sample f j).Right (f j).prevLoad := fun j hj => (h j hj).right (hf j)
  refine ⟨hcpu, ?_, ?_⟩
  · refine List.foldlRecOn (motive := fun m : U32 => m.toNat ≤ 100) cpus _ (Nat.zero_le _) fun m hm j hj => ?_
    split
    · exact (hcpu j hj).le.1
    · exact hm
  · refine List.foldlRecOn (motive := fun p : U32 => p ≠ .allOnes 32 → _) cpus _ (absurd rfl) fun p hp j hj hne => ?_
    dsimp only at hne
    split at hne
    · next hlong => exact ⟨j, hj, (hcpu j hj).idle hlong.1⟩
    · exact hp hne

/-- In every sequence of calls, the loads and the idle periods are right if all samples are plain. -/
theorem dbs_update_right {calls : List DbsCall} (hf : ∀ j, (f j).prevLoad.toNat ≤ 100)
    (h : Along (step cpus) (fun c f => ∀ j ∈ cpus, (c.sample f j).Plain) calls f) :
    Along (step cpus) (Right cpus) calls f := by
  refine h.imp_invariant (fun c f f' hf hplain hs j => ?_) (fun c f hf hplain => right_of_plain hf hplain) hf
  obtain rfl := Option.some.inj hs
  dsimp only
  split
  · next hj => exact ((hplain j hj).right (hf j)).le.2
  · exact hf j

/-- After 20 ms, half of them idle -/
def half : DbsCall := ⟨false, 20000, 1, fun _ => 20000, fun _ => 10000, fun _ => 0⟩

/-- After 60 ms more, in which CPU 0 was almost idle and CPU 1 ran a nice task for 5 ms -/
def uneven : DbsCall := ⟨true, 20000, 1, fun _ => 80000, fun j => if j = 0 then 69000 else 30000, fun j => if j = 0
    then 0 else 5000⟩

theorem dbs_update_right_half : half.maxLoad [0, 1] (fun _ => ⟨0, 0, 0, 0⟩) = 50 ∧
    Along (step [0, 1]) (Right [0, 1]) [half, uneven] fun _ => ⟨0, 0, 0, 0⟩ :=
  ⟨by decide, dbs_update_right (fun _ => Nat.zero_le _) (by decide +kernel)⟩

/-- With an idle time of -1, the last load is reported once more, and many idle periods. -/
theorem busy_found_idle : let f : Nat → CpuDbs := fun _ => ⟨0, 10001, 0, 40⟩
    (half.sample f 0).idleTime.toInt = -1 ∧ half.maxLoad [0] f = 40 ∧ half.idlePeriods [0] f = 214748 := by
  decide

end DbsCall

end KernelSched.Cpufreq
