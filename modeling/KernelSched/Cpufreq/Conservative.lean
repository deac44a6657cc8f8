import KernelSched.Cpufreq.Governor

/-!
# Steps of the conservative governor

`cs_dbs_update` moves the requested frequency a step up or down with the load, and down by a step for every idle period.
It keeps an increase to the maximum, but a decrease to the minimum only where the frequency is no more than a step. The
steps of the idle periods are multiplied in 32 bits.
-/

namespace KernelSched.Cpufreq

open Run BitVec

/-- The tunables of a policy, its current frequency, and what `dbs_update` gives -/
structure CsCall where
  freqStep : U32
  upThreshold : U32
  downThreshold : U32
  samplingDownFactor : U32
  cur : U32
  load : U32
  idlePeriods : U32

/-- `struct cs_policy_dbs_info` -/
structure CsDbs where
  requestedFreq : U32
  downSkip : U32
  deriving DecidableEq

namespace CsCall

-- `policy->min` and `policy->max`
variable (lo hi : U32) (c : CsCall) (s : CsDbs)

def getFreqStep : U32 :=
  let freqStep := c.freqStep * hi / 100
  if freqStep = 0 then 5 else freqStep

/-- `requested_freq`, or the current frequency where that is out of range -/
def inRange : U32 := if hi < s.requestedFreq ∨ s.requestedFreq < lo then c.cur else s.requestedFreq

/-- `requested_freq` after the idle periods -/
def afterIdle : U32 :=
  if c.idlePeriods < .allOnes 32 then
    let freqSteps := c.idlePeriods * c.getFreqStep hi
    if lo + freqSteps < c.inRange lo hi s then c.inRange lo hi s - freqSteps else lo
  else c.inRange lo hi s

def csDbsUpdate : CsDbs :=
  if c.freqStep = 0 then s
  else
    let freqStep := c.getFreqStep hi
    let requested := c.afterIdle lo hi s
    let s := { s with requestedFreq := c.inRange lo hi s }
    if c.upThreshold < c.load then
      if requested = hi then { s with downSkip := 0 }
      else ⟨if hi < requested + freqStep then hi else requested + freqStep, 0⟩
    else if s.downSkip + 1 < c.samplingDownFactor then { s with downSkip := s.downSkip + 1 }
    else if c.load < c.downThreshold ∧ requested ≠ lo then
      ⟨if freqStep < requested then requested - freqStep else lo, 0⟩
    else { s with downSkip := 0 }

/-- The frequency after the idle periods, in exact arithmetic -/
def idleFreq : Nat :=
  if c.idlePeriods < .allOnes 32 then
    max lo.toNat ((c.inRange lo hi s).toNat - c.idlePeriods.toNat * (c.getFreqStep hi).toNat)
  else (c.inRange lo hi s).toNat

structure Right : Prop where
  range : (c.csDbsUpdate lo hi s).requestedFreq ≠ s.requestedFreq →
    lo ≤ (c.csDbsUpdate lo hi s).requestedFreq ∧ (c.csDbsUpdate lo hi s).requestedFreq ≤ hi
  idle : c.freqStep ≠ 0 → (c.afterIdle lo hi s).toNat = c.idleFreq lo hi s

/-- The load is low, the call is not skipped, and the frequency is not the minimum. -/
def Decreases : Prop :=
  ¬ c.upThreshold < c.load ∧ ¬ s.downSkip + 1 < c.samplingDownFactor ∧ c.load < c.downThreshold ∧
    c.idleFreq lo hi s ≠ lo.toNat

instance : Decidable (c.Decreases lo hi s) := inferInstanceAs (Decidable (_ ∧ _))

/-- The current frequency is within the limits where it is needed, and no sum exceeds 32 bits. -/
structure Tame : Prop where
  cur : lo ≤ c.inRange lo hi s ∧ c.inRange lo hi s ≤ hi
  idle : c.idlePeriods < .allOnes 32 → lo.toNat + c.idlePeriods.toNat * (c.getFreqStep hi).toNat < 2 ^ 32
  up : c.upThreshold < c.load → c.idleFreq lo hi s ≠ hi.toNat → c.idleFreq lo hi s + (c.getFreqStep hi).toNat < 2 ^ 32

instance : Decidable (c.Tame lo hi s) :=
  decidable_of_iff (_ ∧ _ ∧ _) ⟨fun ⟨h₁, h₂, h₃⟩ => ⟨h₁, h₂, h₃⟩, fun h => ⟨h.cur, h.idle, h.up⟩⟩

/-- Where the frequency is decreased by a step, there is one above the minimum, or it gets back to the request it had. -/
def HasRoom : Prop :=
  c.Decreases lo hi s → (c.getFreqStep hi).toNat < c.idleFreq lo hi s →
    lo.toNat + (c.getFreqStep hi).toNat ≤ c.idleFreq lo hi s ∨
      c.idleFreq lo hi s = s.requestedFreq.toNat + (c.getFreqStep hi).toNat

instance : Decidable (c.HasRoom lo hi s) := inferInstanceAs (Decidable (_ → _))

variable {lo hi c s}

/-- The idle correction is exact while its product fits. -/
theorem Tame.afterIdle (h : c.Tame lo hi s) : (c.afterIdle lo hi s).toNat = c.idleFreq lo hi s := by
  rw [CsCall.afterIdle, idleFreq]
  split
  · next hp =>
    have hfits := h.idle hp
    have hsteps : (c.idlePeriods * c.getFreqStep hi).toNat = c.idlePeriods.toNat * (c.getFreqStep hi).toNat := by
      rw [toNat_mul]
      exact Nat.mod_eq_of_lt (by omega)
    rw [← hsteps] at hfits ⊢
    generalize c.idlePeriods * c.getFreqStep hi = steps at *
    dsimp only
    split
    · next hlt =>
      rw [lt_def, BitVec.toNat_add, Nat.mod_eq_of_lt hfits] at hlt
      rw [BitVec.toNat_sub_of_le (BitVec.le_def.2 (by omega))]
      omega
    · next hle =>
      rw [lt_def, BitVec.toNat_add, Nat.mod_eq_of_lt hfits] at hle
      omega
  · rfl

theorem Tame.within (h : c.Tame lo hi s) : lo ≤ c.afterIdle lo hi s ∧ c.afterIdle lo hi s ≤ hi := by
  obtain ⟨hmin, hmax⟩ := h.cur
  rw [BitVec.le_def] at hmin hmax ⊢
  rw [BitVec.le_def, h.afterIdle, idleFreq]
  split <;> omega

theorem Right.hasRoom (hstep : c.freqStep ≠ 0) (h : c.Tame lo hi s) (hright : c.Right lo hi s) : c.HasRoom lo hi s := by
  rintro ⟨hup, hskip, hdown, hne⟩ hlt
  have hexact := h.afterIdle
  rw [← hexact] at hlt hne ⊢
  have hfreq : (c.csDbsUpdate lo hi s).requestedFreq = c.afterIdle lo hi s - c.getFreqStep hi := by
    rw [csDbsUpdate, if_neg hstep]
    dsimp only
    rw [if_neg hup, if_neg hskip, if_pos ⟨hdown, fun heq => hne (congrArg _ heq)⟩]
    exact if_pos (lt_def.2 hlt)
  have hsub := BitVec.toNat_sub_of_le (BitVec.le_def.2 hlt.le)
  by_cases hsame : (c.csDbsUpdate lo hi s).requestedFreq = s.requestedFreq
  · rw [← hsame, hfreq]
    omega
  · have hmin := (hright.range hsame).1
    rw [hfreq, BitVec.le_def] at hmin
    omega

theorem right_of_tame (h : c.freqStep ≠ 0 → c.Tame lo hi s) (hroom : c.freqStep ≠ 0 → c.HasRoom lo hi s) :
    c.Right lo hi s := by
  refine ⟨?_, fun hstep => (h hstep).afterIdle⟩
  unfold csDbsUpdate
  split
  · exact fun hne => absurd rfl hne
  next hstep =>
  have h := h hstep
  obtain ⟨hmin, hmax⟩ := h.within
  have hexact := h.afterIdle
  dsimp only
  split
  · next hup =>
    split
    · exact fun _ => h.cur
    · next hne =>
      have hfits := h.up hup fun heq => hne (BitVec.eq_of_toNat_eq (hexact.trans heq))
      dsimp only
      split
      · exact fun _ => ⟨BitVec.le_trans hmin hmax, BitVec.le_refl _⟩
      · next hle =>
        refine fun _ => ⟨?_, BitVec.not_lt.1 hle⟩
        rw [BitVec.le_def, BitVec.toNat_add, hexact, Nat.mod_eq_of_lt hfits, ← hexact]
        exact (BitVec.le_def.1 hmin).trans (Nat.le_add_right _ _)
  · next hup =>
    split
    · exact fun _ => h.cur
    · next hskip =>
      split
      · next hdown =>
        dsimp only
        split
        · next hlt =>
          have hroom := hroom hstep ⟨hup, hskip, hdown.1, fun heq => hdown.2 (BitVec.eq_of_toNat_eq (hexact.trans heq))⟩
            (hexact ▸ lt_def.1 hlt)
          have hsub := BitVec.toNat_sub_of_le (BitVec.le_of_lt hlt)
          intro hne
          rw [BitVec.le_def] at hmax ⊢
          rw [BitVec.le_def]
          rcases hroom with hroom | hsame
          · omega
          · exact absurd (BitVec.eq_of_toNat_eq (by omega)) hne
        · exact fun _ => ⟨BitVec.le_refl _, BitVec.le_trans hmin hmax⟩
      · exact fun _ => h.cur

/-- In every sequence of calls in which no sum exceeds its word, the requested frequency is kept within the limits and the
idle correction is exact, just if every decrease has a step of room. -/
theorem cs_dbs_update_right (lo hi : U32) {calls : List CsCall} {s : CsDbs}
    (h : Along (fun c s => some (c.csDbsUpdate lo hi s)) (fun c s => c.freqStep ≠ 0 → c.Tame lo hi s) calls s) :
    Along (fun c s => some (c.csDbsUpdate lo hi s)) (fun c s => c.Right lo hi s) calls s ↔
      Along (fun c s => some (c.csDbsUpdate lo hi s)) (fun c s => c.freqStep ≠ 0 → c.HasRoom lo hi s) calls s := by
  induction calls generalizing s with
  | nil => exact Iff.rfl
  | cons c calls ih =>
    refine and_congr ⟨fun hright hstep => hright.hasRoom hstep (h.1 hstep), right_of_tame h.1⟩ ?_
    exact forall₂_congr fun s' hs => ih (h.2 s' hs)

/-- The defaults, with a step of 100 MHz up to 2 GHz, at a low load -/
def low : CsCall := ⟨5, 80, 20, 1, 1000000, 10, .allOnes 32⟩

/-- Two steps down to the minimum, a rest there, three steps up, and two idle periods. -/
def lowRun : List CsCall :=
  [low, low, low, { low with load := 90 }, { low with load := 90 }, { low with load := 90 },
    { low with idlePeriods := 2, load := 50 }, { low with load := 90, idlePeriods := 1 }]

theorem cs_dbs_update_right_low :
    run (fun c s => some (CsCall.csDbsUpdate 800000 2000000 c s)) lowRun ⟨1000000, 0⟩ = some ⟨1100000, 0⟩ ∧
    Along (fun c s => some (c.csDbsUpdate 800000 2000000 s)) (fun c s => c.Right 800000 2000000 s) lowRun ⟨1000000, 0⟩ :=
  ⟨by decide, (cs_dbs_update_right _ _ (by decide +kernel)).2 (by decide +kernel)⟩

/-- 50 MHz above the minimum, a step down goes 50 MHz below it. -/
theorem below_min : (low.csDbsUpdate 800000 2000000 ⟨850000, 0⟩).requestedFreq = 750000 := by decide

end CsCall

end KernelSched.Cpufreq
