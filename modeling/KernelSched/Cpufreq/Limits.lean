import Mathlib.Order.Bounds.Basic
import KernelSched.Cpufreq.Target

/-!
# Frequency lookups and the limits of the policy

The target of a lookup is clamped to the limits, but what the scan of a table finds need not be. A scan that passes over
the inefficient entries takes the next efficient one, wherever it is; the scan without the flag is tried only where there
is no efficient entry at all. `selected_inLimits_iff` says which limits are safe: of the efficient frequencies one is
within the limits, and each limit is itself efficient or has none of them beyond it.

Without the flag the selected frequency does not depend on the order of the table, but for one case
(`selected_order_free`): of two that are equally close to the target, an ascending table gives the lower one, any other
the higher one.
-/

namespace KernelSched.Cpufreq

open Scan List FreqTable

/-- The limits of a policy, both frequencies of its table -/
structure Policy.Limited (p : Policy) (T : FreqTable) : Prop where
  accepted : p.Accepted T
  min_mem : p.min ∈ T.validFrequencies
  max_mem : p.max ∈ T.validFrequencies
  le : p.min ≤ p.max

variable {p : Policy} {T : FreqTable} {target : ℕ} {f : ℕ} {l : List ℕ} {s : TableSorting}

theorem clamp_eq (p : Policy) (target : ℕ) : p.clamp target = min (max target p.min) p.max := rfl

theorem clamp_bounds (hle : p.min ≤ p.max) (target : ℕ) : p.min ≤ p.clamp target ∧ p.clamp target ≤ p.max := by
  rw [clamp_eq]
  omega

theorem clamp_of_mem (hmin : p.min ≤ f) (hmax : f ≤ p.max) : p.clamp f = f := by
  rw [clamp_eq]
  omega

theorem mem_withinLimits : f ∈ (withinLimits p T).map freq ↔ f ∈ T.validFrequencies ∧ p.min ≤ f ∧ f ≤ p.max := by
  simp only [withinLimits, FreqTable.validFrequencies, mem_map, mem_filter, Bool.and_eq_true, decide_eq_true_eq]
  constructor
  · rintro ⟨x, ⟨hx, hlimits⟩, rfl⟩
    exact ⟨⟨x, hx, rfl⟩, hlimits⟩
  · rintro ⟨⟨x, hx, rfl⟩, hlimits⟩
    exact ⟨x, ⟨hx, hlimits⟩, rfl⟩

namespace Policy.Limited

theorem validEntries_ne_nil (h : p.Limited T) : T.validEntries ≠ [] := by
  rintro hnil
  have hmem := h.min_mem
  rw [FreqTable.validFrequencies, hnil] at hmem
  cases hmem

theorem within_ne_nil (h : p.Limited T) : withinLimits p T ≠ [] := by
  intro hnil
  have hmem := mem_withinLimits.2 ⟨h.min_mem, le_refl _, h.le⟩
  rw [hnil] at hmem
  cases hmem

end Policy.Limited

/-! ## Within the limits -/

def InLimits (p : Policy) (f : Option ℕ) : Prop := ∃ f', f = some f' ∧ p.min ≤ f' ∧ f' ≤ p.max

/-- One of the frequencies is within the limits, and each limit is one of them or has none beyond it. -/
structure Covers (p : Policy) (l : List ℕ) : Prop where
  max : p.max ∈ l ∨ ∀ x ∈ l, x ≤ p.max
  min : p.min ∈ l ∨ ∀ x ∈ l, p.min ≤ x
  within : ∃ x ∈ l, p.min ≤ x ∧ x ≤ p.max

theorem Policy.Limited.covers (h : p.Limited T) : Covers p T.validFrequencies :=
  ⟨.inl h.max_mem, .inl h.min_mem, p.min, h.min_mem, le_refl _, h.le⟩

theorem Covers.picks (h : Covers p l) {t : ℕ} {rel : Relation} (hmin : p.min ≤ t)
    (hmax : t ≤ p.max) (hf : Picks s t l f rel) : p.min ≤ f ∧ f ≤ p.max := by
  obtain ⟨x, hx, hxmin, hxmax⟩ := h.within
  cases rel with
  | L =>
    have hlast : p.max ∈ l ∨ ∀ y ∈ l, ¬ p.max < y := h.max.imp_right fun hall y hy => not_lt.2 (hall y hy)
    have hlo : ¬ t < p.min := by omega
    have := hf.between hlo (not_lt.2 hmax) hlast ⟨x, hx, by omega, by omega⟩
    omega
  | H =>
    have hlast : p.min ∈ l ∨ ∀ y ∈ l, ¬ p.min > y := h.min.imp_right fun hall y hy => not_lt.2 (hall y hy)
    have hlo : ¬ t > p.max := by omega
    have := hf.between hlo (not_lt.2 hmin) hlast ⟨x, hx, by omega, by omega⟩
    omega
  | C =>
    -- a frequency beyond a limit is further from the target than the limit itself
    have hfmin : p.min ∈ l → Nat.dist t f ≤ Nat.dist t p.min := hf.le p.min
    have hfmax : p.max ∈ l → Nat.dist t f ≤ Nat.dist t p.max := hf.le p.max
    simp only [Nat.dist] at hfmin hfmax
    constructor
    · obtain hmem | hnone := h.min
      · have := hfmin hmem
        by_contra hlt
        omega
      · exact hnone f hf.mem
    · obtain hmem | hnone := h.max
      · have := hfmax hmem
        by_contra hlt
        omega
      · exact hnone f hf.mem

/-- Where every lookup stays within the limits, the frequencies that are scanned cover them. -/
theorem covers_of_picks
    (hle : p.min ≤ p.max) (h : ∀ t rel, p.min ≤ t → t ≤ p.max → ∃ f, Picks s t l f rel ∧ p.min ≤ f ∧ f ≤ p.max) :
    Covers p l := by
  obtain ⟨f, hf, hfmin, hfmax⟩ := h p.max .L hle (le_refl _)
  obtain ⟨g, hg, hgmin, hgmax⟩ := h p.min .H (le_refl _) hle
  refine ⟨?_, ?_, f, hf.mem, hfmin, hfmax⟩
  · by_contra hnot
    push Not at hnot
    obtain ⟨hmem, x, hx, hlt⟩ := hnot
    have hreach := hf.reaches ⟨x, hx, by omega⟩
    have heq : f = p.max := by omega
    exact hmem (heq ▸ hf.mem)
  · by_contra hnot
    push Not at hnot
    obtain ⟨hmem, x, hx, hlt⟩ := hnot
    have hreach := hg.reaches ⟨x, hx, by omega⟩
    have heq : g = p.min := by omega
    exact hmem (heq ▸ hg.mem)

theorem unsorted_inLimits (h : p.Limited T) (hunsorted : p.freqTableSorted = .unsorted) (target : ℕ) (rel : Relation)
    (relationE : Bool) : InLimits p (selected p T target rel relationE) := by
  have hindex : ∃ x ∈ withinLimits p T, cpufreqTableIndexUnsorted p T target rel = x.2 := by
    cases rel with
    | L =>
      obtain ⟨x, hx, hindex, -⟩ := index_selects_L target h.within_ne_nil
      exact ⟨x, hx, hindex⟩
    | H =>
      obtain ⟨x, hx, hindex, -⟩ := index_selects_H target h.within_ne_nil
      exact ⟨x, hx, hindex⟩
    | C =>
      obtain ⟨x, hx, hindex, -⟩ := index_closest target h.within_ne_nil
      exact ⟨x, hx, hindex⟩
  obtain ⟨x, hx, hindex⟩ := hindex
  have hlimits := mem_withinLimits.1 (mem_map_of_mem hx)
  refine ⟨freq x, ?_, hlimits.2⟩
  rw [selected, cpufreqFrequencyTableTarget, if_pos hunsorted, hindex]
  exact frequencyAt_of_mem (mem_valid_of_within hx)

theorem resolveFreq_eq (hT : p.freqTable = some T) (target : ℕ) (rel : Relation) (relationE : Bool) :
    (resolveFreq p target rel relationE).2 = selected p T (p.clamp target) rel relationE := by
  unfold resolveFreq selected
  rw [hT]
  dsimp only
  cases cpufreqFrequencyTableTarget p T (p.clamp target) rel relationE <;> rfl

/-- The limits are safe for a scan that passes over the inefficient entries. -/
def SafeLimits (p : Policy) (T : FreqTable) : Prop :=
  p.freqTableSorted = .unsorted ∨ p.efficienciesAvailable = false ∨ T.scanned true = [] ∨ Covers p (T.scanned true)

theorem selected_inLimits (h : p.Limited T) (hsafe : SafeLimits p T) (target : ℕ) (rel : Relation) (relationE : Bool) :
    InLimits p (selected p T target rel relationE) := by
  by_cases hunsorted : p.freqTableSorted = .unsorted
  · exact unsorted_inLimits h hunsorted target rel relationE
  · obtain ⟨f, hf, hpicks⟩ := selected_picks h.accepted hunsorted h.validEntries_ne_nil target rel relationE
    obtain ⟨hmin, hmax⟩ := clamp_bounds h.le target
    refine ⟨f, hf, ?_⟩
    cases hpass : p.passesOver T relationE with
    | false =>
      rw [hpass, scanned_false] at hpicks
      exact h.covers.picks hmin hmax hpicks
    | true =>
      rw [hpass] at hpicks
      simp only [Policy.passesOver, Bool.and_eq_true, Bool.not_eq_true', isEmpty_eq_false_iff] at hpass
      obtain hs | hs | hs | hs := hsafe
      · exact absurd hs hunsorted
      · simp [hpass.1.1] at hs
      · exact absurd (map_eq_nil_iff.1 hs) hpass.2
      · exact hs.picks hmin hmax hpicks

/-- Every lookup, by whatever relation and for whatever target, stays within the limits exactly when they are safe. -/
theorem selected_inLimits_iff (h : p.Limited T) :
    (∀ target rel relationE, InLimits p (selected p T target rel relationE) ∧
      InLimits p (resolveFreq p target rel relationE).2) ↔ SafeLimits p T := by
  constructor
  · intro hall
    by_cases hunsorted : p.freqTableSorted = .unsorted
    · exact .inl hunsorted
    cases havail : p.efficienciesAvailable with
    | false => exact .inr (.inl havail)
    | true =>
      by_cases hnil : T.efficientEntries true = []
      · exact .inr (.inr (.inl (by simp [FreqTable.scanned, hnil])))
      · have hpass : p.passesOver T true = true := by
          simp [Policy.passesOver, havail, isEmpty_eq_false_iff.2 hnil]
        refine .inr (.inr (.inr (covers_of_picks (s := p.freqTableSorted) h.le ?_)))
        intro t rel hmin hmax
        obtain ⟨f, hf, hpicks⟩ := selected_picks h.accepted hunsorted h.validEntries_ne_nil t rel true
        rw [hpass, clamp_of_mem hmin hmax] at hpicks
        obtain ⟨f', hf', hlimits⟩ := (hall t rel true).1
        obtain rfl : f = f' := Option.some.inj (hf.symm.trans hf')
        exact ⟨f, hpicks, hlimits⟩
  · intro hsafe target rel relationE
    rw [resolveFreq_eq h.accepted.1]
    exact ⟨selected_inLimits h hsafe target rel relationE, selected_inLimits h hsafe _ rel relationE⟩

section

/-- 1 GHz, which is inefficient, and 2 GHz -/
def twoSteps : FreqTable where
  entries := [⟨false, true, 1000000⟩, ⟨false, false, 2000000⟩]
  word := by decide
  noEnd := by decide
  short := by decide

/-- A policy with one frequency, within `twoSteps` -/
def capped (khz : ℕ) : Policy := ⟨khz, khz, 1000000, 2000000, some twoSteps, .sortedAscending, true, 0, 0⟩

theorem capped_accepted (khz : ℕ) : (capped khz).Accepted twoSteps :=
  ⟨rfl, true, true, capped khz, twoSteps, rfl, rfl, rfl, rfl⟩

/-- Capped to 1 GHz, a CPU is run at 2 GHz. -/
theorem selected_beyond_max : (capped 1000000).Limited twoSteps ∧
    selected (capped 1000000) twoSteps 1000000 .L true = some 2000000 ∧
    ¬ InLimits (capped 1000000) (resolveFreq (capped 1000000) 1000000 .L true).2 := by
  have hresolve : (resolveFreq (capped 1000000) 1000000 .L true).2 = some 2000000 := by decide
  refine ⟨⟨capped_accepted _, by decide, by decide, by decide⟩, by decide, ?_⟩
  rintro ⟨f, hf, -, hmax⟩
  cases hf
  exact absurd hmax (by decide)

/-- With the efficient frequency for both limits, nothing goes wrong. -/
theorem selected_inLimits_capped : (capped 2000000).Limited twoSteps ∧
    ∀ target rel relationE, InLimits (capped 2000000) (selected (capped 2000000) twoSteps target rel relationE) ∧
      InLimits (capped 2000000) (resolveFreq (capped 2000000) target rel relationE).2 := by
  have hlimited : (capped 2000000).Limited twoSteps := ⟨capped_accepted _, by decide, by decide, by decide⟩
  have hcovers : Covers (capped 2000000) (twoSteps.scanned true) :=
    ⟨.inl (by decide), .inl (by decide), 2000000, by decide, by decide, by decide⟩
  exact ⟨hlimited, (selected_inLimits_iff hlimited).2 (.inr (.inr (.inr hcovers)))⟩

end

/-! ## Independent of the order -/

theorem selected_of_index {x : Entry × ℕ} {rel : Relation} (hx : x ∈ withinLimits p T)
    (hunsorted : p.freqTableSorted = .unsorted)
    (hindex : cpufreqTableIndexUnsorted p T target rel = x.2) (relationE : Bool) :
    selected p T target rel relationE = some (freq x) := by
  rw [selected, cpufreqFrequencyTableTarget, if_pos hunsorted, hindex]
  exact frequencyAt_of_mem (mem_valid_of_within hx)

theorem selected_sorted (h : p.Limited T) (hsorted : p.freqTableSorted ≠ .unsorted) (target : ℕ) (rel : Relation) :
    ∃ f, selected p T target rel false = some f ∧
      Picks p.freqTableSorted (p.clamp target) T.validFrequencies f rel := by
  obtain ⟨f, hf, hpicks⟩ := selected_picks h.accepted hsorted h.validEntries_ne_nil target rel false
  refine ⟨f, hf, ?_⟩
  simpa [Policy.passesOver] using hpicks

theorem clamped_up (hle : p.min ≤ p.max) (target : ℕ) : Clamped (· < ·) p.min p.max target (p.clamp target) := by
  unfold Clamped
  rw [clamp_eq]
  omega

theorem clamped_down (hle : p.min ≤ p.max) (target : ℕ) : Clamped (· > ·) p.max p.min target (p.clamp target) := by
  unfold Clamped
  rw [clamp_eq]
  omega

/-- The target of a lookup in a table in no order is within the limits, or so close to all frequencies there that their
differences are not cut. -/
def InReach (p : Policy) (T : FreqTable) (target : ℕ) : Prop :=
  target < 2 ^ 32 ∧ (p.min ≤ target ∧ target ≤ p.max ∨
    ∀ f ∈ T.validFrequencies, p.min ≤ f → f ≤ p.max → Nat.dist target f < 2 ^ 31)

theorem absDiff_cases (hf : f < 2 ^ 32) (htarget : target < 2 ^ 32) :
    absDiff f target = Nat.dist target f ∧ Nat.dist target f < 2 ^ 31 ∨
      absDiff f target = 2 ^ 32 - Nat.dist target f ∧ 2 ^ 31 ≤ Nat.dist target f := by
  unfold absDiff
  simp only [Nat.dist]
  split <;> omega

theorem absDiff_le_dist (hf : f < 2 ^ 32) (htarget : target < 2 ^ 32) : absDiff f target ≤ Nat.dist target f := by
  obtain h | h := absDiff_cases hf htarget <;> omega

theorem validFrequencies_lt (hf : f ∈ T.validFrequencies) : f < 2 ^ 32 := by
  obtain ⟨x, hx, rfl⟩ := mem_map.1 hf
  exact freq_lt hx

theorem nearest_self (h : f ∈ l) : Nearest (· > ·) (Nat.dist f) l f := by
  refine ⟨h, fun x _ => ?_, fun x _ htie => ?_⟩
  all_goals
    simp only [Nat.dist] at *
    omega

section

variable (h : p.Limited T)

include h

/-- What is closest to the target within the limits is the closest of all frequencies to the clamped target. -/
theorem nearest_clamp (hf : f ∈ T.validFrequencies ∧ p.min ≤ f ∧ f ≤ p.max)
    (hnear : ∀ x ∈ T.validFrequencies, p.min ≤ x → x ≤ p.max →
      Nat.dist target f ≤ Nat.dist target x ∧ (Nat.dist target x = Nat.dist target f → x ≤ f)) :
    Nearest (· > ·) (Nat.dist (p.clamp target)) T.validFrequencies f := by
  have hmin := (hnear p.min h.min_mem (le_refl _) h.le).1
  have hmax := (hnear p.max h.max_mem h.le (le_refl _)).1
  obtain ⟨hmem, hfmin, hfmax⟩ := hf
  simp only [Nat.dist] at hmin hmax
  obtain ⟨ht, heq⟩ | ⟨ht, heq⟩ | ⟨hlo, hhi, heq⟩ := clamped_up h.le target
  -- beyond a limit, that limit is the closest
  · obtain rfl : f = p.min := by omega
    rw [heq]
    exact nearest_self hmem
  · obtain rfl : f = p.max := by omega
    rw [heq]
    exact nearest_self hmem
  · rw [heq]
    refine ⟨hmem, fun x hx => ?_, fun x hx htie => ?_⟩
    all_goals
      have hx := hnear x hx
      simp only [Nat.dist] at *
      omega

theorem absDiff_of_nearest (hreach : InReach p T target) (hf : f ∈ T.validFrequencies ∧ p.min ≤ f ∧ f ≤ p.max)
    (hnear : ∀ x ∈ T.validFrequencies, p.min ≤ x → x ≤ p.max → absDiff f target ≤ absDiff x target) :
    absDiff f target = Nat.dist target f := by
  obtain ⟨htarget, hreach⟩ := hreach
  have hword := validFrequencies_lt hf.1
  obtain ⟨heq, -⟩ | ⟨hcut, hfar⟩ := absDiff_cases hword htarget
  · exact heq
  obtain ⟨hmin, hmax⟩ | hclose := hreach
  · have hlo := (hnear p.min h.min_mem (le_refl _) h.le).trans (absDiff_le_dist (validFrequencies_lt h.min_mem) htarget)
    have hhi := (hnear p.max h.max_mem h.le (le_refl _)).trans (absDiff_le_dist (validFrequencies_lt h.max_mem) htarget)
    have hword' := validFrequencies_lt h.max_mem
    rw [hcut] at hlo hhi
    simp only [Nat.dist] at hlo hhi hfar
    omega
  · have := hclose f hf.1 hf.2.1 hf.2.2
    omega

/-- A lookup in a table in no order finds what one in an ordered table is to find. -/
theorem selected_unsorted (hunsorted : p.freqTableSorted = .unsorted) (target : ℕ) (rel : Relation)
    (hreach : rel = .C → InReach p T target) : ∃ f, selected p T target rel false = some f ∧
      Picks .unsorted (p.clamp target) T.validFrequencies f rel := by
  have hle := h.le
  cases rel with
  | L =>
    obtain ⟨x, hx, hindex, hsel⟩ := index_selects_L target h.within_ne_nil
    refine ⟨freq x, selected_of_index hx hunsorted hindex false, ?_⟩
    refine hsel.clamp h.min_mem h.max_mem (not_lt.2 hle) ?_ (clamped_up hle target)
    intro f
    rw [mem_withinLimits, not_lt, not_lt]
  | H =>
    obtain ⟨x, hx, hindex, hsel⟩ := index_selects_H target h.within_ne_nil
    refine ⟨freq x, selected_of_index hx hunsorted hindex false, ?_⟩
    refine hsel.clamp h.max_mem h.min_mem (not_lt.2 hle) ?_ (clamped_down hle target)
    intro f
    rw [mem_withinLimits, gt_iff_lt, gt_iff_lt, not_lt, not_lt, and_comm (a := p.min ≤ f)]
  | C =>
    have hreach := hreach rfl
    obtain ⟨x, hx, hindex, hnear⟩ := index_closest target h.within_ne_nil
    refine ⟨freq x, selected_of_index hx hunsorted hindex false, ?_⟩
    have hxs := mem_withinLimits.1 (mem_map_of_mem hx)
    refine nearest_clamp h hxs ?_
    intro f hf hmin hmax
    obtain rfl | hnear := hnear
    · simp only [Nat.dist]
      omega
    · have hle : ∀ y ∈ T.validFrequencies, p.min ≤ y → y ≤ p.max → absDiff (freq x) target ≤ absDiff y target :=
        fun y hy hymin hymax => hnear.le y (mem_withinLimits.2 ⟨hy, hymin, hymax⟩)
      have hx := absDiff_of_nearest h hreach hxs hle
      have hfx := hle f hf hmin hmax
      have htie := hnear.tie f (mem_withinLimits.2 ⟨hf, hmin, hmax⟩)
      have hcut := absDiff_le_dist (validFrequencies_lt hf) hreach.1
      constructor
      · omega
      · intro heq
        exact not_lt.1 (htie (by omega))

/-- Without the flag, what a lookup selects does not depend on the order of the table. -/
theorem selected_spec (target : ℕ) (rel : Relation)
    (hreach : p.freqTableSorted = .unsorted → rel = .C → InReach p T target) :
      ∃ f, selected p T target rel false = some f ∧
      Picks p.freqTableSorted (p.clamp target) T.validFrequencies f rel := by
  by_cases hunsorted : p.freqTableSorted = .unsorted
  · rw [hunsorted]
    exact selected_unsorted h hunsorted target rel (hreach hunsorted)
  · exact selected_sorted h hunsorted target rel

theorem selected_L (target : ℕ) : ∃ f, selected p T target .L false = some f ∧
    IsLeast {x | x ∈ T.validFrequencies ∧ p.clamp target ≤ x} f := by
  obtain ⟨f, hf, hsel⟩ := selected_spec h target .L (by simp)
  have hmax := (clamp_bounds h.le target).2
  have hreach := hsel.reaches ⟨p.max, h.max_mem, not_lt.2 hmax⟩
  refine ⟨f, hf, ⟨hsel.mem, not_lt.1 hreach⟩, ?_⟩
  rintro x ⟨hx, hxt⟩
  exact not_lt.1 (hsel.first x hx (not_lt.2 hxt))

theorem selected_H (target : ℕ) : ∃ f, selected p T target .H false = some f ∧
    IsGreatest {x | x ∈ T.validFrequencies ∧ x ≤ p.clamp target} f := by
  obtain ⟨f, hf, hsel⟩ := selected_spec h target .H (by simp)
  have hmin := (clamp_bounds h.le target).1
  have hreach := hsel.reaches ⟨p.min, h.min_mem, not_lt.2 hmin⟩
  refine ⟨f, hf, ⟨hsel.mem, not_lt.1 hreach⟩, ?_⟩
  rintro x ⟨hx, hxt⟩
  exact not_lt.1 (hsel.first x hx (not_lt.2 hxt))

end

/-- Two closest frequencies are the same, or on both sides of the target when only one of the tables is ascending. -/
theorem same_or_tie {s' : TableSorting} {t f' : ℕ} (h : Nearest (tieOrder s) (Nat.dist t) l f)
    (h' : Nearest (tieOrder s') (Nat.dist t) l f') :
    f = f' ∨ f + f' = 2 * t ∧ (s = .sortedAscending ↔ s' ≠ .sortedAscending) := by
  have heq : Nat.dist t f = Nat.dist t f' := le_antisymm (h.le f' h'.mem) (h'.le f h.mem)
  have htie := h.tie f' h'.mem heq.symm
  have htie' := h'.tie f h.mem heq
  simp only [Nat.dist] at heq
  cases s <;> cases s' <;> simp [tieOrder] at htie htie' ⊢ <;> omega

/-- Two tables of the same frequencies, each in its own order: the relations L and H select the same frequency, the
lowest one at or above the clamped target and the highest one at or below it. The relation C selects a closest one each
time; where two are equally close, each table by its own rule. -/
theorem selected_order_free {p' : Policy} {T' : FreqTable} (h : p.Limited T) (h' : p'.Limited T')
    (hsame : ∀ f, f ∈ T.validFrequencies ↔ f ∈ T'.validFrequencies) (hmin : p.min = p'.min) (hmax : p.max = p'.max)
    (target : ℕ) :
    (∃ f, selected p T target .L false = some f ∧ selected p' T' target .L false = some f ∧
      IsLeast {x | x ∈ T.validFrequencies ∧ p.clamp target ≤ x} f) ∧
    (∃ f, selected p T target .H false = some f ∧ selected p' T' target .H false = some f ∧
      IsGreatest {x | x ∈ T.validFrequencies ∧ x ≤ p.clamp target} f) ∧
    ((p.freqTableSorted = .unsorted ∨ p'.freqTableSorted = .unsorted → InReach p T target) →
      ∃ f f', selected p T target .C false = some f ∧ selected p' T' target .C false = some f' ∧
        Nearest (tieOrder p.freqTableSorted) (Nat.dist (p.clamp target)) T.validFrequencies f ∧
        Nearest (tieOrder p'.freqTableSorted) (Nat.dist (p.clamp target)) T.validFrequencies f' ∧
        (f = f' ∨ f + f' = 2 * p.clamp target ∧
          (p.freqTableSorted = .sortedAscending ↔ p'.freqTableSorted ≠ .sortedAscending))) := by
  have hclamp : p'.clamp target = p.clamp target := by rw [clamp_eq, clamp_eq, hmin, hmax]
  refine ⟨?_, ?_, ?_⟩
  · obtain ⟨f, hf, hleast⟩ := selected_L h target
    obtain ⟨f', hf', hleast'⟩ := selected_L h' target
    simp only [← hsame, hclamp] at hleast'
    exact ⟨f, hf, hleast'.unique hleast ▸ hf', hleast⟩
  · obtain ⟨f, hf, hgreatest⟩ := selected_H h target
    obtain ⟨f', hf', hgreatest'⟩ := selected_H h' target
    simp only [← hsame, hclamp] at hgreatest'
    exact ⟨f, hf, hgreatest'.unique hgreatest ▸ hf', hgreatest⟩
  · intro hreach
    have hreach' : p'.freqTableSorted = .unsorted → InReach p' T' target := by
      intro hunsorted
      obtain ⟨htarget, hlimits⟩ := hreach (.inr hunsorted)
      refine ⟨htarget, hlimits.imp (fun h => by omega) fun h f hf hfmin hfmax => h f ((hsame f).2 hf) ?_ ?_⟩ <;> omega
    obtain ⟨f, hf, hnear⟩ := selected_spec h target .C fun hunsorted _ => hreach (.inl hunsorted)
    obtain ⟨f', hf', hnear'⟩ := selected_spec h' target .C fun hunsorted _ => hreach' hunsorted
    have hnear' : Nearest (tieOrder p'.freqTableSorted) (Nat.dist (p.clamp target)) T.validFrequencies f' := by
      rw [hclamp] at hnear'
      exact ⟨(hsame f').2 hnear'.mem, fun x hx => hnear'.le x ((hsame x).1 hx), fun x hx => hnear'.tie x ((hsame x).1 hx)⟩
    exact ⟨f, f', hf, hf', hnear, hnear', same_or_tie hnear hnear'⟩

section

/-- The frequencies 1, 2 and 4 GHz in two orders, with an invalid entry in one of them -/
def ascending : FreqTable where
  entries := [⟨false, false, 1000000⟩, ⟨false, false, 2000000⟩, ⟨false, false, entryInvalid⟩, ⟨false, false, 4000000⟩]
  word := by decide
  noEnd := by decide
  short := by decide

def descending : FreqTable where
  entries := [⟨false, false, 4000000⟩, ⟨false, false, 2000000⟩, ⟨false, false, 1000000⟩]
  word := by decide
  noEnd := by decide
  short := by decide

def unlimited (T : FreqTable) (s : TableSorting) : Policy := ⟨1000000, 4000000, 1000000, 4000000, some T, s, false, 0, 0⟩

theorem limited_ascending : (unlimited ascending .sortedAscending).Limited ascending :=
  ⟨⟨rfl, true, true, unlimited ascending .unsorted, ascending, rfl, rfl, rfl, rfl⟩, by decide, by decide, by decide⟩

theorem limited_descending : (unlimited descending .sortedDescending).Limited descending :=
  ⟨⟨rfl, true, true, unlimited descending .unsorted, descending, rfl, rfl, rfl, rfl⟩, by decide, by decide, by decide⟩

theorem same_frequencies (f : ℕ) : f ∈ ascending.validFrequencies ↔ f ∈ descending.validFrequencies := by
  have hup : ascending.validFrequencies = [1000000, 2000000, 4000000] := by decide
  have hdown : descending.validFrequencies = [4000000, 2000000, 1000000] := by decide
  rw [hup, hdown]
  simp only [mem_cons, not_mem_nil, or_false]
  omega

/-- Frequencies whose differences do not fit into an `int` -/
def wide : FreqTable where
  entries := [⟨false, false, 250⟩, ⟨false, false, 4294967246⟩, ⟨false, false, 260⟩]
  word := by decide
  noEnd := by decide
  short := by decide

def widePolicy : Policy := ⟨250, 4294967246, 250, 4294967246, some wide, .unsorted, false, 0, 0⟩

theorem limited_wide : widePolicy.Limited wide :=
  ⟨⟨rfl, true, true, widePolicy, wide, rfl, rfl, rfl, rfl⟩, by decide, by decide, by decide⟩

/-- 3 GHz is as far from 2 GHz as it is from 4 GHz. And a target of 50 kHz that is not clamped gives 4 THz. -/
theorem closest_by_order : (unlimited ascending .sortedAscending).Limited ascending ∧
    (unlimited descending .sortedDescending).Limited descending ∧
    (∀ f, f ∈ ascending.validFrequencies ↔ f ∈ descending.validFrequencies) ∧
    selected (unlimited ascending .sortedAscending) ascending 3000000 .C false = some 2000000 ∧
    selected (unlimited descending .sortedDescending) descending 3000000 .C false = some 4000000 ∧
    widePolicy.Limited wide ∧ selected widePolicy wide 50 .C false = some 4294967246 :=
  ⟨limited_ascending, limited_descending, same_frequencies, by decide, by decide, limited_wide, by decide⟩

theorem selected_either_order : ∃ f, selected (unlimited ascending .sortedAscending) ascending 2500000 .L false = some f ∧
    selected (unlimited descending .sortedDescending) descending 2500000 .L false = some f :=
  let ⟨f, hf, hf', _⟩ := (selected_order_free limited_ascending limited_descending same_frequencies rfl rfl 2500000).1
  ⟨f, hf, hf'⟩

end

end KernelSched.Cpufreq
