import Mathlib.Data.Nat.Dist
import KernelSched.Cpufreq.Table

/-!
# Which frequency a table lookup selects

The flag that `set_freq_table_sorted` computes says the truth about the order of the valid frequencies
(`Policy.Accepted.ordered`), so that each of the six scans finds what its relation asks for (`Picks`, `selected_picks`).
The seventh routine, for a table in no order, keeps the best frequency on either side of the target in two slots
(`index_selects_L`, `index_selects_H`), or the one with the smallest difference in one (`index_closest`).
-/

namespace KernelSched.Cpufreq

open Scan List FreqTable

/-! ## Tables -/

namespace FreqTable

variable (T : FreqTable)

def validFrequencies : List ℕ := T.validEntries.map freq

/-- The frequencies that a scan goes through -/
def scanned (efficiencies : Bool) : List ℕ := (T.efficientEntries efficiencies).map freq

variable {T}

section

variable {x : Entry × ℕ} (hx : x ∈ T.validEntries)

include hx

theorem getElem_of_mem_valid : T.entries[x.2]? = some x.1 :=
  mem_zipIdx_iff_getElem?.1 (mem_of_mem_filter hx)

theorem frequencyAt_of_mem : T.frequencyAt x.2 = some (freq x) := by
  rw [frequencyAt, getElem_of_mem_valid hx]
  rfl

theorem index_lt : x.2 < T.entries.length :=
  (List.getElem?_eq_some_iff.1 (getElem_of_mem_valid hx)).1

theorem freq_lt : freq x < 2 ^ 32 :=
  T.word x.1 (mem_of_getElem? (getElem_of_mem_valid hx))

end

@[simp] theorem efficientEntries_false : T.efficientEntries false = T.validEntries := by simp [efficientEntries]

@[simp] theorem scanned_false : T.scanned false = T.validFrequencies := by simp [scanned, validFrequencies]

theorem validFrequencies_eq (T : FreqTable) :
    T.validFrequencies = (T.entries.map Entry.frequency).filter fun f => decide (f ≠ entryInvalid) := by
  have hzip : T.entries.map Entry.frequency = T.entries.zipIdx.map freq := by
    conv_lhs => rw [← zipIdx_map_fst 0 T.entries]
    rw [map_map]
    rfl
  rw [hzip, filter_map]
  rfl

end FreqTable

/-! ## The order of a table -/

def Ordered : TableSorting → List ℕ → Prop
  | .unsorted, _ => True
  | .sortedAscending, l => l.IsChain (· < ·)
  | .sortedDescending, l => l.IsChain (· > ·)

/-- What the flag says of the count of steps up and down -/
def Turned : TableSorting → ℤ → Prop
  | .unsorted, _ => True
  | .sortedAscending, ascending => 0 ≤ ascending
  | .sortedDescending, ascending => ascending ≤ 0

theorem sortedLoop_ordered : ∀ {fs : List ℕ} {prev : ℕ} {ascending : ℤ} {s : TableSorting},
    sortedLoop fs (some prev) ascending = .ok s → Turned s ascending ∧ Ordered s (prev :: fs)
  | [], prev, ascending, s, h => by
    simp only [sortedLoop] at h
    split at h
    all_goals
      cases h
      exact ⟨by simp only [Turned]; omega, .singleton prev⟩
  | f :: fs, prev, ascending, s, h => by
    simp only [sortedLoop] at h
    split at h
    · cases h
    · split at h
      -- a step up
      · split at h
        · cases h
          exact ⟨trivial, trivial⟩
        · obtain ⟨hturn, hord⟩ := sortedLoop_ordered h
          cases s with
          | unsorted => exact ⟨trivial, trivial⟩
          | sortedAscending => exact ⟨by simp only [Turned] at *; omega, .cons_cons (by assumption) hord⟩
          | sortedDescending => simp only [Turned] at hturn; omega
      -- a step down
      · split at h
        · cases h
          exact ⟨trivial, trivial⟩
        · obtain ⟨hturn, hord⟩ := sortedLoop_ordered h
          cases s with
          | unsorted => exact ⟨trivial, trivial⟩
          | sortedAscending => simp only [Turned] at hturn; omega
          | sortedDescending => exact ⟨by simp only [Turned] at *; omega, .cons_cons (by omega) hord⟩

theorem ordered_of_sortedLoop {fs : List ℕ} {s : TableSorting} (h : sortedLoop fs none 0 = .ok s) : Ordered s fs := by
  cases fs with
  | nil => cases s <;> first | trivial | exact .nil
  | cons f fs => exact (sortedLoop_ordered h).2

/-- The policy's flag is what `cpufreq_table_validate_and_sort` has set, when it accepted the frequencies of the table;
entries may have been marked since. -/
def Policy.Accepted (p : Policy) (T : FreqTable) : Prop :=
  p.freqTable = some T ∧ ∃ hasTargetIndex boostEnabled, ∃ p₀ : Policy, ∃ T₀ : FreqTable, p₀.freqTable = some T₀ ∧
    T₀.entries.map Entry.frequency = T.entries.map Entry.frequency ∧
    (cpufreqTableValidateAndSort hasTargetIndex boostEnabled p₀).2 = none ∧
    p.freqTableSorted = (cpufreqTableValidateAndSort hasTargetIndex boostEnabled p₀).1.freqTableSorted

variable {T : FreqTable} {p : Policy}

theorem sortedLoop_of_set (h : (setFreqTableSorted p T).2 = none) :
    sortedLoop T.validFrequencies none 0 = .ok (setFreqTableSorted p T).1.freqTableSorted := by
  unfold setFreqTableSorted at h ⊢
  show sortedLoop (T.validEntries.map fun x => x.1.frequency) none 0 = _
  split at h
  case h_1 sorting hs => rw [hs]
  case h_2 => cases h

theorem Policy.Accepted.ordered (h : p.Accepted T) : Ordered p.freqTableSorted T.validFrequencies := by
  obtain ⟨-, hasTargetIndex, boostEnabled, p₀, T₀, hT₀, hfreqs, hok, hsorted⟩ := h
  have hsame : T.validFrequencies = T₀.validFrequencies := by
    rw [T.validFrequencies_eq, T₀.validFrequencies_eq, hfreqs]
  rw [hsame, hsorted]
  unfold cpufreqTableValidateAndSort at hok ⊢
  rw [hT₀] at hok ⊢
  dsimp only at hok ⊢
  generalize cpufreqFrequencyTableCpuinfo boostEnabled p₀ T₀ = r at *
  obtain ⟨p₁, errno⟩ := r
  cases errno with
  | some errno => cases hok
  | none => exact ordered_of_sortedLoop (sortedLoop_of_set hok)

theorem Ordered.efficientEntries {r : ℕ → ℕ → Prop} [IsTrans ℕ r] (h : T.validFrequencies.IsChain r)
    (efficiencies : Bool) : (T.efficientEntries efficiencies).Pairwise fun x y => r (freq x) (freq y) :=
  (pairwise_map.1 (isChain_iff_pairwise.1 h)).filter _

/-! ## Tables in order -/

/-- Of equally close frequencies, an ascending table gives the lower one, any other the higher one. -/
def tieOrder : TableSorting → ℕ → ℕ → Prop
  | .sortedAscending => (· < ·)
  | _ => (· > ·)

/-- What a relation asks for: the lowest frequency at or above `t` or else the highest; the highest at or below it or else
the lowest; a closest one. -/
def Picks (s : TableSorting) (t : ℕ) (l : List ℕ) (f : ℕ) : Relation → Prop
  | .L => Selects (· < ·) t l f
  | .H => Selects (· > ·) t l f
  | .C => Nearest (tieOrder s) (Nat.dist t) l f

theorem distance_up (t : ℕ) : Distance (· < ·) t (Nat.dist t) := by
  constructor
  all_goals
    intro x y hxy hy
    simp only [Nat.dist]
    omega

theorem distance_down (t : ℕ) : Distance (· > ·) t (Nat.dist t) := by
  constructor
  all_goals
    intro x y hxy hy
    simp only [Nat.dist]
    omega

theorem findIndex_picks (h : p.Accepted T) (hsorted : p.freqTableSorted ≠ .unsorted)
    (target : ℕ) {efficiencies : Bool} (hne : T.efficientEntries efficiencies ≠ []) (rel : Relation) :
    ∃ x ∈ T.efficientEntries efficiencies, findIndex p T target efficiencies rel = some x.2 ∧
      Picks p.freqTableSorted (p.clamp target) (T.scanned efficiencies) (freq x) rel := by
  have hord := h.ordered
  cases hs : p.freqTableSorted with
  | unsorted => exact absurd hs hsorted
  | sortedAscending =>
    rw [hs] at hord
    have hup := Ordered.efficientEntries hord efficiencies
    cases rel with
    | L =>
      obtain ⟨x, hx, hscan, hsel⟩ := firstFrom_selects (t := p.clamp target) hup hne
      exact ⟨x, hx, by simp [findIndex, cpufreqTableFindIndexL, hs, cpufreqTableFindIndexAl, hscan], hsel⟩
    | H =>
      obtain ⟨x, hx, hscan, hsel⟩ := lastUpTo_selects (t := p.clamp target) hup hne
      exact ⟨x, hx, by simp [findIndex, cpufreqTableFindIndexH, hs, cpufreqTableFindIndexAh, hscan], hsel⟩
    | C =>
      have hcloser : ∀ best f, best < p.clamp target → p.clamp target < f →
          (decide (p.clamp target - best > f - p.clamp target) = true ↔
            Nat.dist (p.clamp target) f < Nat.dist (p.clamp target) best) := by
        intro best f hbest hf
        rw [decide_eq_true_iff]
        simp only [Nat.dist]
        omega
      obtain ⟨x, hx, hscan, hsel⟩ := nearest_spec (distance_up _) hcloser hup hne
      exact ⟨x, hx, by simp [findIndex, cpufreqTableFindIndexC, hs, cpufreqTableFindIndexAc, hscan], hsel⟩
  | sortedDescending =>
    rw [hs] at hord
    have hdown := Ordered.efficientEntries hord efficiencies
    cases rel with
    | L =>
      obtain ⟨x, hx, hscan, hsel⟩ := lastUpTo_selects (t := p.clamp target) hdown hne
      exact ⟨x, hx, by simp [findIndex, cpufreqTableFindIndexL, hs, cpufreqTableFindIndexDl, hscan], hsel⟩
    | H =>
      obtain ⟨x, hx, hscan, hsel⟩ := firstFrom_selects (t := p.clamp target) hdown hne
      exact ⟨x, hx, by simp [findIndex, cpufreqTableFindIndexH, hs, cpufreqTableFindIndexDh, hscan], hsel⟩
    | C =>
      have hcloser : ∀ best f, best > p.clamp target → p.clamp target > f →
          (decide (best - p.clamp target > p.clamp target - f) = true ↔
            Nat.dist (p.clamp target) f < Nat.dist (p.clamp target) best) := by
        intro best f hbest hf
        rw [decide_eq_true_iff]
        simp only [Nat.dist]
        omega
      obtain ⟨x, hx, hscan, hsel⟩ := nearest_spec (distance_down _) hcloser hdown hne
      exact ⟨x, hx, by simp [findIndex, cpufreqTableFindIndexC, hs, cpufreqTableFindIndexDc, hscan], hsel⟩

theorem findIndex_nil {target : ℕ} {efficiencies : Bool} (hnil : T.efficientEntries efficiencies = [])
    (rel : Relation) : findIndex p T target efficiencies rel = none := by
  cases rel
  all_goals
    simp only [findIndex, cpufreqTableFindIndexL, cpufreqTableFindIndexH, cpufreqTableFindIndexC, cpufreqTableFindIndexAl,
      cpufreqTableFindIndexDl, cpufreqTableFindIndexAh, cpufreqTableFindIndexDh, cpufreqTableFindIndexAc,
      cpufreqTableFindIndexDc, hnil]
    split <;> rfl

/-- The scan whose result counts passes over the inefficient entries: it is asked to, and there are others. -/
def Policy.passesOver (p : Policy) (T : FreqTable) (relationE : Bool) : Bool :=
  p.efficienciesAvailable && relationE && !(T.efficientEntries true).isEmpty

theorem passesOver_ne_nil (hne : T.validEntries ≠ []) (relationE : Bool) :
    T.efficientEntries (p.passesOver T relationE) ≠ [] := by
  cases hp : p.passesOver T relationE with
  | false => rwa [efficientEntries_false]
  | true =>
    simp only [Policy.passesOver, Bool.and_eq_true, Bool.not_eq_true', isEmpty_eq_false_iff] at hp
    exact hp.2

theorem target_of_findIndex (hsorted : p.freqTableSorted ≠ .unsorted) {target idx : ℕ}
    {rel : Relation} {relationE : Bool} (hindex : findIndex p T target (p.passesOver T relationE) rel = some idx) :
    cpufreqFrequencyTableTarget p T target rel relationE = some idx := by
  unfold cpufreqFrequencyTableTarget
  unfold Policy.passesOver at hindex
  cases hasked : p.efficienciesAvailable && relationE with
  | false =>
    simp_all
  | true =>
    by_cases hnil : T.efficientEntries true = []
    · simp_all [findIndex_nil hnil]
    · simp_all [isEmpty_eq_false_iff.2 hnil]

theorem selected_picks (h : p.Accepted T) (hsorted : p.freqTableSorted ≠ .unsorted)
    (hne : T.validEntries ≠ []) (target : ℕ) (rel : Relation) (relationE : Bool) :
    ∃ f, selected p T target rel relationE = some f ∧
      Picks p.freqTableSorted (p.clamp target) (T.scanned (p.passesOver T relationE)) f rel := by
  obtain ⟨x, hx, hindex, hpicks⟩ := findIndex_picks h hsorted target (passesOver_ne_nil hne relationE) rel
  refine ⟨freq x, ?_, hpicks⟩
  rw [selected, target_of_findIndex hsorted hindex]
  exact frequencyAt_of_mem (mem_of_mem_filter hx)

/-! ## Tables in no order -/

section

variable {T : FreqTable} {target : ℕ} {xs : List (Entry × ℕ)}

/-- A slot that is offered a list keeps what it has, or takes an element that no other comes before. -/
theorem foldl_offer (r : ℕ → ℕ → Prop) [DecidableRel r] [IsStrictTotalOrder ℕ r] (xs : List (Entry × ℕ)) (s : Slot) :
    (xs.foldl (Slot.offer r) s = s ∧ ∀ x ∈ xs, r s.frequency (freq x)) ∨
      ∃ x ∈ xs, xs.foldl (Slot.offer r) s = ⟨x.2, freq x⟩ ∧ ¬ r s.frequency (freq x) ∧
        ∀ y ∈ xs, ¬ r (freq y) (freq x) := by
  induction xs generalizing s with
  | nil => exact .inl ⟨rfl, by simp⟩
  | cons x xs ih =>
    rw [foldl_cons, Slot.offer]
    by_cases hx : r s.frequency (freq x)
    · rw [if_pos hx]
      obtain ⟨hkept, hall⟩ | ⟨y, hy, htaken, hlt, hfirst⟩ := ih s
      · exact .inl ⟨hkept, by simpa [hx] using hall⟩
      · have hyx : r (freq y) (freq x) := by
          obtain hys | hys | hys := trichotomous_of r s.frequency (freq y)
          · exact absurd hys hlt
          · exact hys ▸ hx
          · exact trans_of r hys hx
        refine .inr ⟨y, by simp [hy], htaken, hlt, ?_⟩
        intro z hz
        obtain rfl | hz := mem_cons.1 hz
        · exact asymm hyx
        · exact hfirst z hz
    · rw [if_neg hx]
      obtain ⟨hkept, hall⟩ | ⟨y, hy, htaken, hlt, hfirst⟩ := ih ⟨x.2, freq x⟩
      · refine .inr ⟨x, by simp, hkept, hx, ?_⟩
        intro z hz
        obtain rfl | hz := mem_cons.1 hz
        · exact irrefl _
        · exact asymm (hall z hz)
      · refine .inr ⟨y, by simp [hy], htaken, ?_, ?_⟩
        · intro hsy
          obtain hxy | hxy | hxy := trichotomous_of r (freq x) (freq y)
          · exact hlt hxy
          · exact hx (hxy ▸ hsy)
          · exact hx (trans_of r hsy hxy)
        · intro z hz
          obtain rfl | hz := mem_cons.1 hz
          · exact hlt
          · exact hfirst z hz

theorem foldl_offer_of_ne_nil (r : ℕ → ℕ → Prop) [DecidableRel r] [IsStrictTotalOrder ℕ r]
    {s : Slot} (hne : xs ≠ []) (hs : ∀ x ∈ xs, ¬ r s.frequency (freq x)) :
    ∃ x ∈ xs, xs.foldl (Slot.offer r) s = ⟨x.2, freq x⟩ ∧ ∀ y ∈ xs, ¬ r (freq y) (freq x) := by
  obtain ⟨-, hall⟩ | ⟨x, hx, htaken, -, hfirst⟩ := foldl_offer r xs s
  · obtain ⟨x, hx⟩ := exists_mem_of_ne_nil xs hne
    exact absurd (hall x hx) (hs x hx)
  · exact ⟨x, hx, htaken, hfirst⟩

/-- Two folds side by side, each over its own part of the list -/
theorem foldl_sides {σ τ χ : Type} (P : χ → Prop) [DecidablePred P] (f : σ → χ → σ) (g : τ → χ → τ) (xs : List χ)
    (s : σ × τ) : xs.foldl (fun s x => if P x then (f s.1 x, s.2) else (s.1, g s.2 x)) s =
      ((xs.filter fun x => decide (P x)).foldl f s.1, (xs.filter fun x => !decide (P x)).foldl g s.2) := by
  induction xs generalizing s with
  | nil => rfl
  | cons x xs ih =>
    rw [foldl_cons, ih]
    by_cases hx : P x <;> simp [hx]

theorem unsortedLoop_hit (rel : Relation) (hhit : ∃ x ∈ xs, freq x = target) (s : Slot × Slot) :
    ∃ x ∈ xs, freq x = target ∧ (unsortedLoop T target rel xs s).1.1.driverData = x.2 ∧
      (unsortedLoop T target rel xs s).2 = some x.2 := by
  induction xs generalizing s with
  | nil => simp at hhit
  | cons x xs ih =>
    rw [unsortedLoop]
    by_cases hx : freq x = target
    · rw [if_pos hx]
      exact ⟨x, by simp, hx, rfl, rfl⟩
    · rw [if_neg hx]
      have hrest : ∃ y ∈ xs, freq y = target := by simpa [hx] using hhit
      obtain ⟨y, hy, hfreq, hloop⟩ := ih hrest (consider T target rel s x)
      exact ⟨y, by simp [hy], hfreq, hloop⟩

theorem unsortedLoop_miss {rel : Relation} (hmiss : ∀ x ∈ xs, freq x ≠ target) (s : Slot × Slot) :
    unsortedLoop T target rel xs s = (xs.foldl (consider T target rel) s, none) := by
  induction xs generalizing s with
  | nil => rfl
  | cons x xs ih =>
    rw [unsortedLoop, if_neg (hmiss x (by simp)), ih fun y hy => hmiss y (by simp [hy])]
    rfl

variable {p : Policy} {rel : Relation}

theorem mem_valid_of_within {x : Entry × ℕ} (hx : x ∈ withinLimits p T) : x ∈ T.validEntries := mem_of_mem_filter hx

theorem index_of_hit (rel : Relation) (hhit : ∃ x ∈ withinLimits p T, freq x = target) :
    ∃ x ∈ withinLimits p T, freq x = target ∧ cpufreqTableIndexUnsorted p T target rel = x.2 := by
  obtain ⟨x, hx, hfreq, hopt, hstop⟩ := unsortedLoop_hit (T := T) rel hhit (slots rel)
  refine ⟨x, hx, hfreq, ?_⟩
  unfold cpufreqTableIndexUnsorted
  simp only [hstop, hopt, Option.getD_some, lt_irrefl, if_false]

theorem index_of_miss (hmiss : ∀ x ∈ withinLimits p T, freq x ≠ target) : cpufreqTableIndexUnsorted p T target rel =
      let s := (withinLimits p T).foldl (consider T target rel) (slots rel)
      if T.entries.length < s.1.driverData then if T.entries.length < s.2.driverData then 0 else s.2.driverData
      else s.1.driverData := by
  unfold cpufreqTableIndexUnsorted
  rw [unsortedLoop_miss hmiss]
  rfl

theorem index_selects_of_hit (r : ℕ → ℕ → Prop) [IsStrictTotalOrder ℕ r]
    (hhit : ∃ x ∈ withinLimits p T, freq x = target) :
    ∃ x ∈ withinLimits p T, cpufreqTableIndexUnsorted p T target rel = x.2 ∧
      Selects r target ((withinLimits p T).map freq) (freq x) := by
  obtain ⟨x, hx, rfl, hindex⟩ := index_of_hit rel hhit
  exact ⟨x, hx, hindex, .self (mem_map_of_mem hx)⟩

/-- The two slots of the relations L and H: the first element after the target, and the last before it -/
theorem index_selects_of_miss (r r' : ℕ → ℕ → Prop) [DecidableRel r] [DecidableRel r'] [IsStrictTotalOrder ℕ r]
    [IsStrictTotalOrder ℕ r'] (hflip : ∀ a b, r' a b ↔ r b a) (hne : withinLimits p T ≠ [])
    (hmiss : ∀ x ∈ withinLimits p T, freq x ≠ target) {s : Slot × Slot}
    (hidx : s.1.driverData = 2 ^ 32 - 1) (hopt : ∀ f < 2 ^ 32, ¬ r s.1.frequency f)
    (hsub : ∀ f < 2 ^ 32, ¬ r' s.2.frequency f)
    (hfold : (withinLimits p T).foldl (consider T target rel) (slots rel) =
      (((withinLimits p T).filter fun x => decide (r target (freq x))).foldl (Slot.offer r) s.1,
        ((withinLimits p T).filter fun x => !decide (r target (freq x))).foldl (Slot.offer r') s.2)) :
    ∃ x ∈ withinLimits p T, cpufreqTableIndexUnsorted p T target rel = x.2 ∧
      Selects r target ((withinLimits p T).map freq) (freq x) := by
  rw [index_of_miss hmiss, hfold]
  dsimp only
  have hshort := T.short
  by_cases hafter : (withinLimits p T).filter (fun x => decide (r target (freq x))) = []
  · -- all lies before the target
    have hbefore : ∀ x ∈ withinLimits p T, r (freq x) target := by
      intro x hx
      have hnot : ¬ r target (freq x) := by simpa using filter_eq_nil_iff.1 hafter x hx
      exact ((trichotomous_of r (freq x) target).resolve_right fun h => h.elim (hmiss x hx) hnot)
    have hrest : (withinLimits p T).filter (fun x => !decide (r target (freq x))) = withinLimits p T := by
      refine filter_eq_self.2 fun x hx => ?_
      simpa using asymm (hbefore x hx)
    obtain ⟨x, hx, htaken, hlast⟩ := foldl_offer_of_ne_nil r' hne
      fun x hx => hsub (freq x) (freq_lt (mem_valid_of_within hx))
    have hlt := index_lt (mem_valid_of_within hx)
    refine ⟨x, hx, ?_, .of_all (mem_map_of_mem hx) (forall_mem_map.2 hbefore) (forall_mem_map.2 fun e he => ?_)⟩
    · rw [hafter, hrest, htaken, foldl_nil, hidx, if_pos (by omega), if_neg (by simp only; omega)]
    · exact mt (hflip _ _).2 (hlast e he)
  · obtain ⟨x, hx, htaken, hfirst⟩ := foldl_offer_of_ne_nil r hafter
      fun x hx => hopt (freq x) (freq_lt (mem_valid_of_within (mem_of_mem_filter hx)))
    obtain ⟨hx, hafter⟩ := mem_filter.1 hx
    have hafter : r target (freq x) := by simpa using hafter
    have hlt := index_lt (mem_valid_of_within hx)
    refine ⟨x, hx, ?_, .of_reached (mem_map_of_mem hx) (asymm hafter) (forall_mem_map.2 fun e he het => ?_)⟩
    · rw [htaken, if_neg (by simp only; omega)]
    · refine hfirst e (mem_filter.2 ⟨he, ?_⟩)
      simpa using ((trichotomous_of r (freq e) target).resolve_left het).resolve_left (hmiss e he)

theorem index_selects_L (target : ℕ) (hne : withinLimits p T ≠ []) : ∃ x ∈ withinLimits p T,
    cpufreqTableIndexUnsorted p T target .L = x.2 ∧ Selects (· < ·) target ((withinLimits p T).map freq) (freq x) := by
  by_cases hhit : ∃ x ∈ withinLimits p T, freq x = target
  · exact index_selects_of_hit (· < ·) hhit
  · push Not at hhit
    refine index_selects_of_miss (· < ·) (· > ·) (fun _ _ => Iff.rfl) hne hhit (s := slots .L) rfl ?_ ?_
      (foldl_sides (fun x => target < freq x) (Slot.offer (· < ·)) (Slot.offer (· > ·)) _ _)
    all_goals
      intro f hf
      simp only [slots]
      omega

theorem index_selects_H (target : ℕ) (hne : withinLimits p T ≠ []) : ∃ x ∈ withinLimits p T,
    cpufreqTableIndexUnsorted p T target .H = x.2 ∧ Selects (· > ·) target ((withinLimits p T).map freq) (freq x) := by
  by_cases hhit : ∃ x ∈ withinLimits p T, freq x = target
  · exact index_selects_of_hit (· > ·) hhit
  · push Not at hhit
    refine index_selects_of_miss (· > ·) (· < ·) (fun _ _ => Iff.rfl) hne hhit (s := slots .H) rfl ?_ ?_
      (foldl_sides (fun x => freq x < target) (Slot.offer (· > ·)) (Slot.offer (· < ·)) _ _)
    all_goals
      intro f hf
      simp only [slots]
      omega

/-- The relation C, once the optimal slot holds an entry of the table -/
theorem foldl_closest (target : ℕ) (hxs : ∀ x ∈ xs, x ∈ T.validEntries) {w : Entry × ℕ} (hw : w ∈ T.validEntries)
    (sub : Slot) : ∃ x ∈ w :: xs, (xs.foldl (consider T target .C) (⟨w.2, absDiff (freq w) target⟩, sub)).1 =
        ⟨x.2, absDiff (freq x) target⟩ ∧
      ∀ y ∈ w :: xs, absDiff (freq x) target ≤ absDiff (freq y) target ∧
        (absDiff (freq y) target = absDiff (freq x) target → freq y ≤ freq x) := by
  induction xs generalizing w with
  | nil => exact ⟨w, by simp, rfl, by simp⟩
  | cons v xs ih =>
    have hv := hxs v (by simp)
    have hxs' : ∀ x ∈ xs, x ∈ T.validEntries := fun x hx => hxs x (by simp [hx])
    rw [foldl_cons, consider]
    simp only [frequencyAt_of_mem hw, Option.any_some, decide_eq_true_eq]
    split
    case isTrue hbetter =>
      obtain ⟨x, hx, hslot, hbest⟩ := ih hxs' hv
      refine ⟨x, by simp [mem_cons.1 hx], hslot, ?_⟩
      intro y hy
      have hxv := hbest v (by simp)
      obtain rfl | hy := mem_cons.1 hy
      · omega
      · exact hbest y hy
    case isFalse hworse =>
      obtain ⟨x, hx, hslot, hbest⟩ := ih hxs' hw
      refine ⟨x, ?_, hslot, ?_⟩
      · obtain rfl | hx := mem_cons.1 hx
        · simp
        · simp [hx]
      · intro y hy
        have hxw := hbest w (by simp)
        obtain rfl | hy := mem_cons.1 hy
        · exact hxw
        · obtain rfl | hy := mem_cons.1 hy
          · omega
          · exact hbest y (by simp [hy])

theorem absDiff_lt (f target : ℕ) : absDiff f target < 2 ^ 32 - 1 := by
  unfold absDiff
  dsimp only
  split <;> omega

/-- The relation C: the smallest difference as an `int`; of equal ones, the highest frequency. -/
theorem index_closest (target : ℕ) (hne : withinLimits p T ≠ []) : ∃ x ∈ withinLimits p T,
    cpufreqTableIndexUnsorted p T target .C = x.2 ∧ (freq x = target ∨
      Nearest (· > ·) (fun f => absDiff f target) ((withinLimits p T).map freq) (freq x)) := by
  by_cases hhit : ∃ x ∈ withinLimits p T, freq x = target
  · obtain ⟨x, hx, hfreq, hindex⟩ := index_of_hit .C hhit
    exact ⟨x, hx, hindex, .inl hfreq⟩
  · push Not at hhit
    have hvalid : ∀ x ∈ withinLimits p T, x ∈ T.validEntries := fun x => mem_valid_of_within
    rw [index_of_miss hhit]
    cases hxs : withinLimits p T with
    | nil => exact absurd hxs hne
    | cons w xs =>
      rw [hxs] at hvalid
      have hfirst : consider T target .C (slots .C) w = (⟨w.2, absDiff (freq w) target⟩, ⟨2 ^ 32 - 1, 0⟩) :=
        if_pos (.inl (absDiff_lt _ _))
      obtain ⟨x, hx, hslot, hbest⟩ := foldl_closest target (fun x hx => hvalid x (mem_cons_of_mem _ hx))
        (hvalid w (by simp)) ⟨2 ^ 32 - 1, 0⟩
      have hlt := index_lt (hvalid x hx)
      refine ⟨x, hx, ?_, .inr ⟨mem_map_of_mem hx, ?_, ?_⟩⟩
      · rw [foldl_cons, hfirst]
        simp only [hslot]
        rw [if_neg (by omega)]
      · intro y hy
        obtain ⟨e, he, rfl⟩ := mem_map.1 hy
        exact (hbest e he).1
      · intro y hy htie
        obtain ⟨e, he, rfl⟩ := mem_map.1 hy
        have := (hbest e he).2 htie
        omega

end

end KernelSched.Cpufreq
