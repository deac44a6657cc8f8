import KernelSched.Lib.Scan
import Mathlib.Algebra.Group.Nat.Defs

/-!
# Frequency tables of CPU frequency drivers

A driver lists the frequencies of a policy in a table, in any order and with invalid entries anywhere.
`cpufreq_table_validate_and_sort` finds out whether the table is in order. A target is looked up by one of seven
routines: for a table in ascending or descending order and each of the three relations a scan that stops early, and one
routine for every other table. The scans of ordered tables can be asked to pass over the frequencies that are marked
inefficient.

Frequencies are numbers below `2 ^ 32`. A result that the code returns as `-1` is `none` here.
-/

namespace KernelSched.Cpufreq

open Scan

/-! ## Tables and policies -/

def entryInvalid : ℕ := 2 ^ 32 - 1

def tableEnd : ℕ := 2 ^ 32 - 2

/-- `struct cpufreq_frequency_table`; the flags are `CPUFREQ_BOOST_FREQ` and `CPUFREQ_INEFFICIENT_FREQ`. -/
structure Entry where
  boost : Bool
  inefficient : Bool
  frequency : ℕ

def Entry.valid (e : Entry) : Bool := decide (e.frequency ≠ entryInvalid)

/-- The table, up to the entry that ends it; its indices are of type `int`. -/
structure FreqTable where
  entries : List Entry
  word : ∀ e ∈ entries, e.frequency < 2 ^ 32
  noEnd : ∀ e ∈ entries, e.frequency ≠ tableEnd
  short : entries.length < 2 ^ 31

namespace FreqTable

/-- The entries that `cpufreq_for_each_valid_entry_idx` goes through, with their indices -/
def validEntries (T : FreqTable) : List (Entry × ℕ) := T.entries.zipIdx.filter fun x => x.1.valid

/-- The entries that `cpufreq_for_each_efficient_entry_idx` goes through -/
def efficientEntries (T : FreqTable) (efficiencies : Bool) : List (Entry × ℕ) :=
  T.validEntries.filter fun x => !(efficiencies && x.1.inefficient)

def frequencyAt (T : FreqTable) (idx : ℕ) : Option ℕ := T.entries[idx]?.map Entry.frequency

end FreqTable

inductive TableSorting
  | unsorted
  | sortedAscending
  | sortedDescending
  deriving DecidableEq

/-- `struct cpufreq_policy`, the part that the table helpers use -/
structure Policy where
  min : ℕ
  max : ℕ
  cpuinfoMinFreq : ℕ
  cpuinfoMaxFreq : ℕ
  freqTable : Option FreqTable
  freqTableSorted : TableSorting
  efficienciesAvailable : Bool
  cachedTargetFreq : ℕ
  cachedResolvedIdx : ℕ

/-- `CPUFREQ_RELATION_L`, `CPUFREQ_RELATION_H` and `CPUFREQ_RELATION_C`; `CPUFREQ_RELATION_E` is a flag of its own. -/
inductive Relation
  | L
  | H
  | C
  deriving DecidableEq

inductive Errno
  | einval
  deriving DecidableEq

/-! ## Validating a table -/

/-- The loop of `cpufreq_frequency_table_cpuinfo`: the lowest and the highest frequency -/
def cpuinfoLoop (boostEnabled : Bool) : List Entry → ℕ → ℕ → ℕ × ℕ
  | [], minFreq, maxFreq => (minFreq, maxFreq)
  | e :: es, minFreq, maxFreq =>
    if !boostEnabled && e.boost then cpuinfoLoop boostEnabled es minFreq maxFreq
    else
      cpuinfoLoop boostEnabled es (if e.frequency < minFreq then e.frequency else minFreq)
        (if maxFreq < e.frequency then e.frequency else maxFreq)

/-- The policy, and the error -/
def cpufreqFrequencyTableCpuinfo (boostEnabled : Bool) (p : Policy) (T : FreqTable) : Policy × Option Errno :=
  let (minFreq, maxFreq) := cpuinfoLoop boostEnabled (T.validEntries.map Prod.fst) (2 ^ 32 - 1) 0
  let p := { p with min := minFreq, cpuinfoMinFreq := minFreq, max := maxFreq }
  let p := if p.cpuinfoMaxFreq < maxFreq then { p with max := maxFreq, cpuinfoMaxFreq := maxFreq } else p
  (p, if p.min = 2 ^ 32 - 1 then some .einval else none)

/-- The loop of `set_freq_table_sorted` over the valid frequencies -/
def sortedLoop : List ℕ → Option ℕ → ℤ → Except Errno TableSorting
  | [], _, ascending => .ok (if 0 < ascending then .sortedAscending else .sortedDescending)
  | f :: fs, none, ascending => sortedLoop fs (some f) ascending
  | f :: fs, some prev, ascending =>
    if f = prev then .error .einval
    else if prev < f then
      if ascending < 0 then .ok .unsorted else sortedLoop fs (some f) (ascending + 1)
    else
      if 0 < ascending then .ok .unsorted else sortedLoop fs (some f) (ascending - 1)

def setFreqTableSorted (p : Policy) (T : FreqTable) : Policy × Option Errno :=
  match sortedLoop (T.validEntries.map fun x => x.1.frequency) none 0 with
  | .ok sorting => ({ p with freqTableSorted := sorting }, none)
  | .error errno => ({ p with freqTableSorted := .unsorted }, some errno)

def cpufreqTableValidateAndSort (hasTargetIndex boostEnabled : Bool) (p : Policy) : Policy × Option Errno :=
  match p.freqTable with
  | none => (p, if hasTargetIndex then some .einval else none)
  | some T =>
    match cpufreqFrequencyTableCpuinfo boostEnabled p T with
    | (p, some errno) => (p, some errno)
    | (p, none) => setFreqTableSorted p T

/-! ## Tables in order -/

def freq (x : Entry × ℕ) : ℕ := x.1.frequency

section

variable (T : FreqTable) (target : ℕ) (efficiencies : Bool)

def cpufreqTableFindIndexAl : Option ℕ :=
  (firstFrom freq (· < ·) target (T.efficientEntries efficiencies) none).map Prod.snd

def cpufreqTableFindIndexDl : Option ℕ :=
  (lastUpTo freq (· > ·) target (T.efficientEntries efficiencies) none).map Prod.snd

def cpufreqTableFindIndexAh : Option ℕ :=
  (lastUpTo freq (· < ·) target (T.efficientEntries efficiencies) none).map Prod.snd

def cpufreqTableFindIndexDh : Option ℕ :=
  (firstFrom freq (· > ·) target (T.efficientEntries efficiencies) none).map Prod.snd

/-- `cpufreq_table_find_index_ac`: the frequency above wins only when it is strictly closer. -/
def cpufreqTableFindIndexAc : Option ℕ :=
  (nearest freq (· < ·) target (fun best f => decide (target - best > f - target))
    (T.efficientEntries efficiencies) none).map Prod.snd

/-- `cpufreq_table_find_index_dc`: the frequency below wins only when it is strictly closer. -/
def cpufreqTableFindIndexDc : Option ℕ :=
  (nearest freq (· > ·) target (fun best f => decide (best - target > target - f))
    (T.efficientEntries efficiencies) none).map Prod.snd

end

section

variable (p : Policy) (T : FreqTable) (target : ℕ)

/-- `clamp_val` with the limits of the policy -/
def Policy.clamp : ℕ := Nat.min (Nat.max target p.min) p.max

def cpufreqTableFindIndexL (efficiencies : Bool) : Option ℕ :=
  if p.freqTableSorted = .sortedAscending then cpufreqTableFindIndexAl T (p.clamp target) efficiencies
  else cpufreqTableFindIndexDl T (p.clamp target) efficiencies

def cpufreqTableFindIndexH (efficiencies : Bool) : Option ℕ :=
  if p.freqTableSorted = .sortedAscending then cpufreqTableFindIndexAh T (p.clamp target) efficiencies
  else cpufreqTableFindIndexDh T (p.clamp target) efficiencies

def cpufreqTableFindIndexC (efficiencies : Bool) : Option ℕ :=
  if p.freqTableSorted = .sortedAscending then cpufreqTableFindIndexAc T (p.clamp target) efficiencies
  else cpufreqTableFindIndexDc T (p.clamp target) efficiencies

/-! ## Tables in no order -/

/-- The two fields that `cpufreq_table_index_unsorted` uses of `optimal` and `suboptimal` -/
structure Slot where
  driverData : ℕ
  frequency : ℕ

/-- `abs(freq - target_freq)`: a difference of two `unsigned int`s, taken as an `int` -/
def absDiff (f target : ℕ) : ℕ :=
  let diff := (f + 2 ^ 32 - target % 2 ^ 32) % 2 ^ 32
  if 2 ^ 31 ≤ diff then 2 ^ 32 - diff else diff

/-- A slot takes a frequency, unless its own comes before it. -/
def Slot.offer (r : ℕ → ℕ → Prop) [DecidableRel r] (s : Slot) (x : Entry × ℕ) : Slot :=
  if r s.frequency (freq x) then s else ⟨x.2, freq x⟩

/-- The `switch` of `cpufreq_table_index_unsorted` -/
def consider (rel : Relation) (s : Slot × Slot) (x : Entry × ℕ) : Slot × Slot :=
  match rel with
  | .H => if freq x < target then (s.1.offer (· > ·) x, s.2) else (s.1, s.2.offer (· < ·) x)
  | .L => if target < freq x then (s.1.offer (· < ·) x, s.2) else (s.1, s.2.offer (· > ·) x)
  | .C =>
    let diff := absDiff (freq x) target
    if diff < s.1.frequency ∨ diff = s.1.frequency ∧ (T.frequencyAt s.1.driverData).any (· < freq x) then
      (⟨x.2, diff⟩, s.2)
    else s

/-- The loop of `cpufreq_table_index_unsorted`, over the entries that are valid and within the limits: the slots, and
where a frequency is the target itself the index at which the loop stops -/
def unsortedLoop (rel : Relation) : List (Entry × ℕ) → Slot × Slot → (Slot × Slot) × Option ℕ
  | [], s => (s, none)
  | x :: xs, s =>
    if freq x = target then (({ s.1 with driverData := x.2 }, s.2), some x.2)
    else unsortedLoop rel xs (consider T target rel s x)

def slots : Relation → Slot × Slot
  | .H => (⟨2 ^ 32 - 1, 0⟩, ⟨2 ^ 32 - 1, 2 ^ 32 - 1⟩)
  | .L => (⟨2 ^ 32 - 1, 2 ^ 32 - 1⟩, ⟨2 ^ 32 - 1, 0⟩)
  | .C => (⟨2 ^ 32 - 1, 2 ^ 32 - 1⟩, ⟨2 ^ 32 - 1, 0⟩)

def withinLimits : List (Entry × ℕ) :=
  T.validEntries.filter fun x => decide (p.min ≤ freq x) && decide (freq x ≤ p.max)

def cpufreqTableIndexUnsorted (rel : Relation) : ℕ :=
  let ((optimal, suboptimal), stop) := unsortedLoop T target rel (withinLimits p T) (slots rel)
  let i := stop.getD T.entries.length
  if i < optimal.driverData then
    if i < suboptimal.driverData then 0 else suboptimal.driverData
  else optimal.driverData

/-! ## Any table -/

/-- The `switch` of `cpufreq_frequency_table_target` -/
def findIndex (efficiencies : Bool) : Relation → Option ℕ
  | .L => cpufreqTableFindIndexL p T target efficiencies
  | .H => cpufreqTableFindIndexH p T target efficiencies
  | .C => cpufreqTableFindIndexC p T target efficiencies

/-- With `CPUFREQ_RELATION_E` or without it -/
def cpufreqFrequencyTableTarget (rel : Relation) (relationE : Bool) : Option ℕ :=
  let efficiencies := p.efficienciesAvailable && relationE
  if p.freqTableSorted = .unsorted then some (cpufreqTableIndexUnsorted p T target rel)
  else
    match findIndex p T target efficiencies rel with
    | some idx => some idx
    | none => if efficiencies then findIndex p T target false rel else none

def selected (rel : Relation) (relationE : Bool) : Option ℕ :=
  (cpufreqFrequencyTableTarget p T target rel relationE).bind T.frequencyAt

/-- `__resolve_freq`: the policy, and the frequency; none where the index is not one of the table. -/
def resolveFreq (rel : Relation) (relationE : Bool) : Policy × Option ℕ :=
  match p.freqTable with
  | none => (p, some (p.clamp target))
  | some T =>
    match cpufreqFrequencyTableTarget p T (p.clamp target) rel relationE with
    | none => (p, none)
    | some idx => ({ p with cachedResolvedIdx := idx, cachedTargetFreq := p.clamp target }, T.frequencyAt idx)

end

end KernelSched.Cpufreq
