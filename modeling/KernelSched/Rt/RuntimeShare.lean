import KernelSched.Lib.Ledger
import KernelSched.Lib.Run
import KernelSched.Units

/-!
# Runtime lent between the CPUs of a root domain

The runqueues that a real-time task group has on the CPUs of a root domain start with the runtime `R` of the group. One
that has used up its runtime borrows from the others (`do_balance_runtime`); one whose CPU goes offline takes back what it
has lent, or hands on what it has borrowed, and is marked with `RUNTIME_INF` (`__disable_runtime`). `__enable_runtime`
gives it `R` again. All three hold `rt_b->rt_runtime_lock`.

`__enable_runtime` does not look at what the runqueue had. As long as it had nothing (`RUNTIME_INF`), or exactly `R`,
the `n` enabled runqueues have `n * R` together and a CPU that goes offline gets back all it wants; and only then. A CPU
that has never been online has not been marked, so the others may borrow from it before it is enabled.

- `span` is `rd->span` in the order of `for_each_cpu`. The time that is used (`rt_time`) changes in any way below `2^63`
  ns.
- A lender's `rt_time` is read once in a call, under its own lock; what other CPUs account during the call can be put
  before or after it.
-/

set_option linter.style.nameCheck false

namespace KernelSched.Rt

open Wrap Run Ledger Function List BitVec Option
open BitVec (ofNat toInt_eq_toNat_cond toNat_sub toNat_udiv toNat_add)

/-- `RUNTIME_INF` as a word -/
def runtimeInf : U64 := BitVec.ofNat 64 KernelSched.runtimeInf

/-- What `struct rt_rq` has for its runtime -/
structure Runtime where
  rtRuntime : U64
  rtTime : U64
  rtThrottled : Bool
  deriving DecidableEq

/-- A root domain and a `struct rt_bandwidth`. `R` is at most `max_rt_runtime`, below `2^44`, so the sum fits for all
`NR_CPUS`. -/
structure Domain where
  span : List Nat
  rtPeriod : U64
  rtRuntime : U64
  nodup : span.Nodup
  fits : span.length * rtRuntime.toNat < 2 ^ 63

/-- The runqueues of the group, and whether `WARN_ON_ONCE(want)` has fired. -/
structure Shares where
  rq : Nat → Runtime
  warned : Bool

namespace Runtime

def enabled (x : Runtime) : Bool := decide (x.rtRuntime ≠ runtimeInf)

/-- What the runqueue has of the domain's runtime, with `R` for one that takes no part. -/
def level (D : Domain) (x : Runtime) : Nat := if x.enabled then x.rtRuntime.toNat else D.rtRuntime.toNat

end Runtime

def setRuntime (f : Nat → Runtime) (i : Nat) (r : U64) : Nat → Runtime :=
  update f i { f i with rtRuntime := r }

/-! ## The functions -/

section

variable (D : Domain) (cpu : Nat)

/-- What `do_balance_runtime` takes from `lender`; negative when the borrower has more than the period. -/
def lent (borrower lender : Runtime) : U64 :=
  let diff := (lender.rtRuntime - lender.rtTime) / ofNat 64 D.span.length
  if D.rtPeriod < borrower.rtRuntime + diff then D.rtPeriod - borrower.rtRuntime else diff

/-- The loop of `do_balance_runtime` -/
def doBalanceFrom : List Nat → (Nat → Runtime) → Nat → Runtime
  | [], f => f
  | i :: is, f =>
    if i = cpu ∨ (f i).rtRuntime = runtimeInf then doBalanceFrom is f
    else if 0 < ((f i).rtRuntime - (f i).rtTime).toInt then
      let diff := lent D (f cpu) (f i)
      let f' := setRuntime (setRuntime f i ((f i).rtRuntime - diff)) cpu ((f cpu).rtRuntime + diff)
      if (f' cpu).rtRuntime = D.rtPeriod then f' else doBalanceFrom is f'
    else doBalanceFrom is f

def doBalanceRuntime (f : Nat → Runtime) : Nat → Runtime := doBalanceFrom D cpu D.span f

/-- `min_t(s64, runtime, want)`, or a `want` that is not positive -/
def reclaimed (runtime want : U64) : U64 :=
  if 0 < want.toInt then if runtime.toInt < want.toInt then runtime else want else want

/-- The greedy reclaim of `__disable_runtime`, with what is still wanted after it -/
def reclaimFrom : List Nat → (Nat → Runtime) → U64 → (Nat → Runtime) × U64
  | [], f, want => (f, want)
  | i :: is, f, want =>
    if i = cpu ∨ (f i).rtRuntime = runtimeInf then reclaimFrom is f want
    else
      let diff := reclaimed (f i).rtRuntime want
      let f' := setRuntime f i ((f i).rtRuntime - diff)
      if want - diff = 0 then (f', want - diff) else reclaimFrom is f' (want - diff)

/-- `__disable_runtime` up to `balanced`, with what is left wanting -/
def takeBack (f : Nat → Runtime) : (Nat → Runtime) × U64 :=
  if (f cpu).rtRuntime = runtimeInf ∨ (f cpu).rtRuntime = D.rtRuntime then (f, 0)
  else reclaimFrom cpu D.span f (D.rtRuntime - (f cpu).rtRuntime)

def __disableRuntime (s : Shares) : Shares :=
  let r := takeBack D cpu s.rq
  { rq := update r.1 cpu { r.1 cpu with rtRuntime := runtimeInf, rtThrottled := false }
    warned := s.warned || decide (r.2 ≠ 0) }

def __enableRuntime (s : Shares) : Shares :=
  { s with rq := update s.rq cpu ⟨D.rtRuntime, 0, false⟩ }

end

/-! ## Runs -/

inductive ShareOp
  /-- `do_balance_runtime`, which `balance_runtime` calls for a runqueue that is not disabled -/
  | balance (cpu : Nat)
  | disable (cpu : Nat)
  | enable (cpu : Nat)
  /-- `update_curr_rt` and the period timer -/
  | account (cpu : Nat) (rtTime : U64)

namespace ShareOp

def cpu : ShareOp → Nat
  | balance c | disable c | enable c | account c _ => c

def step (D : Domain) (o : ShareOp) (s : Shares) : Option Shares :=
  if o.cpu ∉ D.span then none
  else match o with
    | balance c => if (s.rq c).enabled then some { s with rq := doBalanceRuntime D c s.rq } else none
    | disable c => some (__disableRuntime D c s)
    | enable c => some (__enableRuntime D c s)
    | account c t => if t.toNat < 2 ^ 63 then some { s with rq := update s.rq c { s.rq c with rtTime := t } } else none

end ShareOp

namespace Shares

/-- The `n` enabled runqueues have `n * R`. -/
def Even (D : Domain) (s : Shares) : Prop :=
  ((D.span.filter fun i => (s.rq i).enabled).map fun i => (s.rq i).rtRuntime.toNat).sum =
    (D.span.filter fun i => (s.rq i).enabled).length * D.rtRuntime.toNat

structure Start (D : Domain) (s : Shares) : Prop where
  runtime : ∀ i ∈ D.span, (s.rq i).rtRuntime = runtimeInf ∨ (s.rq i).rtRuntime = D.rtRuntime
  time : ∀ i ∈ D.span, (s.rq i).rtTime.toNat < 2 ^ 63
  warned : s.warned = false

instance (D : Domain) (s : Shares) : Decidable (s.Even D) := inferInstanceAs (Decidable (_ = _))

end Shares

namespace ShareOp

/-- No other runqueue gives away runtime that it has used. -/
def Spares (o : ShareOp) (s s' : Shares) : Prop :=
  match o with
  | balance c => ∀ i, i ≠ c → (s'.rq i).rtRuntime < (s.rq i).rtRuntime → (s.rq i).rtTime ≤ (s'.rq i).rtRuntime
  | _ => True

/-- After the operation the shares are even, no warning has come up, and no lender is below the time that it has used. -/
def Sound (D : Domain) (o : ShareOp) (s : Shares) : Prop :=
  ∀ s' ∈ o.step D s, s'.Even D ∧ s'.warned = false ∧ o.Spares s s'

/-- A runqueue that is enabled was disabled, or has exactly `R`. -/
def Careful (D : Domain) (o : ShareOp) (s : Shares) : Prop :=
  match o with
  | enable c => c ∈ D.span → (s.rq c).rtRuntime = runtimeInf ∨ (s.rq c).rtRuntime = D.rtRuntime
  | _ => True

end ShareOp

/-! ## The sum with the disabled runqueues -/

/-- What the runqueues of the domain have, each disabled one counted with `R` -/
def held (D : Domain) (f : Nat → Runtime) : Nat := owed (fun i => (f i).level D) D.span

section

variable {D : Domain} {f f' : Nat → Runtime} {s : Shares} {cpu i j : Nat} {r : U64} {x : Runtime}

theorem held_add (D : Domain) (f : Nat → Runtime) (l : List Nat) :
    owed (fun i => (f i).level D) l + (l.filter fun i => (f i).enabled).length * D.rtRuntime.toNat =
      ((l.filter fun i => (f i).enabled).map fun i => (f i).rtRuntime.toNat).sum + l.length * D.rtRuntime.toNat := by
  induction l with
  | nil => rfl
  | cons i l ih =>
    rw [owed_cons, length_cons, Nat.succ_mul]
    by_cases h : (f i).enabled = true
    · rw [filter_cons_of_pos (by exact h), map_cons, sum_cons, length_cons, Nat.succ_mul, Runtime.level,
        if_pos h]
      omega
    · rw [filter_cons_of_neg (by exact h), Runtime.level, if_neg h]
      omega

theorem even_iff : s.Even D ↔ held D s.rq = D.span.length * D.rtRuntime.toNat := by
  have h := held_add D s.rq D.span
  unfold Shares.Even held
  omega

/-- All shares together are `n * R`, and all times are in range. -/
structure Level (D : Domain) (f : Nat → Runtime) : Prop where
  held : held D f = D.span.length * D.rtRuntime.toNat
  time : ∀ i ∈ D.span, (f i).rtTime.toNat < 2 ^ 63

theorem Runtime.level_of_enabled (h : x.enabled = true) : x.level D = x.rtRuntime.toNat := if_pos h

theorem Runtime.enabled_iff : x.enabled = true ↔ x.rtRuntime ≠ runtimeInf := decide_eq_true_iff

theorem Runtime.level_of_inf (h : x.rtRuntime = runtimeInf) : x.level D = D.rtRuntime.toNat :=
  if_neg fun he => enabled_iff.1 he h

theorem Runtime.enabled_of_lt (h : x.rtRuntime.toNat < 2 ^ 63) : x.enabled = true := by
  refine enabled_iff.2 fun hinf => ?_
  rw [hinf] at h
  exact absurd h (by decide)

namespace Level

theorem add_lt (h : Level D f) (hi : i ∈ D.span) (hj : j ∈ D.span) (hij : i ≠ j) (hei : (f i).enabled = true)
    (hej : (f j).enabled = true) : (f i).rtRuntime.toNat + (f j).rtRuntime.toNat < 2 ^ 63 := by
  have hle : (f i).level D + (f j).level D ≤ Rt.held D f := add_le_owed (f := fun i => (f i).level D) D.nodup hi hj hij
  rw [Runtime.level_of_enabled hei, Runtime.level_of_enabled hej, h.held] at hle
  exact hle.trans_lt D.fits

end Level

theorem setRuntime_self : setRuntime f i r i = { f i with rtRuntime := r } := update_self ..

theorem setRuntime_of_ne (h : j ≠ i) : setRuntime f i r j = f j := update_of_ne h ..

theorem setRuntime_rtTime : (setRuntime f i r j).rtTime = (f j).rtTime := by
  by_cases h : j = i
  · subst h; rw [setRuntime_self]
  · rw [setRuntime_of_ne h]

end

/-! ## Borrowing -/

section

variable {D : Domain} {f f' f'' : Nat → Runtime} {cpu i : Nat}

/-- What lender and borrower have after the loan; the lender keeps at least the time it has used, or gains. -/
theorem lent_spec {b l : Runtime} (hsum : b.rtRuntime.toNat + l.rtRuntime.toNat < 2 ^ 63) (ht : l.rtTime.toNat < 2 ^ 63)
    (hspare : 0 < (l.rtRuntime - l.rtTime).toInt) :
    (b.rtRuntime + lent D b l).toNat + (l.rtRuntime - lent D b l).toNat = b.rtRuntime.toNat + l.rtRuntime.toNat ∧
      (l.rtRuntime - lent D b l < l.rtRuntime → l.rtTime ≤ l.rtRuntime - lent D b l) := by
  have hsub : (l.rtRuntime - l.rtTime).toNat = l.rtRuntime.toNat - l.rtTime.toNat ∧
      l.rtTime.toNat < l.rtRuntime.toNat := by
    rw [toInt_eq_toNat_cond, toNat_sub] at hspare
    rw [toNat_sub]
    split at hspare <;> omega
  obtain ⟨hsub, htl⟩ := hsub
  have hdiv : ((l.rtRuntime - l.rtTime) / ofNat 64 D.span.length).toNat ≤ l.rtRuntime.toNat - l.rtTime.toNat := by
    rw [toNat_udiv, hsub]
    exact Nat.div_le_self ..
  unfold lent
  generalize (l.rtRuntime - l.rtTime) / ofNat 64 D.span.length = diff at hdiv ⊢
  dsimp only
  split
  · -- the loan stops at the period
    rename_i hlt
    rw [BitVec.lt_def, toNat_add] at hlt
    rw [BitVec.lt_def, BitVec.le_def]
    have hb : b.rtRuntime + (D.rtPeriod - b.rtRuntime) = D.rtPeriod := by
      rw [add_comm, sub_add_cancel]
    rw [hb, toNat_sub, toNat_sub]
    omega
  · rw [BitVec.lt_def, BitVec.le_def, toNat_add, toNat_sub]
    omega

/-- The times are unchanged, and no runqueue but that of `cpu` has given away runtime that it has used. -/
structure Spared (cpu : Nat) (f f' : Nat → Runtime) : Prop where
  time : ∀ i, (f' i).rtTime = (f i).rtTime
  spare : ∀ i, i ≠ cpu → (f' i).rtRuntime < (f i).rtRuntime → (f i).rtTime ≤ (f' i).rtRuntime

theorem Spared.refl : Spared cpu f f := ⟨fun _ => rfl, fun _ _ h => absurd h (BitVec.lt_irrefl _)⟩

theorem Spared.trans (h : Spared cpu f f') (h' : Spared cpu f' f'') : Spared cpu f f'' := by
  refine ⟨fun i => (h'.time i).trans (h.time i), fun i hi hlt => ?_⟩
  by_cases hlt' : (f'' i).rtRuntime < (f' i).rtRuntime
  · exact (h.time i) ▸ h'.spare i hi hlt'
  · have hle := BitVec.not_lt.1 hlt'
    exact BitVec.le_trans (h.spare i hi (by rw [BitVec.lt_def, BitVec.le_def] at *; omega)) hle

theorem loan_spec (hL : Level D f) (hc : cpu ∈ D.span) (hi : i ∈ D.span) (hic : i ≠ cpu) (hec : (f cpu).enabled = true)
    (hei : (f i).enabled = true) (hspare : 0 < ((f i).rtRuntime - (f i).rtTime).toInt)
    (hf : f' = setRuntime (setRuntime f i ((f i).rtRuntime - lent D (f cpu) (f i))) cpu
      ((f cpu).rtRuntime + lent D (f cpu) (f i))) :
    Level D f' ∧ (f' cpu).enabled = true ∧ Spared cpu f f' := by
  have hsum := hL.add_lt hc hi hic.symm hec hei
  obtain ⟨hkeep, htime⟩ := lent_spec (D := D) hsum (hL.time i hi) hspare
  have hfc : (f' cpu).rtRuntime = (f cpu).rtRuntime + lent D (f cpu) (f i) := by rw [hf, setRuntime_self]
  have hfi : (f' i).rtRuntime = (f i).rtRuntime - lent D (f cpu) (f i) := by
    rw [hf, setRuntime_of_ne hic, setRuntime_self]
  have hfj : ∀ j, j ≠ cpu → j ≠ i → f' j = f j := fun j hjc hji => by rw [hf, setRuntime_of_ne hjc, setRuntime_of_ne hji]
  have hft : ∀ j, (f' j).rtTime = (f j).rtTime := fun j => by rw [hf, setRuntime_rtTime, setRuntime_rtTime]
  have hec' : (f' cpu).enabled = true := Runtime.enabled_of_lt (by rw [hfc]; omega)
  have hei' : (f' i).enabled = true := Runtime.enabled_of_lt (by rw [hfi]; omega)
  refine ⟨⟨?_, fun j hj => by rw [hft]; exact hL.time j hj⟩, hec', hft, fun j hj hlt => ?_⟩
  · rw [← hL.held]
    refine sum_map_transfer D.nodup hc hi hic.symm ?_ fun j hjc hji => by rw [hfj j hjc hji]
    rw [Runtime.level_of_enabled hec', Runtime.level_of_enabled hei', Runtime.level_of_enabled hec,
      Runtime.level_of_enabled hei, hfc, hfi, hkeep]
  · by_cases hji : j = i
    · subst hji
      rw [hfi] at hlt ⊢
      exact htime hlt
    · rw [hfj j hj hji] at hlt
      exact absurd hlt (BitVec.lt_irrefl _)

theorem doBalanceFrom_spec (hc : cpu ∈ D.span) : ∀ (is : List Nat) {f : Nat → Runtime}, is ⊆ D.span → Level D f →
    (f cpu).enabled = true → Level D (doBalanceFrom D cpu is f) ∧ Spared cpu f (doBalanceFrom D cpu is f)
  | [], f, _, hL, _ => ⟨hL, Spared.refl⟩
  | i :: is, f, hsub, hL, hec => by
    obtain ⟨hi, hsub⟩ := cons_subset.1 hsub
    rw [doBalanceFrom]
    split
    · exact doBalanceFrom_spec hc is hsub hL hec
    rename_i hskip
    obtain ⟨hic, hinf⟩ := not_or.1 hskip
    split
    · rename_i hspare
      obtain ⟨hL', hec', hsp⟩ := loan_spec hL hc hi hic hec (Runtime.enabled_iff.2 hinf) hspare rfl
      dsimp only
      split
      · exact ⟨hL', hsp⟩
      · obtain ⟨hL'', hsp'⟩ := doBalanceFrom_spec hc is hsub hL' hec'
        exact ⟨hL'', hsp.trans hsp'⟩
    · exact doBalanceFrom_spec hc is hsub hL hec

end

/-! ## Taking back -/

def heldByOthers (D : Domain) (cpu : Nat) (f : Nat → Runtime) : Nat := owed (fun i => (f i).level D) (D.span.erase cpu)

/-- The loop has `is` to go: the others have `want` more than `R` each, and it could not get more from those it has
passed. -/
structure Reclaiming (D : Domain) (cpu : Nat) (is : List Nat) (f : Nat → Runtime) (want : U64) : Prop where
  others : (heldByOthers D cpu f : ℤ) = ((D.span.erase cpu).length * D.rtRuntime.toNat : ℕ) + want.toInt
  want_le : want.toInt ≤ D.rtRuntime.toNat
  want_ne : want.toInt ≠ 0
  passed : ∀ j ∈ D.span.erase cpu, j ∉ is → (f j).rtRuntime = runtimeInf ∨ 0 < want.toInt ∧ (f j).rtRuntime = 0

/-- All that was wanted has been taken back. -/
structure Reclaimed (D : Domain) (cpu : Nat) (f : Nat → Runtime) (r : (Nat → Runtime) × U64) : Prop where
  want : r.2 = 0
  others : heldByOthers D cpu r.1 = (D.span.erase cpu).length * D.rtRuntime.toNat
  time : ∀ i, (r.1 i).rtTime = (f i).rtTime

section

variable {D : Domain} {f f' : Nat → Runtime} {cpu i : Nat} {is : List Nat} {want r : U64} {x : Runtime}

theorem held_eq (hc : cpu ∈ D.span) : held D f = (f cpu).level D + heldByOthers D cpu f :=
  (sum_map_erase (fun i => (f i).level D) hc).symm

theorem length_erase (hc : cpu ∈ D.span) : D.span.length = (D.span.erase cpu).length + 1 := by
  have hpos := length_pos_of_mem hc
  rw [length_erase_of_mem hc]
  omega

theorem heldByOthers_set (hi : i ∈ D.span.erase cpu) (he : (f i).enabled = true) (hr : r.toNat < 2 ^ 63) :
    heldByOthers D cpu (setRuntime f i r) + (f i).rtRuntime.toNat = heldByOthers D cpu f + r.toNat := by
  have hself : (setRuntime f i r i).level D = r.toNat := by
    rw [setRuntime_self]
    exact Runtime.level_of_enabled (Runtime.enabled_of_lt hr)
  have h := sum_map_replace (f := fun j => (f j).level D) (k := fun j => (setRuntime f i r j).level D) (D.nodup.erase cpu)
    hi fun j hj => by rw [setRuntime_of_ne hj]
  rw [hself, Runtime.level_of_enabled he] at h
  exact h

namespace Reclaiming

theorem lt (h : Reclaiming D cpu is f want) (hc : cpu ∈ D.span) (hi : i ∈ D.span.erase cpu) (he : (f i).enabled = true) :
    (f i).rtRuntime.toNat ≤ heldByOthers D cpu f ∧ heldByOthers D cpu f < 2 ^ 63 := by
  have hle : (f i).level D ≤ heldByOthers D cpu f := le_owed (f := fun i => (f i).level D) hi
  have hfits := D.fits
  rw [length_erase hc, Nat.succ_mul] at hfits
  have hw := h.want_le
  have ho := h.others
  rw [Runtime.level_of_enabled he] at hle
  omega

theorem exhausted (h : Reclaiming D cpu [] f want) : False := by
  have hp : ∀ j ∈ D.span.erase cpu, (f j).rtRuntime = runtimeInf ∨ 0 < want.toInt ∧ (f j).rtRuntime = 0 :=
    fun j hj => h.passed j hj not_mem_nil
  have ho := h.others
  have hne := h.want_ne
  rcases lt_or_ge 0 want.toInt with hpos | hneg
  · -- every other runqueue has at most `R`
    have hle : heldByOthers D cpu f ≤ (D.span.erase cpu).length * D.rtRuntime.toNat := owed_le_mul fun j hj => by
      rcases hp j hj with hinf | ⟨-, hzero⟩
      · exact (Runtime.level_of_inf hinf).le
      · rw [Runtime.level, hzero]
        split <;> simp
    omega
  · -- every other runqueue is disabled
    have hinf : ∀ j ∈ D.span.erase cpu, (f j).level D = D.rtRuntime.toNat := fun j hj =>
      (hp j hj).elim Runtime.level_of_inf fun h => absurd h.1 (not_lt.2 hneg)
    have heq : heldByOthers D cpu f = (D.span.erase cpu).length * D.rtRuntime.toNat := by
      rw [heldByOthers, owed, map_congr_left hinf, map_const', sum_replicate_nat]
    omega

theorem skip (h : Reclaiming D cpu (i :: is) f want) (hi : i = cpu ∨ (f i).rtRuntime = runtimeInf) :
    Reclaiming D cpu is f want := by
  refine { h with passed := fun j hj hjs => ?_ }
  by_cases hji : j = i
  · subst hji
    exact .inl (hi.resolve_left (D.nodup.mem_erase_iff.1 hj).1)
  · exact h.passed j hj fun hm => (mem_cons.1 hm).elim hji hjs

end Reclaiming

theorem reclaimed_cases (want : U64) (hr : r.toNat < 2 ^ 63) :
    (reclaimed r want = want ∧ want.toInt ≤ r.toNat) ∨ (reclaimed r want = r ∧ (r.toNat : ℤ) < want.toInt) := by
  have htoInt : r.toInt = r.toNat := by
    rw [toInt_eq_toNat_cond]
    split <;> omega
  unfold reclaimed
  rw [htoInt]
  split
  · split
    · exact .inr ⟨rfl, by assumption⟩
    · exact .inl ⟨rfl, by omega⟩
  · exact .inl ⟨rfl, by omega⟩

theorem toNat_sub_of_range (hle : want.toInt ≤ r.toNat) (hlt : (r.toNat : ℤ) - want.toInt < 2 ^ 63) :
    ((r - want).toNat : ℤ) = r.toNat - want.toInt := by
  rw [toInt_eq_toNat_cond] at *
  rw [toNat_sub]
  split at hle <;> omega

theorem Reclaiming.drain (h : Reclaiming D cpu (i :: is) f want) (hi : i ∈ D.span.erase cpu) (he : (f i).enabled = true)
    (hless : ((f i).rtRuntime.toNat : ℤ) < want.toInt) :
    Reclaiming D cpu is (setRuntime f i 0) (want - (f i).rtRuntime) := by
  have hset := heldByOthers_set (r := 0) hi he (by decide)
  have ho := h.others
  have hw := h.want_le
  have hwant : (want - (f i).rtRuntime).toInt = want.toInt - (f i).rtRuntime.toNat := by
    rw [toInt_eq_toNat_cond] at hless ⊢
    rw [toInt_eq_toNat_cond, toNat_sub]
    split at hless <;> split <;> omega
  rw [show BitVec.toNat (0 : U64) = 0 from rfl] at hset
  refine ⟨by omega, by omega, by omega, fun j hj hjs => ?_⟩
  by_cases hji : j = i
  · subst hji
    exact .inr ⟨by omega, by rw [setRuntime_self]⟩
  · rw [setRuntime_of_ne hji]
    refine (h.passed j hj fun hm => (mem_cons.1 hm).elim hji hjs).imp_right fun hp => ⟨by omega, hp.2⟩

theorem reclaimFrom_spec (hc : cpu ∈ D.span) : ∀ (is : List Nat) {f : Nat → Runtime} {want : U64}, is ⊆ D.span →
    Reclaiming D cpu is f want → Reclaimed D cpu f (reclaimFrom cpu is f want)
  | [], f, want, _, h => h.exhausted.elim
  | i :: is, f, want, hsub, h => by
    obtain ⟨hi, hsub⟩ := cons_subset.1 hsub
    rw [reclaimFrom]
    split
    · rename_i hskip
      exact reclaimFrom_spec hc is hsub (h.skip hskip)
    rename_i hskip
    obtain ⟨hic, hinf⟩ := not_or.1 hskip
    have hi' : i ∈ D.span.erase cpu := D.nodup.mem_erase_iff.2 ⟨hic, hi⟩
    have he := Runtime.enabled_iff.2 hinf
    obtain ⟨hle, hlt⟩ := h.lt hc hi' he
    rcases reclaimed_cases want (hle.trans_lt hlt) with ⟨hall, hwle⟩ | ⟨hsome, hless⟩
    · -- the runqueue has enough, or gets what is handed on
      have ho := h.others
      have hfits := D.fits
      rw [length_erase hc, Nat.succ_mul] at hfits
      have hnew := toNat_sub_of_range hwle (by omega)
      have hset := heldByOthers_set (r := (f i).rtRuntime - want) hi' he (by omega)
      rw [hall, if_pos (sub_self want)]
      exact ⟨sub_self want, by show heldByOthers D cpu (setRuntime f i _) = _; omega, fun j => setRuntime_rtTime⟩
    · -- more is wanted of the rest
      have hne : want - (f i).rtRuntime ≠ 0 := fun h0 => (h.drain hi' he hless).want_ne (by rw [h0]; rfl)
      rw [hsome, if_neg hne, sub_self]
      have hrest := reclaimFrom_spec hc is hsub (h.drain hi' he hless)
      exact ⟨hrest.want, hrest.others, fun j => (hrest.time j).trans setRuntime_rtTime⟩

theorem takeBack_spec (hc : cpu ∈ D.span) (hL : Level D f) : Reclaimed D cpu f (takeBack D cpu f) := by
  have hheld := hL.held
  have hfits := D.fits
  rw [held_eq hc, length_erase hc, Nat.succ_mul] at hheld
  rw [length_erase hc, Nat.succ_mul] at hfits
  unfold takeBack
  split
  · rename_i hbal
    have hlevel : (f cpu).level D = D.rtRuntime.toNat := by
      rcases hbal with hinf | heq
      · exact Runtime.level_of_inf hinf
      · rw [Runtime.level, heq, ite_self]
    exact ⟨rfl, by show heldByOthers D cpu f = _; omega, fun _ => rfl⟩
  · rename_i hbal
    obtain ⟨hinf, hne⟩ := not_or.1 hbal
    have he := Runtime.enabled_iff.2 hinf
    rw [Runtime.level_of_enabled he] at hheld
    have hwant : (D.rtRuntime - (f cpu).rtRuntime).toInt = D.rtRuntime.toNat - (f cpu).rtRuntime.toNat := by
      rw [toInt_eq_toNat_cond, toNat_sub]
      split <;> omega
    have hne' : (f cpu).rtRuntime.toNat ≠ D.rtRuntime.toNat := fun h => hne (eq_of_toNat_eq h)
    refine reclaimFrom_spec hc D.span (List.Subset.refl _) ⟨by omega, by omega, by omega, fun j hj hjs => ?_⟩
    exact absurd (mem_of_mem_erase hj) hjs

theorem heldByOthers_update : heldByOthers D cpu (update f cpu x) = heldByOthers D cpu f := by
  refine congrArg List.sum (map_congr_left fun j hj => ?_)
  rw [update_of_ne (D.nodup.mem_erase_iff.1 hj).1]

theorem held_update (hc : cpu ∈ D.span) : held D (update f cpu x) = x.level D + heldByOthers D cpu f := by
  rw [held_eq hc, heldByOthers_update, update_self]

theorem time_update (hf : ∀ j ∈ D.span, (f j).rtTime.toNat < 2 ^ 63) (hx : x.rtTime.toNat < 2 ^ 63) :
    ∀ j ∈ D.span, (update f cpu x j).rtTime.toNat < 2 ^ 63 := by
  intro j hj
  by_cases hjc : j = cpu
  · subst hjc; rw [update_self]; exact hx
  · rw [update_of_ne hjc]; exact hf j hj

theorem __disableRuntime_spec {s : Shares} (hc : cpu ∈ D.span) (hL : Level D s.rq) :
    Level D (__disableRuntime D cpu s).rq ∧ (__disableRuntime D cpu s).warned = s.warned := by
  have hR := takeBack_spec hc hL
  have htime : ∀ j ∈ D.span, ((takeBack D cpu s.rq).1 j).rtTime.toNat < 2 ^ 63 := fun j hj => by
    rw [hR.time]
    exact hL.time j hj
  refine ⟨⟨?_, time_update htime (htime cpu hc)⟩, ?_⟩
  · rw [__disableRuntime, held_update hc, hR.others, Runtime.level_of_inf rfl, length_erase hc, Nat.succ_mul]
    omega
  · show (s.warned || decide ((takeBack D cpu s.rq).2 ≠ 0)) = s.warned
    rw [hR.want]
    simp

theorem __enableRuntime_held {s : Shares} (hc : cpu ∈ D.span) (hL : Level D s.rq) :
    held D (__enableRuntime D cpu s).rq = D.span.length * D.rtRuntime.toNat ↔
      (s.rq cpu).rtRuntime = runtimeInf ∨ (s.rq cpu).rtRuntime = D.rtRuntime := by
  have hheld := hL.held
  have hnew : (⟨D.rtRuntime, 0, false⟩ : Runtime).level D = D.rtRuntime.toNat := by rw [Runtime.level, ite_self]
  rw [__enableRuntime, held_update hc, hnew, ← hheld, held_eq hc]
  by_cases hinf : (s.rq cpu).rtRuntime = runtimeInf
  · simp only [Runtime.level_of_inf hinf, hinf, true_or]
  · rw [Runtime.level_of_enabled (Runtime.enabled_iff.2 hinf)]
    constructor
    · intro h
      exact .inr (eq_of_toNat_eq (by omega))
    · intro h
      rw [h.resolve_left hinf]

end

/-! ## No more than the period -/

/-- Enabled runqueues have at most the period, which is an `s64`. -/
structure Capped (D : Domain) (f : Nat → Runtime) : Prop where
  le : ∀ i, (f i).enabled = true → (f i).rtRuntime.toNat ≤ D.rtPeriod.toNat
  time : ∀ i, (f i).rtTime.toNat < 2 ^ 63
  period : D.rtPeriod.toNat < 2 ^ 63

section

variable {D : Domain} {f : Nat → Runtime} {cpu i : Nat} {r want : U64}

theorem Capped.update (h : Capped D f) {x : Runtime} (hx : x.enabled = true → x.rtRuntime.toNat ≤ D.rtPeriod.toNat)
    (ht : x.rtTime.toNat < 2 ^ 63) : Capped D (update f i x) := by
  refine ⟨fun j => ?_, fun j => ?_, h.period⟩ <;> by_cases hji : j = i
  · subst hji
    rw [update_self]
    exact hx
  · rw [update_of_ne hji]
    exact h.le j
  · subst hji
    rw [update_self]
    exact ht
  · rw [update_of_ne hji]
    exact h.time j

theorem Capped.set (h : Capped D f) (hr : r.toNat ≤ D.rtPeriod.toNat) : Capped D (setRuntime f i r) :=
  h.update (fun _ => hr) (h.time i)

/-- A loan is no more than the lender has, and no more than the borrower can take. -/
theorem lent_le {b l : Runtime} (hp : D.rtPeriod.toNat < 2 ^ 63) (hb : b.rtRuntime.toNat ≤ D.rtPeriod.toNat)
    (hl : l.rtRuntime.toNat ≤ D.rtPeriod.toNat) (ht : l.rtTime.toNat < 2 ^ 63)
    (hspare : 0 < (l.rtRuntime - l.rtTime).toInt) :
    (lent D b l).toNat ≤ l.rtRuntime.toNat ∧ b.rtRuntime.toNat + (lent D b l).toNat ≤ D.rtPeriod.toNat := by
  have hpart := Nat.div_le_self (l.rtRuntime - l.rtTime).toNat (ofNat 64 D.span.length).toNat
  rw [toInt_eq_toNat_cond, toNat_sub] at hspare
  rw [← toNat_udiv, toNat_sub l.rtRuntime] at hpart
  rw [lent]
  generalize (l.rtRuntime - l.rtTime) / ofNat 64 D.span.length = diff at *
  split
  · rename_i hlt
    rw [BitVec.lt_def, toNat_add] at hlt
    rw [toNat_sub]
    omega
  · rename_i hle
    rw [BitVec.lt_def, toNat_add] at hle
    omega

theorem doBalanceFrom_capped : ∀ (is : List Nat) {f : Nat → Runtime}, Capped D f → (f cpu).enabled = true →
    Capped D (doBalanceFrom D cpu is f)
  | [], _, h, _ => h
  | i :: is, f, h, he => by
    rw [doBalanceFrom]
    split
    · exact doBalanceFrom_capped is h he
    rename_i hskip
    split
    · rename_i hspare
      have hi := h.le i (Runtime.enabled_iff.2 (not_or.1 hskip).2)
      have hp := h.period
      obtain ⟨hle, hmax⟩ := lent_le hp (h.le cpu he) hi (h.time i) hspare
      have hhigh : ((f cpu).rtRuntime + lent D (f cpu) (f i)).toNat ≤ D.rtPeriod.toNat := by
        rw [toNat_add, Nat.mod_eq_of_lt (by omega)]
        exact hmax
      have h' := (h.set (i := i) (r := (f i).rtRuntime - lent D (f cpu) (f i))
        (by rw [toNat_sub_of_le (BitVec.le_def.2 hle)]; omega)).set (i := cpu) hhigh
      dsimp only
      split
      · exact h'
      · refine doBalanceFrom_capped is h' (Runtime.enabled_of_lt ?_)
        rw [setRuntime_self]
        exact hhigh.trans_lt hp
    · exact doBalanceFrom_capped is h he

/-- What is wanted is taken from the others; a surplus goes to the first of them. -/
theorem reclaimFrom_capped : ∀ (is : List Nat) {f : Nat → Runtime} {want : U64}, Capped D f →
    (∀ i ∈ is.find? fun i => decide (i ≠ cpu) && (f i).enabled,
      ((f i).rtRuntime.toNat : ℤ) - want.toInt ≤ D.rtPeriod.toNat) → Capped D (reclaimFrom cpu is f want).1
  | [], _, _, h, _ => h
  | i :: is, f, want, h, hfits => by
    rw [reclaimFrom]
    split
    · rename_i hskip
      refine reclaimFrom_capped is h fun j hj => hfits j ?_
      rw [List.find?_cons_of_neg]
      · exact hj
      · rcases hskip with rfl | hinf
        · simp
        · simp [Runtime.enabled, hinf]
    · rename_i hskip
      obtain ⟨hic, hinf⟩ := not_or.1 hskip
      have hi := h.le i (Runtime.enabled_iff.2 hinf)
      have hp := h.period
      have hroom := hfits i (List.find?_cons_of_pos (by simp [hic, Runtime.enabled, hinf]))
      rcases reclaimed_cases want (hi.trans_lt hp) with ⟨hall, hle⟩ | ⟨hpart, hlt⟩
      · simp only [hall, sub_self]
        refine h.set ?_
        have hnew := toNat_sub_of_range hle (by omega)
        omega
      · have h' : Capped D (setRuntime f i ((f i).rtRuntime - (f i).rtRuntime)) :=
          h.set (by rw [sub_self]; exact Nat.zero_le _)
        simp only [hpart]
        split
        · exact h'
        · refine reclaimFrom_capped is h' fun j hj => ?_
          have hj := h'.le j (by have := List.find?_some hj; simp only [Bool.and_eq_true] at this; exact this.2)
          have hwant : 0 ≤ (want - (f i).rtRuntime).toInt := by
            rw [toInt_eq_toNat_cond] at hlt ⊢
            rw [toNat_sub]
            split at hlt <;> split <;> omega
          omega

end

/-! ## Every run -/

namespace ShareOp

variable {D : Domain} {o : ShareOp} {s s' : Shares}

structure Inv (D : Domain) (s : Shares) : Prop extends Level D s.rq where
  warned : s.warned = false

theorem Inv.even (h : Inv D s) : s.Even D := even_iff.2 h.held

theorem mem_span (hs : o.step D s = some s') : o.cpu ∈ D.span := by
  by_contra hm
  unfold step at hs
  rw [if_pos hm] at hs
  cases hs

/-- A careful operation keeps the invariant, and no lender gives away what it has used. -/
theorem Inv.step (h : Inv D s) (hc : o.Careful D s) (hs : o.step D s = some s') : Inv D s' ∧ o.Spares s s' := by
  have hm := mem_span hs
  unfold ShareOp.step at hs
  rw [if_neg (not_not.2 hm)] at hs
  cases o with
  | balance c =>
    obtain ⟨he, rfl⟩ := of_guard hs
    obtain ⟨hL, hsp⟩ := doBalanceFrom_spec hm D.span (List.Subset.refl _) h.toLevel he
    exact ⟨⟨hL, h.warned⟩, hsp.spare⟩
  | disable c =>
    cases hs
    obtain ⟨hL, hw⟩ := __disableRuntime_spec hm h.toLevel
    exact ⟨⟨hL, hw.trans h.warned⟩, trivial⟩
  | enable c =>
    cases hs
    exact ⟨⟨⟨(__enableRuntime_held hm h.toLevel).2 (hc hm), time_update h.time (Nat.two_pow_pos 63)⟩, h.warned⟩, trivial⟩
  | account c t =>
    obtain ⟨ht, rfl⟩ := of_guard hs
    refine ⟨⟨⟨?_, time_update h.time ht⟩, h.warned⟩, trivial⟩
    have hm : c ∈ D.span := hm
    rw [← h.held, held_update hm, held_eq hm]
    rfl

theorem sound_iff (h : Inv D s) : o.Sound D s ↔ o.Careful D s := by
  constructor
  · intro hsound
    cases o with
    | balance c | disable c | account c t => trivial
    | enable c =>
      intro hm
      have hs : step D (enable c) s = some (__enableRuntime D c s) := if_neg (not_not.2 hm)
      exact (__enableRuntime_held hm h.toLevel).1 (even_iff.1 (hsound _ hs).1)
  · intro hc s' hs
    obtain ⟨h', hsp⟩ := h.step hc hs
    exact ⟨h'.even, h'.warned, hsp⟩

theorem Inv.of_start (h : s.Start D) : Inv D s := by
  have hlevel : ∀ i ∈ D.span, (s.rq i).level D = D.rtRuntime.toNat := by
    intro i hi
    rcases h.runtime i hi with hinf | heq
    · exact Runtime.level_of_inf hinf
    · rw [Runtime.level, heq, ite_self]
  refine ⟨⟨?_, h.time⟩, h.warned⟩
  rw [held, owed, map_congr_left hlevel, map_const', sum_replicate_nat]

/-- In all runs the operations keep the shares even, and no warning comes up, just as long as each runqueue that is
enabled was disabled or has exactly `R`. -/
theorem sound_run {os : List ShareOp} (h : s.Start D) : Along (step D) (Sound D) os s ↔ Along (step D) (Careful D) os s :=
  along_congr (I := Inv D) (fun _ _ _ hi hc hs => (hi.step hc hs).1) (fun _ _ hi => sound_iff hi) (Inv.of_start h)

/-- What a runqueue that is disabled has above `R` fits in the first of the others. -/
def Absorbed (D : Domain) (o : ShareOp) (s : Shares) : Prop :=
  match o with
  | disable c => ∀ i ∈ D.span.find? fun i => decide (i ≠ c) && (s.rq i).enabled, (s.rq c).enabled = true →
      (s.rq i).rtRuntime.toNat + (s.rq c).rtRuntime.toNat ≤ D.rtPeriod.toNat + D.rtRuntime.toNat
  | _ => True

instance (D : Domain) (s : Shares) (o : ShareOp) : Decidable (o.Absorbed D s) := by
  cases o <;> unfold Absorbed <;> infer_instance

theorem Capped.step (hR : D.rtRuntime.toNat ≤ D.rtPeriod.toNat) (h : Capped D s.rq) (ha : o.Absorbed D s)
    (hs : o.step D s = some s') : Capped D s'.rq := by
  have hm := mem_span hs
  unfold ShareOp.step at hs
  rw [if_neg (not_not.2 hm)] at hs
  cases o with
  | balance c =>
    obtain ⟨he, rfl⟩ := of_guard hs
    exact doBalanceFrom_capped _ h he
  | disable c =>
    cases hs
    have htake : Capped D (takeBack D c s.rq).1 := by
      unfold takeBack
      split
      · exact h
      · rename_i hne
        have he := Runtime.enabled_iff.2 (not_or.1 hne).1
        refine reclaimFrom_capped _ h fun i hi => ?_
        have hfits := ha i hi he
        have hp := h.period
        rw [toInt_eq_toNat_cond, toNat_sub]
        split <;> omega
    exact htake.update (fun he => absurd rfl (Runtime.enabled_iff.1 he)) (htake.time c)
  | enable c =>
    cases hs
    exact h.update (fun _ => hR) (Nat.two_pow_pos 63)
  | account c t =>
    obtain ⟨ht, rfl⟩ := of_guard hs
    exact h.update (h.le c) ht

/-- No enabled runqueue ever has more than the period, as long as no surplus of one that is disabled takes the first of
the others past it. -/
theorem runtime_capped (hR : D.rtRuntime.toNat ≤ D.rtPeriod.toNat) (h : Capped D s.rq) {os : List ShareOp}
    (ha : Along (step D) (Absorbed D) os s) (hr : run (step D) os s = some s') :
    ∀ i, (s'.rq i).enabled = true → (s'.rq i).rtRuntime.toNat ≤ D.rtPeriod.toNat :=
  (along_invariant (I := fun s => Capped D s.rq) (fun _ _ _ h ha hs => Capped.step hR h ha hs) h ha hr).le

/-! ## Two CPUs -/

/-- Two CPUs with the default of 950 ms in a second. -/
def pair : Domain := ⟨[0, 1], 1000000000, 950000000, by decide, by decide⟩

def fresh : Shares := ⟨fun _ => ⟨950000000, 0, false⟩, false⟩

theorem fresh_start : fresh.Start pair := ⟨fun _ _ => .inr rfl, fun _ _ => Nat.two_pow_pos 63, rfl⟩

instance (o : ShareOp) (s : Shares) : Decidable (o.Careful pair s) := by
  cases o <;> unfold Careful <;> infer_instance

/-- CPU 0 borrows from CPU 1 and goes offline, and CPU 1 gets the surplus back. Then CPU 0 borrows once more, and CPU 1
goes offline and comes back. -/
def hotplug : List ShareOp :=
  [account 0 960000000, balance 0, disable 0, enable 0, account 0 960000000, balance 0, disable 1, enable 1]

theorem sound_hotplug : fresh.Start pair ∧ run (step pair) hotplug fresh ≠ none ∧ Along (step pair)
    (Sound pair) hotplug fresh :=
  ⟨fresh_start, isSome_iff_ne_none.1 (by decide), (sound_run fresh_start).2 (by decide)⟩

/-- CPU 1 has room for the surplus of CPU 0. -/
theorem runtime_capped_hotplug : ∃ s', run (step pair) hotplug fresh = some s' ∧
    ∀ i, (s'.rq i).enabled = true → (s'.rq i).rtRuntime.toNat ≤ 1000000000 :=
  have hcapped : Capped pair fresh.rq := ⟨fun _ _ => show 950000000 ≤ 1000000000 by decide, fun _ =>
    Nat.two_pow_pos 63, by decide⟩
  have habsorbed : Along (step pair) (Absorbed pair) hotplug fresh := by decide
  ⟨_, rfl, runtime_capped (D := pair) (by decide) hcapped habsorbed rfl⟩

/-- CPU 0 and CPU 1 borrow a full period from CPU 2; then CPU 0 goes offline, and CPU 1 gets its surplus. -/
theorem runtime_above_period :
    ∃ s', run (step ⟨[0, 1, 2], 1000000000, 950000000, by decide, by decide⟩)
      [account 0 2000000000, account 1 2000000000, balance 0, balance 1, disable 0] fresh = some s' ∧
      (s'.rq 1).enabled = true ∧ (s'.rq 1).rtRuntime = 1050000000 :=
  ⟨_, rfl, by decide, by decide⟩

/-- CPU 0 borrows from CPU 1 before that comes online for the first time; then both go offline. -/
def lateStart : List ShareOp := [account 0 960000000, balance 0, enable 1, disable 0, disable 1]

/-- The two CPUs have more than `2 * R`, and the second that goes offline cannot hand on what it has. -/
theorem uneven_lateStart : fresh.Start pair ∧ (run (step pair) (lateStart.take 3) fresh).map
    (fun s => decide (s.Even pair)) = some false ∧
    (run (step pair) lateStart fresh).map Shares.warned = some true :=
  ⟨fresh_start, by decide, by decide⟩

end ShareOp

end KernelSched.Rt
