import KernelSched.Units
import Mathlib.Algebra.Order.BigOperators.Group.List
import Mathlib.Tactic.Ring

/-!
# The bandwidth of root domains and its global limit

Deadline tasks are admitted against the bandwidth of their root domain: a global limit (`sched_rt_runtime_us` over
`sched_rt_period_us`) scaled by the capacity of the domain's CPUs. Changing the limit first validates it against what
every domain has admitted (`schedDlGlobalValidate`), then stores it (`schedDlDoGlobal`). Both loops go over all CPUs and
use a generation number to treat each root domain once.

- The CPUs of a root domain are those attached to it; `span` lists them.
- Bandwidths are natural numbers: a ratio is at most `bwUnit`, so that products with a number of CPUs and sums over
  tasks stay far below 2^64. Only `extra_bw`, which the code lets wrap, is a word.
-/

set_option linter.style.nameCheck false

namespace KernelSched.Deadline

open Function (update)
open Wrap List

/-! ## Ratios -/

def bwShift : Nat := 20

def bwUnit : Nat := 1 <<< bwShift

def ratioShift : Nat := 8

def toRatio (period runtime : Nat) : Nat :=
  if runtime = runtimeInf then bwUnit
  else if period = 0 then 0
  else (runtime <<< bwShift) % 2 ^ 64 / period

/-- The global limit, in nanoseconds. -/
structure RtLimit where
  period : Nat
  runtime : Nat
  deriving Repr, DecidableEq

def maxRtRuntime : Nat := 2 ^ (64 - bwShift) - 1

def schedRtGlobalValidate (lim : RtLimit) : Bool :=
  lim.period ≠ 0 && (lim.runtime = runtimeInf || lim.runtime ≤ lim.period && lim.runtime ≤ maxRtRuntime)

/-- The bandwidth of a limit in `struct dl_bw`; `none` is `-1`, no limit. -/
def RtLimit.bw (lim : RtLimit) : Option Nat :=
  if lim.runtime = runtimeInf then none else some (toRatio lim.period lim.runtime)

/-! ## CPUs and root domains -/

/-- `struct dl_rq`, as far as the limit is concerned. -/
structure DlRq where
  bwRatio : Nat
  maxBw : Nat
  extraBw : U64
  deriving Repr, DecidableEq

def initDlRqBwRatio (lim : RtLimit) : DlRq :=
  if lim.runtime = runtimeInf then
    { bwRatio := 1 <<< ratioShift, maxBw := 1 <<< bwShift, extraBw := BitVec.ofNat 64 (1 <<< bwShift) }
  else
    { bwRatio := toRatio lim.runtime lim.period >>> (bwShift - ratioShift)
      maxBw := toRatio lim.period lim.runtime
      extraBw := BitVec.ofNat 64 (toRatio lim.period lim.runtime) }

/-- A possible CPU and the root domain it is attached to. -/
structure Cpu where
  id : Nat
  rd : Nat
  active : Bool
  /-- `capacity_orig_of` -/
  capacity : Nat
  deriving Repr, DecidableEq

/-- `struct root_domain` with its `dl_bw`. -/
structure RootDomain where
  bw : Option Nat
  totalBw : Nat
  visitGen : Nat
  deriving Repr, DecidableEq

/-- All CPUs, their runqueues and the root domains. No domain has been visited in a generation still to come. -/
structure Machine where
  /-- In the order of `for_each_possible_cpu`. -/
  cpus : List Cpu
  ids : (cpus.map Cpu.id).Nodup
  dl : Nat → DlRq
  rds : Nat → RootDomain
  /-- `dl_generation` -/
  generation : Nat
  limit : RtLimit
  /-- `sched_asym_cpucap_active` -/
  asym : Bool
  fresh : ∀ r, (rds r).visitGen ≤ generation

namespace Machine

def span (s : Machine) (r : Nat) : List Cpu := s.cpus.filter fun c => c.rd = r

def dlBwCpus (s : Machine) (r : Nat) : Nat :=
  if (s.span r).all Cpu.active then (s.span r).length else ((s.span r).filter Cpu.active).length

def __dlBwCapacity (s : Machine) (r : Nat) : Nat := (((s.span r).filter Cpu.active).map Cpu.capacity).sum

/-- The capacity of the domain of `c`, counted in whole CPUs on a machine without asymmetric capacities. -/
def dlBwCapacity (s : Machine) (c : Cpu) : Nat :=
  if !s.asym && c.capacity = schedCapacityScale then s.dlBwCpus c.rd <<< schedCapacityShift else s.__dlBwCapacity c.rd

end Machine

def __dlOverflow (rd : RootDomain) (cap oldBw newBw : Nat) : Bool :=
  match rd.bw with
  | none => false
  | some bw => capScale bw cap < rd.totalBw - oldBw + newBw

/-! ## Changing the limit -/

/-- `dl_bw_visited` marks a domain as treated in a generation. -/
def visit (gen r : Nat) (rds : Nat → RootDomain) : Nat → RootDomain :=
  update rds r { rds r with visitGen := gen }

/-- The loop of `sched_dl_global_validate`; it stops at the first domain that has admitted more. -/
def validateLoop (gen newBw : Nat) (cpusOf : Nat → Nat) : List Cpu → (Nat → RootDomain) → Bool × (Nat → RootDomain)
  | [], rds => (true, rds)
  | c :: cs, rds =>
    if (rds c.rd).visitGen = gen then validateLoop gen newBw cpusOf cs rds
    else if newBw * cpusOf c.rd < (rds c.rd).totalBw then (false, visit gen c.rd rds)
    else validateLoop gen newBw cpusOf cs (visit gen c.rd rds)

/-- The loop of `sched_dl_do_global`: the first CPU of each domain sets the bandwidth of the domain and its own ratios. -/
def doGlobalLoop (gen : Nat) (lim : RtLimit) :
    List Cpu → (Nat → DlRq) × (Nat → RootDomain) → (Nat → DlRq) × (Nat → RootDomain)
  | [], st => st
  | c :: cs, (dl, rds) =>
    if (rds c.rd).visitGen = gen then doGlobalLoop gen lim cs (dl, rds)
    else
      doGlobalLoop gen lim cs (update dl c.id (initDlRqBwRatio lim),
        update rds c.rd { rds c.rd with visitGen := gen, bw := lim.bw })

section

variable {gen newBw : Nat} {cpusOf : Nat → Nat} {lim : RtLimit}

/-- Domains that differ at most in being marked. -/
def Marked (gen : Nat) (rds rds' : Nat → RootDomain) : Prop :=
  ∀ r, rds' r = rds r ∨ rds' r = { rds r with visitGen := gen }

theorem marked_visit (c : Cpu) (rds : Nat → RootDomain) : Marked gen rds (visit gen c.rd rds) := by
  intro r
  by_cases hr : r = c.rd
  · subst hr
    exact .inr (by simp [visit])
  · exact .inl (by simp [visit, hr])

theorem Marked.trans {rds₁ rds₂ rds₃ : Nat → RootDomain} (h : Marked gen rds₁ rds₂) (h' : Marked gen rds₂ rds₃) :
    Marked gen rds₁ rds₃ := by
  intro r
  rcases h r with e | e
  · rcases h' r with e' | e'
    · exact .inl (e'.trans e)
    · exact .inr (by rw [e', e])
  · rcases h' r with e' | e'
    · exact .inr (e'.trans e)
    · exact .inr (by rw [e', e])

theorem Marked.totalBw {rds rds' : Nat → RootDomain} (h : Marked gen rds rds') (r : Nat) :
    (rds' r).totalBw = (rds r).totalBw := by
  rcases h r with e | e <;> rw [e]

theorem Marked.visitGen {rds rds' : Nat → RootDomain} (h : Marked gen rds rds') (r : Nat) :
    (rds' r).visitGen = (rds r).visitGen ∨ (rds' r).visitGen = gen := by
  rcases h r with e | e
  · exact .inl (by rw [e])
  · exact .inr (by rw [e])

section

variable (cs : List Cpu) (rds : Nat → RootDomain)

include cs rds

theorem validateLoop_marked : Marked gen rds (validateLoop gen newBw cpusOf cs rds).2 := by
  induction cs generalizing rds with
  | nil => exact fun r => .inl rfl
  | cons c cs ih =>
    unfold validateLoop
    split
    · exact ih rds
    · split
      · exact marked_visit c rds
      · exact (marked_visit c rds).trans (ih _)

/-- The loop accepts exactly if no domain of a CPU has admitted more than the new bandwidth times its CPUs. A domain that
is marked has been checked before. -/
theorem validateLoop_accepts (h : ∀ r, (rds r).visitGen = gen → (rds r).totalBw ≤ newBw * cpusOf r) :
    (validateLoop gen newBw cpusOf cs rds).1 = true ↔ ∀ c ∈ cs, (rds c.rd).totalBw ≤ newBw * cpusOf c.rd := by
  induction cs generalizing rds with
  | nil => simp [validateLoop]
  | cons c cs ih =>
    rw [forall_mem_cons]
    unfold validateLoop
    split
    · rename_i hv
      rw [ih rds h]
      exact ⟨fun hc => ⟨h c.rd hv, hc⟩, fun hc => hc.2⟩
    · split
      · rename_i hlt
        simp only [Bool.false_eq_true, false_iff]
        intro hc
        omega
      · rename_i hge
        have hm : Marked gen rds (visit gen c.rd rds) := marked_visit c rds
        have h' : ∀ r, (visit gen c.rd rds r).visitGen = gen → (visit gen c.rd rds r).totalBw ≤ newBw * cpusOf r := by
          intro r hr
          rw [hm.totalBw]
          by_cases hrc : r = c.rd
          · subst hrc
            omega
          · exact h r (by simpa [visit, hrc] using hr)
        rw [ih _ h']
        simp only [hm.totalBw]
        exact ⟨fun hc => ⟨by omega, hc⟩, fun hc => hc.2⟩

/-- The domains of the CPUs get the new bandwidth, unless they have been treated before. -/
theorem doGlobalLoop_rds (dl : Nat → DlRq) (r : Nat) : (doGlobalLoop gen lim cs (dl, rds)).2 r =
      if r ∈ cs.map Cpu.rd ∧ (rds r).visitGen ≠ gen then { rds r with visitGen := gen, bw := lim.bw } else rds r := by
  induction cs generalizing dl rds with
  | nil => simp [doGlobalLoop]
  | cons c cs ih =>
    unfold doGlobalLoop
    by_cases hv : (rds c.rd).visitGen = gen
    · rw [if_pos hv, ih]
      by_cases hr : r = c.rd
      · subst hr; simp [hv]
      · simp [hr]
    · rw [if_neg hv, ih]
      by_cases hr : r = c.rd
      · subst hr; simp [hv]
      · simp [hr]

end

theorem validateLoop_fresh {g : Nat} {rds : Nat → RootDomain} (h : ∀ r, (rds r).visitGen ≤ g) (cs : List Cpu)
    (r : Nat) : ((validateLoop (g + 1) newBw cpusOf cs rds).2 r).visitGen ≤ g + 1 := by
  have hm : Marked (g + 1) rds (validateLoop (g + 1) newBw cpusOf cs rds).2 := validateLoop_marked cs rds
  have := h r
  rcases hm.visitGen r with e | e <;> omega

theorem doGlobalLoop_fresh {g : Nat} {rds : Nat → RootDomain} (h : ∀ r, (rds r).visitGen ≤ g) (cs : List Cpu)
    (dl : Nat → DlRq) (r : Nat) : ((doGlobalLoop (g + 1) lim cs (dl, rds)).2 r).visitGen ≤ g + 1 := by
  have := h r
  rw [doGlobalLoop_rds]
  split
  · exact le_rfl
  · omega

theorem doGlobalLoop_dl_of_not_mem (cs : List Cpu) (dl : Nat → DlRq) (rds : Nat → RootDomain) {i : Nat}
    (hi : i ∉ cs.map Cpu.id) : (doGlobalLoop gen lim cs (dl, rds)).1 i = dl i := by
  induction cs generalizing dl rds with
  | nil => rfl
  | cons c cs ih =>
    rw [map_cons, mem_cons, not_or] at hi
    unfold doGlobalLoop
    split
    · exact ih dl rds hi.2
    · rw [ih _ _ hi.2]
      simp [hi.1]

end

namespace Machine

/-- For a limit that is being set -/
def schedDlGlobalValidate (lim : RtLimit) (s : Machine) : Bool × Machine :=
  let r := validateLoop (s.generation + 1) (toRatio lim.period lim.runtime) s.dlBwCpus s.cpus s.rds
  (r.1, { s with
    generation := s.generation + 1
    rds := r.2
    fresh := validateLoop_fresh s.fresh s.cpus })

/-- For the limit in force from now on -/
def schedDlDoGlobal (s : Machine) : Machine :=
  let r := doGlobalLoop (s.generation + 1) s.limit s.cpus (s.dl, s.rds)
  { s with
    generation := s.generation + 1
    dl := r.1
    rds := r.2
    fresh := doGlobalLoop_fresh s.fresh s.cpus s.dl }

/-- `sched_rt_handler`: the limit is validated and then applied, or left as it was. `rtOk` is what
`sched_rt_global_constraints` says of it. -/
def schedRtHandler (lim : RtLimit) (rtOk : Bool) (s : Machine) : Bool × Machine :=
  if schedRtGlobalValidate lim then
    let r := s.schedDlGlobalValidate lim
    if r.1 && rtOk then (true, { r.2 with limit := lim }.schedDlDoGlobal) else (false, r.2)
  else (false, s)

variable {s : Machine} {lim : RtLimit} {c : Cpu}

theorem validate_accepts_iff : (s.schedDlGlobalValidate lim).1 = true ↔
    ∀ c ∈ s.cpus, (s.rds c.rd).totalBw ≤ toRatio lim.period lim.runtime * s.dlBwCpus c.rd := by
  apply validateLoop_accepts s.cpus s.rds
  intro r hr
  have := s.fresh r
  omega

theorem doGlobal_rds (hc : c ∈ s.cpus) : s.schedDlDoGlobal.rds c.rd =
    { s.rds c.rd with visitGen := s.generation + 1, bw := s.limit.bw } := by
  show (doGlobalLoop (s.generation + 1) s.limit s.cpus (s.dl, s.rds)).2 c.rd = _
  rw [doGlobalLoop_rds, if_pos]
  refine ⟨mem_map_of_mem hc, ?_⟩
  have := s.fresh c.rd
  omega

/-! ## Capacities -/

theorem dlBwCpus_eq (s : Machine) (r : Nat) : s.dlBwCpus r = ((s.span r).filter Cpu.active).length := by
  unfold dlBwCpus
  split
  · rename_i h
    rw [filter_eq_self.2 (all_eq_true.1 h)]
  · rfl

/-- The capacity of the domain of `c` counts every active CPU in full. -/
def FullCapacity (s : Machine) (c : Cpu) : Prop :=
  s.asym = false ∧ c.capacity = schedCapacityScale ∨ ∀ c' ∈ s.span c.rd, c'.active = true →
    c'.capacity = schedCapacityScale

/-- A sum of bounded numbers reaches the bound times the length exactly if all of them reach it. -/
theorem sum_ge_iff {b : Nat} {l : List Nat} (h : ∀ x ∈ l, x ≤ b) : l.length * b ≤ l.sum ↔ ∀ x ∈ l, x = b := by
  induction l with
  | nil => simp
  | cons x l ih =>
    obtain ⟨hx, hl⟩ := forall_mem_cons.1 h
    have hle : l.sum ≤ l.length * b := by simpa using sum_le_card_nsmul l b hl
    rw [forall_mem_cons, ← ih hl, sum_cons, length_cons, add_mul, one_mul]
    constructor
    · intro hs
      constructor <;> omega
    · rintro ⟨rfl, hs⟩
      omega

theorem fullCapacity_iff (hcap : ∀ c ∈ s.cpus, c.capacity ≤ schedCapacityScale) (c : Cpu) :
    s.dlBwCpus c.rd * schedCapacityScale ≤ s.dlBwCapacity c ↔ s.FullCapacity c := by
  unfold dlBwCapacity FullCapacity
  by_cases hs : s.asym = false ∧ c.capacity = schedCapacityScale
  · simp [hs, schedCapacityScale, Nat.shiftLeft_eq]
  · have hb : ∀ x ∈ ((s.span c.rd).filter Cpu.active).map Cpu.capacity, x ≤ schedCapacityScale := by
      intro x hx
      obtain ⟨c', hc', rfl⟩ := mem_map.1 hx
      exact hcap c' (mem_of_mem_filter (mem_of_mem_filter hc'))
    have hif : (!s.asym && decide (c.capacity = schedCapacityScale)) = false := by
      simpa using hs
    rw [hif, dlBwCpus_eq, __dlBwCapacity, ← length_map Cpu.capacity]
    simp only [Bool.false_eq_true, if_false]
    rw [sum_ge_iff hb]
    simp only [hs, false_or, forall_mem_map, mem_filter, and_imp]

/-! ## An accepted limit and the admission test -/

def withTotals (totals : Nat → Nat) (s : Machine) : Machine :=
  { s with rds := fun r => { s.rds r with totalBw := totals r }, fresh := s.fresh }

def applyLimit (lim : RtLimit) (s : Machine) : Machine :=
  { (s.schedDlGlobalValidate lim).2 with limit := lim }.schedDlDoGlobal

/-- The admission test of a CPU's domain, adding and removing nothing, reports an overflow. -/
def overflows (s : Machine) (c : Cpu) : Bool := __dlOverflow (s.rds c.rd) (s.dlBwCapacity c) 0 0

theorem capScale_lt_iff {v n t : Nat} : capScale v n < t ↔ v * n < t * schedCapacityScale := by
  unfold capScale schedCapacityScale schedCapacityShift
  rw [Nat.shiftRight_eq_div_pow, Nat.div_lt_iff_lt_mul (by decide)]
  rfl

theorem overflows_applyLimit_iff (s : Machine) (lim : RtLimit) (hc : c ∈ s.cpus) : (s.applyLimit lim).overflows c = true ↔
    lim.runtime ≠ runtimeInf ∧
      toRatio lim.period lim.runtime * s.dlBwCapacity c < (s.rds c.rd).totalBw * schedCapacityScale := by
  have hm : Marked (s.generation + 1) s.rds (s.schedDlGlobalValidate lim).2.rds := validateLoop_marked s.cpus s.rds
  have hr : (s.applyLimit lim).rds c.rd = { (s.schedDlGlobalValidate lim).2.rds c.rd with
      visitGen := (s.schedDlGlobalValidate lim).2.generation + 1, bw := lim.bw } :=
    doGlobal_rds (s := { (s.schedDlGlobalValidate lim).2 with limit := lim }) hc
  have hcap : (s.applyLimit lim).dlBwCapacity c = s.dlBwCapacity c := rfl
  rw [overflows, hr, hcap]
  unfold __dlOverflow RtLimit.bw
  by_cases hi : lim.runtime = runtimeInf
  · simp [hi]
  · simp only [hi, if_false, hm.totalBw, Nat.sub_zero, Nat.add_zero, decide_eq_true_iff, capScale_lt_iff, ne_eq,
      not_false_eq_true, true_and]

end Machine

open Machine

/-- A limit that is accepted whatever the domains have admitted never leaves one of them over the limit, exactly if the
limit is infinite or zero, or every domain's capacity counts its active CPUs in full. -/
theorem accepted_limit_admits_iff {s : Machine} {lim : RtLimit} (hcap : ∀ c ∈ s.cpus, c.capacity ≤ schedCapacityScale) :
    (∀ totals : Nat → Nat, ((s.withTotals totals).schedDlGlobalValidate lim).1 = true →
      ∀ c ∈ s.cpus, ((s.withTotals totals).applyLimit lim).overflows c = false) ↔
    lim.runtime = runtimeInf ∨ toRatio lim.period lim.runtime = 0 ∨ ∀ c ∈ s.cpus, s.FullCapacity c := by
  constructor
  · intro h
    by_contra hn
    rw [not_or, not_or] at hn
    obtain ⟨hinf, hbw, hfull⟩ := hn
    obtain ⟨c, hfull⟩ := not_forall.1 hfull
    obtain ⟨hc, hfull⟩ := Classical.not_imp.1 hfull
    -- every domain has admitted as much as the new limit lets pass
    let totals := fun r => toRatio lim.period lim.runtime * s.dlBwCpus r
    have hacc : ((s.withTotals totals).schedDlGlobalValidate lim).1 = true :=
      validate_accepts_iff.2 fun c _ => le_rfl
    have hov := h totals hacc c hc
    rw [← Bool.not_eq_true] at hov
    apply hov
    apply (overflows_applyLimit_iff (s.withTotals totals) lim hc).2
    refine ⟨hinf, ?_⟩
    show toRatio lim.period lim.runtime * s.dlBwCapacity c <
      toRatio lim.period lim.runtime * s.dlBwCpus c.rd * schedCapacityScale
    rw [mul_assoc]
    refine Nat.mul_lt_mul_of_pos_left ?_ (pos_of_ne_zero hbw)
    rw [← fullCapacity_iff hcap] at hfull
    omega
  · intro h totals hacc c hc
    rw [← Bool.not_eq_true]
    intro hov
    obtain ⟨hinf, hlt⟩ := (overflows_applyLimit_iff (s.withTotals totals) lim hc).1 hov
    have hle : totals c.rd ≤ toRatio lim.period lim.runtime * s.dlBwCpus c.rd := validate_accepts_iff.1 hacc c hc
    have hlt' : toRatio lim.period lim.runtime * s.dlBwCapacity c < totals c.rd * schedCapacityScale := hlt
    rcases h with h | h | h
    · exact hinf h
    · rw [h, zero_mul] at hle hlt'
      have h0 : totals c.rd = 0 := by omega
      rw [h0] at hlt'
      omega
    · have hf := (fullCapacity_iff hcap c).2 (h c hc)
      have h₁ := Nat.mul_le_mul_right schedCapacityScale hle
      have h₂ := Nat.mul_le_mul_left (toRatio lim.period lim.runtime) hf
      rw [← Nat.mul_assoc] at h₂
      omega

/-- A machine just booted with a limit: every CPU and every root domain starts from it. -/
def Machine.boot (cpus : List Cpu) (ids : (cpus.map Cpu.id).Nodup) (lim : RtLimit) (asym : Bool) : Machine where
  cpus := cpus
  ids := ids
  dl := fun _ => initDlRqBwRatio lim
  rds := fun _ => { bw := lim.bw, totalBw := 0, visitGen := 0 }
  generation := 0
  limit := lim
  asym := asym
  fresh := fun _ => le_rfl

/-- The limit a machine boots with: 95% of a second. -/
def defaultLimit : RtLimit := { period := 1000000000, runtime := 950000000 }

def oneCpu : Machine := Machine.boot [⟨0, 0, true, 1024⟩] (by decide) defaultLimit false

/-- One CPU of full capacity and one of half of it, in one domain. -/
def bigLittle : Machine :=
  Machine.boot [⟨0, 0, true, 1024⟩, ⟨1, 0, true, 512⟩] (by decide) defaultLimit true

def halfLimit : RtLimit := { period := 1000000000, runtime := 500000000 }

def fullPair : List Cpu := [⟨0, 0, true, 1024⟩, ⟨1, 0, true, 1024⟩]

/-- Domains of full capacity: an accepted limit always leaves room. -/
theorem accepted_limit_admits_on_full : (∀ c ∈ fullPair, c.capacity ≤ schedCapacityScale) ∧
    ∀ totals : Nat → Nat, let m := (Machine.boot fullPair (by decide) defaultLimit true).withTotals totals
      (m.schedDlGlobalValidate halfLimit).1 = true → ∀ c ∈ fullPair, (m.applyLimit halfLimit).overflows c = false := by
  have h : ∀ c ∈ fullPair, c.capacity = schedCapacityScale := by decide
  refine ⟨fun c hc => (h c hc).le, ?_⟩
  refine (accepted_limit_admits_iff fun c hc => (h c hc).le).2 (.inr (.inr ?_))
  intro c _
  exact .inr fun c' hc' _ => h c' (mem_of_mem_filter hc')

/-- The two CPUs have admitted the bandwidth of one whole CPU, within the default limit; half the limit is then accepted
and exceeded at once. -/
theorem accepted_limit_exceeded : (bigLittle.withTotals fun _ => bwUnit).overflows ⟨0, 0, true, 1024⟩ = false ∧
    ((bigLittle.withTotals fun _ => bwUnit).schedDlGlobalValidate halfLimit).1 = true ∧
    ((bigLittle.withTotals fun _ => bwUnit).applyLimit halfLimit).overflows ⟨0, 0, true, 1024⟩ = true := by
  decide

end KernelSched.Deadline
