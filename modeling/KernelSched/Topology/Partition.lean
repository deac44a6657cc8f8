import Mathlib.Data.Finset.Disjoint
import Mathlib.Data.List.Pairwise

/-!
# Partitions of the CPUs into scheduling domains

`partition_sched_domains_locked` compares the domains there are with those that are wanted, twice: once to destroy what is
wanted no more, and once to build what is new. The two have to agree on what stays. They do, unless the caller gives no
masks and wants no domain: then the first comparison has the default mask, and the second has none, which shows if there
is a domain of that mask (`partition_sched_domains_right`).

A domain is a mask with its attributes, the default ones where there is no array of them. What a CPU is attached to is the
domain that was built, with the number of the call that built it; `none` is the default root domain.
-/

namespace KernelSched.Topology

open List hiding Disjoint

/-! ## Model -/

structure Domain where
  mask : Finset Nat
  attr : Int
  deriving DecidableEq

structure Built where
  dom : Domain
  call : Nat
  deriving DecidableEq

structure Domains where
  /-- `doms_cur` and `dattr_cur` -/
  cur : List Domain
  attach : Nat → Option Built

/-- `cpu_attach_domain` for the CPUs of each mask -/
def attachEach (b : Domain → Option Built) (l : List Domain) (attach : Nat → Option Built) : Nat → Option Built :=
  l.foldl (fun attach d cpu => if cpu ∈ d.mask then b d else attach cpu) attach

/-- `partition_sched_domains_locked`, call number `call`; `default` is `cpu_active_mask` without isolated CPUs, and all
allocations succeed -/
def partitionSchedDomainsLocked (call : Nat) (newTopology : Bool) (default : Finset Nat) (ndomsNew : Nat)
    (domsNew : Option (List Domain)) (s : Domains) : Domains :=
  let new := domsNew.getD [⟨default, -1⟩]
  let n := if domsNew = none then 1 else ndomsNew
  let destroyed := s.cur.filter fun d => newTopology ∨ d ∉ new.take n
  let built := (new.take ndomsNew).filter fun d => newTopology ∨ d ∉ s.cur
  ⟨new.take ndomsNew, attachEach (fun d => some ⟨d, call⟩) built (attachEach (fun _ => none) destroyed s.attach)⟩

/-! ## The two comparisons agree -/

def Apart (doms : List Domain) : Prop := doms.Pairwise fun d d' => Disjoint d.mask d'.mask

/-- Each CPU is attached to what was built for its mask, and those of no mask to the default root domain. -/
structure Domains.Attached (s : Domains) : Prop where
  apart : Apart s.cur
  mask : ∀ d ∈ s.cur, ∀ cpu ∈ d.mask, ∃ call, s.attach cpu = some ⟨d, call⟩
  default : ∀ cpu, (∀ d ∈ s.cur, cpu ∉ d.mask) → s.attach cpu = none

section

variable {b : Domain → Option Built} {d d' : Domain} {l : List Domain} {cpu : Nat}

theorem Apart.not_mem (h : Apart l) (hd : d ∈ l) (hd' : d' ∈ l) (hne : d' ≠ d) (hcpu : cpu ∈ d.mask) : cpu ∉ d'.mask :=
  have : Std.Symm fun d d' : Domain => Disjoint d.mask d'.mask := ⟨fun _ _ h => h.symm⟩
  Finset.disjoint_left.1 (Pairwise.forall h hd hd' hne.symm) hcpu

theorem attachEach_of_not_mem (attach : Nat → Option Built) (h : ∀ d ∈ l, cpu ∉ d.mask) :
    attachEach b l attach cpu = attach cpu := by
  induction l generalizing attach with
  | nil => rfl
  | cons d l ih =>
    obtain ⟨hd, h⟩ := forall_mem_cons.1 h
    exact (ih _ h).trans (if_neg hd)

theorem attachEach_of_mem (hl : Apart l) (attach : Nat → Option Built) (hd : d ∈ l) (hcpu : cpu ∈ d.mask) :
    attachEach b l attach cpu = b d := by
  induction l generalizing attach with
  | nil => cases hd
  | cons x l ih =>
    obtain ⟨hx, hl⟩ := pairwise_cons.1 hl
    rcases mem_cons.1 hd with rfl | hd
    · have hout : ∀ d' ∈ l, cpu ∉ d'.mask := fun d' hd' => Finset.disjoint_left.1 (hx d' hd') hcpu
      exact (attachEach_of_not_mem _ hout).trans (if_pos hcpu)
    · exact ih hl _ hd

end

/-- The wanted domains are there, the others are gone, and what was there and is wanted is as it was. -/
structure Domains.Partitioned (s : Domains) (newTopology : Bool) (wanted : List Domain) (s' : Domains) : Prop where
  cur : s'.cur = wanted
  attached : s'.Attached
  kept : newTopology = false → ∀ d ∈ wanted, d ∈ s.cur → ∀ cpu ∈ d.mask, s'.attach cpu = s.attach cpu

section

variable {s : Domains} {newTopology : Bool} {call : Nat} {keep wanted : List Domain}

/-- The domains with `keep` to compare with when they are destroyed, and `wanted` when they are built -/
def Domains.rebuild (newTopology : Bool) (call : Nat) (keep wanted : List Domain) (s : Domains) : Domains where
  cur := wanted
  attach := attachEach (fun d => some ⟨d, call⟩) (wanted.filter fun d => newTopology ∨ d ∉ s.cur)
    (attachEach (fun _ => none) (s.cur.filter fun d => newTopology ∨ d ∉ keep) s.attach)

/-- A domain that is in both lists is not touched. -/
theorem Domains.Attached.rebuild_of_mem (h : s.Attached) (hwanted : Apart wanted) (hsub : wanted ⊆ keep)
    (htop : newTopology = false) {d : Domain} (hd : d ∈ wanted) (hcur : d ∈ s.cur) {cpu : Nat} (hcpu : cpu ∈ d.mask) :
    (s.rebuild newTopology call keep wanted).attach cpu = s.attach cpu := by
  refine (attachEach_of_not_mem _ fun x hx => ?_).trans (attachEach_of_not_mem _ fun x hx => ?_) <;>
    simp only [htop, mem_filter, Bool.false_eq_true, false_or, decide_eq_true_eq] at hx
  · exact hwanted.not_mem hd hx.1 (fun heq => hx.2 (heq ▸ hcur)) hcpu
  · exact h.apart.not_mem hcur hx.1 (fun heq => hx.2 (heq ▸ hsub hd)) hcpu

/-- The CPUs of a domain that is not wanted are attached to the default root domain just if it is destroyed. -/
theorem Domains.Attached.rebuild_of_not_mem (h : s.Attached) {d : Domain} (hcur : d ∈ s.cur) {cpu : Nat}
    (hcpu : cpu ∈ d.mask)
    (hout : ∀ d ∈ wanted, cpu ∉ d.mask) :
    (s.rebuild newTopology call keep wanted).attach cpu = none ↔ newTopology = true ∨ d ∉ keep := by
  show attachEach _ _ _ cpu = none ↔ _
  rw [attachEach_of_not_mem _ fun d hd => hout d (mem_of_mem_filter hd)]
  constructor
  · intro hnone
    by_contra hkeep
    rw [not_or, Bool.not_eq_true, not_not] at hkeep
    obtain ⟨c, hc⟩ := h.mask d hcur cpu hcpu
    rw [attachEach_of_not_mem, hc] at hnone
    · cases hnone
    · intro x hx
      simp only [hkeep.1, mem_filter, Bool.false_eq_true, false_or, decide_eq_true_eq] at hx
      exact h.apart.not_mem hcur hx.1 (fun heq => hx.2 (heq ▸ hkeep.2)) hcpu
  · exact fun hgone => attachEach_of_mem (h.apart.sublist filter_sublist) _
      (mem_filter.2 ⟨hcur, decide_eq_true hgone⟩) hcpu

/-- Where all that is wanted is kept, the result is right just if what is not wanted is destroyed. -/
theorem Domains.Attached.partitioned_iff (h : s.Attached) (hwanted : Apart wanted) (hsub : wanted ⊆ keep) :
    s.Partitioned newTopology wanted (s.rebuild newTopology call keep wanted) ↔
      ∀ d ∈ s.cur, ∀ cpu ∈ d.mask, (∀ d' ∈ wanted, cpu ∉ d'.mask) → newTopology = true ∨ d ∉ keep := by
  refine ⟨fun hright d hd cpu hcpu hout => (h.rebuild_of_not_mem hd hcpu hout).1 (hright.attached.default cpu hout),
    fun hgone => ⟨rfl, ⟨hwanted, fun d hd cpu hcpu => ?_, fun cpu hout => ?_⟩, fun htop d hd hcur cpu =>
      h.rebuild_of_mem hwanted hsub htop hd hcur⟩⟩
  · by_cases hstays : newTopology = false ∧ d ∈ s.cur
    · obtain ⟨c, hc⟩ := h.mask d hstays.2 cpu hcpu
      exact ⟨c, (h.rebuild_of_mem hwanted hsub hstays.1 hd hstays.2 hcpu).trans hc⟩
    · rw [not_and_or, Bool.not_eq_false] at hstays
      exact ⟨call, attachEach_of_mem (hwanted.sublist filter_sublist) _ (mem_filter.2 ⟨hd, decide_eq_true hstays⟩) hcpu⟩
  · by_cases hcur : ∃ d ∈ s.cur, cpu ∈ d.mask
    · obtain ⟨d, hd, hcpu⟩ := hcur
      exact (h.rebuild_of_not_mem hd hcpu hout).2 (hgone d hd cpu hcpu hout)
    · push Not at hcur
      refine (attachEach_of_not_mem _ fun d hd => hout d (mem_of_mem_filter hd)).trans ?_
      exact (attachEach_of_not_mem _ fun d hd => hcur d (mem_of_mem_filter hd)).trans (h.default cpu hcur)

end

/-- A call is right, except where it gives no masks, wants no domain, and finds the one of the default mask. -/
theorem partition_sched_domains_right {s : Domains} {newTopology : Bool} {default : Finset Nat} {ndomsNew : Nat}
    {domsNew : Option (List Domain)} (call : Nat) (h : s.Attached)
    (hnew : Apart ((domsNew.getD [⟨default, -1⟩]).take ndomsNew)) (hnull : domsNew = none → ndomsNew ≤ 1) :
    s.Partitioned newTopology ((domsNew.getD [⟨default, -1⟩]).take ndomsNew)
      (partitionSchedDomainsLocked call newTopology default ndomsNew domsNew s) ↔
    (domsNew = none → ndomsNew = 0 → newTopology = false → ⟨default, -1⟩ ∈ s.cur → default = ∅) := by
  cases domsNew with
  | some doms =>
    refine (h.partitioned_iff hnew (Subset.refl _)).trans (iff_of_true (fun d _ cpu hcpu hout => ?_) nofun)
    exact .inr fun hd => hout d hd hcpu
  | none =>
    have hcases : ndomsNew = 0 ∨ ndomsNew = 1 := by have := hnull rfl; omega
    rcases hcases with rfl | rfl
    · refine (h.partitioned_iff hnew (nil_subset _)).trans ⟨fun hgone _ _ htop hd => ?_, fun hempty d hd cpu hcpu _ => ?_⟩
      · refine Finset.eq_empty_of_forall_notMem fun cpu hcpu => ?_
        simpa [htop] using hgone _ hd cpu hcpu fun _ h => nomatch h
      · by_contra hkeep
        rw [not_or, Bool.not_eq_true, not_not] at hkeep
        obtain rfl := mem_singleton.1 hkeep.2
        rw [hempty rfl rfl hkeep.1 hd] at hcpu
        exact absurd hcpu (Finset.notMem_empty cpu)
    · refine (h.partitioned_iff hnew (Subset.refl _)).trans (iff_of_true (fun d _ cpu hcpu hout => ?_) nofun)
      exact .inr fun hd => hout d hd hcpu

def onePartition : Domains := ⟨[⟨{0, 1}, -1⟩], fun cpu => if cpu < 2 then some ⟨⟨{0, 1}, -1⟩, 0⟩ else none⟩

theorem attached_onePartition : onePartition.Attached := by
  refine ⟨pairwise_singleton .., by simp [onePartition], fun cpu hout => if_neg fun hlt => ?_⟩
  exact hout _ mem_cons_self (by simp; omega)

/-- The fallback of a caller with no memory, and two domains in place of one -/
theorem partition_default :
    onePartition.Partitioned false [⟨{0, 1}, -1⟩] (partitionSchedDomainsLocked 1 false {0, 1} 1 none onePartition) ∧
    onePartition.Partitioned false [⟨{0}, -1⟩, ⟨{1}, -1⟩]
      (partitionSchedDomainsLocked 1 false {0, 1} 2 (some [⟨{0}, -1⟩, ⟨{1}, -1⟩]) onePartition) :=
  ⟨(@partition_sched_domains_right onePartition false {0, 1} 1 none 1 attached_onePartition (pairwise_singleton ..)
      fun _ => le_rfl).2 nofun,
    (@partition_sched_domains_right onePartition false {0, 1} 2 (some [⟨{0}, -1⟩, ⟨{1}, -1⟩]) 1 attached_onePartition
      (by simp [Apart]) nofun).2 nofun⟩

/-- No domain is wanted, but the one of the default mask stays. -/
theorem partition_none : (partitionSchedDomainsLocked 1 false {0, 1} 0 none onePartition).cur = [] ∧
    ¬ (partitionSchedDomainsLocked 1 false {0, 1} 0 none onePartition).Attached :=
  ⟨rfl, fun h => absurd (h.default 0 fun d hd => nomatch hd) (by decide)⟩

end KernelSched.Topology
