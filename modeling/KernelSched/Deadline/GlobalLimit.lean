import KernelSched.Deadline.Bandwidth
import KernelSched.Lib.Run

/-!
# What the CPUs of a root domain keep of the limit

Every CPU keeps the bandwidth and the ratio of the global limit (`max_bw`, `bw_ratio`) and what its share of the
admitted bandwidth leaves of it (`extra_bw`). Admitting a task takes its share off on all active CPUs of the domain;
a change of the limit sets the three words anew, but only on the first CPU of each domain, and without the shares.
`Accounts.Consistent` is what they should be. It survives a change of the limit exactly under `LimitChangeOk`.
-/

set_option linter.style.nameCheck false

namespace KernelSched.Deadline

open Wrap Run List Function Machine
open BitVec (ofNat ofInt ofInt_add)

/-! ## Admission -/

/-- `(s32)tsk_bw / cpus`: the share of one CPU. -/
def perCpu (tskBw cpus : Nat) : ℤ := (ofNat 32 tskBw).toInt.tdiv cpus

/-- The loop of `__dl_update` over the active CPUs of a domain. -/
def updateLoop (bw : U64) : List Cpu → (Nat → DlRq) → Nat → DlRq
  | [], dl => dl
  | c :: cs, dl => updateLoop bw cs (update dl c.id { dl c.id with extraBw := (dl c.id).extraBw + bw })

namespace Machine

def __dlUpdate (r : Nat) (bw : U64) (s : Machine) : Machine :=
  { s with dl := updateLoop bw ((s.span r).filter Cpu.active) s.dl }

def setTotal (r total : Nat) (s : Machine) : Machine :=
  { s with
    rds := update s.rds r { s.rds r with totalBw := total }
    fresh := by
      intro r'
      have := s.fresh r'
      by_cases h : r' = r
      · subst h; simpa using this
      · simpa [h] using this }

def __dlAdd (r tskBw : Nat) (s : Machine) : Machine :=
  (s.setTotal r ((s.rds r).totalBw + tskBw)).__dlUpdate r (-ofInt 64 (perCpu tskBw (s.dlBwCpus r)))

def __dlSub (r tskBw : Nat) (s : Machine) : Machine :=
  (s.setTotal r ((s.rds r).totalBw - tskBw)).__dlUpdate r (ofInt 64 (perCpu tskBw (s.dlBwCpus r)))

end Machine

/-- A machine and the bandwidths its domains have admitted and not yet given back. -/
structure Accounts where
  machine : Machine
  admitted : Nat → List Nat

/-- Admission and removal of a task, and a write to the limit. -/
inductive LimitOp where
  | add (r tskBw : Nat)
  | sub (r tskBw : Nat)
  | setLimit (lim : RtLimit) (rtOk : Bool)

/-- Only bandwidth that has been admitted is removed. -/
def LimitOp.step : LimitOp → Accounts → Option Accounts
  | .add r tskBw, a =>
    some { machine := a.machine.__dlAdd r tskBw, admitted := update a.admitted r (tskBw :: a.admitted r) }
  | .sub r tskBw, a =>
    if tskBw ∈ a.admitted r then
      some { machine := a.machine.__dlSub r tskBw, admitted := update a.admitted r ((a.admitted r).erase tskBw) }
    else none
  | .setLimit lim rtOk, a => some { a with machine := (a.machine.schedRtHandler lim rtOk).2 }

namespace Accounts

/-- The share of one CPU of a domain in what the domain has admitted. -/
def share (a : Accounts) (r : Nat) : U64 :=
  ofInt 64 ((a.admitted r).map fun b => perCpu b (a.machine.dlBwCpus r)).sum

/-- Every CPU has the bandwidth and ratio of the limit, and every active one what its share leaves of the bandwidth. -/
def Consistent (a : Accounts) : Prop :=
  ∀ c ∈ a.machine.cpus,
    (a.machine.dl c.id).maxBw = (initDlRqBwRatio a.machine.limit).maxBw ∧
    (a.machine.dl c.id).bwRatio = (initDlRqBwRatio a.machine.limit).bwRatio ∧
    (c.active = true →
      (a.machine.dl c.id).extraBw = ofNat 64 (a.machine.dl c.id).maxBw - a.share c.rd)

end Accounts

/-- A change of the limit that leaves the CPUs consistent: a first CPU of a domain that is active has no share to lose,
and where a domain has further CPUs, the new limit has the bandwidth and ratio of the old one. -/
def LimitChangeOk (old new : RtLimit) (share : Nat → U64) : List Nat → List Cpu → Prop
  | _, [] => True
  | seen, c :: cs =>
    (if c.rd ∈ seen then
      (initDlRqBwRatio new).maxBw = (initDlRqBwRatio old).maxBw ∧
        (initDlRqBwRatio new).bwRatio = (initDlRqBwRatio old).bwRatio
    else c.active = true → share c.rd = 0) ∧ LimitChangeOk old new share (c.rd :: seen) cs

instance decidableLimitChangeOk (old new : RtLimit) (share : Nat → U64) : ∀ (seen : List Nat) (cs : List Cpu),
    Decidable (LimitChangeOk old new share seen cs)
  | _, [] => .isTrue trivial
  | seen, c :: cs =>
    have := decidableLimitChangeOk old new share (c.rd :: seen) cs
    inferInstanceAs (Decidable (_ ∧ _))

/-- The condition on an operation: an accepted change of the limit is one of those. -/
def LimitOp.ok : LimitOp → Accounts → Prop
  | .setLimit lim rtOk, a =>
    (a.machine.schedRtHandler lim rtOk).1 = true → LimitChangeOk a.machine.limit lim a.share [] a.machine.cpus
  | _, _ => True

instance (op : LimitOp) (a : Accounts) : Decidable (op.ok a) := by cases op <;> unfold LimitOp.ok <;> infer_instance

/-! ## Admission keeps the CPUs consistent -/

theorem updateLoop_of_not_mem {bw : U64} {i : Nat} (cs : List Cpu) (dl : Nat → DlRq) (hi : i ∉ cs.map Cpu.id) :
    updateLoop bw cs dl i = dl i := by
  induction cs generalizing dl with
  | nil => rfl
  | cons c cs ih =>
    rw [map_cons, mem_cons, not_or] at hi
    rw [updateLoop, ih _ hi.2]
    simp [hi.1]

variable {c : Cpu}

theorem updateLoop_of_mem {bw : U64} (cs : List Cpu) (dl : Nat → DlRq) (hn : (cs.map Cpu.id).Nodup)
    (hc : c ∈ cs) : updateLoop bw cs dl c.id = { dl c.id with extraBw := (dl c.id).extraBw + bw } := by
  induction cs generalizing dl with
  | nil => cases hc
  | cons c' cs ih =>
    rw [map_cons, nodup_cons] at hn
    rw [updateLoop]
    rcases mem_cons.1 hc with rfl | hc
    · rw [updateLoop_of_not_mem _ _ hn.1]
      simp
    · have hne : c.id ≠ c'.id := fun h => hn.1 (h ▸ mem_map_of_mem hc)
      rw [ih _ hn.2 hc]
      simp [hne]

theorem Machine.dlUpdate_dl (s : Machine) (r : Nat) (bw : U64) (hc : c ∈ s.cpus) :
    (s.__dlUpdate r bw).dl c.id = if c.rd = r ∧ c.active = true then
      { s.dl c.id with extraBw := (s.dl c.id).extraBw + bw } else s.dl c.id := by
  have hsub : ((s.span r).filter Cpu.active).Sublist s.cpus := filter_sublist.trans filter_sublist
  have hn : (((s.span r).filter Cpu.active).map Cpu.id).Nodup := s.ids.sublist (hsub.map _)
  show updateLoop bw ((s.span r).filter Cpu.active) s.dl c.id = _
  split
  · rename_i h
    apply updateLoop_of_mem _ _ hn
    simp [span, hc, h]
  · rename_i h
    apply updateLoop_of_not_mem
    intro hm
    obtain ⟨c', hc', hid⟩ := mem_map.1 hm
    -- the CPU with this number is `c` itself
    have he : c' = c := inj_on_of_nodup_map s.ids (hsub.subset hc') hc hid
    subst he
    simp only [span, mem_filter, decide_eq_true_iff] at hc'
    exact h ⟨hc'.1.2, hc'.2⟩

variable {a : Accounts}

/-- Moving `d` from what a domain has left to what it has admitted keeps the CPUs consistent. -/
theorem Accounts.Consistent.update {a' : Accounts} {r t : Nat} {d : U64} (h : a.Consistent)
    (hm : a'.machine = (a.machine.setTotal r t).__dlUpdate r (-d)) (hr : a'.share r = a.share r + d)
    (hne : ∀ r', r' ≠ r → a'.share r' = a.share r') : a'.Consistent := by
  intro c hc
  rw [hm] at hc
  obtain ⟨h₁, h₂, h₃⟩ := h c hc
  have hdl := (a.machine.setTotal r t).dlUpdate_dl r (-d) (c := c) hc
  rw [← hm] at hdl
  have hlim : a'.machine.limit = a.machine.limit := by rw [hm]; rfl
  rw [hlim, hdl]
  by_cases hcr : c.rd = r ∧ c.active = true
  · rw [if_pos hcr]
    refine ⟨h₁, h₂, fun hact => ?_⟩
    show (a.machine.dl c.id).extraBw + -d = ofNat 64 (a.machine.dl c.id).maxBw - a'.share c.rd
    rw [h₃ hact, hcr.1, hr]
    ring
  · rw [if_neg hcr]
    refine ⟨h₁, h₂, fun hact => ?_⟩
    show (a.machine.dl c.id).extraBw = ofNat 64 (a.machine.dl c.id).maxBw - a'.share c.rd
    rw [h₃ hact, hne c.rd fun hrd => hcr ⟨hrd, hact⟩]

theorem Accounts.Consistent.add (h : a.Consistent) (r tskBw : Nat) :
    ({ machine := a.machine.__dlAdd r tskBw,
       admitted := Function.update a.admitted r (tskBw :: a.admitted r) } : Accounts).Consistent := by
  refine h.update rfl ?_ ?_
  · show ofInt 64 ((Function.update a.admitted r (tskBw :: a.admitted r) r).map
      fun b => perCpu b (a.machine.dlBwCpus r)).sum = _
    rw [update_self, map_cons, sum_cons, ofInt_add, add_comm]
    rfl
  · intro r' hr'
    show ofInt 64 ((Function.update a.admitted r (tskBw :: a.admitted r) r').map
      fun b => perCpu b (a.machine.dlBwCpus r')).sum = _
    rw [update_of_ne hr']
    rfl

theorem Accounts.Consistent.sub (h : a.Consistent) {r tskBw : Nat} (hb : tskBw ∈ a.admitted r) :
    ({ machine := a.machine.__dlSub r tskBw,
       admitted := Function.update a.admitted r ((a.admitted r).erase tskBw) } : Accounts).Consistent := by
  refine h.update (d := -ofInt 64 (perCpu tskBw (a.machine.dlBwCpus r))) (by rw [neg_neg]; rfl) ?_ ?_
  · show ofInt 64 ((Function.update a.admitted r ((a.admitted r).erase tskBw) r).map
      fun b => perCpu b (a.machine.dlBwCpus r)).sum = _
    have hs := sum_map_erase (fun b => perCpu b (a.machine.dlBwCpus r)) hb
    rw [update_self, Accounts.share, ← hs, ofInt_add]
    ring
  · intro r' hr'
    show ofInt 64 ((Function.update a.admitted r ((a.admitted r).erase tskBw) r').map
      fun b => perCpu b (a.machine.dlBwCpus r')).sum = _
    rw [update_of_ne hr']
    rfl

/-! ## Changing the limit -/

/-- `P` of every CPU with the ratios the loop of `sched_dl_do_global` leaves it. -/
def AfterGlobal (P : Cpu → DlRq → Prop) (new : DlRq) (dl : Nat → DlRq) : List Nat → List Cpu → Prop
  | _, [] => True
  | seen, c :: cs => P c (if c.rd ∈ seen then dl c.id else new) ∧ AfterGlobal P new dl (c.rd :: seen) cs

theorem afterGlobal_congr {P : Cpu → DlRq → Prop} {new : DlRq} {dl dl' : Nat → DlRq} (cs : List Cpu)
    (h : ∀ c ∈ cs, dl c.id = dl' c.id) (seen : List Nat) :
        AfterGlobal P new dl seen cs ↔ AfterGlobal P new dl' seen cs := by
  induction cs generalizing seen with
  | nil => exact Iff.rfl
  | cons c cs ih =>
    obtain ⟨hc, hcs⟩ := forall_mem_cons.1 h
    rw [AfterGlobal, AfterGlobal, hc, ih hcs]

/-- The loop sets the ratios of the CPUs whose domain has not been seen before. -/
theorem doGlobalLoop_forall {P : Cpu → DlRq → Prop} {gen : Nat} (lim : RtLimit) (cs : List Cpu) (dl : Nat → DlRq)
    (rds : Nat → RootDomain) (seen : List Nat) (hn : (cs.map Cpu.id).Nodup)
    (hs : ∀ r, (rds r).visitGen = gen ↔ r ∈ seen) :
    (∀ c ∈ cs, P c ((doGlobalLoop gen lim cs (dl, rds)).1 c.id)) ↔ AfterGlobal P (initDlRqBwRatio lim) dl seen cs := by
  induction cs generalizing dl rds seen with
  | nil => simp [AfterGlobal]
  | cons c cs ih =>
    rw [map_cons, nodup_cons] at hn
    rw [forall_mem_cons, AfterGlobal]
    by_cases hv : c.rd ∈ seen
    · have hs' : ∀ r, (rds r).visitGen = gen ↔ r ∈ c.rd :: seen := by
        intro r
        rw [hs, mem_cons]
        exact ⟨.inr, fun h => h.elim (fun h => h ▸ hv) id⟩
      have hl : doGlobalLoop gen lim (c :: cs) (dl, rds) = doGlobalLoop gen lim cs (dl, rds) := by
        rw [doGlobalLoop, if_pos ((hs c.rd).2 hv)]
      rw [hl, if_pos hv, doGlobalLoop_dl_of_not_mem _ _ _ hn.1, ih dl rds (c.rd :: seen) hn.2 hs']
    · have hl : doGlobalLoop gen lim (c :: cs) (dl, rds) =
          doGlobalLoop gen lim cs (update dl c.id (initDlRqBwRatio lim),
            update rds c.rd { rds c.rd with visitGen := gen, bw := lim.bw }) := by
        rw [doGlobalLoop, if_neg (mt (hs c.rd).1 hv)]
      have hs' : ∀ r, (update rds c.rd { rds c.rd with visitGen := gen, bw := lim.bw } r).visitGen = gen ↔
          r ∈ c.rd :: seen := by
        intro r
        by_cases hr : r = c.rd
        · subst hr; simp
        · simp [hr, hs]
      rw [hl, if_neg hv, doGlobalLoop_dl_of_not_mem _ _ _ hn.1, update_self, ih _ _ (c.rd :: seen) hn.2 hs']
      refine and_congr_right fun _ => afterGlobal_congr cs (fun c' hc' => ?_) _
      have hne : c'.id ≠ c.id := fun h => hn.1 (by rw [← h]; exact mem_map_of_mem hc')
      exact update_of_ne hne _ _

/-- What `Accounts.Consistent` asks of one CPU. -/
def Keeps (lim : RtLimit) (share : Nat → U64) (c : Cpu) (d : DlRq) : Prop :=
  d.maxBw = (initDlRqBwRatio lim).maxBw ∧ d.bwRatio = (initDlRqBwRatio lim).bwRatio ∧
    (c.active = true → d.extraBw = ofNat 64 d.maxBw - share c.rd)

variable {share : Nat → U64} {lim : RtLimit}

theorem keeps_init_iff : Keeps lim share c (initDlRqBwRatio lim) ↔ (c.active = true → share c.rd = 0) := by
  have he : (initDlRqBwRatio lim).extraBw = ofNat 64 (initDlRqBwRatio lim).maxBw := by
    unfold initDlRqBwRatio
    split <;> rfl
  unfold Keeps
  rw [he]
  simp only [true_and]
  refine imp_congr_right fun _ => ?_
  constructor
  · intro h
    exact sub_eq_self.1 h.symm
  · intro h
    rw [h, sub_zero]

theorem keeps_iff_of_keeps {old new : RtLimit} {d : DlRq} (h : Keeps old share c d) :
    Keeps new share c d ↔ (initDlRqBwRatio new).maxBw = (initDlRqBwRatio old).maxBw ∧
      (initDlRqBwRatio new).bwRatio = (initDlRqBwRatio old).bwRatio := by
  obtain ⟨h₁, h₂, h₃⟩ := h
  unfold Keeps
  rw [h₁, h₂]
  constructor
  · rintro ⟨e₁, e₂, -⟩
    exact ⟨e₁.symm, e₂.symm⟩
  · rintro ⟨e₁, e₂⟩
    exact ⟨e₁.symm, e₂.symm, by rw [← h₁]; exact h₃⟩

theorem afterGlobal_keeps_iff {old new : RtLimit} {dl : Nat → DlRq} (cs : List Cpu)
    (h : ∀ c ∈ cs, Keeps old share c (dl c.id)) (seen : List Nat) :
    AfterGlobal (Keeps new share) (initDlRqBwRatio new) dl seen cs ↔ LimitChangeOk old new share seen cs := by
  induction cs generalizing seen with
  | nil => exact Iff.rfl
  | cons c cs ih =>
    obtain ⟨hc, hcs⟩ := forall_mem_cons.1 h
    rw [AfterGlobal, LimitChangeOk, ih hcs]
    refine and_congr_left fun _ => ?_
    by_cases hv : c.rd ∈ seen
    · rw [if_pos hv, if_pos hv]
      exact keeps_iff_of_keeps hc
    · rw [if_neg hv, if_neg hv]
      exact keeps_init_iff

/-- Storing a new limit keeps consistent CPUs consistent exactly under the condition. -/
theorem doGlobal_consistent_iff {s : Machine} (h : a.Consistent)
    (hc : s.cpus = a.machine.cpus) (hd : s.dl = a.machine.dl) (hl : s.limit = lim) :
    ({ a with machine := s.schedDlDoGlobal } : Accounts).Consistent ↔
      LimitChangeOk a.machine.limit lim a.share [] a.machine.cpus := by
  have hfresh : ∀ r, (s.rds r).visitGen = s.generation + 1 ↔ r ∈ ([] : List Nat) := by
    intro r
    have := s.fresh r
    simp only [not_mem_nil, iff_false]
    omega
  have hshare : ({ a with machine := s.schedDlDoGlobal } : Accounts).share = a.share := by
    funext r
    show ofInt 64 ((a.admitted r).map fun b => perCpu b (s.dlBwCpus r)).sum = _
    unfold Accounts.share Machine.dlBwCpus Machine.span
    rw [hc]
  have hloop := doGlobalLoop_forall (P := Keeps s.limit a.share) s.limit s.cpus s.dl s.rds [] s.ids hfresh
  have hcons : ({ a with machine := s.schedDlDoGlobal } : Accounts).Consistent ↔
      ∀ c ∈ s.cpus, Keeps s.limit a.share c ((doGlobalLoop (s.generation + 1) s.limit s.cpus (s.dl, s.rds)).1 c.id) := by
    rw [← hshare]
    exact Iff.rfl
  rw [hcons, hloop, hl, hc, hd]
  exact afterGlobal_keeps_iff _ h []

/-! ## Runs -/

theorem LimitOp.step_consistent {op : LimitOp} {a' : Accounts} (h : a.Consistent) (ho : op.ok a)
    (hs : op.step a = some a') : a'.Consistent := by
  cases op with
  | add r tskBw =>
    cases hs
    exact h.add r tskBw
  | sub r tskBw =>
    obtain ⟨hb, rfl⟩ := of_guard hs
    exact h.sub hb
  | setLimit lim rtOk =>
    cases hs
    have ho' : (a.machine.schedRtHandler lim rtOk).1 = true →
      LimitChangeOk a.machine.limit lim a.share [] a.machine.cpus := ho
    unfold schedRtHandler at ho' ⊢
    split at ho'
    · rename_i hv
      rw [if_pos hv]
      simp only at ho' ⊢
      split at ho'
      · rename_i hacc
        rw [if_pos hacc]
        exact (doGlobal_consistent_iff (s := { (a.machine.schedDlGlobalValidate lim).2 with limit := lim })
          h rfl rfl rfl).2 (ho' rfl)
      · rename_i hacc
        rw [if_neg hacc]
        exact h
    · rename_i hv
      rw [if_neg hv]
      exact h

/-- A machine just booted, with nothing admitted. -/
def Accounts.boot (cpus : List Cpu) (ids : (cpus.map Cpu.id).Nodup) (lim : RtLimit) (asym : Bool) : Accounts :=
  { machine := Machine.boot cpus ids lim asym, admitted := fun _ => [] }

theorem Accounts.consistent_boot {cpus : List Cpu} {ids : (cpus.map Cpu.id).Nodup} {asym : Bool} :
    (Accounts.boot cpus ids lim asym).Consistent := by
  intro c _
  exact keeps_init_iff.2 fun _ => rfl

/-- In every run from boot whose accepted changes of the limit meet the condition, all CPUs have the bandwidth and ratio
of the limit, and what their share of the admitted bandwidth leaves. -/
theorem consistent_after_run {cpus : List Cpu} {ids : (cpus.map Cpu.id).Nodup} {lim : RtLimit} {asym : Bool}
    {ops : List LimitOp} {a : Accounts} (ho : Along LimitOp.step LimitOp.ok ops (Accounts.boot cpus ids lim asym))
    (hr : run LimitOp.step ops (Accounts.boot cpus ids lim asym) = some a) : a.Consistent :=
  along_invariant (fun op _ _ h ho hs => op.step_consistent h ho hs) Accounts.consistent_boot ho hr

/-- A task that comes and goes, half the limit after that, and two tasks more -/
def halved : List LimitOp := [.add 0 1000, .sub 0 1000, .setLimit halfLimit true, .add 0 500, .add 1 2000]

/-- Two CPUs with a domain each -/
def apart : Accounts := .boot [⟨0, 0, true, 1024⟩, ⟨1, 1, true, 1024⟩] (by decide) defaultLimit false

theorem consistent_after_lone_cpu : ∃ a, run LimitOp.step halved apart = some a ∧ a.Consistent :=
  ⟨_, rfl, consistent_after_run (show Along LimitOp.step LimitOp.ok halved apart by decide +kernel) rfl⟩

/-- Two CPUs in a domain: halving the limit leaves the second one with the old bandwidth. -/
theorem second_cpu_keeps_old_limit : ∃ a,
    run LimitOp.step [.setLimit halfLimit true]
      (Accounts.boot [⟨0, 0, true, 1024⟩, ⟨1, 0, true, 1024⟩] (by decide) defaultLimit false) = some a ∧
    a.machine.limit = halfLimit ∧ (a.machine.dl 0).maxBw = 524288 ∧ (a.machine.dl 1).maxBw = 996147 ∧
    ¬ a.Consistent := by
  refine ⟨_, rfl, by decide, by decide, by decide, ?_⟩
  intro h
  have h₁ := (h ⟨1, 0, true, 1024⟩ (by decide)).1
  exact absurd h₁ (by decide)

end KernelSched.Deadline
