import Mathlib.Data.Fintype.BigOperators
import KernelSched.Lib.Handover
import KernelSched.Load.CalcLoad
import KernelSched.Units

/-!
# The count of active tasks behind the load averages

`calc_load_tasks` sums what the runqueues have accounted of their active tasks (`calc_load_active`). A CPU with a tick
adds the difference itself. A CPU that stops its tick leaves the difference in one of two slots, `calc_load_nohz`;
`calc_global_load` drains them in turn. The slot is chosen by `calc_load_write_idx` from an index and two times, each
read at a moment of its own, while `calc_global_load` changes both. Every access to what the CPUs share is a step here
and the steps of different calls may be in any order.

Which slot is chosen matters for the averages, not for the count. The slots are those of `Handover` (`Tracks`), so that
each difference gets into the count once, and soon; and what the calls have put there or added themselves is what the
runqueues have accounted, up to what is still in flight (`State.handed`).

`calc_load_fold_active` is one step: it runs under the lock of the runqueue, or on its CPU with interrupts off.
`calc_global_load` runs under `jiffies_lock`, which also guards `jiffies`, so there is one pass at a time.
-/

namespace KernelSched.Load

open Wrap Run Handover Function Multiset

/-! ## Model -/

def loadFreq (hz : U64) : U64 := 5 * hz + 1

/-- `EXP_1`, `EXP_5` and `EXP_15` -/
def exp : Fin 3 → U64
  | 0 => 1884
  | 1 => 2014
  | 2 => 2037

/-- What is read of `struct rq` -/
structure Rq where
  nrRunning : BitVec 32
  nrUninterruptible : BitVec 32
  calcLoadActive : U64
  calcLoadUpdate : U64
  deriving DecidableEq

def calcLoadFoldActive (adjust : U64) (q : Rq) : U64 × Rq :=
  let nrActive := q.nrRunning.setWidth 64 - adjust
  let nrActive := nrActive + q.nrUninterruptible.signExtend 64
  if nrActive ≠ q.calcLoadActive then (nrActive - q.calcLoadActive, { q with calcLoadActive := nrActive }) else (0, q)

/-- The next access of a call on behalf of a runqueue -/
inductive Call (C : Type)
  | out
  /-- `calc_global_load_tick`, with the difference -/
  | tick (cpu : C) (delta : U64)
  /-- `calc_load_migrate` -/
  | migrate (delta : U64)
  /-- `calc_load_write_idx` within `calc_load_nohz_fold`: the index is read, then `jiffies`, then the time of the next
  window. -/
  | readIdx (delta : U64)
  | readJiffies (delta : U64) (idx : BitVec 32)
  | readUpdate (delta : U64) (idx : BitVec 32) (jiffies : U64)
  | addNohz (delta : U64) (slot : Bool)
  /-- The two tests of `calc_load_nohz_stop` -/
  | stop (cpu : C)
  | stopWindow (cpu : C)
  deriving DecidableEq

/-- The next access of a `calc_global_load` call that is past its test, with `sample_window` as long as it is used -/
inductive Pass
  | out
  | readIdx (window : U64)
  | peek (window : U64) (slot : Bool)
  | exchange (window : U64) (slot : Bool)
  | add (window : U64) (delta : U64)
  | average (window : U64)
  | update (window : U64)
  /-- `calc_global_nohz` -/
  | nohz
  | nohzUpdate (update : U64)
  | flip
  deriving DecidableEq

structure State (C T : Type) where
  jiffies : U64
  calcLoadUpdate : U64
  calcLoadTasks : U64
  avenrun : Fin 3 → U64
  calcLoadNohz : Bool → U64
  calcLoadIdx : BitVec 32
  rq : C → Rq
  call : T → Call C
  pass : Pass

def slotOf (idx : BitVec 32) : Bool := idx &&& 1 ≠ 0

/-- `if (delta) atomic_long_add(delta, ..)` -/
def addDelta (delta v : U64) : U64 := if delta ≠ 0 then v + delta else v

def activeOf (tasks : U64) : U64 := if 0 < tasks.toInt then tasks * fixed1 else 0

/-- The cycles that `calc_global_nohz` catches up with -/
def missed (hz jiffies window : U64) : U64 := 1 + (jiffies - window - 10).sdiv (loadFreq hz)

/-- The threads `T` make calls on behalf of the CPUs `C`. -/
inductive Op (C T : Type)
  /-- Time passes, under `jiffies_lock`. -/
  | jiffies (ticks : U64)
  | counts (cpu : C) (nrRunning nrUninterruptible : BitVec 32)
  | tick (t : T) (cpu : C)
  | migrate (t : T) (cpu : C)
  | nohzFold (t : T) (cpu : C)
  | nohzStop (t : T) (cpu : C)
  | access (t : T)
  /-- `calc_global_load` is called, under `jiffies_lock`. -/
  | globalLoad
  | passAccess

namespace State

variable {C T : Type} [DecidableEq C] [DecidableEq T]

def setRq (cpu : C) (q : Rq) (s : State C T) : State C T := { s with rq := update s.rq cpu q }

def setCall (t : T) (call : Call C) (s : State C T) : State C T := { s with call := update s.call t call }

/-- `calc_load_fold_active`, and what is done with the difference -/
def fold (t : T) (cpu : C) (adjust : U64) (next : U64 → Call C) (s : State C T) : State C T :=
  let r := calcLoadFoldActive adjust (s.rq cpu)
  (s.setRq cpu r.2).setCall t (next r.1)

def access (hz : U64) (t : T) (s : State C T) : Option (State C T) :=
  match s.call t with
  | .out => none
  | .tick cpu delta =>
    let q := s.rq cpu
    some (({ s with calcLoadTasks := addDelta delta s.calcLoadTasks }.setRq cpu
      { q with calcLoadUpdate := q.calcLoadUpdate + loadFreq hz }).setCall t .out)
  | .migrate delta => some ({ s with calcLoadTasks := addDelta delta s.calcLoadTasks }.setCall t .out)
  | .readIdx delta => some (s.setCall t (.readJiffies delta s.calcLoadIdx))
  | .readJiffies delta idx => some (s.setCall t (.readUpdate delta idx s.jiffies))
  | .readUpdate delta idx jiffies =>
    let idx := if !before jiffies s.calcLoadUpdate then idx + 1 else idx
    some (s.setCall t (.addNohz delta (slotOf idx)))
  | .addNohz delta slot =>
    let nohz := update s.calcLoadNohz slot (s.calcLoadNohz slot + delta)
    some ({ s with calcLoadNohz := nohz }.setCall t .out)
  | .stop cpu => some (s.setCall t (if before s.jiffies (s.rq cpu).calcLoadUpdate then .out else .stopWindow cpu))
  | .stopWindow cpu =>
    let q := s.rq cpu
    let update := if before s.jiffies (q.calcLoadUpdate + 10) then q.calcLoadUpdate + loadFreq hz else q.calcLoadUpdate
    some ((s.setRq cpu { q with calcLoadUpdate := update }).setCall t .out)

def passAccess (hz : U64) (s : State C T) : Option (State C T) :=
  match s.pass with
  | .out => none
  | .readIdx window => some { s with pass := .peek window (slotOf s.calcLoadIdx) }
  | .peek window slot => some { s with pass := if s.calcLoadNohz slot ≠ 0 then .exchange window slot else .add window 0 }
  | .exchange window slot =>
    let nohz := update s.calcLoadNohz slot 0
    some { s with calcLoadNohz := nohz, pass := .add window (s.calcLoadNohz slot) }
  | .add window delta => some { s with calcLoadTasks := addDelta delta s.calcLoadTasks, pass := .average window }
  | .average window =>
    let active := activeOf s.calcLoadTasks
    some { s with avenrun := fun k => calcLoad (s.avenrun k) (exp k) active, pass := .update window }
  | .update window => some { s with calcLoadUpdate := window + loadFreq hz, pass := .nohz }
  | .nohz =>
    let window := s.calcLoadUpdate
    if !before s.jiffies (window + 10) then
      let n := missed hz s.jiffies window
      let active := activeOf s.calcLoadTasks
      some { s with
        avenrun := fun k => calcLoadN (s.avenrun k) (exp k) active (n.setWidth 32).toNat
        pass := .nohzUpdate (window + n * loadFreq hz) }
    else some { s with pass := .flip }
  | .nohzUpdate update => some { s with calcLoadUpdate := update, pass := .flip }
  | .flip => some { s with calcLoadIdx := s.calcLoadIdx + 1, pass := .out }

def step (hz : U64) (op : Op C T) (s : State C T) : Option (State C T) :=
  match op with
  | .jiffies ticks => if s.pass = .out then some { s with jiffies := s.jiffies + ticks } else none
  | .counts cpu nrRunning nrUninterruptible =>
    some (s.setRq cpu { s.rq cpu with nrRunning := nrRunning, nrUninterruptible := nrUninterruptible })
  | .tick t cpu =>
    if s.call t = .out then
      if before s.jiffies (s.rq cpu).calcLoadUpdate then some s else some (s.fold t cpu 0 fun delta => .tick cpu delta)
    else none
  | .migrate t cpu => if s.call t = .out then some (s.fold t cpu 1 fun delta => .migrate delta) else none
  | .nohzFold t cpu =>
    if s.call t = .out then some (s.fold t cpu 0 fun delta => if delta ≠ 0 then .readIdx delta else .out) else none
  | .nohzStop t cpu =>
    if s.call t = .out then
      some ((s.setRq cpu { s.rq cpu with calcLoadUpdate := s.calcLoadUpdate }).setCall t (.stop cpu))
    else none
  | .access t => s.access hz t
  | .globalLoad =>
    if s.pass = .out then
      let window := s.calcLoadUpdate
      if before s.jiffies (window + 10) then some s else some { s with pass := .readIdx window }
    else none
  | .passAccess => s.passAccess hz

/-- `sched_init` -/
def init (hz jiffies : U64) : State C T where
  jiffies := jiffies
  calcLoadUpdate := jiffies + loadFreq hz
  calcLoadTasks := 0
  avenrun _ := 0
  calcLoadNohz _ := 0
  calcLoadIdx := 0
  rq _ := ⟨0, 0, 0, jiffies + loadFreq hz⟩
  call _ := .out
  pass := .out

end State

/-! ## What the calls have handed on -/

/-- A difference that a call has taken from a runqueue and not yet added anywhere -/
def Call.held {C : Type} : Call C → U64
  | .out => 0
  | .tick _ delta => delta
  | .migrate delta => delta
  | .readIdx delta => delta
  | .readJiffies delta _ => delta
  | .readUpdate delta _ _ => delta
  | .addNohz delta _ => delta
  | .stop _ => 0
  | .stopWindow _ => 0

theorem addDelta_eq (delta v : U64) : addDelta delta v = v + delta := by
  unfold addDelta
  split
  · rfl
  · next h => rw [not_not.1 h, add_zero]

theorem calcLoadFoldActive_spec (adjust : U64) (q : Rq) :
    (calcLoadFoldActive adjust q).2.calcLoadActive = q.calcLoadActive + (calcLoadFoldActive adjust q).1 := by
  unfold calcLoadFoldActive
  dsimp only
  split
  · exact (add_sub_cancel _ _).symm
  · exact (add_zero _).symm

namespace State

variable {C T : Type} [DecidableEq C] [Fintype C] [Fintype T] {s s' : State C T} {b : Slots U64} {hz : U64}
  {op : Op C T}

/-- What is accounted and no longer held by a call -/
def handed (s : State C T) : U64 := ∑ c, (s.rq c).calcLoadActive - ∑ t, (s.call t).held

omit [Fintype T] in
theorem sum_setRq (s : State C T) (cpu : C) (q : Rq) :
    ∑ c, ((s.setRq cpu q).rq c).calcLoadActive + (s.rq cpu).calcLoadActive =
      ∑ c, (s.rq c).calcLoadActive + q.calcLoadActive :=
  Ledger.sum_update s.rq Rq.calcLoadActive cpu q

theorem handed_setRq (s : State C T) (cpu : C) (q : Rq) (hq : q.calcLoadActive = (s.rq cpu).calcLoadActive) :
    (s.setRq cpu q).handed = s.handed := by
  have hsum := sum_setRq s cpu q
  rw [hq] at hsum
  exact congrArg (· - ∑ t, (s.call t).held) (add_right_cancel hsum)

theorem handed_setUpdate (s : State C T) (cpu : C) (update : U64) :
    (s.setRq cpu { s.rq cpu with calcLoadUpdate := update }).handed = s.handed :=
  handed_setRq s cpu _ rfl

variable [DecidableEq T]

omit [DecidableEq C] in
theorem handed_setCall (s : State C T) (t : T) (call : Call C) :
    (s.setCall t call).handed = s.handed + ((s.call t).held - call.held) := by
  have hsum : ∑ u, ((s.setCall t call).call u).held = ∑ u, (s.call u).held + call.held - (s.call t).held :=
    eq_sub_of_add_eq (Ledger.sum_update s.call Call.held t call)
  rw [handed, hsum]
  show ∑ c, (s.rq c).calcLoadActive - _ = ∑ c, (s.rq c).calcLoadActive - _ + _
  abel

theorem handed_fold {t : T} (hout : s.call t = .out) (cpu : C) (adjust : U64) {next : U64 → Call C}
    (hnext : ∀ delta, (next delta).held = delta) : (s.fold t cpu adjust next).handed = s.handed := by
  have hsum := sum_setRq s cpu (calcLoadFoldActive adjust (s.rq cpu)).2
  rw [calcLoadFoldActive_spec, ← add_assoc, add_right_comm] at hsum
  rw [fold, handed_setCall, hnext]
  show ∑ c, ((s.setRq cpu _).rq c).calcLoadActive - ∑ t, (s.call t).held + ((s.call t).held - _) = _
  rw [add_right_cancel hsum, hout, handed]
  show _ + (0 - _) = _
  abel

/-! ## The slots -/

def acts (op : Op C T) (s : State C T) : List (Act U64) :=
  match op with
  | .access t =>
    match s.call t with
    | .tick _ delta => [.direct delta]
    | .migrate delta => [.direct delta]
    | .addNohz delta slot => [.put slot delta]
    | _ => []
  | .globalLoad => if before s.jiffies (s.calcLoadUpdate + 10) then [] else [.begin]
  | .passAccess =>
    match s.pass with
    -- An empty slot is not exchanged. What was put there cancels, and is taken by reading 0.
    | .peek _ slot => if s.calcLoadNohz slot ≠ 0 then [] else [.take]
    | .exchange _ _ => [.take]
    | .add _ _ => [.give]
    | .flip => [.finish]
    | _ => []
  | _ => []

end State

/-- What a pass has taken from a slot and not yet added -/
def Pass.held : Pass → U64
  | .add _ delta => delta
  | _ => 0

def Pass.phase : Pass → Phase
  | .out => .idle
  | .readIdx _ => .begun
  | .peek _ _ => .begun
  | .exchange _ _ => .begun
  | .add _ _ => .taken
  | _ => .given

def Pass.slot : Pass → Option Bool
  | .peek _ slot => some slot
  | .exchange _ slot => some slot
  | _ => none

theorem slotOf_succ (idx : BitVec 32) : slotOf (idx + 1) = !slotOf idx := by
  have hmod : ∀ i : BitVec 32, slotOf i = decide (i.toNat % 2 = 1) := by
    intro i
    have hand : (i &&& 1).toNat = i.toNat % 2 := by
      exact Nat.and_one_is_mod _
    have hzero : (i &&& 1 ≠ 0) ↔ i.toNat % 2 = 1 := by
      rw [ne_eq, BitVec.toNat_eq, hand]
      show ¬i.toNat % 2 = 0 ↔ _
      omega
    exact decide_eq_decide.2 hzero
  rw [hmod, hmod, BitVec.toNat_add, ← decide_not]
  refine decide_eq_decide.2 ?_
  show (idx.toNat + 1) % 2 ^ 32 % 2 = 1 ↔ _
  omega

namespace State

variable {C T : Type} [Fintype C] [Fintype T] {s s' : State C T} {b : Slots U64} {hz : U64} {op : Op C T}

/-- The slots of `Handover` have the history of the words. -/
structure Tracks (s : State C T) (b : Slots U64) : Prop where
  nohz : ∀ i, s.calcLoadNohz i = total (b.slot i)
  held : s.pass.held = total b.hand
  tasks : s.calcLoadTasks = b.direct.sum + total b.given
  turn : slotOf s.calcLoadIdx = b.turn
  phase : s.pass.phase = b.phase
  slot : ∀ i ∈ s.pass.slot, i = b.turn
  handed : s.handed = b.direct.sum + total b.put

theorem tracks_init (jiffies : U64) : Tracks (init hz jiffies : State C T) Slots.init where
  nohz _ := by simp [init, Slots.init]
  held := by simp [init, Slots.init, Pass.held]
  tasks := by simp [init, Slots.init]
  turn := by
    show slotOf 0 = false
    decide
  phase := rfl
  slot _ h := by cases h
  handed := by simp [handed, init, Slots.init, Call.held]

section

variable (h : Tracks s b) {delta : U64}

include h

theorem Tracks.goesOn {pass : Pass} (hheld : pass.held = s.pass.held) (hphase : pass.phase = s.pass.phase)
    (hslot : ∀ i ∈ pass.slot, i = slotOf s.calcLoadIdx) (update : U64) (avenrun : Fin 3 → U64) :
    Tracks { s with calcLoadUpdate := update, avenrun := avenrun, pass := pass } b :=
  ⟨h.nohz, hheld.trans h.held, h.tasks, h.turn, hphase.trans h.phase, fun i hi => (hslot i hi).trans h.turn, h.handed⟩

theorem Tracks.frame (hnohz : s'.calcLoadNohz = s.calcLoadNohz)
    (htasks : s'.calcLoadTasks = s.calcLoadTasks) (hidx : s'.calcLoadIdx = s.calcLoadIdx) (hpass : s'.pass = s.pass)
    (hhanded : s'.handed = s.handed) : Tracks s' b where
  nohz i := by rw [hnohz, h.nohz]
  held := by rw [hpass, h.held]
  tasks := by rw [htasks, h.tasks]
  turn := by rw [hidx, h.turn]
  phase := by rw [hpass, h.phase]
  slot i hi := h.slot i (by rwa [hpass] at hi)
  handed := by rw [hhanded, h.handed]

/-- A call adds its difference itself. -/
theorem Tracks.direct (hnohz : s'.calcLoadNohz = s.calcLoadNohz)
    (htasks : s'.calcLoadTasks = s.calcLoadTasks + delta) (hidx : s'.calcLoadIdx = s.calcLoadIdx)
    (hpass : s'.pass = s.pass)
    (hhanded : s'.handed = s.handed + delta) : Tracks s' { b with direct := b.direct + {delta} } where
  nohz i := by rw [hnohz, h.nohz]
  held := by rw [hpass, h.held]
  tasks := by
    rw [htasks, h.tasks, sum_add, sum_singleton]
    abel
  turn := by rw [hidx, h.turn]
  phase := by rw [hpass, h.phase]
  slot i hi := h.slot i (by rwa [hpass] at hi)
  handed := by
    rw [hhanded, h.handed, sum_add, sum_singleton]
    abel

/-- A call leaves its difference in a slot. -/
theorem Tracks.put {slot : Bool} (hnohz : s'.calcLoadNohz = update s.calcLoadNohz slot (s.calcLoadNohz slot + delta))
    (htasks : s'.calcLoadTasks = s.calcLoadTasks) (hidx : s'.calcLoadIdx = s.calcLoadIdx) (hpass : s'.pass = s.pass)
    (hhanded : s'.handed = s.handed + delta) : ∃ b', run Handover.step [.put slot delta] b = some b' ∧ Tracks s' b' := by
  refine ⟨_, rfl, fun i => ?_, ?_, ?_, ?_, ?_, fun i hi => ?_, ?_⟩
  · rw [hnohz]
    rcases eq_or_ne i slot with rfl | hne
    · simp [h.nohz]
    · simp [hne, h.nohz]
  · rw [hpass, h.held]
  · rw [htasks, h.tasks]
  · rw [hidx, h.turn]
  · rw [hpass, h.phase]
  · rw [hpass] at hi
    exact h.slot i hi
  · rw [hhanded, h.handed, total_add, total_singleton, add_assoc]

theorem Tracks.take {slot : Bool} (hphase : s.pass.phase = .begun) (hslot : s.pass.slot = some slot)
    (hheld : s.pass.held = 0) (window : U64) : ∃ b', run Handover.step [.take] b = some b' ∧
      Tracks { s with
        calcLoadNohz := update s.calcLoadNohz slot 0
        pass := .add window (s.calcLoadNohz slot) } b' := by
  obtain rfl : slot = b.turn := h.slot slot hslot
  have hbegun : b.phase = .begun := h.phase.symm.trans hphase
  have htake : run Handover.step [.take] b = some { b with
      slot := update b.slot b.turn 0, hand := b.hand + b.slot b.turn, phase := .taken } := by
    simp [run, Handover.step, hbegun]
  refine ⟨_, htake, fun i => ?_, ?_, h.tasks, h.turn, rfl, fun i hi => (by cases hi), h.handed⟩
  · rcases eq_or_ne i b.turn with rfl | hne
    · simp
    · simp [hne, h.nohz]
  · show s.calcLoadNohz b.turn = total (b.hand + b.slot b.turn)
    rw [total_add, ← h.held, hheld, zero_add, h.nohz]

theorem Tracks.give {window : U64} (hpass : s.pass = .add window delta) : ∃ b', run Handover.step [.give] b = some b' ∧
      Tracks { s with calcLoadTasks := addDelta delta s.calcLoadTasks, pass := .average window } b' := by
  have htaken : b.phase = .taken := by rw [← h.phase, hpass]; rfl
  have hhand : delta = total b.hand := by rw [← h.held, hpass]; rfl
  have hgive : run Handover.step [.give] b = some { b with hand := 0, given := b.given + b.hand, phase := .given } := by
    simp [run, Handover.step, htaken]
  refine ⟨_, hgive, h.nohz, total_zero.symm, ?_, h.turn, rfl, fun i hi => (by cases hi), h.handed⟩
  show addDelta delta s.calcLoadTasks = b.direct.sum + total (b.given + b.hand)
  rw [addDelta_eq, h.tasks, hhand, total_add, add_assoc]

theorem Tracks.finish (hphase : s.pass.phase = .given) (hheld : s.pass.held = 0) :
    ∃ b', run Handover.step [.finish] b = some b' ∧
      Tracks { s with calcLoadIdx := s.calcLoadIdx + 1, pass := .out } b' := by
  have hgiven : b.phase = .given := h.phase.symm.trans hphase
  have hfinish : run Handover.step [.finish] b = some { b with turn := !b.turn, phase := .idle } := by
    simp [run, Handover.step, hgiven]
  refine ⟨_, hfinish, h.nohz, ?_, h.tasks, ?_, rfl, fun i hi => (by cases hi), h.handed⟩
  · rw [← h.held, hheld]
    rfl
  · rw [slotOf_succ, h.turn]

theorem Tracks.begin (hout : s.pass = .out) (window : U64) :
    ∃ b', run Handover.step [.begin] b = some b' ∧ Tracks { s with pass := .readIdx window } b' := by
  have hidle : b.phase = .idle := by rw [← h.phase, hout]; rfl
  have hbegin : run Handover.step [.begin] b = some { b with phase := .begun, begun := b.begun + 1 } := by
    simp [run, Handover.step, hidle]
  refine ⟨_, hbegin, h.nohz, ?_, h.tasks, h.turn, rfl, fun i hi => (by cases hi), h.handed⟩
  rw [← h.held, hout]
  rfl

theorem Tracks.passAccess (hstep : s.passAccess hz = some s') :
    ∃ b', run Handover.step (acts (.passAccess : Op C T) s) b = some b' ∧ Tracks s' b' := by
  -- A pass that has given what it took has nothing in hand and no slot to look at.
  have hgiven : ∀ {pass : Pass} (update : U64) (avenrun : Fin 3 → U64), s.pass.phase = .given → s.pass.held = 0 →
      pass.phase = .given → pass.held = 0 → pass.slot = none →
      ∃ b', run Handover.step [] b = some b' ∧
        Tracks { s with calcLoadUpdate := update, avenrun := avenrun, pass := pass } b' := by
    intro pass update avenrun hphase hheld hphase' hheld' hslot
    exact ⟨b, rfl, h.goesOn (hheld'.trans hheld.symm) (hphase'.trans hphase.symm) (by simp [hslot]) update avenrun⟩
  unfold State.passAccess at hstep
  unfold acts
  split at hstep
  · cases hstep
  · next window hpass =>
    cases hstep
    rw [hpass]
    refine ⟨b, rfl, h.goesOn (by rw [hpass]; rfl) (by rw [hpass]; rfl) (fun i hi => ?_) _ _⟩
    cases hi
    rfl
  · next window slot hpass =>
    cases hstep
    rw [hpass]
    dsimp only
    split
    · refine ⟨b, rfl, h.goesOn (by rw [hpass]; rfl) (by rw [hpass]; rfl) (fun i hi => ?_) _ _⟩
      cases hi
      exact (h.slot slot (by rw [hpass]; rfl)).trans h.turn.symm
    · next hzero =>
      have htake := h.take (by rw [hpass]; rfl) (by rw [hpass]; rfl) (by rw [hpass]; rfl) window
      have hempty : update s.calcLoadNohz slot 0 = s.calcLoadNohz := by
        rw [← not_not.1 hzero, update_eq_self]
      rw [hempty, not_not.1 hzero] at htake
      exact htake
  · next window slot hpass =>
    cases hstep
    rw [hpass]
    exact h.take (by rw [hpass]; rfl) (by rw [hpass]; rfl) (by rw [hpass]; rfl) window
  · next window delta hpass =>
    cases hstep
    rw [hpass]
    exact h.give hpass
  · next window hpass =>
    cases hstep
    rw [hpass] at hgiven ⊢
    exact hgiven _ _ rfl rfl rfl rfl rfl
  · next window hpass =>
    cases hstep
    rw [hpass] at hgiven ⊢
    exact hgiven _ _ rfl rfl rfl rfl rfl
  · next hpass =>
    rw [hpass] at hgiven ⊢
    dsimp only at hstep
    split at hstep
    all_goals
      cases hstep
      exact hgiven _ _ rfl rfl rfl rfl rfl
  · next update hpass =>
    cases hstep
    rw [hpass] at hgiven ⊢
    exact hgiven _ _ rfl rfl rfl rfl rfl
  · next hpass =>
    cases hstep
    rw [hpass]
    exact h.finish (by rw [hpass]; rfl) (by rw [hpass]; rfl)

variable [DecidableEq C] [DecidableEq T]

theorem Tracks.access {t : T} (hstep : s.access hz t = some s') :
    ∃ b', run Handover.step (acts (.access t) s) b = some b' ∧ Tracks s' b' := by
  -- A call that goes on to `call` keeps its difference or hands it on.
  have hkeep : ∀ call : Call C, call.held = (s.call t).held →
      ∃ b', run Handover.step [] b = some b' ∧ Tracks (s.setCall t call) b' := by
    refine fun call hheld => ⟨b, rfl, h.frame rfl rfl rfl rfl ?_⟩
    rw [handed_setCall, hheld, sub_self, add_zero]
  have hhand : ∀ s' : State C T, s'.handed = s.handed → s'.call t = s.call t →
      (s'.setCall t .out).handed = s.handed + (s.call t).held := by
    intro s' hhanded hcall
    rw [handed_setCall, hhanded, hcall]
    exact congrArg _ (sub_zero _)
  unfold State.access at hstep
  unfold acts
  dsimp only
  split at hstep
  · cases hstep
  · next cpu delta hcall =>
    cases hstep
    have hhanded := hhand _ (handed_setUpdate s cpu ((s.rq cpu).calcLoadUpdate + loadFreq hz)) rfl
    rw [hcall] at hhanded ⊢
    exact ⟨_, rfl, h.direct rfl (addDelta_eq _ _) rfl rfl hhanded⟩
  · next delta hcall =>
    cases hstep
    have hhanded := hhand s rfl rfl
    rw [hcall] at hhanded ⊢
    exact ⟨_, rfl, h.direct rfl (addDelta_eq _ _) rfl rfl hhanded⟩
  · next delta hcall =>
    cases hstep
    rw [hcall]
    exact hkeep _ (by rw [hcall]; rfl)
  · next delta idx hcall =>
    cases hstep
    rw [hcall]
    exact hkeep _ (by rw [hcall]; rfl)
  · next delta idx jiffies hcall =>
    cases hstep
    rw [hcall]
    exact hkeep _ (by rw [hcall]; rfl)
  · next delta slot hcall =>
    cases hstep
    have hhanded := hhand s rfl rfl
    rw [hcall] at hhanded ⊢
    exact h.put rfl rfl rfl rfl hhanded
  · next cpu hcall =>
    cases hstep
    rw [hcall]
    refine hkeep _ ?_
    rw [hcall]
    split <;> rfl
  · next cpu hcall =>
    cases hstep
    rw [hcall]
    refine ⟨b, rfl, h.frame rfl rfl rfl rfl ((hhand _ (handed_setUpdate s cpu _) rfl).trans ?_)⟩
    rw [hcall]
    exact add_zero _

theorem Tracks.step (hstep : step hz op s = some s') : ∃ b', run Handover.step (acts op s) b = some b' ∧
    Tracks s' b' := by
  have hframe : ∀ {s' : State C T}, s'.calcLoadNohz = s.calcLoadNohz → s'.calcLoadTasks = s.calcLoadTasks →
      s'.calcLoadIdx = s.calcLoadIdx → s'.pass = s.pass → s'.handed = s.handed →
      ∃ b', run Handover.step [] b = some b' ∧ Tracks s' b' :=
    fun hnohz htasks hidx hpass hhanded => ⟨b, rfl, h.frame hnohz htasks hidx hpass hhanded⟩
  cases op with
  | jiffies ticks =>
    obtain ⟨-, rfl⟩ := of_guard hstep
    exact hframe rfl rfl rfl rfl rfl
  | counts cpu nrRunning nrUninterruptible =>
    cases hstep
    exact hframe rfl rfl rfl rfl (handed_setRq s cpu _ rfl)
  | tick t cpu =>
    obtain ⟨hout, hstep⟩ := Option.ite_none_right_eq_some.1 hstep
    split at hstep
    · cases hstep
      exact hframe rfl rfl rfl rfl rfl
    · cases hstep
      exact hframe rfl rfl rfl rfl (handed_fold hout cpu 0 fun _ => rfl)
  | migrate t cpu =>
    obtain ⟨hout, rfl⟩ := of_guard hstep
    exact hframe rfl rfl rfl rfl (handed_fold hout cpu 1 fun _ => rfl)
  | nohzFold t cpu =>
    obtain ⟨hout, rfl⟩ := of_guard hstep
    refine hframe rfl rfl rfl rfl (handed_fold hout cpu 0 fun delta => ?_)
    split
    · rfl
    · next hzero => exact (not_not.1 hzero).symm
  | nohzStop t cpu =>
    obtain ⟨hout, rfl⟩ := of_guard hstep
    refine hframe rfl rfl rfl rfl ?_
    rw [handed_setCall, handed_setUpdate]
    show s.handed + ((s.call t).held - 0) = s.handed
    rw [hout, sub_zero]
    exact add_zero s.handed
  | access t => exact h.access hstep
  | globalLoad =>
    obtain ⟨hout, hstep⟩ := Option.ite_none_right_eq_some.1 hstep
    simp only [acts]
    split at hstep
    · next hbefore =>
      cases hstep
      rw [if_pos hbefore]
      exact hframe rfl rfl rfl rfl rfl
    · next hbefore =>
      cases hstep
      rw [if_neg hbefore]
      exact h.begin hout s.calcLoadUpdate
  | passAccess => exact h.passAccess hstep

end

variable [DecidableEq C] [DecidableEq T]

/-! ## Every interleaving -/

/-- No difference is on its way. -/
structure Quiet (s : State C T) : Prop where
  call : ∀ t, (s.call t).held = 0
  pass : s.pass.held = 0

end State

end KernelSched.Load
