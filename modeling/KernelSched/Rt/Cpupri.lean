import Mathlib.Algebra.BigOperators.Ring.Finset
import KernelSched.Lib.Ledger
import KernelSched.Lib.Run
import KernelSched.Rt.Rq
import KernelSched.Units

/-!
# The priority level of every CPU

`struct cpupri` has the CPUs of each priority level: a mask and a count for a level, and the level of each CPU. A CPU
moves in `cpupri_set`, under the lock of its own runqueue only, so the calls for different CPUs interleave, and they all
interleave with the searches of `cpupri_find_fitness`, which take no lock at all.

- `Pc` is where the call for a CPU is: before its next access, with the level the CPU comes from and the one it goes to.
- `Find` is where a search is. It reads the count of a level, then its mask, twice.
- `none` is `CPUPRI_INVALID`. `Cpupri.set` is the whole of `cpupri_set`, with nothing in between (`set_run`).

What a step does to the masks and counts of one CPU is what its `Pc` says about them (`Pc.masks`, `Pc.counts`), so that
every step is looked at for one CPU against the sum over the others (`Kept.of_local`).
-/

namespace KernelSched

open Function (update update_of_ne update_self update_eq_self)

namespace Cpupri

open Run Rt

/-! ## Model -/

/-- `CPUPRI_NORMAL` to `CPUPRI_HIGHER`; the priorities given to `cpupri_set` have the same range. -/
abbrev Level := Fin (maxRtPrio + 1)

def normal : Level := 0

def higher : Level := Fin.last maxRtPrio

def convertPrio : Option Level → Option Level
  | none => none
  | some prio =>
    if prio.val ≤ 98 then some ⟨maxRtPrio - 1 - prio, by omega⟩
    else if prio.val = maxRtPrio - 1 then some normal
    else some higher

/-- The priorities of real-time tasks, and of a runqueue without one, are turned around. -/
theorem convertPrio_of_lt {prio : Level} (h : prio.val < maxRtPrio) :
    convertPrio (some prio) = some ⟨maxRtPrio - 1 - prio, by omega⟩ := by
  have hmax : maxRtPrio = 100 := rfl
  simp only [convertPrio]
  split
  · rfl
  · have hlast : prio.val = maxRtPrio - 1 := by omega
    rw [if_pos hlast]
    refine congrArg some (Fin.ext ?_)
    show 0 = maxRtPrio - 1 - prio.val
    omega

theorem convertPrio_eq_higher {prio : Option Level} : convertPrio prio = some higher ↔ prio = some higher := by
  constructor
  · intro h
    cases prio with
    | none => cases h
    | some p =>
      by_cases hp : p.val < maxRtPrio
      · rw [convertPrio_of_lt hp] at h
        have hval : maxRtPrio - 1 - p.val = maxRtPrio := congrArg Fin.val (Option.some.inj h)
        omega
      · refine congrArg some (Fin.ext ?_)
        show p.val = maxRtPrio
        omega
  · rintro rfl
    rfl

structure Vec (C : Type) where
  count : ℤ
  mask : Finset C

end Cpupri

open Cpupri Rt

structure Cpupri (C : Type) where
  priToCpu : Level → Vec C
  cpuToPri : C → Option Level

namespace Cpupri

open Run

variable {C T : Type} [DecidableEq C] [DecidableEq T]

def upd (l : Level) (f : Vec C → Vec C) (cp : Cpupri C) : Cpupri C :=
  { cp with priToCpu := update cp.priToCpu l (f (cp.priToCpu l)) }

def setMask (l : Level) (cpu : C) : Cpupri C → Cpupri C := upd l fun vec => { vec with mask := insert cpu vec.mask }

def clearMask (l : Level) (cpu : C) : Cpupri C → Cpupri C := upd l fun vec => { vec with mask := vec.mask.erase cpu }

def incCount (l : Level) : Cpupri C → Cpupri C := upd l fun vec => { vec with count := vec.count + 1 }

def decCount (l : Level) : Cpupri C → Cpupri C := upd l fun vec => { vec with count := vec.count - 1 }

def store (cpu : C) (new : Option Level) (cp : Cpupri C) : Cpupri C :=
  { cp with cpuToPri := update cp.cpuToPri cpu new }

def init : Cpupri C := ⟨fun _ => ⟨0, ∅⟩, fun _ => none⟩

/-- The next access of a `cpupri_set` call, with what its variables hold. -/
inductive Pc
  | out
  | setMask (new : Level) (old : Option Level)
  | incCount (new : Level) (old : Option Level)
  | decCount (new : Option Level) (old : Level)
  | clearMask (new : Option Level) (old : Level)
  | store (new : Option Level)
  deriving DecidableEq

/-- The second half of the call, for a CPU that comes from `old`. -/
def Pc.leave (new : Option Level) : Option Level → Pc
  | some old => decCount new old
  | none => store new

def Pc.enter (new old : Option Level) : Pc :=
  if new = old then out
  else match new with
    | some new => setMask new old
    | none => leave none old

/-- One access of the call for `cpu`, and the next. -/
def access (cpu : C) (cp : Cpupri C) : Pc → Cpupri C × Pc
  | .out => (cp, .out)
  | .setMask new old => (cp.setMask new cpu, .incCount new old)
  | .incCount new old => (cp.incCount new, Pc.leave (some new) old)
  | .decCount new old => (cp.decCount old, .clearMask new old)
  | .clearMask new old => (cp.clearMask old cpu, .store new)
  | .store new => (cp.store cpu new, .out)

/-- `cpupri_set`, undisturbed. -/
def set (cpu : C) (newpri : Option Level) (cp : Cpupri C) : Cpupri C :=
  let old := cp.cpuToPri cpu
  let new := convertPrio newpri
  if new = old then cp
  else
    let cp := match new with
      | some new => (cp.setMask new cpu).incCount new
      | none => cp
    let cp := match old with
      | some old => (cp.decCount old).clearMask old cpu
      | none => cp
    cp.store cpu new

/-! ## The search -/

/-- The arguments of `cpupri_find_fitness`: what it reads of the task, whether there is a mask to fill, and
`fitness_fn`. -/
structure Query (C : Type) where
  prio : Fin maxRtPrio
  cpusMask : Finset C
  lowestMask : Bool
  fitnessFn : Option (C → Bool)

def Query.taskPri (q : Query C) : Nat := (convertPrio (some q.prio.castSucc)).elim 0 Fin.val

/-- What a search returns: the level it stopped at, and the mask it filled. -/
structure Answer (C : Type) where
  level : Level
  lowestMask : Option (Finset C)

inductive Find (C : Type)
  | out (answer : Option (Answer C))
  | count (q : Query C) (idx : Fin q.taskPri)
  | anyAnd (q : Query C) (idx : Fin q.taskPri)
  | collect (q : Query C) (idx : Fin q.taskPri)

omit [DecidableEq C] in
theorem Query.taskPri_lt (q : Query C) : q.taskPri < maxRtPrio := by
  have hprio := q.prio.isLt
  rw [taskPri, convertPrio_of_lt hprio, Option.elim_some]
  show maxRtPrio - 1 - q.prio.val < maxRtPrio
  omega

def Query.level (q : Query C) (idx : Fin q.taskPri) : Level := ⟨idx, by have := q.taskPri_lt; omega⟩

/-- The loop from `idx` on, and behind its end the search without `fitness_fn`. -/
def Find.loop (q : Query C) (idx : Nat) : Find C :=
  if h : idx < q.taskPri then .count q ⟨idx, h⟩
  else
    let q' := { q with fitnessFn := none }
    if h : q.fitnessFn.isSome ∧ 0 < q'.taskPri then .count q' ⟨0, h.2⟩ else .out none

/-- The mask, when it is not empty, as the search wants it. -/
def Query.fit (q : Query C) (m : Finset C) : Finset C :=
  match q.fitnessFn with
  | none => m
  | some fits => m.filter fun c => fits c = true

/-- One access of a search; `active` is `cpu_active_mask`. -/
def Find.next (cp : Cpupri C) (active : Finset C) : Find C → Find C
  | .out a => .out a
  | .count q idx => if (cp.priToCpu (q.level idx)).count = 0 then loop q (idx + 1) else .anyAnd q idx
  | .anyAnd q idx =>
    if q.cpusMask ∩ (cp.priToCpu (q.level idx)).mask = ∅ then loop q (idx + 1)
    else if q.lowestMask then .collect q idx
    else .out (some ⟨q.level idx, none⟩)
  | .collect q idx =>
    let lowest := q.cpusMask ∩ (cp.priToCpu (q.level idx)).mask ∩ active
    if q.fit lowest = ∅ then loop q (idx + 1) else .out (some ⟨q.level idx, some (q.fit lowest)⟩)

/-! ## Interleavings -/

/-- The shared words, where the call for every CPU is, and where every search is. `reads` is not of the code: what
the current or last call of a search has read of the counts, the latest first. -/
structure State (C T : Type) where
  cp : Cpupri C
  pc : C → Pc
  find : T → Find C
  reads : T → List (Level × ℤ)

inductive Op (C T : Type)
  /-- `cpupri_set` is called for a CPU. -/
  | set (cpu : C) (newpri : Option Level)
  /-- The next access of the call for a CPU -/
  | access (cpu : C)
  /-- `cpupri_find_fitness` is called. -/
  | find (t : T) (q : Query C)
  /-- The next access of a search -/
  | search (t : T) (active : Finset C)

/-- The count a search is about to read. -/
def Find.reading (cp : Cpupri C) : Find C → List (Level × ℤ)
  | .count q idx => [(q.level idx, (cp.priToCpu (q.level idx)).count)]
  | _ => []

def step : Op C T → State C T → Option (State C T)
  | .set cpu newpri, s =>
    if s.pc cpu = .out then
      some { s with pc := update s.pc cpu (.enter (convertPrio newpri) (s.cp.cpuToPri cpu)) }
    else none
  | .access cpu, s =>
    if s.pc cpu = .out then none
    else
      let (cp, pc) := access cpu s.cp (s.pc cpu)
      some { s with cp := cp, pc := update s.pc cpu pc }
  | .find t q, s =>
    match s.find t with
    | .out _ => some { s with find := update s.find t (.loop q 0), reads := update s.reads t [] }
    | _ => none
  | .search t active, s =>
    match s.find t with
    | .out _ => none
    | f => some { s with
      find := update s.find t (f.next s.cp active)
      reads := update s.reads t (f.reading s.cp ++ s.reads t) }

def State.init : State C T := ⟨Cpupri.init, fun _ => .out, fun _ => .out none, fun _ => []⟩

/-! ## The fields of the changed words -/

variable {cp : Cpupri C} {l k : Level} {c cpu : C} {new : Option Level}

section

omit [DecidableEq C]

theorem upd_priToCpu (f : Vec C → Vec C) : (cp.upd k f).priToCpu l = if l = k then f (cp.priToCpu l)
    else cp.priToCpu l := by
  unfold upd
  by_cases h : l = k
  · subst h
    simp
  · simp [h]

@[simp] theorem incCount_mask : ((cp.incCount k).priToCpu l).mask = (cp.priToCpu l).mask := by
  rw [incCount, upd_priToCpu]
  split <;> rfl

@[simp] theorem decCount_mask : ((cp.decCount k).priToCpu l).mask = (cp.priToCpu l).mask := by
  rw [decCount, upd_priToCpu]
  split <;> rfl

@[simp] theorem incCount_count : ((cp.incCount k).priToCpu l).count = (cp.priToCpu l).count + if k = l then 1 else 0 := by
  rw [incCount, upd_priToCpu]
  split <;> simp [*, eq_comm]

@[simp] theorem decCount_count : ((cp.decCount k).priToCpu l).count = (cp.priToCpu l).count - if k = l then 1 else 0 := by
  rw [decCount, upd_priToCpu]
  split <;> simp [*, eq_comm]

end

@[simp] theorem mem_setMask : c ∈ ((cp.setMask k cpu).priToCpu l).mask ↔ (l = k ∧ c = cpu) ∨
    c ∈ (cp.priToCpu l).mask := by
  rw [setMask, upd_priToCpu]
  split <;> simp [*]

@[simp] theorem mem_clearMask :
    c ∈ ((cp.clearMask k cpu).priToCpu l).mask ↔ c ∈ (cp.priToCpu l).mask ∧ ¬(l = k ∧ c = cpu) := by
  rw [clearMask, upd_priToCpu]
  split <;> simp [*, and_comm]

@[simp] theorem setMask_count : ((cp.setMask k cpu).priToCpu l).count = (cp.priToCpu l).count := by
  rw [setMask, upd_priToCpu]
  split <;> rfl

@[simp] theorem clearMask_count : ((cp.clearMask k cpu).priToCpu l).count = (cp.priToCpu l).count := by
  rw [clearMask, upd_priToCpu]
  split <;> rfl

@[simp] theorem store_priToCpu : (cp.store cpu new).priToCpu = cp.priToCpu := rfl

@[simp] theorem store_self : (cp.store cpu new).cpuToPri cpu = new := by simp [store]

theorem store_other (h : c ≠ cpu) : (cp.store cpu new).cpuToPri c = cp.cpuToPri c := by
  simp [store, h]

/-! ## What the place of a call says -/

namespace Pc

/-- The masks a CPU is in, `cur` being its `cpu_to_pri`. -/
def masks (l : Level) (cur : Option Level) : Pc → Prop
  | out => cur = some l
  | setMask _ old => old = some l
  | incCount new old => new = l ∨ old = some l
  | decCount new old => new = some l ∨ old = l
  | clearMask new old => new = some l ∨ old = l
  | store new => new = some l

def counts (l : Level) (cur : Option Level) : Pc → ℤ
  | out => if cur = some l then 1 else 0
  | setMask _ old => if old = some l then 1 else 0
  | incCount _ old => if old = some l then 1 else 0
  | decCount new old => (if new = some l then 1 else 0) + if old = l then 1 else 0
  | clearMask new _ => if new = some l then 1 else 0
  | store new => if new = some l then 1 else 0

/-- The call moves the CPU away from the level it has. -/
def Sound (cur : Option Level) : Pc → Prop
  | out => True
  | setMask new old => old = cur ∧ old ≠ some new
  | incCount new old => old = cur ∧ old ≠ some new
  | decCount new old => some old = cur ∧ new ≠ some old
  | clearMask new old => some old = cur ∧ new ≠ some old
  | store _ => True

def goal : Pc → Option Level
  | out => none
  | setMask new _ => some new
  | incCount new _ => some new
  | decCount new _ => new
  | clearMask new _ => new
  | store new => new

end Pc

/-- What one access of the call for `cpu` leaves of the words of the others, and what it makes of its own. -/
structure Local (cpu : C) (cp : Cpupri C) (pc : Pc) (cp' : Cpupri C) (pc' : Pc) : Prop where
  others : ∀ c ≠ cpu, cp'.cpuToPri c = cp.cpuToPri c
  apart : ∀ l, ∀ c ≠ cpu, (c ∈ (cp'.priToCpu l).mask ↔ c ∈ (cp.priToCpu l).mask)
  mask : ∀ l, cpu ∈ (cp'.priToCpu l).mask ↔ pc'.masks l (cp'.cpuToPri cpu)
  count : ∀ l, (cp'.priToCpu l).count + pc.counts l (cp.cpuToPri cpu) =
    (cp.priToCpu l).count + pc'.counts l (cp'.cpuToPri cpu)
  sound : pc'.Sound (cp'.cpuToPri cpu)

section

variable {new old : Option Level}

omit [DecidableEq C] in
theorem enter_local (hmask : ∀ l, cpu ∈ (cp.priToCpu l).mask ↔ cp.cpuToPri cpu = some l) (new : Option Level) :
    Local cpu cp .out cp (.enter new (cp.cpuToPri cpu)) := by
  unfold Pc.enter
  split
  · exact ⟨fun _ _ => rfl, fun _ _ _ => Iff.rfl, hmask, fun _ => rfl, trivial⟩
  · next hne =>
    cases hnew : new with
    | some k => exact ⟨fun _ _ => rfl, fun _ _ _ => Iff.rfl, hmask, fun _ => rfl, rfl, fun h => hne (hnew.trans h.symm)⟩
    | none =>
      cases hold : cp.cpuToPri cpu with
      | none => exact absurd (hnew.trans hold.symm) hne
      | some old =>
        refine ⟨fun _ _ => rfl, fun _ _ _ => Iff.rfl, fun l => ?_, fun l => ?_, hold.symm, nofun⟩
        · rw [hmask, hold]
          simp [Pc.leave, Pc.masks]
        · rw [hold]
          simp [Pc.leave, Pc.counts]

theorem setMask_local (hmask : ∀ l, cpu ∈ (cp.priToCpu l).mask ↔ (Pc.setMask k old).masks l (cp.cpuToPri cpu))
    (hsound : (Pc.setMask k old).Sound (cp.cpuToPri cpu)) :
    Local cpu cp (.setMask k old) (cp.setMask k cpu) (.incCount k old) := by
  refine ⟨fun _ _ => rfl, fun l c hc => ?_, fun l => ?_, fun l => ?_, hsound⟩
  · simp [hc]
  · rw [mem_setMask, hmask]
    simp [Pc.masks, eq_comm]
  · simp [Pc.counts]

omit [DecidableEq C] in
theorem incCount_local (hmask : ∀ l, cpu ∈ (cp.priToCpu l).mask ↔ (Pc.incCount k old).masks l (cp.cpuToPri cpu))
    (hsound : (Pc.incCount k old).Sound (cp.cpuToPri cpu)) :
    Local cpu cp (.incCount k old) (cp.incCount k) (.leave (some k) old) := by
  obtain ⟨hcur, hne⟩ := hsound
  refine ⟨fun _ _ => rfl, fun l c hc => by simp, fun l => ?_, fun l => ?_, ?_⟩
  · rw [incCount_mask, hmask]
    cases old with
    | none | some => simp [Pc.leave, Pc.masks]
  · rw [incCount_count]
    cases old with
    | none => simp [Pc.leave, Pc.counts]
    | some o =>
      simp only [Pc.leave, Pc.counts, Option.some.injEq]
      omega
  · cases old with
    | none => exact trivial
    | some o => exact ⟨hcur, Ne.symm hne⟩

omit [DecidableEq C] in
theorem decCount_local (hmask : ∀ l, cpu ∈ (cp.priToCpu l).mask ↔ (Pc.decCount new k).masks l (cp.cpuToPri cpu))
    (hsound : (Pc.decCount new k).Sound (cp.cpuToPri cpu)) :
    Local cpu cp (.decCount new k) (cp.decCount k) (.clearMask new k) := by
  refine ⟨fun _ _ => rfl, fun l c hc => by simp, fun l => ?_, fun l => ?_, hsound⟩
  · rw [decCount_mask, hmask]
    rfl
  · rw [decCount_count]
    simp only [Pc.counts]
    omega

theorem clearMask_local (hmask : ∀ l, cpu ∈ (cp.priToCpu l).mask ↔ (Pc.clearMask new k).masks l (cp.cpuToPri cpu))
    (hsound : (Pc.clearMask new k).Sound (cp.cpuToPri cpu)) :
    Local cpu cp (.clearMask new k) (cp.clearMask k cpu) (.store new) := by
  refine ⟨fun _ _ => rfl, fun l c hc => ?_, fun l => ?_, fun l => ?_, trivial⟩
  · simp [hc]
  · rw [mem_clearMask, hmask]
    simp only [Pc.masks, and_true]
    -- the mask of the new level is another one
    refine ⟨fun h => h.1.resolve_right fun hk => h.2 hk.symm, fun h => ⟨.inl h, ?_⟩⟩
    rintro rfl
    exact hsound.2 h
  · simp [Pc.counts]

theorem store_local (hmask : ∀ l, cpu ∈ (cp.priToCpu l).mask ↔ (Pc.store new).masks l (cp.cpuToPri cpu)) :
    Local cpu cp (.store new) (cp.store cpu new) .out := by
  refine ⟨fun c hc => store_other hc, fun l c hc => Iff.rfl, fun l => ?_, fun l => ?_, trivial⟩
  · rw [store_priToCpu, hmask, store_self]
    rfl
  · rw [store_self]
    rfl

theorem access_local {pc : Pc} (hpc : pc ≠ .out) (hmask : ∀ l, cpu ∈ (cp.priToCpu l).mask ↔ pc.masks l (cp.cpuToPri cpu))
    (hsound : pc.Sound (cp.cpuToPri cpu)) : Local cpu cp pc (access cpu cp pc).1 (access cpu cp pc).2 := by
  cases pc with
  | out => exact absurd rfl hpc
  | setMask new old => exact setMask_local hmask hsound
  | incCount new old => exact incCount_local hmask hsound
  | decCount new old => exact decCount_local hmask hsound
  | clearMask new old => exact clearMask_local hmask hsound
  | store new => exact store_local hmask

end

/-! ## What every interleaving keeps -/

section

variable [Fintype C] {s s' : State C T}

/-- The masks and counts are those the calls in flight say. -/
structure Kept (s : State C T) : Prop where
  mask : ∀ l c, c ∈ (s.cp.priToCpu l).mask ↔ (s.pc c).masks l (s.cp.cpuToPri c)
  count : ∀ l, (s.cp.priToCpu l).count = ∑ c, (s.pc c).counts l (s.cp.cpuToPri c)
  sound : ∀ c, (s.pc c).Sound (s.cp.cpuToPri c)

omit [DecidableEq C] [DecidableEq T] in
theorem kept_init : Kept (State.init : State C T) where
  mask l c := by simp [State.init, init, Pc.masks]
  count l := by simp [State.init, init, Pc.counts]
  sound _ := trivial

omit [DecidableEq T] in
theorem Kept.of_local (h : Kept s) {cp' : Cpupri C} {pc' : Pc} (hloc : Local cpu s.cp (s.pc cpu) cp' pc') :
    Kept { s with cp := cp', pc := update s.pc cpu pc' } := by
  have hother : ∀ c ≠ cpu, update s.pc cpu pc' c = s.pc c := fun c hc => update_of_ne hc _ _
  have hself : update s.pc cpu pc' cpu = pc' := update_self _ _ _
  refine ⟨fun l c => ?_, fun l => ?_, fun c => ?_⟩
  · show c ∈ (cp'.priToCpu l).mask ↔ (update s.pc cpu pc' c).masks l (cp'.cpuToPri c)
    by_cases hc : c = cpu
    · rw [hc, hself]
      exact hloc.mask l
    · rw [hother c hc, hloc.others c hc, hloc.apart l c hc]
      exact h.mask l c
  · have hsum := Ledger.sum_update (fun c => (s.pc c, s.cp.cpuToPri c)) (fun x => x.1.counts l x.2) cpu
      (pc', cp'.cpuToPri cpu)
    have hpair : update (fun c => (s.pc c, s.cp.cpuToPri c)) cpu (pc', cp'.cpuToPri cpu) =
        fun c => (update s.pc cpu pc' c, cp'.cpuToPri c) := by
      funext c
      by_cases hc : c = cpu
      · rw [hc, update_self, hself]
      · rw [update_of_ne hc, hother c hc, hloc.others c hc]
    rw [hpair] at hsum
    dsimp only at hsum
    have hcount := hloc.count l
    rw [h.count l] at hcount
    show (cp'.priToCpu l).count = ∑ c, (update s.pc cpu pc' c).counts l (cp'.cpuToPri c)
    omega
  · show (update s.pc cpu pc' c).Sound (cp'.cpuToPri c)
    by_cases hc : c = cpu
    · rw [hc, hself]
      exact hloc.sound
    · rw [hother c hc, hloc.others c hc]
      exact h.sound c

theorem Kept.step {op : Op C T} (h : Kept s) (hstep : step op s = some s') : Kept s' := by
  cases op with
  | set cpu newpri =>
    obtain ⟨hout, rfl⟩ := of_guard hstep
    have hmask : ∀ l, cpu ∈ (s.cp.priToCpu l).mask ↔ s.cp.cpuToPri cpu = some l := fun l => by
      rw [h.mask l cpu, hout, Pc.masks]
    have hloc := enter_local hmask (convertPrio newpri)
    rw [← hout] at hloc
    exact h.of_local hloc
  | access cpu =>
    obtain ⟨hin, rfl⟩ := of_guard_not hstep
    exact h.of_local (access_local hin (fun l => h.mask l cpu) (h.sound cpu))
  | find t q =>
    simp only [Cpupri.step] at hstep
    split at hstep
    · cases hstep
      exact ⟨h.mask, h.count, h.sound⟩
    · cases hstep
  | search t active =>
    simp only [Cpupri.step] at hstep
    split at hstep
    · cases hstep
    · cases hstep
      exact ⟨h.mask, h.count, h.sound⟩

/-- A search that is behind the count of a level has read it last, and not as 0. -/
def Find.Counted (reads : List (Level × ℤ)) : Find C → Prop
  | .out none => True
  | .out (some a) => ∃ v rest, reads = (a.level, v) :: rest ∧ v ≠ 0
  | .count _ _ => True
  | .anyAnd q idx => ∃ v rest, reads = (q.level idx, v) :: rest ∧ v ≠ 0
  | .collect q idx => ∃ v rest, reads = (q.level idx, v) :: rest ∧ v ≠ 0

omit [DecidableEq C] [Fintype C] in
theorem Find.counted_loop (q : Query C) (idx : Nat) (reads : List (Level × ℤ)) : (loop q idx).Counted reads := by
  unfold loop
  split
  · exact trivial
  · simp only
    split <;> exact trivial

omit [Fintype C] in
theorem Find.Counted.next {f : Find C} {reads : List (Level × ℤ)} (h : f.Counted reads) (cp : Cpupri C)
    (active : Finset C) : (f.next cp active).Counted (f.reading cp ++ reads) := by
  cases f with
  | out a => exact h
  | count q idx =>
    rw [Find.next]
    split
    · exact counted_loop q _ _
    · next hcount => exact ⟨_, reads, rfl, hcount⟩
  | anyAnd q idx =>
    rw [Find.next]
    split
    · exact counted_loop q _ _
    · split
      · exact h
      · exact h
  | collect q idx =>
    rw [Find.next]
    split
    · exact counted_loop q _ _
    · exact h

omit [Fintype C] in
theorem counted_step {op : Op C T} (h : ∀ t, (s.find t).Counted (s.reads t)) (hstep : step op s = some s') :
    ∀ t, (s'.find t).Counted (s'.reads t) := by
  intro u
  cases op with
  | set cpu newpri =>
    obtain ⟨-, rfl⟩ := of_guard hstep
    exact h u
  | access cpu =>
    obtain ⟨-, rfl⟩ := of_guard_not hstep
    exact h u
  | find t q =>
    simp only [step] at hstep
    split at hstep
    · cases hstep
      by_cases hu : u = t
      · subst hu
        simp only [update_self]
        exact Find.counted_loop q 0 []
      · simp only [update_of_ne hu]
        exact h u
    · cases hstep
  | search t active =>
    simp only [step] at hstep
    split at hstep
    · cases hstep
    · cases hstep
      by_cases hu : u = t
      · subst hu
        simp only [update_self]
        exact (h u).next s.cp active
      · simp only [update_of_ne hu]
        exact h u

/-- What holds at every moment of every interleaving. -/
structure State.Right (s : State C T) : Prop where
  /-- A CPU that is not being moved is in the mask of its own level and in no other. -/
  settled : ∀ cpu, s.pc cpu = .out → ∀ l, cpu ∈ (s.cp.priToCpu l).mask ↔ s.cp.cpuToPri cpu = some l
  /-- When no CPU is being moved, the count of a level is the size of its mask. -/
  counted : (∀ cpu, s.pc cpu = .out) → ∀ l, (s.cp.priToCpu l).count = (s.cp.priToCpu l).mask.card
  /-- A CPU on its way from one level to another is in one of the two masks. -/
  moving : ∀ cpu old new, s.cp.cpuToPri cpu = some old → (s.pc cpu).goal = some new →
    cpu ∈ (s.cp.priToCpu old).mask ∨ cpu ∈ (s.cp.priToCpu new).mask
  /-- A search that has returned has read the count of its level last, and not as 0. -/
  found : ∀ t a, s.find t = .out (some a) → ∃ v rest, s.reads t = (a.level, v) :: rest ∧ v ≠ 0

omit [DecidableEq C] [DecidableEq T] in
theorem Kept.moving (h : Kept s) {old new : Level} (hold : s.cp.cpuToPri cpu = some old)
    (hnew : (s.pc cpu).goal = some new) : cpu ∈ (s.cp.priToCpu old).mask ∨ cpu ∈ (s.cp.priToCpu new).mask := by
  have hsound := h.sound cpu
  rw [h.mask, h.mask]
  rw [hold] at hsound ⊢
  cases hpc : s.pc cpu with
  | out => exact .inl rfl
  | setMask k o =>
    rw [hpc] at hsound
    exact .inl hsound.1
  | incCount k o =>
    rw [hpc] at hsound
    exact .inl (.inr hsound.1)
  | decCount | clearMask =>
    rw [hpc] at hnew
    exact .inr (.inl hnew)
  | store k =>
    rw [hpc] at hnew
    exact .inr hnew

omit [DecidableEq C] [DecidableEq T] in
theorem Kept.settled (h : Kept s) (hout : s.pc cpu = .out) (l : Level) :
    cpu ∈ (s.cp.priToCpu l).mask ↔ s.cp.cpuToPri cpu = some l := by
  rw [h.mask l cpu, hout, Pc.masks]

omit [DecidableEq C] [DecidableEq T] in
theorem Kept.counted (h : Kept s) (hout : ∀ cpu, s.pc cpu = .out) (l : Level) :
    (s.cp.priToCpu l).count = (s.cp.priToCpu l).mask.card := by
  have hmask : (s.cp.priToCpu l).mask = Finset.univ.filter fun c => s.cp.cpuToPri c = some l := by
    ext c
    simp [h.settled (hout c) l]
  rw [h.count l, hmask, Finset.card_filter]
  push_cast
  refine Finset.sum_congr rfl fun c _ => ?_
  rw [hout c, Pc.counts]

theorem cpupri_right (ops : List (Op C T)) (hrun : run step ops State.init = some s) : s.Right := by
  have hkept : Kept s := run_invariant (fun _ _ _ h hs => h.step hs) kept_init hrun
  have hfind : ∀ t, (s.find t).Counted (s.reads t) :=
    run_invariant (I := fun s : State C T => ∀ t, (s.find t).Counted (s.reads t)) (fun _ _ _ h hs => counted_step h hs)
      (by exact fun _ => trivial) hrun
  refine ⟨fun cpu hout => hkept.settled hout, hkept.counted, fun cpu old new => hkept.moving, fun t a ha => ?_⟩
  have hcounted := hfind t
  rw [ha] at hcounted
  exact hcounted

/-- A CPU is half way between two levels while a search stops at its old one. -/
def raiseOps : List (Op (Fin 2) Unit) :=
  [.set 1 (some 99), .access 1, .access 1, .access 1, .set 1 (some 50), .access 1, .access 1,
    .find () ⟨⟨30, by decide⟩, {0, 1}, true, none⟩, .search () {1}, .search () {1}, .search () {1}]

theorem cpupri_right_raiseOps : ∃ s, run step raiseOps State.init = some s ∧ s.cp.cpuToPri 1 = some normal ∧
    s.pc 1 = .decCount (some 49) normal ∧ s.reads () = [(normal, 1)] ∧ s.Right :=
  ⟨_, rfl, by decide, by decide, by decide, cpupri_right raiseOps rfl⟩

end

/-! ## The call as a whole -/

section

variable {s : State C T}

theorem run_access (cp : Cpupri C) {pc : Pc} (hpc : pc ≠ .out) (ops : List (Op C T)) :
    run step (.access cpu :: ops) { s with cp := cp, pc := update s.pc cpu pc } =
      run step ops { s with cp := (access cpu cp pc).1, pc := update s.pc cpu (access cpu cp pc).2 } := by
  simp [run, step, hpc]

/-- The accesses of a call that no other CPU disturbs do what `set` does. -/
theorem set_run (hout : s.pc cpu = .out) (newpri : Option Level) : ∃ n,
    run step (.set cpu newpri :: List.replicate n (.access cpu)) s = some { s with cp := s.cp.set cpu newpri } := by
  have hstart : ∀ ops, run step (.set cpu newpri :: ops) s = run step ops
      { s with cp := s.cp, pc := update s.pc cpu (.enter (convertPrio newpri) (s.cp.cpuToPri cpu)) } := by
    intro ops
    simp [run, step, hout]
  have hback : update s.pc cpu .out = s.pc := by rw [← hout, update_eq_self]
  simp only [hstart, Pc.enter, set]
  by_cases heq : convertPrio newpri = s.cp.cpuToPri cpu
  · refine ⟨0, ?_⟩
    simp only [if_pos heq, hback]
    rfl
  · simp only [if_neg heq]
    cases hnew : convertPrio newpri with
    | some new =>
      cases hold : s.cp.cpuToPri cpu with
      | some old =>
        refine ⟨5, ?_⟩
        simp [List.replicate, run_access, access, Pc.leave, hback]
        rfl
      | none =>
        refine ⟨3, ?_⟩
        simp [List.replicate, run_access, access, Pc.leave, hback]
        rfl
    | none =>
      cases hold : s.cp.cpuToPri cpu with
      | some old =>
        refine ⟨3, ?_⟩
        simp [List.replicate, run_access, access, Pc.leave, hback]
        rfl
      | none => exact absurd (hnew.trans hold.symm) heq

def Exact (cp : Cpupri C) : Prop := ∀ l c, c ∈ (cp.priToCpu l).mask ↔ cp.cpuToPri c = some l

omit [DecidableEq C] in
theorem exact_init : (init : Cpupri C).Exact := by simp [Exact, init]

theorem set_cpuToPri (newpri : Option Level) :
    (cp.set cpu newpri).cpuToPri = update cp.cpuToPri cpu (convertPrio newpri) := by
  simp only [set]
  split
  · next heq => rw [heq, update_eq_self]
  · split <;> split <;> rfl

theorem Exact.set (h : cp.Exact) (newpri : Option Level) : (cp.set cpu newpri).Exact := by
  intro l c
  rw [set_cpuToPri]
  simp only [Cpupri.set]
  split
  · next heq =>
    rw [heq, update_eq_self]
    exact h l c
  · next hne =>
    by_cases hc : c = cpu
    · subst hc
      have hcur := h l c
      cases hnew : convertPrio newpri <;> cases hold : cp.cpuToPri c <;> rw [hnew, hold] at hne <;> rw [hold] at hcur <;>
        simp [hcur] <;> grind
    · rw [update_of_ne hc, ← h l c]
      cases convertPrio newpri <;> cases cp.cpuToPri cpu <;> simp [hc]

/-- What a search takes from the masks in one access are CPUs of a level below that of its task. -/
theorem Exact.offered (h : cp.Exact) {active m : Finset C} {q : Query C} {idx : Fin q.taskPri}
    (hnext : (Find.collect q idx).next cp active = .out (some ⟨l, some m⟩)) (hc : c ∈ m) :
    cp.cpuToPri c = some l ∧ l.val < maxRtPrio := by
  simp only [Find.next] at hnext
  split at hnext
  · unfold Find.loop at hnext
    split at hnext
    · cases hnext
    · simp only at hnext
      split at hnext <;> cases hnext
  · obtain ⟨rfl, rfl⟩ : q.level idx = l ∧ q.fit (q.cpusMask ∩ (cp.priToCpu (q.level idx)).mask ∩ active) = m := by
      simpa using hnext
    have hmem : c ∈ q.cpusMask ∩ (cp.priToCpu (q.level idx)).mask ∩ active := by
      unfold Query.fit at hc
      split at hc
      · exact hc
      · exact Finset.mem_of_mem_filter c hc
    simp only [Finset.mem_inter] at hmem
    exact ⟨(h _ c).1 hmem.1.2, idx.isLt.trans q.taskPri_lt⟩

end

end Cpupri

end KernelSched
