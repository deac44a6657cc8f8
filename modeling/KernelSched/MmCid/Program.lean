import Mathlib.Data.Fintype.Basic

/-!
# Concurrency ids of an address space

Each task that runs in an address space has a small number, its `mm_cid`, that no other task running in the same address
space has. The numbers are handed out from a bit mask. A CPU keeps the last one in a slot (`pcpu_cid`), so that it need
not allocate at each switch; the slot of a CPU that no longer runs the address space is cleared by others. To do so they
set a flag in the slot (`MM_CID_LAZY_PUT`), look whether the CPU runs a task of the address space, and if not, take the
number out.

- One address space is modelled, with `n` CPUs and `m` threads that clear slots. A task has the space, another one, or
  none.
- A step reads or writes one thing: a slot, a bit of the mask, `rq->curr`, a field of a task, a lock. What is done under
  the lock of a runqueue is one program for each CPU. `Effect` is what a step does to memory.
- A slot is a number with a flag in the source; a compare and exchange of it compares both.
- The time of last use, which only decides when slots are cleared, is left out.
-/

namespace KernelSched.MmCid

open Function

/-! ## Model -/

/-- `pcpu_cid->cid`: `MM_CID_UNSET`, a valid number, or a number with `MM_CID_LAZY_PUT` -/
inductive Slot
  | unset
  | valid (cid : Nat)
  | lazy (cid : Nat)
  deriving DecidableEq

def Slot.cid : Slot → Option Nat
  | unset => none
  | valid cid => some cid
  | lazy cid => some cid

/-- `t->mm` -/
inductive Space
  | none
  | ours
  | other
  deriving DecidableEq

/-- Whether another CPU runs an active task of the address space: `rq->curr`, then its `mm_cid_active`, then its `mm` -/
inductive Look
  | curr
  | active (task : Nat)
  | mm (task : Nat)
  deriving DecidableEq

/-- Take the number out of a slot: set the flag, look, and unset the slot -/
inductive Steal
  | lazy
  | look (l : Look)
  | unset
  deriving DecidableEq

inductive PutLazy
  | read
  | xchg (cid : Nat)
  | clear (cid : Nat)
  deriving DecidableEq

/-- The attempts of `__mm_cid_get`: without `cid_lock`, with it, and with `use_cid_lock` set -/
inductive Attempt
  | free
  | locked
  | forced
  deriving DecidableEq

inductive Get
  | read
  | xchg (cid : Nat)
  | clear (cid : Nat)
  | use
  | scan (a : Attempt) (bit : Nat)
  | testSet (a : Attempt) (cid : Nat)
  | lock (a : Attempt)
  | setUse
  | clearUse (cid : Nat)
  | unlock (cid : Nat)
  | write (cid : Nat)
  | record (cid : Nat)
  deriving DecidableEq

inductive Put
  | read
  | xchg (v : Slot)
  | clear (cid : Nat)
  | record
  deriving DecidableEq

/-- `sched_mm_cid_migrate_to`; `blank` is `mm_cid_is_unset(dst_cid)` -/
inductive Migrate (n : Nat)
  | start
  | dst (src : Fin n)
  | last (src : Fin n) (blank : Bool)
  | read (src : Fin n) (blank : Bool) (cid : Nat)
  | look (src : Fin n) (blank : Bool) (cid : Nat) (l : Look)
  | steal (src : Fin n) (blank : Bool) (cid : Nat) (st : Steal)
  | drop
  | clear (cid : Nat)
  | write (cid : Nat)
  deriving DecidableEq

/-- What is going on under the lock of a runqueue. The task that is switched to, or that calls, is `rq->curr`. -/
inductive Pc (n : Nat)
  | idle
  | leave (prev : Nat)
  | putLazy (prev : Nat) (p : PutLazy)
  | unsetPrev (prev : Nat)
  | enter
  | get (g : Get)
  | put (p : Put)
  | migrate (task : Nat) (g : Migrate n)
  deriving DecidableEq

/-- `sched_mm_cid_remote_clear` -/
inductive Clearer (n : Nat)
  | idle
  | read (cpu : Fin n)
  | steal (cpu : Fin n) (cid : Nat) (st : Steal)
  | clear (cid : Nat)
  deriving DecidableEq

/-- `cid_lock`, which all address spaces share -/
inductive CidLock
  | free
  | ours
  | others
  deriving DecidableEq

structure State (n m : Nat) where
  slot : Fin n → Slot
  /-- `mm_cidmask` -/
  mask : Nat → Bool
  curr : Fin n → Nat
  pc : Fin n → Pc n
  clearer : Fin m → Clearer n
  mm : Nat → Space
  /-- `t->mm_cid_active` -/
  active : Nat → Bool
  /-- `t->mm_cid` of the tasks of the address space -/
  mmCid : Nat → Option Nat
  lastMmCid : Nat → Option Nat
  migrateFromCpu : Nat → Option (Fin n)
  useCidLock : Bool
  cidLock : CidLock

inductive Effect (n : Nat)
  | nothing
  | store (cpu : Fin n) (v : Slot)
  | clearBit (cid : Nat)
  | setBit (cid : Nat)
  /-- `t->last_mm_cid = t->mm_cid = cid` -/
  | setCid (task : Nat) (cid : Option Nat)
  /-- `prev->mm_cid = -1` -/
  | dropCid (task : Nat)
  /-- `t->last_mm_cid = -1` -/
  | dropLast (task : Nat)
  | setUse (use : Bool)
  | setLock (lock : CidLock)

namespace State

variable {n m : Nat}

def apply (s : State n m) : Effect n → State n m
  | .nothing => s
  | .store cpu v => { s with slot := update s.slot cpu v }
  | .clearBit cid => { s with mask := update s.mask cid false }
  | .setBit cid => { s with mask := update s.mask cid true }
  | .setCid t cid =>
    { s with mmCid := update s.mmCid t cid, lastMmCid := update s.lastMmCid t cid }
  | .dropCid t => { s with mmCid := update s.mmCid t none }
  | .dropLast t => { s with lastMmCid := update s.lastMmCid t none }
  | .setUse use => { s with useCidLock := use }
  | .setLock lock => { s with cidLock := lock }

def goto (cpu : Fin n) (pc : Pc n) (s : State n m) : State n m := { s with pc := update s.pc cpu pc }

def setClearer (k : Fin m) (c : Clearer n) (s : State n m) : State n m :=
  { s with clearer := update s.clearer k c }

def setActive (t : Nat) (active : Bool) (s : State n m) : State n m :=
  { s with active := update s.active t active }

end State

variable {n m : Nat}

/-- `READ_ONCE(t->mm_cid_active) && t->mm == mm` for `rq->curr`: the next read, or what has been found -/
def Look.next (s : State n m) (cpu : Fin n) : Look → Look ⊕ Bool
  | .curr => .inl (.active (s.curr cpu))
  | .active t => if s.active t then .inl (.mm t) else .inr false
  | .mm t => .inr (s.mm t = .ours)

inductive Result
  | more (st : Steal)
  | lost
  | seen
  | won

/-- The part that `__sched_mm_cid_migrate_from_try_steal_cid` and `sched_mm_cid_remote_clear` have in common -/
def Steal.next (s : State n m) (cpu : Fin n) (cid : Nat) : Steal → Result × Effect n
  | .lazy => if s.slot cpu = .valid cid then (.more (.look .curr), .store cpu (.lazy cid)) else (.lost, .nothing)
  | .look l =>
    match l.next s cpu with
    | .inl l => (.more (.look l), .nothing)
    | .inr true => (.seen, .nothing)
    | .inr false => (.more .unset, .nothing)
  | .unset => if s.slot cpu = .lazy cid then (.won, .store cpu .unset) else (.lost, .nothing)

/-- A step of `mm_cid_put_lazy`, and what is left to do -/
def PutLazy.next (s : State n m) (cpu : Fin n) : PutLazy → Option PutLazy × Effect n
  | .read =>
    match s.slot cpu with
    | .lazy cid => (some (.xchg cid), .nothing)
    | _ => (none, .nothing)
  | .xchg cid => if s.slot cpu = .lazy cid then (some (.clear cid), .store cpu .unset) else (none, .nothing)
  | .clear cid => (none, .clearBit cid)

/-- A step of `mm_cid_get`, and what is left to do; there is none while `cid_lock` is held by another -/
def Get.next (s : State n m) (cpu : Fin n) : Get → Option (Option Get × Effect n)
  | .read =>
    match s.slot cpu with
    | .valid cid => some (some (.record cid), .nothing)
    | .lazy cid => some (some (.xchg cid), .nothing)
    | .unset => some (some .use, .nothing)
  | .xchg cid =>
    if s.slot cpu = .lazy cid then some (some (.clear cid), .store cpu .unset) else some (some .use, .nothing)
  | .clear cid => some (some .use, .clearBit cid)
  -- `__mm_cid_get`
  | .use => some (some (if s.useCidLock then .lock .locked else .scan .free 0), .nothing)
  | .lock a =>
    if s.cidLock = .free then
      some (some (match a with | .locked => .scan .locked 0 | _ => .setUse), .setLock .ours)
    else none
  -- `cpumask_first_zero`, which starts again where no bit is zero
  | .scan a bit =>
    some (some (if n ≤ bit then .scan a 0 else if s.mask bit then .scan a (bit + 1) else .testSet a bit), .nothing)
  -- `cpumask_test_and_set_cpu`
  | .testSet a cid =>
    if s.mask cid then
      some (some (match a with | .free => .lock .forced | .locked => .setUse | .forced => .scan .forced 0), .nothing)
    else some (some (match a with | .free => .write cid | .locked => .unlock cid | .forced => .clearUse cid), .setBit cid)
  | .setUse => some (some (.scan .forced 0), .setUse true)
  | .clearUse cid => some (some (.unlock cid), .setUse false)
  | .unlock cid => some (some (.write cid), .setLock .free)
  | .write cid => some (some (.record cid), .store cpu (.valid cid))
  | .record cid => some (none, .setCid (s.curr cpu) (some cid))

/-- A step of `mm_cid_put`, and what is left to do -/
def Put.next (s : State n m) (cpu : Fin n) : Put → Option Put × Effect n
  | .read => (some (if s.slot cpu = .unset then .record else .xchg (s.slot cpu)), .nothing)
  -- the loop of `mm_cid_pcpu_unset`
  | .xchg v =>
    if s.slot cpu = v then
      match v.cid with
      | some cid => (some (.clear cid), .store cpu .unset)
      | none => (some .record, .nothing)
    else (some (if s.slot cpu = .unset then .record else .xchg (s.slot cpu)), .nothing)
  | .clear cid => (some .record, .clearBit cid)
  | .record => (none, .setCid (s.curr cpu) none)

/-- A step of `sched_mm_cid_migrate_to`, and what is left to do; `many` is `mm_users >= nr_cpus_allowed` -/
def Migrate.next (s : State n m) (cpu : Fin n) (many : Bool) (task : Nat) : Migrate n → Option (Migrate n) × Effect n
  | .start =>
    match s.migrateFromCpu task with
    | none => (none, .dropLast task)
    | some src => (some (.dst src), .nothing)
  | .dst src =>
    if s.slot cpu ≠ .unset ∧ many then (none, .nothing) else (some (.last src (s.slot cpu = .unset)), .nothing)
  -- `__sched_mm_cid_migrate_from_fetch_cid`
  | .last src blank =>
    match s.lastMmCid task with
    | none => (none, .nothing)
    | some cid => (some (.read src blank cid), .nothing)
  | .read src blank cid => (if s.slot src = .valid cid then some (.look src blank cid .curr) else none, .nothing)
  | .look src blank cid l =>
    match l.next s src with
    | .inl l => (some (.look src blank cid l), .nothing)
    | .inr true => (some .drop, .nothing)
    | .inr false => (some (.steal src blank cid .lazy), .nothing)
  -- `__sched_mm_cid_migrate_from_try_steal_cid`
  | .steal src blank cid st =>
    match st.next s src cid with
    | (.more st, e) => (some (.steal src blank cid st), e)
    | (.lost, e) => (none, e)
    | (.seen, e) => (some .drop, e)
    | (.won, e) => (some (if blank then .write cid else .clear cid), e)
  | .drop => (none, .dropLast task)
  | .clear cid => (none, .clearBit cid)
  | .write cid => (none, .store cpu (.valid cid))

def Pc.step (s : State n m) (cpu : Fin n) (many : Bool) : Pc n → Option (Pc n × Effect n)
  | .idle => none
  -- `switch_mm_cid`
  | .leave prev => some (if s.active prev ∧ s.mm prev = .ours then .putLazy prev .read else .enter, .nothing)
  | .putLazy prev p =>
    let r := p.next s cpu
    some (r.1.elim (.unsetPrev prev) (.putLazy prev), r.2)
  | .unsetPrev prev => some (.enter, .dropCid prev)
  | .enter => some (if s.active (s.curr cpu) ∧ s.mm (s.curr cpu) = .ours then .get .read else .idle, .nothing)
  | .get g => (g.next s cpu).map fun r => (r.1.elim .idle .get, r.2)
  | .put p =>
    let r := p.next s cpu
    some (r.1.elim .idle .put, r.2)
  | .migrate task g =>
    let r := g.next s cpu many task
    some (r.1.elim .idle (.migrate task), r.2)

def Clearer.step (s : State n m) : Clearer n → Option (Clearer n × Effect n)
  | .idle => none
  | .read cpu =>
    match s.slot cpu with
    | .valid cid => some (.steal cpu cid .lazy, .nothing)
    | _ => some (.idle, .nothing)
  | .steal cpu cid st =>
    match st.next s cpu cid with
    | (.more st, e) => some (.steal cpu cid st, e)
    | (.won, e) => some (.clear cid, e)
    | (_, e) => some (.idle, e)
  | .clear cid => some (.idle, .clearBit cid)

/-- The task that is switched from, until its number is dropped -/
def Pc.prevTask : Pc n → Option Nat
  | .leave prev => some prev
  | .putLazy prev _ => some prev
  | .unsetPrev prev => some prev
  | _ => none

/-- What can happen next: a call starts, or one goes on. -/
inductive Op (n m : Nat)
  | switchTo (cpu : Fin n) (next : Nat)
  | exitSignals (cpu : Fin n)
  | beforeExecve (cpu : Fin n)
  | afterExecve (cpu : Fin n)
  | migrateFrom (task : Nat) (cpu : Fin n)
  | migrateTo (cpu : Fin n) (task : Nat)
  | remoteClear (k : Fin m) (cpu : Fin n)
  /-- `exec_mmap` or `exit_mm` -/
  | setMm (cpu : Fin n) (mm : Space)
  /-- Allocations for other address spaces -/
  | otherGet (use : Bool) (lock : CidLock)
  | step (cpu : Fin n) (many : Bool)
  | clearStep (k : Fin m)

namespace State

/-- The store to `rq->curr` before `switch_mm_cid`. A task is picked only where it does not run and is not being switched
from. -/
def switchTo (cpu : Fin n) (next : Nat) (s : State n m) : Option (State n m) :=
  if s.pc cpu = .idle ∧ ∀ i, s.curr i ≠ next ∧ (s.pc i).prevTask ≠ some next then
    some ({ s with curr := update s.curr cpu next }.goto cpu (.leave (s.curr cpu)))
  else none

/-- The part that `sched_mm_cid_exit_signals` and `sched_mm_cid_before_execve` have in common. -/
def deactivate (cpu : Fin n) (s : State n m) : Option (State n m) :=
  if s.pc cpu = .idle then
    match s.mm (s.curr cpu) with
    | .none => some s
    | .ours => some ((s.setActive (s.curr cpu) false).goto cpu (.put .read))
    | .other => some (s.setActive (s.curr cpu) false)
  else none

def schedMmCidExitSignals (cpu : Fin n) (s : State n m) : Option (State n m) := s.deactivate cpu

def schedMmCidBeforeExecve (cpu : Fin n) (s : State n m) : Option (State n m) := s.deactivate cpu

/-- Follows `sched_mm_cid_before_execve` -/
def schedMmCidAfterExecve (cpu : Fin n) (s : State n m) : Option (State n m) :=
  if s.pc cpu = .idle ∧ s.active (s.curr cpu) = false then
    match s.mm (s.curr cpu) with
    | .none => some s
    | .ours => some ((s.setActive (s.curr cpu) true).goto cpu (.get .read))
    | .other => some (s.setActive (s.curr cpu) true)
  else none

/-- For a task of the address space -/
def schedMmCidMigrateTo (cpu : Fin n) (task : Nat) (s : State n m) : Option (State n m) :=
  if s.pc cpu = .idle ∧ s.mm task = .ours then some (s.goto cpu (.migrate task .start)) else none

end State

def Op.run : Op n m → State n m → Option (State n m)
  | .switchTo cpu next, s => s.switchTo cpu next
  | .exitSignals cpu, s => s.schedMmCidExitSignals cpu
  | .beforeExecve cpu, s => s.schedMmCidBeforeExecve cpu
  | .afterExecve cpu, s => s.schedMmCidAfterExecve cpu
  | .migrateFrom task cpu, s => some { s with migrateFromCpu := update s.migrateFromCpu task (some cpu) }
  | .migrateTo cpu task, s => s.schedMmCidMigrateTo cpu task
  | .remoteClear k cpu, s => if s.clearer k = .idle then some (s.setClearer k (.read cpu)) else none
  | .setMm cpu mm, s =>
    if s.pc cpu = .idle ∧ s.active (s.curr cpu) = false then
      some { s with mm := update s.mm (s.curr cpu) mm }
    else none
  | .otherGet use lock, s =>
    if s.cidLock ≠ .ours ∧ lock ≠ .ours then some { s with useCidLock := use, cidLock := lock } else none
  | .step cpu many, s => ((s.pc cpu).step s cpu many).map fun r => (s.apply r.2).goto cpu r.1
  | .clearStep k, s => ((s.clearer k).step s).map fun r => (s.apply r.2).setClearer k r.1

end KernelSched.MmCid
