import KernelSched.Lib.Links
import KernelSched.Lib.Rooted

/-!
# The task groups of one CPU

The fair runqueues of all task groups on one CPU: how tasks and groups are enqueued and dequeued along the hierarchy,
how groups are throttled and unthrottled, and the list of leaf runqueues.

- The task groups are a `Rooted.Tree`: `0` is `root_task_group`. Group `g` has one `struct cfs_rq` and, but for the root,
  one `struct sched_entity` on this CPU, both in `GroupRq`. `for_each_sched_entity` is a recursion on `Tree.path`. The
  groups are all there from boot on: a group without tasks has zeroed counters, and a new one gets the `throttle_count`
  of its parent (`sync_throttle`).
- Counters are exact integers. `underflow` records that one of them was stored below zero, where the unsigned one wraps.
- `Env` holds what depends on load averages and on the bandwidth pool, for one operation.
- The timeline inside a runqueue, load averages, clocks and statistics are not kept; `cfs_bandwidth_used()` is true as
  long as a group is throttled.
-/

set_option linter.style.nameCheck false

namespace KernelSched.Group

open Rooted Links

/-! ## Data -/

/-- The counters of `struct cfs_rq`. -/
@[ext]
structure Counts where
  nrRunning : Int
  /-- `load.weight` -/
  load : Int
  idleNrRunning : Int
  hNrRunning : Int
  idleHNrRunning : Int
  deriving DecidableEq

/-- `struct cfs_rq` of a group on this CPU, its entity `tg->se[cpu]`, and the group's `idle` and `shares`. -/
structure GroupRq where
  counts : Counts
  idle : Bool
  throttled : Bool
  throttleCount : Int
  seOnRq : Bool
  /-- `se->load.weight` -/
  seWeight : Int
  tgIdle : Bool
  tgShares : Int

/-- A task, as far as `p->se` and its policy are concerned. -/
structure Task where
  id : Nat
  /-- The group whose runqueue is `cfs_rq_of(&p->se)`. -/
  group : Nat
  weight : Int
  /-- `task_has_idle_policy` -/
  idle : Bool
  deriving DecidableEq

/-- `struct sched_entity`: of a task or of a group. -/
inductive Entity
  | task (t : Task)
  | group (g : Nat)
  deriving DecidableEq

/-- `rq->leaf_cfs_rq_list` with the `on_list` flags; `tmp` is `rq->tmp_alone_branch`, `none` for the list head. -/
structure LeafList where
  list : List Nat
  onList : Nat → Bool
  tmp : Option Nat

structure Rq where
  cfs : Nat → GroupRq
  /-- The tasks with `on_rq`. -/
  tasks : List Task
  nrRunning : Int
  leaf : LeafList
  underflow : Bool

/-- What an operation finds outside of this model. -/
structure Env where
  /-- No runtime is left for the group and none can be assigned; nothing of it is running. -/
  short : Nat → Bool
  /-- The quotient in `calc_group_shares`. -/
  share : Nat → Int
  /-- `load_avg_is_decayed` -/
  decayed : Nat → Bool
  /-- What `child_cfs_rq_on_list` makes of the list head when it takes it for a runqueue. -/
  stray : Nat → Bool

def minShares : Int := 2

def maxShares : Int := 2 ^ 18

def nice0Load : Int := 2 ^ 20

def weightIdleprio : Int := 3

def scaleLoad (w : Int) : Int := w * 2 ^ 10

namespace Counts

@[simps]
instance : Zero Counts := ⟨⟨0, 0, 0, 0, 0⟩⟩

instance : Add Counts := ⟨fun a b => ⟨a.nrRunning + b.nrRunning, a.load + b.load, a.idleNrRunning + b.idleNrRunning,
  a.hNrRunning + b.hNrRunning, a.idleHNrRunning + b.idleHNrRunning⟩⟩

instance : Neg Counts := ⟨fun a => ⟨-a.nrRunning, -a.load, -a.idleNrRunning, -a.hNrRunning, -a.idleHNrRunning⟩⟩

def Fits (n : Counts) : Prop :=
  0 ≤ n.nrRunning ∧ 0 ≤ n.load ∧ 0 ≤ n.idleNrRunning ∧ 0 ≤ n.hNrRunning ∧ 0 ≤ n.idleHNrRunning

instance (n : Counts) : Decidable n.Fits := by unfold Fits; infer_instance

def ofLoad (w : Int) : Counts := ⟨0, w, 0, 0, 0⟩

/-- One entity of weight `w`, without the tasks in it. -/
def ofEntity (w : Int) (idle : Bool) : Counts := ⟨1, w, idle.toInt, 0, 0⟩

/-- `h` tasks below, `i` of them idle. -/
def ofTasks (h i : Int) : Counts := ⟨0, 0, 0, h, i⟩

end Counts

/-! ## The leaf list -/

namespace LeafList

variable (T : Tree)

/-- `list_add_leaf_cfs_rq`, with what it returns. -/
def listAddLeafCfsRq (g : Nat) (L : LeafList) : LeafList × Bool :=
  if L.onList g then (L, L.tmp.isNone)
  else
    let onList := fun x => if x = g then true else L.onList x
    if g ≠ 0 ∧ L.onList (T.parent g) then ({ list := insertBefore g (T.parent g) L.list, onList, tmp := none }, true)
    else if g = 0 then ({ list := L.list ++ [g], onList, tmp := none }, true)
    else
      match L.tmp with
      | none => ({ list := g :: L.list, onList, tmp := some g }, false)
      | some t => ({ list := insertAfter g t L.list, onList, tmp := some g }, false)

def listDelLeafCfsRq (g : Nat) (L : LeafList) : LeafList :=
  if L.onList g then
    { list := L.list.erase g
      onList := fun x => if x = g then false else L.onList x
      tmp := if L.tmp = some g then prev g L.list else L.tmp }
  else L

/-- The node `child_cfs_rq_on_list` takes for a runqueue, `none` for the list head. -/
def inspected (g : Nat) (L : LeafList) : Option Nat := if L.onList g then prev g L.list else L.tmp

def childCfsRqOnList (o : Env) (g : Nat) (L : LeafList) : Bool :=
  match L.inspected g with
  | some x => decide (x ≠ 0 ∧ T.parent x = g)
  | none => o.stray g

end LeafList

/-! ## Counters -/

namespace Rq

variable (T : Tree)

def upd (g : Nat) (f : GroupRq → GroupRq) (s : Rq) : Rq :=
  { s with cfs := fun x => if x = g then f (s.cfs x) else s.cfs x }

def add (g : Nat) (d : Counts) (s : Rq) : Rq :=
  { s.upd g fun q => { q with counts := q.counts + d } with
    underflow := s.underflow || !decide ((s.cfs g).counts + d).Fits }

def noteUnderflow (n : Int) (s : Rq) : Rq := { s with underflow := s.underflow || decide (n < 0) }

def addNrRunning (n : Int) (s : Rq) : Rq := { s with nrRunning := s.nrRunning + n }.noteUnderflow (s.nrRunning + n)

def subNrRunning (n : Int) (s : Rq) : Rq := s.addNrRunning (-n)

def cfsRqThrottled (g : Nat) (s : Rq) : Bool := (s.cfs g).throttled

def throttledHierarchy (g : Nat) (s : Rq) : Bool := decide ((s.cfs g).throttleCount ≠ 0)

def listAddLeafCfsRq (g : Nat) (s : Rq) : Rq := { s with leaf := (s.leaf.listAddLeafCfsRq T g).1 }

def listDelLeafCfsRq (g : Nat) (s : Rq) : Rq := { s with leaf := s.leaf.listDelLeafCfsRq g }

def cfsRqIsDecayed (o : Env) (g : Nat) (s : Rq) : Bool :=
  decide ((s.cfs g).counts.load = 0) && o.decayed g && !s.leaf.childCfsRqOnList T o g

end Rq

/-! ## Entities -/

namespace Entity

variable (s : Rq)

def onRq : Entity → Bool
  | task t => s.tasks.any fun u => u.id == t.id
  | group g => (s.cfs g).seOnRq

def weight : Entity → Int
  | task t => t.weight
  | group g => (s.cfs g).seWeight

def isIdle : Entity → Bool
  | task t => t.idle
  | group g => (s.cfs g).idle

end Entity

namespace Rq

def setOnRq (e : Entity) (on : Bool) (s : Rq) : Rq :=
  match e with
  | .task t => { s with tasks := if on then t :: s.tasks else s.tasks.erase t }
  | .group g => s.upd g fun q => { q with seOnRq := on }

def accountEntityEnqueue (c : Nat) (e : Entity) (s : Rq) : Rq := s.add c (.ofEntity (e.weight s) (e.isIdle s))

def accountEntityDequeue (c : Nat) (e : Entity) (s : Rq) : Rq := s.add c (-.ofEntity (e.weight s) (e.isIdle s))

end Rq

/-- `calc_group_shares`: `clamp_t(long, shares, MIN_SHARES, tg_shares)` -/
def calcGroupShares (quotient tgShares : Int) : Int := min (max quotient minShares) tgShares

namespace Rq

variable (T : Tree)

/-- `reweight_entity`, for the entity of group `b` on the runqueue `c`. -/
def reweightEntity (c b : Nat) (weight : Int) (s : Rq) : Rq :=
  if (s.cfs b).seOnRq then
    ((s.add c (-.ofLoad (s.cfs b).seWeight)).upd b fun q => { q with seWeight := weight }).add c (.ofLoad weight)
  else s.upd b fun q => { q with seWeight := weight }

def updateCfsGroup (o : Env) (c : Nat) (e : Entity) (s : Rq) : Rq :=
  match e with
  | .task _ => s
  | .group b =>
    if s.throttledHierarchy b then s
    else s.reweightEntity c b (calcGroupShares (o.share b) (s.cfs b).tgShares)

def dequeueEntity (o : Env) (c : Nat) (e : Entity) (s : Rq) : Rq :=
  ((s.setOnRq e false).accountEntityDequeue c e).updateCfsGroup o c e

def addTasks (c : Nat) (h i : Int) (s : Rq) : Rq := s.add c (.ofTasks h i)

/-- Above an idle group, all `h` tasks are idle ones. -/
def idleDelta (g : Nat) (h i : Int) (s : Rq) : Int := if (s.cfs g).idle then h else i

/-! ## Throttling -/

def tgThrottleDown (g : Nat) (s : Rq) : Rq :=
  (if (s.cfs g).throttleCount = 0 then s.listDelLeafCfsRq g else s).upd g fun q =>
    { q with throttleCount := q.throttleCount + 1 }

def tgUnthrottleUp (o : Env) (g : Nat) (s : Rq) : Rq :=
  let s := s.upd g fun q => { q with throttleCount := q.throttleCount - 1 }
  if (s.cfs g).throttleCount = 0 ∧ s.cfsRqIsDecayed T o g = false then s.listAddLeafCfsRq T g else s

/-- The second loop of `throttle_cfs_rq`. -/
def throttleRest (taskDelta : Int) : List Nat → Nat → Int → Rq → Rq
  | [], _, _, s => s.subNrRunning taskDelta
  | c :: cs, b, i, s =>
    if !(s.cfs b).seOnRq then s
    else
      let i := s.idleDelta b taskDelta i
      throttleRest taskDelta cs c i (s.addTasks c (-taskDelta) (-i))

/-- The first loop of `throttle_cfs_rq`: `c` is the runqueue of the entity of group `b`. The throttled runqueue is not on
the way, so its `h_nr_running` is `taskDelta` throughout. -/
def throttleLoop (o : Env) (taskDelta : Int) : List Nat → Nat → Int → Rq → Rq
  | [], _, _, s => s.subNrRunning taskDelta
  | c :: cs, b, i, s =>
    if !(s.cfs b).seOnRq then s
    else
      let s := s.dequeueEntity o c (.group b)
      let i := s.idleDelta b taskDelta i
      let s := s.addTasks c (-taskDelta) (-i)
      if (s.cfs c).counts.load ≠ 0 then throttleRest taskDelta cs c i s else throttleLoop o taskDelta cs c i s

def throttleCfsRq (o : Env) (g : Nat) (s : Rq) : Rq :=
  if !o.short g then s
  else
    let s := T.walk tgThrottleDown (fun _ s => s) g s
    let n := (s.cfs g).counts
    (s.throttleLoop o n.hNrRunning (T.path (T.parent g)) g n.idleHNrRunning).upd g fun q => { q with throttled := true }

/-- The root has no `runtime_enabled`. -/
def checkEnqueueThrottle (o : Env) (g : Nat) (s : Rq) : Rq :=
  if g = 0 ∨ s.cfsRqThrottled g then s else s.throttleCfsRq T o g

/-- `enqueue_entity`, up to where `se->on_rq` is set. -/
def linkEntity (o : Env) (c : Nat) (e : Entity) (s : Rq) : Rq :=
  ((s.updateCfsGroup o c e).accountEntityEnqueue c e).setOnRq e true

def enqueueEntity (o : Env) (c : Nat) (e : Entity) (s : Rq) : Rq :=
  let s := s.linkEntity o c e
  if (s.cfs c).counts.nrRunning = 1 then
    let s := s.checkEnqueueThrottle T o c
    if s.throttledHierarchy c then s else s.listAddLeafCfsRq T c
  else s

/-- The second loop of `unthrottle_cfs_rq`. -/
def unthrottleRest (taskDelta : Int) : List Nat → Nat → Int → Rq → Rq
  | [], _, _, s => s.addNrRunning taskDelta
  | c :: cs, b, i, s =>
    let i := s.idleDelta b taskDelta i
    let s := s.addTasks c taskDelta i
    if s.cfsRqThrottled c then s else unthrottleRest taskDelta cs c i s

/-- The first loop of `unthrottle_cfs_rq`. -/
def unthrottleLoop (o : Env) (taskDelta : Int) : List Nat → Nat → Int → Rq → Rq
  | [], _, _, s => s.addNrRunning taskDelta
  | c :: cs, b, i, s =>
    if (s.cfs b).seOnRq then s.unthrottleRest taskDelta (c :: cs) b i
    else
      let s := s.enqueueEntity T o c (.group b)
      let i := s.idleDelta b taskDelta i
      let s := s.addTasks c taskDelta i
      if s.cfsRqThrottled c then s else unthrottleLoop o taskDelta cs c i s

/-- The loop of `unthrottle_cfs_rq` that completes a branch of the leaf list. -/
def completeBranch : List Nat → Rq → Rq
  | [], s => s
  | c :: cs, s =>
    if (s.leaf.listAddLeafCfsRq T c).2 then s.listAddLeafCfsRq T c else completeBranch cs (s.listAddLeafCfsRq T c)

def unthrottleCfsRq (o : Env) (g : Nat) (s : Rq) : Rq :=
  let s := s.upd g fun q => { q with throttled := false }
  let s := T.walk (fun _ s => s) (tgUnthrottleUp T o) g s
  let n := (s.cfs g).counts
  if n.load = 0 then
    if s.leaf.onList g then s.completeBranch T (T.path (T.parent g)) else s
  else s.unthrottleLoop T o n.hNrRunning (T.path (T.parent g)) g n.idleHNrRunning

/-! ## Tasks -/

/-- The second loop of `enqueue_task_fair` (`h = 1`) and of `dequeue_task_fair` (`h = -1`): `i` is `h` for an idle task.
-/
def secondLoop (o : Env) (h : Int) : List Nat → Entity → Int → Rq → Rq
  | [], _, _, s => s.addNrRunning h
  | c :: cs, e, i, s =>
    let s := (s.updateCfsGroup o c e).addTasks c h i
    if s.cfsRqThrottled c then s else secondLoop o h cs (.group c) (s.idleDelta c h i) s

/-- The first loop of `enqueue_task_fair`. -/
def enqueueLoop (o : Env) : List Nat → Entity → Int → Rq → Rq
  | [], _, _, s => s.addNrRunning 1
  | c :: cs, e, i, s =>
    if e.onRq s then s.secondLoop o 1 (c :: cs) e i
    else
      let s := (s.enqueueEntity T o c e).addTasks c 1 i
      if s.cfsRqThrottled c then s else enqueueLoop o cs (.group c) (s.idleDelta c 1 i) s

def enqueueTaskFair (o : Env) (t : Task) (s : Rq) : Rq := s.enqueueLoop T o (T.path t.group) (.task t) t.idle.toInt

/-- The first loop of `dequeue_task_fair`. -/
def dequeueLoop (o : Env) : List Nat → Entity → Int → Rq → Rq
  | [], _, _, s => s.subNrRunning 1
  | c :: cs, e, i, s =>
    let s := (s.dequeueEntity o c e).addTasks c (-1) (-i)
    let i := s.idleDelta c 1 i
    if s.cfsRqThrottled c then s
    else if (s.cfs c).counts.load ≠ 0 then s.secondLoop o (-1) cs (.group c) (-i)
    else dequeueLoop o cs (.group c) i s

def dequeueTaskFair (o : Env) (t : Task) (s : Rq) : Rq := s.dequeueLoop o (T.path t.group) (.task t) t.idle.toInt

/-! ## Groups -/

/-- The loop of `__sched_group_set_shares`. -/
def setSharesLoop (o : Env) : List Nat → Nat → Rq → Rq
  | [], _, s => s
  | c :: cs, b, s => setSharesLoop o cs c (s.updateCfsGroup o c (.group b))

/-- For a group other than the root -/
def __schedGroupSetShares (o : Env) (g : Nat) (shares : Int) (s : Rq) : Rq :=
  let shares := min (max shares (scaleLoad minShares)) (scaleLoad maxShares)
  if (s.cfs g).tgShares = shares then s
  else (s.upd g fun q => { q with tgShares := shares }).setSharesLoop o (T.path (T.parent g)) g

/-- The loop of `sched_group_set_idle`. -/
def setIdleLoop (idleTaskDelta : Int) : List Nat → Nat → Rq → Rq
  | [], _, s => s
  | c :: cs, b, s =>
    if !(s.cfs b).seOnRq then s
    else
      let s := s.addTasks c 0 idleTaskDelta
      if (s.cfs c).idle then s else setIdleLoop idleTaskDelta cs c s

/-- What `sched_group_set_idle` does to the counters of this CPU once `grp_cfs_rq->idle` is set. -/
def setIdleCounts (g : Nat) (s : Rq) : Rq :=
  let sign : Int := if (s.cfs g).idle then 1 else -1
  let s := if (s.cfs g).seOnRq then s.add (T.parent g) ⟨0, 0, sign, 0, 0⟩ else s
  let d := (s.cfs g).counts.hNrRunning - (s.cfs g).counts.idleHNrRunning
  (s.noteUnderflow d).setIdleLoop (sign * d) (T.path (T.parent g)) g

def markIdle (g : Nat) (on : Bool) (s : Rq) : Rq := s.upd g fun q => { q with tgIdle := on, idle := on }

/-- `none` is `-EINVAL`. -/
def schedGroupSetIdle (o : Env) (g : Nat) (idle : Int) (s : Rq) : Option Rq :=
  if g = 0 ∨ idle < 0 ∨ 1 < idle then none
  else
    let on := decide (idle = 1)
    if (s.cfs g).tgIdle = on then some s
    else
      let wasIdle := (s.cfs g).idle
      let s := s.markIdle g on
      -- the warning that nothing changed skips this CPU
      let s := if wasIdle = on then s else s.setIdleCounts T g
      some (s.__schedGroupSetShares T o g (if on then scaleLoad weightIdleprio else nice0Load))

/-! ## Load -/

/-- `propagate_entity_cfs_rq`, over the runqueues from the one of the entity upwards. -/
def propagateEntityCfsRq : List Nat → Rq → Rq
  | [], s => s
  | c :: cs, s =>
    if s.cfsRqThrottled c then s
    else propagateEntityCfsRq cs (if s.throttledHierarchy c then s else s.listAddLeafCfsRq T c)

/-- One round of the loop of `__update_blocked_fair`. -/
def blockedVisit (o : Env) (s : Rq) (g : Nat) : Rq := if s.cfsRqIsDecayed T o g then s.listDelLeafCfsRq g else s

/-- `__update_blocked_fair`; only the visited runqueue is taken off the list, so the loop sees the list as it was. -/
def __updateBlockedFair (o : Env) (s : Rq) : Rq := s.leaf.list.foldl (blockedVisit T o) s

end Rq

/-! ## Runs -/

inductive Op
  | enqueue (t : Task)
  | dequeue (t : Task)
  | throttle (g : Nat)
  | unthrottle (g : Nat)
  | setIdle (g : Nat) (idle : Int)
  /-- For an entity whose runqueue is that of group `g`. -/
  | propagate (g : Nat)
  | updateBlocked

namespace Op

variable (T : Tree)

def enabled (s : Rq) : Op → Prop
  | enqueue t => t.group < T.size ∧ 0 < t.weight ∧ (Entity.task t).onRq s = false
  | dequeue t => t ∈ s.tasks
  | throttle g => g ≠ 0 ∧ g < T.size ∧ (s.cfs g).throttled = false
  | unthrottle g => g ≠ 0 ∧ g < T.size ∧ (s.cfs g).throttled = true
  | setIdle g _ => g < T.size
  | propagate g => g < T.size
  | updateBlocked => True

instance (s : Rq) : ∀ op, Decidable (enabled T s op)
  | enqueue _ | dequeue _ | throttle _ | unthrottle _ | setIdle _ _ | propagate _ | updateBlocked => by
    unfold enabled; infer_instance

def act (o : Env) (s : Rq) : Op → Rq
  | enqueue t => s.enqueueTaskFair T o t
  | dequeue t => s.dequeueTaskFair T o t
  | throttle g => s.throttleCfsRq T o g
  | unthrottle g => s.unthrottleCfsRq T o g
  | setIdle g idle => (s.schedGroupSetIdle T o g idle).getD s
  | propagate g => s.propagateEntityCfsRq T (T.path g)
  | updateBlocked => s.__updateBlockedFair T o

def step (op : Env × Op) (s : Rq) : Option Rq := if op.2.enabled T s then some (op.2.act T op.1 s) else none

end Op

def Rq.boot : Rq where
  cfs := fun _ =>
    { counts := 0, idle := false, throttled := false, throttleCount := 0, seOnRq := false, seWeight := nice0Load,
      tgIdle := false, tgShares := nice0Load }
  tasks := []
  nrRunning := 0
  leaf := { list := [], onList := fun _ => false, tmp := none }
  underflow := false

end KernelSched.Group
