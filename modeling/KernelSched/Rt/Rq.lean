import KernelSched.Lib.Rooted

/-!
# The real-time runqueues of one CPU

Each task group has a `struct rt_rq` on the CPU, with one list for every priority and a bitmap of the lists in use. The
entity of a group is queued in the runqueue of its parent at the highest priority that is queued in the group. This
changes with the tasks of the group, so `enqueue_rt_entity` and `dequeue_rt_entity` take out the entities of all groups
above from the root downwards and put them back from below.

- The groups are a `Rooted.Tree`; `0` is `root_task_group`, whose runqueue is `rq->rt`. `n` tasks may run here.
- An entity is taken off the list it is on, but the bit that may be cleared is that of its current priority.
- With `DEQUEUE_SAVE` and without `DEQUEUE_MOVE` entities stay on their lists while they are not on the runqueue.
- Counters are exact. `nrRunning` is the part of `rq->nr_running` that comes from here.
-/

set_option linter.style.nameCheck false

namespace KernelSched.Rt

open Rooted

/-! ## Data -/

def maxRtPrio : Nat := 100

/-- `struct sched_rt_entity`: of a task or of a group. -/
inductive Entity (n : Nat)
  | task (p : Fin n)
  | group (g : Nat)
  deriving DecidableEq

/-- What is read of `struct task_struct` -/
structure RtTask where
  /-- The group whose runqueue is `rt_rq_of_se(&p->rt)` -/
  group : Nat
  prio : Nat
  normalPrio : Nat
  /-- `policy == SCHED_RR` -/
  rr : Bool

/-- The counters of `struct rt_rq` -/
@[ext]
structure Counts where
  rtNrRunning : Int
  rrNrRunning : Int
  rtNrBoosted : Int
  deriving DecidableEq

/-- `struct rt_rq`; `queue` and `bitmap` are those of `active`, without the delimiter bit. -/
structure RtRq (n : Nat) where
  queue : Nat → List (Entity n)
  bitmap : Nat → Bool
  counts : Counts
  /-- `highest_prio.curr` -/
  highestPrio : Nat
  rtThrottled : Bool

/-- `struct rq`, with the flags of the entities. -/
structure Rq (n : Nat) where
  rt : Nat → RtRq n
  task : Fin n → RtTask
  onRq : Entity n → Bool
  onList : Entity n → Bool
  rtQueued : Bool
  nrRunning : Int

/-- The flags that `rt.c` looks at; `DEQUEUE_SAVE` is `ENQUEUE_RESTORE`. -/
structure Flags where
  save : Bool
  move : Bool
  head : Bool

def Flags.moveEntity (flags : Flags) : Bool := !(flags.save && !flags.move)

def Flags.none : Flags := ⟨false, false, false⟩

/-- `sched_find_first_bit`, with the delimiter. -/
def firstBit (bitmap : Nat → Bool) : Nat := ((List.range maxRtPrio).find? bitmap).getD maxRtPrio

namespace Counts

@[simps]
instance : Zero Counts := ⟨⟨0, 0, 0⟩⟩

@[simps]
instance : Add Counts := ⟨fun a b => ⟨a.rtNrRunning + b.rtNrRunning, a.rrNrRunning + b.rrNrRunning,
    a.rtNrBoosted + b.rtNrBoosted⟩⟩

@[simps]
instance : Neg Counts := ⟨fun a => ⟨-a.rtNrRunning, -a.rrNrRunning, -a.rtNrBoosted⟩⟩

instance : Sub Counts := ⟨fun a b => a + -b⟩

end Counts

/-! ## Entities -/

namespace Rq

variable {n : Nat} (T : Tree)

def rtRqThrottled (g : Nat) (s : Rq n) : Bool := (s.rt g).rtThrottled && decide ((s.rt g).counts.rtNrBoosted = 0)

def rtRqOfSe (s : Rq n) : Entity n → Nat
  | .task p => (s.task p).group
  | .group g => T.parent g

def rtSePrio (s : Rq n) : Entity n → Nat
  | .task p => (s.task p).prio
  | .group g => (s.rt g).highestPrio

def rtSeBoosted (s : Rq n) : Entity n → Bool
  | .task p => decide ((s.task p).prio ≠ (s.task p).normalPrio)
  | .group g => decide ((s.rt g).counts.rtNrBoosted ≠ 0)

def rtSeNrRunning (s : Rq n) : Entity n → Int
  | .task _ => 1
  | .group g => (s.rt g).counts.rtNrRunning

def rtSeRrNrRunning (s : Rq n) : Entity n → Int
  | .task p => (s.task p).rr.toInt
  | .group g => (s.rt g).counts.rrNrRunning

def share (s : Rq n) (e : Entity n) : Counts := ⟨s.rtSeNrRunning e, s.rtSeRrNrRunning e, (s.rtSeBoosted e).toInt⟩

def upd (g : Nat) (f : RtRq n → RtRq n) (s : Rq n) : Rq n :=
  { s with rt := fun x => if x = g then f (s.rt x) else s.rt x }

def setOnRq (e : Entity n) (on : Bool) (s : Rq n) : Rq n := { s with onRq := fun x => if x = e then on else s.onRq x }

def setOnList (e : Entity n) (on : Bool) (s : Rq n) : Rq n :=
  { s with onList := fun x => if x = e then on else s.onList x }

def incRtPrio (prio : Nat) (q : RtRq n) : RtRq n :=
  { q with highestPrio := if prio < q.highestPrio then prio else q.highestPrio }

def decRtPrio (prio : Nat) (q : RtRq n) : RtRq n :=
  { q with highestPrio :=
      if q.counts.rtNrRunning ≠ 0 then (if prio = q.highestPrio then firstBit q.bitmap else q.highestPrio)
      else maxRtPrio - 1 }

/-- `inc_rt_tasks` with `inc_rt_group` -/
def incRtTasks (e : Entity n) (s : Rq n) : Rq n :=
  s.upd (s.rtRqOfSe T e) fun q => incRtPrio (s.rtSePrio e) { q with counts := q.counts + s.share e }

/-- `dec_rt_tasks` with `dec_rt_group` -/
def decRtTasks (e : Entity n) (s : Rq n) : Rq n :=
  s.upd (s.rtRqOfSe T e) fun q => decRtPrio (s.rtSePrio e) { q with counts := q.counts - s.share e }

/-! ## Lists -/

/-- The entity is put on the list of its priority, at one end. -/
def listRtEntity (head : Bool) (e : Entity n) (s : Rq n) : Rq n :=
  (s.upd (s.rtRqOfSe T e) fun q =>
    { q with
      queue := fun i => if i = s.rtSePrio e then (if head then e :: q.queue i else q.queue i ++ [e]) else q.queue i
      bitmap := fun i => if i = s.rtSePrio e then true else q.bitmap i }).setOnList e true

def __delistRtEntity (e : Entity n) (s : Rq n) : Rq n :=
  (s.upd (s.rtRqOfSe T e) fun q =>
      { q with
        queue := fun i => (q.queue i).filter (· ≠ e)
        bitmap := fun i => if i = s.rtSePrio e ∧ (q.queue i).filter (· ≠ e) = [] then false else q.bitmap i })
    |>.setOnList e false

/-- A group that is throttled or empty is not queued. -/
def blocked (s : Rq n) : Entity n → Bool
  | .task _ => false
  | .group g => s.rtRqThrottled g || decide ((s.rt g).counts.rtNrRunning = 0)

def __enqueueRtEntity (flags : Flags) (e : Entity n) (s : Rq n) : Rq n :=
  if s.blocked e then (if s.onList e then s.__delistRtEntity T e else s)
  else (((if flags.moveEntity then s.listRtEntity T flags.head e else s).setOnRq e true).incRtTasks T e)

def __dequeueRtEntity (flags : Flags) (e : Entity n) (s : Rq n) : Rq n :=
  ((if flags.moveEntity then s.__delistRtEntity T e else s).setOnRq e false).decRtTasks T e

/-! ## Stacks -/

/-- `for_each_sched_rt_entity`, from the entity of group `g` upwards; the root has none. -/
def groupStack (n g : Nat) : List (Entity n) := (T.path g).dropLast.map .group

def stack (s : Rq n) : Entity n → List (Entity n)
  | .task p => .task p :: groupStack T n (s.task p).group
  | .group g => groupStack T n g

def dequeueTopRtRq (count : Int) (s : Rq n) : Rq n :=
  if !s.rtQueued then s else { s with nrRunning := s.nrRunning - count, rtQueued := false }

def enqueueTopRtRq (s : Rq n) : Rq n :=
  if s.rtQueued then s
  else if s.rtRqThrottled 0 then s
  else if (s.rt 0).counts.rtNrRunning ≠ 0 then
    { s with nrRunning := s.nrRunning + (s.rt 0).counts.rtNrRunning, rtQueued := true }
  else s

/-- The second loop of `dequeue_rt_stack`, along the `back` pointers: the last entity of the list comes first. -/
def dequeueBack (flags : Flags) (es : List (Entity n)) (s : Rq n) : Rq n :=
  es.foldr (fun e s => if s.onRq e then s.__dequeueRtEntity T flags e else s) s

def dequeueRtStack (flags : Flags) (es : List (Entity n)) (s : Rq n) : Rq n :=
  (s.dequeueBack T flags es).dequeueTopRtRq (s.rt 0).counts.rtNrRunning

/-- The loop of `enqueue_rt_entity` -/
def enqueueStack (flags : Flags) (es : List (Entity n)) (s : Rq n) : Rq n :=
  es.foldl (fun s e => s.__enqueueRtEntity T flags e) s

def enqueueRtEntity (flags : Flags) (e : Entity n) (s : Rq n) : Rq n :=
  ((s.dequeueRtStack T flags (s.stack T e)).enqueueStack T flags (s.stack T e)).enqueueTopRtRq

def holdsTasks (s : Rq n) : Entity n → Bool
  | .task _ => false
  | .group g => decide ((s.rt g).counts.rtNrRunning ≠ 0)

/-- The loop of `dequeue_rt_entity` -/
def requeueStack (flags : Flags) (es : List (Entity n)) (s : Rq n) : Rq n :=
  es.foldl (fun s e => if s.holdsTasks e then s.__enqueueRtEntity T flags e else s) s

def dequeueRtEntity (flags : Flags) (e : Entity n) (s : Rq n) : Rq n :=
  ((s.dequeueRtStack T flags (s.stack T e)).requeueStack T flags (s.stack T e)).enqueueTopRtRq

/-! ## Throttling -/

def schedRtRqEnqueue (g : Nat) (s : Rq n) : Rq n :=
  if (s.rt g).counts.rtNrRunning ≠ 0 then
    if g = 0 then s.enqueueTopRtRq
    else if !s.onRq (.group g) then s.enqueueRtEntity T .none (.group g)
    else s
  else s

def schedRtRqDequeue (g : Nat) (s : Rq n) : Rq n :=
  if g = 0 then s.dequeueTopRtRq (s.rt 0).counts.rtNrRunning
  else if s.onRq (.group g) then s.dequeueRtEntity T .none (.group g)
  else s

def setRtThrottled (g : Nat) (on : Bool) (s : Rq n) : Rq n := s.upd g fun q => { q with rtThrottled := on }

/-- `sched_rt_runtime_exceeded`, when the runtime of the group is used up. -/
def throttle (g : Nat) (s : Rq n) : Rq n :=
  if (s.rt g).rtThrottled then s
  else
    let s := s.setRtThrottled g true
    if s.rtRqThrottled g then s.schedRtRqDequeue T g else s

/-- `do_sched_rt_period_timer`, when the group has runtime again. -/
def unthrottle (g : Nat) (s : Rq n) : Rq n := (s.setRtThrottled g false).schedRtRqEnqueue T g

def setTask (p : Fin n) (a : RtTask) (s : Rq n) : Rq n := { s with task := fun q => if q = p then a else s.task q }

end Rq

/-! ## Runs -/

/-- A priority of the class, and a group that is there. -/
def RtTask.Valid (T : Tree) (a : RtTask) : Prop := a.group < T.size ∧ a.prio < maxRtPrio

instance (T : Tree) (a : RtTask) : Decidable (a.Valid T) := inferInstanceAs (Decidable (_ ∧ _))

inductive Op (n : Nat)
  /-- A task comes, with these attributes. -/
  | enqueue (p : Fin n) (a : RtTask) (flags : Flags)
  | dequeue (p : Fin n) (flags : Flags)
  /-- A queued task is taken out, changed, and put back with the same flags. -/
  | change (p : Fin n) (a : RtTask) (flags : Flags)
  | throttle (g : Nat)
  | unthrottle (g : Nat)

namespace Op

variable {n : Nat} (T : Tree)

/-- What the callers see to: a task that stays on its list has its group and its priority. -/
def enabled (s : Rq n) : Op n → Prop
  | enqueue p a flags => flags.moveEntity = true ∧ a.Valid T ∧ s.onRq (.task p) = false
  | dequeue p flags => flags.moveEntity = true ∧ s.onRq (.task p) = true
  | change p a flags => s.onRq (.task p) = true ∧ a.Valid T ∧
      (flags.moveEntity = true ∨ a.group = (s.task p).group ∧ a.prio = (s.task p).prio)
  | throttle g | unthrottle g => g < T.size

instance (s : Rq n) : ∀ op, Decidable (enabled T s op)
  | enqueue _ _ _ | dequeue _ _ | change _ _ _ | throttle _ | unthrottle _ => by unfold enabled; infer_instance

def act (s : Rq n) : Op n → Rq n
  | enqueue p a flags => (s.setTask p a).enqueueRtEntity T flags (.task p)
  | dequeue p flags => s.dequeueRtEntity T flags (.task p)
  | change p a flags => ((s.dequeueRtEntity T flags (.task p)).setTask p a).enqueueRtEntity T flags (.task p)
  | throttle g => s.throttle T g
  | unthrottle g => s.unthrottle T g

def step (op : Op n) (s : Rq n) : Option (Rq n) := if op.enabled T s then some (op.act T s) else none

end Op

def RtRq.init (n : Nat) : RtRq n where
  queue := fun _ => []
  bitmap := fun _ => false
  counts := 0
  highestPrio := maxRtPrio - 1
  rtThrottled := false

def Rq.boot (n : Nat) : Rq n where
  rt := fun _ => .init n
  task := fun _ => ⟨0, 0, 0, false⟩
  onRq := fun _ => false
  onList := fun _ => false
  rtQueued := false
  nrRunning := 0

end KernelSched.Rt
