import KernelSched.Lib.CachedTree
import KernelSched.Deadline.Cpudl
import KernelSched.Rt.Cpupri

/-!
# The deadline and real-time queues of the CPUs of a root domain

Every CPU has its deadline tasks in a tree by deadline and those of them that may be pushed to another CPU in a second
one. `earliest_dl` caches the first deadline of both; the root domain has the earliest deadline of every CPU in `cpudl`
and its priority level in `cpupri`, to which the real-time class writes as well.

- A task comes with the deadline it has when it is queued, whatever computed it. It does not change while the task is
  queued: to replenish or change a queued task is to take it out and put it back.
- `earliest_dl.curr` is 0 for a CPU without deadline tasks. That is what `inc_dl_deadline` asks, and not `dl_nr_running`.
- The real-time queues are those of `Rt.Rq`; each `__enqueue_rt_entity` and `__dequeue_rt_entity` is an operation, so
  that every point in the loops over the groups of a task is one between two operations.
- Balancing is open (`Rotations`).
-/

set_option linter.style.nameCheck false

namespace KernelSched.DlQueue

open Wrap CachedTree Cpupri Rt Deadline List

/-! ## Model -/

/-- What the queues read of a task -/
structure Queued where
  id : Nat
  deadline : U64
  /-- `dl_entity_is_special` -/
  special : Bool
  deriving DecidableEq

def dlLess (a b : Queued) : Bool := dlTimeBefore a.deadline b.deadline

/-- The order of the pushable tasks -/
def dlEntityPreempt (a b : Queued) : Bool := a.special || dlTimeBefore a.deadline b.deadline

/-- What is modelled of `struct dl_rq` -/
structure DlRq where
  root : CTree Queued
  dlNrRunning : Nat
  curr : U64
  next : U64
  pushable : CTree Queued

def DlRq.init : DlRq := ⟨.empty, 0, 0, 0, .empty⟩

/-- What the queues use of `struct root_domain` -/
structure Rd where
  cpudl : Cpudl
  cpupri : Cpupri Nat

namespace Rd

def cpudlSet (cpu : Nat) (dl : U64) (rd : Rd) : Rd := { rd with cpudl := rd.cpudl.set cpu dl }

def cpudlClear (cpu : Nat) (rd : Rd) : Rd := { rd with cpudl := rd.cpudl.clear cpu }

def cpudlSetFree (cpu : Nat) (free : Bool) (rd : Rd) : Rd := { rd with cpudl := rd.cpudl.setFree cpu free }

def cpupriSet (cpu : Nat) (newpri : Option Level) (rd : Rd) : Rd :=
  { rd with cpupri := rd.cpupri.set cpu newpri }

end Rd

/-- `highest_prio.curr` of a queue as an argument of `cpupri_set`; it is not above `MAX_RT_PRIO`. -/
def rtPrio (highestPrio : Nat) : Level := @Fin.ofNat _ Nat.instNeZeroSucc highestPrio

namespace DlRq

def incDlDeadline (cpu : Nat) (deadline : U64) (q : DlRq) (rd : Rd) : DlRq × Rd :=
  if q.curr = 0 ∨ dlTimeBefore deadline q.curr then
    let rd := if q.curr = 0 then rd.cpupriSet cpu (some higher) else rd
    ({ q with curr := deadline }, rd.cpudlSet cpu deadline)
  else (q, rd)

/-- `dec_dl_deadline`; the tree is empty in the last case, and `dl_nr_running` would be 0. -/
def decDlDeadline (cpu highestPrio : Nat) (q : DlRq) (rd : Rd) : DlRq × Rd :=
  if q.dlNrRunning = 0 then
    ({ q with curr := 0, next := 0 }, (rd.cpudlClear cpu).cpupriSet cpu (some (rtPrio highestPrio)))
  else match q.root.leftmost with
    | some entry => ({ q with curr := entry.deadline }, rd.cpudlSet cpu entry.deadline)
    | none => (q, rd)

/-- `__enqueue_dl_entity` with `inc_dl_tasks` -/
def __enqueueDlEntity (cpu : Nat) (ds : Rotations) (p : Queued) (q : DlRq) (rd : Rd) : DlRq × Rd :=
  incDlDeadline cpu p.deadline { q with root := q.root.add dlLess ds p, dlNrRunning := q.dlNrRunning + 1 } rd

/-- `RB_EMPTY_NODE`, negated: `on_dl_rq` -/
def onDlRq (id : Nat) (q : DlRq) : Bool := q.root.items.any fun p => p.id == id

def isPushable (id : Nat) (q : DlRq) : Bool := q.pushable.items.any fun p => p.id == id

/-- `__dequeue_dl_entity` with `dec_dl_tasks` -/
def __dequeueDlEntity (cpu highestPrio : Nat) (ds : Rotations) (id : Nat) (q : DlRq) (rd : Rd) : DlRq × Rd :=
  if q.onDlRq id then
    decDlDeadline cpu highestPrio
      { q with root := (q.root.erase Queued.id ds id).1, dlNrRunning := q.dlNrRunning - 1 } rd
  else (q, rd)

def enqueuePushableDlTask (ds : Rotations) (p : Queued) (q : DlRq) : DlRq :=
  { q with
    pushable := q.pushable.add dlEntityPreempt ds p
    next := if q.pushable.first dlEntityPreempt p then p.deadline else q.next }

def dequeuePushableDlTask (ds : Rotations) (id : Nat) (q : DlRq) : DlRq :=
  let (pushable, leftmost) := q.pushable.erase Queued.id ds id
  { q with pushable := pushable, next := leftmost.elim q.next Queued.deadline }

/-- The rest of `enqueue_task_dl`, for a task that is not throttled -/
def enqueueTaskDl (cpu : Nat) (ds : Rotations) (p : Queued) (current : Bool) (nrCpusAllowed : Nat) (q : DlRq)
    (rd : Rd) : DlRq × Rd :=
  let (q, rd) := q.__enqueueDlEntity cpu ds p rd
  (if !current ∧ 1 < nrCpusAllowed then q.enqueuePushableDlTask ds p else q, rd)

def __dequeueTaskDl (cpu highestPrio : Nat) (ds : Rotations) (id : Nat) (q : DlRq) (rd : Rd) : DlRq × Rd :=
  let (q, rd) := q.__dequeueDlEntity cpu highestPrio ds id rd
  (q.dequeuePushableDlTask ds id, rd)

/-- The last lines of `put_prev_task_dl` -/
def putPrevTaskDl (ds : Rotations) (id nrCpusAllowed : Nat) (q : DlRq) : DlRq :=
  match q.root.items.find? fun p => p.id == id with
  | some p => if 1 < nrCpusAllowed then q.enqueuePushableDlTask ds p else q
  | none => q

end DlRq

/-! ## Operations -/

/-- What is modelled of `struct rq` -/
structure CpuRq (n : Nat) where
  dl : DlRq
  rt : Rt.Rq n
  online : Bool

def CpuRq.highestPrio {n : Nat} (r : CpuRq n) : Nat := (r.rt.rt 0).highestPrio

/-- The runqueues of the CPUs, and the root domain they are all in -/
structure Domain (n : Nat) where
  rq : Nat → CpuRq n
  rd : Rd

inductive DomainOp (n : Nat)
  | enqueueDl (ds : Rotations) (p : Queued) (current : Bool) (nrCpusAllowed : Nat)
  | dequeueDl (ds : Rotations) (id : Nat)
  /-- `set_next_task_dl` -/
  | setNext (ds : Rotations) (id : Nat)
  | putPrev (ds : Rotations) (id nrCpusAllowed : Nat)
  /-- `__enqueue_rt_entity` -/
  | enqueueRt (flags : Flags) (e : Entity n)
  /-- `__dequeue_rt_entity` -/
  | dequeueRt (flags : Flags) (e : Entity n)
  /-- A real-time task gets other attributes. -/
  | setTask (p : Fin n) (a : RtTask)
  | setRqOnline
  | setRqOffline

/-- `inc_rt_prio_smp` of the top queue -/
def incRtPrioSmp (cpu : Nat) (online : Bool) (prio prevPrio : Nat) (rd : Rd) : Rd :=
  if online ∧ prio < prevPrio then rd.cpupriSet cpu (some (rtPrio prio)) else rd

/-- `dec_rt_prio_smp` of the top queue, with `highest_prio.curr` after the change -/
def decRtPrioSmp (cpu : Nat) (online : Bool) (curr prevPrio : Nat) (rd : Rd) : Rd :=
  if online ∧ curr ≠ prevPrio then rd.cpupriSet cpu (some (rtPrio curr)) else rd

namespace CpuRq

variable {n : Nat} (T : Rooted.Tree) (cpu : Nat)

/-- `__enqueue_rt_entity`, with what `inc_rt_prio` does to the root domain -/
def enqueueRt (flags : Flags) (e : Entity n) (r : CpuRq n) (rd : Rd) : CpuRq n × Rd :=
  ({ r with rt := r.rt.__enqueueRtEntity T flags e },
    if !r.rt.blocked e ∧ r.rt.rtRqOfSe T e = 0 then incRtPrioSmp cpu r.online (r.rt.rtSePrio e) r.highestPrio rd else rd)

/-- `__dequeue_rt_entity`, with what `dec_rt_prio` does to the root domain -/
def dequeueRt (flags : Flags) (e : Entity n) (r : CpuRq n) (rd : Rd) : CpuRq n × Rd :=
  let r' := { r with rt := r.rt.__dequeueRtEntity T flags e }
  (r', if r.rt.rtRqOfSe T e = 0 then decRtPrioSmp cpu r.online r'.highestPrio r.highestPrio rd else rd)

def rqOnlineDl (r : CpuRq n) (rd : Rd) : Rd :=
  let rd := rd.cpudlSetFree cpu true
  if 0 < r.dl.dlNrRunning then rd.cpudlSet cpu r.dl.curr else rd

def rqOnlineRt (r : CpuRq n) (rd : Rd) : Rd := rd.cpupriSet cpu (some (rtPrio r.highestPrio))

/-- `set_rq_online`: the classes in their order -/
def setRqOnline (r : CpuRq n) (rd : Rd) : CpuRq n × Rd :=
  if r.online then (r, rd) else ({ r with online := true }, r.rqOnlineRt cpu (r.rqOnlineDl cpu rd))

/-- With `rq_offline_dl` and `rq_offline_rt` -/
def setRqOffline (r : CpuRq n) (rd : Rd) : CpuRq n × Rd :=
  if r.online then ({ r with online := false }, ((rd.cpudlClear cpu).cpudlSetFree cpu false).cpupriSet cpu none)
  else (r, rd)

def withDl (r : CpuRq n) (x : DlRq × Rd) : CpuRq n × Rd := ({ r with dl := x.1 }, x.2)

/-- What the callers see to: a task that is put in a tree is not in it. -/
def enabled (r : CpuRq n) : DomainOp n → Bool
  | .enqueueDl _ p _ _ => !r.dl.onDlRq p.id
  | .putPrev _ id _ => !r.dl.isPushable id
  | _ => true

def act (op : DomainOp n) (r : CpuRq n) (rd : Rd) : CpuRq n × Rd :=
  match op with
  | .enqueueDl ds p current nrCpusAllowed => r.withDl (r.dl.enqueueTaskDl cpu ds p current nrCpusAllowed rd)
  | .dequeueDl ds id => r.withDl (r.dl.__dequeueTaskDl cpu r.highestPrio ds id rd)
  | .setNext ds id => r.withDl (r.dl.dequeuePushableDlTask ds id, rd)
  | .putPrev ds id nrCpusAllowed => r.withDl (r.dl.putPrevTaskDl ds id nrCpusAllowed, rd)
  | .enqueueRt flags e => r.enqueueRt T cpu flags e rd
  | .dequeueRt flags e => r.dequeueRt T cpu flags e rd
  | .setTask p a => ({ r with rt := r.rt.setTask p a }, rd)
  | .setRqOnline => r.setRqOnline cpu rd
  | .setRqOffline => r.setRqOffline cpu rd

end CpuRq

namespace Domain

variable {n : Nat} (T : Rooted.Tree) (N : Nat)

def step (op : Nat × DomainOp n) (s : Domain n) : Option (Domain n) :=
  if op.1 < N ∧ (s.rq op.1).enabled op.2 then
    let (r, rd) := (s.rq op.1).act T op.1 op.2 s.rd
    some ⟨Function.update s.rq op.1 r, rd⟩
  else none

def init (free : Nat → Bool) : Domain n := ⟨fun _ => ⟨.init, .boot n, false⟩, ⟨.init free, .init⟩⟩

def rootOnly : Rooted.Tree where
  size := 1
  parent := fun _ => 0
  parent_lt := Nat.pos_of_ne_zero

end Domain

/-! ## What the operations do -/

namespace DlRq

variable {cpu highestPrio id nrCpusAllowed : Nat} {ds : Rotations} {d : U64} {p : Queued} {current : Bool} {q : DlRq}
  {rd : Rd}

theorem onDlRq_iff : q.onDlRq id = true ↔ id ∈ q.root.items.map Queued.id := by simp [onDlRq]

theorem isPushable_iff : q.isPushable id = true ↔ id ∈ q.pushable.items.map Queued.id := by simp [isPushable]

def earlier (d : U64) (q : DlRq) : U64 := if q.curr = 0 ∨ dlTimeBefore d q.curr then d else q.curr

theorem incDlDeadline_fst : (q.incDlDeadline cpu d rd).1 = { q with curr := q.earlier d } := by
  unfold incDlDeadline earlier
  split <;> rfl

theorem incDlDeadline_cpudl : (q.incDlDeadline cpu d rd).2.cpudl =
    if q.curr = 0 ∨ dlTimeBefore d q.curr then rd.cpudl.set cpu d else rd.cpudl := by
  unfold incDlDeadline
  split
  · split <;> rfl
  · rfl

theorem incDlDeadline_cpupri : (q.incDlDeadline cpu d rd).2.cpupri =
    if q.curr = 0 then rd.cpupri.set cpu (some higher) else rd.cpupri := by
  unfold incDlDeadline
  split
  · split <;> rfl
  · next hnot => rw [if_neg fun h0 => hnot (.inl h0)]

theorem enqueueTaskDl_root : (q.enqueueTaskDl cpu ds p current nrCpusAllowed rd).1.root = q.root.add dlLess ds p := by
  simp only [enqueueTaskDl, __enqueueDlEntity, incDlDeadline_fst]
  split <;> rfl

theorem enqueueTaskDl_curr : (q.enqueueTaskDl cpu ds p current nrCpusAllowed rd).1.curr = q.earlier p.deadline := by
  simp only [enqueueTaskDl, __enqueueDlEntity, incDlDeadline_fst]
  split <;> rfl

theorem putPrevTaskDl_curr : (q.putPrevTaskDl ds id nrCpusAllowed).curr = q.curr := by
  unfold putPrevTaskDl
  split
  · split <;> rfl
  · rfl

theorem putPrevTaskDl_root : (q.putPrevTaskDl ds id nrCpusAllowed).root = q.root := by
  unfold putPrevTaskDl
  split
  · split <;> rfl
  · rfl

/-- What every operation keeps, whatever the deadlines are. -/
structure Kept (q : DlRq) : Prop where
  root : q.root.Ok Queued.id
  pushable : q.pushable.Ok Queued.id
  count : q.dlNrRunning = q.root.items.length
  sub : ∀ p ∈ q.pushable.items, p ∈ q.root.items
  idle : q.root.items = [] → q.curr = 0
  next : ∀ p, q.pushable.leftmost = some p → q.next = p.deadline

theorem kept_init : Kept init where
  root := CTree.ok_empty
  pushable := CTree.ok_empty
  count := rfl
  sub := nofun
  idle _ := rfl
  next := nofun

theorem Kept.__enqueueDlEntity (h : q.Kept) (hp : q.onDlRq p.id = false) (cpu : Nat) (ds : Rotations) (rd : Rd) :
    (q.__enqueueDlEntity cpu ds p rd).1.Kept := by
  rw [DlRq.__enqueueDlEntity, incDlDeadline_fst]
  have hnew : p.id ∉ q.root.items.map Queued.id := fun hmem => by simp [onDlRq_iff.2 hmem] at hp
  refine ⟨h.root.add dlLess ds hnew, h.pushable, ?_, fun x hx => CTree.mem_add.2 (.inr (h.sub x hx)), fun hempty => ?_,
    h.next⟩
  · rw [(CTree.perm_add dlLess ds p q.root).length_eq, length_cons, h.count]
  · have hmem : p ∈ (q.root.add dlLess ds p).items := CTree.mem_add.2 (.inl rfl)
    exact absurd hmem (by simp [show (q.root.add dlLess ds p).items = [] from hempty])

theorem Kept.enqueuePushableDlTask (h : q.Kept) (hp : p ∈ q.root.items) (hnot : q.isPushable p.id = false) :
    (q.enqueuePushableDlTask ds p).Kept := by
  have hnew : p.id ∉ q.pushable.items.map Queued.id := fun hmem => by simp [isPushable_iff.2 hmem] at hnot
  refine ⟨h.root, h.pushable.add dlEntityPreempt ds hnew, h.count, fun x hx => ?_, h.idle, fun x hx => ?_⟩
  · rcases CTree.mem_add.1 hx with rfl | hx
    · exact hp
    · exact h.sub x hx
  · simp only [DlRq.enqueuePushableDlTask, CTree.add] at hx ⊢
    split at hx
    · next hfirst =>
      cases hx
      rw [if_pos hfirst]
    · next hfirst =>
      rw [if_neg hfirst]
      exact h.next x hx

/-- The pushable tasks without one; `earliest_dl.next` has to be right only when another one is first. -/
theorem dequeuePushableDlTask_next (hok : q.pushable.Ok Queued.id)
    (hnext : ∀ x, q.pushable.leftmost = some x → x.id = id ∨ q.next = x.deadline) :
    ∀ x, (q.dequeuePushableDlTask ds id).pushable.leftmost = some x →
        (q.dequeuePushableDlTask ds id).next = x.deadline := by
  intro x hx
  simp only [dequeuePushableDlTask] at hx ⊢
  rw [hok.erase_leftmost ds id] at hx
  split at hx
  · rw [hx]
    rfl
  · next hfirst =>
    rw [CTree.erase_snd_of_ne ds hfirst]
    rcases hnext x hx with hid | hdl
    · exact absurd (by rw [hx, Option.map_some, hid]) hfirst
    · exact hdl

section

variable (h : q.Kept)

include h

theorem Kept.dequeuePushableDlTask (ds : Rotations) (id : Nat) : (q.dequeuePushableDlTask ds id).Kept :=
  ⟨h.root, h.pushable.erase_ok ds id, h.count, fun x hx => h.sub x ((h.pushable.mem_erase ds id).1 hx).1, h.idle,
    dequeuePushableDlTask_next h.pushable fun x hx => .inr (h.next x hx)⟩

theorem Kept.not_pushable (hoff : q.onDlRq id = false) : q.isPushable id = false := by
  rw [← Bool.not_eq_true]
  intro hin
  obtain ⟨x, hx, hid⟩ := mem_map.1 (isPushable_iff.1 hin)
  have hroot := onDlRq_iff.2 (mem_map.2 ⟨x, h.sub x hx, hid⟩)
  simp [hroot] at hoff

theorem Kept.enqueueTaskDl (hp : q.onDlRq p.id = false) : (q.enqueueTaskDl cpu ds p current nrCpusAllowed rd).1.Kept := by
  have hkept := h.__enqueueDlEntity hp cpu ds rd
  simp only [DlRq.enqueueTaskDl]
  split
  · refine hkept.enqueuePushableDlTask ?_ ?_
    · rw [DlRq.__enqueueDlEntity, incDlDeadline_fst]
      exact CTree.mem_add.2 (.inl rfl)
    · rw [DlRq.__enqueueDlEntity, incDlDeadline_fst]
      exact h.not_pushable hp
  · exact hkept

theorem Kept.putPrevTaskDl (hnot : q.isPushable id = false) (ds : Rotations) (nrCpusAllowed : Nat) :
    (q.putPrevTaskDl ds id nrCpusAllowed).Kept := by
  unfold DlRq.putPrevTaskDl
  split
  · next x hx =>
    have hid : x.id = id := by simpa using List.find?_some hx
    split
    · exact h.enqueuePushableDlTask (mem_of_find?_eq_some hx) (hid ▸ hnot)
    · exact h
  · exact h

theorem Kept.dequeue_cases (hon : q.onDlRq id = true) (cpu highestPrio : Nat) (ds : Rotations) (rd : Rd) :
    ((q.root.erase Queued.id ds id).1.items = [] ∧ q.__dequeueDlEntity cpu highestPrio ds id rd =
      ({ q with root := (q.root.erase Queued.id ds id).1, dlNrRunning := 0, curr := 0, next := 0 },
        (rd.cpudlClear cpu).cpupriSet cpu (some (rtPrio highestPrio)))) ∨
    ∃ e R, (q.root.erase Queued.id ds id).1.items = e :: R ∧ q.__dequeueDlEntity cpu highestPrio ds id rd =
      ({ q with root := (q.root.erase Queued.id ds id).1, dlNrRunning := R.length + 1, curr := e.deadline },
        rd.cpudlSet cpu e.deadline) := by
  obtain ⟨L, a, R, hitems, -, hrest, -, hok⟩ := h.root.erase ds (onDlRq_iff.1 hon)
  have hcount : q.dlNrRunning - 1 = (q.root.erase Queued.id ds id).1.items.length := by
    rw [h.count, hitems, hrest]
    simp
  rw [DlRq.__dequeueDlEntity, if_pos hon, decDlDeadline]
  cases hleft : (q.root.erase Queued.id ds id).1.items with
  | nil =>
    rw [hleft] at hcount
    refine .inl ⟨rfl, ?_⟩
    simp only [hcount, length_nil, if_true]
  | cons e R =>
    have hfirst := hok.first
    rw [hleft] at hcount hfirst
    refine .inr ⟨e, R, rfl, ?_⟩
    simp only [hcount, hfirst, length_cons, Nat.add_one_ne_zero, if_false, List.head?_cons]

theorem Kept.__dequeueTaskDl_root (cpu highestPrio : Nat) (ds : Rotations) (id : Nat) (rd : Rd) :
    (q.__dequeueTaskDl cpu highestPrio ds id rd).1.root = (q.root.erase Queued.id ds id).1 := by
  show (q.__dequeueDlEntity cpu highestPrio ds id rd).1.root = _
  cases hon : q.onDlRq id with
  | false =>
    have hnot : id ∉ q.root.items.map Queued.id := fun hmem => by simp [onDlRq_iff.2 hmem] at hon
    rw [DlRq.__dequeueDlEntity, hon, CTree.erase_of_notMem ds hnot]
    rfl
  | true => rcases h.dequeue_cases hon cpu highestPrio ds rd with ⟨-, heq⟩ | ⟨e, R, -, heq⟩ <;> rw [heq]

theorem Kept.__dequeueTaskDl (cpu highestPrio : Nat) (ds : Rotations) (id : Nat) (rd : Rd) :
    (q.__dequeueTaskDl cpu highestPrio ds id rd).1.Kept := by
  simp only [DlRq.__dequeueTaskDl]
  cases hon : q.onDlRq id with
  | false =>
    rw [DlRq.__dequeueDlEntity, hon, if_neg (by simp)]
    exact h.dequeuePushableDlTask ds id
  | true =>
    have hroot := h.root.erase_ok ds id
    have hpush := h.pushable.erase_ok ds id
    have hsub : ∀ x ∈ (q.pushable.erase Queued.id ds id).1.items, x ∈ (q.root.erase Queued.id ds id).1.items := by
      intro x hx
      obtain ⟨hin, hne⟩ := (h.pushable.mem_erase ds id).1 hx
      exact (h.root.mem_erase ds id).2 ⟨h.sub x hin, hne⟩
    rcases h.dequeue_cases hon cpu highestPrio ds rd with ⟨hempty, heq⟩ | ⟨e, R, hne, heq⟩ <;> rw [heq]
    · refine ⟨hroot, hpush, ?_, hsub, fun _ => rfl, dequeuePushableDlTask_next h.pushable fun x hx => .inl ?_⟩
      · show 0 = (q.root.erase Queued.id ds id).1.items.length
        rw [hempty, length_nil]
      · have hin : x ∈ q.pushable.items := mem_of_mem_head? (h.pushable.first ▸ hx)
        by_contra hne
        have hleft := (h.root.mem_erase ds id).2 ⟨h.sub x hin, hne⟩
        rw [hempty] at hleft
        cases hleft
    · refine ⟨hroot, hpush, ?_, hsub, fun hempty => ?_, dequeuePushableDlTask_next h.pushable fun x hx =>
        .inr (h.next x hx)⟩
      · show R.length + 1 = (q.root.erase Queued.id ds id).1.items.length
        rw [hne, length_cons]
      · exact absurd (hne.symm.trans hempty) (cons_ne_nil e R)

end

end DlRq

section

variable {n N : Nat} {T : Rooted.Tree} {s s' : Domain n} {op : Nat × DomainOp n}

theorem CpuRq.kept_act {r : CpuRq n} {cpu : Nat} {op : DomainOp n} (hen : r.enabled op = true) (h : r.dl.Kept) (rd : Rd) :
    (r.act T cpu op rd).1.dl.Kept := by
  cases op with
  | enqueueDl ds p current nrCpusAllowed => exact h.enqueueTaskDl (by simpa [CpuRq.enabled] using hen)
  | dequeueDl ds id => exact h.__dequeueTaskDl cpu r.highestPrio ds id rd
  | setNext ds id => exact h.dequeuePushableDlTask ds id
  | putPrev ds id nrCpusAllowed => exact h.putPrevTaskDl (by simpa [CpuRq.enabled] using hen) ds nrCpusAllowed
  | enqueueRt | dequeueRt | setTask => exact h
  | setRqOnline =>
    unfold CpuRq.act CpuRq.setRqOnline
    dsimp only
    split <;> exact h
  | setRqOffline =>
    unfold CpuRq.act CpuRq.setRqOffline
    dsimp only
    split <;> exact h

theorem Domain.step_eq_some (hstep : Domain.step T N op s = some s') : op.1 < N ∧ (s.rq op.1).enabled op.2 = true ∧
    s'.rq op.1 = ((s.rq op.1).act T op.1 op.2 s.rd).1 ∧ (∀ c ≠ op.1, s'.rq c = s.rq c) ∧
      s'.rd = ((s.rq op.1).act T op.1 op.2 s.rd).2 := by
  obtain ⟨hen, rfl⟩ := Run.of_guard hstep
  exact ⟨hen.1, hen.2, Function.update_self _ _ _, fun c hc => Function.update_of_ne hc _ _, rfl⟩

theorem Domain.kept_step (h : ∀ c, (s.rq c).dl.Kept) (hstep : Domain.step T N op s = some s') :
    ∀ c, (s'.rq c).dl.Kept := by
  obtain ⟨-, hen, hself, hother, -⟩ := Domain.step_eq_some hstep
  intro c
  by_cases hc : c = op.1
  · rw [hc, hself]
    exact CpuRq.kept_act hen (h op.1) s.rd
  · rw [hother c hc]
    exact h c

end

end KernelSched.DlQueue
