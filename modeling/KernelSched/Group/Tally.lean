import KernelSched.Group.Counters
import KernelSched.Lib.Rollup

/-!
# What the counters count

`Counted` is the meaning of the counters of one runqueue, in terms of the tasks and groups of the CPU. A task is counted
at every runqueue that it can be reached from through groups that are on their runqueues (`queuedBelow`); there it is an
idle one if its policy is `SCHED_IDLE` or one of these groups is idle (`idleFrom`). The recursive sums of the source are
these numbers (`tally_eq`), since both are sums over the entities of the runqueue.
-/

namespace KernelSched.Group

open Rooted List GroupRq
open List (map_cons sum_cons)
open Counts (ofTasks ofEntity hNrRunning)

variable (T : Tree)

/-- The groups on the way from `c` up to `g`, without `g`. -/
def between (g c : Nat) : List Nat := (T.path c).takeWhile (· ≠ g)

namespace Rq

/-- The tasks on the runqueue of `g` itself. -/
def tasksOn (s : Rq) (g : Nat) : List Task := s.tasks.filter fun t => decide (t.group = g)

def groupsOn (s : Rq) (g : Nat) : List Nat := (T.children g).filter fun b => (s.cfs b).seOnRq

/-- The task is under `g`, and every group on the way is on its runqueue. -/
def queuedBelow (s : Rq) (g : Nat) (t : Task) : Bool :=
  decide (g ∈ T.path t.group) && (between T g t.group).all fun b => (s.cfs b).seOnRq

/-- The task is `SCHED_IDLE`, or lies under an idle group below `g`. -/
def idleFrom (s : Rq) (g : Nat) (t : Task) : Bool := t.idle || (between T g t.group).any fun b => (s.cfs b).idle

/-- The counters of the runqueue of `g` are right. -/
structure Counted (s : Rq) (g : Nat) : Prop where
  nrRunning : (s.cfs g).counts.nrRunning = (s.tasksOn g).length + (s.groupsOn T g).length
  load : (s.cfs g).counts.load =
    ((s.tasksOn g).map fun t => t.weight).sum + ((s.groupsOn T g).map fun b => (s.cfs b).seWeight).sum
  idleNrRunning : (s.cfs g).counts.idleNrRunning =
    (s.tasksOn g).countP (fun t => t.idle) + (s.groupsOn T g).countP fun b => (s.cfs b).idle
  hNrRunning : (s.cfs g).counts.hNrRunning =
    (s.tasksOn g).length + ((s.groupsOn T g).map fun b => (s.cfs b).counts.hNrRunning).sum
  hNrRunning_eq : (s.cfs g).counts.hNrRunning = s.tasks.countP fun t => s.queuedBelow T g t
  idleHNrRunning : (s.cfs g).counts.idleHNrRunning =
    s.tasks.countP fun t => s.queuedBelow T g t && s.idleFrom T g t

end Rq

/-! ## Ways -/

variable {T} {s : Rq} {b c g x : Nat} {t : Task}

@[simp] theorem between_self : between T g g = [] := by simp [between, T.path_eq_cons]

theorem between_child (hb : b ∈ T.children g) (hc : b ∈ T.path c) : between T g c = between T b c ++ [b] := by
  obtain ⟨-, hb0, hp⟩ := T.mem_children.1 hb
  have hlt := T.parent_lt hb0
  induction c using T.root_induction with
  | zero =>
    obtain rfl : b = 0 := by simpa using hc
    exact absurd rfl hb0
  | step c hc0 ih =>
    by_cases hcb : c = b
    · subst hcb
      have hpath : T.path c = c :: g :: T.above g := by rw [T.path_of_ne hc0, hp, T.path_eq_cons]
      have hcg : c ≠ g := by omega
      simp [between, hpath, hcg]
    · have hup : b ∈ T.path (T.parent c) := ((T.mem_path_iff.1 hc).resolve_left (Ne.symm hcb)).2
      have hcg : c ≠ g := by
        rintro rfl
        have := T.le_of_mem_path hc
        omega
      have hcons : ∀ y, c ≠ y → between T y c = c :: between T y (T.parent c) := by
        intro y hy
        simp [between, T.path_of_ne hc0, hy]
      rw [hcons g hcg, hcons b hcb, ih hup, cons_append]

/-! ## One task -/

/-- What one task adds to the task counters of `g`. -/
def Rq.tally (T : Tree) (s : Rq) (g : Nat) (t : Task) : Counts :=
  if s.queuedBelow T g t then .ofTasks 1 (s.idleFrom T g t).toInt else 0

theorem Rq.tally_of_not_mem (h : g ∉ T.path t.group) : s.tally T g t = 0 := by simp [tally, queuedBelow, h]

theorem GroupRq.passed_zero (q : GroupRq) : q.passed 0 = 0 := by
  unfold passed
  split
  · split <;> rfl
  · rfl

theorem GroupRq.passed_add (q : GroupRq) (d d' : Counts) : q.passed (d + d') = q.passed d + q.passed d' := by
  unfold passed
  split
  · split <;> (ext <;> simp [ofTasks])
  · simp

theorem Rq.tally_child (hb : b ∈ T.children g) (ht : b ∈ T.path t.group) :
    s.tally T g t = (s.cfs b).passed (s.tally T b t) := by
  have hg : g ∈ T.path t.group := by
    obtain ⟨-, hb0, rfl⟩ := T.mem_children.1 hb
    exact T.mem_path_trans (T.parent_mem_path hb0) ht
  have hq : s.queuedBelow T g t = (s.queuedBelow T b t && (s.cfs b).seOnRq) := by
    simp [queuedBelow, between_child hb ht, hg, ht]
  have hi : s.idleFrom T g t = (s.idleFrom T b t || (s.cfs b).idle) := by
    simp [idleFrom, between_child hb ht, Bool.or_assoc]
  rw [tally, hq, hi, tally, GroupRq.passed]
  cases (s.cfs b).seOnRq with
  | false => simp
  | true =>
    cases s.queuedBelow T b t with
    | false => simp
    | true => cases (s.cfs b).idle <;> simp [ofTasks]

/-- What a task adds is passed on from its group upwards. -/
theorem Rq.tally_carried (t : Task) :
    T.Carried (fun b => (s.cfs b).passed) t.group (ofTasks 1 t.idle.toInt) fun g => s.tally T g t where
  own := by simp [tally, queuedBelow, idleFrom]
  off _ := tally_of_not_mem
  step _ _ := tally_child

/-! ## All tasks -/

/-- The two task counters alone -/
def Counts.tasksPart : Counts →+ Counts where
  toFun d := ofTasks d.hNrRunning d.idleHNrRunning
  map_zero' := rfl
  map_add' _ _ := by ext <;> simp [ofTasks]

/-- The two task counters of a runqueue, as sums over its entities. -/
theorem Rq.Lacks.tasks_eq (hl : s.Lacks T [] 0) (g : Nat) :
    ofTasks (s.cfs g).counts.hNrRunning (s.cfs g).counts.idleHNrRunning =
      ((s.tasksOn g).map fun t => ofTasks 1 t.idle.toInt).sum +
        ((T.children g).map fun b => (s.cfs b).passed (s.cfs b).counts).sum := by
  have hsum := congrArg Counts.tasksPart (hl.counts_eq g)
  rw [sums, map_add, map_list_sum, map_list_sum, map_map, map_map] at hsum
  refine hsum.trans (congrArg₂ _ (congrArg sum (map_congr_left fun t _ => ?_)) (congrArg sum (map_congr_left fun b _ => ?_)))
  · show ofTasks t.share.hNrRunning t.share.idleHNrRunning = _
    ext <;> simp [Task.share, ofEntity, ofTasks]
  · show ofTasks (s.cfs b).share.hNrRunning (s.cfs b).share.idleHNrRunning = _
    simp only [GroupRq.share, GroupRq.passed, GroupRq.idleBelow]
    cases (s.cfs b).seOnRq <;> (ext <;> simp [ofEntity, ofTasks])

theorem Rq.Settled.tally_eq (hs : s.Settled T) (g : Nat) :
    ofTasks (s.cfs g).counts.hNrRunning (s.cfs g).counts.idleHNrRunning = (s.tasks.map (s.tally T g)).sum := by
  refine T.rollup (fun b => (s.cfs b).passed) (fun b => passed_zero _) (fun b => passed_add _) hs.sound.group
    (fun t _ => tally_carried t) (f := fun g => ofTasks (s.cfs g).counts.hNrRunning (s.cfs g).counts.idleHNrRunning)
    (fun g => ?_) g
  rw [hs.even.tasks_eq, tasksOn, Ledger.sum_map_filter]
  simp only [decide_eq_true_eq]
  rfl

theorem Rq.sum_tally (l : List Task) : (l.map (s.tally T g)).sum =
    .ofTasks (l.countP fun t => s.queuedBelow T g t) (l.countP fun t => s.queuedBelow T g t && s.idleFrom T g t) := by
  induction l with
  | nil => rfl
  | cons t l ih =>
    rw [map_cons, sum_cons, ih, countP_cons, countP_cons, tally]
    cases s.queuedBelow T g t <;> cases s.idleFrom T g t <;>
      (ext <;> simp [ofTasks, add_comm])

/-! ## The counters of one runqueue -/

theorem Task.sum_share (l : List Task) : (l.map Task.share).sum =
    ⟨l.length, (l.map fun t => t.weight).sum, l.countP (fun t => t.idle), l.length, l.countP fun t => t.idle⟩ := by
  induction l with
  | nil => rfl
  | cons t l ih =>
    rw [map_cons, sum_cons, ih, share]
    cases hi : t.idle <;> (ext <;> simp [ofEntity, ofTasks, hi, add_comm])

theorem GroupRq.sum_share (f : Nat → GroupRq) (l : List Nat) : (l.map fun b => (f b).share).sum =
    ⟨(l.filter fun b => (f b).seOnRq).length, ((l.filter fun b => (f b).seOnRq).map fun b => (f b).seWeight).sum,
      (l.filter fun b => (f b).seOnRq).countP fun b => (f b).idle,
      ((l.filter fun b => (f b).seOnRq).map fun b => (f b).counts.hNrRunning).sum,
      ((l.filter fun b => (f b).seOnRq).map fun b => (f b).idleBelow).sum⟩ := by
  induction l with
  | nil => rfl
  | cons b l ih =>
    rw [map_cons, sum_cons, ih, share]
    cases hon : (f b).seOnRq <;> cases hi : (f b).idle <;>
      (ext <;> simp [ofEntity, ofTasks, hon, hi, add_comm])

theorem Rq.Settled.counted (hs : s.Settled T) (g : Nat) : s.Counted T g := by
  have hsum : (s.cfs g).counts = ((s.tasksOn g).map Task.share).sum + ((T.children g).map fun b => (s.cfs b).share).sum :=
    hs.even.counts_eq g
  rw [Task.sum_share, sum_share] at hsum
  have htally := hs.tally_eq g
  rw [sum_tally] at htally
  exact ⟨congrArg Counts.nrRunning hsum, congrArg Counts.load hsum, congrArg Counts.idleNrRunning hsum,
    congrArg hNrRunning hsum, congrArg hNrRunning htally, congrArg Counts.idleHNrRunning htally⟩

/-! ## Runs -/

/-- After every run, the counters of every runqueue are right, and none was ever below zero. -/
theorem counters_after_run (T : Tree) (ops : List (Env × Op)) (s : Rq) (h : Run.run (Op.step T) ops Rq.boot = some s) :
    (∀ g, s.Counted T g) ∧ s.underflow = false := by
  have hs : s.Settled T := Run.run_invariant (fun _ _ _ => Op.step_settled) Rq.settled_boot h
  exact ⟨hs.counted, hs.sound.exact⟩

/-- A root with the groups 1 and 2, and 3 in group 1. -/
def smallTree : Tree where
  size := 4
  parent := fun g => if g = 3 then 1 else 0
  parent_lt := by
    intro g hg
    split <;> omega

/-- Nothing is throttled, and no average is decayed. -/
def Env.calm : Env where
  short := fun _ => false
  share := fun _ => 1024
  decayed := fun _ => false
  stray := fun _ => false

/-- Runtime runs out in the groups of `l`. -/
def Env.without (l : List Nat) : Env := { Env.calm with short := fun g => l.contains g }

/-- Tasks in the groups 3 and 1, group 1 throttled as it wakes up, made idle and unthrottled, one task gone. -/
def nestedRun : List (Env × Op) :=
  [(.without [1], .enqueue ⟨0, 3, 1024, false⟩), (.calm, .enqueue ⟨1, 1, 1024, true⟩), (.calm, .setIdle 1 1),
    (.calm, .unthrottle 1), (.calm, .dequeue ⟨1, 1, 1024, true⟩)]

theorem counters_after_nestedRun : ∃ s, Run.run (Op.step smallTree) nestedRun Rq.boot = some s ∧
    (s.cfs 0).counts.hNrRunning = 1 ∧ (s.cfs 0).counts.idleHNrRunning = 1 ∧
      (∀ g, s.Counted smallTree g) ∧ s.underflow = false := by
  obtain ⟨s, hs, hh, hi⟩ : ∃ s, Run.run (Op.step smallTree) nestedRun Rq.boot = some s ∧
      (s.cfs 0).counts.hNrRunning = 1 ∧ (s.cfs 0).counts.idleHNrRunning = 1 := Run.run_of_isSome (by decide +kernel)
  exact ⟨s, hs, hh, hi, counters_after_run smallTree nestedRun s hs⟩

end KernelSched.Group
