import KernelSched.Group.Throttles
import KernelSched.Group.Counters

/-!
# The tasks on a CPU

Which of the operations change the tasks of the runqueue: `enqueue_task_fair` adds its task and `dequeue_task_fair` takes
it out, whichever runqueue their loops end at, and nothing else touches them.
-/

namespace KernelSched.Group

open Rooted

namespace Rq

variable {T : Tree} {s : Rq}

/-! ## One operation -/

theorem throttleCfsRq_tasks (o : Env) (g : Nat) (s : Rq) : (s.throttleCfsRq T o g).tasks = s.tasks := by
  unfold throttleCfsRq
  split
  · rfl
  · exact (throttleLoop_calm _ _ _ _ _ _).tasks.trans (walk_down_same g).tasks

theorem enqueueEntity_tasks (o : Env) (c : Nat) (e : Entity) (s : Rq) :
    (s.enqueueEntity T o c e).tasks = (s.setOnRq e true).tasks := by
  have hlink : (s.linkEntity o c e).tasks = (s.setOnRq e true).tasks := by
    have hr := (updateCfsGroup_calm (s := s) o c e).tasks
    cases e with
    | task t => exact congrArg (t :: ·) hr
    | group b => exact hr
  have hcheck : ∀ r : Rq, (r.checkEnqueueThrottle T o c).tasks = r.tasks := by
    intro r
    unfold checkEnqueueThrottle
    split
    · rfl
    · exact throttleCfsRq_tasks o c r
  unfold enqueueEntity
  dsimp only
  split
  · split
    · exact (hcheck _).trans hlink
    · exact (hcheck _).trans hlink
  · exact hlink

/-! ## The loops above a task -/

theorem enqueueLoop_group_tasks (o : Env) (i : Int) (cs : List Nat) (b : Nat) (s : Rq) :
    (s.enqueueLoop T o cs (.group b) i).tasks = s.tasks := by
  induction cs generalizing b i s with
  | nil => rfl
  | cons c cs ih =>
    have hstep := enqueueEntity_tasks (T := T) o c (.group b) s
    rw [enqueueLoop]
    split
    · exact (secondLoop_calm _ _ _ _ _ _).tasks
    · dsimp only
      split
      · exact hstep
      · exact (ih _ _ _).trans hstep

/-- The task is put on its runqueue in the first round, so it is queued wherever the loop ends. -/
theorem enqueueTaskFair_tasks (o : Env) {t : Task} (hoff : (Entity.task t).onRq s = false) :
    (s.enqueueTaskFair T o t).tasks = t :: s.tasks := by
  have hstep := enqueueEntity_tasks (T := T) o t.group (.task t) s
  rw [enqueueTaskFair, T.path_eq_cons, enqueueLoop, if_neg (by rw [hoff]; exact Bool.false_ne_true)]
  dsimp only
  split
  · exact hstep
  · exact (enqueueLoop_group_tasks _ _ _ _ _).trans hstep

theorem dequeueLoop_group_tasks (o : Env) (i : Int) (cs : List Nat) (b : Nat) (s : Rq) :
    (s.dequeueLoop o cs (.group b) i).tasks = s.tasks := by
  induction cs generalizing b i s with
  | nil => rfl
  | cons c cs ih =>
    have hstep := dequeueEntity_tasks o c (.group b) s
    rw [dequeueLoop]
    split
    · exact hstep
    · split
      · exact (secondLoop_calm _ _ _ _ _ _).tasks.trans hstep
      · exact (ih _ _ _).trans hstep

theorem dequeueTaskFair_tasks (o : Env) (t : Task) (s : Rq) : (s.dequeueTaskFair T o t).tasks = s.tasks.erase t := by
  have hstep := dequeueEntity_tasks o t.group (.task t) s
  rw [dequeueTaskFair, T.path_eq_cons, dequeueLoop]
  split
  · exact hstep
  · split
    · exact (secondLoop_calm _ _ _ _ _ _).tasks.trans hstep
    · exact (dequeueLoop_group_tasks _ _ _ _ _).trans hstep

/-! ## Groups -/

theorem unthrottleLoop_tasks (o : Env) (h i : Int) (cs : List Nat) (b : Nat) (s : Rq) :
    (s.unthrottleLoop T o h cs b i).tasks = s.tasks := by
  induction cs generalizing b i s with
  | nil => rfl
  | cons c cs ih =>
    have hstep := enqueueEntity_tasks (T := T) o c (.group b) s
    rw [unthrottleLoop]
    split
    · exact (unthrottleRest_calm _ _ _ _ _).tasks
    · dsimp only
      split
      · exact hstep
      · exact (ih _ _ _).trans hstep

theorem unthrottleCfsRq_tasks (o : Env) (g : Nat) (s : Rq) : (s.unthrottleCfsRq T o g).tasks = s.tasks := by
  have hup : ∀ r : Rq, (T.walk (fun _ s => s) (tgUnthrottleUp T o) g r).tasks = r.tasks :=
    fun _ => (walk_up_same o g).tasks
  unfold unthrottleCfsRq
  dsimp only
  split
  · split
    · exact (completeBranch_same _ _).tasks.trans (hup _)
    · exact hup _
  · exact (unthrottleLoop_tasks _ _ _ _ _ _).trans (hup _)

end Rq

namespace Op

variable {T : Tree} {s : Rq}

/-- Only `enqueue` and `dequeue` change the tasks. -/
def keepsTasks : Op → Bool
  | enqueue _ | dequeue _ => false
  | _ => true

theorem act_tasks (o : Env) {op : Op} (h : op.keepsTasks = true) : (op.act T o s).tasks = s.tasks := by
  cases op with
  | enqueue | dequeue => cases h
  | throttle g => exact Rq.throttleCfsRq_tasks o g s
  | unthrottle g => exact Rq.unthrottleCfsRq_tasks o g s
  | setIdle g idle => exact (Rq.schedGroupSetIdle_calm o g idle s).tasks
  | propagate g => exact (Rq.propagate_same _ s).tasks
  | updateBlocked => exact (Rq.updateBlocked_same o s).tasks

end Op

end KernelSched.Group
