import KernelSched.Group.Queued
import KernelSched.Group.Tally
import KernelSched.Pelt.Average

/-!
# Estimated utilization

`rq->cfs.avg.util_est.enqueued` adds up `_task_util_est` of the tasks on the CPU. What was added at enqueue is not kept:
`util_est_dequeue` takes the estimate once more, so a queued task must not change its own. The two writers are
`util_est_update`, which comes after the subtraction on every way out of `dequeue_task_fair`, and PELT, which only clears
`UTIL_AVG_UNCHANGED`, a bit that the estimate does not count.

- The runqueues of the groups are those of `Group.Rq`; tasks are told apart by their number. `UTIL_EST` is on.
- The words have their 32 bits, those of a task with the flag in `enqueued`. The sum of the CPU is right as long as the
  estimates add up to a word (`EstRq.Fits`), as they do for millions of tasks with averages of about a thousand.
-/

namespace KernelSched.Pelt

open KernelSched.Group Rooted List

/-! ## Model -/

/-- `struct util_est` of a task -/
structure UtilEst where
  enqueued : BitVec 32
  ewma : BitVec 32
  deriving DecidableEq

def utilAvgUnchanged : BitVec 32 := 0x80000000

def utilEstMargin : BitVec 32 := 1024 / 100

def taskUtilEst (ue : UtilEst) : Nat := max ue.ewma.toNat (ue.enqueued &&& ~~~utilAvgUnchanged).toNat

def cfsSeUtilChange (ue : UtilEst) : UtilEst :=
  if ue.enqueued &&& utilAvgUnchanged = 0 then ue else { ue with enqueued := ue.enqueued &&& ~~~utilAvgUnchanged }

/-- `within_margin`; the `long` differences are cut to an `int`. -/
def withinMargin (value margin : BitVec 32) : Bool := value + margin - 1 < 2 * margin - 1

/-- `fastup` is the feature `UTIL_EST_FASTUP`. -/
def utilEstUpdate (fastup taskSleep : Bool) (capacityOrig taskUtil : Nat) (ue : UtilEst) : UtilEst :=
  if !taskSleep then ue
  else if ue.enqueued &&& utilAvgUnchanged ≠ 0 then ue
  else
    let enqueued := BitVec.ofNat 32 taskUtil
    if fastup ∧ ue.ewma < enqueued then ⟨enqueued ||| utilAvgUnchanged, enqueued⟩
    else
      let lastEwmaDiff := enqueued - ue.ewma
      let lastEnqueuedDiff := ue.enqueued - enqueued
      if withinMargin lastEwmaDiff utilEstMargin then
        if !withinMargin lastEnqueuedDiff utilEstMargin then ⟨enqueued ||| utilAvgUnchanged, ue.ewma⟩ else ue
      else if capacityOrig < taskUtil then ue
      else ⟨enqueued ||| utilAvgUnchanged, (ue.ewma <<< 2 + lastEwmaDiff) >>> 2⟩

structure TaskAvg where
  avg : SchedAvg
  utilEst : UtilEst

/-- `__update_load_avg_se` -/
def TaskAvg.update (x : Sample) (a : TaskAvg) : TaskAvg :=
  let (sa, crossed) := updateLoadSum x.now a.avg x.onRq.toNat x.runnable x.running
  if crossed then ⟨updateLoadAvg sa x.weight, cfsSeUtilChange a.utilEst⟩ else ⟨sa, a.utilEst⟩

/-- A CPU: its runqueues, `util_est.enqueued` of the root, and the averages of all tasks. -/
structure EstRq where
  rq : Rq
  enqueued : BitVec 32
  avg : Nat → TaskAvg

namespace EstRq

variable (T : Tree)

def utilEstEnqueue (p : Nat) (s : EstRq) : EstRq :=
  { s with enqueued := s.enqueued + .ofNat 32 (taskUtilEst (s.avg p).utilEst) }

def utilEstDequeue (p : Nat) (s : EstRq) : EstRq :=
  { s with enqueued := s.enqueued - .ofNat 32 (min s.enqueued.toNat (taskUtilEst (s.avg p).utilEst)) }

def setAvg (p : Nat) (f : TaskAvg → TaskAvg) (s : EstRq) : EstRq :=
  { s with avg := fun q => if q = p then f (s.avg q) else s.avg q }

def updates (xs : List (Nat × Sample)) (s : EstRq) : EstRq := xs.foldl (fun s x => s.setAvg x.1 (·.update x.2)) s

/-- `enqueue_task_fair`; `xs` are the tasks that its loops bring up to date. -/
def enqueueTaskFair (o : Env) (t : Task) (xs : List (Nat × Sample)) (s : EstRq) : EstRq :=
  let s := s.utilEstEnqueue t.id
  { s with rq := s.rq.enqueueTaskFair T o t }.updates xs

/-- `dequeue_task_fair`; the label `dequeue_throttle` is on every way out of its loops. -/
def dequeueTaskFair (fastup : Bool) (o : Env) (t : Task) (taskSleep : Bool) (capacityOrig : Nat)
    (xs : List (Nat × Sample)) (s : EstRq) : EstRq :=
  let s := s.utilEstDequeue t.id
  let s := { s with rq := s.rq.dequeueTaskFair T o t }.updates xs
  s.setAvg t.id fun a => { a with utilEst := utilEstUpdate fastup taskSleep capacityOrig a.avg.utilAvg a.utilEst }

def contribution (s : EstRq) (t : Task) : Nat := taskUtilEst (s.avg t.id).utilEst

def boot (avg : Nat → TaskAvg) : EstRq := ⟨Rq.boot, 0, avg⟩

end EstRq

inductive EstOp
  | enqueue (o : Env) (t : Task) (xs : List (Nat × Sample))
  | dequeue (o : Env) (t : Task) (taskSleep : Bool) (capacityOrig : Nat) (xs : List (Nat × Sample))
  | update (p : Nat) (x : Sample)
  /-- Throttling, unthrottling and all else that is done to groups -/
  | group (o : Env) (op : Op)
  /-- A task that is not queued here gets other averages: on another CPU, while it sleeps, or as it is created. -/
  | elsewhere (p : Nat) (a : TaskAvg)

namespace EstOp

variable (T : Tree) (fastup : Bool)

def enabled (s : EstRq) : EstOp → Prop
  | enqueue _ t _ => (Op.enqueue t).enabled T s.rq
  | dequeue _ t _ _ _ => (Op.dequeue t).enabled T s.rq
  | update _ _ => True
  | group _ op => op.keepsTasks = true ∧ op.enabled T s.rq
  | elsewhere p _ => ∀ t ∈ s.rq.tasks, t.id ≠ p

instance (s : EstRq) : ∀ op, Decidable (enabled T s op)
  | enqueue _ _ _ | dequeue _ _ _ _ _ | update _ _ | group _ _ | elsewhere _ _ => by unfold enabled; infer_instance

def act (s : EstRq) : EstOp → EstRq
  | enqueue o t xs => s.enqueueTaskFair T o t xs
  | dequeue o t taskSleep capacityOrig xs => s.dequeueTaskFair T fastup o t taskSleep capacityOrig xs
  | update p x => s.setAvg p (·.update x)
  | group o op => { s with rq := op.act T o s.rq }
  | elsewhere p a => s.setAvg p fun _ => a

def step (op : EstOp) (s : EstRq) : Option EstRq := if op.enabled T s then some (op.act T fastup s) else none

end EstOp

/-! ## The estimate of one task -/

theorem taskUtilEst_cfsSeUtilChange (ue : UtilEst) : taskUtilEst (cfsSeUtilChange ue) = taskUtilEst ue := by
  unfold cfsSeUtilChange
  split
  · rfl
  · simp only [taskUtilEst, BitVec.and_assoc, BitVec.and_self]

theorem TaskAvg.taskUtilEst_update (x : Sample) (a : TaskAvg) : taskUtilEst
    (a.update x).utilEst = taskUtilEst a.utilEst := by
  unfold TaskAvg.update
  dsimp only
  split
  · exact taskUtilEst_cfsSeUtilChange a.utilEst
  · rfl

namespace EstRq

variable {K : Prop} {T : Tree} {s u : EstRq} {t : Task}

theorem contribution_setAvg (s : EstRq) (p : Nat) (f : TaskAvg → TaskAvg) (t : Task) :
    (s.setAvg p f).contribution t = if t.id = p then taskUtilEst (f (s.avg p)).utilEst else s.contribution t := by
  simp only [contribution, setAvg]
  split
  · next h => rw [h]
  · rfl

theorem contribution_setAvg_of_ne {p : Nat} (h : t.id ≠ p) (f : TaskAvg → TaskAvg) :
    (s.setAvg p f).contribution t = s.contribution t := by rw [contribution_setAvg, if_neg h]

theorem contribution_update (p : Nat) (x : Sample) : (s.setAvg p (·.update x)).contribution = s.contribution := by
  funext t
  rw [contribution_setAvg]
  split
  · next h => rw [TaskAvg.taskUtilEst_update, contribution, h]
  · rfl

theorem contribution_updates (xs : List (Nat × Sample)) (s : EstRq) : (s.updates xs).contribution = s.contribution := by
  induction xs generalizing s with
  | nil => rfl
  | cons x xs ih => exact (ih _).trans (contribution_update x.1 x.2)

theorem updates_rq (xs : List (Nat × Sample)) (s : EstRq) : (s.updates xs).rq = s.rq := by
  induction xs generalizing s with
  | nil => rfl
  | cons x xs ih => exact ih _

theorem updates_enqueued (xs : List (Nat × Sample)) (s : EstRq) : (s.updates xs).enqueued = s.enqueued := by
  induction xs generalizing s with
  | nil => rfl
  | cons x xs ih => exact ih _

/-! ## The sum -/

/-- What the estimates of the queued tasks add up to -/
def total (s : EstRq) : Nat := (s.rq.tasks.map s.contribution).sum

def Fits (s : EstRq) : Prop := s.total < 2 ^ 32

instance (s : EstRq) : Decidable s.Fits := inferInstanceAs (Decidable (_ < _))

/-- Tasks are queued once, and `util_est.enqueued` of the root is the sum of their estimates; `K` if all sums fit. -/
structure Balanced (K : Prop) (s : EstRq) : Prop where
  ids : (s.rq.tasks.map Task.id).Nodup
  sum : K → s.enqueued.toNat = s.total

/-- The tasks that are queued before and after have the same estimates. -/
def Kept (s u : EstRq) : Prop := ∀ t ∈ s.rq.tasks, t ∈ u.rq.tasks → u.contribution t = s.contribution t

theorem Balanced.congr (h : s.Balanced K) (htasks : u.rq.tasks = s.rq.tasks) (hsum : u.enqueued = s.enqueued)
    (hkept : Kept s u) : u.Balanced K := by
  refine ⟨htasks ▸ h.ids, fun hK => ?_⟩
  rw [hsum, h.sum hK, total, total, htasks]
  exact congrArg List.sum (map_congr_left fun t ht => (hkept t ht (htasks ▸ ht)).symm)

theorem enqueueTaskFair_contribution (o : Env) (t : Task) (xs : List (Nat × Sample)) (s : EstRq) :
    (s.enqueueTaskFair T o t xs).contribution = s.contribution := contribution_updates xs _

theorem Balanced.enqueueTaskFair (h : s.Balanced K) (o : Env) (hoff : (Entity.task t).onRq s.rq = false)
    (xs : List (Nat × Sample)) (hfits : K → (s.enqueueTaskFair T o t xs).Fits) :
    (s.enqueueTaskFair T o t xs).Balanced K := by
  have htasks : (s.enqueueTaskFair T o t xs).rq.tasks = t :: s.rq.tasks :=
    (congrArg Rq.tasks (updates_rq xs _)).trans (Rq.enqueueTaskFair_tasks o hoff)
  have hnew : t.id ∉ s.rq.tasks.map Task.id := by
    intro hmem
    obtain ⟨u, hu, hid⟩ := mem_map.1 hmem
    have hon : (Entity.task t).onRq s.rq = true := any_eq_true.2 ⟨u, hu, by simp [hid]⟩
    exact Bool.false_ne_true (hoff.symm.trans hon)
  refine ⟨?_, fun hK => ?_⟩
  · rw [htasks, map_cons]
    exact nodup_cons.2 ⟨hnew, h.ids⟩
  · have htotal : (s.enqueueTaskFair T o t xs).total = s.contribution t + s.enqueued.toNat := by
      rw [total, htasks, enqueueTaskFair_contribution, map_cons, sum_cons, h.sum hK, total]
    have henq : (s.enqueueTaskFair T o t xs).enqueued = s.enqueued + .ofNat 32 (s.contribution t) := updates_enqueued xs _
    have hword := hfits hK
    rw [Fits, htotal] at hword
    rw [henq, htotal, BitVec.toNat_add, BitVec.toNat_ofNat]
    omega

theorem Balanced.id_ne (h : s.Balanced K) (ht : t ∈ s.rq.tasks) {v : Task} (hv : v ∈ s.rq.tasks.erase t) :
    v.id ≠ t.id := by
  have hperm := (perm_cons_erase ht).map Task.id
  have hids := hperm.nodup_iff.1 h.ids
  intro hid
  exact (nodup_cons.1 hids).1 (hid ▸ mem_map_of_mem hv)

variable (fastup : Bool) (o : Env) (taskSleep : Bool) (capacityOrig : Nat) (xs : List (Nat × Sample))

theorem dequeueTaskFair_tasks (t : Task) (s : EstRq) :
    (s.dequeueTaskFair T fastup o t taskSleep capacityOrig xs).rq.tasks = s.rq.tasks.erase t :=
  (congrArg Rq.tasks (updates_rq xs _)).trans (Rq.dequeueTaskFair_tasks o t s.rq)

theorem dequeueTaskFair_contribution (s : EstRq) {v : Task} (hv : v.id ≠ t.id) :
    (s.dequeueTaskFair T fastup o t taskSleep capacityOrig xs).contribution v = s.contribution v := by
  rw [dequeueTaskFair, contribution_setAvg_of_ne hv, contribution_updates]
  rfl

theorem Balanced.dequeueTaskFair (h : s.Balanced K) (ht : t ∈ s.rq.tasks) :
    (s.dequeueTaskFair T fastup o t taskSleep capacityOrig xs).Balanced K := by
  have htasks := dequeueTaskFair_tasks (T := T) fastup o taskSleep capacityOrig xs t s
  have hsum : s.contribution t + ((s.rq.tasks.erase t).map s.contribution).sum = s.total :=
    sum_map_erase s.contribution ht
  have henq : (s.dequeueTaskFair T fastup o t taskSleep capacityOrig xs).enqueued =
      s.enqueued - .ofNat 32 (min s.enqueued.toNat (s.contribution t)) := updates_enqueued xs _
  refine ⟨?_, fun hK => ?_⟩
  · rw [htasks]
    exact h.ids.sublist (erase_sublist.map _)
  · have hothers : (s.rq.tasks.erase t).map (s.dequeueTaskFair T fastup o t taskSleep capacityOrig xs).contribution =
        (s.rq.tasks.erase t).map s.contribution :=
      map_congr_left fun v hv => dequeueTaskFair_contribution fastup o taskSleep capacityOrig xs s (h.id_ne ht hv)
    -- nothing is cut off: the sum has what the task added
    have hle : s.contribution t ≤ s.enqueued.toNat := by
      rw [h.sum hK]
      omega
    have hlt := s.enqueued.isLt
    rw [total, htasks, hothers, henq, Nat.min_eq_right hle, BitVec.toNat_sub, BitVec.toNat_ofNat]
    have := h.sum hK
    omega

end EstRq

namespace EstOp

open EstRq

variable {K : Prop} {T : Tree} {fastup : Bool} {s : EstRq} {op : EstOp}

theorem act_kept (h : s.Balanced K) (hop : op.enabled T s) : Kept s (op.act T fastup s) := by
  intro t ht hafter
  cases op with
  | enqueue o v xs => exact congrFun (enqueueTaskFair_contribution o v xs s) t
  | dequeue o v taskSleep capacityOrig xs =>
    have herase : t ∈ s.rq.tasks.erase v := dequeueTaskFair_tasks (T := T) fastup o taskSleep capacityOrig xs v s ▸ hafter
    exact dequeueTaskFair_contribution fastup o taskSleep capacityOrig xs s (h.id_ne hop herase)
  | update p x => exact congrFun (contribution_update p x) t
  | group o op => rfl
  | elsewhere p a => exact contribution_setAvg_of_ne (hop t ht) fun _ => a

theorem act_balanced (h : s.Balanced K) (hop : op.enabled T s) (hfits : K → (op.act T fastup s).Fits) :
    (op.act T fastup s).Balanced K := by
  have hkept : Kept s (op.act T fastup s) := act_kept h hop
  cases op with
  | enqueue o t xs => exact h.enqueueTaskFair o hop.2.2 xs hfits
  | dequeue o t taskSleep capacityOrig xs => exact h.dequeueTaskFair fastup o taskSleep capacityOrig xs hop
  | update | elsewhere => exact h.congr rfl rfl hkept
  | group o op => exact h.congr (Op.act_tasks o hop.1) rfl hkept

theorem of_step {s' : EstRq} (h : step T fastup op s = some s') : op.enabled T s ∧ s' = op.act T fastup s := by
  unfold step at h
  split at h
  · next hop => exact ⟨hop, (Option.some.inj h).symm⟩
  · cases h

/-- In every run, a task keeps its estimate while it is queued; and if the estimates of the queued tasks always add up
to a word, the root has their sum. -/
theorem util_est_after_run (T : Tree) (fastup : Bool) (avg : Nat → TaskAvg) (ops : List EstOp) :
    Run.Along (step T fastup) (fun op s => ∀ s' ∈ step T fastup op s, Kept s s') ops (boot avg) ∧
      (Run.Along (step T fastup) (fun op s => (op.act T fastup s).Fits) ops (boot avg) →
        ∀ s, Run.run (step T fastup) ops (boot avg) = some s → s.enqueued.toNat = s.total) := by
  have hboot : ∀ K, (boot avg).Balanced K := fun K => ⟨nodup_nil, fun _ => rfl⟩
  have hstep : ∀ (K : Prop) op s s', EstRq.Balanced K s → (K → (act T fastup s op).Fits) → step T fastup op s = some s' →
      s'.Balanced K := by
    intro K op s s' h hfits hs
    obtain ⟨hop, rfl⟩ := of_step hs
    exact act_balanced h hop hfits
  refine ⟨?_, fun hfits s hs => ?_⟩
  · -- tasks are told apart whatever the sum is
    refine (Run.along_of_forall (fun _ _ => trivial) ops (boot avg)).imp_invariant
      (fun op s s' h _ => hstep False op s s' h False.elim) (fun op s h _ s' hs => ?_) (hboot False)
    obtain ⟨hop, rfl⟩ := of_step hs
    exact act_kept h hop
  · exact (Run.along_invariant (fun op s s' h hop => hstep True op s s' h fun _ => hop) (hboot True) hfits hs).sum trivial

/-- Two tasks in the groups 3 and 1, which is throttled as the first one wakes up: a second of running for the one, whose
estimate is changed as it goes to sleep, while the other is still queued. -/
def sleepRun : List EstOp :=
  [.enqueue (.without [1]) ⟨0, 3, 1024, false⟩ [(0, ⟨2 ^ 20, false, 1, false, 1024⟩)],
    .enqueue .calm ⟨1, 1, 1024, false⟩ [],
    .update 0 ⟨2 ^ 30, true, 1, true, 1024⟩, .group .calm (.unthrottle 1),
    .dequeue .calm ⟨0, 3, 1024, false⟩ true 1024 [(0, ⟨2 ^ 30 + 2 ^ 20, true, 1, true, 1024⟩)]]

/-- Averages of new tasks, with estimates from before. -/
def sleepAvg (p : Nat) : TaskAvg := ⟨zeroAvg 0 0, ⟨utilAvgUnchanged ||| BitVec.ofNat 32 (100 * (p + 1)), 50⟩⟩

theorem util_est_after_sleepRun : ∃ s, Run.run (step smallTree true) sleepRun (boot sleepAvg) = some s ∧
    s.enqueued = 200 ∧
    taskUtilEst (s.avg 0).utilEst = 1024 ∧ s.enqueued.toNat = s.total := by
  obtain ⟨s, hs, henq, hest⟩ : ∃ s, Run.run (step smallTree true) sleepRun (boot sleepAvg) = some s ∧ s.enqueued = 200 ∧
      taskUtilEst (s.avg 0).utilEst = 1024 := Run.run_of_isSome (by decide +kernel)
  exact ⟨s, hs, henq, hest, (util_est_after_run smallTree true sleepAvg sleepRun).2 (by decide +kernel) s hs⟩

end EstOp

end KernelSched.Pelt
