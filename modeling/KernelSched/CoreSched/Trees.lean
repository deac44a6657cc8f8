import Mathlib.Data.List.Perm.Basic

/-!
# Cookies of tasks and the trees of queued tasks

With core scheduling, a task has a cookie, and each runqueue has a tree of its queued tasks with a cookie, sorted by it
(`core_tree`). A task gets into the tree and out of it in two ways: when it is enqueued and dequeued, as long as core
scheduling is enabled, and when its cookie is exchanged. `Trees` says that the trees have exactly the queued tasks with a
cookie; each operation keeps it.

- A tree is the list of its tasks in order.
- `core_task_seq` is an exact number here; the source keeps it modulo `2 ^ 32`, and where it is read, that is said.
- The priorities that order tasks with equal cookies, and the number of running tasks, are given with each operation.
-/

namespace KernelSched.CoreSched

open Function List

/-! ## Model -/

inductive Task
  | idle (cpu : Nat)
  | thread (id : Nat)
  deriving DecidableEq

/-- What core scheduling keeps in the tasks and the runqueues. The numbers of `core` are given by CPU to those that share
them. -/
structure Rqs where
  /-- `p->core_cookie` -/
  cookie : Task → Nat
  /-- The runqueue, as long as `p->on_rq` is `TASK_ON_RQ_QUEUED`. -/
  onRq : Task → Option Nat
  /-- `task_cpu` -/
  cpu : Task → Nat
  /-- `sched_core_enqueued` -/
  node : Task → Bool
  /-- `rq->core_tree` -/
  tree : Nat → List Task
  /-- `sched_core_enabled` -/
  enabled : Bool
  /-- `core->core_task_seq` -/
  taskSeq : Nat → Nat
  /-- `core->core_forceidle_count` -/
  forceidleCount : Nat → Nat
  curr : Nat → Task
  /-- `TIF_NEED_RESCHED` of `rq->curr` -/
  resched : Nat → Bool
  /-- The warning in `sched_core_update_cookie`. -/
  warned : Bool

namespace Rqs

/-- `rb_sched_core_less`, with `prio_less` -/
def coreLess (s : Rqs) (prioLess : Task → Task → Bool) (a b : Task) : Bool :=
  if s.cookie a < s.cookie b then true
  else if s.cookie b < s.cookie a then false
  else prioLess b a

/-- `rb_add`: before the first task that is greater -/
def rbAdd (less : Task → Bool) (p : Task) (t : List Task) : List Task :=
  t.takeWhile (fun q => !less q) ++ p :: t.dropWhile (fun q => !less q)

def setCookie (p : Task) (cookie : Nat) (s : Rqs) : Rqs := { s with cookie := update s.cookie p cookie }

def setOnRq (p : Task) (rq : Option Nat) (s : Rqs) : Rqs := { s with onRq := update s.onRq p rq }

def setTaskCpu (p : Task) (cpu : Nat) (s : Rqs) : Rqs := { s with cpu := update s.cpu p cpu }

def reschedCurr (cpu : Nat) (s : Rqs) : Rqs := { s with resched := update s.resched cpu true }

/-- Link a task into a tree, unless it has no cookie. -/
def link (prioLess : Task → Task → Bool) (cpu : Nat) (p : Task) (s : Rqs) : Rqs :=
  if s.cookie p = 0 then s
  else
    { s with
      tree := update s.tree cpu (rbAdd (s.coreLess prioLess p) p (s.tree cpu))
      node := update s.node p true }

def unlink (cpu : Nat) (p : Task) (s : Rqs) : Rqs :=
  if s.node p then
    { s with
      tree := update s.tree cpu ((s.tree cpu).erase p)
      node := update s.node p false }
  else s

variable (core : Nat → Nat)

def bump (cpu : Nat) (s : Rqs) : Rqs :=
  { s with taskSeq := update s.taskSeq (core cpu) (s.taskSeq (core cpu) + 1) }

def schedCoreEnqueue (prioLess : Task → Task → Bool) (cpu : Nat) (p : Task) (s : Rqs) : Rqs :=
  (s.bump core cpu).link prioLess cpu p

/-- The end of `sched_core_dequeue`: an idle CPU that is forced to be idle reschedules when its last task goes. -/
def reschedForced (save last : Bool) (cpu : Nat) (s : Rqs) : Rqs :=
  if !save && last && s.forceidleCount (core cpu) ≠ 0 && s.curr cpu = .idle cpu then s.reschedCurr cpu else s

/-- `sched_core_dequeue`; `last` is `nr_running == 1`, and `save` is `DEQUEUE_SAVE` -/
def schedCoreDequeue (save last : Bool) (cpu : Nat) (p : Task) (s : Rqs) : Rqs :=
  ((s.bump core cpu).unlink cpu p).reschedForced core save last cpu

/-- `enqueue_task` on a CPU, and `p->on_rq` -/
def enqueueTask (prioLess : Task → Task → Bool) (cpu : Nat) (p : Task) (s : Rqs) : Rqs :=
  let s := s.setTaskCpu p cpu
  let s := if s.enabled then s.schedCoreEnqueue core prioLess cpu p else s
  s.setOnRq p (some cpu)

/-- `dequeue_task`, and `p->on_rq` -/
def dequeueTask (save last : Bool) (p : Task) (s : Rqs) : Rqs :=
  let s := if s.enabled then s.schedCoreDequeue core save last (s.cpu p) p else s
  s.setOnRq p none

/-- The warning in `sched_core_update_cookie` -/
def warnDisabled (p : Task) (cookie : Nat) (s : Rqs) : Rqs :=
  { s with warned := s.warned || ((s.cookie p ≠ 0 || cookie ≠ 0) && !s.enabled) }

/-- A task leaves its tree for another cookie. -/
def leaveTree (last : Bool) (p : Task) (s : Rqs) : Rqs :=
  if s.node p then s.schedCoreDequeue core true last (s.cpu p) p else s

/-- A queued task with a cookie goes to its tree. -/
def joinTree (prioLess : Task → Task → Bool) (p : Task) (s : Rqs) : Rqs :=
  if s.cookie p ≠ 0 ∧ (s.onRq p).isSome then s.schedCoreEnqueue core prioLess (s.cpu p) p else s

def reschedTask (p : Task) (s : Rqs) : Rqs := if s.curr (s.cpu p) = p then s.reschedCurr (s.cpu p) else s

/-- What it returns is the cookie before. -/
def schedCoreUpdateCookie (prioLess : Task → Task → Bool) (last : Bool) (p : Task) (cookie : Nat) (s : Rqs) : Rqs :=
  let s := s.warnDisabled p cookie
  let s := s.leaveTree core last p
  let s := s.setCookie p cookie
  let s := s.joinTree core prioLess p
  s.reschedTask p

end Rqs

/-! ## What is in the trees -/

/-- The trees have the queued tasks with a cookie. -/
structure Trees (s : Rqs) : Prop where
  mem : ∀ {cpu : Nat} {p : Task}, p ∈ s.tree cpu ↔ s.onRq p = some cpu ∧ s.cookie p ≠ 0
  nodup : ∀ cpu, (s.tree cpu).Nodup
  node : ∀ {p : Task}, s.node p = true ↔ (∃ cpu, s.onRq p = some cpu) ∧ s.cookie p ≠ 0
  cpu : ∀ {p : Task} {cpu : Nat}, s.onRq p = some cpu → s.cpu p = cpu

/-- The same of all tasks but `p`, which is in no tree. -/
structure TreesBut (p : Task) (s : Rqs) : Prop where
  mem : ∀ {cpu : Nat} {q : Task}, q ≠ p → (q ∈ s.tree cpu ↔ s.onRq q = some cpu ∧ s.cookie q ≠ 0)
  nodup : ∀ cpu, (s.tree cpu).Nodup
  node : ∀ {q : Task}, q ≠ p → (s.node q = true ↔ (∃ cpu, s.onRq q = some cpu) ∧ s.cookie q ≠ 0)
  cpu : ∀ {q : Task} {cpu : Nat}, q ≠ p → s.onRq q = some cpu → s.cpu q = cpu
  out : ∀ cpu, p ∉ s.tree cpu
  clear : s.node p = false

variable {core : Nat → Nat} {prioLess : Task → Task → Bool} {save last : Bool} {cpu cookie : Nat} {p q : Task} {s : Rqs}
  {s' : Rqs}

theorem rbAdd_perm (less : Task → Bool) (p : Task) (t : List Task) : (Rqs.rbAdd less p t).Perm (p :: t) := by
  have hsplit := takeWhile_append_dropWhile (p := fun q => !less q) (l := t)
  exact perm_middle.trans (List.Perm.of_eq (by rw [hsplit]))

section

variable (hp : s.onRq p = none ∨ s.cookie p = 0)

include hp

theorem not_queued_cookie : ¬ (s.onRq p = some cpu ∧ s.cookie p ≠ 0) := by
  rintro ⟨hq, hc⟩
  rcases hp with hp | hp
  · rw [hp] at hq
    cases hq
  · exact hc hp

theorem Trees.but (h : Trees s) : TreesBut p s := by
  have hnot : ∀ {cpu}, ¬ (s.onRq p = some cpu ∧ s.cookie p ≠ 0) := not_queued_cookie hp
  refine ⟨fun _ => h.mem, h.nodup, fun _ => h.node, fun _ => h.cpu, fun cpu hmem => hnot (h.mem.1 hmem), ?_⟩
  rw [Bool.eq_false_iff]
  intro hnode
  obtain ⟨⟨cpu, hq⟩, hc⟩ := h.node.1 hnode
  exact hnot ⟨hq, hc⟩

theorem TreesBut.trees (h : TreesBut p s) (hcpu : ∀ {cpu}, s.onRq p = some cpu → s.cpu p = cpu) : Trees s := by
  have hnot : ∀ {cpu}, ¬ (s.onRq p = some cpu ∧ s.cookie p ≠ 0) := not_queued_cookie hp
  refine ⟨fun {cpu q} => ?_, h.nodup, fun {q} => ?_, fun {q cpu} hq => ?_⟩
  · by_cases hqp : q = p
    · subst hqp
      exact ⟨fun hmem => absurd hmem (h.out cpu), fun hq => absurd hq hnot⟩
    · exact h.mem hqp
  · by_cases hqp : q = p
    · subst hqp
      rw [h.clear]
      exact ⟨fun hfalse => (Bool.false_ne_true hfalse).elim, fun ⟨⟨cpu, hq⟩, hc⟩ => absurd ⟨hq, hc⟩ hnot⟩
    · exact h.node hqp
  · by_cases hqp : q = p
    · subst hqp
      exact hcpu hq
    · exact h.cpu hqp hq

end

/-- Nothing that the trees depend on is different. -/
structure SameTrees (s s' : Rqs) : Prop where
  cookie : s'.cookie = s.cookie
  onRq : s'.onRq = s.onRq
  cpu : s'.cpu = s.cpu
  node : s'.node = s.node
  tree : s'.tree = s.tree

theorem Trees.congr (h : Trees s) (hs : SameTrees s s') : Trees s' := by
  obtain ⟨hcookie, honRq, hcpu, hnode, htree⟩ := hs
  exact ⟨by rw [htree, honRq, hcookie]; exact h.mem, by rw [htree]; exact h.nodup, by rw [hnode, honRq, hcookie]; exact h.node,
    by rw [honRq, hcpu]; exact h.cpu⟩

theorem TreesBut.congr (h : TreesBut p s) (hs : SameTrees s s') : TreesBut p s' := by
  obtain ⟨hcookie, honRq, hcpu, hnode, htree⟩ := hs
  exact ⟨by rw [htree, honRq, hcookie]; exact h.mem, by rw [htree]; exact h.nodup, by rw [hnode, honRq, hcookie]; exact h.node,
    by rw [honRq, hcpu]; exact h.cpu, by rw [htree]; exact h.out, by rw [hnode]; exact h.clear⟩

theorem sameTrees_bump : SameTrees s (s.bump core cpu) := ⟨rfl, rfl, rfl, rfl, rfl⟩

theorem sameTrees_warnDisabled : SameTrees s (s.warnDisabled p cookie) := ⟨rfl, rfl, rfl, rfl, rfl⟩

theorem sameTrees_reschedForced : SameTrees s (s.reschedForced core save last cpu) := by
  unfold Rqs.reschedForced
  split <;> exact ⟨rfl, rfl, rfl, rfl, rfl⟩

/-! ### Changes of the one task -/

theorem TreesBut.setCookie (h : TreesBut p s) : TreesBut p (s.setCookie p cookie) := by
  refine ⟨fun {cpu q} hqp => ?_, h.nodup, fun {q} hqp => ?_, h.cpu, h.out, h.clear⟩
  · rw [show (s.setCookie p cookie).cookie q = s.cookie q from update_of_ne hqp ..]
    exact h.mem hqp
  · rw [show (s.setCookie p cookie).cookie q = s.cookie q from update_of_ne hqp ..]
    exact h.node hqp

theorem TreesBut.setOnRq (h : TreesBut p s) {rq : Option Nat} : TreesBut p (s.setOnRq p rq) := by
  have hother : ∀ {q}, q ≠ p → (s.setOnRq p rq).onRq q = s.onRq q := fun hqp => update_of_ne hqp ..
  refine ⟨fun {cpu q} hqp => ?_, h.nodup, fun {q} hqp => ?_, fun {q cpu} hqp hq => ?_, h.out, h.clear⟩
  · rw [hother hqp]
    exact h.mem hqp
  · rw [hother hqp]
    exact h.node hqp
  · rw [hother hqp] at hq
    exact h.cpu hqp hq

theorem TreesBut.setTaskCpu (h : TreesBut p s) : TreesBut p (s.setTaskCpu p cpu) := by
  refine ⟨h.mem, h.nodup, h.node, fun {q cpu'} hqp hq => ?_, h.out, h.clear⟩
  rw [show (s.setTaskCpu p cpu).cpu q = s.cpu q from update_of_ne hqp ..]
  exact h.cpu hqp hq

/-! ### Linking -/

theorem Trees.but_of_no_node (h : Trees s) (hnode : ¬ s.node p = true) : TreesBut p s := by
  rw [h.node, not_and, not_not] at hnode
  cases hq : s.onRq p with
  | none => exact h.but (.inl hq)
  | some cpu => exact h.but (.inr (hnode ⟨cpu, hq⟩))

theorem Trees.but_unlink (h : Trees s) : TreesBut p (s.unlink (s.cpu p) p) := by
  unfold Rqs.unlink
  split
  · next hnode =>
    obtain ⟨⟨cpu, hq⟩, hc⟩ := h.node.1 hnode
    rw [h.cpu hq]
    refine ⟨fun {cpu' q} hqp => ?_, fun cpu' => ?_, fun {q} hqp => ?_, fun _ hq => h.cpu hq, fun cpu' => ?_, ?_⟩
    · refine (forall_update_iff s.tree fun c t => q ∈ t ↔ s.onRq q = some c ∧ s.cookie q ≠ 0).2
        ⟨?_, fun _ _ => h.mem⟩ cpu'
      rw [mem_erase_of_ne hqp]
      exact h.mem
    · exact (forall_update_iff s.tree fun _ t => t.Nodup).2 ⟨(h.nodup cpu).erase p, fun c _ => h.nodup c⟩ cpu'
    · show update s.node p false q = true ↔ _
      rw [update_of_ne hqp]
      exact h.node
    · refine (forall_update_iff s.tree fun _ t => p ∉ t).2 ⟨(h.nodup cpu).not_mem_erase, fun c hcpu => ?_⟩ cpu'
      rw [h.mem, hq]
      exact fun hmem => hcpu (Option.some.inj hmem.1).symm
    · exact update_self ..
  · next hnode => exact h.but_of_no_node hnode

theorem TreesBut.link (h : TreesBut p s) (hq : s.onRq p = some cpu) (hcpu : s.cpu p = cpu) :
    Trees (s.link prioLess cpu p) := by
  have hperm := rbAdd_perm (s.coreLess prioLess p) p (s.tree cpu)
  unfold Rqs.link
  split
  · next hc => exact h.trees (.inr hc) fun hq' => hcpu.trans (Option.some.inj (hq.symm.trans hq'))
  next hc =>
  refine ⟨fun {cpu' q} => ?_, fun cpu' => ?_, fun {q} => ?_, fun {q cpu'} hq' => ?_⟩
  · show q ∈ update s.tree cpu (Rqs.rbAdd (s.coreLess prioLess p) p (s.tree cpu)) cpu' ↔
      s.onRq q = some cpu' ∧ s.cookie q ≠ 0
    by_cases hqp : q = p
    · subst hqp
      by_cases hcpu' : cpu' = cpu
      · rw [hcpu', update_self, hperm.mem_iff]
        exact ⟨fun _ => ⟨hq, hc⟩, fun _ => mem_cons_self⟩
      · rw [update_of_ne hcpu', hq]
        exact ⟨fun hmem => absurd hmem (h.out cpu'), fun hmem => absurd (Option.some.inj hmem.1).symm hcpu'⟩
    · rw [← h.mem hqp]
      by_cases hcpu' : cpu' = cpu
      · rw [hcpu', update_self, hperm.mem_iff, mem_cons]
        exact or_iff_right hqp
      · rw [update_of_ne hcpu']
  · refine (forall_update_iff s.tree fun _ t => t.Nodup).2 ⟨?_, fun c _ => h.nodup c⟩ cpu'
    rw [hperm.nodup_iff, nodup_cons]
    exact ⟨h.out cpu, h.nodup cpu⟩
  · show update s.node p true q = true ↔ (∃ cpu, s.onRq q = some cpu) ∧ s.cookie q ≠ 0
    by_cases hqp : q = p
    · subst hqp
      rw [update_self]
      exact ⟨fun _ => ⟨⟨cpu, hq⟩, hc⟩, fun _ => rfl⟩
    · rw [update_of_ne hqp]
      exact h.node hqp
  · by_cases hqp : q = p
    · subst hqp
      exact hcpu.trans (Option.some.inj (hq.symm.trans hq'))
    · exact h.cpu hqp hq'

/-! ## The operations -/

theorem Trees.schedCoreDequeue (h : Trees s) : TreesBut p (s.schedCoreDequeue core save last (s.cpu p) p) :=
  (Trees.but_unlink (h.congr sameTrees_bump)).congr sameTrees_reschedForced

theorem Trees.dequeueTask (h : Trees s) (he : s.enabled = true ∨ s.cookie p = 0) :
    Trees (s.dequeueTask core save last p) := by
  have hbut : TreesBut p (if s.enabled then s.schedCoreDequeue core save last (s.cpu p) p else s) := by
    split
    · exact h.schedCoreDequeue
    · next hoff => exact h.but (.inr (he.resolve_left hoff))
  have hnone : (s.dequeueTask core save last p).onRq p = none := update_self ..
  refine hbut.setOnRq.trees (.inl hnone) fun {cpu} hq => ?_
  exact absurd (hnone.symm.trans hq) (Option.some_ne_none cpu).symm

theorem link_setOnRq {rq : Option Nat} : (s.link prioLess cpu p).setOnRq p rq = (s.setOnRq p rq).link prioLess cpu p := by
  unfold Rqs.link
  by_cases hc : s.cookie p = 0
  · rw [if_pos hc, if_pos (show (s.setOnRq p rq).cookie p = 0 from hc)]
  · rw [if_neg hc, if_neg (show ¬ (s.setOnRq p rq).cookie p = 0 from hc)]
    rfl

theorem Trees.enqueueTask (h : Trees s) (hq : s.onRq p = none) (he : s.enabled = true ∨ s.cookie p = 0) :
    Trees (s.enqueueTask core prioLess cpu p) := by
  have hbut : TreesBut p (s.setTaskCpu p cpu) := (h.but (.inl hq)).setTaskCpu
  have hcpu : (s.setTaskCpu p cpu).cpu p = cpu := update_self ..
  unfold Rqs.enqueueTask
  dsimp only
  by_cases hon : s.enabled = true
  · rw [if_pos (show (s.setTaskCpu p cpu).enabled = true from hon), Rqs.schedCoreEnqueue, link_setOnRq]
    exact ((hbut.congr sameTrees_bump).setOnRq).link (update_self ..) hcpu
  · rw [if_neg (show ¬ (s.setTaskCpu p cpu).enabled = true from hon)]
    refine hbut.setOnRq.trees (.inr (he.resolve_left hon)) fun {cpu'} hq' => ?_
    have hself : ((s.setTaskCpu p cpu).setOnRq p (some cpu)).onRq p = some cpu := update_self ..
    exact hcpu.trans (Option.some.inj (hself.symm.trans hq'))

structure SameTasks (s s' : Rqs) : Prop where
  cookie : s'.cookie = s.cookie
  onRq : s'.onRq = s.onRq
  cpu : s'.cpu = s.cpu
  curr : s'.curr = s.curr
  enabled : s'.enabled = s.enabled
  warned : s'.warned = s.warned
  forceidleCount : s'.forceidleCount = s.forceidleCount

theorem SameTasks.trans {s'' : Rqs} (h : SameTasks s s') (h' : SameTasks s' s'') : SameTasks s s'' :=
  ⟨h'.cookie.trans h.cookie, h'.onRq.trans h.onRq, h'.cpu.trans h.cpu, h'.curr.trans h.curr, h'.enabled.trans h.enabled,
    h'.warned.trans h.warned, h'.forceidleCount.trans h.forceidleCount⟩

theorem sameTasks_link : SameTasks s (s.link prioLess cpu p) := by
  unfold Rqs.link
  split <;> exact ⟨rfl, rfl, rfl, rfl, rfl, rfl, rfl⟩

theorem sameTasks_schedCoreEnqueue : SameTasks s (s.schedCoreEnqueue core prioLess cpu p) := by
  have hbump : SameTasks s (s.bump core cpu) := ⟨rfl, rfl, rfl, rfl, rfl, rfl, rfl⟩
  exact hbump.trans sameTasks_link

theorem sameTasks_schedCoreDequeue : SameTasks s (s.schedCoreDequeue core save last cpu p) := by
  have hunlink : SameTasks s ((s.bump core cpu).unlink cpu p) := by
    unfold Rqs.unlink
    split <;> exact ⟨rfl, rfl, rfl, rfl, rfl, rfl, rfl⟩
  refine hunlink.trans ?_
  unfold Rqs.schedCoreDequeue Rqs.reschedForced
  split <;> exact ⟨rfl, rfl, rfl, rfl, rfl, rfl, rfl⟩

theorem SameTasks.setOnRq {rq : Option Nat} (h : SameTasks s s') : SameTasks (s.setOnRq p rq) (s'.setOnRq p rq) :=
  ⟨h.cookie, by simp only [Rqs.setOnRq, h.onRq], h.cpu, h.curr, h.enabled, h.warned, h.forceidleCount⟩

theorem SameTasks.setCookie (h : SameTasks s s') : SameTasks (s.setCookie p cookie) (s'.setCookie p cookie) :=
  ⟨by simp only [Rqs.setCookie, h.cookie], h.onRq, h.cpu, h.curr, h.enabled, h.warned, h.forceidleCount⟩

theorem enqueueTask_frame (r : Rqs) :
    SameTasks ((r.setTaskCpu p cpu).setOnRq p (some cpu)) (r.enqueueTask core prioLess cpu p) := by
  unfold Rqs.enqueueTask
  dsimp only
  split
  · exact sameTasks_schedCoreEnqueue.setOnRq
  · exact ⟨rfl, rfl, rfl, rfl, rfl, rfl, rfl⟩

theorem dequeueTask_frame (r : Rqs) : SameTasks (r.setOnRq p none) (r.dequeueTask core save last p) := by
  unfold Rqs.dequeueTask
  split
  · exact sameTasks_schedCoreDequeue.setOnRq
  · exact ⟨rfl, rfl, rfl, rfl, rfl, rfl, rfl⟩

theorem Trees.leaveTree (h : Trees s) : TreesBut p (s.leaveTree core last p) := by
  unfold Rqs.leaveTree
  split
  · exact h.schedCoreDequeue
  · next hnode => exact h.but_of_no_node hnode

theorem sameTasks_leaveTree : SameTasks s (s.leaveTree core last p) := by
  unfold Rqs.leaveTree
  split
  · exact sameTasks_schedCoreDequeue
  · exact ⟨rfl, rfl, rfl, rfl, rfl, rfl, rfl⟩

theorem TreesBut.joinTree (h : TreesBut p s) (hcpu : ∀ {cpu}, s.onRq p = some cpu → s.cpu p = cpu) :
    Trees (s.joinTree core prioLess p) := by
  unfold Rqs.joinTree
  split
  · next hjoin =>
    obtain ⟨cpu, hq⟩ := Option.isSome_iff_exists.1 hjoin.2
    rw [hcpu hq]
    exact (h.congr sameTrees_bump).link hq (hcpu hq)
  · next hout =>
    refine h.trees ?_ hcpu
    by_cases hc : s.cookie p = 0
    · exact .inr hc
    · exact .inl (Option.not_isSome_iff_eq_none.1 fun hq => hout ⟨hc, hq⟩)

theorem sameTasks_joinTree : SameTasks s (s.joinTree core prioLess p) := by
  unfold Rqs.joinTree
  split
  · exact sameTasks_schedCoreEnqueue
  · exact ⟨rfl, rfl, rfl, rfl, rfl, rfl, rfl⟩

theorem sameTrees_reschedTask : SameTrees s (s.reschedTask p) := by
  unfold Rqs.reschedTask
  split <;> exact ⟨rfl, rfl, rfl, rfl, rfl⟩

theorem sameTasks_reschedTask : SameTasks s (s.reschedTask p) := by
  unfold Rqs.reschedTask
  split <;> exact ⟨rfl, rfl, rfl, rfl, rfl, rfl, rfl⟩

theorem Trees.schedCoreUpdateCookie (h : Trees s) : Trees (s.schedCoreUpdateCookie core prioLess last p cookie) := by
  have hbut : TreesBut p ((s.warnDisabled p cookie).leaveTree core last p) := (h.congr sameTrees_warnDisabled).leaveTree
  have hsame : SameTasks (s.warnDisabled p cookie) ((s.warnDisabled p cookie).leaveTree core last p) :=
    sameTasks_leaveTree
  refine Trees.congr (hbut.setCookie.joinTree fun {cpu} hq => ?_) sameTrees_reschedTask
  have hq : s.onRq p = some cpu := (congrFun hsame.onRq p).symm.trans hq
  exact (congrFun hsame.cpu p).trans (h.cpu hq)

theorem schedCoreUpdateCookie_frame (s : Rqs) : SameTasks ((s.warnDisabled p cookie).setCookie p cookie)
    (s.schedCoreUpdateCookie core prioLess last p cookie) := by
  have hset : SameTasks _ (((s.warnDisabled p cookie).leaveTree core last p).setCookie p cookie) :=
    sameTasks_leaveTree.setCookie
  exact (hset.trans sameTasks_joinTree).trans sameTasks_reschedTask

end KernelSched.CoreSched
