import KernelSched.CoreSched.Trees
import KernelSched.Lib.RefCount
import KernelSched.Lib.Run

/-!
# Lifetime of cookies

`prctl(PR_SCHED_CORE, ..)` gives tasks a new cookie, or that of another task. A cookie is an object with a reference
count, and each object counts in `sched_core_count`; core scheduling is enabled as long as that is not zero. The last
object is dropped by a work item, since switching off has to sleep.

- `held` are the references that a call in progress has. Taking, exchanging and dropping a cookie each move one reference
  (`Inv.getCookie`, `Inv.updateCookie`, `Inv.putCookie`), so that a call that has dropped what it took leaves one for each
  task that has the cookie.
- A call is one step. The tasks that a pid stands for, the access checks and what `kmalloc` and `put_user` return are
  given with it. The CPUs are all online.
-/

namespace KernelSched.CoreSched

open RefCount Run Function List Option

/-! ## Model -/

/-- The cookies, besides what the tasks and runqueues have. -/
structure Sched where
  rqs : Rqs
  /-- `struct sched_core_cookie` -/
  heap : Heap Nat
  /-- The tasks that are not freed. -/
  alive : List Task
  /-- `sched_core_count` -/
  count : Int
  /-- The work of `sched_core_put` is pending. -/
  pending : Bool
  /-- `sched_core_assert_empty` has warned. -/
  notEmpty : Bool

/-- What an exchange of a cookie reads elsewhere. -/
structure Env where
  prioLess : Task → Task → Bool
  last : Task → Bool

inductive Errno
  | ENODEV
  | EINVAL
  | ESRCH
  | EPERM
  | ENOMEM
  | EFAULT
  deriving DecidableEq

def prSchedCoreGet : Nat := 0

def prSchedCoreCreate : Nat := 1

def prSchedCoreShareTo : Nat := 2

def prSchedCoreShareFrom : Nat := 3

def prSchedCoreMax : Nat := 4

def pidtypePid : Nat := 0

def pidtypePgid : Nat := 2

/-- The arguments of `sched_core_share_pid` and what it finds. -/
structure SharePid where
  cmd : Nat
  pid : Int
  type : Nat
  uaddr : Nat
  current : Task
  smtPresent : Bool
  /-- `find_task_by_vpid` -/
  found : Option Task
  /-- `ptrace_may_access` -/
  mayAccess : Task → Bool
  /-- `kmalloc` -/
  memory : Option Nat
  /-- The threads of the thread group or process group. -/
  members : List Task
  /-- `put_user` succeeds. -/
  putUser : Bool
  env : Env

namespace Sched

variable (core : Nat → Nat) (cpus : List Nat)

/-- `sched_core_assert_empty` -/
def assertEmpty (s : Sched) : Sched := { s with notEmpty := s.notEmpty || cpus.any fun cpu => !(s.rqs.tree cpu).isEmpty }

def setEnabled (enabled : Bool) (s : Sched) : Sched := { s with rqs := { s.rqs with enabled } }

def schedCoreGet (s : Sched) : Sched :=
  -- `__sched_core_enable`
  let s := if s.count ≠ 0 then s else (s.setEnabled true).assertEmpty cpus
  { s with count := s.count + 1 }

def schedCorePut (s : Sched) : Sched :=
  if s.count ≠ 1 then { s with count := s.count - 1 } else { s with pending := true }

/-- `__sched_core_put`, the work -/
def schedCorePutWork (s : Sched) : Sched :=
  let s := { s with pending := false, count := s.count - 1 }
  -- `__sched_core_disable`
  if s.count = 0 then (s.assertEmpty cpus).setEnabled false else s

/-- With the memory that `kmalloc` finds -/
def schedCoreAllocCookie (memory : Option Nat) (s : Sched) : Nat × Sched :=
  match memory with
  | none => (0, s)
  | some ck => (ck, { s with heap := s.heap.alloc ck }.schedCoreGet cpus)

def schedCorePutCookie (cookie : Nat) (s : Sched) : Sched :=
  if cookie = 0 then s
  else
    let t := { s with heap := s.heap.put cookie }
    -- `refcount_dec_and_test`
    if s.heap.count cookie = 1 then t.schedCorePut else t

def schedCoreGetCookie (cookie : Nat) (s : Sched) : Sched :=
  if cookie = 0 then s else { s with heap := s.heap.get cookie }

/-- `sched_core_update_cookie`: the old cookie -/
def schedCoreUpdateCookie (e : Env) (p : Task) (cookie : Nat) (s : Sched) : Nat × Sched :=
  (s.rqs.cookie p, { s with rqs := s.rqs.schedCoreUpdateCookie core e.prioLess (e.last p) p cookie })

def schedCoreCloneCookie (p : Task) (s : Sched) : Nat × Sched := (s.rqs.cookie p, s.schedCoreGetCookie (s.rqs.cookie p))

def schedCoreFork (current p : Task) (s : Sched) : Sched :=
  let s := { s with rqs := { s.rqs with node := update s.rqs.node p false } }
  let r := s.schedCoreCloneCookie current
  { r.2 with rqs := r.2.rqs.setCookie p r.1, alive := p :: s.alive }

def schedCoreFree (p : Task) (s : Sched) : Sched :=
  { s with alive := s.alive.erase p }.schedCorePutCookie (s.rqs.cookie p)

def schedCoreSet (e : Env) (p : Task) (cookie : Nat) (s : Sched) : Sched :=
  let s := s.schedCoreGetCookie cookie
  let r := s.schedCoreUpdateCookie core e p cookie
  r.2.schedCorePutCookie r.1

/-- The end of `sched_core_share_pid` -/
def shareOut (err : Option Errno) (cookie : Nat) (s : Sched) : Option Errno × Sched := (err, s.schedCorePutCookie cookie)

/-- `sched_core_share_pid` from where a cookie is to be given to `task` or to its group -/
def shareWith (a : SharePid) (task : Task) (cookie : Nat) (s : Sched) : Option Errno × Sched :=
  if a.type = pidtypePid then (s.schedCoreSet core a.env task cookie).shareOut none cookie
  else if a.members.any fun p => !a.mayAccess p then s.shareOut (some .EPERM) cookie
  else (a.members.foldl (fun s p => s.schedCoreSet core a.env p cookie) s).shareOut none cookie

/-- The commands of `sched_core_share_pid` for a task that may be accessed -/
def shareCmd (a : SharePid) (task : Task) (s : Sched) : Option Errno × Sched :=
  if a.cmd = prSchedCoreGet then
    if a.type ≠ pidtypePid ∨ a.uaddr % 8 ≠ 0 then s.shareOut (some .EINVAL) 0
    else
      let r := s.schedCoreCloneCookie task
      r.2.shareOut (if a.putUser then none else some .EFAULT) r.1
  else if a.cmd = prSchedCoreCreate then
    let r := s.schedCoreAllocCookie cpus a.memory
    if r.1 = 0 then r.2.shareOut (some .ENOMEM) 0 else r.2.shareWith core a task r.1
  else if a.cmd = prSchedCoreShareTo then
    let r := s.schedCoreCloneCookie a.current
    r.2.shareWith core a task r.1
  else if a.cmd = prSchedCoreShareFrom then
    if a.type ≠ pidtypePid then s.shareOut (some .EINVAL) 0
    else
      let r := s.schedCoreCloneCookie task
      (r.2.schedCoreSet core a.env a.current r.1).shareOut none r.1
  else s.shareOut (some .EINVAL) 0

def schedCoreSharePid (a : SharePid) (s : Sched) : Option Errno × Sched :=
  if !a.smtPresent then (some .ENODEV, s)
  else if pidtypePgid < a.type ∨ prSchedCoreMax ≤ a.cmd ∨ a.pid < 0 ∨ a.cmd ≠ prSchedCoreGet ∧ a.uaddr ≠ 0 then
    (some .EINVAL, s)
  else
    match if a.pid = 0 then some a.current else a.found with
    | none => (some .ESRCH, s)
    | some task => if a.mayAccess task then s.shareCmd core cpus a task else s.shareOut (some .EPERM) 0

end Sched

inductive Op
  | share (a : SharePid)
  | fork (current child : Task)
  | free (p : Task)
  | enqueue (prioLess : Task → Task → Bool) (cpu : Nat) (p : Task)
  | dequeue (save last : Bool) (p : Task)
  | work

/-- What the callers and the allocator promise. -/
def Op.Allowed (cpus : List Nat) (s : Sched) : Op → Prop
  | .share a => a.current ∈ s.alive ∧ (∀ p ∈ a.found, p ∈ s.alive) ∧ (∀ p ∈ a.members, p ∈ s.alive) ∧
      ∀ ck ∈ a.memory, ck ≠ 0 ∧ ck ∉ s.heap.live
  | .fork current child => current ∈ s.alive ∧ child ∉ s.alive
  | .free p => p ∈ s.alive ∧ s.rqs.onRq p = none
  | .enqueue _ cpu p => p ∈ s.alive ∧ s.rqs.onRq p = none ∧ cpu ∈ cpus
  | .dequeue _ _ p => (s.rqs.onRq p).isSome
  | .work => s.pending = true

instance (cpus : List Nat) (s : Sched) (op : Op) : Decidable (op.Allowed cpus s) := by
  cases op <;> unfold Op.Allowed <;> infer_instance

def Op.apply (core : Nat → Nat) (cpus : List Nat) (s : Sched) : Op → Sched
  | .share a => (s.schedCoreSharePid core cpus a).2
  | .fork current child => s.schedCoreFork current child
  | .free p => s.schedCoreFree p
  | .enqueue prioLess cpu p => { s with rqs := s.rqs.enqueueTask core prioLess cpu p }
  | .dequeue save last p => { s with rqs := s.rqs.dequeueTask core save last p }
  | .work => s.schedCorePutWork cpus

def Op.step (core : Nat → Nat) (cpus : List Nat) (op : Op) (s : Sched) : Option Sched :=
  if op.Allowed cpus s then some (op.apply core cpus s) else none

/-! ## The invariant -/

/-- The references to cookies: what a call in progress has, and those of the tasks. -/
def Sched.refs (held : List Nat) (s : Sched) : List Nat := (held ++ s.alive.map s.rqs.cookie).filter (· ≠ 0)

/-- What holds in a call that has the references `held`. -/
structure Inv (held : List Nat) (s : Sched) : Prop where
  trees : Trees s.rqs
  holds : Holds s.heap (s.refs held)
  nodup : s.alive.Nodup
  queued : ∀ {p : Task} {cpu : Nat}, s.rqs.onRq p = some cpu → p ∈ s.alive
  count : s.count = s.heap.live.length + (if s.pending then 1 else 0 : Nat)
  enabled : s.rqs.enabled = true ↔ s.count ≠ 0
  quiet : s.notEmpty = false ∧ s.rqs.warned = false

variable {core : Nat → Nat} {cpus : List Nat} {held : List Nat} {s : Sched} {p q : Task} {c : Nat} {a : SharePid}
  {s' : Sched}

theorem mem_refs : c ∈ s.refs held ↔ c ≠ 0 ∧ (c ∈ held ∨ ∃ p ∈ s.alive, s.rqs.cookie p = c) := by
  simp only [Sched.refs, mem_filter, mem_append, List.mem_map, decide_eq_true_eq]
  exact and_comm

theorem refs_zero : s.refs (0 :: held) = s.refs held := by simp [Sched.refs]

theorem refs_cons (hc : c ≠ 0) : s.refs (c :: held) = c :: s.refs held := by simp [Sched.refs, hc]

/-- A cookie that something refers to is there, and core scheduling is enabled. -/
theorem Inv.live (h : Inv held s) (hc : c ≠ 0) (href : c ∈ held ∨ ∃ p ∈ s.alive, s.rqs.cookie p = c) :
    c ∈ s.heap.live ∧ s.rqs.enabled = true := by
  have hmem : c ∈ s.heap.live := (h.holds.mem c).2 (mem_refs.2 ⟨hc, href⟩)
  refine ⟨hmem, h.enabled.2 ?_⟩
  have hpos := length_pos_of_mem hmem
  have hcount := h.count
  omega

theorem Inv.tree_eq_nil (h : Inv held s) (hlive : s.heap.live = []) (cpu : Nat) : s.rqs.tree cpu = [] := by
  refine eq_nil_iff_forall_not_mem.2 fun p hp => ?_
  obtain ⟨hq, hc⟩ := h.trees.mem.1 hp
  have hmem := (h.live hc (.inr ⟨p, h.queued hq, rfl⟩)).1
  rw [hlive] at hmem
  exact not_mem_nil hmem

theorem Inv.notEmpty (h : Inv held s) (hlive : s.heap.live = []) :
    (s.notEmpty || cpus.any fun cpu => !(s.rqs.tree cpu).isEmpty) = false := by
  rw [h.quiet.1, Bool.false_or, List.any_eq_false]
  intro cpu _
  rw [h.tree_eq_nil hlive cpu]
  exact Bool.false_ne_true

/-! ## Taking, exchanging and dropping a cookie -/

theorem Inv.getCookie (h : Inv held s) (href : c ∈ held ∨ ∃ p ∈ s.alive, s.rqs.cookie p = c) :
    Inv (c :: held) (s.schedCoreGetCookie c) := by
  unfold Sched.schedCoreGetCookie
  split
  · next hc =>
    subst hc
    exact ⟨h.trees, refs_zero ▸ h.holds, h.nodup, h.queued, h.count, h.enabled, h.quiet⟩
  · next hc =>
    have hholds := h.holds.get (mem_refs.2 ⟨hc, href⟩)
    rw [← refs_cons hc] at hholds
    exact ⟨h.trees, hholds, h.nodup, h.queued, h.count, h.enabled, h.quiet⟩

theorem Inv.putCookie (h : Inv (c :: held) s) : Inv held (s.schedCorePutCookie c) := by
  unfold Sched.schedCorePutCookie
  split
  · next hc =>
    subst hc
    exact ⟨h.trees, refs_zero ▸ h.holds, h.nodup, h.queued, h.count, h.enabled, h.quiet⟩
  · next hc =>
    have hrefs := h.holds
    rw [refs_cons hc] at hrefs
    have hlen := hrefs.length_put
    have hcount := h.count
    have hon := h.enabled
    split
    · next hlast =>
      rw [if_pos hlast] at hlen
      unfold Sched.schedCorePut
      dsimp only
      split
      · next hmore =>
        refine ⟨h.trees, hrefs.put, h.nodup, h.queued, ?_, ?_, h.quiet⟩
        · show s.count - 1 = (s.heap.put c).live.length + (if s.pending then 1 else 0 : Nat)
          omega
        · show s.rqs.enabled = true ↔ s.count - 1 ≠ 0
          rw [hon]
          omega
      · next hone =>
        refine ⟨h.trees, hrefs.put, h.nodup, h.queued, ?_, h.enabled, h.quiet⟩
        show s.count = (s.heap.put c).live.length + (1 : Nat)
        split at hcount <;> omega
    · next hmore =>
      rw [if_neg hmore] at hlen
      refine ⟨h.trees, hrefs.put, h.nodup, h.queued, ?_, h.enabled, h.quiet⟩
      show s.count = (s.heap.put c).live.length + (if s.pending then 1 else 0 : Nat)
      rw [← hlen] at hcount
      exact hcount

theorem refs_exchange (hnodup : s.alive.Nodup) (hp : p ∈ s.alive) (halive : s'.alive = s.alive)
    (hcookie : s'.rqs.cookie = update s.rqs.cookie p c) :
    (s.refs (c :: held)).Perm (s'.refs (s.rqs.cookie p :: held)) := by
  have hrest : (s.alive.erase p).map s'.rqs.cookie = (s.alive.erase p).map s.rqs.cookie := by
    refine map_congr_left fun q hq => ?_
    rw [hcookie, update_of_ne]
    rintro rfl
    exact hnodup.not_mem_erase hq
  have hbefore : (s.alive.map s.rqs.cookie).Perm (s.rqs.cookie p :: (s.alive.erase p).map s.rqs.cookie) :=
    (perm_cons_erase hp).map s.rqs.cookie
  have hafter : (s.alive.map s'.rqs.cookie).Perm (c :: (s.alive.erase p).map s.rqs.cookie) := by
    have hself : s'.rqs.cookie p = c := by rw [hcookie, update_self]
    have hperm := (perm_cons_erase hp).map s'.rqs.cookie
    rwa [map_cons, hrest, hself] at hperm
  refine List.Perm.filter _ ?_
  rw [halive]
  refine (List.Perm.append_left (c :: held) hbefore).trans (List.Perm.trans ?_ (List.Perm.append_left _ hafter).symm)
  exact (List.Perm.cons _ perm_middle).trans ((List.Perm.swap _ _ _).trans (List.Perm.cons _ perm_middle.symm))

theorem Inv.updateCookie (h : Inv (c :: held) s) (hp : p ∈ s.alive) (e : Env) :
    Inv (s.rqs.cookie p :: held) (s.schedCoreUpdateCookie core e p c).2 := by
  have hframe : SameTasks ((s.rqs.warnDisabled p c).setCookie p c)
      (s.rqs.schedCoreUpdateCookie core e.prioLess (e.last p) p c) := schedCoreUpdateCookie_frame s.rqs
  have hwarned : (s.rqs.warnDisabled p c).warned = false := by
    show (s.rqs.warned || ((s.rqs.cookie p ≠ 0 || c ≠ 0) && !s.rqs.enabled)) = false
    rw [h.quiet.2, Bool.false_or, Bool.and_eq_false_iff]
    by_cases hold : s.rqs.cookie p = 0
    · by_cases hnew : c = 0
      · simp [hold, hnew]
      · simp [(h.live hnew (.inl mem_cons_self)).2]
    · simp [(h.live hold (.inr ⟨p, hp, rfl⟩)).2]
  refine ⟨h.trees.schedCoreUpdateCookie, ?_, h.nodup, fun {q cpu} hq => ?_, h.count, ?_, h.quiet.1, ?_⟩
  · exact h.holds.perm (refs_exchange h.nodup hp rfl hframe.cookie)
  · exact h.queued ((congrFun hframe.onRq q).symm.trans hq)
  · show (s.rqs.schedCoreUpdateCookie core e.prioLess (e.last p) p c).enabled = true ↔ s.count ≠ 0
    rw [hframe.enabled]
    exact h.enabled
  · exact hframe.warned.trans hwarned

theorem Inv.set (h : Inv held s) (hc : c ∈ held) (hp : p ∈ s.alive) (e : Env) : Inv held (s.schedCoreSet core e p c) := by
  have hget := h.getCookie (.inl hc)
  have halive : (s.schedCoreGetCookie c).alive = s.alive := by
    unfold Sched.schedCoreGetCookie
    split <;> rfl
  exact (hget.updateCookie (halive ▸ hp) e).putCookie

theorem set_alive (e : Env) : (s.schedCoreSet core e p c).alive = s.alive := by
  unfold Sched.schedCoreSet Sched.schedCorePutCookie Sched.schedCorePut Sched.schedCoreUpdateCookie
    Sched.schedCoreGetCookie
  dsimp only
  repeat' split
  all_goals rfl

/-! ## `sched_core_share_pid` -/

theorem Inv.cloneCookie (h : Inv held s) (hp : p ∈ s.alive) :
    Inv ((s.schedCoreCloneCookie p).1 :: held) (s.schedCoreCloneCookie p).2 := h.getCookie (.inr ⟨p, hp, rfl⟩)

theorem cloneCookie_alive : (s.schedCoreCloneCookie p).2.alive = s.alive := by
  unfold Sched.schedCoreCloneCookie Sched.schedCoreGetCookie
  split <;> rfl

theorem Inv.allocCookie (h : Inv held s) {memory : Option Nat} (hfresh : ∀ ck ∈ memory, ck ≠ 0 ∧ ck ∉ s.heap.live) :
    Inv ((s.schedCoreAllocCookie cpus memory).1 :: held) (s.schedCoreAllocCookie cpus memory).2 := by
  cases memory with
  | none => exact ⟨h.trees, refs_zero ▸ h.holds, h.nodup, h.queued, h.count, h.enabled, h.quiet⟩
  | some ck =>
    obtain ⟨hne, hnew⟩ := hfresh ck rfl
    have hholds := h.holds.alloc hnew
    rw [← refs_cons hne] at hholds
    have hcount := h.count
    have hlen : (s.heap.alloc ck).live.length = s.heap.live.length + 1 := rfl
    unfold Sched.schedCoreAllocCookie Sched.schedCoreGet
    dsimp only
    by_cases hzero : s.count = 0
    · rw [if_neg (not_not.2 hzero)]
      have hlive : s.heap.live = [] := eq_nil_of_length_eq_zero (by omega)
      refine ⟨⟨h.trees.mem, h.trees.nodup, h.trees.node, h.trees.cpu⟩, hholds, h.nodup, h.queued, ?_, ?_,
        h.notEmpty hlive,
        h.quiet.2⟩
      · show s.count + 1 = (s.heap.alloc ck).live.length + (if s.pending then 1 else 0 : Nat)
        omega
      · show true = true ↔ s.count + 1 ≠ 0
        exact ⟨fun _ => by omega, fun _ => rfl⟩
    · rw [if_pos hzero]
      refine ⟨h.trees, hholds, h.nodup, h.queued, ?_, ?_, h.quiet⟩
      · show s.count + 1 = (s.heap.alloc ck).live.length + (if s.pending then 1 else 0 : Nat)
        omega
      · show s.rqs.enabled = true ↔ s.count + 1 ≠ 0
        rw [h.enabled]
        omega

theorem allocCookie_alive (memory : Option Nat) : (s.schedCoreAllocCookie cpus memory).2.alive = s.alive := by
  unfold Sched.schedCoreAllocCookie Sched.schedCoreGet
  cases memory with
  | none => rfl
  | some ck =>
    dsimp only
    split <;> rfl

/-- Every task of a group is given the cookie. -/
theorem Inv.setMembers (e : Env) (hc : c ∈ held) : ∀ {members : List Task} {s : Sched}, Inv held s →
    (∀ p ∈ members, p ∈ s.alive) → Inv held (members.foldl (fun s p => s.schedCoreSet core e p c) s)
  | [], _, h, _ => h
  | p :: members, s, h, hp => by
    rw [foldl_cons]
    refine Inv.setMembers e hc (h.set hc (hp p mem_cons_self) e) fun q hq => ?_
    rw [set_alive]
    exact hp q (mem_cons_of_mem _ hq)

theorem Inv.shareOut (h : Inv (c :: held) s) (err : Option Errno) : Inv held (s.shareOut err c).2 := h.putCookie

theorem Inv.fail (h : Inv held s) (err : Errno) : Inv held (s.shareOut (some err) 0).2 := h

theorem Inv.shareWith (h : Inv (c :: held) s) (hp : p ∈ s.alive) (hmembers : ∀ q ∈ a.members, q ∈ s.alive) :
    Inv held (s.shareWith core a p c).2 := by
  unfold Sched.shareWith
  split
  · exact (h.set mem_cons_self hp a.env).shareOut none
  · split
    · exact h.shareOut _
    · exact (Inv.setMembers a.env mem_cons_self h hmembers).shareOut none

theorem Inv.shareCmd (h : Inv held s) (hp : p ∈ s.alive) (hcurrent : a.current ∈ s.alive)
    (hmembers : ∀ q ∈ a.members, q ∈ s.alive) (hfresh : ∀ ck ∈ a.memory, ck ≠ 0 ∧ ck ∉ s.heap.live) :
    Inv held (s.shareCmd core cpus a p).2 := by
  unfold Sched.shareCmd
  split
  · -- get
    split
    · exact h.fail _
    · exact (h.cloneCookie hp).shareOut _
  split
  · -- create
    have hnew : Inv ((s.schedCoreAllocCookie cpus a.memory).1 :: held) (s.schedCoreAllocCookie cpus a.memory).2 :=
      h.allocCookie hfresh
    dsimp only
    split
    · next hzero =>
      rw [hzero] at hnew
      exact hnew.shareOut _
    · refine hnew.shareWith ?_ ?_ <;> rw [allocCookie_alive] <;> assumption
  split
  · -- share to
    refine (h.cloneCookie hcurrent).shareWith ?_ ?_ <;> rw [cloneCookie_alive] <;> assumption
  split
  · -- share from
    split
    · exact h.fail _
    · refine ((h.cloneCookie hp).set mem_cons_self ?_ a.env).shareOut none
      rw [cloneCookie_alive]
      exact hcurrent
  · exact h.fail _

theorem Inv.sharePid (h : Inv held s) (hcurrent : a.current ∈ s.alive) (hfound : ∀ p ∈ a.found, p ∈ s.alive)
    (hmembers : ∀ q ∈ a.members, q ∈ s.alive) (hfresh : ∀ ck ∈ a.memory, ck ≠ 0 ∧ ck ∉ s.heap.live) :
    Inv held (s.schedCoreSharePid core cpus a).2 := by
  unfold Sched.schedCoreSharePid
  split
  · exact h
  split
  · exact h
  split
  · exact h
  · next task htask =>
    split
    · refine h.shareCmd ?_ hcurrent hmembers hfresh
      split at htask
      · cases htask
        exact hcurrent
      · exact hfound task htask
    · exact h.fail _

/-! ## The other steps -/

theorem cloneCookie_rqs : (s.schedCoreCloneCookie p).2.rqs = s.rqs := by
  unfold Sched.schedCoreCloneCookie Sched.schedCoreGetCookie
  split <;> rfl

theorem refs_fork (hnew : p ∉ s.alive) (halive : s'.alive = p :: s.alive)
    (hcookie : s'.rqs.cookie = update s.rqs.cookie p c) : (s.refs (c :: held)).Perm (s'.refs held) := by
  have hrest : s.alive.map s'.rqs.cookie = s.alive.map s.rqs.cookie := by
    refine map_congr_left fun q hq => ?_
    rw [hcookie, update_of_ne]
    rintro rfl
    exact hnew hq
  refine List.Perm.filter _ ?_
  rw [halive, map_cons, hrest, hcookie, update_self]
  exact perm_middle.symm

section

variable (h : Inv held s)

include h

theorem Inv.fork {current : Task} (hcurrent : current ∈ s.alive) (hnew : p ∉ s.alive) :
    Inv held (s.schedCoreFork current p) := by
  have hq : s.rqs.onRq p = none := by
    cases hq : s.rqs.onRq p with
    | none => rfl
    | some cpu => exact absurd (h.queued hq) hnew
  have hbut := h.trees.but (p := p) (.inl hq)
  have hclear : update s.rqs.node p false = s.rqs.node := by rw [← hbut.clear, update_eq_self]
  have hclone := h.cloneCookie hcurrent
  unfold Sched.schedCoreFork
  rw [hclear]
  have hrqs : (s.schedCoreCloneCookie current).2.rqs = s.rqs := cloneCookie_rqs
  refine ⟨?_, ?_, ?_, ?_, hclone.count, hclone.enabled, hclone.quiet⟩
  · show Trees ((s.schedCoreCloneCookie current).2.rqs.setCookie p (s.schedCoreCloneCookie current).1)
    rw [hrqs]
    exact hbut.setCookie.trees (.inl hq) h.trees.cpu
  · refine hclone.holds.perm (refs_fork ?_ ?_ rfl)
    · rw [cloneCookie_alive]
      exact hnew
    · rw [cloneCookie_alive]
  · exact nodup_cons.2 ⟨hnew, h.nodup⟩
  · intro q cpu hq
    have hmem := hclone.queued hq
    rw [cloneCookie_alive] at hmem
    exact mem_cons_of_mem _ hmem

theorem Inv.free (hp : p ∈ s.alive) (hq : s.rqs.onRq p = none) : Inv held (s.schedCoreFree p) := by
  have hperm : (s.refs held).Perm ({ s with alive := s.alive.erase p }.refs (s.rqs.cookie p :: held)) := by
    refine List.Perm.filter _ ?_
    refine (List.Perm.append_left held ((perm_cons_erase hp).map s.rqs.cookie)).trans ?_
    exact perm_middle
  have hinv : Inv (s.rqs.cookie p :: held) { s with alive := s.alive.erase p } := by
    refine ⟨h.trees, h.holds.perm hperm, h.nodup.erase p, fun {q cpu} hq' => ?_, h.count, h.enabled, h.quiet⟩
    refine (mem_erase_of_ne ?_).2 (h.queued hq')
    rintro rfl
    rw [hq] at hq'
    cases hq'
  exact hinv.putCookie

/-- The work drops the last reference, and switches off if no cookie has come since. -/
theorem Inv.work (hpending : s.pending = true) : Inv held (s.schedCorePutWork cpus) := by
  have hcount := h.count
  rw [hpending, if_pos rfl] at hcount
  unfold Sched.schedCorePutWork
  dsimp only
  split
  · next hzero =>
    have hlive : s.heap.live = [] := eq_nil_of_length_eq_zero (by omega)
    refine ⟨⟨h.trees.mem, h.trees.nodup, h.trees.node, h.trees.cpu⟩, h.holds, h.nodup, h.queued, ?_, ?_, h.notEmpty hlive,
      h.quiet.2⟩
    · show s.count - 1 = s.heap.live.length + (0 : Nat)
      omega
    · show false = true ↔ s.count - 1 ≠ 0
      exact ⟨fun hfalse => (Bool.false_ne_true hfalse).elim, fun hne => absurd hzero hne⟩
  · next hmore =>
    refine ⟨h.trees, h.holds, h.nodup, h.queued, ?_, ?_, h.quiet⟩
    · show s.count - 1 = s.heap.live.length + (0 : Nat)
      omega
    · show s.rqs.enabled = true ↔ s.count - 1 ≠ 0
      rw [h.enabled]
      omega

theorem Inv.enabled_or (hp : p ∈ s.alive) : s.rqs.enabled = true ∨ s.rqs.cookie p = 0 := by
  by_cases hc : s.rqs.cookie p = 0
  · exact .inr hc
  · exact .inl (h.live hc (.inr ⟨p, hp, rfl⟩)).2

theorem Inv.withRqs {r : Rqs} (htrees : Trees r) (hcookie : r.cookie = s.rqs.cookie)
    (hqueued : ∀ {p cpu}, r.onRq p = some cpu → p ∈ s.alive) (henabled : r.enabled = s.rqs.enabled)
    (hwarned : r.warned = s.rqs.warned) : Inv held { s with rqs := r } := by
  refine ⟨htrees, ?_, h.nodup, hqueued, h.count, ?_, h.quiet.1, hwarned.trans h.quiet.2⟩
  · have hrefs : ({ s with rqs := r } : Sched).refs held = s.refs held := by simp only [Sched.refs, hcookie]
    rw [hrefs]
    exact h.holds
  · show r.enabled = true ↔ s.count ≠ 0
    rw [henabled]
    exact h.enabled

theorem Inv.enqueue (hp : p ∈ s.alive) (hq : s.rqs.onRq p = none) (prioLess : Task → Task → Bool)
    (cpu : Nat) : Inv held { s with rqs := s.rqs.enqueueTask core prioLess cpu p } := by
  have hframe : SameTasks ((s.rqs.setTaskCpu p cpu).setOnRq p (some cpu)) (s.rqs.enqueueTask core prioLess cpu p) :=
    enqueueTask_frame s.rqs
  refine h.withRqs (h.trees.enqueueTask hq (h.enabled_or hp)) hframe.cookie (fun {q cpu'} hq' => ?_) hframe.enabled
    hframe.warned
  rw [hframe.onRq] at hq'
  by_cases hqp : q = p
  · exact hqp ▸ hp
  · exact h.queued ((update_of_ne hqp ..).symm.trans hq')

theorem Inv.dequeue (hp : p ∈ s.alive) (save last : Bool) :
    Inv held { s with rqs := s.rqs.dequeueTask core save last p } := by
  have hframe : SameTasks (s.rqs.setOnRq p none) (s.rqs.dequeueTask core save last p) := dequeueTask_frame s.rqs
  refine h.withRqs (h.trees.dequeueTask (h.enabled_or hp)) hframe.cookie (fun {q cpu} hq => ?_)
    hframe.enabled hframe.warned
  rw [hframe.onRq] at hq
  by_cases hqp : q = p
  · exact hqp ▸ hp
  · exact h.queued ((update_of_ne hqp ..).symm.trans hq)

end

theorem Op.step_inv {op : Op} (h : Inv [] s) (hstep : op.step core cpus s = some s') : Inv [] s' := by
  obtain ⟨hallowed, rfl⟩ := of_guard hstep
  cases op with
  | share a =>
    obtain ⟨hcurrent, hfound, hmembers, hfresh⟩ := hallowed
    exact h.sharePid hcurrent hfound hmembers hfresh
  | fork current child => exact h.fork hallowed.1 hallowed.2
  | free p => exact h.free hallowed.1 hallowed.2
  | enqueue prioLess cpu p => exact h.enqueue hallowed.1 hallowed.2.1 prioLess cpu
  | dequeue save last p =>
    obtain ⟨cpu, hq⟩ := isSome_iff_exists.1 hallowed
    exact h.dequeue (h.queued hq) save last
  | work => exact h.work hallowed

/-! ## Every run -/

/-- Before anyone has used core scheduling. -/
structure Boot (s : Sched) : Prop where
  cookie : ∀ p, s.rqs.cookie p = 0
  node : ∀ p, s.rqs.node p = false
  tree : ∀ cpu, s.rqs.tree cpu = []
  cpu : ∀ {p : Task} {cpu : Nat}, s.rqs.onRq p = some cpu → s.rqs.cpu p = cpu
  queued : ∀ {p : Task} {cpu : Nat}, s.rqs.onRq p = some cpu → p ∈ s.alive
  enabled : s.rqs.enabled = false
  live : s.heap.live = []
  nodup : s.alive.Nodup
  count : s.count = 0
  pending : s.pending = false
  quiet : s.notEmpty = false ∧ s.rqs.warned = false

theorem Boot.inv (h : Boot s) : Inv [] s := by
  have hrefs : s.refs [] = [] := by
    refine eq_nil_iff_forall_not_mem.2 fun c hc => ?_
    obtain ⟨hne, hmem | ⟨p, -, rfl⟩⟩ := mem_refs.1 hc
    · exact not_mem_nil hmem
    · exact hne (h.cookie p)
  have hheap : s.heap = ⟨[], s.heap.count⟩ := by rw [← h.live]
  refine ⟨⟨fun {cpu p} => ?_, fun cpu => ?_, fun {p} => ?_, h.cpu⟩, ?_, h.nodup, h.queued, ?_, ?_, h.quiet⟩
  · simp [h.tree, h.cookie]
  · rw [h.tree]
    exact nodup_nil
  · simp [h.node, h.cookie]
  · rw [hrefs, hheap]
    exact Holds.empty _
  · rw [h.count, h.live, h.pending]
    rfl
  · rw [h.enabled, h.count]
    exact ⟨fun hfalse => (Bool.false_ne_true hfalse).elim, fun hne => absurd rfl hne⟩

/-- What is true whenever no call is in progress. -/
structure CookiesRight (s : Sched) : Prop where
  /-- The count of a cookie is the number of tasks that have it. -/
  refs : ∀ c ∈ s.heap.live, s.heap.count c = s.alive.countP fun p => s.rqs.cookie p = c
  /-- A cookie is there as long as a task has it. -/
  live : ∀ c, c ∈ s.heap.live ↔ c ≠ 0 ∧ ∃ p ∈ s.alive, s.rqs.cookie p = c
  count : s.count = s.heap.live.length + (if s.pending then 1 else 0 : Nat)
  tree : ∀ cpu p, p ∈ s.rqs.tree cpu ↔ s.rqs.onRq p = some cpu ∧ s.rqs.cookie p ≠ 0
  nodup : ∀ cpu, (s.rqs.tree cpu).Nodup
  enabled : s.rqs.enabled = true ↔ s.count ≠ 0
  notEmpty : s.notEmpty = false
  warned : s.rqs.warned = false

theorem Inv.right (h : Inv [] s) : CookiesRight s := by
  have hmem : ∀ c, c ∈ s.heap.live ↔ c ≠ 0 ∧ ∃ p ∈ s.alive, s.rqs.cookie p = c := by
    intro c
    rw [h.holds.mem, mem_refs]
    simp
  refine ⟨fun c hc => ?_, hmem, h.count, fun _ _ => h.trees.mem, h.trees.nodup, h.enabled, h.quiet.1, h.quiet.2⟩
  have hne := ((hmem c).1 hc).1
  rw [h.holds.count c hc, Sched.refs, nil_append, count_filter (by simpa using hne), count_eq_countP,
    countP_map]
  congr 1

/-- Along every run the cookies are right. -/
theorem cookies_after_run {ops : List Op} {s₀ s : Sched} (h : Boot s₀) (hrun : run (Op.step core cpus) ops s₀ = some s) :
    CookiesRight s :=
  (run_invariant (fun _ _ _ hinv hstep => Op.step_inv hinv hstep) h.inv hrun).right

/-- Two tasks, the second of them queued. -/
def twoTasks : Sched where
  rqs :=
    { cookie := fun _ => 0
      onRq := fun p => if p = .thread 2 then some 0 else none
      cpu := fun _ => 0
      node := fun _ => false
      tree := fun _ => []
      enabled := false
      taskSeq := fun _ => 0
      forceidleCount := fun _ => 0
      curr := .idle
      resched := fun _ => false
      warned := false }
  heap := ⟨[], fun _ => 0⟩
  alive := [.thread 1, .thread 2]
  count := 0
  pending := false
  notEmpty := false

theorem twoTasks_boot : Boot twoTasks := by
  refine ⟨fun _ => rfl, fun _ => rfl, fun _ => rfl, fun {p cpu} hq => ?_, fun {p cpu} hq => ?_, rfl,
    rfl, by decide, rfl, rfl,
    rfl, rfl⟩
  · simp only [twoTasks] at hq
    split at hq
    · cases hq
      rfl
    · cases hq
  · simp only [twoTasks] at hq
    split at hq
    · next hp => simp [twoTasks, hp]
    · cases hq

/-- The first task gives a new cookie to the second, which exits later. -/
def createAndExit : List Op :=
  [.share
    { cmd := prSchedCoreCreate, pid := 2, type := pidtypePid, uaddr := 0, current := .thread 1, smtPresent := true
      found := some (.thread 2), mayAccess := fun _ => true, memory := some 8, members := [], putUser := true
      env := ⟨fun _ _ => false, fun _ => false⟩ },
   .dequeue false true (.thread 2), .free (.thread 2)]

/-- The second task has the cookie and is in the tree. -/
theorem cookies_after_create : ∃ s, run (Op.step id [0]) (createAndExit.take 1) twoTasks = some s ∧
    s.rqs.tree 0 = [.thread 2] ∧ s.heap.count 8 = 1 ∧ CookiesRight s := by
  obtain ⟨s, hrun, htree, hcount⟩ : ∃ s, run (Op.step id [0]) (createAndExit.take 1) twoTasks = some s ∧
      s.rqs.tree 0 = [.thread 2] ∧ s.heap.count 8 = 1 := run_of_isSome (by decide)
  exact ⟨s, hrun, htree, hcount, cookies_after_run twoTasks_boot hrun⟩

/-- After the exit no cookie is left, while `sched_core_count` is 1 until the work has run. -/
theorem count_not_live : ∃ s, run (Op.step id [0]) createAndExit twoTasks = some s ∧ s.heap.live = [] ∧ s.count = 1 ∧
    s.pending = true := by
  have hs : ((run (Op.step id [0]) createAndExit twoTasks).filter fun s =>
      s.heap.live = [] ∧ s.count = 1 ∧ s.pending = true).isSome = true := by decide
  obtain ⟨s, hs⟩ := isSome_iff_exists.1 hs
  obtain ⟨hrun, hs⟩ := filter_eq_some_iff.1 hs
  exact ⟨s, hrun, of_decide_eq_true hs⟩

end KernelSched.CoreSched
