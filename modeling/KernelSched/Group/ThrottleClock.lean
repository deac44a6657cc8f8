import KernelSched.Lib.Rooted
import KernelSched.Lib.Run
import KernelSched.Units
import Mathlib.Algebra.Order.Ring.Int

/-!
# Throttling stops the clock

The clock that load averages of a group are kept in stops while the group is in a throttled hierarchy. `throttle_count`
and two time stamps of every `struct cfs_rq` are maintained by walks over the tree of groups, which grows: a new group is
linked below its parent first, so that walks find it, and gets its `throttle_count` later, from `sync_throttle`.

- Times are exact integers. `clock_task` moves by the `delta` of `update_rq_clock`, without interrupts and stolen time.
- `synced` records that `sync_throttle` has run for a group. Before that no task can be in the group, so that it is not
  throttled itself and has no children.
- What `throttle_cfs_rq` and `unthrottle_cfs_rq` do to counters and to the leaf list is in `KernelSched.Group.Rq`.
-/

namespace KernelSched.ThrottleClock

open Rooted List

/-! ## Data -/

/-- The part of `struct cfs_rq` that has to do with throttling. -/
structure CfsRq where
  throttled : Bool
  throttleCount : Int
  throttledClockPelt : Int
  throttledClockPeltTime : Int
  synced : Bool

/-- `struct rq`, with the groups of one CPU. -/
structure Rq where
  tree : Tree
  cfs : Nat → CfsRq
  clockTask : Int
  clockPelt : Int
  lostIdleTime : Int

/-- What `update_rq_clock` finds: the time since the last update, whether the CPU is idle, and its capacities. -/
structure Elapsed where
  delta : Nat
  idle : Bool
  cpuCapacity : Nat
  freqCapacity : Nat

/-- The capacities are at most `SCHED_CAPACITY_SCALE`. -/
def Elapsed.Sane (e : Elapsed) : Prop := e.cpuCapacity ≤ schedCapacityScale ∧ e.freqCapacity ≤ schedCapacityScale

instance (e : Elapsed) : Decidable e.Sane := by unfold Elapsed.Sane; infer_instance

/-! ## Clocks -/

/-- What `cfs_rq_clock_pelt` makes of the time `now` of the runqueue. -/
def CfsRq.clockPelt (now : Int) (q : CfsRq) : Int :=
  if q.throttleCount ≠ 0 then q.throttledClockPelt - q.throttledClockPeltTime else now - q.throttledClockPeltTime

namespace Rq

def rqClockPelt (s : Rq) : Int := s.clockPelt - s.lostIdleTime

/-- `_update_idle_rq_clock_pelt` -/
def syncClockPelt (s : Rq) : Rq := { s with clockPelt := s.clockTask }

def updateRqClockPelt (e : Elapsed) (s : Rq) : Rq :=
  if e.idle then s.syncClockPelt
  else { s with clockPelt := s.clockPelt + capScale (capScale e.delta e.cpuCapacity) e.freqCapacity }

/-- `update_rq_clock_task` -/
def updateRqClock (e : Elapsed) (s : Rq) : Rq := { s with clockTask := s.clockTask + e.delta }.updateRqClockPelt e

/-- `full` is `util_sum >= divider`. -/
def updateIdleRqClockPelt (full : Bool) (s : Rq) : Rq :=
  (if full then { s with lostIdleTime := s.lostIdleTime + (s.clockTask - s.clockPelt) } else s).syncClockPelt

def cfsRqClockPelt (g : Nat) (s : Rq) : Int := (s.cfs g).clockPelt s.rqClockPelt

end Rq

/-! ## Throttling -/

/-- What `tg_throttle_down` does to a runqueue at the time `now`. -/
def CfsRq.throttleDown (now : Int) (q : CfsRq) : CfsRq :=
  { q with
    throttledClockPelt := if q.throttleCount = 0 then now else q.throttledClockPelt
    throttleCount := q.throttleCount + 1 }

/-- What `tg_unthrottle_up` does to a runqueue at the time `now`. -/
def CfsRq.unthrottleUp (now : Int) (q : CfsRq) : CfsRq :=
  { q with
    throttleCount := q.throttleCount - 1
    throttledClockPeltTime :=
      if q.throttleCount - 1 = 0 then q.throttledClockPeltTime + (now - q.throttledClockPelt)
      else q.throttledClockPeltTime }

namespace Rq

def upd (g : Nat) (f : CfsRq → CfsRq) (s : Rq) : Rq := { s with cfs := fun x => if x = g then f (s.cfs x) else s.cfs x }

def tgThrottleDown (g : Nat) (s : Rq) : Rq := s.upd g (CfsRq.throttleDown s.rqClockPelt)

def tgUnthrottleUp (g : Nat) (s : Rq) : Rq := s.upd g (CfsRq.unthrottleUp s.rqClockPelt)

def throttleCfsRq (g : Nat) (s : Rq) : Rq :=
  (s.tree.walk tgThrottleDown (fun _ s => s) g s).upd g fun q => { q with throttled := true }

/-- Updates the clock first -/
def unthrottleCfsRq (e : Elapsed) (g : Nat) (s : Rq) : Rq :=
  let s := (s.upd g fun q => { q with throttled := false }).updateRqClock e
  s.tree.walk (fun _ s => s) tgUnthrottleUp g s

/-- A new group is put into the list of children of `p`. -/
def link (p : Nat) (s : Rq) : Rq :=
  { s with
    tree := s.tree.grow p
    cfs := fun x => if x = s.tree.size then ⟨false, 0, 0, 0, false⟩ else s.cfs x }

/-- `used` is `cfs_bandwidth_used()`. -/
def syncThrottle (used : Bool) (g : Nat) (s : Rq) : Rq :=
  let s :=
    if used then s.upd g fun q =>
      { q with throttleCount := (s.cfs (s.tree.parent g)).throttleCount, throttledClockPelt := s.rqClockPelt }
    else s
  s.upd g fun q => { q with synced := true }

end Rq

/-! ## Runs -/

inductive Op
  | tick (e : Elapsed)
  | idle (full : Bool)
  | throttle (g : Nat)
  | unthrottle (g : Nat) (e : Elapsed)
  | link (p : Nat)
  | sync (g : Nat) (used : Bool)

namespace Op

/-- What the callers see to. As long as a group is throttled, `cfs_bandwidth_used()`. -/
def enabled (s : Rq) : Op → Prop
  | tick e => e.Sane
  | idle _ => True
  | throttle g => g ≠ 0 ∧ g < s.tree.size ∧ (s.cfs g).synced = true ∧ (s.cfs g).throttled = false
  | unthrottle g e => e.Sane ∧ g < s.tree.size ∧ (s.cfs g).synced = true ∧ (s.cfs g).throttled = true
  | link p => p < s.tree.size ∧ (s.cfs p).synced = true
  | sync g used => g < s.tree.size ∧ (s.cfs g).synced = false ∧
      (used = false → ∀ x < s.tree.size, (s.cfs x).throttled = false)

instance (s : Rq) : ∀ op, Decidable (enabled s op)
  | tick _ | idle _ | throttle _ | unthrottle _ _ | link _ | sync _ _ => by unfold enabled; infer_instance

def act (s : Rq) : Op → Rq
  | tick e => s.updateRqClock e
  | idle full => s.updateIdleRqClockPelt full
  | throttle g => s.throttleCfsRq g
  | unthrottle g e => s.unthrottleCfsRq e g
  | link p => s.link p
  | sync g used => s.syncThrottle used g

def step (op : Op) (s : Rq) : Option Rq := if op.enabled s then some (op.act s) else none

end Op

def Rq.boot : Rq where
  tree := ⟨1, fun _ => 0, fun hg => Nat.pos_of_ne_zero hg⟩
  cfs := fun _ => ⟨false, 0, 0, 0, true⟩
  clockTask := 0
  clockPelt := 0
  lostIdleTime := 0

/-! ## What one walk does -/

namespace Rq

variable {s u : Rq} {g x : Nat} {f : CfsRq → CfsRq}

theorem foldl_upd (l : List Nat) (hl : l.Nodup) (s : Rq) : l.foldl (fun s x => s.upd x f) s =
    { s with cfs := fun x => if x ∈ l then f (s.cfs x) else s.cfs x } := by
  induction l generalizing s with
  | nil => simp
  | cons y l ih =>
    obtain ⟨hy, hl⟩ := nodup_cons.1 hl
    rw [foldl_cons, ih hl]
    simp only [upd, Rq.mk.injEq, true_and, and_true]
    funext x
    by_cases hx : x = y
    · subst hx
      simp [hy]
    · simp [hx]

theorem foldl_clock (c : Int → CfsRq → CfsRq) (l : List Nat) (s : Rq) :
    l.foldl (fun s x => s.upd x (c s.rqClockPelt)) s = l.foldl (fun s' x => s'.upd x (c s.rqClockPelt)) s := by
  have aux : ∀ u : Rq, u.rqClockPelt = s.rqClockPelt →
      l.foldl (fun s x => s.upd x (c s.rqClockPelt)) u = l.foldl (fun s' x => s'.upd x (c s.rqClockPelt)) u := by
    induction l with
    | nil => exact fun _ _ => rfl
    | cons y l ih =>
      intro u hu
      rw [foldl_cons, foldl_cons, hu]
      exact ih _ hu
  exact aux s rfl

/-- What a walk under `g` does: `f` to every runqueue there. -/
def under (g : Nat) (f : CfsRq → CfsRq) (s : Rq) : Rq :=
  { s with cfs := fun x => if x < s.tree.size ∧ g ∈ s.tree.path x then f (s.cfs x) else s.cfs x }

theorem foldl_under {l : List Nat} (hl : l.Nodup) (hmem : ∀ x, x ∈ l ↔ x < s.tree.size ∧ g ∈ s.tree.path x)
    (c : Int → CfsRq → CfsRq) : l.foldl (fun s x => s.upd x (c s.rqClockPelt)) s = s.under g (c s.rqClockPelt) := by
  rw [foldl_clock, foldl_upd l hl]
  simp only [under, hmem]

theorem walk_down (hg : g < s.tree.size) :
    s.tree.walk tgThrottleDown (fun _ s => s) g s = s.under g (CfsRq.throttleDown s.rqClockPelt) := by
  rw [Tree.walk, Tree.walkAux_down]
  exact foldl_under (s.tree.preorder_nodup hg (by omega)) (fun x => s.tree.mem_preorder hg (by omega)) _

theorem walk_up (hg : g < s.tree.size) :
    s.tree.walk (fun _ s => s) tgUnthrottleUp g s = s.under g (CfsRq.unthrottleUp s.rqClockPelt) := by
  rw [Tree.walk, Tree.walkAux_up]
  have hperm := s.tree.postorder_perm s.tree.size g
  exact foldl_under (hperm.nodup_iff.2 (s.tree.preorder_nodup hg (by omega)))
    (fun x => hperm.mem_iff.trans (s.tree.mem_preorder hg (by omega))) _

/-! ## The count -/

/-- The throttled groups from `g` upwards. -/
def throttles (s : Rq) (g : Nat) : Nat := s.tree.marks (fun x => (s.cfs x).throttled) g

structure Counted (s : Rq) : Prop where
  count : ∀ g, g < s.tree.size → (s.cfs g).synced = true → (s.cfs g).throttleCount = s.throttles g
  parent : ∀ g, g < s.tree.size → g ≠ 0 → (s.cfs (s.tree.parent g)).synced = true
  fresh : ∀ g, g < s.tree.size → (s.cfs g).synced = false → (s.cfs g).throttled = false
  root : (s.cfs 0).synced = true
  behind : s.clockPelt ≤ s.clockTask

/-- Every count changes as the number of throttled groups does. -/
theorem Counted.shift (h : s.Counted) (ht : u.tree = s.tree) (hs : ∀ x, (u.cfs x).synced = (s.cfs x).synced)
    (hflag : ∀ x, (s.cfs x).synced = false → (u.cfs x).throttled = (s.cfs x).throttled) (hcount : ∀ x, x < s.tree.size →
      (u.cfs x).throttleCount - (s.cfs x).throttleCount = (u.throttles x : Int) - s.throttles x)
    (hb : u.clockPelt ≤ u.clockTask) : u.Counted := by
  refine ⟨fun x hx hsx => ?_, fun x hx hx0 => ?_, fun x hx hsx => ?_, (hs 0).trans h.root, hb⟩
  · rw [ht] at hx
    rw [hs] at hsx
    have := h.count x hx hsx
    have := hcount x hx
    omega
  · rw [ht] at hx ⊢
    rw [hs]
    exact h.parent x hx hx0
  · rw [ht] at hx
    rw [hs] at hsx
    rw [hflag x hsx]
    exact h.fresh x hx hsx

theorem Counted.congr (h : s.Counted) (ht : u.tree = s.tree) (hc : u.cfs = s.cfs) (hb : u.clockPelt ≤ u.clockTask) :
    u.Counted := by
  refine h.shift ht (fun x => by rw [hc]) (fun x _ => by rw [hc]) (fun x _ => ?_) hb
  simp [throttles, ht, hc]

/-- `clock_task` runs ahead, and the clock of the averages does not go back. -/
theorem updateRqClock_spec {e : Elapsed} (he : e.Sane) (hb : s.clockPelt ≤ s.clockTask) :
    (s.updateRqClock e).tree = s.tree ∧ (s.updateRqClock e).cfs = s.cfs ∧
      (s.updateRqClock e).clockPelt ≤ (s.updateRqClock e).clockTask ∧
        s.rqClockPelt ≤ (s.updateRqClock e).rqClockPelt := by
  have hle : capScale (capScale e.delta e.cpuCapacity) e.freqCapacity ≤ e.delta :=
    (capScale_le he.2).trans (capScale_le he.1)
  unfold updateRqClock updateRqClockPelt
  split
  · refine ⟨rfl, rfl, le_refl _, ?_⟩
    simp only [rqClockPelt, syncClockPelt]
    omega
  · refine ⟨rfl, rfl, ?_, ?_⟩ <;> simp only [rqClockPelt] <;> omega

theorem updateIdleRqClockPelt_spec (full : Bool) (hb : s.clockPelt ≤ s.clockTask) :
    (s.updateIdleRqClockPelt full).tree = s.tree ∧ (s.updateIdleRqClockPelt full).cfs = s.cfs ∧
      (s.updateIdleRqClockPelt full).clockPelt ≤ (s.updateIdleRqClockPelt full).clockTask ∧
        s.rqClockPelt ≤ (s.updateIdleRqClockPelt full).rqClockPelt := by
  cases full
  all_goals
    refine ⟨rfl, rfl, le_refl _, ?_⟩
    simp only [rqClockPelt, updateIdleRqClockPelt, syncClockPelt, Bool.false_eq_true, if_false, if_true]
    omega

/-! ### Throttling and unthrottling -/

def sign (on : Bool) : Int := if on then 1 else -1

/-- `u` is `s` with `throttled` of `g` switched, and counted by all groups under it. -/
structure Turned (g : Nat) (on : Bool) (s u : Rq) : Prop where
  tree : u.tree = s.tree
  synced : ∀ x, (u.cfs x).synced = (s.cfs x).synced
  flag : ∀ x, (u.cfs x).throttled = if x = g then on else (s.cfs x).throttled
  count : ∀ x, x < s.tree.size →
    (u.cfs x).throttleCount = (s.cfs x).throttleCount + if g ∈ s.tree.path x then sign on else 0

theorem Turned.throttles {on : Bool} (h : Turned g on s u) (hwas : (s.cfs g).throttled = !on) (x : Nat) :
    (u.throttles x : Int) = s.throttles x + if g ∈ s.tree.path x then sign on else 0 := by
  unfold Rq.throttles
  rw [h.tree]
  cases on with
  | true =>
    rw [s.tree.marks_set (f := fun x => (s.cfs x).throttled) hwas h.flag x]
    split <;> simp [sign]
  | false =>
    have hback : ∀ x, (s.cfs x).throttled = if x = g then true else (u.cfs x).throttled := by
      intro x
      rw [h.flag]
      by_cases hx : x = g
      · simp [hx, hwas]
      · simp [hx]
    rw [s.tree.marks_set (f := fun x => (u.cfs x).throttled) (by simp [h.flag]) hback x]
    split <;> simp [sign]

theorem Counted.turned {on : Bool} (h : s.Counted) (ht : Turned g on s u) (hs : (s.cfs g).synced = true)
    (hwas : (s.cfs g).throttled = !on) (hb : u.clockPelt ≤ u.clockTask) : u.Counted := by
  refine h.shift ht.tree ht.synced (fun x hsx => ?_) (fun x hx => ?_) hb
  · have hxg : x ≠ g := by
      rintro rfl
      rw [hs] at hsx
      cases hsx
    rw [ht.flag, if_neg hxg]
  · rw [ht.count x hx, ht.throttles hwas x]
    omega

theorem throttleCfsRq_cfs (hg : g < s.tree.size) (x : Nat) : (s.throttleCfsRq g).cfs x =
    { (if x < s.tree.size ∧ g ∈ s.tree.path x then (s.cfs x).throttleDown s.rqClockPelt else s.cfs x) with
      throttled := if x = g then true else (s.cfs x).throttled } := by
  rw [throttleCfsRq, walk_down hg]
  simp only [upd, under]
  by_cases hx : x = g
  · simp [hx]
  · simp only [hx, if_false]
    split <;> rfl

theorem throttleCfsRq_turned (hg : g < s.tree.size) : Turned g true s (s.throttleCfsRq g) := by
  refine ⟨by rw [throttleCfsRq, walk_down hg]; rfl, fun x => ?_, fun x => ?_, fun x hx => ?_⟩
    <;> rw [throttleCfsRq_cfs hg]
  · dsimp only
    split <;> rfl
  · simp only [hx, true_and]
    split
    · rfl
    · exact (add_zero _).symm

section

variable {e : Elapsed} (he : e.Sane) (hb : s.clockPelt ≤ s.clockTask) (hg : g < s.tree.size)

include he hb hg

/-- The runqueues once the flag is cleared and the clock is updated. -/
theorem unthrottleCfsRq_cfs (x : Nat) : (s.unthrottleCfsRq e g).cfs x =
      { (if x < s.tree.size ∧ g ∈ s.tree.path x then (s.cfs x).unthrottleUp (s.updateRqClock e).rqClockPelt
        else s.cfs x) with
        throttled := if x = g then false else (s.cfs x).throttled } := by
  obtain ⟨ht, hcfs, -, -⟩ := updateRqClock_spec (s := s.upd g fun q => { q with throttled := false }) he hb
  have hclock : ((s.upd g fun q => { q with throttled := false }).updateRqClock e).rqClockPelt =
      (s.updateRqClock e).rqClockPelt := by
    unfold updateRqClock updateRqClockPelt
    split <;> rfl
  have htree : ((s.upd g fun q => { q with throttled := false }).updateRqClock e).tree = s.tree := ht
  unfold unthrottleCfsRq
  dsimp only
  generalize (s.upd g fun q => { q with throttled := false }).updateRqClock e = r at *
  rw [walk_up (by rw [htree]; exact hg), hclock]
  simp only [under, htree, hcfs, upd]
  by_cases hx : x = g
  · simp only [hx, if_true]
    split <;> rfl
  · simp only [hx, if_false]
    split <;> rfl

theorem unthrottleCfsRq_rest :
    (s.unthrottleCfsRq e g).tree = s.tree ∧ (s.unthrottleCfsRq e g).clockPelt ≤ (s.unthrottleCfsRq e g).clockTask ∧
      (s.unthrottleCfsRq e g).rqClockPelt = (s.updateRqClock e).rqClockPelt := by
  obtain ⟨ht, -, hb', -⟩ := updateRqClock_spec (s := s.upd g fun q => { q with throttled := false }) he hb
  have htree : ((s.upd g fun q => { q with throttled := false }).updateRqClock e).tree = s.tree := ht
  unfold unthrottleCfsRq
  dsimp only
  rw [walk_up (by rw [htree]; exact hg)]
  refine ⟨ht, hb', ?_⟩
  unfold updateRqClock updateRqClockPelt
  split <;> rfl

theorem unthrottleCfsRq_turned : Turned g false s (s.unthrottleCfsRq e g) := by
  refine ⟨(unthrottleCfsRq_rest he hb hg).1, fun x => ?_, fun x => ?_, fun x hx => ?_⟩
    <;> rw [unthrottleCfsRq_cfs he hb hg]
  · dsimp only
    split <;> rfl
  · simp only [hx, true_and]
    split
    · rfl
    · exact (add_zero _).symm

end

/-! ### New groups -/

theorem link_cfs_old (p : Nat) {x : Nat} (hx : x < s.tree.size) : (s.link p).cfs x = s.cfs x := if_neg hx.ne

theorem link_throttles (p : Nat) (hx : x < s.tree.size) : (s.link p).throttles x = s.throttles x := by
  unfold throttles Tree.marks
  rw [show (s.link p).tree = s.tree.grow p from rfl, s.tree.grow_path hx]
  refine countP_congr fun y hy => ?_
  rw [link_cfs_old p ((s.tree.le_of_mem_path hy).trans_lt hx)]

theorem Counted.link {p : Nat} (h : s.Counted) (hp : p < s.tree.size) (hs : (s.cfs p).synced = true) :
    (s.link p).Counted := by
  have hnew : (s.link p).cfs s.tree.size = ⟨false, 0, 0, 0, false⟩ := if_pos rfl
  have hcase : ∀ x, x < (s.link p).tree.size → x < s.tree.size ∨ x = s.tree.size := by
    intro x hx
    have : x < s.tree.size + 1 := hx
    omega
  refine ⟨fun x hx hsx => ?_, fun x hx hx0 => ?_, fun x hx hsx => ?_, ?_, h.behind⟩
  · rcases hcase x hx with hx | rfl
    · rw [link_cfs_old p hx] at hsx ⊢
      rw [link_throttles p hx]
      exact h.count x hx hsx
    · rw [hnew] at hsx
      cases hsx
  · rcases hcase x hx with hx | rfl
    · have hpar : (s.link p).tree.parent x = s.tree.parent x := s.tree.grow_parent hx
      rw [hpar, link_cfs_old p ((s.tree.parent_lt hx0).trans hx)]
      exact h.parent x hx hx0
    · have hpar : (s.link p).tree.parent s.tree.size = p := s.tree.grow_parent_new hp
      rw [hpar, link_cfs_old p hp]
      exact hs
  · rcases hcase x hx with hx | rfl
    · rw [link_cfs_old p hx] at hsx ⊢
      exact h.fresh x hx hsx
    · rw [hnew]
  · rw [link_cfs_old p (by omega)]
    exact h.root

theorem syncThrottle_other (used : Bool) (hx : x ≠ g) : (s.syncThrottle used g).cfs x = s.cfs x := by
  unfold syncThrottle
  cases used <;> simp [upd, hx]

theorem syncThrottle_self (used : Bool) : (s.syncThrottle used g).cfs g = { s.cfs g with
      synced := true
      throttleCount := if used then (s.cfs (s.tree.parent g)).throttleCount else (s.cfs g).throttleCount
      throttledClockPelt := if used then s.rqClockPelt else (s.cfs g).throttledClockPelt } := by
  unfold syncThrottle
  cases used <;> simp [upd]

theorem syncThrottle_rest (used : Bool) : (s.syncThrottle used g).tree = s.tree ∧
    (s.syncThrottle used g).clockPelt = s.clockPelt ∧ (s.syncThrottle used g).clockTask = s.clockTask ∧
      (s.syncThrottle used g).rqClockPelt = s.rqClockPelt := by
  unfold syncThrottle
  cases used <;> exact ⟨rfl, rfl, rfl, rfl⟩

/-- `sync_throttle` sets the count, unless it returns at once; then the count has to be right already. -/
theorem Counted.sync {used : Bool} (h : s.Counted) (hg : g < s.tree.size) (hs : (s.cfs g).synced = false)
    (hnone : used = false → ∀ x < s.tree.size, (s.cfs x).throttled = false)
    (hok : used = false → (s.cfs g).throttleCount = 0) : (s.syncThrottle used g).Counted := by
  obtain ⟨ht, hp, hk, -⟩ := syncThrottle_rest (s := s) (g := g) used
  have hg0 : g ≠ 0 := by
    rintro rfl
    rw [h.root] at hs
    cases hs
  have hflag : ∀ x, ((s.syncThrottle used g).cfs x).throttled = (s.cfs x).throttled := by
    intro x
    by_cases hx : x = g
    · rw [hx, syncThrottle_self]
    · rw [syncThrottle_other used hx]
  have hthrottles : ∀ x, (s.syncThrottle used g).throttles x = s.throttles x := by
    intro x
    simp only [throttles, ht, hflag]
  have hsynced : ∀ x, (s.cfs x).synced = true → ((s.syncThrottle used g).cfs x).synced = true := by
    intro x hx
    by_cases hxg : x = g
    · rw [hxg, syncThrottle_self]
    · rw [syncThrottle_other used hxg]
      exact hx
  refine ⟨fun x hx hsx => ?_, fun x hx hx0 => ?_, fun x hx hsx => ?_, hsynced 0 h.root, by rw [hp, hk]; exact h.behind⟩
  · rw [ht] at hx
    rw [hthrottles]
    by_cases hxg : x = g
    · subst hxg
      rw [syncThrottle_self]
      cases used with
      | true =>
        have hpar := (s.tree.parent_lt hg0).trans hx
        have hmarks : s.throttles x = s.throttles (s.tree.parent x) := by
          rw [throttles, s.tree.marks_of_ne hg0, h.fresh x hx hs]
          rfl
        rw [hmarks]
        exact h.count _ hpar (h.parent x hx hg0)
      | false =>
        have hzero : s.throttles x = 0 := s.tree.marks_eq_zero.2 fun y hy =>
          hnone rfl y ((s.tree.le_of_mem_path hy).trans_lt hx)
        rw [hzero]
        exact hok rfl
    · rw [syncThrottle_other used hxg] at hsx ⊢
      exact h.count x hx hsx
  · rw [ht] at hx ⊢
    exact hsynced _ (h.parent x hx hx0)
  · rw [ht] at hx
    rw [hflag]
    by_cases hxg : x = g
    · rw [hxg, syncThrottle_self] at hsx
      cases hsx
    · rw [syncThrottle_other used hxg] at hsx
      exact h.fresh x hx hsx

/-! ## The clock -/

/-- From `s` to `u`, the clock of `g` does not go back; it stands still if `g` is in a throttled hierarchy, and else runs
with the clock of the runqueue. -/
structure Timed (g : Nat) (s u : Rq) : Prop where
  mono : s.cfsRqClockPelt g ≤ u.cfsRqClockPelt g
  frozen : 0 < (s.cfs g).throttleCount → u.cfsRqClockPelt g = s.cfsRqClockPelt g
  running : (s.cfs g).throttleCount = 0 → u.cfsRqClockPelt g - s.cfsRqClockPelt g = u.rqClockPelt - s.rqClockPelt

theorem Timed.of_eq (hcfs : u.cfs g = s.cfs g) (hclock : s.rqClockPelt ≤ u.rqClockPelt) : Timed g s u := by
  have hs : u.cfsRqClockPelt g = if (s.cfs g).throttleCount ≠ 0 then s.cfsRqClockPelt g else
      s.cfsRqClockPelt g + (u.rqClockPelt - s.rqClockPelt) := by
    unfold cfsRqClockPelt CfsRq.clockPelt
    rw [hcfs]
    split
    · rfl
    · omega
  refine ⟨?_, fun h => ?_, fun h => ?_⟩ <;> rw [hs]
  · split <;> omega
  · rw [if_pos h.ne']
  · rw [if_neg (by simpa using h)]
    omega

/-- The clock of `g` shows the same, at the same time or while it stands still. -/
theorem Timed.of_clock_eq (heq : u.cfsRqClockPelt g = s.cfsRqClockPelt g)
    (h0 : (s.cfs g).throttleCount = 0 → u.rqClockPelt = s.rqClockPelt) : Timed g s u :=
  ⟨heq.ge, fun _ => heq, fun h => by rw [heq, h0 h]; omega⟩

end Rq

theorem CfsRq.clockPelt_throttleDown {q : CfsRq} (now : Int) (h : 0 ≤ q.throttleCount) :
    (q.throttleDown now).clockPelt now = q.clockPelt now := by
  have hne : q.throttleCount + 1 ≠ 0 := by omega
  by_cases h0 : q.throttleCount = 0
  · simp [clockPelt, throttleDown, h0]
  · simp [clockPelt, throttleDown, h0, hne]

theorem CfsRq.clockPelt_unthrottleUp {q : CfsRq} (before now : Int) (h : 0 < q.throttleCount) :
    (q.unthrottleUp now).clockPelt now = q.clockPelt before := by
  by_cases h1 : q.throttleCount - 1 = 0
  · simp only [clockPelt, unthrottleUp, h1, h.ne', ne_eq, not_true, not_false_iff, if_false, if_true]
    omega
  · simp only [clockPelt, unthrottleUp, h1, h.ne', ne_eq, not_false_iff, if_false, if_true]

namespace Rq

variable {s : Rq} {g x : Nat}

theorem throttle_timed (hg : g < s.tree.size) (hcount : 0 ≤ (s.cfs x).throttleCount) : Timed x s (s.throttleCfsRq g) := by
  have hclock : (s.throttleCfsRq g).rqClockPelt = s.rqClockPelt := by
    rw [throttleCfsRq, walk_down hg]
    rfl
  refine .of_clock_eq ?_ fun _ => hclock
  rw [cfsRqClockPelt, hclock, throttleCfsRq_cfs hg]
  split
  · exact CfsRq.clockPelt_throttleDown _ hcount
  · rfl

theorem unthrottle_timed {e : Elapsed} (he : e.Sane) (hb : s.clockPelt ≤ s.clockTask) (hg : g < s.tree.size)
    (hx : x < s.tree.size) (hcount : g ∈ s.tree.path x → 0 < (s.cfs x).throttleCount) :
    Timed x s (s.unthrottleCfsRq e g) := by
  obtain ⟨-, -, hclock⟩ := unthrottleCfsRq_rest he hb hg
  have hcfs := unthrottleCfsRq_cfs he hb hg x
  by_cases hgx : g ∈ s.tree.path x
  · have hpos := hcount hgx
    refine .of_clock_eq ?_ fun h => absurd h hpos.ne'
    rw [cfsRqClockPelt, hclock, hcfs, if_pos ⟨hx, hgx⟩]
    exact CfsRq.clockPelt_unthrottleUp _ _ hpos
  · rw [if_neg fun h => hgx h.2] at hcfs
    have hne : x ≠ g := by
      rintro rfl
      exact hgx s.tree.mem_path_self
    rw [if_neg hne] at hcfs
    refine .of_eq hcfs ?_
    rw [hclock]
    exact (updateRqClock_spec he hb).2.2.2

end Rq

/-! ## Every run -/

/-- When `sync_throttle` returns at once, because no group has a quota any more, no walk has changed the count of the new
group. -/
def Op.Timely (op : Op) (s : Rq) : Prop :=
  match op with
  | .sync g false => (s.cfs g).throttleCount = 0
  | _ => True

instance (s : Rq) (op : Op) : Decidable (op.Timely s) := by
  rcases op with _ | _ | _ | _ | _ | ⟨_, _ | _⟩ <;> unfold Op.Timely <;> infer_instance

variable {s s' : Rq} {op : Op}

theorem Op.step_counted (h : s.Counted) (hok : op.Timely s) (hop : op.step s = some s') : s'.Counted := by
  obtain ⟨hen, rfl⟩ := Run.of_guard hop
  cases op with
  | tick e =>
    obtain ⟨ht, hc, hb, -⟩ := Rq.updateRqClock_spec hen h.behind
    exact h.congr ht hc hb
  | idle full =>
    obtain ⟨ht, hc, hb, -⟩ := Rq.updateIdleRqClockPelt_spec full h.behind
    exact h.congr ht hc hb
  | throttle g =>
    obtain ⟨-, hg, hs, hoff⟩ := hen
    refine h.turned (Rq.throttleCfsRq_turned hg) hs hoff ?_
    show (s.throttleCfsRq g).clockPelt ≤ (s.throttleCfsRq g).clockTask
    rw [Rq.throttleCfsRq, Rq.walk_down hg]
    exact h.behind
  | unthrottle g e =>
    obtain ⟨he, hg, hs, hon⟩ := hen
    exact h.turned (Rq.unthrottleCfsRq_turned he h.behind hg) hs hon (Rq.unthrottleCfsRq_rest he h.behind hg).2.1
  | link p => exact h.link hen.1 hen.2
  | sync g used =>
    refine h.sync hen.1 hen.2.1 hen.2.2 fun hused => ?_
    subst hused
    exact hok

theorem Op.step_timed (h : s.Counted) (hop : op.step s = some s') {x : Nat} (hx : x < s.tree.size)
    (hsx : (s.cfs x).synced = true) : Rq.Timed x s s' := by
  have hcount : 0 ≤ (s.cfs x).throttleCount := by
    rw [h.count x hx hsx]
    omega
  obtain ⟨hen, rfl⟩ := Run.of_guard hop
  cases op with
  | tick e =>
    obtain ⟨-, hc, -, hle⟩ := Rq.updateRqClock_spec hen h.behind
    exact .of_eq (congrFun hc x) hle
  | idle full =>
    obtain ⟨-, hc, -, hle⟩ := Rq.updateIdleRqClockPelt_spec full h.behind
    exact .of_eq (congrFun hc x) hle
  | throttle g => exact Rq.throttle_timed hen.2.1 hcount
  | unthrottle g e =>
    obtain ⟨he, hg, -, hon⟩ := hen
    refine Rq.unthrottle_timed he h.behind hg hx fun hgx => ?_
    have hne : s.throttles x ≠ 0 := fun h0 => by
      rw [s.tree.marks_eq_zero.1 h0 g hgx] at hon
      cases hon
    rw [h.count x hx hsx]
    omega
  | link p => exact .of_eq (Rq.link_cfs_old p hx) le_rfl
  | sync g used =>
    have hne : x ≠ g := by
      rintro rfl
      rw [hen.2.1] at hsx
      cases hsx
    exact .of_eq (Rq.syncThrottle_other used hne) (Rq.syncThrottle_rest used).2.2.2.ge

theorem counted_boot : Rq.boot.Counted := by
  refine ⟨fun g _ _ => ?_, fun _ _ _ => rfl, nofun, rfl, le_rfl⟩
  have : Rq.boot.throttles g = 0 := Rq.boot.tree.marks_eq_zero.2 fun _ _ => rfl
  rw [this]
  rfl

/-- After every timely run, the count of every group that `sync_throttle` has run for is the number of throttled groups
from it upwards, and every further operation keeps its clock going as it should. -/
theorem throttle_count_and_clock (ops : List Op) (s : Rq) (hrun : Run.run Op.step ops Rq.boot = some s)
    (hok : Run.Along Op.step Op.Timely ops Rq.boot) (g : Nat) (hg : g < s.tree.size) (hs : (s.cfs g).synced = true) :
    (s.cfs g).throttleCount = s.throttles g ∧ ∀ op s', Op.step op s = some s' → Rq.Timed g s s' := by
  have h : s.Counted := Run.along_invariant (fun _ _ _ h hok => Op.step_counted h hok) counted_boot hok hrun
  exact ⟨h.count g hg hs, fun op s' hop => Op.step_timed h hop hg hs⟩

/-- A group, a child that is made while it is throttled, and time that passes. -/
def nestedRun : List Op :=
  [.link 0, .sync 1 false, .throttle 1, .link 1, .tick ⟨8, false, 1024, 512⟩, .sync 2 true, .throttle 2,
    .unthrottle 1 ⟨8, false, 1024, 512⟩]

theorem throttle_count_and_clock_nestedRun : ∃ s, Run.run Op.step nestedRun Rq.boot = some s ∧ (2 < s.tree.size ∧
    (s.cfs 2).synced = true ∧ (s.cfs 2).throttleCount = 1) ∧
      ((s.cfs 2).throttleCount = s.throttles 2 ∧ ∀ op s', Op.step op s = some s' → Rq.Timed 2 s s') := by
  obtain ⟨s, hs, hval⟩ : ∃ s, Run.run Op.step nestedRun Rq.boot = some s ∧ 2 < s.tree.size ∧ (s.cfs 2).synced = true ∧
      (s.cfs 2).throttleCount = 1 := Run.run_of_isSome (by decide +kernel)
  have hok : Run.Along Op.step Op.Timely nestedRun Rq.boot := by decide +kernel
  exact ⟨s, hs, hval, throttle_count_and_clock nestedRun s hs hok 2 hval.1 hval.2.1⟩

/-- The parent of a new group is unthrottled and loses the last quota there is before `sync_throttle` runs, which then
leaves the new group with a count below zero. -/
def lateSyncRun : List Op :=
  [.link 0, .sync 1 true, .throttle 1, .link 1, .unthrottle 1 ⟨8, false, 1024, 1024⟩, .sync 2 false]

theorem throttle_count_below_zero : ∃ s, Run.run Op.step lateSyncRun Rq.boot = some s ∧ 2 < s.tree.size ∧
    (s.cfs 2).synced = true ∧ (s.cfs 2).throttleCount = -1 ∧ s.throttles 2 = 0 := by
  exact Run.run_of_isSome (by decide +kernel)

end KernelSched.ThrottleClock
