import KernelSched.Lib.Run
import KernelSched.Group.Falling

/-!
# The counters of all runqueues, after every run

`sched_group_set_idle` and the operations on the leaf list complete the operations; every one of them keeps `Settled`.
`Counted` says in terms of tasks and groups what the counters of a runqueue then are.
-/

namespace KernelSched.Group

open Rooted List Counts GroupRq

namespace Rq

variable {T : Tree} {s r u : Rq} {b c g x : Nat} {h i : Int} {cs : List Nat} {on : Bool}

/-! ## Idle tasks are tasks -/

theorem idle_le_sums (hb : ∀ b ∈ T.children g, (s.cfs b).counts.idleHNrRunning ≤ (s.cfs b).counts.hNrRunning) :
    (s.sums T g).idleHNrRunning ≤ (s.sums T g).hNrRunning := by
  have hsum : ∀ l : List Counts, (∀ n ∈ l, n.idleHNrRunning ≤ n.hNrRunning) →
      l.sum.idleHNrRunning ≤ l.sum.hNrRunning := by
    intro l hl
    induction l with
    | nil => exact le_rfl
    | cons n l ih =>
      have hn := hl n mem_cons_self
      have hih := ih fun m hm => hl m (mem_cons_of_mem _ hm)
      simp only [sum_cons, add_idleH, add_h]
      omega
  have htasks := hsum ((s.tasks.filter fun t => decide (t.group = g)).map Task.share) fun n hn => by
    obtain ⟨t, -, rfl⟩ := mem_map.1 hn
    cases ht : t.idle <;> simp [Task.share, ofEntity, ofTasks, ht]
  have hgroups := hsum ((T.children g).map fun b => (s.cfs b).share) fun n hn => by
    obtain ⟨b, hmem, rfl⟩ := mem_map.1 hn
    have hle := hb b hmem
    simp only [share, idleBelow]
    split
    · split <;> simp [ofEntity, ofTasks, hle]
    · exact le_rfl
  simp only [sums, add_idleH, add_h]
  omega

theorem Lacks.counts_eq (hl : s.Lacks T [] 0) (g : Nat) : (s.cfs g).counts = s.sums T g := by
  have hg : s.gap T g = 0 := by simpa using hl.1 g
  rw [← counts_add_gap, hg, add_zero]

theorem Settled.idle_le (hs : s.Settled T) (g : Nat) : (s.cfs g).counts.idleHNrRunning ≤ (s.cfs g).counts.hNrRunning := by
  -- from the leaves of the tree upwards
  have aux : ∀ n g, T.size ≤ n + g → (s.cfs g).counts.idleHNrRunning ≤ (s.cfs g).counts.hNrRunning := by
    intro n
    induction n with
    | zero =>
      intro g hg
      rw [hs.even.counts_eq g]
      refine idle_le_sums fun b hb => ?_
      have hsize := (T.mem_children.1 hb).1
      have hlt := T.lt_of_child hb
      omega
    | succ n ih =>
      intro g hg
      rw [hs.even.counts_eq g]
      refine idle_le_sums fun b hb => ih b ?_
      have hlt := T.lt_of_child hb
      omega
  exact aux T.size g (by omega)

/-! ## `sched_group_set_idle` -/

theorem Settled.updateCfsGroup (o : Env) (hs : s.Settled T) (hb : b ∈ T.children c) :
    (s.updateCfsGroup o c (.group b)).Settled T := by
  have hr := updateCfsGroup_reweighed (s := s) o c (.group b)
  obtain ⟨hsound, hg⟩ := updateCfsGroup_spec (e := .group b) (h := 0) (i := 0) o hs.sound hb (by simpa using hs.even.1 c)
  exact ⟨hsound, hs.even.reweighed hr hg, hs.se.reweighed hr⟩

theorem setSharesLoop_settled (o : Env) (hcs : cs = T.above b) (hb : b < T.size) (hs : s.Settled T) :
    (s.setSharesLoop o cs b).Settled T := by
  induction cs generalizing b s with
  | nil => exact hs
  | cons c cs ih =>
    obtain ⟨hb0, rfl⟩ := T.above_head (g := b) (p := c) (by rw [← hcs]; rfl)
    obtain rfl := Entity.walk_cons (e := .group b) hcs
    exact ih rfl ((T.parent_lt hb0).trans hb) (hs.updateCfsGroup o (T.mem_children.2 ⟨hb, hb0, rfl⟩))

theorem Settled.setShares (o : Env) (hs : s.Settled T) (hg0 : g ≠ 0) (hg : g < T.size) (shares : Int) :
    (s.__schedGroupSetShares T o g shares).Settled T := by
  unfold __schedGroupSetShares
  dsimp only
  generalize hn : min (max shares (scaleLoad minShares)) (scaleLoad maxShares) = n
  have hmin : minShares ≤ n := by
    simp only [scaleLoad, minShares, maxShares] at *
    omega
  split
  · exact hs
  · rw [← T.above_of_ne hg0]
    refine setSharesLoop_settled o rfl hg ⟨?_, ⟨fun x => ?_, ?_⟩, fun x hx0 hx hex => ?_⟩
    · have hv := hs.sound.valid g
      exact hs.sound.upd ⟨hv.seWeight, hmin, hv.fits, hv.tgIdle⟩ fun h0 => absurd h0 hg0
    · rw [gap_upd _ _ _ rfl]
      simpa [share, idleBelow] using hs.even.1 x
    · rw [upd_cfs_ne _ _ (Ne.symm hg0)]
      exact hs.even.2
    · have := hs.se x hx0 hx hex
      rw [upd_cfs]
      split <;> exact this

theorem setIdleLoop_settled {d : Int} (hcs : cs = T.above b)
    (hp : Passing T [] b cs 0 d s) : (s.setIdleLoop d cs b).Settled T := by
  induction cs generalizing b s with
  | nil =>
    rcases hp with hj | ⟨hne, -⟩
    · rw [setIdleLoop]
      exact ⟨hj.sound, ⟨fun x => by simpa using hj.lacks.1 x, by simpa [ofTasks] using hj.lacks.2⟩, hj.se⟩
    · exact absurd rfl hne
  | cons c cs ih =>
    obtain rfl := Entity.walk_cons (e := .group b) hcs
    rw [setIdleLoop]
    rcases hp with hj | ⟨-, hoff, hr⟩
    · have hon : (s.cfs b).seOnRq = true := (hj.present c rfl).2
      have hc := (hj.present c rfl).1.lt
      rw [if_neg (by simp [hon])]
      obtain ⟨hstop, hgo⟩ := hj.pass
      dsimp only
      rw [addTasks_idle]
      by_cases ht : (s.cfs c).throttled = true
      · have hc0 := hj.sound.ne_zero_of_throttled ht
        split
        · exact hstop ht
        · refine ih rfl (.inr ⟨T.above_ne_nil hc0, ?_, hstop ht⟩)
          have := hj.se c hc0 hc not_mem_nil
          rw [ht] at this
          simpa using this
      · have hj' := hgo (by simpa using ht)
        split
        · next hidle =>
          -- all tasks below an idle group are counted as idle already
          rw [idleDelta, if_pos hidle] at hj'
          exact ⟨hj'.sound, (lacks_zero _).1 hj'.lacks, hj'.se⟩
        · next hidle =>
          rw [idleDelta, if_neg hidle] at hj'
          exact ih rfl (.inl hj')
    · rw [if_pos (by simp [hoff])]
      exact hr

/-! What is missing at the parent once `idle` of `g` is set, and not yet counted. -/

theorem markIdle_cfs (g : Nat) (on : Bool) (s : Rq) : (s.markIdle g on).cfs g = { s.cfs g with tgIdle := on, idle := on } :=
  upd_cfs_self _ _

theorem Sound.markIdle (hs : s.Sound T) (hg0 : g ≠ 0) (on : Bool) : (s.markIdle g on).Sound T := by
  have hv := hs.valid g
  exact hs.upd ⟨hv.seWeight, hv.shares, hv.fits, rfl⟩ fun h0 => absurd h0 hg0

theorem SeOk.markIdle {ex : List Nat} (hse : s.SeOk T ex) (g : Nat) (on : Bool) : (s.markIdle g on).SeOk T ex := by
  intro x hx0 hx hex
  have := hse x hx0 hx hex
  rw [Rq.markIdle, upd_cfs]
  split <;> exact this

/-- How far `idle_h_nr_running` is from `h_nr_running`. -/
def busyTasks (g : Nat) (s : Rq) : Int := (s.cfs g).counts.hNrRunning - (s.cfs g).counts.idleHNrRunning

/-- `1` for a group that becomes idle, `-1` for one that no longer is. -/
def idleSign (on : Bool) : Int := if on then 1 else -1

theorem Lacks.gap_markIdle (hl : s.Lacks T [] 0) (hwas : (s.cfs g).idle = !on) (x : Nat) :
    (s.markIdle g on).gap T x = if g ∈ T.children x ∧ (s.cfs g).seOnRq = true then
      ⟨0, 0, idleSign on, 0, idleSign on * s.busyTasks g⟩ else 0 := by
  have hzero : s.gap T x = 0 := by simpa using hl.1 x
  rw [markIdle, gap_upd _ _ _ rfl, hzero, zero_add]
  by_cases hx : g ∈ T.children x
  · by_cases hon : (s.cfs g).seOnRq = true
    · rw [if_pos hx, if_pos ⟨hx, hon⟩]
      cases on <;>
        (ext <;> simp [share, idleBelow, hon, hwas, ofEntity, ofTasks, sub_eq_add_neg,
          idleSign, busyTasks])
    · simp [share, hon]
  · simp [hx]

/-- Once the parent has counted the idle entity, only idle tasks are missing there. -/
theorem Settled.countIdle (hs : s.Settled T) (hg0 : g ≠ 0) (hg : g < T.size) (hwas : (s.cfs g).idle = !on)
    (hon : (s.cfs g).seOnRq = true) : Joined T [] (.group g) (T.above g) 0 (idleSign on * s.busyTasks g)
      ((s.markIdle g on).add (T.parent g) ⟨0, 0, idleSign on, 0, 0⟩) := by
  have hchild : g ∈ T.children (T.parent g) := T.mem_children.2 ⟨hg, hg0, rfl⟩
  have hsound := hs.sound.markIdle hg0 on
  have hgap := hs.even.gap_markIdle hwas
  have hgp := hgap (T.parent g)
  rw [if_pos ⟨hchild, hon⟩] at hgp
  refine ⟨?_, ⟨fun x => ?_, ?_⟩, fun x hx0 hx hex => ?_, fun p hp => ?_, nofun⟩
  · refine hsound.add ?_
    have hfits := (hsound.sums_proper (T.parent g)).fits
    have hvalid := (hsound.valid (T.parent g)).fits
    rw [← counts_add_gap, hgp] at hfits
    simp only [Counts.Fits, add_nr, add_load, add_idleNr, add_h, add_idleH] at *
    omega
  · rw [gap_add_local rfl rfl, hgap]
    simp only [T.above_head_of_ne hg0, Option.some.injEq, T.mem_children, hg, hg0, ne_eq, not_false_iff, true_and, hon,
      and_true]
    by_cases hx : T.parent g = x
    · subst hx
      ext <;> simp [sub_eq_add_neg, ofTasks]
    · simp [hx, Ne.symm hx]
  · have h0 : (((s.markIdle g on).add (T.parent g) ⟨0, 0, idleSign on, 0, 0⟩).cfs 0).counts.hNrRunning =
        (s.cfs 0).counts.hNrRunning := by
      rw [add_cfs, markIdle, upd_cfs_ne _ _ (Ne.symm hg0)]
      split <;> simp
    rw [h0, if_neg (T.above_ne_nil hg0)]
    exact hs.even.2
  · have := hs.se.markIdle g on x hx0 hx hex
    rw [add_cfs]
    split
    · simpa using this
    · exact this
  · obtain ⟨-, rfl⟩ := T.above_head hp
    refine ⟨hchild, ?_⟩
    rw [Entity.Present, add_cfs, if_neg (Ne.symm (T.parent_lt hg0).ne), markIdle_cfs]
    exact hon

theorem noteUnderflow_of_nonneg {n : Int} (h : 0 ≤ n) (s : Rq) : s.noteUnderflow n = s := by
  have hlt : ¬ n < 0 := by omega
  simp [noteUnderflow, hlt]

theorem Settled.setIdleCounts (hs : s.Settled T) (hg0 : g ≠ 0) (hg : g < T.size)
    (hwas : (s.cfs g).idle = !on) : ((s.markIdle g on).setIdleCounts T g).Settled T := by
  have hbusy : 0 ≤ s.busyTasks g := by
    have := hs.idle_le g
    rw [busyTasks]
    omega
  have hnote : ∀ s' : Rq, s'.noteUnderflow ((s.cfs g).counts.hNrRunning - (s.cfs g).counts.idleHNrRunning) = s' :=
    noteUnderflow_of_nonneg hbusy
  have hsign : (if ((s.markIdle g on).cfs g).idle then 1 else -1 : Int) = idleSign on := by rw [markIdle_cfs, idleSign]
  have hflag : ((s.markIdle g on).cfs g).seOnRq = (s.cfs g).seOnRq := by rw [markIdle_cfs]
  unfold Rq.setIdleCounts
  dsimp only
  rw [hsign, hflag, ← T.above_of_ne hg0]
  by_cases hon : (s.cfs g).seOnRq = true
  · have hcounts : (((s.markIdle g on).add (T.parent g) ⟨0, 0, idleSign on, 0, 0⟩).cfs g).counts = (s.cfs g).counts := by
      rw [add_cfs, if_neg (Ne.symm (T.parent_lt hg0).ne), markIdle_cfs]
    rw [if_pos hon, hcounts, hnote]
    exact setIdleLoop_settled rfl (.inl (hs.countIdle hg0 hg hwas hon))
  · have hcounts : ((s.markIdle g on).cfs g).counts = (s.cfs g).counts := by rw [markIdle_cfs]
    rw [if_neg hon, hcounts, hnote]
    -- the group is not on the runqueue above, so nothing is counted there
    refine setIdleLoop_settled rfl (.inr ⟨T.above_ne_nil hg0, by rw [hflag]; simpa using hon, hs.sound.markIdle hg0 on,
      ⟨fun x => ?_, ?_⟩, hs.se.markIdle g on⟩)
    · rw [hs.even.gap_markIdle hwas, if_neg fun h => hon h.2]
      simp
    · rw [markIdle, upd_cfs_ne _ _ (Ne.symm hg0)]
      exact hs.even.2

theorem Settled.schedGroupSetIdle (o : Env) (hs : s.Settled T) (hg : g < T.size) {idle : Int}
    (hr : s.schedGroupSetIdle T o g idle = some r) : r.Settled T := by
  obtain ⟨hok, hr⟩ := Option.ite_none_left_eq_some.1 hr
  obtain ⟨hg0, -⟩ := not_or.1 hok
  dsimp only at hr
  split at hr
  · obtain rfl := Option.some.inj hr
    exact hs
  · next hnew =>
    obtain rfl := Option.some.inj hr
    have hwas : (s.cfs g).idle = !decide (idle = 1) := by
      rw [(hs.sound.valid g).tgIdle] at hnew
      revert hnew
      cases (s.cfs g).idle <;> cases decide (idle = 1) <;> simp
    refine Settled.setShares o ?_ hg0 hg _
    rw [if_neg (by rw [hwas]; cases decide (idle = 1) <;> simp)]
    exact hs.setIdleCounts hg0 hg hwas

/-! ## Every operation -/

theorem propagate_same (cs : List Nat) (s : Rq) : Same s (s.propagateEntityCfsRq T cs) := by
  induction cs generalizing s with
  | nil => exact Same.refl
  | cons c cs ih =>
    rw [propagateEntityCfsRq]
    split
    · exact Same.refl
    · split
      · exact ih s
      · exact (Same.leaf _).trans (ih _)

theorem updateBlocked_same (o : Env) (s : Rq) : Same s (s.__updateBlockedFair T o) := by
  refine Same.foldl (fun s g => ?_) _ s
  unfold blockedVisit
  split
  · exact Same.leaf _
  · exact Same.refl

theorem settled_boot : Rq.boot.Settled T := by
  have bootValid : 0 < nice0Load ∧ minShares ≤ nice0Load ∧ (0 : Counts).Fits := by decide
  have hzero : ∀ x, Rq.boot.sums T x = 0 := by
    intro x
    have : ∀ l : List Nat, (l.map fun b => (Rq.boot.cfs b).share).sum = 0 := by
      intro l
      induction l with
      | nil => rfl
      | cons b l ih =>
        rw [map_cons, sum_cons, ih, add_zero]
        rfl
    rw [sums, this, add_zero]
    rfl
  refine ⟨⟨fun _ => ⟨bootValid.1, bootValid.2.1, bootValid.2.2, rfl⟩, by rintro _ ⟨⟩, by rintro _ ⟨⟩, rfl, rfl⟩,
    ⟨fun x => ?_, rfl⟩, fun g _ _ _ => ?_⟩
  · rw [gap, hzero]
    rfl
  · simp [Rq.boot]

end Rq

variable {T : Tree} {s s' : Rq}

theorem Op.step_settled {op : Env × Op} (hs : s.Settled T) (hop : Op.step T op s = some s') : s'.Settled T := by
  obtain ⟨o, op⟩ := op
  obtain ⟨hen, rfl⟩ := Run.of_guard hop
  cases op with
  | enqueue t => exact hs.enqueueTaskFair o hen.1 hen.2.1 hen.2.2
  | dequeue t => exact hs.dequeueTaskFair o hen
  | throttle g => exact hs.throttleCfsRq o hen.1 hen.2.1
  | unthrottle g => exact hs.unthrottleCfsRq o hen.1 hen.2.1 hen.2.2
  | setIdle g idle =>
    show ((s.schedGroupSetIdle T o g idle).getD s).Settled T
    cases hr : s.schedGroupSetIdle T o g idle with
    | none => exact hs
    | some r => exact hs.schedGroupSetIdle o hen hr
  | propagate g => exact (Rq.propagate_same _ s).settled hs
  | updateBlocked => exact (Rq.updateBlocked_same o s).settled hs

end KernelSched.Group
