import KernelSched.Group.LeafWalks
import KernelSched.Group.Tally

/-!
# The order of the leaf list

What every operation does to the leaf list. No branch is left alone, no runqueue is on the list twice, and runqueues that
have something to run are on it, unless throttled (`Tidy`). A runqueue also comes before its parent, as long as
`__update_blocked_fair` never takes off one that still has a child on the list. It looks for children only right in front
of a runqueue, which is not where they need to be: in `[C, X, P, root]`, `P` was put in front of the root after its child
`C`, and `X` was there already.
-/

namespace KernelSched.Group

open Rooted Links List Option Rq

namespace Rq

variable {T : Tree} {s r u v w : Rq} {b c g x y : Nat} {K : Prop} {cs br br₁ br₂ rest l : List Nat}
    {e : Entity} {h i : Int}

theorem Tidy.of_hung (hh : Hung T K cs [] rest s) (hcov : s.Covers T) : s.Tidy T K := ⟨⟨rest, hh.closed []⟩, hcov⟩

theorem Settled.weighty (hs : s.Settled T) : s.Weighty := by
  intro x hpos hload
  have hgap : s.gap T x = .ofTasks 0 0 := by simpa using hs.even.1 x
  rw [(hs.sound.empty_iff hgap).2 hload] at hpos
  exact hpos.ne rfl

theorem Hung.count_ne_zero (hh : Hung T K cs br rest s) (hg : g < T.size) (ht : (s.cfs g).throttled = true) :
    (s.cfs g).throttleCount ≠ 0 := by
  intro hzero
  rw [hh.count g hg] at hzero
  have := throttles_eq_zero.1 (by exact_mod_cast hzero : s.throttles T g = 0) g T.mem_path_self
  rw [ht] at this
  cases this

/-! ## Throttling -/

/-- `throttle_cfs_rq`, with all of the branch under the group. -/
theorem Hung.throttleCfsRq (o : Env) (hh : Hung T K cs br rest s) (hg : g < T.size) (hoff : (s.cfs g).throttled = false)
    (hbr : ∀ x ∈ br, g ∈ T.path x)
    (hcov : ∀ x, x < T.size → g ∉ T.path x → 0 < (s.cfs x).counts.nrRunning → (s.cfs x).throttleCount = 0 →
      s.leaf.onList x = true) :
    s.throttleCfsRq T o g = s ∨
      (s.throttleCfsRq T o g).Tidy T K ∧ ((s.throttleCfsRq T o g).cfs g).throttleCount ≠ 0 := by
  unfold Rq.throttleCfsRq
  split
  · exact .inl rfl
  · have hq := (throttleLoop_calm o ((T.walk tgThrottleDown (fun _ s => s) g s).cfs g).counts.hNrRunning
      ((T.walk tgThrottleDown (fun _ s => s) g s).cfs g).counts.idleHNrRunning (T.path (T.parent g)) g
      (T.walk tgThrottleDown (fun _ s => s) g s)).toQuiet
    obtain ⟨hung, -⟩ := hh.throttle hg hoff hbr hq
    refine .inr ⟨⟨⟨_, hung⟩, Covers.throttle hh hg hoff hbr hq hcov⟩, hung.count_ne_zero hg ?_⟩
    rw [upd_cfs_self]

theorem Tidy.throttleCfsRq (o : Env) (ht : s.Tidy T K) (hg : g < T.size) (hoff : (s.cfs g).throttled = false) :
    (s.throttleCfsRq T o g).Tidy T K := by
  obtain ⟨⟨rest, hh⟩, hcov⟩ := ht
  rcases hh.throttleCfsRq o hg hoff nofun (fun x hx _ => hcov x hx) with heq | ⟨htidy, -⟩
  · rw [heq]
    exact ⟨⟨rest, hh⟩, hcov⟩
  · exact htidy

/-! ## Enqueueing -/

/-- `enqueue_entity` puts a runqueue that was empty on the list, unless it is throttled. -/
theorem Hung.enqueueEntity (o : Env) (hj : ToJoin T e c h i s) (hh : Hung T K (c :: T.above c) br rest s)
    (hcov : s.Covers T) :
    ∃ br' rest', Hung T K (T.above c) br' rest' (s.enqueueEntity T o c e) ∧ (s.enqueueEntity T o c e).Covers T ∧
      (((s.enqueueEntity T o c e).cfs c).throttled = true → br' = []) := by
  have hc := hj.mem.lt
  obtain ⟨-, -, hm⟩ := linkEntity_spec o hj.sound hj.even hj.mem hj.off hj.weight
  have hfits := (hj.sound.valid c).fits.1
  unfold Rq.enqueueEntity
  dsimp only
  generalize s.linkEntity o c e = r at hm
  have hr : Hung T K (c :: T.above c) br rest r := hh.congr hm.leaf hm.throttled hm.throttleCount
  have hcovr : ∀ x, x < T.size → x ≠ c → 0 < (r.cfs x).counts.nrRunning → (r.cfs x).throttleCount = 0 →
      r.leaf.onList x = true := by
    intro x hx hxc hpos hzero
    rw [hm.nr, if_neg hxc, add_zero] at hpos
    rw [hm.throttleCount] at hzero
    rw [hm.leaf]
    exact hcov x hx hpos hzero
  split
  · -- the runqueue was empty: it may be throttled at once
    have hcheck : r.checkEnqueueThrottle T o c = r ∨ (r.checkEnqueueThrottle T o c).Tidy T K ∧
        ((r.checkEnqueueThrottle T o c).cfs c).throttleCount ≠ 0 := by
      unfold checkEnqueueThrottle
      split
      · exact .inl rfl
      · next hno =>
        obtain ⟨-, hoff⟩ := not_or.1 hno
        refine hr.throttleCfsRq o hc (by simpa [cfsRqThrottled] using hoff) (fun x hx => (hr.under x hx c rfl).1) ?_
        exact fun x hx hcx => hcovr x hx fun hxc => hcx (hxc ▸ T.mem_path_self)
    rcases hcheck with heq | ⟨⟨⟨rest', hung⟩, hcov'⟩, hcount⟩
    · rw [heq]
      split
      · next hth =>
        have hcount : (r.cfs c).throttleCount ≠ 0 := by simpa [throttledHierarchy] using hth
        obtain rfl := hr.branch_nil (.inr ⟨hc, hcount⟩)
        refine ⟨[], rest, hr.closed _, fun x hx hpos hzero => ?_, fun _ => rfl⟩
        exact hcovr x hx (fun hxc => hcount (hxc ▸ hzero)) hpos hzero
      · next hth =>
        have hzero : (r.cfs c).throttleCount = 0 := by simpa [throttledHierarchy] using hth
        obtain ⟨br', rest', hadd, hmem, hold, -⟩ := hr.add hc hzero
        refine ⟨br', rest', hadd, fun x hx hpos hz => (hadd.hangs.mem x).2 ?_, fun ht => ?_⟩
        · by_cases hxc : x = c
          · exact hxc ▸ hmem
          · exact hold x ((hr.hangs.mem x).1 (hcovr x hx hxc hpos hz))
        · exact absurd hzero (hr.count_ne_zero hc ht)
    · rw [if_pos (by simpa [throttledHierarchy] using hcount)]
      exact ⟨[], rest', hung.closed _, hcov', fun _ => rfl⟩
  · next hnr =>
    have hpos : 0 < (s.cfs c).counts.nrRunning := by
      rw [hm.nr, if_pos rfl] at hnr
      omega
    have hlisted : (s.cfs c).throttleCount = 0 → c ∈ br ++ rest := fun hzero => (hh.hangs.mem c).1 (hcov c hc hpos hzero)
    obtain rfl : br = [] := by
      refine hh.branch_nil ?_
      by_cases hzero : (s.cfs c).throttleCount = 0
      · exact .inl (hlisted hzero)
      · exact .inr ⟨hc, hzero⟩
    refine ⟨[], rest, hr.closed _, fun x hx hposx hzero => ?_, fun _ => rfl⟩
    by_cases hxc : x = c
    · subst hxc
      rw [hm.throttleCount] at hzero
      exact (hr.hangs.mem x).2 (hlisted hzero)
    · exact hcovr x hx hxc hposx hzero

theorem Hung.joined (hh : Hung T K (c :: cs) br rest s) (hcov : s.Covers T) (hj : Joined T [] e (c :: cs) h i s) :
    s.Tidy T K := by
  obtain ⟨hin, hon⟩ := hj.present c rfl
  have hpos := hj.sound.nr_pos hin hon hj.lacks.gap_head
  obtain rfl : br = [] := by
    refine hh.branch_nil ?_
    by_cases hzero : (s.cfs c).throttleCount = 0
    · exact .inl ((hh.hangs.mem c).1 (hcov c hin.lt hpos hzero))
    · exact .inr ⟨hin.lt, hzero⟩
  exact .of_hung hh hcov

theorem Hung.done (hh : Hung T K [] br rest s) (hcov : s.Covers T) (n : Int) : (s.addNrRunning n).Tidy T K := by
  obtain rfl := hh.top
  exact (Tidy.of_hung hh hcov).quiet (.addNrRunning n)

theorem enqueueLoop_tidy (o : Env) (hcs : cs = e.walk T) (hr : Rising T e cs 1 i s) (hh : Hung T K cs br rest s)
    (hcov : s.Covers T) : (s.enqueueLoop T o cs e i).Tidy T K := by
  induction cs generalizing e i s br rest with
  | nil => exact hh.done hcov 1
  | cons c cs ih =>
    obtain ⟨hjoined, htojoin⟩ := hr.cases
    rw [enqueueLoop]
    split
    · next hon => exact (hh.joined hcov (hjoined hon)).quiet (secondLoop_calm o _ _ _ _ _).toQuiet
    · next hoff =>
      obtain rfl := Entity.walk_cons hcs
      have hj := htojoin (by simpa using hoff)
      obtain ⟨br', rest', hh', hcov', hstopped⟩ := hh.enqueueEntity o hj hcov
      obtain ⟨-, hgo⟩ := hj.step o
      have hq : Quiet (s.enqueueEntity T o c e) ((s.enqueueEntity T o c e).addTasks c 1 i) := .addTasks c 1 i
      simp only [cfsRqThrottled, addTasks_throttled]
      split
      · next ht =>
        obtain rfl := hstopped ht
        exact (Tidy.of_hung hh' hcov').quiet hq
      · next ht =>
        rw [addTasks_idleDelta]
        exact ih rfl (hgo (by simpa using ht)) (hh'.quiet hq) (hcov'.quiet hq)

theorem Tidy.enqueueTaskFair (o : Env) (ht : s.Tidy T K) (hs : s.Settled T) {t : Task} (hg : t.group < T.size)
    (hw : 0 < t.weight) (hoff : (Entity.task t).onRq s = false) : (s.enqueueTaskFair T o t).Tidy T K := by
  obtain ⟨⟨rest, hh⟩, hcov⟩ := ht
  refine enqueueLoop_tidy o rfl (.inl ⟨t.group, by rw [T.path_eq_cons]; rfl, ?_⟩) (hh.closed _) hcov
  exact ⟨hs.sound, hs.even, ⟨rfl, hg⟩, hoff, hw, rfl, rfl, hs.se, fun b hb => by cases hb⟩

/-! ## Unthrottling -/

theorem unthrottleLoop_tidy (o : Env) (hcs : cs = T.above b) (hr : Rising T (.group b) cs h (s.idleDelta b h i) s)
    (hh : Hung T K cs br rest s) (hcov : s.Covers T) : (s.unthrottleLoop T o h cs b i).Tidy T K := by
  induction cs generalizing b i s br rest with
  | nil => exact hh.done hcov h
  | cons c cs ih =>
    obtain ⟨hjoined, htojoin⟩ := hr.cases
    rw [unthrottleLoop]
    split
    · next hon => exact (hh.joined hcov (hjoined hon)).quiet (unthrottleRest_calm _ _ _ _ _).toQuiet
    · next hoff =>
      obtain rfl := Entity.walk_cons (e := .group b) hcs
      have hj := htojoin (by simpa [Entity.onRq] using hoff)
      obtain ⟨br', rest', hh', hcov', hstopped⟩ := hh.enqueueEntity o hj hcov
      obtain ⟨-, hgo⟩ := hj.step o
      have hidle : (s.enqueueEntity T o c (.group b)).idleDelta b h i = s.idleDelta b h i := by
        rw [idleDelta, (hj.enqueued o).2.2.idle b, idleDelta]
      simp only [hidle, cfsRqThrottled, addTasks_throttled]
      have hq : Quiet (s.enqueueEntity T o c (.group b))
          ((s.enqueueEntity T o c (.group b)).addTasks c h (s.idleDelta b h i)) := .addTasks c _ _
      split
      · next ht =>
        obtain rfl := hstopped ht
        exact (Tidy.of_hung hh' hcov').quiet hq
      · next ht =>
        refine ih rfl ?_ (hh'.quiet hq) (hcov'.quiet hq)
        rw [addTasks_idleDelta]
        exact hgo (by simpa using ht)

theorem completeBranch_tidy (hcs : T.Upward cs) (hfree : ∀ c ∈ cs, (s.cfs c).throttleCount = 0)
    (hh : Hung T K cs br rest s)
    (hcov : s.Covers T) : (s.completeBranch T cs).Tidy T K := by
  induction cs generalizing s br rest with
  | nil =>
    obtain rfl := hh.top
    exact .of_hung hh hcov
  | cons c cs ih =>
    obtain ⟨hc, rfl⟩ := hcs
    obtain ⟨br', rest', hadd, -, hold, hdone⟩ := hh.add hc (hfree c mem_cons_self)
    have hcov' : (s.listAddLeafCfsRq T c).Covers T := fun x hx hpos hzero =>
      (hadd.hangs.mem x).2 (hold x ((hh.hangs.mem x).1 (hcov x hx hpos hzero)))
    rw [completeBranch]
    split
    · next hret =>
      obtain rfl := hdone hret
      exact .of_hung hadd hcov'
    · exact ih (T.upward_above hc) (fun d hd => hfree d (mem_cons_of_mem _ hd)) hadd hcov'

theorem Tidy.unthrottleCfsRq (o : Env) (htidy : s.Tidy T K) (hs : s.Settled T) (hg0 : g ≠ 0) (hg : g < T.size)
    (ht : (s.cfs g).throttled = true) : (s.unthrottleCfsRq T o g).Tidy T K := by
  obtain ⟨⟨rest, hh⟩, hcov⟩ := htidy
  obtain ⟨br', rest', hung, hcov', hnil⟩ := hh.unthrottle o hcov hs.weighty hg ht
  obtain ⟨-, hjoin⟩ := hs.unthrottled o hg0 hg ht rfl
  unfold Rq.unthrottleCfsRq
  dsimp only
  rw [← T.above_of_ne hg0]
  split
  · split
    · next hon =>
      -- nothing from `g` upwards is throttled
      have hfree : ∀ c ∈ T.above g, ((T.walk (fun _ s => s) (tgUnthrottleUp T o) g
          (s.upd g fun q => { q with throttled := false })).cfs c).throttleCount = 0 := by
        intro c hc
        have hcg : c ∈ T.path g := by
          rw [T.path_eq_cons]
          exact mem_cons_of_mem _ hc
        have hzero := hung.free g ((hung.hangs.mem g).1 hon)
        rw [hung.count g hg] at hzero
        rw [hung.count c ((T.le_of_mem_path hcg).trans_lt hg)]
        exact_mod_cast throttles_mono hcg (by exact_mod_cast hzero)
      exact completeBranch_tidy (T.upward_above hg) hfree hung hcov'
    · next hoff =>
      obtain rfl := hnil (hung.hangs.not_mem.1 (by simpa using hoff))
      exact .of_hung hung hcov'
  · next hload => exact unthrottleLoop_tidy o rfl (hjoin hload) hung hcov'

/-! ## Load -/

theorem propagate_tidy (hcs : T.Upward cs) (hh : Hung T K cs br rest s) (hcov : s.Covers T) :
    (s.propagateEntityCfsRq T cs).Tidy T K := by
  induction cs generalizing s br rest with
  | nil =>
    obtain rfl := hh.top
    exact .of_hung hh hcov
  | cons c cs ih =>
    obtain ⟨hc, rfl⟩ := hcs
    rw [propagateEntityCfsRq]
    split
    · next ht =>
      obtain rfl := hh.branch_nil (.inr ⟨hc, hh.count_ne_zero hc ht⟩)
      exact .of_hung hh hcov
    · split
      · next hth =>
        obtain rfl := hh.branch_nil (.inr ⟨hc, by simpa [throttledHierarchy] using hth⟩)
        exact ih (T.upward_above hc) (hh.closed _) hcov
      · next hth =>
        obtain ⟨br', rest', hadd, -, hold, -⟩ := hh.add hc (by simpa [throttledHierarchy] using hth)
        exact ih (T.upward_above hc) hadd fun x hx hpos hzero =>
          (hadd.hangs.mem x).2 (hold x ((hh.hangs.mem x).1 (hcov x hx hpos hzero)))

def ChildListed (T : Tree) (g : Nat) (L : LeafList) : Prop := ∃ c ∈ T.children g, L.onList c = true

instance (g : Nat) (L : LeafList) : Decidable (ChildListed T g L) := by unfold ChildListed; infer_instance

/-- If a runqueue that is to be taken off still has a child on the list, then one stands right in front of it. -/
def Shielded (T : Tree) (o : Env) (g : Nat) (s : Rq) : Prop :=
  (s.cfs g).counts.load = 0 → o.decayed g = true → ChildListed T g s.leaf →
    ∃ c ∈ T.children g, prev g s.leaf.list = some c

instance (o : Env) (g : Nat) (s : Rq) : Decidable (Shielded T o g s) := by unfold Shielded; infer_instance

/-- All runqueues that `__update_blocked_fair` visits are `Shielded` then. -/
def AllShielded (T : Tree) (o : Env) : List Nat → Rq → Prop
  | [], _ => True
  | g :: gs, s => Shielded T o g s ∧ AllShielded T o gs (s.blockedVisit T o g)

instance decidableAllShielded (o : Env) : ∀ (l : List Nat) (s : Rq), Decidable (AllShielded T o l s)
  | [], _ => .isTrue trivial
  | g :: gs, s =>
    have := decidableAllShielded o gs (s.blockedVisit T o g)
    inferInstanceAs (Decidable (_ ∧ _))

theorem cfsRqIsDecayed_eq_true {o : Env} : s.cfsRqIsDecayed T o g = true ↔
    (s.cfs g).counts.load = 0 ∧ o.decayed g = true ∧ s.leaf.childCfsRqOnList T o g = false := by
  simp [cfsRqIsDecayed, and_assoc]

theorem Hung.blockedVisit (o : Env) (hh : Hung T K [] [] rest s) (hcov : s.Covers T) (hwt : s.Weighty)
    (hsh : K → Shielded T o g s) : (s.blockedVisit T o g).Tidy T K := by
  unfold Rq.blockedVisit
  split
  · next hdec =>
    obtain ⟨hload, hdecayed, hunseen⟩ := cfsRqIsDecayed_eq_true.1 hdec
    refine ⟨⟨rest.filter fun x => decide (x ≠ g), hh.hangs.del g, fun x hx => ?_, hh.count, fun x hx => ?_, nofun,
      fun hne => absurd rfl hne, fun hK x hx hx0 => ?_⟩, fun x hx hpos hzero => ?_⟩
    · exact hh.lt x (mem_of_mem_filter hx)
    · exact hh.free x (mem_of_mem_filter hx)
    · obtain ⟨hx, hxg⟩ := mem_filter.1 hx
      have hb : Before rest x (T.parent x) := (hh.order hK x hx hx0).resolve_right fun hbr => not_mem_nil hbr.1
      -- a child of `g` on the list would have been seen
      have hpg : T.parent x ≠ g := by
        intro hpg
        have hchild : x ∈ T.children g := T.mem_children.2 ⟨hh.lt x hx, hx0, hpg⟩
        obtain ⟨c, hc, hprev⟩ := hsh hK hload hdecayed ⟨x, hchild, (hh.hangs.mem x).2 hx⟩
        obtain ⟨-, hc0, hcg⟩ := T.mem_children.1 hc
        have hon : s.leaf.onList g = true := (hh.hangs.mem g).2 (hpg ▸ hb.right)
        rw [LeafList.childCfsRqOnList, LeafList.inspected, if_pos hon, hprev] at hunseen
        simp [hc0, hcg] at hunseen
      exact .inl (hb.filter hxg (by simpa using hpg))
    · have hxg : x ≠ g := fun hxg => hwt x hpos (hxg ▸ hload)
      have hon := hcov x hx hpos hzero
      refine ((hh.hangs.del g).mem x).2 (mem_filter.2 ⟨(hh.hangs.mem x).1 hon, by simpa using hxg⟩)
  · exact ⟨⟨rest, hh⟩, hcov⟩

theorem blockedVisit_same (o : Env) (s : Rq) (g : Nat) : Same s (s.blockedVisit T o g) := by
  unfold blockedVisit
  split
  · exact Same.leaf _
  · exact Same.refl

theorem Tidy.foldl_blockedVisit (o : Env) (l : List Nat) (ht : s.Tidy T K) (hwt : s.Weighty)
    (hsh : K → AllShielded T o l s) : (l.foldl (Rq.blockedVisit T o) s).Tidy T K := by
  induction l generalizing s with
  | nil => exact ht
  | cons g l ih =>
    obtain ⟨⟨rest, hh⟩, hcov⟩ := ht
    exact ih (hh.blockedVisit o hcov hwt fun hK => (hsh hK).1) (hwt.same (blockedVisit_same o s g)) fun hK => (hsh hK).2

end Rq

/-! ## Runs -/

/-- `__update_blocked_fair` takes off no runqueue that has a child on the list. -/
def Op.Careful (T : Tree) (op : Env × Op) (s : Rq) : Prop :=
  match op.2 with
  | .updateBlocked => s.AllShielded T op.1 s.leaf.list
  | _ => True

instance (T : Tree) (op : Env × Op) (s : Rq) : Decidable (Op.Careful T op s) := by
  rcases op with ⟨_, _ | _⟩ <;> unfold Op.Careful <;> infer_instance

variable {T : Tree} {K : Prop} {s s' : Rq} {g : Nat}

theorem Op.step_tidy {op : Env × Op} (hs : s.Settled T) (ht : s.Tidy T K) (hok : K → Op.Careful T op s)
    (hop : Op.step T op s = some s') : s'.Tidy T K := by
  obtain ⟨o, op⟩ := op
  obtain ⟨hen, rfl⟩ := Run.of_guard hop
  cases op with
  | enqueue t => exact ht.enqueueTaskFair o hs hen.1 hen.2.1 hen.2.2
  | dequeue t => exact ht.quiet (dequeueLoop_quiet o _ _ _ s)
  | throttle g => exact ht.throttleCfsRq o hen.2.1 hen.2.2
  | unthrottle g => exact ht.unthrottleCfsRq o hs hen.1 hen.2.1 hen.2.2
  | setIdle g idle => exact ht.quiet (schedGroupSetIdle_calm o g idle s).toQuiet
  | propagate g =>
    obtain ⟨⟨rest, hh⟩, hcov⟩ := ht
    exact propagate_tidy (T.upward_path hen) (hh.closed _) hcov
  | updateBlocked => exact ht.foldl_blockedVisit o _ hs.weighty hok

theorem Rq.tidy_boot : Rq.boot.Tidy T K := by
  refine ⟨⟨[], ⟨rfl, rfl, nodup_nil, by simp [boot]⟩, nofun, fun x _ => ?_, nofun, nofun, fun hne => absurd rfl hne,
    nofun⟩, fun x _ hpos _ => ?_⟩
  · have : boot.throttles T x = 0 := throttles_eq_zero.2 fun _ _ => rfl
    rw [this]
    rfl
  · exact absurd hpos (lt_irrefl 0)

theorem Run.tidy {ops : List (Env × Op)} (hok : K → Run.Along (Op.step T) (Op.Careful T) ops Rq.boot)
    (hrun : Run.run (Op.step T) ops Rq.boot = some s) : s.Tidy T K := by
  have halong : Run.Along (Op.step T) (fun op s => K → Op.Careful T op s) ops boot := by
    by_cases hK : K
    · exact (hok hK).imp fun _ _ h _ => h
    · exact Run.along_of_forall (fun _ _ h => absurd h hK) ops boot
  exact (Run.along_invariant (I := fun s => s.Settled T ∧ s.Tidy T K)
    (fun op s s' h hc hop => ⟨Op.step_settled h.1 hop, Op.step_tidy h.1 h.2 hc hop⟩)
    ⟨settled_boot, tidy_boot⟩ halong hrun).2

/-- No branch is alone, no runqueue is on the list twice, and the parent of each is there too, after it. -/
structure LeafList.Ordered (T : Tree) (L : LeafList) : Prop where
  tmp : L.tmp = none
  nodup : L.list.Nodup
  parent : ∀ g ∈ L.list, g ≠ 0 → Before L.list g (T.parent g)

/-- The leaf list is in order after every run in which `__update_blocked_fair` was careful. -/
theorem leafList_ordered (T : Tree) (ops : List (Env × Op)) (s : Rq)
    (hrun : Run.run (Op.step T) ops Rq.boot = some s) (hok : Run.Along (Op.step T) (Op.Careful T) ops Rq.boot) :
    s.leaf.Ordered T := by
  obtain ⟨⟨rest, hh⟩, -⟩ := Run.tidy (K := True) (fun _ => hok) hrun
  have hlist : s.leaf.list = rest := hh.hangs.list
  refine ⟨hh.hangs.tmp, hlist ▸ hh.hangs.nodup, ?_⟩
  rw [hlist]
  exact fun g hg hg0 => (hh.order trivial g hg hg0).resolve_right fun hbr => not_mem_nil hbr.1

/-- Group 3 comes and goes below group 1, whose averages decay before those of its child. -/
def carefulRun : List (Env × Op) :=
  [(.calm, .enqueue ⟨0, 3, 1024, false⟩), (.calm, .dequeue ⟨0, 3, 1024, false⟩),
    ({ Env.calm with decayed := fun g => g == 1 }, .updateBlocked),
    ({ Env.calm with decayed := fun g => g == 3 }, .updateBlocked)]

theorem leafList_ordered_carefulRun : ∃ s, Run.run (Op.step smallTree) carefulRun Rq.boot = some s ∧
    s.leaf.list = [1, 0] ∧ Run.Along (Op.step smallTree) (Op.Careful smallTree) carefulRun Rq.boot ∧
      s.leaf.Ordered smallTree := by
  obtain ⟨s, hs, hlist⟩ : ∃ s, Run.run (Op.step smallTree) carefulRun boot = some s ∧ s.leaf.list = [1, 0] :=
    Run.run_of_isSome (by decide +kernel)
  have hok : Run.Along (Op.step smallTree) (Op.Careful smallTree) carefulRun boot := by decide +kernel
  exact ⟨s, hs, hlist, hok, leafList_ordered smallTree carefulRun s hs hok⟩

/-- Group 2 is on the list; group 3 joins, below group 1. Then all have left, and the averages of group 1 decay before
those of its child. -/
def splitRun : List (Env × Op) :=
  [(.calm, .enqueue ⟨0, 2, 1024, false⟩), (.calm, .enqueue ⟨1, 3, 1024, false⟩), (.calm, .dequeue ⟨1, 3, 1024, false⟩)]

/-- The child stays on the list without its parent. -/
theorem leafList_not_ordered : let ops := splitRun ++ [({ Env.calm with decayed := fun g => g == 1 }, .updateBlocked)]
    ∃ s, Run.run (Op.step smallTree) ops Rq.boot = some s ∧ s.leaf.list = [3, 2, 0] ∧ ¬ s.leaf.Ordered smallTree := by
  intro ops
  obtain ⟨s, hs, hlist⟩ : ∃ s, Run.run (Op.step smallTree) ops boot = some s ∧ s.leaf.list = [3, 2, 0] :=
    Run.run_of_isSome (by decide +kernel)
  refine ⟨s, hs, hlist, fun hord => ?_⟩
  have hmem := (hord.parent 3 (by simp [hlist]) (by decide)).right
  rw [hlist] at hmem
  exact absurd hmem (by decide)

/-- However the averages decay, the list has each runqueue with entities that is not throttled, and none that is. -/
theorem leafList_covers (T : Tree) (ops : List (Env × Op)) (s : Rq) (hrun : Run.run (Op.step T) ops Rq.boot = some s) :
    s.leaf.tmp = none ∧ s.leaf.list.Nodup ∧ ∀ g < T.size, (s.cfs g).throttleCount = s.throttles T g ∧
      (g ∈ s.leaf.list → (s.cfs g).throttleCount = 0) ∧
      (0 < (s.cfs g).counts.nrRunning → (s.cfs g).throttleCount = 0 → g ∈ s.leaf.list) := by
  obtain ⟨⟨rest, hh⟩, hcov⟩ := Run.tidy (K := False) nofun hrun
  have hlist : s.leaf.list = rest := hh.hangs.list
  refine ⟨hh.hangs.tmp, hlist ▸ hh.hangs.nodup, fun g hg => ?_⟩
  rw [hlist]
  exact ⟨hh.count g hg, hh.free g, fun hnr hfree => (hh.hangs.mem g).1 (hcov g hg hnr hfree)⟩

theorem leafList_covers_splitRun : ∃ s, Run.run (Op.step smallTree) splitRun Rq.boot = some s ∧ s.leaf.list.Nodup :=
  ⟨_, rfl, (leafList_covers smallTree splitRun _ rfl).2.1⟩

end KernelSched.Group
