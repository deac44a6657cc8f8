import KernelSched.Group.Moves

/-!
# Tasks that join the hierarchy

The loops of `enqueue_task_fair` and `unthrottle_cfs_rq` bring a number of tasks upwards. `Rising` is what holds before
every round: either the next entity is still to be put on its runqueue and holds just these tasks (`ToJoin`), or it was
there before and these tasks are missing at its runqueue (`Joined`).
-/

namespace KernelSched.Group

open Rooted List Entity Counts

namespace Rq

variable {T : Tree} {s r u : Rq} {b c g x : Nat} {h i : Int} {e : Entity}

/-! ## Changes that no counter sees -/

/-- `u` is `s` but for `throttle_count` and the leaf list. -/
structure Same (s u : Rq) : Prop where
  tasks : u.tasks = s.tasks
  nrRunning : u.nrRunning = s.nrRunning
  underflow : u.underflow = s.underflow
  cfs : ∀ x, ∃ n, u.cfs x = { s.cfs x with throttleCount := n }

theorem Same.refl : Same s s := ⟨rfl, rfl, rfl, fun x => ⟨(s.cfs x).throttleCount, rfl⟩⟩

theorem Same.trans (h : Same s u) (h' : Same u r) : Same s r := by
  refine ⟨h'.tasks.trans h.tasks, h'.nrRunning.trans h.nrRunning, h'.underflow.trans h.underflow, fun x => ?_⟩
  obtain ⟨n, hx⟩ := h.cfs x
  obtain ⟨m, hx'⟩ := h'.cfs x
  exact ⟨m, by rw [hx', hx]⟩

theorem Same.foldl {f : Rq → Nat → Rq} (hf : ∀ s x, Same s (f s x)) (l : List Nat) (s : Rq) : Same s (l.foldl f s) := by
  induction l generalizing s with
  | nil => exact Same.refl
  | cons x l ih => exact (hf s x).trans (ih (f s x))

theorem Same.leaf (L : LeafList) : Same s { s with leaf := L } := ⟨rfl, rfl, rfl, fun x => ⟨(s.cfs x).throttleCount, rfl⟩⟩

theorem Same.throttleCount (f : Int → Int) (g : Nat) :
    Same s (s.upd g fun q => { q with throttleCount := f q.throttleCount }) := by
  refine ⟨rfl, rfl, rfl, fun x => ?_⟩
  rw [upd_cfs]
  split
  · exact ⟨_, rfl⟩
  · exact ⟨(s.cfs x).throttleCount, rfl⟩

theorem tgThrottleDown_same (s : Rq) (g : Nat) : Same s (s.tgThrottleDown g) := by
  unfold tgThrottleDown
  split
  · exact (Same.leaf _).trans (Same.throttleCount (· + 1) g)
  · exact Same.throttleCount (· + 1) g

theorem tgUnthrottleUp_same (o : Env) (s : Rq) (g : Nat) : Same s (s.tgUnthrottleUp T o g) := by
  unfold tgUnthrottleUp
  dsimp only
  split
  · exact (Same.throttleCount (· - 1) g).trans (Same.leaf _)
  · exact Same.throttleCount (· - 1) g

theorem walk_down_same (g : Nat) : Same s (T.walk tgThrottleDown (fun _ s => s) g s) := by
  rw [Tree.walk, T.walkAux_down]
  exact Same.foldl (fun s x => tgThrottleDown_same s x) _ s

theorem walk_up_same (o : Env) (g : Nat) : Same s (T.walk (fun _ s => s) (tgUnthrottleUp T o) g s) := by
  rw [Tree.walk, T.walkAux_up]
  exact Same.foldl (fun s x => tgUnthrottleUp_same o s x) _ s

theorem Same.gap (h : Same s u) (x : Nat) : u.gap T x = s.gap T x := by
  have hshare : ∀ y, (u.cfs y).share = (s.cfs y).share := by
    intro y
    obtain ⟨n, hy⟩ := h.cfs y
    rw [hy]
    rfl
  have hcounts : (u.cfs x).counts = (s.cfs x).counts := by
    obtain ⟨n, hx⟩ := h.cfs x
    rw [hx]
  simp only [Rq.gap, sums, h.tasks, hshare, hcounts]

theorem Same.sound (h : Same s u) (hs : s.Sound T) : u.Sound T := by
  refine ⟨fun g => ?_, h.tasks ▸ hs.weight, h.tasks ▸ hs.group, h.underflow.trans hs.exact, ?_⟩
  · obtain ⟨n, hg⟩ := h.cfs g
    have hv := hs.valid g
    rw [hg]
    exact ⟨hv.seWeight, hv.shares, hv.fits, hv.tgIdle⟩
  · obtain ⟨n, h0⟩ := h.cfs 0
    rw [h0]
    exact hs.root

theorem Same.lacks (h : Same s u) {cs : List Nat} {d : Counts} (hl : s.Lacks T cs d) : u.Lacks T cs d := by
  refine ⟨fun x => (h.gap x).trans (hl.1 x), ?_⟩
  obtain ⟨n, h0⟩ := h.cfs 0
  rw [h.nrRunning, h0]
  exact hl.2

theorem Same.seOk (h : Same s u) {ex : List Nat} (hse : s.SeOk T ex) : u.SeOk T ex := by
  intro g hg0 hg hex
  obtain ⟨n, hx⟩ := h.cfs g
  rw [hx]
  exact hse g hg0 hg hex

/-! ## A throttled flag -/

theorem Sound.throttle (hs : s.Sound T) (hg : g ≠ 0) (t : Bool) :
    (s.upd g fun q => { q with throttled := t }).Sound T := by
  have hv := hs.valid g
  exact hs.upd ⟨hv.seWeight, hv.shares, hv.fits, hv.tgIdle⟩ fun h0 => absurd h0 hg

theorem Lacks.throttle {cs : List Nat} {d : Counts} (hl : s.Lacks T cs d) (g : Nat) (t : Bool) :
    (s.upd g fun q => { q with throttled := t }).Lacks T cs d := by
  have h0 : ((s.upd g fun q => { q with throttled := t }).cfs 0).counts = (s.cfs 0).counts := by
    rw [upd_cfs]
    split <;> rfl
  refine ⟨fun x => ?_, ?_⟩
  · rw [gap_upd _ _ _ rfl]
    simpa [GroupRq.share, GroupRq.idleBelow] using hl.1 x
  · rw [h0]
    exact hl.2

theorem throttleCfsRq_off (o : Env) (hoff : (s.cfs c).seOnRq = false) : s.throttleCfsRq T o c = s ∨
      ∃ u, Same s u ∧ s.throttleCfsRq T o c = u.upd c fun q => { q with throttled := true } := by
  unfold throttleCfsRq
  split
  · exact .inl rfl
  · have hw := walk_down_same (T := T) (s := s) c
    refine .inr ⟨_, hw, ?_⟩
    obtain ⟨n, hn⟩ := hw.cfs c
    dsimp only
    rw [T.path_eq_cons, throttleLoop, if_pos]
    rw [hn, hoff]
    rfl

/-! ## `enqueue_entity` -/

/-- What `enqueue_entity` does besides the counters. -/
structure Entered (c : Nat) (e : Entity) (s r : Rq) : Prop where
  nr : ∀ x, (r.cfs x).counts.nrRunning = (s.cfs x).counts.nrRunning + if x = c then 1 else 0
  h : ∀ x, (r.cfs x).counts.hNrRunning = (s.cfs x).counts.hNrRunning
  idleH : ∀ x, (r.cfs x).counts.idleHNrRunning = (s.cfs x).counts.idleHNrRunning
  idle : ∀ x, (r.cfs x).idle = (s.cfs x).idle
  seOnRq : ∀ x, (r.cfs x).seOnRq = if e = .group x then true else (s.cfs x).seOnRq
  /-- Only an empty runqueue can be throttled by it. -/
  throttled : ∀ x, x ≠ c ∨ (s.cfs c).counts.nrRunning ≠ 0 → (r.cfs x).throttled = (s.cfs x).throttled

theorem Moved.entered (hm : Moved c 1 e true s r) : Entered c e s r :=
  ⟨hm.nr, hm.h, hm.idleH, hm.idle, hm.seOnRq, fun x _ => hm.throttled x⟩

theorem Entered.same (he : Entered c e s u) (h : Same u r) : Entered c e s r := by
  constructor <;> intro x <;> obtain ⟨n, hx⟩ := h.cfs x <;> rw [hx]
  · exact he.nr x
  · exact he.h x
  · exact he.idleH x
  · exact he.idle x
  · exact he.seOnRq x
  · exact he.throttled x

theorem Entered.throttle (he : Entered c e s u) (h0 : (s.cfs c).counts.nrRunning = 0) :
    Entered c e s (u.upd c fun q => { q with throttled := true }) := by
  have hcfs : ∀ x, (u.upd c fun q => { q with throttled := true }).cfs x =
      { u.cfs x with throttled := if x = c then true else (u.cfs x).throttled } := by
    intro x
    rw [upd_cfs]
    split <;> rfl
  constructor <;> intro x <;> rw [hcfs]
  · exact he.nr x
  · exact he.h x
  · exact he.idleH x
  · exact he.idle x
  · exact he.seOnRq x
  · intro hx
    have hne : x ≠ c := hx.resolve_right fun h => h h0
    rw [if_neg hne]
    exact he.throttled x hx

/-- `enqueue_entity` leaves the tasks of the entity missing at its runqueue. -/
theorem enqueueEntity_spec (o : Env) (hs : s.Sound T) (hl : s.Lacks T [] 0) (hin : e.In T c) (hoff : e.onRq s = false)
    (hw : 0 < e.weight s) (hse : c ≠ 0 → (s.cfs c).counts.nrRunning = 0 → (s.cfs c).seOnRq = false) :
    (s.enqueueEntity T o c e).Sound T ∧
      (s.enqueueEntity T o c e).Lacks T (c :: T.above c) (.ofTasks (e.tasks s) (e.idleTasks s)) ∧
        Entered c e s (s.enqueueEntity T o c e) := by
  obtain ⟨hsr, hlr, hm⟩ := linkEntity_spec o hs hl hin hoff hw
  unfold enqueueEntity
  dsimp only
  generalize s.linkEntity o c e = r at hsr hlr hm
  split
  · next hnr =>
    have hnr0 : (s.cfs c).counts.nrRunning = 0 := by
      have := hm.nr c
      omega
    -- the check whether the group may run at all
    have hcheck : (r.checkEnqueueThrottle T o c).Sound T ∧
        (r.checkEnqueueThrottle T o c).Lacks T (c :: T.above c) (.ofTasks (e.tasks s) (e.idleTasks s)) ∧
          Entered c e s (r.checkEnqueueThrottle T o c) := by
      unfold checkEnqueueThrottle
      split
      · exact ⟨hsr, hlr, hm.entered⟩
      · next hc =>
        obtain ⟨hc0, -⟩ := not_or.1 hc
        have hne : e ≠ .group c := by
          rintro rfl
          exact In.ne hin rfl
        have hoffr : (r.cfs c).seOnRq = false := by
          rw [hm.seOnRq, if_neg hne]
          exact hse hc0 hnr0
        rcases throttleCfsRq_off (T := T) o hoffr with heq | ⟨u, hu, heq⟩
        · rw [heq]
          exact ⟨hsr, hlr, hm.entered⟩
        · rw [heq]
          exact ⟨(hu.sound hsr).throttle hc0 true, (hu.lacks hlr).throttle c true, (hm.entered.same hu).throttle hnr0⟩
    split
    · exact hcheck
    · have hleaf : Same (r.checkEnqueueThrottle T o c) ((r.checkEnqueueThrottle T o c).listAddLeafCfsRq T c) :=
        Same.leaf _
      exact ⟨hleaf.sound hcheck.1, hleaf.lacks hcheck.2.1, hcheck.2.2.same hleaf⟩
  · exact ⟨hsr, hlr, hm.entered⟩

end Rq

namespace Entity

def groups : Entity → List Nat
  | task _ => []
  | group b => [b]

variable {T : Tree} {s : Rq} {c : Nat} {cs : List Nat} {e : Entity}

theorem Present.onRq (h : e.Present s) : e.onRq s = true := by
  cases e with
  | task t => exact any_eq_true.2 ⟨t, h, by simp⟩
  | group b => exact h

theorem In.not_mem_groups (h : e.In T c) : c ∉ e.groups := by
  intro hmem
  cases e with
  | task t => cases hmem
  | group b => exact Rq.In.ne h (by simpa [groups, eq_comm] using hmem)

theorem mem_groups {b : Nat} : b ∈ e.groups ↔ e = .group b := by
  cases e with
  | task t => exact ⟨nofun, nofun⟩
  | group g => simp [groups, eq_comm]

theorem walk_cons (h : c :: cs = e.walk T) : cs = T.above c := by
  cases e with
  | task t =>
    rw [walk, T.path_eq_cons] at h
    obtain ⟨rfl, rfl⟩ := cons_eq_cons.1 h
    rfl
  | group b =>
    by_cases hb : b = 0
    · subst hb
      cases h
    · rw [walk, T.above_of_ne hb, T.path_eq_cons] at h
      obtain ⟨rfl, rfl⟩ := cons_eq_cons.1 h
      rfl

end Entity

namespace Rq

/-- The entity is still to be put on the runqueue `c`; it holds `h` tasks, `i` of them idle. -/
structure ToJoin (T : Tree) (e : Entity) (c : Nat) (h i : Int) (s : Rq) : Prop where
  sound : s.Sound T
  even : s.Lacks T [] 0
  mem : e.In T c
  off : e.onRq s = false
  weight : 0 < e.weight s
  tasks : e.tasks s = h
  idleTasks : e.idleTasks s = i
  se : s.SeOk T e.groups
  live : ∀ b ∈ e.groups, 0 < (s.cfs b).counts.nrRunning ∧ (s.cfs b).throttled = false

/-- The entity is on the first runqueue of `cs`, where `h` tasks are missing. -/
structure Joined (T : Tree) (ex : List Nat) (e : Entity) (cs : List Nat) (h i : Int) (s : Rq) : Prop where
  sound : s.Sound T
  lacks : s.Lacks T cs (.ofTasks h i)
  se : s.SeOk T ex
  present : ∀ c, cs.head? = some c → e.In T c ∧ e.Present s
  below : ∀ b ∈ ex, ∀ c, cs.head? = some c → c < b

/-- Before a round of a loop on its way up. -/
def Rising (T : Tree) (e : Entity) (cs : List Nat) (h i : Int) (s : Rq) : Prop :=
  (∃ c, cs.head? = some c ∧ ToJoin T e c h i s) ∨ Joined T [] e cs h i s

variable {T : Tree} {s r u : Rq} {b c g x : Nat} {h i : Int} {e : Entity} {cs ex : List Nat}

theorem SeOk.addTasks (hse : s.SeOk T ex) (c : Nat) (h i : Int) : (s.addTasks c h i).SeOk T ex := by
  intro g hg0 hg hex
  rw [Rq.addTasks, add_cfs_with]
  have hnr : ((s.cfs g).counts + if g = c then ofTasks h i else 0).nrRunning = (s.cfs g).counts.nrRunning := by
    split <;> simp [ofTasks]
  rw [hnr]
  exact hse g hg0 hg hex

theorem Sound.nr_pos (hs : s.Sound T) (hin : e.In T c) (hon : e.Present s) (hg : s.gap T c = .ofTasks h i) :
    0 < (s.cfs c).counts.nrRunning := by
  have hf := (hs.fits_without hin hon).1
  rw [← counts_add_gap, hg, sub_eq_add_neg] at hf
  simp only [share, ofEntity, ofTasks, add_nr, neg_nr] at hf
  omega

theorem Lacks.gap_head (hl : s.Lacks T (c :: cs) (.ofTasks h i)) : s.gap T c = .ofTasks h i := by
  simpa using hl.1 c

theorem Joined.pass (hj : Joined T ex e (c :: T.above c) h i s) :
    ((s.cfs c).throttled = true → (s.addTasks c h i).Resting T ex) ∧
      ((s.cfs c).throttled = false → Joined T ex (.group c) (T.above c) h (s.idleDelta c h i) (s.addTasks c h i)) := by
  have hex : c ∉ ex := fun hc => (hj.below c hc c rfl).ne rfl
  obtain ⟨hin, hon⟩ := hj.present c rfl
  have hnr := hj.sound.nr_pos hin hon hj.lacks.gap_head
  have hsound := hj.sound.addTasks hj.lacks
  have hlacks := hj.lacks.addTasks hin.lt
  have hse := hj.se.addTasks c h i
  constructor
  · intro ht
    have hc0 := hj.sound.ne_zero_of_throttled ht
    have hoff : ¬ (s.cfs c).seOnRq = true := fun hon => by
      rw [((hj.se c hc0 hin.lt hex).1 hon).2] at ht
      cases ht
    rw [if_neg (not_or.2 ⟨hc0, hoff⟩), lacks_zero] at hlacks
    exact ⟨hsound, hlacks, hse⟩
  · intro ht
    have hup : c = 0 ∨ (s.cfs c).seOnRq = true := by
      by_cases hc0 : c = 0
      · exact .inl hc0
      · exact .inr ((hj.se c hc0 hin.lt hex).2 ⟨hnr, ht⟩)
    rw [if_pos hup] at hlacks
    refine ⟨hsound, hlacks, hse, fun p hp => ?_, fun b hb p hp => ?_⟩
    · obtain ⟨hc0, rfl⟩ := T.above_head hp
      refine ⟨T.mem_children.2 ⟨hin.lt, hc0, rfl⟩, ?_⟩
      show ((s.addTasks c h i).cfs c).seOnRq = true
      rw [Rq.addTasks, add_cfs_with]
      exact hup.resolve_left hc0
    · obtain ⟨hc0, rfl⟩ := T.above_head hp
      exact (T.parent_lt hc0).trans (hj.below b hb c rfl)

theorem Joined.updateCfsGroup (o : Env) (hj : Joined T ex e (c :: cs) h i s) :
    Joined T ex e (c :: cs) h i (s.updateCfsGroup o c e) := by
  obtain ⟨hin, hon⟩ := hj.present c rfl
  have hr := updateCfsGroup_reweighed (s := s) o c e
  obtain ⟨hs, hg⟩ := updateCfsGroup_spec o hj.sound hin hj.lacks.gap_head
  refine ⟨hs, hj.lacks.reweighed hr hg, hj.se.reweighed hr, fun d hd => ?_, hj.below⟩
  obtain rfl := Option.some.inj hd
  refine ⟨hin, ?_⟩
  cases e with
  | task t => exact hon
  | group b =>
    obtain ⟨w, l, hb⟩ := hr.cfs b
    rw [Entity.Present, hb]
    exact hon

theorem Joined.top (hj : Joined T ex e [] h i s) : (s.addNrRunning h).Resting T ex := by
  have htop : s.nrRunning + h = (s.cfs 0).counts.hNrRunning := by simpa [ofTasks] using hj.lacks.2
  have hfits := (hj.sound.valid 0).fits.2.2.2.1
  refine ⟨⟨hj.sound.valid, hj.sound.weight, hj.sound.group, ?_, hj.sound.root⟩, ⟨fun x => hj.lacks.1 x, ?_⟩, hj.se⟩
  · show (s.underflow || decide (s.nrRunning + h < 0)) = false
    rw [hj.sound.exact, htop]
    simpa using hfits
  · show s.nrRunning + h + _ = (s.cfs 0).counts.hNrRunning
    simpa using htop

theorem secondLoop_settled (o : Env) (hcs : cs = e.walk T) (hj : Joined T [] e cs h i s) :
    (s.secondLoop o h cs e i).Settled T := by
  induction cs generalizing e i s with
  | nil => exact hj.top
  | cons c cs ih =>
    obtain rfl := walk_cons hcs
    obtain ⟨hstop, hgo⟩ := (hj.updateCfsGroup o).pass
    have hflag : ∀ u : Rq, (u.addTasks c h i).cfsRqThrottled c = (u.cfs c).throttled := by
      intro u
      rw [cfsRqThrottled, Rq.addTasks, add_cfs_with]
    have hidle : ∀ u : Rq, (u.addTasks c h i).idleDelta c h i = u.idleDelta c h i := by
      intro u
      rw [idleDelta, idleDelta, Rq.addTasks, add_cfs_with]
    rw [secondLoop, hflag, hidle]
    split
    · next ht => exact hstop ht
    · next ht => exact ih rfl (hgo (by simpa using ht))

@[simp] theorem addTasks_throttled (c x : Nat) (h i : Int) :
    ((s.addTasks c h i).cfs x).throttled = (s.cfs x).throttled := by rw [Rq.addTasks, add_cfs_with]

@[simp] theorem addTasks_seOnRq (c x : Nat) (h i : Int) :
    ((s.addTasks c h i).cfs x).seOnRq = (s.cfs x).seOnRq := by rw [Rq.addTasks, add_cfs_with]

@[simp] theorem addTasks_idle (c x : Nat) (h i : Int) :
    ((s.addTasks c h i).cfs x).idle = (s.cfs x).idle := by rw [Rq.addTasks, add_cfs_with]

@[simp] theorem addTasks_idleDelta (c x : Nat) (h i k j : Int) :
    (s.addTasks c h i).idleDelta x k j = s.idleDelta x k j := by
  simp only [idleDelta, addTasks_idle]

@[simp] theorem addTasks_nr (c x : Nat) (h i : Int) :
    ((s.addTasks c h i).cfs x).counts.nrRunning = (s.cfs x).counts.nrRunning := by
  rw [Rq.addTasks, add_cfs_with]
  split <;> simp [ofTasks]

theorem Sound.counts_zero (hs : s.Sound T) (hl : s.Lacks T [] 0) (h0 : (s.cfs c).counts.nrRunning = 0) :
    (s.cfs c).counts = 0 := by
  have hg : s.gap T c = 0 := by simpa using hl.1 c
  have heq := counts_add_gap (T := T) (s := s) c
  rw [hg, add_zero] at heq
  rw [heq] at h0 ⊢
  exact (hs.sums_proper c).zero h0

theorem ToJoin.off_of_empty (hj : ToJoin T e c h i s) (hc0 : c ≠ 0) (hnr : (s.cfs c).counts.nrRunning = 0) :
    (s.cfs c).seOnRq = false := by
  have := hj.se c hc0 hj.mem.lt hj.mem.not_mem_groups
  rw [hnr] at this
  simpa using this

theorem ToJoin.enqueued (o : Env) (hj : ToJoin T e c h i s) :
    (s.enqueueEntity T o c e).Sound T ∧ (s.enqueueEntity T o c e).Lacks T (c :: T.above c) (.ofTasks h i) ∧
      Entered c e s (s.enqueueEntity T o c e) := by
  have := enqueueEntity_spec o hj.sound hj.even hj.mem hj.off hj.weight hj.off_of_empty
  rwa [hj.tasks, hj.idleTasks] at this

/-- The entity has come to `c`, where its tasks are not counted yet. The entity of `c` is right, or off if `c` was
empty. -/
structure Come (T : Tree) (c : Nat) (h i : Int) (s : Rq) : Prop where
  sound : s.Sound T
  lacks : s.Lacks T (c :: T.above c) (.ofTasks h i)
  lt : c < T.size
  nr : 0 < (s.cfs c).counts.nrRunning
  self : c ≠ 0 → ((s.cfs c).seOnRq = true ↔ (s.cfs c).throttled = false) ∨
    (s.cfs c).seOnRq = false ∧ (s.cfs c).counts.hNrRunning = 0 ∧ (s.cfs c).counts.idleHNrRunning = 0
  others : s.SeOk T [c]

theorem ToJoin.come (o : Env) (hj : ToJoin T e c h i s) : Come T c h i (s.enqueueEntity T o c e) := by
  have hc := hj.mem.lt
  have hex := hj.mem.not_mem_groups
  have hpos := (hj.sound.valid c).fits.1
  obtain ⟨hs, hl, hen⟩ := hj.enqueued o
  have hon : ((s.enqueueEntity T o c e).cfs c).seOnRq = (s.cfs c).seOnRq := by
    rw [hen.seOnRq, if_neg (mt mem_groups.2 hex)]
  refine ⟨hs, hl, hc, ?_, fun hc0 => ?_, fun g hg0 hg hgc => ?_⟩
  · rw [hen.nr, if_pos rfl]
    omega
  · by_cases hne : (s.cfs c).counts.nrRunning = 0
    · have hzero := hj.sound.counts_zero hj.even hne
      rw [hon, hen.h, hen.idleH, hzero]
      exact .inr ⟨hj.off_of_empty hc0 hne, rfl, rfl⟩
    · rw [hon, hen.throttled c (.inr hne), hj.se c hc0 hc hex]
      exact .inl ⟨fun h => h.2, fun h => ⟨by omega, h⟩⟩
  · have hgc : g ≠ c := by simpa using hgc
    rw [hen.nr, if_neg hgc, add_zero, hen.throttled g (.inl hgc), hen.seOnRq]
    split
    · next heg => simpa using hj.live g (mem_groups.2 heg)
    · next heg => exact hj.se g hg0 hg (mt mem_groups.1 heg)

theorem Come.se (hc : Come T c h i s) (hself : c ≠ 0 → ((s.cfs c).seOnRq = true ↔ (s.cfs c).throttled = false)) :
    (s.addTasks c h i).SeOk T [] := by
  refine SeOk.addTasks (fun g hg0 hg _ => ?_) c h i
  by_cases hgc : g = c
  · subst hgc
    rw [hself hg0]
    simp [hc.nr]
  · exact hc.others g hg0 hg (by simpa using hgc)

theorem Come.stopped (hc : Come T c h i s) (ht : (s.cfs c).throttled = true) : (s.addTasks c h i).Settled T := by
  have hc0 := hc.sound.ne_zero_of_throttled ht
  have hoff : (s.cfs c).seOnRq = false := by
    rcases hc.self hc0 with hself | ⟨hoff, -⟩
    · rw [ht] at hself
      simpa using hself
    · exact hoff
  have hlacks := hc.lacks.addTasks hc.lt
  rw [if_neg (by simp [hc0, hoff]), lacks_zero] at hlacks
  exact ⟨hc.sound.addTasks hc.lacks, hlacks, hc.se fun _ => by simp [hoff, ht]⟩

theorem Come.joined (hc : Come T c h i s) (ht : (s.cfs c).throttled = false) (hup : c = 0 ∨ (s.cfs c).seOnRq = true) :
    Joined T [] (.group c) (T.above c) h (s.idleDelta c h i) (s.addTasks c h i) := by
  have hlacks := hc.lacks.addTasks hc.lt
  rw [if_pos hup] at hlacks
  refine ⟨hc.sound.addTasks hc.lacks, hlacks, hc.se fun hc0 => by simp [hup.resolve_left hc0, ht], fun p hp => ?_, nofun⟩
  obtain ⟨hc0, rfl⟩ := T.above_head hp
  refine ⟨T.mem_children.2 ⟨hc.lt, hc0, rfl⟩, ?_⟩
  show ((s.addTasks c h i).cfs c).seOnRq = true
  rw [addTasks_seOnRq]
  exact hup.resolve_left hc0

/-- The group `c` was empty, so its entity is put on the next runqueue with these tasks only. -/
theorem Come.toJoin (hc : Come T c h i s) (ht : (s.cfs c).throttled = false) (hc0 : c ≠ 0)
    (hoff : (s.cfs c).seOnRq = false) : ToJoin T (.group c) (T.parent c) h (s.idleDelta c h i) (s.addTasks c h i) := by
  have hsound := hc.sound.addTasks hc.lacks
  have hlacks := hc.lacks.addTasks hc.lt
  rw [if_neg (by simp [hc0, hoff]), lacks_zero] at hlacks
  obtain ⟨-, hh0, hi0⟩ := (hc.self hc0).resolve_left fun hself => by
    rw [hself.2 ht] at hoff
    cases hoff
  have hh : ((s.addTasks c h i).cfs c).counts.hNrRunning = h := by
    rw [Rq.addTasks, add_cfs_with]
    simp [hh0, ofTasks]
  have hi : ((s.addTasks c h i).cfs c).counts.idleHNrRunning = i := by
    rw [Rq.addTasks, add_cfs_with]
    simp [hi0, ofTasks]
  refine ⟨hsound, hlacks, T.mem_children.2 ⟨hc.lt, hc0, rfl⟩, by simpa [onRq] using hoff, (hsound.valid c).seWeight, hh,
    ?_, hc.others.addTasks c h i, fun g hg => ?_⟩
  · simp only [idleTasks, GroupRq.idleBelow, addTasks_idle, hh, hi, idleDelta]
  · obtain rfl : c = g := by simpa using mem_groups.1 hg
    simp [hc.nr, ht]

/-- One round of a first loop: the entity is put on `c`, and its tasks are added there. -/
theorem ToJoin.step (o : Env) (hj : ToJoin T e c h i s) :
    (((s.enqueueEntity T o c e).cfs c).throttled = true → ((s.enqueueEntity T o c e).addTasks c h i).Settled T) ∧
      (((s.enqueueEntity T o c e).cfs c).throttled = false → Rising T (.group c) (T.above c) h
        ((s.enqueueEntity T o c e).idleDelta c h i) ((s.enqueueEntity T o c e).addTasks c h i)) := by
  have hcome := hj.come o
  refine ⟨hcome.stopped, fun ht => ?_⟩
  by_cases hup : c = 0 ∨ ((s.enqueueEntity T o c e).cfs c).seOnRq = true
  · exact .inr (hcome.joined ht hup)
  · obtain ⟨hc0, hoff⟩ := not_or.1 hup
    exact .inl ⟨T.parent c, T.above_head_of_ne hc0, hcome.toJoin ht hc0 (by simpa using hoff)⟩

theorem Rising.cases (hr : Rising T e (c :: cs) h i s) :
    (e.onRq s = true → Joined T [] e (c :: cs) h i s) ∧ (e.onRq s = false → ToJoin T e c h i s) := by
  rcases hr with ⟨d, hd, hj⟩ | hj
  · obtain rfl := Option.some.inj hd
    exact ⟨fun hon => absurd (hj.off.symm.trans hon) (by decide), fun _ => hj⟩
  · exact ⟨fun _ => hj, fun hoff => absurd (hoff.symm.trans (hj.present c rfl).2.onRq) (by decide)⟩

theorem Rising.top (hr : Rising T e [] h i s) : (s.addNrRunning h).Settled T := by
  rcases hr with ⟨d, hd, -⟩ | hj
  · cases hd
  · exact hj.top

theorem enqueueLoop_settled (o : Env) (hcs : cs = e.walk T) (hr : Rising T e cs 1 i s) :
    (s.enqueueLoop T o cs e i).Settled T := by
  induction cs generalizing e i s with
  | nil => exact hr.top
  | cons c cs ih =>
    obtain ⟨hjoined, htojoin⟩ := hr.cases
    rw [enqueueLoop]
    split
    · next hon => exact secondLoop_settled o hcs (hjoined hon)
    · next hoff =>
      obtain rfl := walk_cons hcs
      obtain ⟨hstop, hgo⟩ := (htojoin (by simpa using hoff)).step o
      simp only [cfsRqThrottled, addTasks_throttled]
      split
      · next ht => exact hstop ht
      · next ht =>
        rw [addTasks_idleDelta]
        exact ih rfl (hgo (by simpa using ht))

theorem Settled.enqueueTaskFair (o : Env) (hs : s.Settled T) {t : Task} (hg : t.group < T.size) (hw : 0 < t.weight)
    (hoff : (Entity.task t).onRq s = false) : (s.enqueueTaskFair T o t).Settled T := by
  refine enqueueLoop_settled o rfl (.inl ⟨t.group, by rw [T.path_eq_cons]; rfl, ?_⟩)
  exact ⟨hs.sound, hs.even, ⟨rfl, hg⟩, hoff, hw, rfl, rfl, hs.se, fun b hb => by cases hb⟩

/-! ## Unthrottling -/

theorem unthrottleRest_settled (hcs : cs = T.above b) (hj : Joined T [] (.group b) cs h (s.idleDelta b h i) s) :
    (s.unthrottleRest h cs b i).Settled T := by
  induction cs generalizing b i s with
  | nil => exact hj.top
  | cons c cs ih =>
    obtain rfl := walk_cons (e := .group b) hcs
    obtain ⟨hstop, hgo⟩ := hj.pass
    rw [unthrottleRest]
    simp only [cfsRqThrottled, addTasks_throttled]
    split
    · next ht => exact hstop ht
    · next ht =>
      refine ih rfl ?_
      rw [addTasks_idleDelta]
      exact hgo (by simpa using ht)

theorem unthrottleLoop_settled (o : Env) (hcs : cs = T.above b) (hr : Rising T (.group b) cs h (s.idleDelta b h i) s) :
    (s.unthrottleLoop T o h cs b i).Settled T := by
  induction cs generalizing b i s with
  | nil => exact hr.top
  | cons c cs ih =>
    obtain ⟨hjoined, htojoin⟩ := hr.cases
    rw [unthrottleLoop]
    split
    · next hon => exact unthrottleRest_settled hcs (hjoined hon)
    · next hoff =>
      obtain rfl := walk_cons (e := .group b) hcs
      have hj := htojoin (by simpa [onRq] using hoff)
      obtain ⟨hstop, hgo⟩ := hj.step o
      -- whether `b` is idle is not changed by putting its entity on the runqueue
      have hidle : (s.enqueueEntity T o c (.group b)).idleDelta b h i = s.idleDelta b h i := by
        rw [idleDelta, (hj.enqueued o).2.2.idle b, idleDelta]
      simp only [hidle, cfsRqThrottled, addTasks_throttled]
      split
      · next ht => exact hstop ht
      · next ht =>
        refine ih rfl ?_
        rw [addTasks_idleDelta]
        exact hgo (by simpa using ht)

theorem Same.settled (h : Same s u) (hs : s.Settled T) : u.Settled T := ⟨h.sound hs.sound, h.lacks hs.even, h.seOk hs.se⟩

theorem completeBranch_same (cs : List Nat) (s : Rq) : Same s (s.completeBranch T cs) := by
  induction cs generalizing s with
  | nil => exact Same.refl
  | cons c cs ih =>
    rw [completeBranch]
    split
    · exact Same.leaf _
    · exact (Same.leaf _).trans (ih _)

theorem SeOk.throttle (hse : s.SeOk T ex) (g : Nat) (t : Bool) :
    (s.upd g fun q => { q with throttled := t }).SeOk T (g :: ex) := by
  intro x hx0 hx hex
  obtain ⟨hxg, hex⟩ := not_or.1 (mt mem_cons.2 hex)
  rw [upd_cfs_ne _ _ hxg]
  exact hse x hx0 hx hex

/-- The walk of `unthrottle_cfs_rq` is done: if the group has something to run, its entity is to join. -/
theorem Settled.unthrottled (o : Env) (hs : s.Settled T) (hg0 : g ≠ 0) (hg : g < T.size) (ht : (s.cfs g).throttled = true)
    (hw : T.walk (fun _ s => s) (tgUnthrottleUp T o) g (s.upd g fun q => { q with throttled := false }) = u) :
    ((u.cfs g).counts.load = 0 → u.Settled T) ∧
      ((u.cfs g).counts.load ≠ 0 → Rising T (.group g) (T.above g) (u.cfs g).counts.hNrRunning
        (u.idleDelta g (u.cfs g).counts.hNrRunning (u.cfs g).counts.idleHNrRunning) u) := by
  have hoff : (s.cfs g).seOnRq = false := by
    have := hs.se g hg0 hg not_mem_nil
    rw [ht] at this
    simpa using this
  have hsound := hs.sound.throttle hg0 false
  have hlacks := hs.even.throttle g false
  have hse := hs.se.throttle g false
  have hsame := walk_up_same (T := T) (s := s.upd g fun q => { q with throttled := false }) o g
  rw [hw] at hsame
  obtain ⟨n, hn⟩ := hsame.cfs g
  rw [upd_cfs_self] at hn
  have hempty := (hsame.sound hsound).empty_iff (c := g) (h := 0) (i := 0) (by simpa using (hsame.lacks hlacks).1 g)
  refine ⟨fun hload => ⟨hsame.sound hsound, hsame.lacks hlacks, fun x hx0 hx _ => ?_⟩, fun hload => ?_⟩
  · by_cases hxg : x = g
    · subst hxg
      rw [hempty.2 hload, hn]
      simp [hoff]
    · exact hsame.seOk hse x hx0 hx (by simp [hxg])
  · have hnr : 0 < (u.cfs g).counts.nrRunning := by
      have := ((hsame.sound hsound).valid g).fits.1
      omega
    refine .inl ⟨T.parent g, T.above_head_of_ne hg0, hsame.sound hsound, hsame.lacks hlacks,
      T.mem_children.2 ⟨hg, hg0, rfl⟩, by rw [onRq, hn]; exact hoff, ((hsame.sound hsound).valid g).seWeight, rfl, rfl,
      hsame.seOk hse, fun b hb => ?_⟩
    obtain rfl := mem_singleton.1 hb
    exact ⟨hnr, by rw [hn]⟩

theorem Settled.unthrottleCfsRq (o : Env) (hs : s.Settled T) (hg0 : g ≠ 0) (hg : g < T.size)
    (ht : (s.cfs g).throttled = true) : (s.unthrottleCfsRq T o g).Settled T := by
  obtain ⟨hempty, hjoin⟩ := hs.unthrottled o hg0 hg ht rfl
  unfold Rq.unthrottleCfsRq
  dsimp only
  split
  · next hload =>
    split
    · exact (completeBranch_same _ _).settled (hempty hload)
    · exact hempty hload
  · next hload =>
    rw [← T.above_of_ne hg0]
    exact unthrottleLoop_settled o rfl (hjoin hload)

end Rq

end KernelSched.Group
