import KernelSched.Group.Rising

/-!
# Tasks that leave the hierarchy

The loops of `dequeue_task_fair` and `throttle_cfs_rq` take a number of tasks out. Before every round of the first loop an
entity has to leave its runqueue (`ToLeave`): it holds the tasks itself, or it is empty and they are too many there. A
round of the second loop is one of the way up, with negative numbers (`Joined`). A group that is being throttled is
exempt from `SeOk` until its flag is set.
-/

namespace KernelSched.Group

open Rooted List Entity

namespace Rq

/-- The entity has to leave the runqueue `c`, with `h` tasks, `i` of them idle, that are counted from `c` upwards. -/
structure ToLeave (T : Tree) (ex : List Nat) (e : Entity) (c : Nat) (h i : Int) (s : Rq) : Prop where
  sound : s.Sound T
  lacks : s.Lacks T (c :: T.above c) (.ofTasks (e.tasks s - h) (e.idleTasks s - i))
  mem : e.In T c
  present : e.Present s
  se : s.SeOk T (e.groups ++ ex)
  gone : ∀ b ∈ e.groups, b ∈ ex ∨ (s.cfs b).counts.nrRunning = 0
  below : ∀ b ∈ ex, c < b

/-- Before a round of a first loop on the way out. -/
def Falling (T : Tree) (ex : List Nat) (e : Entity) (cs : List Nat) (h i : Int) (s : Rq) : Prop :=
  (∃ c, cs.head? = some c ∧ ToLeave T ex e c h i s) ∨ cs = [] ∧ Joined T ex e [] (-h) (-i) s

variable {T : Tree} {s r u : Rq} {b c g x : Nat} {h i : Int} {e : Entity} {cs ex : List Nat}

theorem idleDelta_neg (s : Rq) (c : Nat) (h i : Int) : s.idleDelta c (-h) (-i) = -s.idleDelta c h i := by
  rw [idleDelta, idleDelta]
  split <;> rfl

/-- The entity has left `c`; its tasks are still counted there. -/
structure Left (T : Tree) (ex : List Nat) (c : Nat) (h i : Int) (s : Rq) : Prop where
  sound : s.Sound T
  lacks : s.Lacks T (c :: T.above c) (.ofTasks (-h) (-i))
  lt : c < T.size
  self : c ≠ 0 → ((s.cfs c).seOnRq = true ↔ (s.cfs c).throttled = false)
  others : s.SeOk T (c :: ex)
  below : ∀ b ∈ ex, c < b

theorem ToLeave.left (o : Env) (hl : ToLeave T ex e c h i s) : Left T ex c h i (s.dequeueEntity o c e) := by
  have hc := hl.mem.lt
  have hexc : c ∉ ex := fun hmem => (hl.below c hmem).ne rfl
  have hgroups := hl.mem.not_mem_groups
  have hnr := hl.sound.nr_pos hl.mem hl.present hl.lacks.gap_head
  obtain ⟨hs, hlk, hm⟩ := dequeueEntity_spec o hl.sound hl.lacks hl.mem hl.present
  refine ⟨hs, hlk, hc, fun hc0 => ?_, fun g hg0 hg hout => ?_, hl.below⟩
  · rw [hm.seOnRq, if_neg (mt mem_groups.2 hgroups), hm.throttled, hl.se c hc0 hc (by simp [hgroups, hexc])]
    simp [hnr]
  · obtain ⟨hgc, hex⟩ := not_or.1 (mt mem_cons.2 hout)
    rw [hm.nr, if_neg hgc, add_zero, hm.throttled, hm.seOnRq]
    split
    · next heg =>
      have hgone := (hl.gone g (mem_groups.2 heg)).resolve_left hex
      simp [hgone]
    · next heg =>
      refine hl.se g hg0 hg fun hmem => ?_
      rcases mem_append.1 hmem with hmem | hmem
      · exact heg (mem_groups.1 hmem)
      · exact hex hmem

section

variable (hl : Left T ex c h i s)

include hl

/-- All entities are where they should be after the tasks are subtracted, if that of `c` is. -/
theorem Left.se (hself : c ≠ 0 → ((s.cfs c).seOnRq = true ↔
    0 < (s.cfs c).counts.nrRunning ∧ (s.cfs c).throttled = false)) : (s.addTasks c (-h) (-i)).SeOk T ex := by
  refine SeOk.addTasks (fun g hg0 hg hex => ?_) c (-h) (-i)
  by_cases hgc : g = c
  · subst hgc
    exact hself hg0
  · exact hl.others g hg0 hg (by simp [hgc, hex])

theorem Left.gap : (s.addTasks c (-h) (-i)).gap T c = .ofTasks 0 0 := by
  rw [(hl.lacks.addTasks hl.lt).1, if_neg fun hp => ?_]
  · rfl
  · obtain ⟨hc0, hp⟩ := T.above_head hp
    exact (T.parent_lt hc0).ne hp

theorem Left.above_below : ∀ b ∈ ex, ∀ p, (T.above c).head? = some p → p < b := by
  intro b hb p hp
  obtain ⟨hc0, rfl⟩ := T.above_head hp
  exact (T.parent_lt hc0).trans (hl.below b hb)

theorem Left.stopped (ht : (s.cfs c).throttled = true) :
    c ≠ 0 ∧ (s.cfs c).seOnRq = false ∧ (s.addTasks c (-h) (-i)).Resting T ex := by
  have hc0 := hl.sound.ne_zero_of_throttled ht
  have hoff : (s.cfs c).seOnRq = false := by
    have := hl.self hc0
    rw [ht] at this
    simpa using this
  have hlacks := hl.lacks.addTasks hl.lt
  rw [if_neg (by simp [hc0, hoff]), lacks_zero] at hlacks
  exact ⟨hc0, hoff, hl.sound.addTasks hl.lacks, hlacks, hl.se fun _ => by simp [hoff, ht]⟩

section

variable (ht : (s.cfs c).throttled = false)

include ht

theorem Left.up : c = 0 ∨ (s.cfs c).seOnRq = true :=
  (em (c = 0)).imp id fun hc0 => (hl.self hc0).2 ht

theorem Left.lacks_above : (s.addTasks c (-h) (-i)).Lacks T (T.above c) (.ofTasks (-h) (-s.idleDelta c h i)) := by
  have hlacks := hl.lacks.addTasks hl.lt
  rwa [if_pos (hl.up ht), idleDelta_neg] at hlacks

theorem Left.joined (hload : ((s.addTasks c (-h) (-i)).cfs c).counts.load ≠ 0) :
    Joined T ex (.group c) (T.above c) (-h) (-s.idleDelta c h i) (s.addTasks c (-h) (-i)) := by
  have hsound := hl.sound.addTasks hl.lacks
  refine ⟨hsound, hl.lacks_above ht, hl.se fun hc0 => ?_, fun p hp => ?_, hl.above_below⟩
  · have hpos := (hsound.valid c).fits.1
    have hne := mt (hsound.empty_iff hl.gap).1 hload
    rw [addTasks_nr] at hpos hne
    rw [hl.self hc0]
    exact ⟨fun hno => ⟨by omega, hno⟩, fun hboth => hboth.2⟩
  · obtain ⟨hc0, rfl⟩ := T.above_head hp
    exact ⟨T.mem_children.2 ⟨hl.lt, hc0, rfl⟩, by simpa [Entity.Present] using (hl.up ht).resolve_left hc0⟩

theorem Left.falling (hload : ((s.addTasks c (-h) (-i)).cfs c).counts.load = 0) :
    Falling T ex (.group c) (T.above c) h (s.idleDelta c h i) (s.addTasks c (-h) (-i)) := by
  have hsound := hl.sound.addTasks hl.lacks
  have hlacks := hl.lacks_above ht
  have hnr0 := (hsound.empty_iff hl.gap).2 hload
  by_cases hc0 : c = 0
  · subst hc0
    exact .inr ⟨rfl, hsound, hlacks, hl.se fun hne => absurd rfl hne, nofun, fun b _ p hp => by cases hp⟩
  · have hzero : ((s.addTasks c (-h) (-i)).cfs c).counts = 0 := by
      have heq := counts_add_gap (T := T) (s := s.addTasks c (-h) (-i)) c
      rw [hl.gap, Counts.ofTasks_zero, add_zero] at heq
      rw [heq] at hnr0 ⊢
      exact (hsound.sums_proper c).zero hnr0
    refine .inl ⟨T.parent c, T.above_head_of_ne hc0, hsound, ?_, T.mem_children.2 ⟨hl.lt, hc0, rfl⟩,
      by simpa [Entity.Present] using (hl.up ht).resolve_left hc0, hl.others.addTasks c (-h) (-i), fun b hb => ?_,
      fun b hb => hl.above_below b hb _ (T.above_head_of_ne hc0)⟩
    · rw [T.above_of_ne hc0, T.path_eq_cons] at hlacks
      have hidle : ((s.addTasks c (-h) (-i)).cfs c).idleBelow = 0 := by
        rw [GroupRq.idleBelow, hzero]
        simp
      simpa [Entity.tasks, Entity.idleTasks, hzero, hidle] using hlacks
    · obtain rfl := mem_singleton.1 hb
      exact .inr hnr0

end

end

/-- One round of a first loop: the entity leaves `c`, and its tasks are subtracted there. -/
theorem ToLeave.step (o : Env) (hl : ToLeave T ex e c h i s) :
    ((((s.dequeueEntity o c e).addTasks c (-h) (-i)).cfs c).throttled = true →
      c ≠ 0 ∧ ((s.dequeueEntity o c e).cfs c).seOnRq = false ∧
        ((s.dequeueEntity o c e).addTasks c (-h) (-i)).Resting T ex) ∧
    ((((s.dequeueEntity o c e).addTasks c (-h) (-i)).cfs c).throttled = false →
      (((((s.dequeueEntity o c e).addTasks c (-h) (-i)).cfs c).counts.load ≠ 0 →
        Joined T ex (.group c) (T.above c) (-h) (-(s.dequeueEntity o c e).idleDelta c h i)
          ((s.dequeueEntity o c e).addTasks c (-h) (-i))) ∧
      ((((s.dequeueEntity o c e).addTasks c (-h) (-i)).cfs c).counts.load = 0 →
        Falling T ex (.group c) (T.above c) h ((s.dequeueEntity o c e).idleDelta c h i)
          ((s.dequeueEntity o c e).addTasks c (-h) (-i))))) := by
  have hleft := hl.left o
  simp only [addTasks_throttled]
  exact ⟨hleft.stopped, fun ht => ⟨hleft.joined ht, hleft.falling ht⟩⟩

/-! ## `dequeue_task_fair` -/

theorem Falling.top (hf : Falling T ex e [] h i s) : (s.subNrRunning h).Resting T ex := by
  rcases hf with ⟨c, hc, -⟩ | ⟨-, hj⟩
  · cases hc
  · exact hj.top

theorem Falling.toLeave (hf : Falling T ex e (c :: cs) h i s) : ToLeave T ex e c h i s := by
  rcases hf with ⟨d, hd, hl⟩ | ⟨hnil, -⟩
  · obtain rfl := Option.some.inj hd
    exact hl
  · cases hnil

theorem dequeueLoop_settled (o : Env) (hcs : cs = e.walk T) (hf : Falling T [] e cs 1 i s) :
    (s.dequeueLoop o cs e i).Settled T := by
  induction cs generalizing e i s with
  | nil => exact hf.top
  | cons c cs ih =>
    obtain rfl := walk_cons hcs
    obtain ⟨hstop, hgo⟩ := hf.toLeave.step o
    rw [dequeueLoop]
    simp only [addTasks_idleDelta]
    split
    · next ht => exact (hstop ht).2.2
    · next ht =>
      obtain ⟨hrest, hnext⟩ := hgo (by simpa [cfsRqThrottled] using ht)
      split
      · next hload => exact secondLoop_settled o rfl (hrest hload)
      · next hload => exact ih rfl (hnext (by simpa using hload))

theorem Settled.dequeueTaskFair (o : Env) (hs : s.Settled T) {t : Task} (ht : t ∈ s.tasks) :
    (s.dequeueTaskFair T o t).Settled T := by
  refine dequeueLoop_settled o rfl (.inl ⟨t.group, by rw [T.path_eq_cons]; rfl, ?_⟩)
  refine ⟨hs.sound, ?_, ⟨rfl, hs.sound.group t ht⟩, ht, hs.se, nofun, nofun⟩
  have h0 : Counts.ofTasks ((Entity.task t).tasks s - 1) ((Entity.task t).idleTasks s - t.idle.toInt) = 0 := by
    simp [Entity.tasks, Entity.idleTasks]
  rw [h0, lacks_zero]
  exact hs.even

/-! ## `throttle_cfs_rq` -/

/-- Before a round of the second loop of `throttle_cfs_rq`, which stops at an entity that is not on its runqueue. -/
def Passing (T : Tree) (ex : List Nat) (b : Nat) (cs : List Nat) (h i : Int) (s : Rq) : Prop :=
  Joined T ex (.group b) cs h i s ∨ cs ≠ [] ∧ (s.cfs b).seOnRq = false ∧ s.Resting T ex

theorem throttleRest_resting (hcs : cs = T.above b) (hp : Passing T ex b cs (-h) (-s.idleDelta b h i) s) :
    (s.throttleRest h cs b i).Resting T ex := by
  induction cs generalizing b i s with
  | nil =>
    rcases hp with hj | ⟨hne, -⟩
    · exact hj.top
    · exact absurd rfl hne
  | cons c cs ih =>
    obtain rfl := walk_cons (e := .group b) hcs
    rw [throttleRest]
    rcases hp with hj | ⟨-, hoff, hr⟩
    · have hon : (s.cfs b).seOnRq = true := (hj.present c rfl).2
      rw [if_neg (by simp [hon])]
      obtain ⟨hstop, hgo⟩ := hj.pass
      refine ih rfl ?_
      rw [addTasks_idleDelta, ← idleDelta_neg]
      by_cases ht : (s.cfs c).throttled = true
      · have hc0 := hj.sound.ne_zero_of_throttled ht
        have hex : c ∉ ex := fun hc => (hj.below c hc c rfl).ne rfl
        have hoff := hj.se c hc0 (hj.present c rfl).1.lt hex
        rw [ht] at hoff
        exact .inr ⟨T.above_ne_nil hc0, by simpa using hoff, hstop ht⟩
      · exact .inl (hgo (by simpa using ht))
    · rw [if_pos (by simp [hoff])]
      exact hr

theorem throttleLoop_resting (o : Env) (hcs : cs = T.above b)
    (hf : Falling T ex (.group b) cs h (s.idleDelta b h i) s ∨ cs ≠ [] ∧ (s.cfs b).seOnRq = false ∧ s.Resting T ex) :
    (s.throttleLoop o h cs b i).Resting T ex := by
  induction cs generalizing b i s with
  | nil =>
    rcases hf with hf | ⟨hne, -⟩
    · exact hf.top
    · exact absurd rfl hne
  | cons c cs ih =>
    obtain rfl := walk_cons (e := .group b) hcs
    rw [throttleLoop]
    rcases hf with hf | ⟨-, hoff, hr⟩
    · have hl := hf.toLeave
      have hon : (s.cfs b).seOnRq = true := hl.present
      rw [if_neg (by simp [hon])]
      have hsame : (s.dequeueEntity o c (.group b)).idleDelta b h i = s.idleDelta b h i := by
        have := (dequeueEntity_spec o hl.sound hl.lacks hl.mem hl.present).2.2.idle b
        rw [idleDelta, this, idleDelta]
      obtain ⟨hstop, hgo⟩ := hl.step o
      simp only [hsame]
      generalize s.dequeueEntity o c (.group b) = v at hstop hgo
      generalize s.idleDelta b h i = j at hstop hgo
      by_cases ht : ((v.addTasks c (-h) (-j)).cfs c).throttled = true
      · -- both loops stop at the next entity
        obtain ⟨hc0, hoff, hr⟩ := hstop ht
        have hne := T.above_ne_nil hc0
        have hoff : ((v.addTasks c (-h) (-j)).cfs c).seOnRq = false := by simpa using hoff
        split
        · exact throttleRest_resting rfl (.inr ⟨hne, hoff, hr⟩)
        · exact ih rfl (.inr ⟨hne, hoff, hr⟩)
      · obtain ⟨hrest, hnext⟩ := hgo (by simpa using ht)
        split
        · next hload =>
          refine throttleRest_resting rfl (.inl ?_)
          rw [addTasks_idleDelta]
          exact hrest hload
        · next hload =>
          refine ih rfl (.inl ?_)
          rw [addTasks_idleDelta]
          exact hnext (by simpa using hload)
    · rw [if_pos (by simp [hoff])]
      exact hr

/-! The loops of `throttle_cfs_rq` put no entity on a runqueue. -/

theorem throttleRest_seOnRq (cs : List Nat) (b : Nat) (h i : Int) (s : Rq) (x : Nat) :
    ((s.throttleRest h cs b i).cfs x).seOnRq = (s.cfs x).seOnRq := by
  induction cs generalizing b i s with
  | nil => rfl
  | cons c cs ih =>
    rw [throttleRest]
    split
    · rfl
    · rw [ih, addTasks_seOnRq]

theorem throttleLoop_seOnRq (o : Env) (cs : List Nat) (b : Nat) (h i : Int) (s : Rq) {x : Nat}
    (hoff : (s.cfs x).seOnRq = false) : ((s.throttleLoop o h cs b i).cfs x).seOnRq = false := by
  induction cs generalizing b i s with
  | nil => exact hoff
  | cons c cs ih =>
    rw [throttleLoop]
    split
    · exact hoff
    · have hv : ∀ j, (((s.dequeueEntity o c (.group b)).addTasks c (-h) j).cfs x).seOnRq = false := by
        intro j
        rw [addTasks_seOnRq, (dequeueEntity_moved o c (.group b)).seOnRq]
        split
        · rfl
        · exact hoff
      dsimp only
      split
      · rw [throttleRest_seOnRq]
        exact hv _
      · exact ih _ _ _ (hv _)

theorem throttleLoop_leaves (o : Env) (c : Nat) (cs : List Nat) (b : Nat) (h i : Int) (s : Rq) :
    ((s.throttleLoop o h (c :: cs) b i).cfs b).seOnRq = false := by
  rw [throttleLoop]
  split
  · next hoff => simpa using hoff
  · have hv : ∀ j, (((s.dequeueEntity o c (.group b)).addTasks c (-h) j).cfs b).seOnRq = false := by
      intro j
      rw [addTasks_seOnRq, (dequeueEntity_moved o c (.group b)).seOnRq, if_pos rfl]
    dsimp only
    split
    · rw [throttleRest_seOnRq]
      exact hv _
    · exact throttleLoop_seOnRq o cs _ _ _ _ (hv _)

theorem Settled.throttleCfsRq (o : Env) (hs : s.Settled T) (hg0 : g ≠ 0) (hg : g < T.size) :
    (s.throttleCfsRq T o g).Settled T := by
  unfold Rq.throttleCfsRq
  split
  · exact hs
  · have hw := (walk_down_same (T := T) (s := s) g).settled hs
    generalize T.walk tgThrottleDown (fun _ s => s) g s = w at hw
    have hse : w.SeOk T [g] := fun x hx0 hx _ => hw.se x hx0 hx not_mem_nil
    have hloop : (w.throttleLoop o (w.cfs g).counts.hNrRunning (T.path (T.parent g)) g
        (w.cfs g).counts.idleHNrRunning).Resting T [g] := by
      rw [← T.above_of_ne hg0]
      refine throttleLoop_resting o rfl ?_
      by_cases hon : (w.cfs g).seOnRq = true
      · refine .inl (.inl ⟨T.parent g, T.above_head_of_ne hg0, hw.sound, ?_, T.mem_children.2 ⟨hg, hg0, rfl⟩, hon, ?_,
          fun b hb => .inl hb, fun b hb => ?_⟩)
        · have h0 : Counts.ofTasks ((Entity.group g).tasks w - (w.cfs g).counts.hNrRunning)
              ((Entity.group g).idleTasks w - w.idleDelta g (w.cfs g).counts.hNrRunning
                (w.cfs g).counts.idleHNrRunning) = 0 := by
            simp [Entity.tasks, Entity.idleTasks, GroupRq.idleBelow, idleDelta]
          rw [h0, lacks_zero]
          exact hw.even
        · exact fun x hx0 hx _ => hw.se x hx0 hx not_mem_nil
        · obtain rfl := mem_singleton.1 hb
          exact T.parent_lt hg0
      · exact .inr ⟨T.above_ne_nil hg0, by simpa using hon, hw.sound, hw.even, hse⟩
    have hoff := throttleLoop_leaves o (T.parent g) (T.above (T.parent g)) g (w.cfs g).counts.hNrRunning
      (w.cfs g).counts.idleHNrRunning w
    rw [← T.path_eq_cons] at hoff
    refine ⟨hloop.sound.throttle hg0 true, hloop.even.throttle g true, fun x hx0 hx _ => ?_⟩
    by_cases hxg : x = g
    · subst hxg
      simp [hoff]
    · rw [upd_cfs_ne _ _ hxg]
      exact hloop.se x hx0 hx (by simp [hxg])

end Rq

end KernelSched.Group
