import KernelSched.Group.Gap

/-!
# Counters on the way through the hierarchy

- `Sound`: what holds at every moment of every operation. No counter is below zero, weights are positive.
- `Lacks`: the counters are right but for a number of tasks that is missing at the next runqueue on the way up.
- `SeOk`: the entity of a group is on its runqueue just when the group has something to run and is not throttled.
- `Settled`: all is right, as between two operations.

The lemmas say what the entity operations do to these.
-/

namespace KernelSched.Group

open Rooted List GroupRq
open Counts (ofEntity ofTasks add_nr add_load add_idleNr add_h add_idleH ofLoad neg_nr neg_load neg_idleNr
    neg_h neg_idleH)

/-! ## Sums of entities -/

namespace Counts

/-- Counters of a set of entities, each with a weight: they fit, and are zero if there is no entity or no load. -/
structure Proper (n : Counts) : Prop where
  fits : n.Fits
  load_iff : n.nrRunning = 0 ↔ n.load = 0
  zero : n.nrRunning = 0 → n = 0

theorem Proper.nil : (0 : Counts).Proper := ⟨Fits.zero, by simp, fun _ => rfl⟩

theorem Proper.add {a b : Counts} (ha : a.Proper) (hb : b.Proper) : (a + b).Proper := by
  have hfa := ha.fits
  have hfb := hb.fits
  have hla := ha.load_iff
  have hlb := hb.load_iff
  simp only [Fits] at hfa hfb
  refine ⟨ha.fits.add hb.fits, ?_, fun h => ?_⟩
  · rw [add_nr, add_load]
    omega
  · rw [add_nr] at h
    rw [ha.zero (by omega), hb.zero (by omega), add_zero]

theorem Proper.sum {l : List Counts} (h : ∀ n ∈ l, n.Proper) : l.sum.Proper := by
  induction l with
  | nil => exact Proper.nil
  | cons n l ih =>
    exact (h n mem_cons_self).add (ih fun m hm => h m (mem_cons_of_mem _ hm))

end Counts

structure GroupRq.Valid (q : GroupRq) : Prop where
  seWeight : 0 < q.seWeight
  shares : minShares ≤ q.tgShares
  fits : q.counts.Fits
  tgIdle : q.tgIdle = q.idle

theorem GroupRq.Valid.idleBelow_nonneg {q : GroupRq} (h : q.Valid) : 0 ≤ q.idleBelow := by
  obtain ⟨-, -, -, hh, hi⟩ := h.fits
  rw [idleBelow]
  split
  · exact hh
  · exact hi

theorem Counts.proper_entity {w h i : Int} (idle : Bool) (hw : 0 < w) (hh : 0 ≤ h) (hi : 0 ≤ i) :
    (ofEntity w idle + ofTasks h i).Proper := by
  have hb : 0 ≤ idle.toInt := by cases idle <;> decide
  refine ⟨?_, ?_, ?_⟩
  · simp only [Counts.Fits, ofEntity, ofTasks, add_nr, add_load, add_idleNr,
      add_h, add_idleH]
    omega
  · simp only [ofEntity, ofTasks, add_nr, add_load]
    omega
  · intro h0
    simp [ofEntity, ofTasks] at h0

theorem GroupRq.Valid.share_proper {q : GroupRq} (h : q.Valid) : q.share.Proper := by
  rw [share]
  split
  · exact Counts.proper_entity _ h.seWeight h.fits.2.2.2.1 h.idleBelow_nonneg
  · exact Counts.Proper.nil

theorem Task.share_proper {t : Task} (h : 0 < t.weight) : t.share.Proper :=
  Counts.proper_entity _ h (by decide) (by cases t.idle <;> decide)

namespace Rq

variable (T : Tree)

structure Sound (s : Rq) : Prop where
  valid : ∀ g, (s.cfs g).Valid
  weight : ∀ t ∈ s.tasks, 0 < t.weight
  group : ∀ t ∈ s.tasks, t.group < T.size
  exact : s.underflow = false
  root : (s.cfs 0).throttled = false

/-- The counters are right but for `d`, which is missing at the first of `cs`, or above the root. -/
def Lacks (cs : List Nat) (d : Counts) (s : Rq) : Prop :=
  (∀ x, s.gap T x = if cs.head? = some x then d else 0) ∧
    s.nrRunning + (if cs = [] then d.hNrRunning else 0) = (s.cfs 0).counts.hNrRunning

/-- The entity of a group is where it should be, for all groups but those in `ex`. -/
def SeOk (ex : List Nat) (s : Rq) : Prop :=
  ∀ g, g ≠ 0 → g < T.size → g ∉ ex →
    ((s.cfs g).seOnRq = true ↔ 0 < (s.cfs g).counts.nrRunning ∧ (s.cfs g).throttled = false)

/-- All is right, but for the entities of the groups in `ex`. -/
structure Resting (ex : List Nat) (s : Rq) : Prop where
  sound : s.Sound T
  even : s.Lacks T [] 0
  se : s.SeOk T ex

abbrev Settled (s : Rq) : Prop := s.Resting T []

variable {T} {s : Rq} {b c g x : Nat}

theorem lacks_zero (cs : List Nat) : s.Lacks T cs 0 ↔ s.Lacks T [] 0 := by
  simp [Lacks]

theorem Sound.ne_zero_of_throttled (h : s.Sound T) (ht : (s.cfs c).throttled = true) : c ≠ 0 := by
  rintro rfl
  rw [h.root] at ht
  cases ht

theorem Sound.sums_proper (h : s.Sound T) (g : Nat) : (s.sums T g).Proper := by
  refine Counts.Proper.add (Counts.Proper.sum fun n hn => ?_) (Counts.Proper.sum fun n hn => ?_)
  · obtain ⟨t, ht, rfl⟩ := mem_map.1 hn
    exact Task.share_proper (h.weight t (mem_of_mem_filter ht))
  · obtain ⟨b, -, rfl⟩ := mem_map.1 hn
    exact (h.valid b).share_proper

theorem counts_add_gap (g : Nat) : (s.cfs g).counts + s.gap T g = s.sums T g := add_sub_cancel _ _

/-! ## Keeping `Sound` -/

theorem Sound.upd (h : s.Sound T) {f : GroupRq → GroupRq} (hf : (f (s.cfs b)).Valid)
    (hr : b = 0 → (f (s.cfs b)).throttled = false) : (s.upd b f).Sound T where
  valid := by
    intro g
    rw [upd_cfs]
    split
    · next hg => exact hg ▸ hf
    · exact h.valid g
  weight := h.weight
  group := h.group
  exact := h.exact
  root := by
    rw [upd_cfs]
    split
    · next h0 => exact h0 ▸ hr h0.symm
    · exact h.root

theorem Sound.add (h : s.Sound T) {d : Counts} (hd : ((s.cfs c).counts + d).Fits) : (s.add c d).Sound T := by
  have hv := h.valid c
  have hu := h.upd (f := fun q => { q with counts := q.counts + d }) (b := c) ⟨hv.seWeight, hv.shares, hd, hv.tgIdle⟩
    fun h0 => by subst h0; exact h.root
  refine ⟨hu.valid, hu.weight, hu.group, ?_, hu.root⟩
  show (s.underflow || !decide ((s.cfs c).counts + d).Fits) = false
  simp [h.exact, hd]

theorem Sound.add_gap (h : s.Sound T) {d : Counts} (hd : s.gap T c = d) : (s.add c d).Sound T :=
  h.add (by rw [← hd, counts_add_gap]; exact (h.sums_proper c).fits)

/-! ## The way up -/

/-- The missing tasks are added at `c`, and are now missing above it, if it is on the runqueue above. -/
theorem Lacks.addTasks {h i : Int} (hc : c < T.size) (hl : s.Lacks T (c :: T.above c) (.ofTasks h i)) :
    (s.addTasks c h i).Lacks T (T.above c)
      (if c = 0 ∨ (s.cfs c).seOnRq = true then .ofTasks h (s.idleDelta c h i) else 0) := by
  obtain ⟨hgap, htop⟩ := hl
  have hnr : s.nrRunning = (s.cfs 0).counts.hNrRunning := by simpa using htop
  have hpass : ∀ x, (s.addTasks c h i).gap T x = if c ∈ T.children x then (s.cfs c).passed (.ofTasks h i) else 0 := by
    intro x
    rw [Rq.addTasks, gap_add, hgap]
    by_cases hx : x = c
    · subst hx; simp
    · simp [hx, Ne.symm hx]
  by_cases hc0 : c = 0
  · subst hc0
    refine ⟨fun x => ?_, ?_⟩
    · rw [hpass]; simp
    · show s.nrRunning + _ = _
      rw [if_pos (T.above_zero), if_pos (.inl rfl), hnr]
      rfl
  · have hhead : ∀ x, (T.above c).head? = some x ↔ c ∈ T.children x := by
      intro x
      rw [T.above_of_ne hc0, T.path_eq_cons, T.mem_children]
      simp [hc, hc0]
    refine ⟨fun x => ?_, ?_⟩
    · rw [hpass]
      simp only [hhead]
      simp only [hc0, false_or]
      rfl
    · rw [T.above_of_ne hc0, T.path_eq_cons]
      have h0 : ((s.addTasks c h i).cfs 0) = s.cfs 0 := if_neg (Ne.symm hc0)
      rw [h0]
      show s.nrRunning + _ = _
      simpa using hnr

theorem Sound.addTasks {h i : Int} {cs : List Nat} (hs : s.Sound T) (hl : s.Lacks T (c :: cs) (.ofTasks h i)) :
    (s.addTasks c h i).Sound T :=
  hs.add_gap (by rw [hl.1]; simp)

/-- The counters of a runqueue, while some tasks are missing in it: it is empty if it has no load, or no entity. -/
theorem Sound.empty_iff (hs : s.Sound T) {h i : Int} (hg : s.gap T c = .ofTasks h i) :
    (s.cfs c).counts.nrRunning = 0 ↔ (s.cfs c).counts.load = 0 := by
  have hp := (hs.sums_proper c).load_iff
  rw [← counts_add_gap, hg] at hp
  simpa [ofTasks] using hp

end Rq

/-! ## Entities -/

namespace Entity

variable (T : Tree) (s : Rq)

def tasks : Entity → Int
  | task _ => 1
  | group b => (s.cfs b).counts.hNrRunning

/-- The tasks in an entity that its runqueue counts as idle ones. -/
def idleTasks : Entity → Int
  | task t => t.idle.toInt
  | group b => (s.cfs b).idleBelow

/-- `cfs_rq_of(se) == c` -/
def In (c : Nat) : Entity → Prop
  | task t => t.group = c ∧ c < T.size
  | group b => b ∈ T.children c

/-- The entity itself is on its runqueue, not only one with its number. -/
def Present : Entity → Prop
  | task t => t ∈ s.tasks
  | group b => (s.cfs b).seOnRq = true

/-- The runqueues `for_each_sched_entity` goes through from here. -/
def walk : Entity → List Nat
  | task t => T.path t.group
  | group b => T.above b

def share (e : Entity) : Counts := .ofEntity (e.weight s) (e.isIdle s) + .ofTasks (e.tasks s) (e.idleTasks s)

variable {T} {s} {c x : Nat}

theorem In.lt {e : Entity} (h : e.In T c) : c < T.size := by
  cases e with
  | task t => exact h.2
  | group b =>
    obtain ⟨hb, hb0, rfl⟩ := T.mem_children.1 h
    exact (T.parent_lt hb0).trans hb

end Entity

namespace Rq

variable {T : Tree} {s : Rq} {b c g x : Nat} {e : Entity}

theorem gap_enter (hin : e.In T c) (hoff : e.onRq s = false) :
    (s.setOnRq e true).gap T x = s.gap T x + if x = c then e.share s else 0 := by
  cases e with
  | task t =>
    obtain ⟨rfl, -⟩ := hin
    simp only [eq_comm (a := x)]
    exact s.gap_push T t
  | group b =>
    obtain ⟨hb, hb0, rfl⟩ := T.mem_children.1 hin
    have hoff : (s.cfs b).seOnRq = false := hoff
    rw [setOnRq, gap_upd _ _ _ rfl]
    simp only [T.mem_children, hb, hb0, ne_eq, not_false_iff, true_and, eq_comm (a := x)]
    simp [share, hoff, Entity.share, Entity.weight, Entity.isIdle, Entity.tasks, Entity.idleTasks,
      idleBelow]

theorem gap_leave (hin : e.In T c) (hon : e.Present s) :
    (s.setOnRq e false).gap T x = s.gap T x - if x = c then e.share s else 0 := by
  cases e with
  | task t =>
    obtain ⟨rfl, -⟩ := hin
    simp only [eq_comm (a := x)]
    exact s.gap_erase T hon
  | group b =>
    obtain ⟨hb, hb0, rfl⟩ := T.mem_children.1 hin
    have hon : (s.cfs b).seOnRq = true := hon
    rw [setOnRq, gap_upd _ _ _ rfl, sub_eq_add_neg]
    simp only [T.mem_children, hb, hb0, ne_eq, not_false_iff, true_and, eq_comm (a := x)]
    by_cases hx : T.parent b = x
    · simp only [hx, if_true, share, hon, Entity.share, Entity.weight, Entity.isIdle, Entity.tasks,
        Entity.idleTasks, Bool.false_eq_true, if_false]
      abel
    · simp [hx]

theorem gap_add_local {d : Counts} (hh : d.hNrRunning = 0) (hi : d.idleHNrRunning = 0) :
    (s.add c d).gap T x = s.gap T x - if x = c then d else 0 := by
  have hp : (s.cfs c).passed d = 0 := by simp [passed, hh, hi]
  rw [gap_add, hp, ite_self, add_zero]

/-! ## Weights -/

structure Reweighed (s s' : Rq) : Prop where
  tasks : s'.tasks = s.tasks
  nrRunning : s'.nrRunning = s.nrRunning
  leaf : s'.leaf = s.leaf
  cfs : ∀ x, ∃ w l, s'.cfs x = { s.cfs x with seWeight := w, counts := { (s.cfs x).counts with load := l } }

theorem Reweighed.refl : Reweighed s s := ⟨rfl, rfl, rfl, fun x => ⟨(s.cfs x).seWeight, (s.cfs x).counts.load, rfl⟩⟩

theorem Reweighed.weight (b : Nat) (w : Int) : Reweighed s (s.upd b fun q => { q with seWeight := w }) := by
  refine ⟨rfl, rfl, rfl, fun x => ?_⟩
  by_cases hx : x = b
  · exact ⟨w, _, by rw [upd_cfs, if_pos hx]⟩
  · exact ⟨_, _, by rw [upd_cfs, if_neg hx]⟩

theorem Reweighed.load (c : Nat) (w : Int) : Reweighed s (s.add c (.ofLoad w)) := by
  refine ⟨rfl, rfl, rfl, fun x => ?_⟩
  by_cases hx : x = c
  · refine ⟨(s.cfs x).seWeight, (s.cfs x).counts.load + w, ?_⟩
    have hsum : (s.cfs x).counts + .ofLoad w = { (s.cfs x).counts with load := (s.cfs x).counts.load + w } := by
      ext <;> simp [ofLoad]
    rw [add_cfs, if_pos hx, hsum]
  · exact ⟨_, _, by rw [add_cfs, if_neg hx]⟩

theorem Reweighed.trans {t u : Rq} (h : Reweighed s t) (h' : Reweighed t u) : Reweighed s u := by
  refine ⟨h'.tasks.trans h.tasks, h'.nrRunning.trans h.nrRunning, h'.leaf.trans h.leaf, fun x => ?_⟩
  obtain ⟨w, l, hx⟩ := h.cfs x
  obtain ⟨w', l', hx'⟩ := h'.cfs x
  exact ⟨w', l', by rw [hx', hx]⟩

theorem reweightEntity_reweighed (c b : Nat) (w : Int) : Reweighed s (s.reweightEntity c b w) := by
  unfold reweightEntity
  split
  · exact ((Reweighed.load c _).trans (Reweighed.weight b w)).trans (Reweighed.load c w)
  · exact Reweighed.weight b w

theorem updateCfsGroup_reweighed (o : Env) (c : Nat) (e : Entity) : Reweighed s (s.updateCfsGroup o c e) := by
  unfold updateCfsGroup
  split
  · exact Reweighed.refl
  · split
    · exact Reweighed.refl
    · exact reweightEntity_reweighed c _ _

theorem gap_weight (hb : b ∈ T.children c) (w : Int) : (s.upd b fun q => { q with seWeight := w }).gap T x =
    s.gap T x + if x = c ∧ (s.cfs b).seOnRq = true then .ofLoad (w - (s.cfs b).seWeight) else 0 := by
  obtain ⟨hlt, hb0, rfl⟩ := T.mem_children.1 hb
  rw [gap_upd _ _ _ rfl]
  simp only [T.mem_children, hlt, hb0, ne_eq, not_false_iff, true_and]
  by_cases hx : T.parent b = x
  · by_cases hon : (s.cfs b).seOnRq = true
    · simp only [hx, hon, if_true, and_self, share, idleBelow]
      ext <;> simp [ofEntity, ofTasks, ofLoad, sub_eq_add_neg]
    · simp [hx, hon, share]
  · simp [hx, Ne.symm hx]

theorem gap_reweightEntity (hb : b ∈ T.children c) (w : Int) : (s.reweightEntity c b w).gap T x = s.gap T x := by
  have hbc : b ≠ c := fun h => by
    have hlt := T.lt_of_child hb
    omega
  unfold reweightEntity
  split
  · next hon =>
    have hcfs : (s.add c (-.ofLoad (s.cfs b).seWeight)).cfs b = s.cfs b := by rw [add_cfs, if_neg hbc]
    rw [gap_add_local rfl rfl, gap_weight hb, gap_add_local rfl rfl, hcfs]
    by_cases hx : x = c
    · simp only [hx, hon, and_self, if_true]
      ext <;> simp [ofLoad, sub_eq_add_neg]
      omega
    · simp [hx]
  · next hoff => rw [gap_weight hb]; simp [hoff]

/-! ## `Sound` under the entity operations -/

theorem Sound.seOnRq_upd (hs : s.Sound T) (b : Nat) (on : Bool) : (s.upd b fun q => { q with seOnRq := on }).Sound T := by
  have hv := hs.valid b
  exact hs.upd ⟨hv.seWeight, hv.shares, hv.fits, hv.tgIdle⟩ fun h0 => by subst h0; exact hs.root

theorem Sound.setOnRq_true (hs : s.Sound T) (hin : e.In T c) (hw : 0 < e.weight s) : (s.setOnRq e true).Sound T := by
  cases e with
  | task t =>
    obtain ⟨rfl, hlt⟩ := hin
    refine ⟨hs.valid, fun u hu => ?_, fun u hu => ?_, hs.exact, hs.root⟩
    · rcases mem_cons.1 hu with rfl | hu
      · exact hw
      · exact hs.weight u hu
    · rcases mem_cons.1 hu with rfl | hu
      · exact hlt
      · exact hs.group u hu
  | group b => exact hs.seOnRq_upd b true

theorem Sound.setOnRq_false (hs : s.Sound T) (e : Entity) : (s.setOnRq e false).Sound T := by
  cases e with
  | task t =>
    exact ⟨hs.valid, fun u hu => hs.weight u (mem_of_mem_erase hu), fun u hu => hs.group u (mem_of_mem_erase hu),
      hs.exact, hs.root⟩
  | group b => exact hs.seOnRq_upd b false

theorem setOnRq_counts (e : Entity) (on : Bool) : ((s.setOnRq e on).cfs x).counts = (s.cfs x).counts := by
  cases e with
  | task t => rfl
  | group b =>
    rw [setOnRq, upd_cfs]
    split <;> rfl

theorem Sound.fits_without (hs : s.Sound T) (hin : e.In T c) (hon : e.Present s) : (s.sums T c - e.share s).Fits := by
  have hl := gap_leave (x := c) hin hon
  rw [if_pos rfl, gap, setOnRq_counts, gap] at hl
  have heq : (s.setOnRq e false).sums T c = s.sums T c - e.share s := by
    rw [sub_eq_iff_eq_add] at hl
    rw [hl]
    abel
  rw [← heq]
  exact ((hs.setOnRq_false e).sums_proper c).fits

theorem Sound.fits_sub (hs : s.Sound T) (hin : e.In T c) (hon : e.Present s) {h i : Int}
    (hg : s.gap T c = .ofTasks h i) : ((s.cfs c).counts + -.ofEntity (e.weight s) (e.isIdle s)).Fits := by
  have hf := hs.fits_without hin hon
  have hv := (hs.valid c).fits
  rw [← counts_add_gap, hg, sub_eq_add_neg] at hf
  simp only [Entity.share, Counts.Fits, ofEntity, ofTasks, add_nr, add_load,
    add_idleNr, add_h, add_idleH, neg_nr, neg_load, neg_idleNr, neg_h,
    neg_idleH] at hf hv ⊢
  omega

theorem calcGroupShares_pos {n m : Int} (hm : minShares ≤ m) : 0 < calcGroupShares n m := by
  simp only [calcGroupShares, minShares] at *
  omega

theorem Sound.weight_upd (hs : s.Sound T) {w : Int} (hw : 0 < w) (b : Nat) :
    (s.upd b fun q => { q with seWeight := w }).Sound T := by
  have hv := hs.valid b
  exact hs.upd ⟨hw, hv.shares, hv.fits, hv.tgIdle⟩ fun h0 => by subst h0; exact hs.root

theorem Sound.reweightEntity (hs : s.Sound T) (hb : b ∈ T.children c) {h i : Int} (hg : s.gap T c = .ofTasks h i)
    {w : Int} (hw : 0 < w) : (s.reweightEntity c b w).Sound T := by
  have hgap := gap_reweightEntity (s := s) (x := c) hb w
  have hbc : c ≠ b := fun h => by
    have hlt := T.lt_of_child hb
    omega
  unfold Rq.reweightEntity at hgap ⊢
  split
  · next hon =>
    have hsub := hs.fits_sub (e := .group b) hb hon hg
    have hv := (hs.valid c).fits
    have hfirst : (s.add c (-.ofLoad (s.cfs b).seWeight)).Sound T := by
      refine hs.add ?_
      simp only [Entity.weight, Counts.Fits, ofEntity, ofLoad, add_nr, add_load,
        add_idleNr, add_h, add_idleH, neg_nr, neg_load, neg_idleNr,
        neg_h, neg_idleH] at hsub hv ⊢
      omega
    refine (hfirst.weight_upd hw b).add ?_
    have hfits := (hfirst.valid c).fits
    rw [upd_cfs_ne _ _ hbc]
    simp only [Counts.Fits, ofLoad, add_nr, add_load, add_idleNr, add_h,
      add_idleH] at hfits ⊢
    omega
  · exact hs.weight_upd hw b

theorem updateCfsGroup_spec (o : Env) (hs : s.Sound T) (hin : e.In T c) {h i : Int} (hg : s.gap T c = .ofTasks h i) :
    (s.updateCfsGroup o c e).Sound T ∧ ∀ x, (s.updateCfsGroup o c e).gap T x = s.gap T x := by
  cases e with
  | task t => exact ⟨hs, fun _ => rfl⟩
  | group b =>
    unfold updateCfsGroup
    dsimp only
    split
    · exact ⟨hs, fun _ => rfl⟩
    · exact ⟨hs.reweightEntity hin hg (calcGroupShares_pos (hs.valid b).shares), fun x => gap_reweightEntity hin _⟩

theorem Lacks.reweighed {s' : Rq} {cs : List Nat} {d : Counts} (hl : s.Lacks T cs d) (hr : Reweighed s s')
    (hg : ∀ x, s'.gap T x = s.gap T x) : s'.Lacks T cs d := by
  refine ⟨fun x => (hg x).trans (hl.1 x), ?_⟩
  obtain ⟨w, l, h0⟩ := hr.cfs 0
  rw [hr.nrRunning, h0]
  exact hl.2

theorem SeOk.reweighed {s' : Rq} {ex : List Nat} (hse : s.SeOk T ex) (hr : Reweighed s s') : s'.SeOk T ex := by
  intro g hg0 hg hex
  obtain ⟨w, l, h⟩ := hr.cfs g
  rw [h]
  exact hse g hg0 hg hex

end Rq

end KernelSched.Group
