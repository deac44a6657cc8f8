import KernelSched.Rt.Stack

/-!
# A task that is saved and restored

With `DEQUEUE_SAVE` alone, `dequeue_rt_entity` leaves the task and the groups above on their lists, and
`enqueue_rt_entity` finds them there. This works as long as the lists do not have to change: a group that is throttled,
or not, has to be so while the task is out and after it is back. Then the entities that are on the runqueue in the end
are those that are on the lists.
-/

namespace KernelSched.Rt.Rq

open Rooted

variable {n : Nat} {T : Tree} {s₀ s r u : Rq n} {c g : Nat} {e x : Entity n} {flags : Flags} {on : Bool} {p : Fin n}

/-! ## The stack of a task -/

/-- The task, and the groups from `g` upwards. -/
def OnStack (T : Tree) (p : Fin n) (g : Nat) : Entity n → Prop
  | .task q => q = p
  | .group x => x ∈ T.path g ∧ x ≠ 0

theorem OnStack.unique (hp : (s.task p).group = g) (he : OnStack T p g e) (hx : OnStack T p g x)
    (h : s.rtRqOfSe T x = s.rtRqOfSe T e) : x = e := by
  have hlow : ∀ y, y ∈ T.path g → y ≠ 0 → T.parent y < g := fun y hy hy0 =>
    (T.parent_lt hy0).trans_le (T.le_of_mem_path hy)
  -- a group above the other is not above its parent
  have habove : ∀ {y z : Nat}, y ≠ 0 → z ≠ 0 → T.parent y = T.parent z → y ∈ T.path z → y = z := by
    intro y z hy0 hz0 hyz hmem
    rcases T.mem_path_iff.1 hmem with rfl | ⟨-, hmem⟩
    · rfl
    · have hle := T.le_of_mem_path hmem
      have hlt := T.parent_lt hy0
      omega
  cases e with
  | task q =>
    obtain rfl : q = p := he
    cases x with
    | task q' => exact congrArg Entity.task hx
    | group y =>
      have := hlow y hx.1 hx.2
      have hy : T.parent y = g := h.trans hp
      omega
  | group y =>
    cases x with
    | task q =>
      obtain rfl : q = p := hx
      have := hlow y he.1 he.2
      have hy : T.parent y = g := h.symm.trans hp
      omega
    | group z =>
      rcases T.path_chain he.1 hx.1 with hmem | hmem
      · exact congrArg Entity.group (habove he.2 hx.2 h.symm hmem).symm
      · exact congrArg Entity.group (habove hx.2 he.2 h hmem)

theorem OnStack.home_mem (hp : (s.task p).group = g) (he : OnStack T p g e) : s.rtRqOfSe T e ∈ T.path g := by
  cases e with
  | task q =>
    obtain rfl : q = p := he
    have hhome : s.rtRqOfSe T (.task q) = g := hp
    rw [hhome]
    exact T.mem_path_self
  | group y => exact T.mem_path_trans (T.parent_mem_path he.2) he.1

/-! ## The lists are held -/

/-- From `s₀` to `s`, only entities of the stack were taken off their runqueues, or put back; the lists are the same. -/
structure Held (T : Tree) (p : Fin n) (g : Nat) (s₀ s : Rq n) : Prop where
  kept : s.Kept T (OnStack T p g)
  group : (s.task p).group = g
  onList : s.onList = s₀.onList
  others : ∀ x, ¬ OnStack T p g x → s.onRq x = s₀.onRq x
  home : ∀ x, s.rtRqOfSe T x = s₀.rtRqOfSe T x
  elsewhere : ∀ x, x ∉ T.path g → s.rt x = s₀.rt x

theorem Held.turned (h : Held T p g s₀ s) (ht : Turned T e on s r) (he : OnStack T p g e)
    (hk : r.Kept T (OnStack T p g)) (hl : r.onList = s.onList) : Held T p g s₀ r := by
  refine ⟨hk, ?_, hl.trans h.onList, fun x hx => ?_, fun x => ?_, fun x hx => ?_⟩
  · rw [ht.task]
    exact h.group
  · rw [ht.onRq, if_neg fun (heq : x = e) => hx (heq ▸ he)]
    exact h.others x hx
  · rw [rtRqOfSe_congr ht.task]
    exact h.home x
  · rw [ht.elsewhere x fun heq => hx (heq ▸ he.home_mem h.group)]
    exact h.elsewhere x hx

theorem Held.inside (h : Held T p g s₀ s) (hi : Inside s r) : Held T p g s₀ r := by
  refine ⟨h.kept.inside hi, ?_, hi.onList.trans h.onList, fun x hx => ?_, fun x => ?_, fun x hx => ?_⟩
  · rw [hi.task]
    exact h.group
  · rw [hi.onRq]
    exact h.others x hx
  · rw [rtRqOfSe_congr hi.task]
    exact h.home x
  · rw [hi.rt]
    exact h.elsewhere x hx

theorem Held.nr_ne_zero (h : Held T p g s₀ s) (h₀ : s₀.Kept T fun _ => False) (hne : (s.rt c).counts.rtNrRunning ≠ 0) :
    (s₀.rt c).counts.rtNrRunning ≠ 0 := by
  obtain ⟨x, hx, hxc⟩ := h.kept.tallies.nr_ne_zero.1 hne
  have hl : s₀.onList x = true := h.onList ▸ h.kept.listed x hx
  exact h₀.tallies.nr_ne_zero.2 ⟨x, (h₀.onList_eq x).symm.trans hl, (h.home x).symm.trans hxc⟩

/-! ## Downwards -/

theorem dequeue_still_onList (hm : flags.moveEntity = false) (e : Entity n) (s : Rq n) :
    (s.__dequeueRtEntity T flags e).onList = s.onList := by
  rw [__dequeueRtEntity, hm]
  rfl

theorem enqueue_still_onList (hm : flags.moveEntity = false) (hb : s.blocked e = false) :
    (s.__enqueueRtEntity T flags e).onList = s.onList := by
  rw [still_eq hm hb]
  rfl

theorem Held.dequeueBack (hm : flags.moveEntity = false) (h : Held T p g s₀ s) (hcg : c ∈ T.path g) :
    Held T p g s₀ (s.dequeueBack T flags (groupStack T n c)) ∧ (s.dequeueBack T flags (groupStack T n c)).AboveOff T c ∧
      Outside s (s.dequeueBack T flags (groupStack T n c)) := by
  induction c using T.root_induction with
  | zero =>
    refine ⟨h, fun x hx => ?_, .refl s⟩
    obtain rfl : x = 0 := by simpa using hx
    exact h.kept.onRq_of_onList h.kept.root_off
  | step c hc ih =>
    obtain ⟨hh, hoff, hout⟩ := ih (T.mem_path_trans (T.parent_mem_path hc) hcg)
    rw [dequeueBack_of_ne hc]
    generalize s.dequeueBack T flags (groupStack T n (T.parent c)) = u at hh hoff hout
    split
    · next hon =>
      have ht := dequeue_turned (T := T) flags (.group c) u
      have hS : OnStack T p g (.group c) := ⟨hcg, hc⟩
      have hk := hh.kept.dequeue_still hm hon hS (hoff _ T.mem_path_self)
      refine ⟨hh.turned ht hS hk (dequeue_still_onList hm _ u), hoff.child hc ?_ fun x hx => ?_, hout.trans ht.outside⟩
      · rw [ht.onRq, if_pos rfl]
      · rw [ht.onRq, if_neg fun heq => hx (Entity.group.inj heq)]
    · next hoffc => exact ⟨hh, hoff.child hc (by simpa using hoffc) fun _ _ => rfl, hout⟩

/-! ## Upwards -/

theorem enqueue_elsewhere (flags : Flags) {y : Nat} (hy : y ≠ s.rtRqOfSe T e) :
    (s.__enqueueRtEntity T flags e).rt y = s.rt y := by
  cases hb : s.blocked e with
  | true =>
    rw [__enqueueRtEntity, if_pos hb]
    split
    · exact if_neg hy
    · rfl
  | false => exact (enqueue_turned hb flags).elsewhere y hy

theorem foldl_groupStack_rt {f : Rq n → Entity n → Rq n}
    (hf : ∀ (s : Rq n) x y, y ≠ T.parent x → (f s (.group x)).rt y = s.rt y) {y : Nat} (hy : c ≤ y) :
    ((groupStack T n c).foldl f s).rt y = s.rt y := by
  induction c using T.root_induction generalizing s with
  | zero => rfl
  | step c hc ih =>
    have hlt := T.parent_lt hc
    rw [groupStack_of_ne hc, List.foldl_cons, ih (by omega), hf s c y (by omega)]

theorem throttled_congr (h : r.rt c = s.rt c) : r.rtRqThrottled c = s.rtRqThrottled c := by
  simp only [rtRqThrottled, h]

section

variable (h : Held T p g s₀ u) (h₀ : s₀.Sound T)

include h h₀

section

variable (hc : c ≠ 0) (hlt : c < T.size) (hthr : u.rtRqThrottled c = s₀.rtRqThrottled c)

include hc hlt hthr

theorem Held.onList_of_blocked (hb : u.blocked (.group c) = true)
    (hne : (u.rt c).counts.rtNrRunning ≠ 0) : u.onList (.group c) = false := by
  have hthr₀ : s₀.rtRqThrottled c = true := by
    rw [← hthr]
    simpa [blocked, hne] using hb
  rw [h.onList, h₀.kept.onList_eq]
  by_contra hon
  have := (h₀.groups c hc hlt id).1 (by simpa using hon)
  simp [blocked, hthr₀] at this

theorem Held.onList_of_free (hb : u.blocked (.group c) = false) : u.onList (.group c) = true := by
  have hfree : u.rtRqThrottled c = false := by
    simp only [blocked, Bool.or_eq_false_iff] at hb
    exact hb.1
  have hb₀ : s₀.blocked (.group c) = false := by
    simp [blocked, ← hthr, hfree, h.nr_ne_zero h₀.kept (nr_ne_zero_of_not_blocked hb)]
  rw [h.onList]
  exact h₀.kept.listed _ ((h₀.groups c hc hlt id).2 hb₀)

/-- A group is put back where it is listed; one that is throttled is not. -/
theorem Held.putGroup (hm : flags.moveEntity = false) (hcg : c ∈ T.path g) (hoff : u.AboveOff T c)
    (hne : (u.rt c).counts.rtNrRunning ≠ 0 ∨ u.onList (.group c) = false) :
    Held T p g s₀ (u.__enqueueRtEntity T flags (.group c)) ∧ Outside u (u.__enqueueRtEntity T flags (.group c)) ∧
      (u.onList (.group c) = true → (u.__enqueueRtEntity T flags (.group c)).onRq (.group c) = true) ∧
        ∀ x, x ≠ c → (u.__enqueueRtEntity T flags (.group c)).onRq (.group x) = u.onRq (.group x) := by
  have hS : OnStack T p g (.group c) := ⟨hcg, hc⟩
  cases hb : u.blocked (.group c) with
  | true =>
    have hl : u.onList (.group c) = false := hne.elim (h.onList_of_blocked h₀ hc hlt hthr hb) id
    have hstay : u.__enqueueRtEntity T flags (.group c) = u := by
      rw [__enqueueRtEntity, if_pos hb, if_neg (by rw [hl]; exact Bool.false_ne_true)]
    rw [hstay]
    exact ⟨h, .refl u, fun hon => absurd (hl.symm.trans hon) Bool.false_ne_true, fun _ _ => rfl⟩
  | false =>
    have ht := enqueue_turned (T := T) hb flags
    have hl := h.onList_of_free h₀ hc hlt hthr hb
    have hk := h.kept.enqueue_still hl (fun x hx => hS.unique h.group hx) hm hb (hoff c T.mem_path_self)
      (hoff _ (T.parent_mem_path hc))
    refine ⟨h.turned ht hS hk (enqueue_still_onList hm hb), ht.outside, fun _ => ?_, fun x hx => ?_⟩
    · rw [ht.onRq, if_pos rfl]
    · rw [ht.onRq, if_neg fun heq => hx (Entity.group.inj heq)]

end

/-- The loop of `dequeue_rt_entity`. -/
theorem Held.requeueGroups (hm : flags.moveEntity = false) (hg : g < T.size) (hcg : c ∈ T.path g) (hoff : u.AboveOff T c)
    (hthr : ∀ x ∈ T.path c, x ≠ 0 → (u.requeueStack T flags (groupStack T n c)).rtRqThrottled x = s₀.rtRqThrottled x) :
    Held T p g s₀ (u.requeueStack T flags (groupStack T n c)) ∧
        Outside u (u.requeueStack T flags (groupStack T n c)) := by
  induction c using T.root_induction generalizing u with
  | zero => exact ⟨h, .refl u⟩
  | step c hc ih =>
    have hlt := T.parent_lt hc
    have hup := T.mem_path_trans (T.parent_mem_path hc) hcg
    have hcons : ∀ v : Rq n, v.requeueStack T flags (groupStack T n c) =
        (if v.holdsTasks (.group c) then v.__enqueueRtEntity T flags (.group c) else v).requeueStack T flags
          (groupStack T n (T.parent c)) := by
      intro v
      rw [groupStack_of_ne hc]
      rfl
    have hframe : ∀ v : Rq n, (v.requeueStack T flags (groupStack T n (T.parent c))).rt c = v.rt c := fun v =>
      foldl_groupStack_rt (fun w x y hy => by
        split
        · exact enqueue_elsewhere flags hy
        · rfl) hlt.le
    have hthr' : ∀ x ∈ T.path (T.parent c), x ≠ 0 → _ := fun x hx => hthr x (T.mem_path_iff.2 (.inr ⟨hc, hx⟩))
    have hthrc := hthr c T.mem_path_self hc
    rw [hcons] at hthrc ⊢
    simp only [hcons] at hthr'
    rw [throttled_congr (hframe _)] at hthrc
    cases hh : u.holdsTasks (.group c) with
    | false =>
      simp only [hh, Bool.false_eq_true, if_false] at hthr' ⊢
      exact ih h hup (hoff.parent hc) hthr'
    | true =>
      simp only [hh, if_true] at hthr' hthrc ⊢
      have hnr : (u.rt c).counts.rtNrRunning ≠ 0 := by simpa [holdsTasks] using hh
      rw [throttled_congr (enqueue_elsewhere flags hlt.ne')] at hthrc
      obtain ⟨hheld, hout, -, hothers⟩ := h.putGroup h₀ hc ((T.le_of_mem_path hcg).trans_lt hg) hthrc hm hcg
        hoff (.inl hnr)
      obtain ⟨hheld', hout'⟩ := ih hheld hup (hoff.up hc hothers) hthr'
      exact ⟨hheld', hout.trans hout'⟩

/-- A group on a list has an entity, and if those of the stack are back, all of its entities are. -/
theorem Held.nr_or_off (hbelow : ∀ x, OnStack T p g x → s₀.rtRqOfSe T x = c → u.onList x = true → u.onRq x = true) :
    (u.rt c).counts.rtNrRunning ≠ 0 ∨ u.onList (.group c) = false := by
  cases hl : u.onList (.group c) with
  | false => exact .inr rfl
  | true =>
    have hon : s₀.onRq (.group c) = true := by
      rw [← h₀.kept.onList_eq, ← h.onList]
      exact hl
    obtain ⟨x, hx, hxc⟩ := h₀.kept.tallies.nr_ne_zero.1 (h₀.kept.tallies.full c hon).ne'
    refine .inl (h.kept.tallies.nr_ne_zero.2 ⟨x, ?_, (h.home x).trans hxc⟩)
    by_cases hS : OnStack T p g x
    · refine hbelow x hS hxc ?_
      rw [h.onList]
      exact h₀.kept.listed x hx
    · rw [h.others x hS]
      exact hx

/-- The loop of `enqueue_rt_entity`: the groups on the lists are all on their runqueues again. -/
theorem Held.enqueueGroups (hm : flags.moveEntity = false) (hg : g < T.size) (hcg : c ∈ T.path g) (hoff : u.AboveOff T c)
    (hbelow : ∀ x, OnStack T p g x → s₀.rtRqOfSe T x = c → u.onList x = true → u.onRq x = true)
    (hthr : ∀ x ∈ T.path c, x ≠ 0 → (u.enqueueStack T flags (groupStack T n c)).rtRqThrottled x = s₀.rtRqThrottled x) :
    Held T p g s₀ (u.enqueueStack T flags (groupStack T n c)) ∧ Outside u (u.enqueueStack T flags (groupStack T n c)) ∧
      (∀ x ∈ T.path c, x ≠ 0 → s₀.onList (.group x) = true →
        (u.enqueueStack T flags (groupStack T n c)).onRq (.group x) = true) ∧
        ∀ x, x ∉ T.path c → (u.enqueueStack T flags (groupStack T n c)).onRq (.group x) = u.onRq (.group x) := by
  induction c using T.root_induction generalizing u with
  | zero =>
    refine ⟨h, .refl u, fun x hx hx0 => absurd ?_ hx0, fun _ _ => rfl⟩
    simpa using hx
  | step c hc ih =>
    have hlt := T.parent_lt hc
    have hup := T.mem_path_trans (T.parent_mem_path hc) hcg
    have hcons : u.enqueueStack T flags (groupStack T n c) =
        (u.__enqueueRtEntity T flags (.group c)).enqueueStack T flags (groupStack T n (T.parent c)) := by
      rw [groupStack_of_ne hc]
      rfl
    have hframe : ((u.__enqueueRtEntity T flags (.group c)).enqueueStack T flags (groupStack T n (T.parent c))).rt c =
        u.rt c :=
      (foldl_groupStack_rt (fun w x y hy => enqueue_elsewhere flags hy) hlt.le).trans (enqueue_elsewhere flags hlt.ne')
    have hthr' : ∀ x ∈ T.path (T.parent c), x ≠ 0 → _ := fun x hx => hthr x (T.mem_path_iff.2 (.inr ⟨hc, hx⟩))
    have hthrc := hthr c T.mem_path_self hc
    rw [hcons] at hthrc hthr' ⊢
    rw [throttled_congr hframe] at hthrc
    have hsize : c < T.size := (T.le_of_mem_path hcg).trans_lt hg
    obtain ⟨hheld, hout, hon, hothers⟩ := h.putGroup h₀ hc hsize hthrc hm hcg hoff (h.nr_or_off h₀ hbelow)
    obtain ⟨hheld', hout', hlisted, hrest⟩ := ih hheld hup (hoff.up hc hothers) (fun x hS hx hl => by
        obtain rfl : x = .group c := OnStack.unique (s := s₀) ((h.home (.task p)).symm.trans h.group)
          (⟨hcg, hc⟩ : OnStack T p g (.group c)) hS hx
        refine hon ?_
        rw [h.onList, ← hheld.onList]
        exact hl) hthr'
    refine ⟨hheld', hout.trans hout', fun x hx hx0 hl => ?_, fun x hx => ?_⟩
    · rcases T.mem_path_iff.1 hx with rfl | ⟨-, hx⟩
      · rw [hrest x fun hmem => (T.le_of_mem_path hmem).not_gt hlt]
        exact hon (h.onList ▸ hl)
      · exact hlisted x hx hx0 hl
    · rw [hrest x fun hmem => hx (T.mem_path_iff.2 (.inr ⟨hc, hmem⟩))]
      refine hothers x ?_
      rintro rfl
      exact hx T.mem_path_self

end

/-! ## Out and back -/

theorem Sound.held (h₀ : s₀.Sound T) (p : Fin n) : Held T p (s₀.task p).group s₀ s₀ := by
  have hk := h₀.kept
  refine ⟨⟨hk.lists, hk.tallies, hk.highest, hk.listed, fun x hx => .inl ?_⟩, rfl, rfl, fun _ _ => rfl, fun _ => rfl,
    fun _ _ => rfl⟩
  exact (hk.off x hx).resolve_right id

theorem Held.group_off (h : Held T p g s₀ u) (hoff : u.AboveOff T g) :
    u.onRq (.group (u.rtRqOfSe T (.task p))) = false := by
  rw [show u.rtRqOfSe T (.task p) = g from h.group]
  exact hoff g T.mem_path_self

theorem Held.dequeueTask (hm : flags.moveEntity = false) (h : Held T p g s₀ u) (hoff : u.AboveOff T g)
    (hon : u.onRq (.task p) = true) : Held T p g s₀ (u.__dequeueRtEntity T flags (.task p)) ∧
      (u.__dequeueRtEntity T flags (.task p)).AboveOff T g := by
  have ht := dequeue_turned (T := T) flags (.task p) u
  have hS : OnStack T p g (.task p) := rfl
  refine ⟨h.turned ht hS (h.kept.dequeue_still hm hon hS (h.group_off hoff)) (dequeue_still_onList hm _ u),
    fun x hx => ?_⟩
  rw [ht.onRq, if_neg nofun]
  exact hoff x hx

theorem Sound.dequeue_saved (h₀ : s₀.Sound T) (hm : flags.moveEntity = false) (hon : s₀.onRq (.task p) = true)
    (hthr : ∀ x ∈ T.path (s₀.task p).group, x ≠ 0 →
      (s₀.dequeueRtEntity T flags (.task p)).rtRqThrottled x = s₀.rtRqThrottled x) :
    Held T p (s₀.task p).group s₀ (s₀.dequeueRtEntity T flags (.task p)) ∧
      (s₀.dequeueRtEntity T flags (.task p)).onRq (.task p) = false ∧ (s₀.dequeueRtEntity T flags (.task p)).TopOk := by
  have hg : (s₀.task p).group < T.size := h₀.kept.tallies.there _ hon
  obtain ⟨hheld, hoff, hout⟩ := (h₀.held p).dequeueBack hm T.mem_path_self
  have heq : s₀.dequeueBack T flags (s₀.stack T (.task p)) =
      (s₀.dequeueBack T flags (groupStack T n (s₀.task p).group)).__dequeueRtEntity T flags (.task p) :=
    if_pos ((hout.onTask p).trans hon)
  have hfold : s₀.dequeueRtEntity T flags (.task p) =
      ((s₀.dequeueRtStack T flags (s₀.stack T (.task p))).requeueStack T flags
        (groupStack T n (s₀.task p).group)).enqueueTopRtRq := rfl
  rw [hfold, dequeueRtStack, heq] at hthr ⊢
  generalize s₀.dequeueBack T flags (groupStack T n (s₀.task p).group) = u at hheld hoff hout hthr ⊢
  have ht := dequeue_turned (T := T) flags (.task p) u
  obtain ⟨hheld₁, hoff₁⟩ := hheld.dequeueTask hm hoff ((hout.onTask p).trans hon)
  have hi := dequeueTop_inside (s₀.rt 0).counts.rtNrRunning (u.__dequeueRtEntity T flags (.task p))
  obtain ⟨hq, hnr⟩ := h₀.top.dequeueTop (ht.queued.trans hout.queued) (ht.nrRunning.trans hout.nrRunning)
  have hgone : ((u.__dequeueRtEntity T flags (.task p)).dequeueTopRtRq (s₀.rt 0).counts.rtNrRunning).onRq
      (.task p) = false := by
    rw [hi.onRq, ht.onRq, if_pos rfl]
  have hoff₂ : ((u.__dequeueRtEntity T flags (.task p)).dequeueTopRtRq (s₀.rt 0).counts.rtNrRunning).AboveOff T
      (s₀.task p).group := fun x hx => by
    rw [hi.onRq]
    exact hoff₁ x hx
  have hheld₂ := hheld₁.inside hi
  generalize (u.__dequeueRtEntity T flags (.task p)).dequeueTopRtRq (s₀.rt 0).counts.rtNrRunning = v at *
  have htop := enqueueTop_inside (v.requeueStack T flags (groupStack T n (s₀.task p).group))
  obtain ⟨hheld₃, hout₃⟩ := hheld₂.requeueGroups h₀ hm hg T.mem_path_self hoff₂ fun x hx hx0 => by
    rw [← hthr x hx hx0]
    exact (throttled_congr (congrFun htop.rt x)).symm
  refine ⟨hheld₃.inside htop, ?_, ?_⟩
  · rw [htop.onRq, hout₃.onTask]
    exact hgone
  · exact (topOk_of_closed (hout₃.queued.trans hq) (hout₃.nrRunning.trans hnr)).enqueueTop

theorem Held.setTask (h : Held T p g s₀ s) (hoff : s.onRq (.task p) = false) {a : RtTask}
    (hgroup : a.group = (s.task p).group) (hprio : a.prio = (s.task p).prio) : Held T p g s₀ (s.setTask p a) := by
  have hself : (s.setTask p a).task p = a := if_pos rfl
  refine ⟨h.kept.setTask hoff fun _ => ⟨hgroup, hprio⟩, ?_, h.onList, h.others, fun x => ?_, h.elsewhere⟩
  · rw [hself, hgroup]
    exact h.group
  · rw [← h.home x]
    cases x with
    | group y => rfl
    | task q =>
      by_cases hq : q = p
      · subst hq
        simp only [rtRqOfSe, hself, hgroup]
      · exact congrArg RtTask.group (if_neg hq)

/-- With all entities of the lists back, and the groups throttled as before, all is as it was. -/
theorem Held.sound (h : Held T p g s₀ s) (h₀ : s₀.Sound T)
    (hback : ∀ x, OnStack T p g x → s₀.onList x = true → s.onRq x = true)
    (hthr : ∀ x ∈ T.path g, x ≠ 0 → s.rtRqThrottled x = s₀.rtRqThrottled x) (htop : s.TopOk) : s.Sound T := by
  have hlisted : ∀ x, s.onList x = true → s.onRq x = true := by
    intro x hx
    have hx₀ : s₀.onList x = true := h.onList ▸ hx
    by_cases hS : OnStack T p g x
    · exact hback x hS hx₀
    · exact (h.kept.off x hx).resolve_right hS
  have hk : s.Kept T fun _ => False :=
    ⟨h.kept.lists, h.kept.tallies, h.kept.highest, h.kept.listed, fun x hx => .inl (hlisted x hx)⟩
  have hon : ∀ x, s.onRq x = s₀.onRq x := by
    intro x
    rw [← hk.onList_eq, h.onList, h₀.kept.onList_eq]
  refine ⟨hk, fun x hx0 hx _ => ?_, htop⟩
  have hsame : s.blocked (.group x) = s₀.blocked (.group x) := by
    by_cases hmem : x ∈ T.path g
    · have hin : ∀ y, s.isIn T x y ↔ s₀.isIn T x y := fun y => by rw [isIn, isIn, hon, h.home]
      have hnr : (s.rt x).counts.rtNrRunning ≠ 0 ↔ (s₀.rt x).counts.rtNrRunning ≠ 0 := by
        rw [hk.tallies.nr_ne_zero, h₀.kept.tallies.nr_ne_zero]
        exact exists_congr hin
      rw [blocked, blocked, hthr x hmem hx0]
      congr 1
      exact decide_eq_decide.2 (not_iff_not.1 hnr)
    · exact blocked_congr (h.elsewhere x hmem)
  rw [hon, hsame]
  exact h₀.groups x hx0 hx id

/-- A task is put back into its group. -/
theorem Held.enqueueTask (hm : flags.moveEntity = false) (h : Held T p g s₀ u) (hoff : u.AboveOff T g)
    (hl : s₀.onList (.task p) = true) (hgone : u.onRq (.task p) = false) :
    Held T p g s₀ (u.__enqueueRtEntity T flags (.task p)) ∧ (u.__enqueueRtEntity T flags (.task p)).AboveOff T g ∧
      (u.__enqueueRtEntity T flags (.task p)).onRq (.task p) = true := by
  have ht := enqueue_turned (T := T) (s := u) (e := .task p) rfl flags
  have hS : OnStack T p g (.task p) := rfl
  have hk := h.kept.enqueue_still (h.onList ▸ hl) (fun x hx => hS.unique h.group hx) hm rfl hgone (h.group_off hoff)
  refine ⟨h.turned ht hS hk (enqueue_still_onList hm rfl), fun x hx => ?_, ?_⟩
  · rw [ht.onRq, if_neg nofun]
    exact hoff x hx
  · rw [ht.onRq, if_pos rfl]

theorem Held.restore (h : Held T p g s₀ s) (h₀ : s₀.Sound T) (hm : flags.moveEntity = false)
    (hgone : s.onRq (.task p) = false) (htop : s.TopOk) (hg : g < T.size) (hl : s₀.onList (.task p) = true)
    (hthr : ∀ x ∈ T.path g, x ≠ 0 → (s.enqueueRtEntity T flags (.task p)).rtRqThrottled x = s₀.rtRqThrottled x) :
    (s.enqueueRtEntity T flags (.task p)).Sound T := by
  obtain ⟨hheld, hoff, hout⟩ := h.dequeueBack hm T.mem_path_self
  have hstack : s.stack T (.task p) = .task p :: groupStack T n g := by rw [stack, h.group]
  have heq : s.dequeueBack T flags (s.stack T (.task p)) = s.dequeueBack T flags (groupStack T n g) := by
    rw [hstack]
    exact if_neg fun hon => Bool.false_ne_true (((hout.onTask p).trans hgone).symm.trans hon)
  have hfold : s.enqueueRtEntity T flags (.task p) =
    (((s.dequeueRtStack T flags (s.stack T (.task p))).__enqueueRtEntity T
      flags (.task p)).enqueueStack T flags (groupStack T n g)).enqueueTopRtRq := by
    rw [enqueueRtEntity, enqueueStack, hstack]
    rfl
  rw [hfold, dequeueRtStack, heq] at hthr ⊢
  generalize s.dequeueBack T flags (groupStack T n g) = u at hheld hoff hout hthr ⊢
  have hi := dequeueTop_inside (s.rt 0).counts.rtNrRunning u
  obtain ⟨hq, hnr⟩ := htop.dequeueTop hout.queued hout.nrRunning
  have hheld₁ := hheld.inside hi
  have hoff₁ : (u.dequeueTopRtRq (s.rt 0).counts.rtNrRunning).AboveOff T g := fun x hx => by
    rw [hi.onRq]
    exact hoff x hx
  have hgone₁ : (u.dequeueTopRtRq (s.rt 0).counts.rtNrRunning).onRq (.task p) = false := by
    rw [hi.onRq, hout.onTask]
    exact hgone
  generalize u.dequeueTopRtRq (s.rt 0).counts.rtNrRunning = v at *
  have ht := enqueue_turned (T := T) (s := v) (e := .task p) rfl flags
  obtain ⟨hheld₂, hoff₂, hon₂⟩ := hheld₁.enqueueTask hm hoff₁ hl hgone₁
  generalize v.__enqueueRtEntity T flags (.task p) = w at *
  have hup := enqueueTop_inside (w.enqueueStack T flags (groupStack T n g))
  obtain ⟨hheld₃, hout₃, hgroups, -⟩ := hheld₂.enqueueGroups h₀ hm hg T.mem_path_self hoff₂ (fun x hS hx _ => by
      obtain rfl : x = .task p := OnStack.unique (s := w) hheld₂.group rfl hS (by
        rw [hheld₂.home, hx]
        exact hheld₂.group.symm)
      exact hon₂) fun x hx hx0 => by
    rw [← hthr x hx hx0]
    exact (throttled_congr (congrFun hup.rt x)).symm
  have htop₃ : (w.enqueueStack T flags (groupStack T n g)).TopOk :=
    topOk_of_closed (hout₃.queued.trans (ht.queued.trans hq)) (hout₃.nrRunning.trans (ht.nrRunning.trans hnr))
  refine (hheld₃.inside hup).sound h₀ (fun x hS hx => ?_) hthr htop₃.enqueueTop
  rw [hup.onRq]
  cases x with
  | task q =>
    obtain rfl : q = p := hS
    rw [hout₃.onTask]
    exact hon₂
  | group y => exact hgroups y hS.1 hS.2 hx

end KernelSched.Rt.Rq
