import KernelSched.Rt.Kept

/-!
# The entities above a task

`dequeue_rt_stack` takes the entities of all groups above out, from the root downwards; the loops of `enqueue_rt_entity`
and `dequeue_rt_entity` put them back from below, but for those of throttled or empty groups. `SeOk ex` says that the
entity of every group is on the runqueue exactly if it should be, but for the groups in `ex`, which are those above that
are still to be put back.
-/

namespace KernelSched.Rt.Rq

open Rooted List

variable {n : Nat} {T : Tree} {s r u : Rq n} {S : Entity n → Prop} {ex : Nat → Prop} {c g : Nat} {e x : Entity n}
  {flags : Flags} {on : Bool} {f : Rq n → Entity n → Rq n}

/-! ## Groups that are queued -/

/-- But for the groups in `ex`, a group is on the runqueue of its parent exactly if it is unthrottled and not empty. -/
def SeOk (T : Tree) (ex : Nat → Prop) (s : Rq n) : Prop :=
  ∀ g, g ≠ 0 → g < T.size → ¬ ex g → (s.onRq (.group g) = true ↔ s.blocked (.group g) = false)

theorem blocked_congr (h : r.rt g = s.rt g) : r.blocked (.group g) = s.blocked (.group g) := by
  simp only [blocked, rtRqThrottled, h]

theorem SeOk.mono {ex' : Nat → Prop} (h : s.SeOk T ex) (hex : ∀ g, g ≠ 0 → ex g → ex' g) : s.SeOk T ex' :=
  fun g hg0 hg hno => h g hg0 hg fun hin => hno (hex g hg0 hin)

theorem Turned.seOk (ht : Turned T e on s r) (h : s.SeOk T ex) (he : ∀ g, e = .group g → ex g)
    (hc : s.rtRqOfSe T e ≠ 0 → ex (s.rtRqOfSe T e)) : r.SeOk T ex := by
  intro g hg0 hg hno
  have hne : (Entity.group g : Entity n) ≠ e := fun heq => hno (he g heq.symm)
  have hgc : g ≠ s.rtRqOfSe T e := by
    rintro rfl
    exact hno (hc hg0)
  rw [ht.onRq, if_neg hne, blocked_congr (ht.elsewhere g hgc)]
  exact h g hg0 hg hno

theorem Kept.congr (h : s.Kept T S) (ht : r.task = s.task) (hon : r.onRq = s.onRq) (hl : r.onList = s.onList)
    (hq : ∀ c, (r.rt c).queue = (s.rt c).queue) (hb : ∀ c, (r.rt c).bitmap = (s.rt c).bitmap)
    (hcounts : ∀ c, (r.rt c).counts = (s.rt c).counts) (hhigh : ∀ c, (r.rt c).highestPrio = (s.rt c).highestPrio) :
    r.Kept T S := by
  have hsums : ∀ c, r.sums T c = s.sums T c := by
    intro c
    refine congrArg List.sum (map_congr_left fun e _ => ?_)
    have hin : r.isIn T c e ↔ s.isIn T c e := by simp only [isIn, hon, rtRqOfSe_congr ht]
    by_cases hs : s.isIn T c e
    · rw [if_pos hs, if_pos (hin.2 hs)]
      exact share_congr ht fun g _ => hcounts g
    · rw [if_neg hs, if_neg fun hr => hs (hin.1 hr)]
  refine ⟨h.lists.congr ht hl hq hb, ⟨fun c => ?_, fun g hg => ?_, fun x hx => ?_⟩, fun c => ?_, fun x hx => ?_,
    fun x hx => ?_⟩
  · rw [hcounts, hsums]
    exact h.tallies.counts c
  · rw [hcounts]
    exact h.tallies.full g (hon ▸ hg)
  · rw [present_congr ht]
    exact h.tallies.there x (hon ▸ hx)
  · rw [HighestOk, hhigh, hcounts, hb]
    exact h.highest c
  · rw [hl]
    exact h.listed x (hon ▸ hx)
  · rw [hon]
    exact h.off x (hl ▸ hx)

theorem Kept.onList_eq (h : s.Kept T fun _ => False) (e : Entity n) : s.onList e = s.onRq e := by
  cases hl : s.onList e with
  | true => exact ((h.off e hl).resolve_right id).symm
  | false => exact (h.onRq_of_onList hl).symm

theorem Kept.root_off (h : s.Kept T S) : s.onList (.group 0) = false := by
  cases hl : s.onList (.group 0) with
  | false => rfl
  | true => exact absurd rfl (h.lists.there _ hl).1.1

/-! ## The stack -/

theorem groupStack_of_ne (hg : g ≠ 0) : groupStack T n g = .group g :: groupStack T n (T.parent g) := by
  have hne : T.path (T.parent g) ≠ [] := by
    rw [T.path_eq_cons]
    exact cons_ne_nil _ _
  rw [groupStack, T.path_of_ne hg, dropLast_cons_of_ne_nil hne]
  rfl

structure Outside (s r : Rq n) : Prop where
  task : r.task = s.task
  onTask : ∀ p, r.onRq (.task p) = s.onRq (.task p)
  queued : r.rtQueued = s.rtQueued
  nrRunning : r.nrRunning = s.nrRunning

theorem Outside.refl (s : Rq n) : Outside s s := ⟨rfl, fun _ => rfl, rfl, rfl⟩

theorem Outside.trans (h : Outside s u) (h' : Outside u r) : Outside s r :=
  ⟨h'.task.trans h.task, fun p => (h'.onTask p).trans (h.onTask p), h'.queued.trans h.queued,
    h'.nrRunning.trans h.nrRunning⟩

theorem Turned.outside (ht : Turned T (.group g) on s r) : Outside s r :=
  ⟨ht.task, fun _ => (ht.onRq _).trans (if_neg nofun), ht.queued, ht.nrRunning⟩

/-- No group from `c` upwards is on a runqueue. -/
def AboveOff (T : Tree) (c : Nat) (s : Rq n) : Prop := ∀ x ∈ T.path c, s.onRq (.group x) = false

theorem AboveOff.parent (h : s.AboveOff T c) (hc : c ≠ 0) : s.AboveOff T (T.parent c) := fun x hx =>
  h x (T.mem_path_iff.2 (.inr ⟨hc, hx⟩))

theorem AboveOff.up (h : s.AboveOff T c) (hc : c ≠ 0) (hothers : ∀ x, x ≠ c → r.onRq (.group x) = s.onRq (.group x)) :
    r.AboveOff T (T.parent c) := by
  intro x hx
  have hle := T.le_of_mem_path hx
  have hlt := T.parent_lt hc
  rw [hothers x (by omega)]
  exact h.parent hc x hx

theorem AboveOff.child (h : s.AboveOff T (T.parent c)) (hc : c ≠ 0) (hoff : r.onRq (.group c) = false)
    (hothers : ∀ x, x ≠ c → r.onRq (.group x) = s.onRq (.group x)) : r.AboveOff T c := by
  intro x hx
  rcases T.mem_path_iff.1 hx with rfl | ⟨-, hx⟩
  · exact hoff
  · have hne : x ≠ c := by
      have := T.le_of_mem_path hx
      have := T.parent_lt hc
      omega
    rw [hothers x hne]
    exact h x hx

/-- One round of `dequeue_rt_stack`. -/
theorem dequeueBack_of_ne (hc : c ≠ 0) (flags : Flags) (s : Rq n) : s.dequeueBack T flags (groupStack T n c) =
    if (s.dequeueBack T flags (groupStack T n (T.parent c))).onRq (.group c) then
      (s.dequeueBack T flags (groupStack T n (T.parent c))).__dequeueRtEntity T flags (.group c)
    else s.dequeueBack T flags (groupStack T n (T.parent c)) := by
  rw [groupStack_of_ne hc]
  rfl

/-! ## Downwards -/

theorem Kept.dequeueBack_move (hm : flags.moveEntity = true) (h : s.Kept T fun _ => False)
    (hse : s.SeOk T fun x => x ∈ T.path g) (hcg : c ∈ T.path g) :
    (s.dequeueBack T flags (groupStack T n c)).Kept T (fun _ => False) ∧
      (s.dequeueBack T flags (groupStack T n c)).SeOk T (fun x => x ∈ T.path g) ∧
        (s.dequeueBack T flags (groupStack T n c)).AboveOff T c ∧
          Outside s (s.dequeueBack T flags (groupStack T n c)) := by
  induction c using T.root_induction with
  | zero =>
    refine ⟨h, hse, fun x hx => ?_, .refl s⟩
    obtain rfl : x = 0 := by simpa using hx
    exact h.onRq_of_onList h.root_off
  | step c hc ih =>
    obtain ⟨hk, hse', hoff, hout⟩ := ih (T.mem_path_trans (T.parent_mem_path hc) hcg)
    rw [dequeueBack_of_ne hc]
    generalize s.dequeueBack T flags (groupStack T n (T.parent c)) = u at hk hse' hoff hout
    split
    · next hon =>
      have ht := dequeue_turned (T := T) flags (.group c) u
      have hd : u.onList (.group (T.parent c)) = false := (hk.onList_eq _).trans (hoff _ T.mem_path_self)
      refine ⟨hk.dequeue_move hm hon hd, ht.seOk hse' ?_ ?_, hoff.child hc ?_ fun x hx => ?_, hout.trans ht.outside⟩
      · rintro x hx
        cases hx
        exact hcg
      · exact fun _ => T.mem_path_trans (T.parent_mem_path hc) hcg
      · rw [ht.onRq, if_pos rfl]
      · rw [ht.onRq, if_neg fun heq => hx (Entity.group.inj heq)]
    · next hoffc => exact ⟨hk, hse', hoff.child hc (by simpa using hoffc) fun _ _ => rfl, hout⟩

/-! ## Upwards -/

/-- `f` is the step of one of the two loops that put the groups back. -/
def PutsBack (T : Tree) (flags : Flags) (f : Rq n → Entity n → Rq n) : Prop :=
  ∀ s g, s.onList (.group g) = false → f s (.group g) = s.__enqueueRtEntity T flags (.group g)

theorem putsBack_enqueue : PutsBack T flags fun (s : Rq n) e => s.__enqueueRtEntity T flags e := fun _ _ _ => rfl

theorem putsBack_requeue :
    PutsBack T flags fun (s : Rq n) e => if s.holdsTasks e then s.__enqueueRtEntity T flags e else s := by
  intro s g hoff
  dsimp only
  split
  · rfl
  · next hnone =>
    have hb : s.blocked (.group g) = true := by
      simp only [holdsTasks, ne_eq, decide_not, Bool.not_eq_eq_eq_not, Bool.not_true, decide_eq_false_iff_not,
        Decidable.not_not] at hnone
      simp [blocked, hnone]
    rw [__enqueueRtEntity, if_pos hb, if_neg (by rw [hoff]; exact Bool.false_ne_true)]

theorem Kept.putBack_move (hf : PutsBack T flags f) (hm : flags.moveEntity = true)
    (h : s.Kept T fun _ => False) (hse : s.SeOk T fun x => x ∈ T.path c) (hoff : s.AboveOff T c) (hc : c < T.size) :
    ((groupStack T n c).foldl f s).Kept T (fun _ => False) ∧ ((groupStack T n c).foldl f s).SeOk T (fun _ => False) ∧
      Outside s ((groupStack T n c).foldl f s) := by
  induction c using T.root_induction generalizing s with
  | zero => exact ⟨h, hse.mono fun g hg0 hg => hg0 (by simpa using hg), .refl s⟩
  | step c hc0 ih =>
    have hlist : ∀ x ∈ T.path c, s.onList (.group x) = false := fun x hx => (h.onList_eq _).trans (hoff x hx)
    have hlt := T.parent_lt hc0
    have hne : ∀ x ∈ T.path (T.parent c), x ≠ c := by
      intro x hx
      have := T.le_of_mem_path hx
      omega
    rw [groupStack_of_ne hc0, foldl_cons, hf s c (hlist c T.mem_path_self)]
    cases hb : s.blocked (.group c) with
    | true =>
      -- the group stays out
      have hstay : s.__enqueueRtEntity T flags (.group c) = s := by
        rw [__enqueueRtEntity, if_pos hb, if_neg (by rw [hlist c T.mem_path_self]; exact Bool.false_ne_true)]
      rw [hstay]
      refine ih h (fun g hg0 hg hno => ?_) (hoff.parent hc0) (hlt.trans hc)
      by_cases hgc : g = c
      · rw [hgc, hoff c T.mem_path_self, hb]
        exact iff_of_false Bool.false_ne_true Bool.noConfusion
      · refine hse g hg0 hg fun hmem => ?_
        rcases T.mem_path_iff.1 hmem with rfl | ⟨-, hmem⟩
        · exact hgc rfl
        · exact hno hmem
    | false =>
      have ht := enqueue_turned (T := T) hb flags
      have hk := h.enqueue_move hm hb ⟨hc0, hc⟩ (h.key_lt (nr_ne_zero_of_not_blocked hb)) (hlist c T.mem_path_self)
        (hlist _ (T.parent_mem_path hc0))
      have hstep := ih hk (fun g hg0 hg hno => ?_) (fun x hx => ?_) (hlt.trans hc)
      · exact ⟨hstep.1, hstep.2.1, ht.outside.trans hstep.2.2⟩
      · by_cases hgc : g = c
        · subst hgc
          rw [ht.onRq, if_pos rfl, blocked_congr (ht.elsewhere g hlt.ne'), hb]
          exact iff_of_true rfl rfl
        · have hno' : g ∉ T.path c := fun hmem => by
            rcases T.mem_path_iff.1 hmem with rfl | ⟨-, hmem⟩
            · exact hgc rfl
            · exact hno hmem
          have hgp : g ≠ T.parent c := by
            rintro rfl
            exact hno T.mem_path_self
          rw [ht.onRq, if_neg fun heq => hgc (Entity.group.inj heq), blocked_congr (ht.elsewhere g hgp)]
          exact hse g hg0 hg hno'
      · rw [ht.onRq, if_neg fun heq => hne x hx (Entity.group.inj heq)]
        exact hoff.parent hc0 x hx

/-! ## The top -/

/-- `rq->nr_running` counts the tasks of the root exactly if it is queued. -/
def TopOk (s : Rq n) : Prop := s.nrRunning = if s.rtQueued then (s.rt 0).counts.rtNrRunning else 0

/-- From `s` to `r`, only the top has changed. -/
structure Inside (s r : Rq n) : Prop where
  rt : r.rt = s.rt
  task : r.task = s.task
  onRq : r.onRq = s.onRq
  onList : r.onList = s.onList

theorem dequeueTop_inside (count : Int) (s : Rq n) : Inside s (s.dequeueTopRtRq count) := by
  unfold dequeueTopRtRq
  split <;> exact ⟨rfl, rfl, rfl, rfl⟩

theorem enqueueTop_inside (s : Rq n) : Inside s s.enqueueTopRtRq := by
  unfold enqueueTopRtRq
  split
  · exact ⟨rfl, rfl, rfl, rfl⟩
  · split
    · exact ⟨rfl, rfl, rfl, rfl⟩
    · split <;> exact ⟨rfl, rfl, rfl, rfl⟩

theorem Kept.inside (h : s.Kept T S) (hi : Inside s r) : r.Kept T S :=
  h.congr hi.task hi.onRq hi.onList (fun _ => by rw [hi.rt]) (fun _ => by rw [hi.rt]) (fun _ => by rw [hi.rt])
    fun _ => by rw [hi.rt]

theorem SeOk.inside (h : s.SeOk T ex) (hi : Inside s r) : r.SeOk T ex := by
  intro g hg0 hg hno
  rw [hi.onRq, blocked_congr (congrFun hi.rt g)]
  exact h g hg0 hg hno

theorem TopOk.dequeueTop (h : s.TopOk) (hq : u.rtQueued = s.rtQueued) (hnr : u.nrRunning = s.nrRunning) :
    (u.dequeueTopRtRq (s.rt 0).counts.rtNrRunning).rtQueued = false ∧
      (u.dequeueTopRtRq (s.rt 0).counts.rtNrRunning).nrRunning = 0 := by
  rw [TopOk] at h
  unfold dequeueTopRtRq
  cases hs : s.rtQueued with
  | false | true =>
    simp [hq, hs, hnr, h]

theorem TopOk.enqueueTop (h : s.TopOk) : s.enqueueTopRtRq.TopOk := by
  unfold enqueueTopRtRq
  split
  · exact h
  · next hq =>
    split
    · exact h
    · split
      · rw [TopOk, if_neg hq] at h
        simp [TopOk, h]
      · exact h

theorem topOk_of_closed (hq : s.rtQueued = false) (hnr : s.nrRunning = 0) : s.TopOk := by
  rw [TopOk, hq, hnr]
  rfl

/-! ## What holds between operations -/

structure Sound (T : Tree) (s : Rq n) : Prop where
  kept : s.Kept T fun _ => False
  groups : s.SeOk T fun _ => False
  top : s.TopOk

/-- All groups from `g` upwards are out, and so is the root. -/
structure Open (T : Tree) (g : Nat) (s : Rq n) : Prop where
  kept : s.Kept T fun _ => False
  groups : s.SeOk T fun x => x ∈ T.path g
  above : s.AboveOff T g
  queued : s.rtQueued = false
  nrRunning : s.nrRunning = 0

theorem Open.inside (h : s.Kept T fun _ => False) (hse : s.SeOk T fun x => x ∈ T.path g) (hoff : s.AboveOff T g)
    (hi : Inside s r) (hq : r.rtQueued = false) (hnr : r.nrRunning = 0) : r.Open T g :=
  ⟨h.inside hi, hse.inside hi, fun x hx => by rw [hi.onRq]; exact hoff x hx, hq, hnr⟩

theorem Open.turned (h : s.Open T g) {p : Fin n} (ht : Turned T (.task p) on s r) (hp : (s.task p).group = g)
    (hk : r.Kept T fun _ => False) : r.Open T g := by
  refine ⟨hk, ht.seOk h.groups nofun fun _ => ?_, fun x hx => ?_, ht.queued.trans h.queued,
    ht.nrRunning.trans h.nrRunning⟩
  · have hhome : s.rtRqOfSe T (.task p) = g := hp
    rw [hhome]
    exact T.mem_path_self
  · rw [ht.onRq, if_neg nofun]
    exact h.above x hx

theorem Open.close (h : s.Open T g) (hf : PutsBack T flags f) (hm : flags.moveEntity = true)
    (hg : g < T.size) : ((groupStack T n g).foldl f s).enqueueTopRtRq.Sound T ∧
      ∀ p, ((groupStack T n g).foldl f s).enqueueTopRtRq.onRq (.task p) = s.onRq (.task p) := by
  obtain ⟨hk, hse, hout⟩ := h.kept.putBack_move hf hm h.groups h.above hg
  have htop : ((groupStack T n g).foldl f s).TopOk :=
    topOk_of_closed (hout.queued.trans h.queued) (hout.nrRunning.trans h.nrRunning)
  have hi := enqueueTop_inside ((groupStack T n g).foldl f s)
  refine ⟨⟨hk.inside hi, hse.inside hi, htop.enqueueTop⟩, fun p => ?_⟩
  rw [hi.onRq]
  exact hout.onTask p

theorem Open.taskOff (h : s.Open T g) {p : Fin n} (hp : (s.task p).group = g) :
    s.onList (.group (s.rtRqOfSe T (.task p))) = false := by
  have hhome : s.rtRqOfSe T (.task p) = g := hp
  rw [hhome, h.kept.onList_eq]
  exact h.above g T.mem_path_self

theorem open_groupStack (hm : flags.moveEntity = true) (h : s.Kept T fun _ => False)
    (hse : s.SeOk T fun x => x ∈ T.path g) (htop : s.TopOk) : (s.dequeueRtStack T flags (groupStack T n g)).Open T g := by
  obtain ⟨hk, hse', hoff, hout⟩ := h.dequeueBack_move hm hse T.mem_path_self
  obtain ⟨hq, hnr⟩ := htop.dequeueTop hout.queued hout.nrRunning
  exact .inside hk hse' hoff (dequeueTop_inside _ _) hq hnr

/-! ## Tasks -/

variable {p : Fin n}

section

variable (h : s.Sound T) (hm : flags.moveEntity = true)

include h hm

theorem Sound.open_task (hg : (s.task p).group = g) : (s.dequeueRtStack T flags (s.stack T (.task p))).Open T g ∧
      (s.dequeueRtStack T flags (s.stack T (.task p))).onRq (.task p) = false ∧
        (s.dequeueRtStack T flags (s.stack T (.task p))).task = s.task := by
  have hse : s.SeOk T fun x => x ∈ T.path g := h.groups.mono fun _ _ hno => hno.elim
  obtain ⟨hk, hse', hoff, hout⟩ := h.kept.dequeueBack_move hm hse T.mem_path_self
  have heq : s.dequeueBack T flags (s.stack T (.task p)) =
      if (s.dequeueBack T flags (groupStack T n g)).onRq (.task p) then
        (s.dequeueBack T flags (groupStack T n g)).__dequeueRtEntity T flags (.task p)
      else s.dequeueBack T flags (groupStack T n g) := by
    rw [stack, hg]
    rfl
  rw [dequeueRtStack, heq]
  generalize s.dequeueBack T flags (groupStack T n g) = u at hk hse' hoff hout
  split
  · next hon =>
    have hp : (u.task p).group = g := by rw [hout.task, hg]
    have ht := dequeue_turned (T := T) flags (.task p) u
    have hhome : u.rtRqOfSe T (.task p) = g := hp
    have hgc : u.onList (.group (u.rtRqOfSe T (.task p))) = false := by
      rw [hhome, hk.onList_eq]
      exact hoff g T.mem_path_self
    have hi := dequeueTop_inside (s.rt 0).counts.rtNrRunning (u.__dequeueRtEntity T flags (.task p))
    obtain ⟨hq, hnr⟩ := h.top.dequeueTop (ht.queued.trans hout.queued) (ht.nrRunning.trans hout.nrRunning)
    refine ⟨.inside (hk.dequeue_move hm hon hgc) (ht.seOk hse' nofun fun _ => ?_) (fun x hx => ?_) hi hq hnr, ?_, ?_⟩
    · rw [hhome]
      exact T.mem_path_self
    · rw [ht.onRq, if_neg nofun]
      exact hoff x hx
    · rw [hi.onRq, ht.onRq, if_pos rfl]
    · rw [hi.task, ht.task, hout.task]
  · next hoffp =>
    have hi := dequeueTop_inside (s.rt 0).counts.rtNrRunning u
    obtain ⟨hq, hnr⟩ := h.top.dequeueTop hout.queued hout.nrRunning
    refine ⟨.inside hk hse' hoff hi hq hnr, ?_, hi.task.trans hout.task⟩
    rw [hi.onRq]
    simpa using hoffp

theorem Sound.enqueueTask (hv : (s.task p).Valid T) : (s.enqueueRtEntity T flags (.task p)).Sound T := by
  obtain ⟨hopen, hoff, htask⟩ := h.open_task (p := p) hm rfl
  rw [enqueueRtEntity, enqueueStack, stack, foldl_cons, ← stack]
  generalize s.dequeueRtStack T flags (s.stack T (.task p)) = u at hopen hoff htask
  have hp : (u.task p).group = (s.task p).group := by rw [htask]
  have ht := enqueue_turned (T := T) (s := u) (e := .task p) rfl flags
  have hex : u.Present T (.task p) := hp.trans_lt hv.1
  have hkey : u.key (.task p) < maxRtPrio := by
    rw [key, htask]
    exact hv.2
  have hk := hopen.kept.enqueue_move hm rfl hex hkey ((hopen.kept.onList_eq _).trans hoff) (hopen.taskOff hp)
  exact ((hopen.turned ht hp hk).close putsBack_enqueue hm hv.1).1

theorem Sound.dequeueTask (hon : s.onRq (.task p) = true) :
    (s.dequeueRtEntity T flags (.task p)).Sound T ∧ (s.dequeueRtEntity T flags (.task p)).onRq (.task p) = false := by
  obtain ⟨hopen, hoff, -⟩ := h.open_task (p := p) hm rfl
  have hg : (s.task p).group < T.size := h.kept.tallies.there _ hon
  obtain ⟨hsound, htasks⟩ := hopen.close putsBack_requeue hm hg
  exact ⟨hsound, (htasks p).trans hoff⟩

end

/-- A task that is not on the runqueue is changed; on a list, it keeps its place. -/
theorem Kept.setTask (h : s.Kept T S) {a : RtTask} (hoff : s.onRq (.task p) = false)
    (hsame : s.onList (.task p) = true → a.group = (s.task p).group ∧ a.prio = (s.task p).prio) :
    (s.setTask p a).Kept T S := by
  have htask : ∀ q, q ≠ p → (s.setTask p a).task q = s.task q := fun q hq => if_neg hq
  have hself : (s.setTask p a).task p = a := if_pos rfl
  have hplace : ∀ x, s.onList x = true → (s.setTask p a).rtRqOfSe T x = s.rtRqOfSe T x ∧
      (s.setTask p a).key x = s.key x ∧ ((s.setTask p a).Present T x ↔ s.Present T x) := by
    intro x hx
    cases x with
    | group g => exact ⟨rfl, rfl, Iff.rfl⟩
    | task q =>
      by_cases hq : q = p
      · subst hq
        obtain ⟨hgroup, hprio⟩ := hsame hx
        simp only [rtRqOfSe, key, Present, hself, hgroup, hprio, true_and]
      · simp only [rtRqOfSe, key, Present, htask q hq, true_and]
  have hin : ∀ c x, (s.setTask p a).isIn T c x ↔ s.isIn T c x := fun c x =>
    and_congr_right fun hon => by rw [(hplace x (h.listed x hon)).1]
  have hsums : ∀ c, (s.setTask p a).sums T c = s.sums T c := by
    intro c
    refine congrArg List.sum (map_congr_left fun x _ => ?_)
    by_cases hx : s.isIn T c x
    · rw [if_pos hx, if_pos ((hin c x).2 hx)]
      cases x with
      | group g => rfl
      | task q =>
        have hq : q ≠ p := by
          rintro rfl
          exact Bool.false_ne_true (hoff.symm.trans hx.1)
        simp only [share, rtSeNrRunning, rtSeRrNrRunning, rtSeBoosted, htask q hq]
    · rw [if_neg hx, if_neg fun hr => hx ((hin c x).1 hr)]
  refine ⟨⟨h.lists.bit, fun c i x => ?_, fun x hx => ?_⟩, ⟨fun c => ?_, h.tallies.full, fun x hx => ?_⟩, h.highest,
    h.listed, h.off⟩
  · refine (h.lists.mem c i x).trans (and_congr_right fun hx => ?_)
    rw [(hplace x hx).1, (hplace x hx).2.1]
  · rw [(hplace x hx).2.2, (hplace x hx).2.1]
    exact h.lists.there x hx
  · rw [hsums]
    exact h.tallies.counts c
  · rw [(hplace x (h.listed x hx)).2.2]
    exact h.tallies.there x hx

theorem Sound.setTask (h : s.Sound T) (hoff : s.onRq (.task p) = false) (a : RtTask) : (s.setTask p a).Sound T := by
  refine ⟨h.kept.setTask hoff fun hl => ?_, h.groups, h.top⟩
  rw [h.kept.onList_eq, hoff] at hl
  cases hl

/-! ## Throttling -/

theorem setRtThrottled_rt (g x : Nat) (on : Bool) (s : Rq n) :
    (s.setRtThrottled g on).rt x = { s.rt x with rtThrottled := if x = g then on else (s.rt x).rtThrottled } := by
  rw [setRtThrottled, upd]
  dsimp only
  split <;> rfl

theorem Kept.setRtThrottled (h : s.Kept T S) (g : Nat) (on : Bool) : (s.setRtThrottled g on).Kept T S := by
  refine h.congr rfl rfl rfl (fun x => ?_) (fun x => ?_) (fun x => ?_) fun x => ?_ <;> rw [setRtThrottled_rt]

theorem TopOk.setRtThrottled (h : s.TopOk) (g : Nat) (on : Bool) : (s.setRtThrottled g on).TopOk := by
  rw [TopOk, setRtThrottled_rt]
  exact h

theorem SeOk.setRtThrottled (h : s.SeOk T fun _ => False) (g : Nat) (on : Bool) :
    (s.setRtThrottled g on).SeOk T fun x => x = g := by
  intro x hx0 hx hne
  have hrt : (s.setRtThrottled g on).rt x = s.rt x := if_neg hne
  rw [blocked_congr hrt]
  exact h x hx0 hx id

theorem SeOk.insert (h : s.SeOk T fun x => x = g)
    (hg : g ≠ 0 → (s.onRq (.group g) = true ↔ s.blocked (.group g) = false)) : s.SeOk T fun _ => False := by
  intro x hx0 hx _
  by_cases hxg : x = g
  · subst hxg
    exact hg hx0
  · exact h x hx0 hx hxg

/-- The entity of a group is taken out, with those above, and put back. -/
theorem Kept.cycle (hf : PutsBack T .none f) (h : s.Kept T fun _ => False)
    (hse : s.SeOk T fun x => x = g) (htop : s.TopOk) (hg : g < T.size) :
    ((groupStack T n g).foldl f (s.dequeueRtStack T .none (groupStack T n g))).enqueueTopRtRq.Sound T := by
  have hpath : s.SeOk T fun x => x ∈ T.path g := hse.mono fun x _ hx => hx ▸ T.mem_path_self
  exact ((open_groupStack rfl h hpath htop).close hf rfl hg).1

theorem Sound.throttle (h : s.Sound T) (hg : g < T.size) : (s.throttle T g).Sound T := by
  unfold Rq.throttle
  split
  · exact h
  · next hwas =>
    have hk := h.kept.setRtThrottled g true
    have hse := h.groups.setRtThrottled g true
    have htop := h.top.setRtThrottled g true
    have hblocked := h.groups g
    have hbefore : s.rtRqThrottled g = false := by simp [rtRqThrottled, hwas]
    have hrt : ∀ x, (s.setRtThrottled g true).rt x =
      { s.rt x with rtThrottled := if x = g then true else (s.rt x).rtThrottled } := fun x => setRtThrottled_rt g x true s
    have hon : (s.setRtThrottled g true).onRq = s.onRq := rfl
    dsimp only
    generalize s.setRtThrottled g true = u at hk hse htop hrt hon
    split
    · next hthr =>
      have hb : u.blocked (.group g) = true := by simp [blocked, hthr]
      unfold schedRtRqDequeue
      split
      · next hg0 =>
        obtain ⟨hq, hnr⟩ := htop.dequeueTop (u := u) rfl rfl
        have hi := dequeueTop_inside (u.rt 0).counts.rtNrRunning u
        exact ⟨hk.inside hi, (hse.insert fun hne => absurd hg0 hne).inside hi, topOk_of_closed hq hnr⟩
      · split
        · exact hk.cycle putsBack_requeue hse htop hg
        · next hoff =>
          refine ⟨hk, hse.insert fun _ => iff_of_false hoff ?_, htop⟩
          rw [hb]
          exact Bool.noConfusion
    · next hthr =>
      -- boosted: the group stays as it is
      refine ⟨hk, hse.insert fun hg0 => ?_, htop⟩
      have hsame : u.blocked (.group g) = s.blocked (.group g) := by
        simp only [blocked, hbefore, eq_false_of_ne_true hthr, hrt]
      rw [hon, hsame]
      exact hblocked hg0 hg id

theorem Sound.unthrottle (h : s.Sound T) (hg : g < T.size) : (s.unthrottle T g).Sound T := by
  have hk := h.kept.setRtThrottled g false
  have hse := h.groups.setRtThrottled g false
  have htop := h.top.setRtThrottled g false
  have hblocked := h.groups g
  have hrt : ∀ x, (s.setRtThrottled g false).rt x =
    { s.rt x with rtThrottled := if x = g then false else (s.rt x).rtThrottled } := fun x => setRtThrottled_rt g x false s
  have hon : (s.setRtThrottled g false).onRq = s.onRq := rfl
  unfold Rq.unthrottle schedRtRqEnqueue
  generalize s.setRtThrottled g false = u at hk hse htop hrt hon
  have hfree : u.rtRqThrottled g = false := by simp [rtRqThrottled, hrt]
  split
  · next hnr =>
    split
    · next hg0 =>
      have hi := enqueueTop_inside u
      exact ⟨hk.inside hi, (hse.insert fun hne => absurd hg0 hne).inside hi, htop.enqueueTop⟩
    · split
      · exact hk.cycle putsBack_enqueue hse htop hg
      · next hqueued =>
        refine ⟨hk, hse.insert fun _ => iff_of_true (by simpa using hqueued) ?_, htop⟩
        simp [blocked, hfree, hnr]
  · next hempty =>
    have hnr : (s.rt g).counts.rtNrRunning = 0 := by
      rw [hrt] at hempty
      simpa using hempty
    refine ⟨hk, hse.insert fun hg0 => ?_, htop⟩
    have hboth : u.blocked (.group g) = s.blocked (.group g) := by simp [blocked, hrt, hnr]
    rw [hon, hboth]
    exact hblocked hg0 hg id

end KernelSched.Rt.Rq
