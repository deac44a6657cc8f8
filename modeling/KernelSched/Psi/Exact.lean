import Mathlib.Algebra.BigOperators.Group.Finset.Piecewise
import KernelSched.Psi.Switch

/-!
# Pressure stall information: the books are exact after every run

A task's bits follow from where the scheduler has it (`expected`): with that, every hook clears bits that the task
has and sets bits that it does not have, and the books stay exact. A running task that has been dequeued keeps its bits
until the switch.
-/

namespace KernelSched.Psi

open Wrap Rooted Run Function Option Flags Psi.Task State
open State (currInMemstall_setTask setTask psiTaskChange_task psiTaskChange_curr enqueueClear enqueueSet memstallBits
    setTask_task memstallOf switchClear switchSet)

variable {P : Type} {H : Hierarchy} {s : State P} {now : U64} {p : P}

/-- The bits of a task of this CPU, from where it is -/
def expected (inMemstall inIowait isCurr : Bool) : Place → Flags
  | .away => .none
  | .detached => .none
  | .queued => awake inMemstall isCurr
  | .asleep => if isCurr then awake inMemstall true else slept inMemstall inIowait

structure Task.Ok (isCurr : Bool) (x : Task) : Prop where
  flags : x.place ≠ .away → x.flags = expected x.inMemstall x.inIowait isCurr x.place
  here : isCurr = true → x.place = .queued ∨ x.place = .asleep
  sections : x.place ≠ .away → ∃ n, x.sections = openSections n ∧ x.inMemstall = decide (0 < n)

variable [DecidableEq P] [Fintype P] {x : Task}

structure Inv (H : Hierarchy) (s : State P) : Prop extends Sound H s where
  tasks : ∀ p, (s.task p).Ok (decide (s.curr = some p))

namespace Inv

theorem of_update (h : Inv H s) {s' : State P} {x : Task} (hs : Sound H s')
    (htask : s'.task = update s.task p x) (hcurr : s'.curr = s.curr) (hx : x.Ok (decide (s.curr = some p))) :
      Inv H s' where
  toSound := hs
  tasks q := by
    rw [htask, hcurr]
    by_cases hq : q = p
    · subst hq
      rwa [update_self]
    · rw [update_of_ne hq]
      exact h.tasks q

theorem oncpu_iff (h : Inv H s) (hplace : (s.task p).place ≠ .away) : (s.task p).flags.oncpu = true ↔
    s.curr = some p := by
  have hok := h.tasks p
  rw [hok.flags hplace]
  by_cases hc : s.curr = some p
  · rcases hok.here (by simpa using hc) with hq | hq <;> simp [expected, hq, hc, awake]
  · cases hq : (s.task p).place <;> simp_all [expected, awake, slept, Flags.none]

theorem alone (h : Inv H s) (hc : s.curr = some p) : s.Alone H.tree p := by
  intro q hq g
  by_cases hplace : (s.task q).place = .away
  · simp [runs, within, hplace]
  · have hne : s.curr ≠ some q := by
      rw [hc]
      exact fun he => hq (some.inj he).symm
    have hoff : (s.task q).flags.oncpu = false := by simpa using mt (h.oncpu_iff hplace).1 hne
    rw [runs, hoff, Bool.and_false]

end Inv

/-! ## Tasks that come, go and move -/

theorem Task.weightless (h : x.place = .away ∨ x.flags = .none) (T : Tree) (g : ℕ) :
    (∀ t, x.weight T g t = 0) ∧ x.runs T g = false := by
  rcases h with h | h <;> simp [weight, runs, within, h, Flags.none]

theorem Sound.replace_weightless (hs : Sound H s)
    (h : (s.task p).place = .away ∨ (s.task p).flags = .none) (hx : x.place = .away ∨ x.flags = .none)
    (hm : (s.setTask p x).currInMemstall = s.currInMemstall) : Sound H (s.setTask p x) := by
  refine hs.replace (fun g t => ?_) (fun g => ?_) hm
  · rw [(weightless h H.tree g).1 t, (weightless hx H.tree g).1 t]
  · rw [(weightless h H.tree g).2, (weightless hx H.tree g).2]

theorem Sound.replace_same (hs : Sound H s) (hflags : x.flags = (s.task p).flags)
    (hgroup : x.group = (s.task p).group) (hplace : x.place = .away ↔ (s.task p).place = .away)
    (hm : x.inMemstall = (s.task p).inMemstall) : Sound H (s.setTask p x) := by
  have hwithin : ∀ g, x.within H.tree g = (s.task p).within H.tree g := fun g => by
    simp [within, hgroup, hplace]
  refine hs.replace (fun g t => ?_) (fun g => ?_) (currInMemstall_setTask hm)
  · rw [weight, weight, hwithin, hflags]
  · rw [runs, runs, hwithin, hflags]

namespace Inv

theorem not_curr (h : Inv H s) (hplace : (s.task p).place = .away ∨ (s.task p).place = .detached) : s.curr ≠ some p := by
  intro hc
  rcases (h.tasks p).here (by simpa using hc) with hq | hq <;> rcases hplace with hp | hp <;> simp [hp] at hq

theorem depart (h : Inv H s) (hplace : (s.task p).place = .detached) : Inv H (s.putAt p .away) := by
  have hnot := h.not_curr (.inr hplace)
  have hnone : (s.task p).flags = .none := by
    rw [(h.tasks p).flags (by simp [hplace]), hplace]
    rfl
  refine h.of_update (p := p) (h.toSound.replace_weightless (.inr hnone) (.inl rfl) (currInMemstall_setTask rfl))
    rfl rfl ⟨fun hne => absurd rfl hne, fun hc => ?_, fun hne => absurd rfl hne⟩
  exact absurd (by simpa using hc) hnot

theorem arrive (h : Inv H s) (hplace : (s.task p).place = .away) (group depth : ℕ) (inIowait : Bool) :
    Inv H (s.setTask p ⟨.none, decide (0 < depth), inIowait, group, .detached, openSections depth⟩) := by
  have hnot := h.not_curr (.inl hplace)
  refine h.of_update (p := p) (h.toSound.replace_weightless (.inl hplace) (.inr rfl)
    (currInMemstall_setTask_of_ne hnot)) rfl rfl ⟨fun _ => rfl, fun hc => ?_, fun _ => ⟨depth, rfl, rfl⟩⟩
  exact absurd (by simpa using hc) hnot

theorem setIowait (h : Inv H s) (hplace : (s.task p).place = .queued) (inIowait : Bool) :
    Inv H (s.setTask p { s.task p with inIowait := inIowait }) := by
  have hok := h.tasks p
  refine h.of_update (p := p) (h.toSound.replace_same rfl rfl Iff.rfl rfl) rfl rfl ⟨fun hne => ?_, hok.here, hok.sections⟩
  have hflags := hok.flags hne
  rw [hplace] at hflags
  rw [hplace]
  exact hflags

section

variable (hen : ∀ g, H.enabled g = true) (h : Inv H s)

include hen h

/-- A hook clears bits that the task has and sets bits that it does not have, and the task gets another place. -/
theorem changeAt {clear set : Flags} {place : Place}
    (hne : (s.task p).place ≠ .away) (hne' : place ≠ .away) (hsub : clear.Sub (s.task p).flags)
    (hdis : (s.task p).flags.Disjoint set) (hcurr : s.curr ≠ some p)
    (hflags : (s.task p).flags.change clear set = expected (s.task p).inMemstall (s.task p).inIowait false place) :
    Inv H ((s.psiTaskChange H p clear set now).putAt p place) := by
  have hok := h.tasks p
  have hoff : clear.oncpu = true → s.Alone H.tree p := fun hc =>
    absurd ((h.oncpu_iff hne).1 (hsub.2 hc)) hcurr
  have hsound : Sound H (s.psiTaskChange H p clear set now) :=
    h.toSound.taskChange hen hne hsub hdis hoff
  have htask : ((s.psiTaskChange H p clear set now).putAt p place).task =
      update s.task p { (s.task p).reflag clear set with place := place } := by
    rw [putAt, setTask, psiTaskChange_task, update_self, update_idem]
  refine h.of_update (hsound.replace_same rfl rfl ?_ rfl) htask psiTaskChange_curr ?_
  · rw [psiTaskChange_task, update_self]
    exact iff_of_false hne' hne
  · rw [decide_eq_false hcurr]
    exact ⟨fun _ => hflags, fun hc => absurd hc (by simp), fun _ => hok.sections hne⟩

theorem enqueue {wakeup : Bool}
    (hplace : (s.task p).place = if wakeup then .asleep else .detached) (hcurr : s.curr ≠ some p) :
    Inv H ((s.psiEnqueue H p wakeup now).putAt p .queued) := by
  have hne : (s.task p).place ≠ .away := by
    rw [hplace]
    cases wakeup <;> simp
  have hflags := (h.tasks p).flags hne
  rw [hplace, decide_eq_false hcurr] at hflags
  refine h.changeAt hen hne (by simp) ?_ ?_ hcurr ?_
  · refine ⟨fun t ht => ?_, fun hc => absurd hc (by simp [enqueueClear])⟩
    cases wakeup <;> simp_all [enqueueClear, expected, slept]
  · rw [hflags]
    refine ⟨fun t => ?_, by simp [enqueueSet]⟩
    cases wakeup <;> cases t <;> simp [enqueueSet, expected, slept, Flags.none]
  · rw [hflags]
    ext t
    · cases wakeup <;> cases t <;>
        simp [enqueueClear, enqueueSet, expected, awake, slept, Flags.none, Flags.change]
    · cases wakeup <;> rfl

theorem detach (hne : (s.task p).place ≠ .away) (hcurr : s.curr ≠ some p) :
    Inv H ((s.psiTaskChange H p (s.task p).flags .none now).putAt p .detached) :=
  h.changeAt hen hne (by simp) (sub_self _) (disjoint_none _) hcurr (change_self _)

theorem dequeue {sleep : Bool} (hplace : (s.task p).place = .queued) (hcurr : sleep = true ↔ s.curr = some p) :
    Inv H ((s.psiDequeue H p sleep now).putAt p (if sleep then .asleep else .detached)) := by
  have hne : (s.task p).place ≠ .away := by simp [hplace]
  have hok := h.tasks p
  cases sleep with
  | false => exact h.detach hen hne fun hc => absurd (hcurr.2 hc) (by simp)
  | true =>
    -- the bits stay until the switch
    refine h.of_update (p := p) (h.toSound.replace_same rfl rfl (iff_of_false (by simp) hne) rfl) rfl rfl
      ⟨fun _ => ?_, fun _ => .inr rfl, fun _ => hok.sections hne⟩
    have hflags := hok.flags hne
    rw [hplace, decide_eq_true (hcurr.1 rfl)] at hflags
    rw [decide_eq_true (hcurr.1 rfl)]
    exact hflags

theorem ttwuDequeue (hplace : (s.task p).place = .asleep)
    (hcurr : s.curr ≠ some p) : Inv H ((s.psiTtwuDequeue H p now).putAt p .detached) := by
  have hne : (s.task p).place ≠ .away := by simp [hplace]
  have hok := h.tasks p
  unfold psiTtwuDequeue
  split
  · exact h.detach hen hne hcurr
  · next hnone =>
    rw [not_not] at hnone
    refine h.of_update (p := p) (h.toSound.replace_same rfl rfl (iff_of_false (by simp) hne) rfl) rfl rfl
      ⟨fun _ => hnone, fun hc => absurd (by simpa using hc) hcurr, fun _ => hok.sections hne⟩

end

/-! ## Memory stalls of the current task -/

section

variable (hen : ∀ g, H.enabled g = true) (h : Inv H s) (hc : s.curr = some p) (hplace : (s.task p).place = .queued)

include hen h hc hplace

/-- The current task enters or leaves a memory stall: its bits change with `in_memstall`. -/
theorem changeMemstall {clear set : Flags} (hx : x.place = .queued)
    (hxf : x.flags = (s.task p).flags) (hxg : x.group = (s.task p).group)
    (hsub : clear.Sub (s.task p).flags) (hdis : (s.task p).flags.Disjoint set) (hon : clear.oncpu = false)
    (hflags : (s.task p).flags.change clear set = awake x.inMemstall true)
    (hsec : ∃ n, x.sections = openSections n ∧ x.inMemstall = decide (0 < n)) :
    Inv H ((s.setTask p x).psiTaskChange H p clear set now) := by
  have hwithin : ∀ g, x.within H.tree g = (s.task p).within H.tree g := fun g => by
    simp [within, hxg, hx, hplace]
  have hp : (s.setTask p x).task p = x := update_self ..
  have hsound : Sound H ((s.setTask p x).psiTaskChange H p clear set now) := by
    refine psiTaskChange_sound hen (fun g => ?_) h.psiBug (fun g hg => ?_) ?_ ?_ ?_ fun hcl => ?_
    · refine (h.counted g).replace (fun t => ?_) ?_
      · rw [weight, weight, hwithin, hxf]
      · rw [runs, runs, hwithin, hxf]
    · -- a group without the current task does not depend on its stall
      rw [hp, hwithin] at hg
      refine (h.masked g).of_not_oncpu ?_
      rw [Bool.eq_false_iff, Ne, (h.counted g).oncpu]
      rintro ⟨q, hq⟩
      by_cases hqp : q = p
      · rw [hqp, runs, hg] at hq
        simp at hq
      · rw [h.alone hc q hqp] at hq
        simp at hq
    · rw [hp, hx]
      simp
    · rw [hp, hxf]
      exact hsub
    · rw [hp, hxf]
      exact hdis
    · simp [hon] at hcl
  have htask : ((s.setTask p x).psiTaskChange H p clear set now).task =
      update s.task p (x.reflag clear set) := by
    rw [psiTaskChange_task, hp, setTask, update_idem]
  refine h.of_update hsound htask psiTaskChange_curr ⟨fun _ => ?_, fun _ => .inl hx, fun _ => hsec⟩
  rw [decide_eq_true hc]
  show x.flags.change clear set = expected x.inMemstall x.inIowait true x.place
  rw [hxf, hflags, hx]
  rfl

theorem memstallEnter : Inv H (s.psiMemstallEnter H p now) := by
  have hok := h.tasks p
  have hne : (s.task p).place ≠ .away := by simp [hplace]
  obtain ⟨n, hsec, hmem⟩ := hok.sections hne
  have hflags := hok.flags hne
  rw [hplace, decide_eq_true hc] at hflags
  have hopen : (s.task p).inMemstall :: (s.task p).sections = openSections (n + 1) := by rw [hmem, hsec, openSections]
  unfold psiMemstallEnter
  dsimp only
  split
  · next hin =>
    refine h.of_update (p := p) (h.toSound.replace_same rfl rfl Iff.rfl rfl) rfl rfl
      ⟨hok.flags, hok.here, fun _ => ⟨n + 1, hopen, ?_⟩⟩
    rw [hin]
    simp
  · next hin =>
    rw [Bool.not_eq_true] at hin
    rw [hin] at hflags
    refine h.changeMemstall hen hc hplace hplace rfl rfl (none_sub _) ?_ rfl ?_ ⟨n + 1, hopen, by simp⟩
    · rw [hflags]
      refine ⟨fun t => ?_, by simp [memstallBits]⟩
      cases t <;> simp [memstallBits, expected, awake]
    · rw [hflags]
      ext t
      · cases t <;> simp [memstallBits, expected, awake, Flags.change, Flags.none]
      · rfl

theorem memstallLeave {saved : Bool} {rest : List Bool} (hsections : (s.task p).sections = saved :: rest) :
    Inv H ((s.setTask p { s.task p with sections := rest }).psiMemstallLeave H p saved now) := by
  have hok := h.tasks p
  have hne : (s.task p).place ≠ .away := by simp [hplace]
  obtain ⟨n, hsec, hmem⟩ := hok.sections hne
  have hflags := hok.flags hne
  rw [hplace, decide_eq_true hc] at hflags
  cases n with
  | zero => simp [hsections, openSections] at hsec
  | succ n =>
    rw [hsections, openSections, List.cons.injEq] at hsec
    obtain ⟨rfl, rfl⟩ := hsec
    have hin : (s.task p).inMemstall = true := by simpa using hmem
    unfold psiMemstallLeave
    split
    · next hpos =>
      exact h.of_update (p := p) (h.toSound.replace_same rfl rfl Iff.rfl rfl) rfl rfl
        ⟨hok.flags, hok.here, fun _ => ⟨n, rfl, hin.trans hpos.symm⟩⟩
    · next hpos =>
      rw [setTask_task, setTask_setTask]
      refine h.changeMemstall hen hc hplace hplace rfl rfl ?_ (disjoint_none _) rfl ?_ ⟨n, rfl, by simpa using hpos⟩
      · refine ⟨fun t ht => ?_, fun hon => absurd hon (by simp [memstallBits])⟩
        cases t <;> simp_all [memstallBits, expected, awake]
      · rw [hflags]
        ext t
        · cases t <;> simp [memstallBits, expected, awake, Flags.change, Flags.none]
        · rfl

end

/-! ## Moves between groups -/

theorem cgroupMove (hen : ∀ g, H.enabled g = true) (h : Inv H s) (hne : (s.task p).place ≠ .away) (dst : ℕ) (now' : U64) :
    Inv H (s.cgroupMoveTask H p dst now now') := by
  have hok := h.tasks p
  unfold cgroupMoveTask
  dsimp only
  split
  · next hnone =>
    refine h.of_update (p := p) (h.toSound.replace_weightless (.inr hnone) (.inr hnone)
      (currInMemstall_setTask rfl)) rfl rfl ⟨hok.flags, hok.here, hok.sections⟩
  · have halone : (s.task p).flags.oncpu = true → s.Alone H.tree p := fun hon => h.alone ((h.oncpu_iff hne).1 hon)
    -- the bits are taken out of the old groups, and put into the new ones
    have hout : Sound H (s.psiTaskChange H p (s.task p).flags .none now) :=
      h.toSound.taskChange hen hne (sub_self _) (disjoint_none _) halone
    have htask : (s.psiTaskChange H p (s.task p).flags .none now).task p = { s.task p with flags := .none } := by
      rw [psiTaskChange_task, update_self, reflag, change_self]
    rw [htask]
    have hmid : Sound H ((s.psiTaskChange H p (s.task p).flags .none now).setTask p
        { s.task p with flags := .none, group := dst }) := by
      refine hout.replace_weightless (.inr ?_) (.inr rfl) (currInMemstall_setTask ?_) <;> rw [htask]
    have hin : Sound H (((s.psiTaskChange H p (s.task p).flags .none now).setTask p
        { s.task p with flags := .none, group := dst }).psiTaskChange H p .none (s.task p).flags now') := by
      refine hmid.taskChange hen ?_ (none_sub _) ?_ fun hon => absurd hon (by simp [Flags.none])
      · rw [setTask_task]
        exact hne
      · rw [setTask_task]
        exact none_disjoint _
    refine h.of_update (p := p) (x := { s.task p with group := dst }) hin ?_
      (psiTaskChange_curr.trans psiTaskChange_curr) ⟨hok.flags, hok.here, hok.sections⟩
    rw [psiTaskChange_task, setTask_task, reflag, none_change, setTask,
      psiTaskChange_task, update_idem, update_idem]

/-! ## Switches -/

theorem ready (h : Inv H s) {next : Option P} (hne : next ≠ s.curr) (hnext : ∀ q ∈ next, (s.task q).place = .queued) :
    Ready H s.curr next { s with curr := next } where
  counted := h.counted
  masked g := by
    have hsame : s.currInMemstall = memstallOf { s with curr := next } s.curr := by
      unfold currInMemstall memstallOf
      cases s.curr <;> rfl
    exact hsame ▸ h.masked g
  psiBug := h.psiBug
  oncpu p hplace := h.oncpu_iff hplace
  leaves p hp := by
    have hok := h.tasks p
    rw [decide_eq_true (show s.curr = some p from hp)] at hok
    rcases hok.here rfl with hq | hq <;> refine ⟨by simp [hq], ?_⟩ <;> rw [hok.flags (by simp [hq]), hq] <;> rfl
  enters q hq := by
    have hplace := hnext q hq
    have hcurr : s.curr ≠ some q := fun hc => hne (hq.trans hc.symm)
    refine ⟨by simp [hplace], ?_⟩
    rw [(h.tasks q).flags (by simp [hplace]), hplace, decide_eq_false hcurr]
    rfl
  curr := rfl

theorem switch_flags (m i sleep : Bool) (x : Task) (hm : x.inMemstall = m) (hi : x.inIowait = i) :
    (awake m true).change (switchClear x sleep) (switchSet x sleep) =
      if sleep then slept m i else awake m false := by
  subst hm hi
  ext t
  · cases sleep <;> cases t <;> simp [change, switchClear, switchSet, awake, slept]
  · cases sleep <;> simp [change, switchClear, switchSet, awake, slept]

theorem switch (hen : ∀ g, H.enabled g = true) (h : Inv H s) {next : Option P} (hne : next ≠ s.curr)
    (hnext : ∀ q ∈ next, (s.task q).place = .queued) :
    Inv H ({ s with curr := next }.psiTaskSwitch H s.curr next s.currSleeps now) := by
  have hready := h.ready hne hnext
  have hother : ∀ p ∈ s.curr, p ∉ next := fun p hp hq => hne (hq.trans hp.symm)
  refine ⟨hready.switch_sound hen, fun r => ?_⟩
  have hok := h.tasks r
  rw [psiTaskSwitch_task hother, psiTaskSwitch_curr]
  by_cases hprev : s.curr = some r
  · -- the task that leaves
    have hout : next ≠ some r := hother r hprev
    rw [if_pos (show r ∈ s.curr from hprev), decide_eq_false hout]
    rw [decide_eq_true hprev] at hok
    have hsleeps : s.currSleeps = decide ((s.task r).place ≠ .queued) := by
      rw [currSleeps, hprev]
    refine ⟨fun hplace => ?_, fun hc => absurd hc (by simp), hok.sections⟩
    show (s.task r).flags.change (switchClear (s.task r) _) (switchSet (s.task r) _) =
      expected (s.task r).inMemstall (s.task r).inIowait false (s.task r).place
    rw [(hready.leaves r hprev).2, switch_flags _ _ _ _ rfl rfl, hsleeps]
    rcases hok.here rfl with hq | hq <;> simp [hq, expected]
  · rw [if_neg (show r ∉ s.curr from hprev)]
    rw [decide_eq_false hprev] at hok
    by_cases hin : next = some r
    · -- the task that enters
      rw [if_pos (show r ∈ next from hin), decide_eq_true hin]
      have hplace : (s.task r).place = .queued := hnext r hin
      refine ⟨fun _ => ?_, fun _ => .inl hplace, hok.sections⟩
      show (s.task r).flags.change .none .onlyOncpu = expected (s.task r).inMemstall (s.task r).inIowait true
        (s.task r).place
      rw [(hready.enters r hin).2, hplace]
      ext t <;> simp [Flags.change, Flags.none, Flags.onlyOncpu, awake, expected]
    · rw [if_neg (show r ∉ next from hin), decide_eq_false hin]
      exact hok

/-! ## Runs -/

theorem boot (hb : s.Boot) : Inv H s where
  counted g :=
    { tasks := fun t => by
        rw [hb.tasks]
        exact (Finset.sum_eq_zero fun p _ => (Task.weightless (.inl (hb.away p)) H.tree g).1 t).symm
      oncpu := by
        rw [hb.oncpu]
        refine iff_of_false (by simp) ?_
        rintro ⟨p, hp⟩
        rw [(weightless (.inl (hb.away p)) H.tree g).2] at hp
        simp at hp }
  masked g σ := by
    rw [hb.stateMask, stateMaskOf, hb.oncpu]
    cases σ <;> simp [testState, hb.tasks]
  psiBug := hb.psiBug
  tasks p := ⟨fun hne => absurd (hb.away p) hne, fun hc => by simp [hb.idle] at hc, fun hne => absurd (hb.away p) hne⟩

theorem step (hen : ∀ g, H.enabled g = true) (op : Op P) (s s' : State P) (h : Inv H s) (hs : op.step H s = some s') :
    Inv H s' := by
  cases op with
  | enqueue p wakeup now =>
    obtain ⟨⟨hplace, hcurr⟩, rfl⟩ := of_guard hs
    exact h.enqueue hen hplace hcurr
  | dequeue p sleep now =>
    obtain ⟨⟨hplace, hcurr⟩, rfl⟩ := of_guard hs
    exact h.dequeue hen hplace hcurr
  | ttwuDequeue p now =>
    obtain ⟨⟨hplace, hcurr⟩, rfl⟩ := of_guard hs
    exact h.ttwuDequeue hen hplace hcurr
  | memstallEnter now =>
    simp only [Op.step] at hs
    split at hs
    · next p hc =>
      obtain ⟨hplace, rfl⟩ := of_guard hs
      exact h.memstallEnter hen hc hplace
    · simp at hs
  | memstallLeave now =>
    simp only [Op.step] at hs
    split at hs
    · next p hc =>
      split at hs
      · next saved rest hsec =>
        obtain ⟨hplace, rfl⟩ := of_guard hs
        exact h.memstallLeave hen hc hplace hsec
      · simp at hs
    · simp at hs
  | setIowait inIowait =>
    simp only [Op.step] at hs
    split at hs
    · next p hc =>
      obtain ⟨hplace, rfl⟩ := of_guard hs
      exact h.setIowait hplace inIowait
    · simp at hs
  | cgroupMove p dst now now' =>
    simp only [Op.step] at hs
    split at hs
    · next hplace =>
      obtain rfl := some.inj hs
      have hok := h.tasks p
      exact h.of_update (p := p) (h.toSound.replace_weightless (.inl hplace) (.inl hplace)
        (currInMemstall_setTask rfl)) rfl rfl ⟨hok.flags, hok.here, hok.sections⟩
    · next hplace =>
      obtain rfl := some.inj hs
      exact h.cgroupMove hen hplace dst now'
  | switch next now =>
    obtain ⟨⟨hne, hnext⟩, rfl⟩ := of_guard hs
    exact h.switch hen hne hnext
  | depart p =>
    obtain ⟨hplace, rfl⟩ := of_guard hs
    exact h.depart hplace
  | arrive p group depth inIowait =>
    obtain ⟨hplace, rfl⟩ := of_guard hs
    exact h.arrive hplace group depth inIowait

end Inv

/-- The books of every group are exact: a count is the number of tasks of the subtree on this CPU with the bit,
`PSI_ONCPU` says that the current task is in the subtree, the other bits of the mask are those of the counts, and
nothing was reported. -/
structure Exact (T : Tree) (s : State P) : Prop where
  tasks : ∀ g t, (s.books.groups g).tasks t =
    (Finset.univ.filter fun p => (s.task p).within T g = true ∧ (s.task p).flags.tsk t = true).card
  oncpu : ∀ g, (s.books.groups g).oncpu = true ↔ ∃ p, s.curr = some p ∧ g ∈ T.path (s.task p).group
  stateMask : ∀ g σ, (s.books.groups g).stateMask σ =
    (testState (s.books.groups g).tasks (s.books.groups g).oncpu σ ||
      decide (σ = .memFull) && (s.books.groups g).oncpu && s.currInMemstall)
  psiBug : s.books.psiBug = false

theorem Inv.exact (h : Inv H s) : Exact H.tree s where
  tasks g t := by
    rw [(h.counted g).tasks t, Finset.card_filter]
    refine Finset.sum_congr rfl fun p _ => ?_
    rw [weight]
    cases (s.task p).within H.tree g <;> cases (s.task p).flags.tsk t <;> rfl
  oncpu g := by
    rw [(h.counted g).oncpu]
    refine exists_congr fun p => ?_
    by_cases hplace : (s.task p).place = .away
    · have hnot := h.not_curr (.inl hplace)
      simp [(weightless (.inl hplace) H.tree g).2, hnot]
    · rw [runs, Bool.and_eq_true, within_of_here hplace, h.oncpu_iff hplace, decide_eq_true_eq, and_comm]
  stateMask g σ := h.masked g σ
  psiBug := h.psiBug

/-- For every hierarchy whose groups are enabled and every run from a CPU without tasks, the books are exact. -/
theorem exact_after_run (hen : ∀ g, H.enabled g = true) {s₀ : State P} (hboot : s₀.Boot) {ops : List (Op P)}
    (hr : run (Op.step H) ops s₀ = some s) : Exact H.tree s :=
  (run_invariant (fun op t t' ht hs => Inv.step hen op t t' ht hs) (Inv.boot hboot) hr).exact

section

def twoGroups : Hierarchy where
  tree := ⟨3, fun _ => 0, fun h => Nat.pos_of_ne_zero h⟩
  enabled _ := true

def emptyCpu : State Bool where
  task _ := ⟨.none, false, false, 0, .away, []⟩
  curr := none
  books := ⟨fun _ => ⟨fun _ => 0, false, fun _ => false, fun _ => 0, 0⟩, false⟩

/-- A task of each group comes; one runs into a memory stall, and goes to sleep in it; while it is on the way out it is
moved to the other task's group. -/
def sleepyRun : List (Op Bool) :=
  [.arrive false 1 0 false, .arrive true 2 0 false, .enqueue false false 10, .enqueue true false 20,
    .switch (some false) 30, .memstallEnter 40, .setIowait true, .dequeue false true 50, .cgroupMove false 2 60 70,
    .switch (some true) 80]

/-- What a group counts: waiting for I/O, in a memory stall, and on the queue -/
def GroupCpu.summary (c : GroupCpu) : ℕ × ℕ × ℕ × Bool := (c.tasks .iowait, c.tasks .memstall, c.tasks .running, c.oncpu)

theorem exact_after_sleepyRun : ∃ s, run (Op.step twoGroups) sleepyRun emptyCpu = some s ∧
    [0, 1, 2].map (fun g => (s.books.groups g).summary) = [(1, 1, 1, true), (0, 0, 0, false), (1, 1, 1, true)] ∧
    Exact twoGroups.tree s := by
  obtain ⟨s, hs, hv⟩ : ∃ s, run (Op.step twoGroups) sleepyRun emptyCpu = some s ∧
      [0, 1, 2].map (fun g => (s.books.groups g).summary) = [(1, 1, 1, true), (0, 0, 0, false), (1, 1, 1, true)] :=
    run_of_isSome (by decide +kernel)
  have hboot : emptyCpu.Boot := ⟨fun _ => rfl, rfl, fun _ _ => rfl, fun _ => rfl, fun _ _ => rfl, rfl⟩
  exact ⟨s, hs, hv, exact_after_run (fun _ => rfl) hboot hs⟩

end

end KernelSched.Psi
