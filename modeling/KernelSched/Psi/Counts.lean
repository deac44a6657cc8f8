import KernelSched.Lib.Run
import KernelSched.Lib.Ledger
import KernelSched.Psi.Tasks

/-!
# Pressure stall information: the books of the groups, and what one task's change does to them

A group counts the tasks of its subtree on the CPU that have a bit (`Counted`), and its mask is what the counts say
(`GroupCpu.Masked`). `psi_task_change` keeps both (`psiTaskChange_sound`): it changes every group that the task belongs
to.
-/

namespace KernelSched.Psi

open Wrap Rooted Run Function List State Psi.Task

variable {P : Type} {H : Hierarchy} {s : State P} {clear set : Flags} {now : U64} {l : List ℕ} {g : ℕ}

/-! ## Several groups change -/

namespace State

/-- All that a change of groups leaves alone -/
structure SameTasks (s s' : State P) : Prop where
  task : s'.task = s.task
  curr : s'.curr = s.curr

theorem SameTasks.trans {s s' s'' : State P} (h : s.SameTasks s') (h' : s'.SameTasks s'') : s.SameTasks s'' :=
  ⟨h'.task.trans h.task, h'.curr.trans h.curr⟩

theorem SameTasks.currInMemstall {s' : State P} (h : s.SameTasks s') : s'.currInMemstall = s.currInMemstall := by
  rw [State.currInMemstall, State.currInMemstall, h.task, h.curr]

theorem psiGroupChange_same (s : State P) (g : ℕ) : s.SameTasks (s.psiGroupChange H clear set now g) := ⟨rfl, rfl⟩

theorem psiGroupsChange_same (l : List ℕ) (s : State P) : s.SameTasks (s.psiGroupsChange H clear set now l) := by
  induction l generalizing s with
  | nil => exact ⟨rfl, rfl⟩
  | cons g l ih => exact (psiGroupChange_same s g).trans (ih _)

theorem psiGroupsChange_groups (hl : l.Nodup) (s : State P) (g : ℕ) :
    (s.psiGroupsChange H clear set now l).books.groups g =
      if g ∈ l then (s.books.groups g).change clear set (H.enabled g) s.currInMemstall now else s.books.groups g := by
  induction l generalizing s with
  | nil => simp [psiGroupsChange]
  | cons a l ih =>
    obtain ⟨ha, hl⟩ := nodup_cons.1 hl
    have hstep := ih hl (s.psiGroupChange H clear set now a)
    rw [(psiGroupChange_same s a).currInMemstall] at hstep
    refine hstep.trans ?_
    by_cases hga : g = a
    · subst hga
      rw [if_neg ha, if_pos mem_cons_self]
      exact update_self ..
    · have hold : (s.psiGroupChange H clear set now a).books.groups g = s.books.groups g := update_of_ne hga ..
      simp only [hold, mem_cons, hga, false_or]

theorem psiGroupsChange_psiBug (hl : l.Nodup) (hb : s.books.psiBug = false)
    (hu : ∀ g ∈ l, (s.books.groups g).underflow clear = false) :
    (s.psiGroupsChange H clear set now l).books.psiBug = false := by
  induction l generalizing s with
  | nil => exact hb
  | cons a l ih =>
    obtain ⟨ha, hl⟩ := nodup_cons.1 hl
    refine ih hl ?_ fun g hg => ?_
    · show (s.books.psiBug || _) = false
      rw [hb, hu a mem_cons_self]
      rfl
    · have hga : g ≠ a := fun h => ha (h ▸ hg)
      have hold : (s.psiGroupChange H clear set now a).books.groups g = s.books.groups g := update_of_ne hga ..
      rw [hold]
      exact hu g (mem_cons_of_mem a hg)

/-- The loop over the next task's groups, without its break: `q` says which groups had `PSI_ONCPU` at first. -/
theorem setOncpu_eq {q : ℕ → Bool} (hl : l.Nodup) (hq : ∀ g ∈ l, (s.books.groups g).oncpu = q g) :
    s.setOncpu H now l = (s.psiGroupsChange H .none .onlyOncpu now (l.takeWhile fun g => !q g), l.find? q) := by
  induction l generalizing s with
  | nil => rfl
  | cons a l ih =>
    obtain ⟨ha, hl⟩ := nodup_cons.1 hl
    rw [setOncpu, hq a mem_cons_self]
    by_cases h : q a = true
    · rw [if_pos h, takeWhile_cons_of_neg (by simp [h]), List.find?_cons_of_pos h]
      rfl
    · rw [if_neg h, takeWhile_cons_of_pos (by simpa using h), List.find?_cons_of_neg h, ih hl]
      · rfl
      · intro g hg
        have hga : g ≠ a := fun h => ha (h ▸ hg)
        have hold : (s.psiGroupChange H .none .onlyOncpu now a).books.groups g = s.books.groups g :=
          update_of_ne hga ..
        rw [hold]
        exact hq g (mem_cons_of_mem a hg)

theorem setOncpu_same (l : List ℕ) (s : State P) : s.SameTasks (s.setOncpu H now l).1 := by
  induction l generalizing s with
  | nil => exact ⟨rfl, rfl⟩
  | cons g l ih =>
    rw [setOncpu]
    split
    · exact ⟨rfl, rfl⟩
    · exact (psiGroupChange_same s g).trans (ih _)

theorem clearOncpu_eq (common : Option ℕ) (s : State P) : s.clearOncpu H clear set now common l =
    (s.psiGroupsChange H clear set now (l.takeWhile fun g => decide (common ≠ some g)),
      l.dropWhile fun g => decide (common ≠ some g)) := by
  induction l generalizing s with
  | nil => rfl
  | cons a l ih =>
    rw [clearOncpu]
    split
    · next h => rw [takeWhile_cons_of_neg (by simpa using h), dropWhile_cons_of_neg (by simpa using h)]; rfl
    · next h =>
      rw [takeWhile_cons_of_pos (by simpa using h), dropWhile_cons_of_pos (by simpa using h), ih]
      rfl

end State

/-! ## Counts -/

/-- The task is on this CPU and in the subtree of `g`. -/
def Task.within (T : Tree) (g : ℕ) (x : Task) : Bool := decide (x.place ≠ .away) && decide (g ∈ T.path x.group)

/-- What the task adds to a count of `g` -/
def Task.weight (T : Tree) (g : ℕ) (t : TaskCount) (x : Task) : ℕ := (x.within T g && x.flags.tsk t).toNat

/-- The task is the reason why `g` has `PSI_ONCPU`. -/
def Task.runs (T : Tree) (g : ℕ) (x : Task) : Bool := x.within T g && x.flags.oncpu

/-- The counts and `PSI_ONCPU` of a group are those of the bits of the tasks. -/
structure Counted [Fintype P] (T : Tree) (task : P → Task) (g : ℕ) (c : GroupCpu) : Prop where
  tasks : ∀ t, c.tasks t = ∑ p, (task p).weight T g t
  oncpu : c.oncpu = true ↔ ∃ p, (task p).runs T g = true

/-- The mask is that of the counts, with a current task that is, or is not, in a memory stall. -/
def GroupCpu.Masked (m : Bool) (c : GroupCpu) : Prop := ∀ σ, c.stateMask σ = stateMaskOf c.tasks c.oncpu m σ

theorem GroupCpu.Masked.of_not_oncpu {c : GroupCpu} {m m' : Bool} (h : c.Masked m) (hc : c.oncpu = false) :
    c.Masked m' := by
  intro σ
  rw [h σ, stateMaskOf, stateMaskOf, hc, Bool.and_false, Bool.false_and, Bool.false_and]

theorem GroupCpu.masked_change {c : GroupCpu} {m : Bool} : (c.change clear set true m now).Masked m := fun _ => rfl

section

variable [DecidableEq P] [Fintype P] {T : Tree} {task : P → Task} {p : P} {x : Task} {c : GroupCpu}

theorem Counted.replace (h : Counted T task g c) (hw : ∀ t, x.weight T g t = (task p).weight T g t)
    (hr : x.runs T g = (task p).runs T g) : Counted T (update task p x) g c where
  tasks t := by
    have hsum := Ledger.sum_update task (weight T g t) p x
    have hold := h.tasks t
    have heq := hw t
    omega
  oncpu := by
    rw [h.oncpu]
    refine exists_congr fun q => ?_
    by_cases hq : q = p
    · subst hq
      rw [update_self, hr]
    · rw [update_of_ne hq]

/-- The bits of `p` change by bits that it has and bits that it does not have. -/
structure Flip (x x' : Task) (clear set : Flags) : Prop where
  place : x'.place = x.place
  group : x'.group = x.group
  flags : x'.flags = x.flags.change clear set
  sub : clear.Sub x.flags
  disjoint : x.flags.Disjoint set

theorem Flip.within {x' : Task} (h : Flip x x' clear set) : x'.within T g = x.within T g := by
  rw [Task.within, Task.within, h.place, h.group]

section

variable (h : Counted T task g c) (hx : Flip (task p) x clear set)

include h hx

/-- A count changes as the task's bit does, and is not zero when the bit is cleared. -/
theorem Counted.flip_tasks (hin : (task p).within T g = true)
    (t : TaskCount) : c.newTasks clear set t = ∑ q, (update task p x q).weight T g t ∧
      (clear.tsk t = true → c.tasks t ≠ 0) := by
  have hsum := Ledger.sum_update task (weight T g t) p x
  have hold := h.tasks t
  have hw : (task p).weight T g t = ((task p).flags.tsk t).toNat := by rw [weight, hin, Bool.true_and]
  have hw' : x.weight T g t = ((task p).flags.tsk t && !clear.tsk t || set.tsk t).toNat := by
    rw [weight, hx.within, hin, Bool.true_and, hx.flags]
    rfl
  have hsub := hx.sub.1 t
  have hdis := hx.disjoint.1 t
  generalize (∑ q, (task q).weight T g t) = n at hsum hold
  unfold GroupCpu.newTasks
  cases hf : (task p).flags.tsk t <;> cases hc : clear.tsk t <;> cases hs : set.tsk t <;> simp_all
  omega

theorem Counted.flip_underflow (hin : (task p).within T g = true) : c.underflow clear = false := by
  rw [GroupCpu.underflow, decide_eq_false_iff_not]
  rintro ⟨t, hc, h0⟩
  exact (h.flip_tasks hx hin t).2 hc h0

theorem Counted.flip_outside (hin : (task p).within T g = false) : Counted T (update task p x) g c := by
  refine h.replace (fun t => ?_) ?_
  · rw [weight, weight, hx.within, hin]
    rfl
  · rw [runs, runs, hx.within, hin]
    rfl

/-- A task's bits change, and the group with them. Only a task that has `TSK_ONCPU` alone may lose it. -/
theorem Counted.flip (hin : (task p).within T g = true)
    (halone : clear.oncpu = true → ∀ q, q ≠ p → (task q).runs T g = false) {e m : Bool} :
    Counted T (update task p x) g (c.change clear set e m now) where
  tasks t := (h.flip_tasks hx hin t).1
  oncpu := by
    have hruns : x.runs T g = ((task p).flags.oncpu && !clear.oncpu || set.oncpu) := by
      rw [runs, hx.within, hin, hx.flags, Bool.true_and]
      rfl
    show c.newOncpu clear set = true ↔ _
    unfold GroupCpu.newOncpu
    by_cases hc : clear.oncpu = true
    · have hset : set.oncpu = false := by simpa [hx.sub.2 hc] using hx.disjoint.2
      rw [if_pos hc]
      refine iff_of_false (by simp) ?_
      rintro ⟨q, hq⟩
      by_cases hqp : q = p
      · subst hqp
        rw [update_self, hruns, hc, hset] at hq
        simp at hq
      · rw [update_of_ne hqp, halone hc q hqp] at hq
        simp at hq
    · rw [if_neg hc]
      by_cases hs : set.oncpu = true
      · rw [if_pos hs]
        refine iff_of_true rfl ⟨p, ?_⟩
        rw [update_self, hruns, hs, Bool.or_true]
      · rw [if_neg hs, h.oncpu]
        refine exists_congr fun q => ?_
        by_cases hqp : q = p
        · subst hqp
          rw [update_self, hruns, runs, hin]
          simp [hc, hs]
        · rw [update_of_ne hqp]

end

end

/-! ## One task changes -/

/-- The books say what the tasks' bits say, and nothing was reported. -/
structure Sound [Fintype P] (H : Hierarchy) (s : State P) : Prop where
  counted : ∀ g, Counted H.tree s.task g (s.books.groups g)
  masked : ∀ g, (s.books.groups g).Masked s.currInMemstall
  psiBug : s.books.psiBug = false

/-- No other task than `p` is on the CPU. -/
def State.Alone (T : Tree) (s : State P) (p : P) : Prop := ∀ q, q ≠ p → ∀ g, (s.task q).runs T g = false

section

variable [DecidableEq P] {p : P} {x : Task}

namespace State

variable {x : Task}

theorem setTask_task : (s.setTask p x).task p = x := update_self ..

theorem setTask_setTask {y : Task} : (s.setTask p x).setTask p y = s.setTask p y := by
  rw [setTask, setTask, update_idem]
  rfl

theorem currInMemstall_setTask (hx : x.inMemstall = (s.task p).inMemstall) :
    (s.setTask p x).currInMemstall = s.currInMemstall := by
  unfold currInMemstall setTask
  cases s.curr with
  | none => rfl
  | some q =>
    by_cases hq : q = p
    · subst hq
      simp [hx]
    · simp [update_of_ne hq]

theorem currInMemstall_setTask_of_ne (hc : s.curr ≠ some p) : (s.setTask p x).currInMemstall = s.currInMemstall := by
  unfold currInMemstall setTask
  cases hs : s.curr with
  | none => rfl
  | some q =>
    have hq : q ≠ p := fun h => hc (by rw [hs, h])
    simp [update_of_ne hq]

theorem psiFlagsChange_task : (s.psiFlagsChange p clear set).task = update s.task p ((s.task p).reflag clear set) := rfl

theorem psiFlagsChange_currInMemstall : (s.psiFlagsChange p clear set).currInMemstall = s.currInMemstall :=
  currInMemstall_setTask (x := (s.task p).reflag clear set) rfl

theorem psiFlagsChange_psiBug (hb : s.books.psiBug = false) (hsub : clear.Sub (s.task p).flags)
    (hdis : (s.task p).flags.Disjoint set) : (s.psiFlagsChange p clear set).books.psiBug = false := by
  simp [psiFlagsChange, hb, hsub, hdis]

theorem psiTaskChange_task : (s.psiTaskChange H p clear set now).task = update s.task p ((s.task p).reflag clear set) :=
  (psiGroupsChange_same _ _).task

theorem psiTaskChange_curr : (s.psiTaskChange H p clear set now).curr = s.curr := (psiGroupsChange_same _ _).curr

theorem psiTaskChange_currInMemstall : (s.psiTaskChange H p clear set now).currInMemstall = s.currInMemstall :=
  (psiGroupsChange_same _ _).currInMemstall.trans psiFlagsChange_currInMemstall

end State

theorem Task.within_of_here {T : Tree} (hx : x.place ≠ .away) : x.within T g = decide (g ∈ T.path x.group) := by
  simp [within, hx]

theorem flip_self (hsub : clear.Sub x.flags) (hdis : x.flags.Disjoint set) :
    Flip x (x.reflag clear set) clear set := ⟨rfl, rfl, rfl, hsub, hdis⟩

variable [Fintype P]

/-- `psi_task_change` of a task on this CPU, by bits that it has and bits that it does not have: what the groups of
the task say of the memory stall of the current task need not be right before. -/
theorem psiTaskChange_sound (hen : ∀ g, H.enabled g = true) (hc : ∀ g, Counted H.tree s.task g (s.books.groups g))
    (hb : s.books.psiBug = false) (hm : ∀ g, (s.task p).within H.tree g = false →
    (s.books.groups g).Masked s.currInMemstall)
    (hplace : (s.task p).place ≠ .away) (hsub : clear.Sub (s.task p).flags) (hdis : (s.task p).flags.Disjoint set)
    (halone : clear.oncpu = true → s.Alone H.tree p) : Sound H (s.psiTaskChange H p clear set now) := by
  have hx := flip_self hsub hdis
  have hgroups : ∀ g, (s.psiTaskChange H p clear set now).books.groups g =
      if (s.task p).within H.tree g = true then (s.books.groups g).change clear set true s.currInMemstall now
      else s.books.groups g := by
    intro g
    rw [within_of_here hplace, State.psiTaskChange, psiGroupsChange_groups H.tree.path_nodup, hen,
      psiFlagsChange_currInMemstall]
    simp only [decide_eq_true_eq]
    rfl
  refine ⟨fun g => ?_, fun g => ?_, ?_⟩
  · rw [psiTaskChange_task, hgroups]
    split
    · next hin => exact (hc g).flip hx hin fun hcl q hq => halone hcl q hq g
    · next hin => exact (hc g).flip_outside hx (by simpa using hin)
  · rw [psiTaskChange_currInMemstall, hgroups]
    split
    · exact GroupCpu.masked_change
    · next hin => exact hm g (by simpa using hin)
  · refine psiGroupsChange_psiBug H.tree.path_nodup (psiFlagsChange_psiBug hb hsub hdis) fun g hg => ?_
    exact (hc g).flip_underflow hx (by simpa [within_of_here hplace] using hg)

theorem Sound.taskChange (hen : ∀ g, H.enabled g = true) (hs : Sound H s) (hplace : (s.task p).place ≠ .away)
    (hsub : clear.Sub (s.task p).flags) (hdis : (s.task p).flags.Disjoint set)
    (halone : clear.oncpu = true → s.Alone H.tree p) : Sound H (s.psiTaskChange H p clear set now) :=
  psiTaskChange_sound hen hs.counted hs.psiBug (fun g _ => hs.masked g) hplace hsub hdis halone

/-- A task is replaced by one that counts the same everywhere, and the current task's stall stays. -/
theorem Sound.replace (hs : Sound H s) (hw : ∀ g t, x.weight H.tree g t = (s.task p).weight H.tree g t)
    (hr : ∀ g, x.runs H.tree g = (s.task p).runs H.tree g) (hm : (s.setTask p x).currInMemstall = s.currInMemstall) :
    Sound H (s.setTask p x) where
  counted g := (hs.counted g).replace (hw g) (hr g)
  masked g := by
    rw [hm]
    exact hs.masked g
  psiBug := hs.psiBug

end

end KernelSched.Psi
