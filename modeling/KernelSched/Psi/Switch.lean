import Mathlib.Data.List.TakeWhile
import KernelSched.Psi.Counts

/-!
# Pressure stall information: a context switch keeps the books

`psi_task_switch` changes each group at most once. Those of the next task alone get `PSI_ONCPU`; those of the previous
task alone lose it, with the other bits that the task loses. A group above both keeps it, and changes only when the two
tasks' bits differ: otherwise its counts stay, and its mask too, since the two tasks are alike.
-/

namespace KernelSched.Psi

open Wrap Rooted Run Function List State Psi.Task

variable {P : Type} {H : Hierarchy} {s : State P} {now : U64} {g : ℕ} {p q : P}

/-- The bits of a task on the queue -/
def awake (inMemstall oncpu : Bool) : Flags where
  tsk
    | .running => true
    | .memstallRunning => inMemstall
    | .memstall => inMemstall
    | .iowait => false
  oncpu := oncpu

/-- The bits of a task that sleeps -/
def slept (inMemstall inIowait : Bool) : Flags where
  tsk
    | .iowait => inIowait
    | .memstall => inMemstall
    | .running => false
    | .memstallRunning => false
  oncpu := false

/-- The books in the middle of a switch: the groups of the previous task (`old`) still have the mask that it gave them,
with its memory stall `m`. -/
structure Halfway [Fintype P] (H : Hierarchy) (old : ℕ → Bool) (m : Bool) (s : State P) : Prop where
  counted : ∀ g, Counted H.tree s.task g (s.books.groups g)
  kept : ∀ g, old g = true → (s.books.groups g).Masked m
  masked : ∀ g, old g = false → (s.books.groups g).Masked s.currInMemstall
  psiBug : s.books.psiBug = false

/-! ## The next task -/

section

variable [DecidableEq P] {old : ℕ → Bool} {m : Bool}

/-- A group that has `PSI_ONCPU` already counts the task that gets it as well. -/
theorem Counted.enter [Fintype P] {T : Tree} {task : P → Task} {c : GroupCpu} (h : Counted T task g c)
    (hx : Flip (task q) ((task q).reflag .none .onlyOncpu) .none .onlyOncpu) (hin : (task q).within T g = true)
    (hon : c.oncpu = true) : Counted T (update task q ((task q).reflag .none .onlyOncpu)) g c where
  tasks t := (h.flip_tasks hx hin t).1
  oncpu := by
    refine iff_of_true hon ⟨q, ?_⟩
    rw [update_self, runs, hx.within, hin]
    simp [reflag, Flags.change, Flags.onlyOncpu]

/-- What the first half of a switch does: the task gets `TSK_ONCPU`, and the groups of it that are not `old` change. -/
structure Enters (H : Hierarchy) (old : ℕ → Bool) (now : U64) (q : P) (s s' : State P) : Prop where
  same : (s.psiFlagsChange q .none .onlyOncpu).SameTasks s'
  groups : ∀ g, s'.books.groups g =
    if g ∈ H.tree.path (s.task q).group ∧ old g = false then
      (s.books.groups g).change .none .onlyOncpu true s.currInMemstall now
    else s.books.groups g
  psiBug : s.books.psiBug = false → s'.books.psiBug = false

theorem underflow_none (c : GroupCpu) : c.underflow .none = false := by simp [GroupCpu.underflow, Flags.none]

theorem switchIn_enters (now : U64) (hen : ∀ g, H.enabled g = true)
    (hS : ∀ x y, old x = true → y ∈ H.tree.path x → old y = true)
    (hon : ∀ g, (s.books.groups g).oncpu = old g) (hq : (s.task q).flags.oncpu = false) :
    Enters H old now q s (s.switchIn H (some q) now).1 ∧
      (s.switchIn H (some q) now).2 = (H.tree.path (s.task q).group).find? old := by
  have heq : s.switchIn H (some q) now = _ :=
    setOncpu_eq (s := s.psiFlagsChange q .none .onlyOncpu) H.tree.path_nodup fun g _ => hon g
  have hnodup : ((H.tree.path (s.task q).group).takeWhile fun g => !old g).Nodup :=
    H.tree.path_nodup.sublist (takeWhile_sublist _)
  rw [heq]
  refine ⟨⟨psiGroupsChange_same _ _, fun g => ?_, fun hb => ?_⟩, rfl⟩
  · rw [psiGroupsChange_groups hnodup, hen, psiFlagsChange_currInMemstall]
    simp only [H.tree.mem_takeWhile_closed hS]
    rfl
  · refine psiGroupsChange_psiBug hnodup ?_ fun g _ => underflow_none _
    exact psiFlagsChange_psiBug hb (Flags.none_sub _) (Flags.disjoint_onlyOncpu hq)

section

variable {s' : State P} (h : Enters H old now q s s')

include h

theorem Enters.currInMemstall : s'.currInMemstall = s.currInMemstall :=
  h.same.currInMemstall.trans psiFlagsChange_currInMemstall

theorem Enters.task : s'.task = update s.task q ((s.task q).reflag .none .onlyOncpu) := h.same.task

/-- The first half of a switch keeps the books, but for the masks of the previous task's groups. -/
theorem Halfway.enter [Fintype P] (hs : Halfway H old m s)
    (hon : ∀ g, (s.books.groups g).oncpu = old g) (hplace : (s.task q).place ≠ .away)
    (hq : (s.task q).flags.oncpu = false) : Halfway H old m s' := by
  have hx : Flip (s.task q) _ .none .onlyOncpu := flip_self (Flags.none_sub _) (Flags.disjoint_onlyOncpu hq)
  refine ⟨fun g => ?_, fun g hg => ?_, fun g hg => ?_, h.psiBug hs.psiBug⟩
  · rw [h.task, h.groups]
    by_cases hin : g ∈ H.tree.path (s.task q).group
    · have hwithin : (s.task q).within H.tree g = true := by simpa [within_of_here hplace] using hin
      by_cases hold : old g = false
      · rw [if_pos ⟨hin, hold⟩]
        exact (hs.counted g).flip hx hwithin fun hc => absurd hc (by simp [Flags.none])
      · rw [if_neg fun hand => hold hand.2]
        exact (hs.counted g).enter hx hwithin ((hon g).trans (by simpa using hold))
    · rw [if_neg fun hand => hin hand.1]
      exact (hs.counted g).flip_outside hx (by simpa [within_of_here hplace] using hin)
  · rw [h.groups, if_neg fun hand => by simp [hg] at hand]
    exact hs.kept g hg
  · rw [h.groups, h.currInMemstall]
    split
    · exact GroupCpu.masked_change
    · exact hs.masked g hg

end

end

/-! ## The previous task -/

section

/-- `common` is the lowest group above `a` that is above the next task (`shared`), if there is one. -/
def Meets (T : Tree) (a : ℕ) (shared : ℕ → Bool) : Option ℕ → Prop
  | none => ∀ x ∈ T.path a, shared x = false
  | some c => c ∈ T.path a ∧ ∀ x ∈ T.path a, shared x = true ↔ x ∈ T.path c

theorem meets_find {T : Tree} {a b : ℕ} :
    Meets T a (fun x => decide (x ∈ T.path b)) ((T.path b).find? fun x => decide (x ∈ T.path a)) := by
  have hclosed : ∀ x y, decide (x ∈ T.path a) = true → y ∈ T.path x → decide (y ∈ T.path a) = true := by
    intro x y hx hy
    simp only [decide_eq_true_eq] at hx ⊢
    exact T.mem_path_trans hy hx
  cases hc : (T.path b).find? fun x => decide (x ∈ T.path a) with
  | none =>
    intro x hx
    rw [List.find?_eq_none] at hc
    by_contra hb
    exact hc x (by simpa using hb) (by simpa using hx)
  | some c =>
    obtain ⟨hcb, hiff⟩ := T.find_path hclosed hc
    have hca := List.find?_some hc
    refine ⟨by simpa using hca, fun x hx => ?_⟩
    simp only [decide_eq_true_eq] at hiff ⊢
    exact ⟨fun hxb => (hiff x hxb).1 hx, fun hxc => T.mem_path_trans hxc hcb⟩

section

variable {T : Tree} {a : ℕ} {shared : ℕ → Bool} {common : Option ℕ}

theorem ne_common {c : ℕ} : (fun x : ℕ => decide (some c ≠ some x)) = fun x => decide (x ≠ c) := by
  funext x
  simp [eq_comm]

theorem Meets.mem_takeWhile (h : Meets T a shared common) (x : ℕ) :
    x ∈ (T.path a).takeWhile (fun x => decide (common ≠ some x)) ↔ x ∈ T.path a ∧ shared x = false := by
  cases common with
  | none =>
    have hall : (T.path a).takeWhile (fun x => decide (none ≠ some x)) = T.path a :=
      takeWhile_eq_self_iff.2 (by simp)
    rw [hall]
    exact ⟨fun hx => ⟨hx, h x hx⟩, And.left⟩
  | some c =>
    rw [ne_common, T.mem_takeWhile_path h.1]
    refine and_congr_right fun hx => ?_
    rw [← h.2 x hx, Bool.not_eq_true]

theorem Meets.mem_dropWhile (h : Meets T a shared common) (x : ℕ) :
    x ∈ (T.path a).dropWhile (fun x => decide (common ≠ some x)) ↔ x ∈ T.path a ∧ shared x = true := by
  cases common with
  | none =>
    have hnil : (T.path a).dropWhile (fun x => decide (none ≠ some x)) = [] := dropWhile_eq_nil_iff.2 (by simp)
    rw [hnil]
    refine iff_of_false (by simp) ?_
    rintro ⟨hx, hs⟩
    rw [h x hx] at hs
    simp at hs
  | some c =>
    rw [ne_common, T.dropWhile_path h.1]
    constructor
    · intro hx
      have hxa := T.mem_path_trans hx h.1
      exact ⟨hxa, (h.2 x hxa).2 hx⟩
    · rintro ⟨hxa, hs⟩
      exact (h.2 x hxa).1 hs

end

variable {clear set : Flags} {shared : ℕ → Bool} {common : Option ℕ} {next : Option P} {sleep : Bool}

/-- The two loops of the second half, one after the other: up to the common group, and on from there. -/
structure Loops (H : Hierarchy) (shared : ℕ → Bool) (clear set : Flags) (now : U64) (a : ℕ) (s w w' : State P) :
    Prop where
  same : s.SameTasks w
  same' : s.SameTasks w'
  groups : ∀ g, w.books.groups g =
    if g ∈ H.tree.path a ∧ shared g = false then (s.books.groups g).change clear set true s.currInMemstall now
    else s.books.groups g
  groups' : ∀ g, w'.books.groups g =
    if g ∈ H.tree.path a ∧ shared g = true then (s.books.groups g).change clear.dropOncpu set true s.currInMemstall now
    else w.books.groups g
  psiBug : w.books.psiBug = false
  psiBug' : w'.books.psiBug = false

theorem clearOncpu_loops (clear set : Flags) (now : U64) {a : ℕ} (hen : ∀ g, H.enabled g = true)
    (hmeets : Meets H.tree a shared common)
    (hb : s.books.psiBug = false) (hu : ∀ g ∈ H.tree.path a, (s.books.groups g).underflow clear = false) :
    Loops H shared clear set now a s (s.clearOncpu H clear set now common (H.tree.path a)).1
      ((s.clearOncpu H clear set now common (H.tree.path a)).1.psiGroupsChange H clear.dropOncpu set now
        (s.clearOncpu H clear set now common (H.tree.path a)).2) := by
  rw [clearOncpu_eq]
  have hA : ((H.tree.path a).takeWhile fun g => decide (common ≠ some g)).Nodup :=
    H.tree.path_nodup.sublist (takeWhile_sublist _)
  have hR : ((H.tree.path a).dropWhile fun g => decide (common ≠ some g)).Nodup :=
    H.tree.path_nodup.sublist (dropWhile_sublist _)
  have hmemA := hmeets.mem_takeWhile
  have hmemR := hmeets.mem_dropWhile
  generalize (H.tree.path a).takeWhile (fun g => decide (common ≠ some g)) = A at hA hmemA ⊢
  have hsame : s.SameTasks (s.psiGroupsChange H clear set now A) := psiGroupsChange_same A s
  have hfirst : ∀ g, (s.psiGroupsChange H clear set now A).books.groups g =
      if g ∈ H.tree.path a ∧ shared g = false then (s.books.groups g).change clear set true s.currInMemstall now
      else s.books.groups g := by
    intro g
    rw [psiGroupsChange_groups hA, hen]
    simp only [hmemA]
  have hbug : (s.psiGroupsChange H clear set now A).books.psiBug = false :=
    psiGroupsChange_psiBug hA hb fun g hg => hu g ((hmemA g).1 hg).1
  -- the groups of the second loop are not among those of the first
  have hrest : ∀ g, g ∈ H.tree.path a ∧ shared g = true → ¬ (g ∈ H.tree.path a ∧ shared g = false) := by
    rintro g ⟨-, hg⟩ ⟨-, hg'⟩
    rw [hg] at hg'
    simp at hg'
  refine ⟨hsame, ⟨(psiGroupsChange_same _ _).task.trans hsame.task,
    (psiGroupsChange_same _ _).curr.trans hsame.curr⟩, hfirst, fun g => ?_, hbug, ?_⟩
  · rw [psiGroupsChange_groups hR, hen, hsame.currInMemstall]
    simp only [hmemR]
    split
    · next hg => rw [hfirst, if_neg (hrest g hg)]
    · rfl
  · refine psiGroupsChange_psiBug hR hbug fun g hg => ?_
    have hg' := (hmemR g).1 hg
    rw [hfirst, if_neg (hrest g hg')]
    exact hu g hg'.1

theorem switchClear_sub {x : Task} (hx : x.flags = awake x.inMemstall true) :
    (State.switchClear x sleep).Sub x.flags := by
  rw [hx]
  refine ⟨fun t ht => ?_, fun _ => rfl⟩
  cases t <;> simp_all [switchClear, awake]

theorem switchSet_disjoint {x : Task} (hx : x.flags = awake x.inMemstall true) :
    x.flags.Disjoint (State.switchSet x sleep) := by
  rw [hx]
  refine ⟨fun t => ?_, by simp [switchSet]⟩
  cases t <;> simp [switchSet, awake]

/-- What the second half of a switch starts from: `p` is the previous task, `old` are its groups, and the next task is
on the CPU in the groups that are `shared` and in no other of `p`'s. -/
structure Handover [Fintype P] (H : Hierarchy) (old shared : ℕ → Bool) (p : P) (next : Option P) (s : State P) :
    Prop where
  half : Halfway H old (s.task p).inMemstall s
  old : ∀ g, old g = decide (g ∈ H.tree.path (s.task p).group)
  place : (s.task p).place ≠ .away
  flags : (s.task p).flags = awake (s.task p).inMemstall true
  alone : ∀ g, shared g = false → ∀ q, q ≠ p → (s.task q).runs H.tree g = false
  shared : ∀ g, shared g = true → ∃ q ∈ next, q ≠ p ∧ (s.task q).runs H.tree g = true
  next : ∀ q ∈ next, q ≠ p ∧ (s.task q).flags.tsk = (awake s.currInMemstall true).tsk

/-- When the two tasks' bits are the same after the switch, the previous one does not sleep, and both or none of them
are in a memory stall. -/
theorem Handover.alike [Fintype P] {old : ℕ → Bool} (h : Handover H old shared p next s) (hq : q ∈ next)
    (heq : ((s.task p).flags.change (State.switchClear (s.task p) sleep) (State.switchSet (s.task p) sleep)).tsk =
      (s.task q).flags.tsk) : sleep = false ∧ s.currInMemstall = (s.task p).inMemstall := by
  rw [(h.next q hq).2, h.flags] at heq
  constructor
  · have hrun := congrFun heq .running
    cases sleep with
    | false => rfl
    | true => simp [Flags.change, switchClear, switchSet, awake] at hrun
  · have hmem := congrFun heq .memstall
    simpa [Flags.change, switchClear, switchSet, awake] using hmem.symm

variable [DecidableEq P]

section

variable [Fintype P] {T : Tree} {task : P → Task} {x : Task} {c c' : GroupCpu}

/-- A group above both tasks -/
theorem Counted.leave (h : Counted T task g c) (hx : Flip (task p) x clear set) (hin : (task p).within T g = true)
    (hnext : ∃ q, q ≠ p ∧ (task q).runs T g = true) (htasks : ∀ t, c'.tasks t = c.newTasks clear set t)
    (hon : c'.oncpu = true) : Counted T (update task p x) g c' where
  tasks t := (htasks t).trans (h.flip_tasks hx hin t).1
  oncpu := by
    obtain ⟨q, hq, hruns⟩ := hnext
    refine iff_of_true hon ⟨q, ?_⟩
    rwa [update_of_ne hq]

theorem newTasks_of_no_bits (hc : ∀ t, clear.tsk t = false) (hs : ∀ t, set.tsk t = false) (t : TaskCount) :
    c.newTasks clear set t = c.tasks t := by simp [GroupCpu.newTasks, hc, hs]

end

variable [Fintype P] {old : ℕ → Bool}

/-- The books after the second half: right when each group has changed once, and those above both tasks rightly. -/
theorem Handover.sound (now : U64) (h : Handover H old shared p next s)
    (hx : Flip (s.task p) ((s.task p).reflag clear set) clear set)
    {z : State P} (hsame : (s.psiFlagsChange p clear set).SameTasks z) (hbug : z.books.psiBug = false)
    (hout : ∀ g, g ∉ H.tree.path (s.task p).group → z.books.groups g = s.books.groups g)
    (hown : ∀ g, g ∈ H.tree.path (s.task p).group → shared g = false →
      z.books.groups g = (s.books.groups g).change clear set true s.currInMemstall now)
    (hboth : ∀ g, g ∈ H.tree.path (s.task p).group → shared g = true →
      (∀ t, (z.books.groups g).tasks t = (s.books.groups g).newTasks clear set t) ∧
        (z.books.groups g).oncpu = (s.books.groups g).oncpu ∧ (z.books.groups g).Masked s.currInMemstall) :
    Sound H z := by
  have hm : z.currInMemstall = s.currInMemstall := hsame.currInMemstall.trans psiFlagsChange_currInMemstall
  have htask : z.task = update s.task p ((s.task p).reflag clear set) := hsame.task
  have hwithin : ∀ g, (s.task p).within H.tree g = decide (g ∈ H.tree.path (s.task p).group) := fun g =>
    within_of_here h.place
  refine ⟨fun g => ?_, fun g => ?_, hbug⟩
  · rw [htask]
    by_cases hg : g ∈ H.tree.path (s.task p).group
    · have hin : (s.task p).within H.tree g = true := by simpa [hwithin] using hg
      cases hsh : shared g with
      | false =>
        rw [hown g hg hsh]
        exact (h.half.counted g).flip hx hin fun _ => h.alone g hsh
      | true =>
        obtain ⟨q, -, hqp, hruns⟩ := h.shared g hsh
        obtain ⟨htasks, hon, -⟩ := hboth g hg hsh
        refine (h.half.counted g).leave hx hin ⟨q, hqp, hruns⟩ htasks ?_
        rw [hon]
        exact (h.half.counted g).oncpu.2 ⟨q, hruns⟩
    · rw [hout g hg]
      exact (h.half.counted g).flip_outside hx (by simpa [hwithin] using hg)
  · rw [hm]
    by_cases hg : g ∈ H.tree.path (s.task p).group
    · cases hsh : shared g with
      | false =>
        rw [hown g hg hsh]
        exact GroupCpu.masked_change
      | true => exact (hboth g hg hsh).2.2
    · rw [hout g hg]
      exact h.half.masked g (by simpa [h.old] using hg)

theorem Handover.switchOut_sound (hen : ∀ g, H.enabled g = true) (h : Handover H old shared p next s)
    (hmeets : Meets H.tree (s.task p).group shared common) : Sound H (s.switchOut H p next common sleep now) := by
  have hsub : (switchClear (s.task p) sleep).Sub (s.task p).flags := switchClear_sub h.flags
  have hdis : (s.task p).flags.Disjoint (switchSet (s.task p) sleep) := switchSet_disjoint h.flags
  have hx := flip_self hsub hdis
  have hloops := clearOncpu_loops (switchClear (s.task p) sleep) (switchSet (s.task p) sleep) now hen hmeets
    (psiFlagsChange_psiBug h.half.psiBug hsub hdis) fun g hg =>
      (h.half.counted g).flip_underflow hx (by simpa [within_of_here h.place] using hg)
  have hm : (s.psiFlagsChange p (switchClear (s.task p) sleep) (switchSet (s.task p) sleep)).currInMemstall =
      s.currInMemstall := psiFlagsChange_currInMemstall
  unfold switchOut
  dsimp only
  split
  · refine h.sound now hx hloops.same' hloops.psiBug' (fun g hg => ?_) (fun g hg hsh => ?_) fun g hg hsh => ?_
    · rw [hloops.groups', if_neg fun hand => hg hand.1, hloops.groups, if_neg fun hand => hg hand.1]
      rfl
    · rw [hloops.groups', if_neg fun hand => by simp [hsh] at hand, hloops.groups, if_pos ⟨hg, hsh⟩, hm]
      rfl
    · rw [hloops.groups', if_pos ⟨hg, hsh⟩, hm]
      exact ⟨fun t => rfl, rfl, GroupCpu.masked_change⟩
  · next heq =>
    refine h.sound now hx hloops.same hloops.psiBug (fun g hg => ?_) (fun g hg hsh => ?_) fun g hg hsh => ?_
    · rw [hloops.groups, if_neg fun hand => hg hand.1]
      rfl
    · rw [hloops.groups, if_pos ⟨hg, hsh⟩, hm]
      rfl
    · -- the group does not change: there is nothing to count, and the tasks are alike
      obtain ⟨q, rfl, hqp, -⟩ := h.shared g hsh
      rw [not_not, flagsOf, flagsOf, hloops.same.task, psiFlagsChange_task, update_self,
        update_of_ne hqp] at heq
      obtain ⟨rfl, hmem⟩ := h.alike rfl heq
      rw [hloops.groups, if_neg fun hand => by simp [hsh] at hand, hmem]
      refine ⟨fun t => (newTasks_of_no_bits (fun _ => rfl) (fun _ => rfl) t).symm, rfl, h.half.kept g ?_⟩
      simpa [h.old] using hg

end

/-! ## The switch -/

section

variable {prev next : Option P} {sleep : Bool}

/-- `in_memstall` of a task; the idle task is in no memory stall. -/
def State.memstallOf (s : State P) : Option P → Bool
  | some p => (s.task p).inMemstall
  | none => false

/-- The groups above a task; none for the idle task -/
def State.isAbove (T : Tree) (s : State P) : Option P → ℕ → Bool
  | some p, g => decide (g ∈ T.path (s.task p).group)
  | none, _ => false

theorem isAbove_closed (x y : ℕ) (hx : s.isAbove H.tree prev x = true) (hy : y ∈ H.tree.path x) :
    s.isAbove H.tree prev y = true := by
  cases prev with
  | none => exact hx
  | some p =>
    simp only [isAbove, decide_eq_true_eq] at hx ⊢
    exact H.tree.mem_path_trans hy hx

/-- What the switch from `prev` to `next` starts from: the books as `prev` left them, and `next` on the queue. -/
structure Ready [Fintype P] (H : Hierarchy) (prev next : Option P) (s : State P) : Prop where
  counted : ∀ g, Counted H.tree s.task g (s.books.groups g)
  masked : ∀ g, (s.books.groups g).Masked (s.memstallOf prev)
  psiBug : s.books.psiBug = false
  oncpu : ∀ p, (s.task p).place ≠ .away → ((s.task p).flags.oncpu = true ↔ p ∈ prev)
  leaves : ∀ p ∈ prev, (s.task p).place ≠ .away ∧ (s.task p).flags = awake (s.task p).inMemstall true
  enters : ∀ q ∈ next, (s.task q).place ≠ .away ∧ (s.task q).flags = awake (s.task q).inMemstall false
  curr : s.curr = next

namespace Ready

variable [Fintype P]

theorem runs_eq_false (h : Ready H prev next s) (hp : p ∉ prev) : (s.task p).runs H.tree g = false := by
  by_cases hplace : (s.task p).place = .away
  · simp [runs, within, hplace]
  · have hoff : (s.task p).flags.oncpu = false := by simpa using fun hon => hp ((h.oncpu p hplace).1 hon)
    rw [runs, hoff, Bool.and_false]

theorem oncpu_eq (h : Ready H prev next s) (g : ℕ) : (s.books.groups g).oncpu = s.isAbove H.tree prev g := by
  rw [Bool.eq_iff_iff, (h.counted g).oncpu]
  cases prev with
  | none => simpa [isAbove] using fun p => h.runs_eq_false (p := p) (g := g) (by simp)
  | some p =>
    obtain ⟨hplace, hflags⟩ := h.leaves p rfl
    have hruns : (s.task p).runs H.tree g = decide (g ∈ H.tree.path (s.task p).group) := by
      rw [runs, within_of_here hplace, hflags]
      exact Bool.and_true _
    constructor
    · rintro ⟨q, hq⟩
      by_cases hqp : q = p
      · subst hqp
        exact hruns.symm.trans hq
      · rw [h.runs_eq_false (by simpa using Ne.symm hqp)] at hq
        simp at hq
    · exact fun hg => ⟨p, hruns.trans hg⟩

theorem halfway (h : Ready H prev next s) : Halfway H (s.isAbove H.tree prev) (s.memstallOf prev) s where
  counted := h.counted
  kept g _ := h.masked g
  masked g hg := (h.masked g).of_not_oncpu ((h.oncpu_eq g).trans hg)
  psiBug := h.psiBug

theorem enters_off (h : Ready H prev (some q) s) : (s.task q).flags.oncpu = false := by
  rw [(h.enters q rfl).2]
  rfl

theorem not_mem_prev (h : Ready H prev (some q) s) : q ∉ prev := by
  intro hq
  have hon := (h.oncpu q (h.enters q rfl).1).2 hq
  rw [h.enters_off] at hon
  simp at hon

theorem handover_idle (h : Ready H (some p) none s) :
    Handover H (s.isAbove H.tree (some p)) (fun _ => false) p none s where
  half := h.halfway
  old _ := rfl
  place := (h.leaves p rfl).1
  flags := (h.leaves p rfl).2
  alone _ _ q hq := h.runs_eq_false (by simpa using Ne.symm hq)
  shared _ hg := by simp at hg
  next := by simp

variable [DecidableEq P]

theorem switch_idle (hen : ∀ g, H.enabled g = true) (h : Ready H none next s) :
    Sound H (s.psiTaskSwitch H none next sleep now) := by
  have hhalf : Halfway H (s.isAbove H.tree none) false (s.switchIn H next now).1 := by
    cases next with
    | none => exact h.halfway
    | some q =>
      have henters := (switchIn_enters now hen isAbove_closed h.oncpu_eq h.enters_off).1
      exact h.halfway.enter henters h.oncpu_eq (h.enters q rfl).1 h.enters_off
  exact ⟨hhalf.counted, fun g => hhalf.masked g rfl, hhalf.psiBug⟩

theorem handover (hen : ∀ g, H.enabled g = true) (h : Ready H (some p) (some q) s) :
    Handover H (s.isAbove H.tree (some p)) (s.isAbove H.tree (some q)) p (some q) (s.switchIn H (some q) now).1 := by
  have hpq : p ≠ q := by simpa using h.not_mem_prev
  obtain ⟨henters, -⟩ := switchIn_enters now hen isAbove_closed h.oncpu_eq h.enters_off
  have hp : (s.switchIn H (some q) now).1.task p = s.task p := by rw [henters.task, update_of_ne hpq]
  have hq : (s.switchIn H (some q) now).1.task q = (s.task q).reflag .none .onlyOncpu := by
    rw [henters.task, update_self]
  have hruns : ∀ g, ((s.task q).reflag .none .onlyOncpu).runs H.tree g = s.isAbove H.tree (some q) g := by
    intro g
    have hplace : ((s.task q).reflag .none .onlyOncpu).place ≠ .away := (h.enters q rfl).1
    rw [runs, within_of_here hplace]
    simp [reflag, Flags.change, Flags.onlyOncpu, isAbove]
  have hcurr : (s.switchIn H (some q) now).1.currInMemstall = (s.task q).inMemstall := by
    rw [henters.currInMemstall, currInMemstall, h.curr]
  refine ⟨?_, ?_, ?_, ?_, ?_, ?_, ?_⟩
  · rw [hp]
    exact h.halfway.enter henters h.oncpu_eq (h.enters q rfl).1 h.enters_off
  · rw [hp]
    exact fun _ => rfl
  · rw [hp]
    exact (h.leaves p rfl).1
  · rw [hp]
    exact (h.leaves p rfl).2
  · intro g hg r hr
    by_cases hrq : r = q
    · rw [hrq, hq, hruns, hg]
    · rw [henters.task, update_of_ne hrq]
      exact h.runs_eq_false (by simpa using Ne.symm hr)
  · intro g hg
    refine ⟨q, rfl, hpq.symm, ?_⟩
    rw [hq, hruns, hg]
  · intro r hr
    obtain rfl := Option.some.inj hr
    refine ⟨hpq.symm, ?_⟩
    rw [hq, hcurr]
    funext t
    simp [reflag, Flags.change, Flags.onlyOncpu, Flags.none, (h.enters q rfl).2, awake]

theorem switch_sound (hen : ∀ g, H.enabled g = true) (h : Ready H prev next s) :
    Sound H (s.psiTaskSwitch H prev next sleep now) := by
  cases prev with
  | none => exact h.switch_idle hen
  | some p =>
    cases next with
    | none =>
      have hmeets : Meets H.tree (s.task p).group (fun _ => false) none := fun _ _ => rfl
      exact h.handover_idle.switchOut_sound hen hmeets
    | some q =>
      have hpq : p ≠ q := by simpa using h.not_mem_prev
      obtain ⟨henters, hcommon⟩ := switchIn_enters now hen isAbove_closed h.oncpu_eq h.enters_off
      have hp : (s.switchIn H (some q) now).1.task p = s.task p := by rw [henters.task, update_of_ne hpq]
      refine (h.handover hen).switchOut_sound hen ?_
      rw [hp, hcommon]
      exact meets_find

end Ready

/-! ## The tasks after a switch -/

section

variable [DecidableEq P]

namespace State

theorem switchOut_same {common : Option ℕ} :
    (s.psiFlagsChange p (switchClear (s.task p) sleep) (switchSet (s.task p) sleep)).SameTasks
      (s.switchOut H p next common sleep now) := by
  unfold switchOut
  simp only [clearOncpu_eq]
  split
  · exact (psiGroupsChange_same _ _).trans (psiGroupsChange_same _ _)
  · exact psiGroupsChange_same _ _

theorem switchIn_task (r : P) : (s.switchIn H next now).1.task r =
    if r ∈ next then (s.task r).reflag .none .onlyOncpu else s.task r := by
  cases next with
  | none => rfl
  | some q =>
    rw [switchIn, (setOncpu_same _ _).task, psiFlagsChange_task, update_apply]
    simp only [Option.mem_some_iff, eq_comm]
    split
    · next h => rw [h]
    · rfl

theorem switchIn_curr : (s.switchIn H next now).1.curr = s.curr := by
  cases next with
  | none => rfl
  | some q => exact (setOncpu_same _ _).curr

/-- The bits of every task after a switch to another task -/
theorem psiTaskSwitch_task (hne : ∀ p ∈ prev, p ∉ next) (r : P) : (s.psiTaskSwitch H prev next sleep now).task r =
    if r ∈ prev then (s.task r).reflag (switchClear (s.task r) sleep) (switchSet (s.task r) sleep)
    else if r ∈ next then (s.task r).reflag .none .onlyOncpu else s.task r := by
  cases prev with
  | none => exact switchIn_task r
  | some p =>
    have hp : (s.switchIn H next now).1.task p = s.task p := by rw [switchIn_task, if_neg (hne p rfl)]
    show (switchOut H p next _ sleep now _).task r = _
    rw [switchOut_same.task, psiFlagsChange_task, hp]
    by_cases hr : r = p
    · subst hr
      rw [update_self, if_pos (Option.mem_some_self r)]
    · have hrp : r ∉ some p := by simpa using Ne.symm hr
      rw [update_of_ne hr, switchIn_task, if_neg hrp]

theorem psiTaskSwitch_curr : (s.psiTaskSwitch H prev next sleep now).curr = s.curr := by
  cases prev with
  | none => exact switchIn_curr
  | some p => exact switchOut_same.curr.trans switchIn_curr

end State

end

end

end KernelSched.Psi
