import KernelSched.Group.Rq
import KernelSched.Lib.Ledger

/-!
# What the counters of a runqueue miss

`sums` is what the counters of a runqueue should be, from the entities that are on it, and `gap` is what is missing in
them. Every operation along the hierarchy opens a gap at one runqueue and moves it upwards: adding the missing tasks to
the counters of a runqueue closes its gap and opens the same one at the parent, unless its entity is not on the parent
(`gap_add`). So the numbers that the loops of the source carry upwards have to be exactly the gap.
-/

namespace KernelSched.Group

open Rooted List

/-! ## Counters as a group -/

namespace Counts

variable (a b : Counts)

instance : Sub Counts := ⟨fun a b => a + -b⟩

@[simp] theorem add_nr : (a + b).nrRunning = a.nrRunning + b.nrRunning := rfl
@[simp] theorem add_load : (a + b).load = a.load + b.load := rfl
@[simp] theorem add_idleNr : (a + b).idleNrRunning = a.idleNrRunning + b.idleNrRunning := rfl
@[simp] theorem add_h : (a + b).hNrRunning = a.hNrRunning + b.hNrRunning := rfl
@[simp] theorem add_idleH : (a + b).idleHNrRunning = a.idleHNrRunning + b.idleHNrRunning := rfl

@[simp] theorem neg_nr : (-a).nrRunning = -a.nrRunning := rfl
@[simp] theorem neg_load : (-a).load = -a.load := rfl
@[simp] theorem neg_idleNr : (-a).idleNrRunning = -a.idleNrRunning := rfl
@[simp] theorem neg_h : (-a).hNrRunning = -a.hNrRunning := rfl
@[simp] theorem neg_idleH : (-a).idleHNrRunning = -a.idleHNrRunning := rfl

instance : AddCommGroup Counts where
  add_assoc a b c := by ext <;> simp [Int.add_assoc]
  zero_add a := by ext <;> simp
  add_zero a := by ext <;> simp
  neg_add_cancel a := by ext <;> simp
  add_comm a b := by ext <;> simp [Int.add_comm]
  sub_eq_add_neg _ _ := rfl
  nsmul := nsmulRec
  zsmul := zsmulRec

theorem Fits.zero : (0 : Counts).Fits := by decide

theorem Fits.add {a b : Counts} (ha : a.Fits) (hb : b.Fits) : (a + b).Fits := by
  simp only [Fits, add_nr, add_load, add_idleNr, add_h, add_idleH] at *
  omega

@[simp] theorem ofTasks_zero : ofTasks 0 0 = 0 := rfl

end Counts

/-! ## What an entity adds to its runqueue -/

/-- The tasks in a group that its parent counts as idle ones. -/
def GroupRq.idleBelow (q : GroupRq) : Int := if q.idle then q.counts.hNrRunning else q.counts.idleHNrRunning

/-- What the entity of a group adds to the counters of its runqueue. -/
def GroupRq.share (q : GroupRq) : Counts :=
  if q.seOnRq then .ofEntity q.seWeight q.idle + .ofTasks q.counts.hNrRunning q.idleBelow else 0

def Task.share (t : Task) : Counts := .ofEntity t.weight t.idle + .ofTasks 1 t.idle.toInt

/-- How `d` more in the counters of a group shows in its share. -/
def GroupRq.passed (q : GroupRq) (d : Counts) : Counts :=
  if q.seOnRq then .ofTasks d.hNrRunning (if q.idle then d.hNrRunning else d.idleHNrRunning) else 0

theorem GroupRq.share_add (q : GroupRq) (d : Counts) :
    ({ q with counts := q.counts + d } : GroupRq).share - q.share = q.passed d := by
  unfold share passed idleBelow
  by_cases hs : q.seOnRq = true <;> by_cases hi : q.idle = true <;>
    simp only [hs, hi, if_true, if_false, Bool.false_eq_true, sub_self] <;>
    · ext <;> simp [sub_eq_add_neg, Counts.ofEntity, Counts.ofTasks]

namespace Rq

variable (T : Tree) (s : Rq) {b c g x : Nat}

/-- What the counters of `g` should be. -/
def sums (g : Nat) : Counts :=
  ((s.tasks.filter fun t => decide (t.group = g)).map Task.share).sum + ((T.children g).map fun b => (s.cfs b).share).sum

/-- What is missing in the counters of `g`. -/
def gap (g : Nat) : Counts := s.sums T g - (s.cfs g).counts

/-! ## How single changes show -/

theorem upd_cfs (f : GroupRq → GroupRq) : (s.upd b f).cfs x = if x = b then f (s.cfs x) else s.cfs x := rfl

@[simp] theorem upd_cfs_self (f : GroupRq → GroupRq) : (s.upd b f).cfs b = f (s.cfs b) := if_pos rfl

theorem upd_cfs_ne (f : GroupRq → GroupRq) (h : x ≠ b) : (s.upd b f).cfs x = s.cfs x := if_neg h

theorem add_cfs (d : Counts) :
    (s.add c d).cfs x = if x = c then { s.cfs x with counts := (s.cfs x).counts + d } else s.cfs x := rfl

theorem sums_upd (f : GroupRq → GroupRq) : (s.upd b f).sums T x =
    s.sums T x + if b ∈ T.children x then (f (s.cfs b)).share - (s.cfs b).share else 0 := by
  have h := Ledger.sum_map_change (a := b) (fun y => (s.cfs y).share) (fun y => ((s.upd b f).cfs y).share)
    (T.children_nodup (g := x)) fun y hy => by rw [s.upd_cfs_ne f hy]
  rw [sums, h, upd_cfs_self, sums, ← add_assoc]
  rfl

theorem gap_upd (f : GroupRq → GroupRq) (hf : (f (s.cfs b)).counts = (s.cfs b).counts) : (s.upd b f).gap T x =
    s.gap T x + if b ∈ T.children x then (f (s.cfs b)).share - (s.cfs b).share else 0 := by
  have hc : ((s.upd b f).cfs x).counts = (s.cfs x).counts := by
    rw [upd_cfs]
    split
    · next h => rw [h, hf]
    · rfl
  rw [gap, sums_upd, hc, gap]
  abel

/-- Counting `d` more at `c` closes the gap by `d` and opens one at the parent. -/
theorem gap_add (d : Counts) : (s.add c d).gap T x =
    s.gap T x - (if x = c then d else 0) + if c ∈ T.children x then (s.cfs c).passed d else 0 := by
  have hs : (s.add c d).sums T x = s.sums T x + if c ∈ T.children x then (s.cfs c).passed d else 0 := by
    rw [← GroupRq.share_add]
    exact s.sums_upd T fun q => { q with counts := q.counts + d }
  rw [gap, hs, add_cfs, gap]
  by_cases h : x = c
  · rw [if_pos h, if_pos h]
    dsimp only
    abel
  · rw [if_neg h, if_neg h]
    abel

theorem gap_push (t : Task) :
    ({ s with tasks := t :: s.tasks } : Rq).gap T x = s.gap T x + if t.group = x then t.share else 0 := by
  simp only [gap, sums, filter_cons]
  by_cases h : t.group = x
  · simp only [h, decide_true, if_true, map_cons, sum_cons]
    abel
  · simp only [h, decide_false, if_false, Bool.false_eq_true]
    abel

theorem gap_erase {t : Task} (ht : t ∈ s.tasks) :
    ({ s with tasks := s.tasks.erase t } : Rq).gap T x = s.gap T x - if t.group = x then t.share else 0 := by
  have hperm : (s.tasks.filter fun u => decide (u.group = x)).map Task.share |>.Perm
      (((t :: s.tasks.erase t).filter fun u => decide (u.group = x)).map Task.share) :=
    ((perm_cons_erase ht).filter _).map _
  have hpush := ({ s with tasks := s.tasks.erase t } : Rq).gap_push T (x := x) t
  have hsame : ({ s with tasks := t :: s.tasks.erase t } : Rq).gap T x = s.gap T x := by
    simp only [gap, sums, hperm.sum_eq]
  rw [← hsame]
  exact eq_sub_of_add_eq hpush.symm

end Rq

end KernelSched.Group
