import Mathlib.Algebra.BigOperators.Ring.Finset
import KernelSched.Lib.Ledger
import KernelSched.Lib.Run
import KernelSched.Fair.Entity
import KernelSched.Units

/-!
# The load of a task group and its share on each CPU

`tg->load_avg` sums what the runqueues of a task group have published of their load. A runqueue publishes by adding the
difference to `tg_load_avg_contrib`, what it published last, and then storing the new value there. It does both under
the lock of its CPU; the other CPUs may do anything in between. `calc_group_shares` takes the contribution of its own
runqueue out of the sum and puts the current load in.

Between the two steps of an update the sum has the new value and `tg_load_avg_contrib` the old one (`GroupRq.published`).
All is in words of 64 bits, so the sum is always that of what is published, as words (`Kept`); what is needed beyond that
is that the loads together fit a `long`.
-/

namespace KernelSched.GroupShares

open Wrap Run Fair

/-! ## Model -/

/-- The next access of an `update_tg_load_avg` call -/
inductive Pc
  | out
  | add (delta : U64)
  | store
  deriving DecidableEq

/-- What is read of the runqueue of a group on a CPU -/
structure GroupRq where
  weight : U64
  loadAvg : U64
  tgLoadAvgContrib : U64
  pc : Pc
  deriving DecidableEq

/-- What is read of `struct task_group`, other than the root -/
structure TaskGroup (C : Type) where
  shares : U64
  loadAvg : U64
  cfsRq : C → GroupRq

def minShares : U64 := 2

def maxShares : U64 := 1 <<< 18

def absLong (x : U64) : U64 := if x.msb then -x else x

def clampLong (x lo hi : U64) : U64 :=
  let x := if x.slt lo then lo else x
  if hi.slt x then hi else x

/-- What `update_tg_load_avg` does first: small differences are not published. -/
def updateTgLoadAvg (q : GroupRq) : Pc :=
  let delta := q.loadAvg - q.tgLoadAvgContrib
  if q.tgLoadAvgContrib / 64 < absLong delta then .add delta else .out

namespace TaskGroup

variable {C : Type} [DecidableEq C]

def put (cpu : C) (q : GroupRq) (g : TaskGroup C) : TaskGroup C := { g with cfsRq := Function.update g.cfsRq cpu q }

variable (g : TaskGroup C) (cpu : C)

/-- `load` of `calc_group_shares` -/
def load : U64 :=
  let q := g.cfsRq cpu
  if scaleLoadDown q.weight < q.loadAvg then q.loadAvg else scaleLoadDown q.weight

def tgWeight : U64 := g.loadAvg - (g.cfsRq cpu).tgLoadAvgContrib + g.load cpu

def unclamped : U64 :=
  let shares := g.shares * g.load cpu
  if g.tgWeight cpu ≠ 0 then shares.sdiv (g.tgWeight cpu) else shares

def calcGroupShares : U64 := clampLong (g.unclamped cpu) minShares g.shares

end TaskGroup

inductive Op (C : Type)
  /-- The load of a runqueue changes, under the lock of its CPU. -/
  | change (cpu : C) (weight loadAvg : U64)
  /-- `update_tg_load_avg` is called, under the same lock. -/
  | update (cpu : C)
  /-- The next access of such a call -/
  | access (cpu : C)
  /-- `__sched_group_set_shares` -/
  | setShares (shares : U64)

variable {C : Type} [DecidableEq C]

def step (op : Op C) (g : TaskGroup C) : Option (TaskGroup C) :=
  match op with
  | .change cpu weight loadAvg =>
    let q := g.cfsRq cpu
    if q.pc = .out then some (g.put cpu { q with weight := weight, loadAvg := loadAvg }) else none
  | .update cpu =>
    let q := g.cfsRq cpu
    if q.pc = .out then some (g.put cpu { q with pc := updateTgLoadAvg q }) else none
  | .access cpu =>
    let q := g.cfsRq cpu
    match q.pc with
    | .out => none
    | .add delta => some ({ g with loadAvg := g.loadAvg + delta }.put cpu { q with pc := .store })
    | .store => some (g.put cpu { q with tgLoadAvgContrib := q.loadAvg, pc := .out })
  | .setShares shares =>
    let shares := if shares < scaleLoad minShares then scaleLoad minShares else shares
    some { g with shares := if scaleLoad maxShares < shares then scaleLoad maxShares else shares }

/-- A new group: `NICE_0_LOAD`, and nothing queued. -/
def TaskGroup.init : TaskGroup C := ⟨1 <<< 20, 0, fun _ => ⟨0, 0, 0, .out⟩⟩

/-! ## What is published -/

/-- What `tg->load_avg` has of a runqueue -/
def GroupRq.published (q : GroupRq) : U64 :=
  match q.pc with
  | .out => q.tgLoadAvgContrib
  | .add _ => q.tgLoadAvgContrib
  | .store => q.loadAvg

/-- The difference that is about to be added is that of the load. -/
def GroupRq.Sound (q : GroupRq) : Prop := ∀ delta, q.pc = .add delta → q.tgLoadAvgContrib + delta = q.loadAvg

theorem updateTgLoadAvg_cases (q : GroupRq) :
    updateTgLoadAvg q = .out ∨ updateTgLoadAvg q = .add (q.loadAvg - q.tgLoadAvgContrib) := by
  unfold updateTgLoadAvg
  dsimp only
  split
  · exact .inr rfl
  · exact .inl rfl

section

variable [Fintype C] {g g' : TaskGroup C} {cpu : C}

structure Kept (g : TaskGroup C) : Prop where
  sum : g.loadAvg = ∑ c, (g.cfsRq c).published
  sound : ∀ c, (g.cfsRq c).Sound
  shares : scaleLoad minShares ≤ g.shares ∧ g.shares ≤ scaleLoad maxShares

omit [DecidableEq C] in
theorem kept_init : Kept (TaskGroup.init : TaskGroup C) where
  sum := by simp [TaskGroup.init, GroupRq.published]
  sound _ _ hpc := by cases hpc
  shares := by
    show scaleLoad minShares ≤ 1 <<< 20 ∧ 1 <<< 20 ≤ scaleLoad maxShares
    decide

theorem Kept.put (h : Kept g) {q : GroupRq} {loadAvg : U64} (hq : q.Sound)
    (hsum : loadAvg + (g.cfsRq cpu).published = g.loadAvg + q.published) :
    Kept ({ g with loadAvg := loadAvg }.put cpu q) := by
  refine ⟨?_, fun c => ?_, h.shares⟩
  · have hupd := Ledger.sum_update g.cfsRq GroupRq.published cpu q
    rw [← h.sum, ← hsum] at hupd
    exact (add_right_cancel hupd).symm
  · by_cases hc : c = cpu
    · subst hc
      simpa [TaskGroup.put] using hq
    · simpa [TaskGroup.put, hc] using h.sound c

theorem setShares_range (shares : U64) : let shares := if shares < scaleLoad minShares then scaleLoad minShares else shares
    let shares := if scaleLoad maxShares < shares then scaleLoad maxShares else shares
    scaleLoad minShares ≤ shares ∧ shares ≤ scaleLoad maxShares := by
  have hmin : scaleLoad minShares = 2048 := by decide
  have hmax : scaleLoad maxShares = 268435456 := by decide
  dsimp only
  rw [hmin, hmax]
  by_cases hlow : shares < 2048
  · rw [if_pos hlow]
    decide
  · rw [if_neg hlow]
    split
    · decide
    · next hhigh => exact ⟨BitVec.not_lt.1 hlow, BitVec.not_lt.1 hhigh⟩

theorem Kept.step {op : Op C} (h : Kept g) (hstep : step op g = some g') : Kept g' := by
  cases op with
  | change cpu weight loadAvg =>
    obtain ⟨hout, rfl⟩ := of_guard hstep
    refine h.put (fun delta hpc => ?_) ?_
    · simp [hout] at hpc
    · simp [GroupRq.published, hout]
  | update cpu =>
    obtain ⟨hout, rfl⟩ := of_guard hstep
    rcases updateTgLoadAvg_cases (g.cfsRq cpu) with hpc | hpc
    · refine h.put (fun delta hadd => ?_) ?_
      · rw [hpc] at hadd
        cases hadd
      · simp only [GroupRq.published, hout, hpc]
    · refine h.put (fun delta hadd => ?_) ?_
      · rw [hpc] at hadd
        cases hadd
        exact add_sub_cancel _ _
      · simp only [GroupRq.published, hout, hpc]
  | access cpu =>
    simp only [GroupShares.step] at hstep
    split at hstep
    · cases hstep
    · next delta hadd =>
      cases hstep
      refine h.put (fun _ hpc => by cases hpc) ?_
      simp only [GroupRq.published, hadd]
      rw [← h.sound cpu delta hadd, add_assoc, add_comm delta]
    · next hstore =>
      cases hstep
      refine h.put (fun _ hpc => by cases hpc) ?_
      simp only [GroupRq.published, hstore]
  | setShares shares =>
    cases hstep
    exact ⟨h.sum, h.sound, setShares_range shares⟩

/-! ## The share -/

def TaskGroup.others (g : TaskGroup C) (cpu : C) : Nat := ∑ c ∈ Finset.univ.erase cpu, (g.cfsRq c).published.toNat

theorem Kept.tgWeight_eq (h : Kept g) (hout : (g.cfsRq cpu).pc = .out) :
    g.tgWeight cpu = BitVec.ofNat 64 (g.others cpu + (g.load cpu).toNat) := by
  have hown : (g.cfsRq cpu).published = (g.cfsRq cpu).tgLoadAvgContrib := by simp [GroupRq.published, hout]
  have hothers : ∑ c ∈ Finset.univ.erase cpu, (g.cfsRq c).published = BitVec.ofNat 64 (g.others cpu) := by
    have hcast : ∀ c, (g.cfsRq c).published = (((g.cfsRq c).published.toNat : ℕ) : U64) := fun c => by simp
    rw [Finset.sum_congr rfl fun c _ => hcast c, ← Nat.cast_sum]
    rfl
  rw [TaskGroup.tgWeight, h.sum, ← Finset.add_sum_erase _ _ (Finset.mem_univ cpu), hown, add_sub_cancel_left, hothers,
    BitVec.ofNat_add, BitVec.ofNat_toNat, BitVec.setWidth_eq]

/-- No wrap: neither below 0, when the own contribution is taken out, nor above. -/
theorem Kept.tgWeight_toInt (h : Kept g) (hout : (g.cfsRq cpu).pc = .out)
    (hfit : g.others cpu + (g.load cpu).toNat < 2 ^ 63) : (g.tgWeight cpu).toInt = g.others cpu + (g.load cpu).toNat := by
  rw [h.tgWeight_eq hout, BitVec.toInt_ofNat']
  exact Int.bmod_eq_of_le (by omega) (by omega)

theorem toInt_mul_le (x y : U64) : (x * y).toInt ≤ (x.toNat * y.toNat : ℕ) := by
  rw [BitVec.toInt_eq_toNat_cond, BitVec.toNat_mul]
  split <;> omega

theorem tdiv_le_of_le_mul {p s w : Int} (hs : 0 ≤ s) (hw : 0 < w) (hle : p ≤ s * w) : p.tdiv w ≤ s := by
  by_cases hp : 0 ≤ p
  · rw [Int.tdiv_eq_ediv_of_nonneg hp]
    exact Int.ediv_le_of_le_mul hw hle
  · have hneg : 0 ≤ (-p).tdiv w := Int.tdiv_nonneg (by omega) hw.le
    rw [Int.neg_tdiv] at hneg
    omega

omit [DecidableEq C] in
theorem Kept.shares_toInt (h : Kept g) : 2048 ≤ g.shares.toInt ∧ g.shares.toInt = g.shares.toNat := by
  obtain ⟨hlow, hhigh⟩ := h.shares
  have hmin : (scaleLoad minShares).toNat = 2048 := by decide
  have hmax : (scaleLoad maxShares).toNat = 268435456 := by decide
  rw [BitVec.le_def, hmin] at hlow
  rw [BitVec.le_def, hmax] at hhigh
  have heq := BitVec.toInt_eq_toNat_of_lt (x := g.shares) (by omega)
  omega

theorem Kept.unclamped_le (h : Kept g) (hout : (g.cfsRq cpu).pc = .out)
    (hfit : g.others cpu + (g.load cpu).toNat < 2 ^ 63) : (g.unclamped cpu).toInt ≤ g.shares.toInt := by
  have hweight := h.tgWeight_toInt hout hfit
  obtain ⟨hpos, hshares⟩ := h.shares_toInt
  simp only [TaskGroup.unclamped]
  split
  · next hne =>
    have hnonzero : (g.tgWeight cpu).toInt ≠ 0 := fun hzero => hne (BitVec.eq_of_toInt_eq (by simpa using hzero))
    have hnotneg : g.tgWeight cpu ≠ -1#64 := by
      intro hneg
      rw [hneg] at hweight
      have : (-1#64 : U64).toInt = -1 := by decide
      omega
    rw [BitVec.toInt_sdiv_of_ne_or_ne _ _ (.inr hnotneg)]
    refine tdiv_le_of_le_mul (by omega) (by omega) ?_
    calc (g.shares * g.load cpu).toInt ≤ (g.shares.toNat * (g.load cpu).toNat : ℕ) := toInt_mul_le _ _
      _ = g.shares.toInt * (g.load cpu).toNat := by rw [hshares, Nat.cast_mul]
      _ ≤ g.shares.toInt * (g.tgWeight cpu).toInt := by
        exact Int.mul_le_mul_of_nonneg_left (by omega) (by omega)
  · next hzero =>
    rw [not_not.1 hzero] at hweight
    have hload : g.load cpu = 0 := BitVec.eq_of_toNat_eq (by simp at hweight ⊢; omega)
    rw [hload, mul_zero]
    simp
    omega

theorem clampLong_range {x lo hi : U64} (hle : lo.toInt ≤ hi.toInt) :
    lo.toInt ≤ (clampLong x lo hi).toInt ∧ (clampLong x lo hi).toInt ≤ hi.toInt := by
  simp only [clampLong, BitVec.slt_iff_toInt_lt]
  split <;> split <;> omega

/-! ## Every interleaving -/

theorem kept_run (ops : List (Op C)) (hrun : run step ops TaskGroup.init = some g) : Kept g :=
  run_invariant (fun _ _ _ h hstep => h.step hstep) kept_init hrun

/-- What `calc_group_shares` computes on the way to a share of a CPU -/
structure TaskGroup.ShareRight (g : TaskGroup C) (cpu : C) : Prop where
  tgWeight : (g.tgWeight cpu).toInt = g.others cpu + (g.load cpu).toNat
  load_le : (g.load cpu).toInt ≤ (g.tgWeight cpu).toInt
  unclamped_le : (g.unclamped cpu).toInt ≤ g.shares.toInt

/-- Between updates the sum is that of the contributions. A CPU that is not within an update of its own, as the lock
sees to, computes a share in range, whatever the others are doing; and the weight the share is computed from has not
wrapped if the loads fit. -/
theorem group_shares_right (ops : List (Op C)) (hrun : run step ops TaskGroup.init = some g) :
    ((∀ c, (g.cfsRq c).pc = .out) → g.loadAvg = ∑ c, (g.cfsRq c).tgLoadAvgContrib) ∧
      ∀ cpu, (g.cfsRq cpu).pc = .out →
        (minShares.toInt ≤ (g.calcGroupShares cpu).toInt ∧ (g.calcGroupShares cpu).toInt ≤ g.shares.toInt) ∧
          (g.others cpu + (g.load cpu).toNat < 2 ^ 63 → g.ShareRight cpu) := by
  have h := kept_run ops hrun
  refine ⟨fun hout => ?_, fun cpu hout => ⟨clampLong_range ?_, fun hfit => ?_⟩⟩
  · rw [h.sum]
    refine Finset.sum_congr rfl fun c _ => ?_
    simp only [GroupRq.published, hout c]
  · have hmin : minShares.toInt = 2 := by decide
    have hpos := h.shares_toInt.1
    omega
  · have hweight := h.tgWeight_toInt hout hfit
    have hload : (g.load cpu).toInt = (g.load cpu).toNat := BitVec.toInt_eq_toNat_of_lt (by omega)
    exact ⟨hweight, by omega, h.unclamped_le hout hfit⟩

end

/-- The runqueue of a CPU gets a load and publishes it. -/
def publishes {C : Type} (cpu : C) (weight loadAvg : U64) : List (Op C) :=
  [.change cpu weight loadAvg, .update cpu, .access cpu, .access cpu]

/-- CPU 1 is between its two accesses, CPU 0 has a load that it has not published. -/
def contended : List (Op (Fin 2)) :=
  publishes 0 1048576 600 ++ [.change 1 1048576 900, .update 1, .access 1, .change 0 2097152 605, .update 0]

theorem group_shares_right_contended : ∃ g, run step contended TaskGroup.init = some g ∧ (g.cfsRq 1).pc = .store ∧
    (g.cfsRq 0).pc = .out ∧ g.calcGroupShares 0 = 728454 ∧
    (minShares.toInt ≤ (g.calcGroupShares 0).toInt ∧ (g.calcGroupShares 0).toInt ≤ g.shares.toInt) ∧
    g.ShareRight 0 := by
  refine ⟨_, rfl, by decide, by decide, by decide +kernel, ?_⟩
  have h := (group_shares_right contended rfl).2 0 (by decide)
  exact ⟨h.1, h.2 (by decide +kernel)⟩

/-- Loads of which three do not fit -/
def overloaded : List (Op (Fin 3)) :=
  publishes 1 0 0x7fffff8000000000 ++ publishes 2 0 0x7fffff8000000000 ++ [.change 0 0 0x10000000001]

/-- Nothing is in flight, and the weight is 1. -/
theorem overloaded_not_right : ∃ g, run step overloaded TaskGroup.init = some g ∧ (∀ c, (g.cfsRq c).pc = .out) ∧
    g.tgWeight 0 = 1 ∧ (g.tgWeight 0).toInt < (g.load 0).toInt ∧ g.shares.toInt < (g.unclamped 0).toInt :=
  ⟨_, rfl, by decide +kernel, by decide +kernel, by decide +kernel, by decide +kernel⟩

end KernelSched.GroupShares
