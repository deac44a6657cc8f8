import Mathlib.Tactic.Linarith
import Mathlib.Tactic.Ring

/-!
# What a server with a budget and a deadline gives away

A server has a budget `Q` for every period `P`. Its time is cut into stretches, one for each deadline it has had. What is
charged in a stretch comes out of what was left when it began, and may exceed it; a new stretch begins with a new
budget and a later deadline. `log` lists the stretches, the last one first.

If the budget of each new stretch is paid for by the deadline's being moved (`Pays`), up to a slack, then over any
stretches in a row no more is charged than the share `Q / P` of the time from the first one to the last deadline, and
the overrun at the end, and the slacks (`Isolated.bound`).
-/

namespace KernelSched.Server

open List

/-- The time a deadline was in force -/
structure Stretch where
  begun : ℤ
  deadline : ℤ
  charged : ℤ
  /-- What is left of the budget; negative if it was overrun -/
  left : ℤ
  /-- What the rule that began the stretch may have given too much -/
  slack : ℤ
  deriving DecidableEq

def charged (log : List Stretch) : ℤ := (log.map Stretch.charged).sum

def slack (log : List Stretch) : ℤ := (log.map Stretch.slack).sum

/-- What is charged comes out of what the last stretch has left. -/
def chargeLast (c : ℤ) : List Stretch → List Stretch
  | [] => []
  | x :: log => { x with charged := x.charged + c, left := x.left - c } :: log

def Stretch.owed (x : Stretch) : ℤ := max 0 (-x.left)

variable (Q P : ℤ)

/-- A stretch that began late counts from a period before its deadline. -/
def Stretch.start (x : Stretch) : ℤ := min x.begun (x.deadline - P)

/-- Of the stretch `y` and the later ones `later`: what they were charged and have left is paid for. -/
def Fair (later : List Stretch) (y : Stretch) : Prop :=
  P * (charged (later ++ [y]) + (later.headD y).left) ≤
    ((later.headD y).deadline - y.start P) * Q + P * slack later

/-- Any stretches up to the last one are paid for. -/
def Current (log : List Stretch) : Prop := ∀ later y earlier, log = later ++ y :: earlier → Fair Q P later y

/-- Any stretches in a row are paid for. -/
def Isolated : List Stretch → Prop
  | [] => True
  | x :: log => Current Q P (x :: log) ∧ Isolated log

/-- The new budget of `y` beyond what `x` has left is paid for by moving the deadline. -/
structure Pays (x y : Stretch) : Prop where
  charged : y.charged = 0
  left : y.left ≤ Q
  moved : P * (y.left - x.left) ≤ (y.deadline - x.deadline) * Q + P * y.slack

variable {Q P} {x y : Stretch} {log : List Stretch}

@[simp] theorem charged_nil : charged [] = 0 := rfl

@[simp] theorem slack_nil : slack [] = 0 := rfl

@[simp] theorem charged_cons (x : Stretch) (log : List Stretch) : charged (x :: log) = x.charged + charged log :=
  sum_cons

@[simp] theorem slack_cons (x : Stretch) (log : List Stretch) : slack (x :: log) = x.slack + slack log := sum_cons

theorem Fair.first (hQ : 0 ≤ Q) (hP : 0 ≤ P) (hcharged : y.charged = 0) (hleft : y.left ≤ Q) : Fair Q P [] y := by
  have hstart : P ≤ y.deadline - y.start P := by
    rw [Stretch.start]
    omega
  have hbudget : P * y.left ≤ P * Q := mul_le_mul_of_nonneg_left hleft hP
  have hperiod : P * Q ≤ (y.deadline - y.start P) * Q := mul_le_mul_of_nonneg_right hstart hQ
  simp only [Fair, nil_append, charged_cons, charged_nil, hcharged, headD_nil, slack_nil, add_zero, zero_add,
    mul_zero]
  exact hbudget.trans hperiod

theorem Fair.push {later : List Stretch} {z : Stretch} (h : Fair Q P later z) (hpays : Pays Q P (later.headD z) y) :
    Fair Q P (y :: later) z := by
  have hmoved := hpays.moved
  simp only [Fair, cons_append, charged_cons, hpays.charged, zero_add, headD_cons, slack_cons] at h ⊢
  linarith

theorem Isolated.push (hQ : 0 ≤ Q) (hP : 0 ≤ P) (h : Isolated Q P (x :: log)) (hpays : Pays Q P x y) :
    Isolated Q P (y :: x :: log) := by
  refine ⟨fun later z earlier heq => ?_, h⟩
  cases later with
  | nil =>
    obtain ⟨rfl, -⟩ := cons_eq_cons.1 heq
    exact .first hQ hP hpays.charged hpays.left
  | cons w later =>
    obtain ⟨rfl, htail⟩ := cons_eq_cons.1 heq
    have hhead : later.headD z = x := by
      cases later with
      | nil | cons => exact (cons_eq_cons.1 htail).1.symm
    exact (h.1 later z earlier htail).push (hhead.symm ▸ hpays)

theorem isolated_first (hQ : 0 ≤ Q) (hP : 0 ≤ P) (hcharged : y.charged = 0) (hleft : y.left ≤ Q) : Isolated Q P [y] := by
  refine ⟨fun later z earlier heq => ?_, trivial⟩
  cases later with
  | nil =>
    obtain ⟨rfl, -⟩ := cons_eq_cons.1 heq
    exact .first hQ hP hcharged hleft
  | cons w later => simp at heq

theorem Isolated.charge (h : Isolated Q P (x :: log)) (c : ℤ) : Isolated Q P (chargeLast c (x :: log)) := by
  refine ⟨fun later z earlier heq => ?_, h.2⟩
  cases later with
  | nil =>
    obtain ⟨rfl, rfl⟩ := cons_eq_cons.1 heq
    have hfair := h.1 [] x log rfl
    simp only [Fair, nil_append, charged_cons, headD_nil, Stretch.start] at hfair ⊢
    convert hfair using 2
    ring
  | cons w later =>
    obtain ⟨rfl, rfl⟩ := cons_eq_cons.1 heq
    have hfair := h.1 (x :: later) z earlier rfl
    simp only [Fair, cons_append, charged_cons, headD_cons, slack_cons] at hfair ⊢
    convert hfair using 2
    ring

/-- The isolation of a server: stretches in a row, of which `y` is the first, are charged no more than their share. -/
theorem Isolated.bound (hP : 0 ≤ P) (h : Isolated Q P log) {after later before : List Stretch}
    (heq : log = after ++ later ++ y :: before) : P * charged (later ++ [y]) ≤
      ((later.headD y).deadline - y.start P) * Q + P * (later.headD y).owed + P * slack later := by
  induction after generalizing log with
  | nil =>
    have hfair : Fair Q P later y := by
      subst heq
      cases hlog : [] ++ later ++ y :: before with
      | nil => simp at hlog
      | cons x log =>
        rw [hlog] at h
        exact h.1 later y before hlog.symm
    have howed : -(later.headD y).left ≤ (later.headD y).owed := le_max_right _ _
    have hpaid := mul_le_mul_of_nonneg_left howed hP
    unfold Fair at hfair
    linarith
  | cons x after ih =>
    subst heq
    exact ih h.2 rfl

end KernelSched.Server
