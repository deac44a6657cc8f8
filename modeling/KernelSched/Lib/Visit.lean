import KernelSched.Lib.Rooted

/-!
# Walks that end at the first error

A visitor may fail. The walk goes through the nodes on the way down, with what each visitor has changed, and ends at the
first that fails; what was changed up to there stays. It is the same as visiting the nodes one after another
(`walkOrStop_eq`).
-/

namespace KernelSched.Rooted

open List

variable {ε σ : Type} (visit : Nat → σ → Option ε × σ)

/-- Visit the nodes of a list up to the first error. -/
def visits : List Nat → σ → Option ε × σ
  | [], s => (none, s)
  | x :: l, s =>
    match visit x s with
    | (some e, s') => (some e, s')
    | (none, s') => visits l s'

/-- After an error nothing is visited. -/
def orStop (g : Nat) : Option ε × σ → Option ε × σ
  | (some e, s) => (some e, s)
  | (none, s) => visit g s

namespace Tree

/-- The walk under `g`, with a visitor on the way down only. -/
def walkOrStop (T : Tree) (g : Nat) (s : σ) : Option ε × σ := T.walk (orStop visit) (fun _ r => r) g (none, s)

end Tree

variable {visit}

theorem visits_cons_none {x : Nat} {l : List Nat} {s s' : σ} (h : visit x s = (none, s')) :
    visits visit (x :: l) s = visits visit l s' := by rw [visits, h]

theorem visits_cons_some {x : Nat} {l : List Nat} {s s' : σ} {e : ε} (h : visit x s = (some e, s')) :
    visits visit (x :: l) s = (some e, s') := by rw [visits, h]

theorem foldl_orStop_some (l : List Nat) (e : ε) (s : σ) :
    l.foldl (fun r x => orStop visit x r) (some e, s) = (some e, s) := by
  induction l with
  | nil => rfl
  | cons x l ih => exact ih

theorem foldl_orStop (l : List Nat) (s : σ) : l.foldl (fun r x => orStop visit x r) (none, s) = visits visit l s := by
  induction l generalizing s with
  | nil => rfl
  | cons x l ih =>
    show l.foldl (fun r x => orStop visit x r) (visit x s) = _
    match h : visit x s with
    | (none, s') => rw [visits_cons_none h, ih]
    | (some e, s') => rw [visits_cons_some h, foldl_orStop_some]

theorem Tree.walkOrStop_eq (T : Tree) (g : Nat) (s : σ) :
    T.walkOrStop visit g s = visits visit (T.preorder T.size g) s := by
  rw [walkOrStop, walk, walkAux_down]
  exact foldl_orStop ..

/-! ## Visitors that only look -/

section

variable {check : Nat → Option ε} {l : List Nat} {T : Tree}

theorem visits_look_eq_none (s : σ) : (visits (fun x (s : σ) => (check x, s)) l s).1 = none ↔
    ∀ x ∈ l, check x = none := by
  induction l with
  | nil => simp [visits]
  | cons x l ih =>
    match h : check x with
    | none =>
      have hx : (check x, s) = (none, s) := by rw [h]
      rw [visits_cons_none hx, ih, forall_mem_cons, and_iff_right h]
    | some e =>
      have hx : (check x, s) = (some e, s) := by rw [h]
      rw [visits_cons_some hx]
      simp [h]

theorem Tree.walkOrStop_look_eq_none (hT : 0 < T.size) (s : σ) :
    (T.walkOrStop (fun x (s : σ) => (check x, s)) 0 s).1 = none ↔ ∀ x < T.size, check x = none := by
  rw [walkOrStop_eq, visits_look_eq_none]
  simp only [T.mem_preorder hT (Nat.le_add_right _ _), T.zero_mem_path, and_true]

end

end KernelSched.Rooted
