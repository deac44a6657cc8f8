import Mathlib.Algebra.BigOperators.Fin
import Mathlib.Tactic.Linarith
import KernelSched.Lib.Ledger
import KernelSched.Lib.Run
import KernelSched.Units

/-!
# The runtime pool of a task group

A task group with a quota has one pool of runtime (`struct cfs_bandwidth`) and a balance in the `cfs_rq` of every CPU.
Execution is charged to the balance, which may go below zero; runtime moves from the pool to a balance when it is used up
and when a throttled `cfs_rq` is paid its debt, and back when a `cfs_rq` has nothing to run. The period timer refills the
pool.

Every locked step works on the pool and one `cfs_rq`, so the steps are functions of such a pair (`Pair`), and `step` does
one of them for a CPU. The pool and the balances are exact integers; where the source converts a difference to `u64`, so
does the model (`toU64`).

A `cfs_rq` that was paid on another CPU is unthrottled later, by an interrupt (`throttled_csd_list`) or at the end of the
distribution (`local_unthrottle`), and its balance is not looked at again.
-/

namespace KernelSched.RuntimePool

open Run Function

/-! ## Model -/

/-- `min_cfs_rq_runtime`, in ns -/
def minCfsRqRuntime : Int := 1000000

/-- The value of a difference in a `u64`. -/
def toU64 (x : Int) : Int := x % 2 ^ 64

structure CfsBandwidth where
  quota : Nat
  burst : Nat
  runtime : Int
  runtimeSnap : Int
  burstTime : Int
  nrBurst : Nat
  idle : Bool

/-- `struct cfs_rq`. `csdQueued`: it is on `rq->cfsb_csd_list`. `localUnthrottle`: the distribution that runs on this CPU
has it in its variable of that name. -/
structure CfsRq where
  runtimeRemaining : Int
  throttled : Bool
  csdQueued : Bool
  localUnthrottle : Bool

/-- What a locked step works on. -/
abbrev Pair := CfsBandwidth × CfsRq

def refillCfsBandwidthRuntime (b : CfsBandwidth) : CfsBandwidth :=
  if b.quota = runtimeInf then b
  else
    let b := { b with runtime := b.runtime + b.quota }
    let runtime := b.runtimeSnap - b.runtime
    let b := if 0 < runtime then { b with burstTime := b.burstTime + runtime, nrBurst := b.nrBurst + 1 } else b
    let b := { b with runtime := min b.runtime (b.quota + b.burst) }
    { b with runtimeSnap := b.runtime }

/-- `__assign_cfs_rq_runtime`. It succeeds if the balance is positive after it. -/
def assignCfsRqRuntime (targetRuntime : Nat) : Pair → Pair
  | (b, c) =>
    let minAmount := toU64 (targetRuntime - c.runtimeRemaining)
    if b.quota = runtimeInf then (b, { c with runtimeRemaining := c.runtimeRemaining + minAmount })
    else if 0 < b.runtime then
      let amount := min b.runtime minAmount
      ({ b with runtime := b.runtime - amount, idle := false },
        { c with runtimeRemaining := c.runtimeRemaining + amount })
    else (b, c)

/-- `__account_cfs_rq_runtime`, with `sched_cfs_bandwidth_slice()` -/
def accountCfsRqRuntime (slice deltaExec : Nat) : Pair → Pair
  | (b, c) =>
    let c := { c with runtimeRemaining := c.runtimeRemaining - deltaExec }
    if 0 < c.runtimeRemaining then (b, c)
    else if c.throttled then (b, c)
    else assignCfsRqRuntime slice (b, c)

def throttleCfsRq (p : Pair) : Pair :=
  let (b, c) := assignCfsRqRuntime 1 p
  if 0 < c.runtimeRemaining then (b, c) else (b, { c with throttled := true })

def checkCfsRqRuntime (p : Pair) : Pair :=
  if 0 < p.2.runtimeRemaining then p
  else if p.2.throttled then p
  else throttleCfsRq p

def unthrottleCfsRq (c : CfsRq) : CfsRq := { c with throttled := false }

/-- `unthrottle_cfs_rq_async`; `here` if it is called on the CPU of the `cfs_rq`. -/
def unthrottleCfsRqAsync (here : Bool) (c : CfsRq) : CfsRq :=
  if c.throttled = false ∨ c.runtimeRemaining ≤ 0 then c
  else if here then unthrottleCfsRq c
  else { c with csdQueued := true }

/-- The runtime a throttled `cfs_rq` is given: its debt and one more, or what is left. -/
def granted (b : CfsBandwidth) (c : CfsRq) : Int :=
  let runtime := toU64 (-c.runtimeRemaining + 1)
  if b.runtime < runtime then b.runtime else runtime

/-- One `cfs_rq` in the loop of `distribute_cfs_runtime`; `here` if it belongs to the CPU the loop runs on. -/
def distributeCfsRuntime (here : Bool) : Pair → Pair
  | (b, c) =>
    if c.throttled = false then (b, c)
    else if c.csdQueued then (b, c)
    else
      let runtime := granted b c
      let b := { b with runtime := b.runtime - runtime }
      let c := { c with runtimeRemaining := c.runtimeRemaining + runtime }
      if 0 < c.runtimeRemaining then
        if here = false ∨ c.localUnthrottle then (b, unthrottleCfsRqAsync here c)
        else (b, { c with localUnthrottle := true })
      else (b, c)

/-- The end of `distribute_cfs_runtime`, on the CPU of the `cfs_rq`. -/
def finishDistribute (c : CfsRq) : CfsRq :=
  if c.localUnthrottle then
    let c := { c with localUnthrottle := false }
    if c.throttled then unthrottleCfsRq c else c
  else c

def cfsbCsdUnthrottle (c : CfsRq) : CfsRq :=
  if c.csdQueued then
    let c := { c with csdQueued := false }
    if c.throttled then unthrottleCfsRq c else c
  else c

def returnCfsRqRuntime : Pair → Pair
  | (b, c) =>
    let slackRuntime := c.runtimeRemaining - minCfsRqRuntime
    if slackRuntime ≤ 0 then (b, c)
    else
      let b := if b.quota ≠ runtimeInf then { b with runtime := b.runtime + slackRuntime } else b
      (b, { c with runtimeRemaining := c.runtimeRemaining - slackRuntime })

structure State (n : Nat) where
  cfsB : CfsBandwidth
  cfsRq : Fin n → CfsRq

inductive Op (n : Nat)
  | account (cpu : Fin n) (deltaExec : Nat)
  | assign (cpu : Fin n) (targetRuntime : Nat)
  | check (cpu : Fin n)
  | distribute (thisCpu cpu : Fin n)
  | finish (thisCpu : Fin n)
  | csd (cpu : Fin n)
  | giveBack (cpu : Fin n)
  | refill

variable {n : Nat}

/-- A step on the pool and the `cfs_rq` of one CPU. -/
def State.on (s : State n) (cpu : Fin n) (f : Pair → Pair) : State n :=
  ⟨(f (s.cfsB, s.cfsRq cpu)).1, update s.cfsRq cpu (f (s.cfsB, s.cfsRq cpu)).2⟩

def step (slice : Nat) (s : State n) : Op n → State n
  | .account cpu deltaExec => s.on cpu (accountCfsRqRuntime slice deltaExec)
  | .assign cpu targetRuntime => s.on cpu (assignCfsRqRuntime targetRuntime)
  | .check cpu => s.on cpu checkCfsRqRuntime
  | .distribute thisCpu cpu => s.on cpu (distributeCfsRuntime (cpu = thisCpu))
  | .finish thisCpu => s.on thisCpu (Prod.map id finishDistribute)
  | .csd cpu => s.on cpu (Prod.map id cfsbCsdUnthrottle)
  | .giveBack cpu => s.on cpu returnCfsRqRuntime
  | .refill => { s with cfsB := refillCfsBandwidthRuntime s.cfsB }

/-! ## One step on the pool and a balance -/

theorem toU64_nonneg (x : Int) : 0 ≤ toU64 x := Int.emod_nonneg x (by decide)

/-- `charged` is taken from the pool and the balance together, and the pool does not go below zero. -/
structure Moves (charged : Int) (p q : Pair) : Prop where
  conserved : q.1.runtime + q.2.runtimeRemaining + charged = p.1.runtime + p.2.runtimeRemaining
  nonneg : 0 ≤ p.1.runtime → 0 ≤ q.1.runtime
  quota : q.1.quota = p.1.quota
  burst : q.1.burst = p.1.burst

def CfsRq.Pending (c : CfsRq) : Prop := c.csdQueued = true ∨ c.localUnthrottle = true

instance (c : CfsRq) : Decidable c.Pending := inferInstanceAs (Decidable (_ ∨ _))

/-- The balance of a `cfs_rq` that is about to be unthrottled is positive. -/
def CfsRq.Paid (c : CfsRq) : Prop := c.Pending → 0 < c.runtimeRemaining

/-- If `c` was throttled and `d` is not, its balance is positive. -/
def Released (c d : CfsRq) : Prop := c.throttled = true → d.throttled = false → 0 < d.runtimeRemaining

section

variable {a a' : Int} {b : CfsBandwidth} {c : CfsRq} {p q r : Pair} {d : CfsRq}

theorem Moves.refl (p : Pair) : Moves 0 p p := ⟨by omega, id, rfl, rfl⟩

theorem Moves.trans (h : Moves a p q) (h' : Moves a' q r) : Moves (a + a') p r :=
  ⟨by have := h.conserved; have := h'.conserved; omega, h'.nonneg ∘ h.nonneg, h'.quota.trans h.quota,
    h'.burst.trans h.burst⟩

theorem Released.of_throttled_eq {c : CfsRq} (h : d.throttled = c.throttled) : Released c d := fun hc hd =>
  absurd (hd.symm.trans (h.trans hc)) Bool.false_ne_true

theorem assign_moves (target : Nat) (hq : p.1.quota ≠ runtimeInf) : Moves 0 p (assignCfsRqRuntime target p) := by
  obtain ⟨b, c⟩ := p
  simp only [assignCfsRqRuntime, if_neg hq]
  split
  · next hb =>
    refine ⟨?_, fun _ => ?_, rfl, rfl⟩
    · show b.runtime - _ + (c.runtimeRemaining + _) + 0 = b.runtime + c.runtimeRemaining
      omega
    · exact Int.sub_nonneg_of_le (min_le_left _ _)
  · exact Moves.refl _

theorem assign_snd (target : Nat) (p : Pair) : ∃ amount : Int, 0 ≤ amount ∧
    (assignCfsRqRuntime target p).2 = { p.2 with runtimeRemaining := p.2.runtimeRemaining + amount } := by
  simp only [assignCfsRqRuntime]
  split
  · exact ⟨_, toU64_nonneg _, rfl⟩
  · split
    · next hb => exact ⟨_, le_min hb.le (toU64_nonneg _), rfl⟩
    · exact ⟨0, le_rfl, by simp⟩

theorem assign_paid (target : Nat) (h : p.2.Paid) : (assignCfsRqRuntime target p).2.Paid := by
  obtain ⟨amount, hpos, heq⟩ := assign_snd target p
  rw [heq]
  intro hpend
  have := h hpend
  show 0 < p.2.runtimeRemaining + amount
  omega

theorem assign_throttled (target : Nat) (p : Pair) : (assignCfsRqRuntime target p).2.throttled = p.2.throttled := by
  obtain ⟨amount, -, heq⟩ := assign_snd target p
  rw [heq]

theorem charge_moves (deltaExec : Nat) (b : CfsBandwidth) (c : CfsRq) :
    Moves deltaExec (b, c) (b, { c with runtimeRemaining := c.runtimeRemaining - deltaExec }) :=
  ⟨by show b.runtime + (c.runtimeRemaining - deltaExec) + deltaExec = b.runtime + c.runtimeRemaining; omega, id, rfl, rfl⟩

theorem account_moves (slice deltaExec : Nat) (hq : p.1.quota ≠ runtimeInf) :
    Moves deltaExec p (accountCfsRqRuntime slice deltaExec p) := by
  obtain ⟨b, c⟩ := p
  have hcharge := charge_moves deltaExec b c
  simp only [accountCfsRqRuntime]
  split
  · exact hcharge
  · split
    · exact hcharge
    · simpa using hcharge.trans (assign_moves slice hq)

theorem account_paid {slice deltaExec : Nat} (h : p.2.Paid)
    (hcareful : p.2.Pending → deltaExec < p.2.runtimeRemaining) : (accountCfsRqRuntime slice deltaExec p).2.Paid := by
  obtain ⟨b, c⟩ := p
  have hcharge : ({ c with runtimeRemaining := c.runtimeRemaining - deltaExec } : CfsRq).Paid := fun hpend =>
    Int.sub_pos_of_lt (hcareful hpend)
  simp only [accountCfsRqRuntime]
  split
  · exact hcharge
  · split
    · exact hcharge
    · exact assign_paid slice hcharge

theorem account_throttled (slice deltaExec : Nat) (p : Pair) :
    (accountCfsRqRuntime slice deltaExec p).2.throttled = p.2.throttled := by
  simp only [accountCfsRqRuntime]
  split
  · rfl
  · split
    · rfl
    · exact assign_throttled slice _

theorem throttle_moves (hq : p.1.quota ≠ runtimeInf) : Moves 0 p (throttleCfsRq p) := by
  have h := assign_moves 1 hq
  unfold throttleCfsRq
  dsimp only
  split
  · exact h
  · exact ⟨h.conserved, h.nonneg, h.quota, h.burst⟩

theorem throttle_paid (h : p.2.Paid) : (throttleCfsRq p).2.Paid := by
  have h' := assign_paid 1 h
  unfold throttleCfsRq
  dsimp only
  split <;> exact h'

theorem check_moves (hq : p.1.quota ≠ runtimeInf) : Moves 0 p (checkCfsRqRuntime p) := by
  unfold checkCfsRqRuntime
  split
  · exact Moves.refl p
  · split
    · exact Moves.refl p
    · exact throttle_moves hq

theorem check_paid (h : p.2.Paid) : (checkCfsRqRuntime p).2.Paid := by
  unfold checkCfsRqRuntime
  split
  · exact h
  · split
    · exact h
    · exact throttle_paid h

theorem check_released (p : Pair) : Released p.2 (checkCfsRqRuntime p).2 := by
  unfold checkCfsRqRuntime
  split
  · exact Released.of_throttled_eq rfl
  · split
    · exact Released.of_throttled_eq rfl
    · next h => exact fun ht => absurd ht h

theorem async_remaining (here : Bool) (c : CfsRq) :
    (unthrottleCfsRqAsync here c).runtimeRemaining = c.runtimeRemaining := by
  unfold unthrottleCfsRqAsync
  split
  · rfl
  · split <;> rfl

theorem granted_le (b : CfsBandwidth) (c : CfsRq) : granted b c ≤ b.runtime := by
  simp only [granted]
  split <;> omega

theorem granted_nonneg (c : CfsRq) (hb : 0 ≤ b.runtime) : 0 ≤ granted b c := by
  simp only [granted]
  split
  · exact hb
  · exact toU64_nonneg _

theorem distribute_moves (here : Bool) (p : Pair) : Moves 0 p (distributeCfsRuntime here p) := by
  obtain ⟨b, c⟩ := p
  simp only [distributeCfsRuntime]
  split
  · exact Moves.refl _
  split
  · exact Moves.refl _
  have hmoves : ∀ d : CfsRq, d.runtimeRemaining = c.runtimeRemaining + granted b c →
      Moves 0 (b, c) ({ b with runtime := b.runtime - granted b c }, d) := by
    intro d hd
    refine ⟨?_, fun _ => Int.sub_nonneg_of_le (granted_le b c), rfl, rfl⟩
    show b.runtime - granted b c + d.runtimeRemaining + 0 = b.runtime + c.runtimeRemaining
    omega
  split
  · split
    · exact hmoves _ (async_remaining _ _)
    · exact hmoves _ rfl
  · exact hmoves _ rfl

theorem distribute_paid (here : Bool) (hb : 0 ≤ p.1.runtime) (h : p.2.Paid) : (distributeCfsRuntime here p).2.Paid := by
  obtain ⟨b, c⟩ := p
  simp only [distributeCfsRuntime]
  split
  · exact h
  split
  · exact h
  split
  · next hpos =>
    split
    · exact fun _ => (async_remaining here _).symm ▸ hpos
    · exact fun _ => hpos
  · next hpos =>
    -- a `cfs_rq` that was paid before has a positive balance
    have hgranted : 0 ≤ granted b c := granted_nonneg c hb
    intro hpend
    have hc : 0 < c.runtimeRemaining := h hpend
    show 0 < c.runtimeRemaining + granted b c
    omega

theorem distribute_released (here : Bool) (p : Pair) : Released p.2 (distributeCfsRuntime here p).2 := by
  simp only [distributeCfsRuntime]
  split
  · exact Released.of_throttled_eq rfl
  split
  · exact Released.of_throttled_eq rfl
  split
  · next hpos =>
    split
    · exact fun _ _ => (async_remaining here _).symm ▸ hpos
    · exact fun _ _ => hpos
  · exact Released.of_throttled_eq rfl

theorem giveBack_moves (hq : p.1.quota ≠ runtimeInf) : Moves 0 p (returnCfsRqRuntime p) := by
  obtain ⟨b, c⟩ := p
  simp only [returnCfsRqRuntime, if_pos hq]
  split
  · exact Moves.refl _
  · next hslack =>
    refine ⟨?_, fun hb => ?_, rfl, rfl⟩
    · show b.runtime + _ + (c.runtimeRemaining - _) + 0 = b.runtime + c.runtimeRemaining
      omega
    · show 0 ≤ b.runtime + (c.runtimeRemaining - minCfsRqRuntime)
      have hb : 0 ≤ b.runtime := hb
      omega

theorem giveBack_paid (h : p.2.Paid) : (returnCfsRqRuntime p).2.Paid := by
  obtain ⟨b, c⟩ := p
  simp only [returnCfsRqRuntime]
  split
  · exact h
  · intro _
    show 0 < c.runtimeRemaining - (c.runtimeRemaining - minCfsRqRuntime)
    unfold minCfsRqRuntime
    omega

theorem giveBack_throttled (p : Pair) : (returnCfsRqRuntime p).2.throttled = p.2.throttled := by
  simp only [returnCfsRqRuntime]
  split <;> rfl

/-- The two late unthrottles do nothing to a balance, and unthrottle only a `cfs_rq` that was pending. -/
structure Late (c d : CfsRq) : Prop where
  remaining : d.runtimeRemaining = c.runtimeRemaining
  pending : d.Pending → c.Pending
  released : d.throttled = c.throttled ∨ c.Pending

theorem Late.moves (h : Late c d) (b : CfsBandwidth) : Moves 0 (b, c) (b, d) :=
  ⟨by show b.runtime + d.runtimeRemaining + 0 = b.runtime + c.runtimeRemaining; rw [h.remaining]; omega, id, rfl, rfl⟩

theorem Late.paid (h : Late c d) (hc : c.Paid) : d.Paid := fun hpend => by
  rw [h.remaining]
  exact hc (h.pending hpend)

theorem Late.released_of_paid (h : Late c d) (hc : c.Paid) : Released c d := by
  rcases h.released with heq | hpend
  · exact Released.of_throttled_eq heq
  · intro _ _
    rw [h.remaining]
    exact hc hpend

theorem finish_late (c : CfsRq) : Late c (finishDistribute c) := by
  unfold finishDistribute
  split
  · next hl =>
    dsimp only
    split
    · exact ⟨rfl, fun hd => .imp_right (fun hf => absurd hf Bool.false_ne_true) hd, .inr (.inr hl)⟩
    · exact ⟨rfl, fun hd => .imp_right (fun hf => absurd hf Bool.false_ne_true) hd, .inl rfl⟩
  · exact ⟨rfl, id, .inl rfl⟩

theorem csd_late (c : CfsRq) : Late c (cfsbCsdUnthrottle c) := by
  unfold cfsbCsdUnthrottle
  split
  · next hl =>
    dsimp only
    split
    · exact ⟨rfl, fun hd => .imp_left (fun hf => absurd hf Bool.false_ne_true) hd, .inr (.inl hl)⟩
    · exact ⟨rfl, fun hd => .imp_left (fun hf => absurd hf Bool.false_ne_true) hd, .inl rfl⟩
  · exact ⟨rfl, id, .inl rfl⟩

end

/-! ## One step of the group -/

def State.total (s : State n) : Int := s.cfsB.runtime + ∑ cpu, (s.cfsRq cpu).runtimeRemaining

def Op.charged : Op n → Int
  | .account _ deltaExec => deltaExec
  | _ => 0

/-- How much a step raises the pool from outside. -/
def State.refilled (s : State n) : Op n → Int
  | .refill => min (s.cfsB.runtime + s.cfsB.quota) (s.cfsB.quota + s.cfsB.burst) - s.cfsB.runtime
  | _ => 0

structure State.Sane (s : State n) : Prop where
  finite : s.cfsB.quota ≠ runtimeInf
  nonneg : 0 ≤ s.cfsB.runtime

def State.AllPaid (s : State n) : Prop := ∀ cpu, (s.cfsRq cpu).Paid

/-- No more is charged to a `cfs_rq` that is about to be unthrottled than it was given. -/
def Op.Careful (s : State n) : Op n → Prop
  | .account cpu deltaExec => (s.cfsRq cpu).Pending → deltaExec < (s.cfsRq cpu).runtimeRemaining
  | _ => True

instance (s : State n) (op : Op n) : Decidable (op.Careful s) := by cases op <;> unfold Op.Careful <;> infer_instance

structure Accounted (slice : Nat) (op : Op n) (s : State n) : Prop where
  conserved : (step slice s op).total + op.charged = s.total + s.refilled op
  refill : op = .refill → (step slice s op).cfsB.runtime = s.cfsB.runtime + s.refilled op
  nonneg : 0 ≤ (step slice s op).cfsB.runtime

section

variable {s : State n} {cpu : Fin n} {f : Pair → Pair} {a : Int} {slice : Nat} {op : Op n}

@[simp] theorem on_self (s : State n) (cpu : Fin n) (f : Pair → Pair) :
    (s.on cpu f).cfsRq cpu = (f (s.cfsB, s.cfsRq cpu)).2 := update_self ..

theorem on_of_ne (s : State n) (f : Pair → Pair) {c : Fin n} (h : c ≠ cpu) : (s.on cpu f).cfsRq c = s.cfsRq c :=
  update_of_ne h ..

theorem total_on (h : Moves a (s.cfsB, s.cfsRq cpu) (f (s.cfsB, s.cfsRq cpu))) : (s.on cpu f).total + a = s.total := by
  have hsum := Ledger.sum_update s.cfsRq (fun c => c.runtimeRemaining) cpu (f (s.cfsB, s.cfsRq cpu)).2
  have hmoves := h.conserved
  rw [State.total, State.total]
  show (f (s.cfsB, s.cfsRq cpu)).1.runtime + ∑ c, (update s.cfsRq cpu _ c).runtimeRemaining + a = _
  linarith

theorem on_paid (h : s.AllPaid) (hf : (f (s.cfsB, s.cfsRq cpu)).2.Paid) (c : Fin n) : ((s.on cpu f).cfsRq c).Paid := by
  by_cases hc : c = cpu
  · rw [hc, on_self]
    exact hf
  · rw [on_of_ne s f hc]
    exact h c

theorem on_released (hf : Released (s.cfsRq cpu) (f (s.cfsB, s.cfsRq cpu)).2) (c : Fin n) :
    Released (s.cfsRq c) ((s.on cpu f).cfsRq c) := by
  by_cases hc : c = cpu
  · rw [hc, on_self]
    exact hf
  · rw [on_of_ne s f hc]
    exact Released.of_throttled_eq rfl

theorem refill_runtime (b : CfsBandwidth) (hq : b.quota ≠ runtimeInf) :
    (refillCfsBandwidthRuntime b).runtime = min (b.runtime + b.quota) (b.quota + b.burst) := by
  rw [refillCfsBandwidthRuntime, if_neg hq]
  dsimp only
  split <;> rfl

theorem refill_quota (b : CfsBandwidth) : (refillCfsBandwidthRuntime b).quota = b.quota := by
  unfold refillCfsBandwidthRuntime
  split
  · rfl
  · dsimp only
    split <;> rfl

theorem step_moves (slice : Nat) (hop : op ≠ .refill) (h : s.Sane) :
    ∃ cpu f, step slice s op = s.on cpu f ∧ Moves op.charged (s.cfsB, s.cfsRq cpu) (f (s.cfsB, s.cfsRq cpu)) := by
  cases op with
  | account cpu deltaExec => exact ⟨cpu, _, rfl, account_moves slice deltaExec h.finite⟩
  | assign cpu targetRuntime => exact ⟨cpu, _, rfl, assign_moves targetRuntime h.finite⟩
  | check cpu => exact ⟨cpu, _, rfl, check_moves h.finite⟩
  | distribute thisCpu cpu => exact ⟨cpu, _, rfl, distribute_moves _ _⟩
  | finish thisCpu => exact ⟨thisCpu, _, rfl, (finish_late _).moves _⟩
  | csd cpu => exact ⟨cpu, _, rfl, (csd_late _).moves _⟩
  | giveBack cpu => exact ⟨cpu, _, rfl, giveBack_moves h.finite⟩
  | refill => exact absurd rfl hop

theorem step_accounted (slice : Nat) (op : Op n) (h : s.Sane) : Accounted slice op s := by
  by_cases hop : op = .refill
  · subst hop
    have hruntime : (step slice s .refill).cfsB.runtime = s.cfsB.runtime + s.refilled .refill := by
      show (refillCfsBandwidthRuntime s.cfsB).runtime = _
      rw [refill_runtime _ h.finite, State.refilled]
      omega
    refine ⟨?_, fun _ => hruntime, ?_⟩
    · rw [State.total, hruntime, State.total]
      show s.cfsB.runtime + _ + ∑ cpu, (s.cfsRq cpu).runtimeRemaining + 0 = _
      omega
    · show 0 ≤ (refillCfsBandwidthRuntime s.cfsB).runtime
      have := h.nonneg
      rw [refill_runtime _ h.finite]
      omega
  · obtain ⟨cpu, f, hstep, hmoves⟩ := step_moves slice hop h
    have hrefilled : s.refilled op = 0 := by cases op <;> first | rfl | exact absurd rfl hop
    refine ⟨?_, fun heq => absurd heq hop, ?_⟩
    · rw [hstep, total_on hmoves, hrefilled, Int.add_zero]
    · rw [hstep]
      exact hmoves.nonneg h.nonneg

theorem step_quota (slice : Nat) (op : Op n) (h : s.Sane) : (step slice s op).cfsB.quota = s.cfsB.quota := by
  by_cases hop : op = .refill
  · subst hop
    exact refill_quota _
  · obtain ⟨cpu, f, hstep, hmoves⟩ := step_moves slice hop h
    rw [hstep]
    exact hmoves.quota

theorem step_paid (h : s.Sane) (hpaid : s.AllPaid) (hcareful : op.Careful s) : (step slice s op).AllPaid := by
  cases op with
  | account cpu deltaExec => exact on_paid hpaid (account_paid (hpaid cpu) hcareful)
  | assign cpu targetRuntime => exact on_paid hpaid (assign_paid targetRuntime (hpaid cpu))
  | check cpu => exact on_paid hpaid (check_paid (hpaid cpu))
  | distribute thisCpu cpu => exact on_paid hpaid (distribute_paid _ h.nonneg (hpaid cpu))
  | finish thisCpu => exact on_paid hpaid ((finish_late _).paid (hpaid thisCpu))
  | csd cpu => exact on_paid hpaid ((csd_late _).paid (hpaid cpu))
  | giveBack cpu => exact on_paid hpaid (giveBack_paid (hpaid cpu))
  | refill => exact hpaid

/-- A step unthrottles a `cfs_rq` only with a positive balance. -/
def Releases (slice : Nat) (op : Op n) (s : State n) : Prop :=
  ∀ cpu, Released (s.cfsRq cpu) ((step slice s op).cfsRq cpu)

theorem step_releases (slice : Nat) (op : Op n) (hpaid : s.AllPaid) : Releases slice op s := by
  cases op with
  | account cpu deltaExec => exact on_released (Released.of_throttled_eq (account_throttled _ _ _))
  | assign cpu targetRuntime => exact on_released (Released.of_throttled_eq (assign_throttled _ _))
  | check cpu => exact on_released (check_released (s.cfsB, s.cfsRq cpu))
  | distribute thisCpu cpu => exact on_released (distribute_released _ (s.cfsB, s.cfsRq cpu))
  | finish thisCpu => exact on_released ((finish_late _).released_of_paid (hpaid thisCpu))
  | csd cpu => exact on_released ((csd_late _).released_of_paid (hpaid cpu))
  | giveBack cpu => exact on_released (Released.of_throttled_eq (giveBack_throttled _))
  | refill => exact fun _ => Released.of_throttled_eq rfl

theorem step_sane (slice : Nat) (op : Op n) (h : s.Sane) : (step slice s op).Sane :=
  ⟨step_quota slice op h ▸ h.finite, (step_accounted slice op h).nonneg⟩

end

/-! ## Runs -/

def next (slice : Nat) (op : Op n) (s : State n) : Option (State n) := some (step slice s op)

def charged (ops : List (Op n)) : Int := (ops.map Op.charged).sum

def refills (slice : Nat) : List (Op n) → State n → Int
  | [], _ => 0
  | op :: ops, s => s.refilled op + refills slice ops (step slice s op)

theorem run_total (slice : Nat) (ops : List (Op n)) {s s' : State n} (h : s.Sane)
    (hrun : run (next slice) ops s = some s') :
    s'.total + charged ops = s.total + refills slice ops s := by
  induction ops generalizing s with
  | nil =>
    cases hrun
    rfl
  | cons op ops ih =>
    have hrest := ih (step_sane slice op h) hrun
    have hstep := (step_accounted slice op h).conserved
    simp only [charged, refills, List.map_cons, List.sum_cons] at hrest ⊢
    linarith

/-- The pool, the balances and the execution charged change together by the refills only, and the pool does not
underflow. If nothing that is about to be unthrottled is charged more than it was given, a throttled `cfs_rq` is
unthrottled only with a positive balance. -/
theorem runtime_accounted (slice : Nat) {s : State n} (h : s.Sane) (hpaid : s.AllPaid) (ops : List (Op n)) :
    (∀ s', run (next slice) ops s = some s' → s'.total + charged ops = s.total + refills slice ops s) ∧
      Along (next slice) (Accounted slice) ops s ∧
        (Along (next slice) (fun op s => op.Careful s) ops s → Along (next slice) (Releases slice) ops s) := by
  refine ⟨fun s' => run_total slice ops h, ?_, fun hcareful => ?_⟩
  · have hsane : ∀ op (t t' : State n), t.Sane → True → next slice op t = some t' → t'.Sane := by
      rintro op t _ ht - ⟨⟩
      exact step_sane slice op ht
    exact (along_of_forall (fun _ _ => trivial) ops s).imp_invariant hsane (fun op t ht _ => step_accounted slice op ht) h
  · have hinv : ∀ op (t t' : State n), t.Sane ∧ t.AllPaid → op.Careful t → next slice op t = some t' →
        t'.Sane ∧ t'.AllPaid := by
      rintro op t _ ht hop ⟨⟩
      exact ⟨step_sane slice op ht.1, step_paid ht.1 ht.2 hop⟩
    exact hcareful.imp_invariant hinv (fun op t ht _ => step_releases slice op ht.2) ⟨h, hpaid⟩

/-- Two CPUs, a quota of 10 and an empty pool. -/
def start : State 2 := ⟨⟨10, 0, 0, 0, 0, 0, false⟩, fun _ => ⟨0, false, false, false⟩⟩

/-- CPU 0 is throttled with a debt of 3 and paid by the timer on CPU 1. It is given more and charged a part of that before
the interrupt unthrottles it. -/
def payRun : List (Op 2) := [.account 0 3, .check 0, .refill, .distribute 1 0, .assign 0 5, .account 0 2, .csd 0]

theorem start_sane : start.Sane := ⟨by decide, by decide⟩

theorem start_paid : start.AllPaid := by
  rintro cpu (hcsd | hlocal)
  · cases hcsd
  · cases hlocal

theorem runtime_accounted_payRun : start.Sane ∧ start.AllPaid ∧
    (∃ s', run (next 5) payRun start = some s' ∧ s'.total + charged payRun = start.total + refills 5 payRun start) ∧
      Along (next 5) (Accounted 5) payRun start ∧ Along (next 5) (fun op s => op.Careful s) payRun start ∧
        Along (next 5) (Releases 5) payRun start := by
  have h := runtime_accounted 5 start_sane start_paid payRun
  have hcareful : Along (next 5) (fun op s => op.Careful s) payRun start := by decide +kernel
  exact ⟨start_sane, start_paid, ⟨_, rfl, h.1 _ rfl⟩, h.2.1, hcareful, h.2.2 hcareful⟩

/-- CPU 0 is paid and its interrupt is on its way. Five more are charged to it, by a task that was put back in spite of
the throttling, and it is unthrottled with a balance of -4. -/
theorem unthrottled_in_debt :
    ∃ s s', run (next 5) [.account 0 3, .check 0, .refill, .distribute 1 0, .account 0 5] start = some s ∧
      run (next 5) [.csd 0] s = some s' ∧ (s.cfsRq 0).throttled = true ∧ (s'.cfsRq 0).throttled = false ∧
        (s'.cfsRq 0).runtimeRemaining = -4 :=
  ⟨_, _, rfl, rfl, by decide +kernel, by decide +kernel, by decide +kernel⟩

end KernelSched.RuntimePool
