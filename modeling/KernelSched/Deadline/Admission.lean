import KernelSched.Deadline.Task

/-!
# Admission in words

What a root domain has admitted is a word of 64 bits, and so is all arithmetic of the admission test: the old bandwidth of
a task is subtracted before the new one is added. `dlOverflow64` and the functions below are those of the class with the
subtraction that wraps; where no subtraction goes below 0 they agree with the others (`schedDlOverflow64_eq`).

A change of parameters is accepted exactly if the total that it leaves passes the test, so it cannot push the total over
the limit, whatever the total was. Giving back more than there is in the total is another matter: then the total wraps.
`Right` says what each request should do, and `Backed` that it gives back no more than the total has; the two come to the
same along every sequence of requests (`right_iff_backed`).
-/

namespace KernelSched.Deadline

open Run Machine View

/-! ## Words -/

def wsub (a b : Nat) : Nat := (a + (2 ^ 64 - b % 2 ^ 64)) % 2 ^ 64

theorem wsub_of_le {a b : Nat} (hb : b ≤ a) (ha : a < 2 ^ 64) : wsub a b = a - b := by
  unfold wsub
  omega

/-- `cap_scale`, on words -/
def capScale64 (v s : Nat) : Nat := ((v * s) % 2 ^ 64) >>> schedCapacityShift

namespace Machine

def dlAdd64 (r tskBw : Nat) (s : Machine) : Machine :=
  (s.setTotal r (((s.rds r).totalBw + tskBw) % 2 ^ 64)).__dlUpdate r (-BitVec.ofInt 64 (perCpu tskBw (s.dlBwCpus r)))

def dlSub64 (r tskBw : Nat) (s : Machine) : Machine :=
  (s.setTotal r (wsub (s.rds r).totalBw tskBw)).__dlUpdate r (BitVec.ofInt 64 (perCpu tskBw (s.dlBwCpus r)))

/-- What the domain of a CPU may admit: `cap_scale(dl_b->bw, cap)`; none without a limit. -/
def limit64 (s : Machine) (c : Cpu) : Option Nat := (s.rds c.rd).bw.map fun bw => capScale64 bw (s.dlBwCapacity c)

/-- `__dl_overflow` for the domain of a CPU -/
def dlOverflow64 (s : Machine) (c : Cpu) (oldBw newBw : Nat) : Bool :=
  match s.limit64 c with
  | none => false
  | some limit => limit < (wsub (s.rds c.rd).totalBw oldBw + newBw) % 2 ^ 64

end Machine

/-! ## The requests -/

/-- `sched_dl_overflow`: what it returns, and what it does -/
def View.schedDlOverflow64 (policy : Policy) (attr : SchedAttr) (v : View) : Int × View :=
  let newBw := match policy with
    | .deadline => attr.bw
    | .other => 0
  let c := v.machine.cpu v.p.cpu
  if attr.flags.sugov then (0, v)
  else if newBw = v.p.dl.dlBw ∧ v.p.policy = .deadline then (0, v)
  else
    match policy, v.p.policy with
    | .deadline, .other =>
      if v.machine.dlOverflow64 c 0 newBw then (-1, v)
      else
        let m := if v.p.dl.inactiveTimer.active then v.machine.dlSub64 c.rd v.p.dl.dlBw else v.machine
        (0, { v with machine := m.dlAdd64 c.rd newBw })
    | .deadline, .deadline =>
      if v.machine.dlOverflow64 c v.p.dl.dlBw newBw then (-1, v)
      else
        let m := (v.machine.dlSub64 c.rd v.p.dl.dlBw).dlAdd64 c.rd newBw
        (0, { v with machine := m }.dlChangeUtilization newBw)
    | .other, .deadline => (0, v)
    | .other, .other => (-1, v)

inductive DlBwRequest
  | checkOverflow
  | alloc
  | free
  deriving Repr, DecidableEq

/-- The error, and what it does -/
def Machine.dlBwManage (req : DlBwRequest) (cpu dlBw : Nat) (s : Machine) : Option Errno × Machine :=
  let c := s.cpu cpu
  match req with
  | .free => (none, s.dlSub64 c.rd dlBw)
  | .checkOverflow => (if s.dlOverflow64 c 0 dlBw then some .ebusy else none, s)
  | .alloc => if s.dlOverflow64 c 0 dlBw then (some .ebusy, s) else (none, s.dlAdd64 c.rd dlBw)

/-! ## Agreement with the numbers -/

section

variable {s : Machine} {c : Cpu} {r bw : Nat}

theorem dlSub64_eq (hle : bw ≤ (s.rds r).totalBw) (hlt : (s.rds r).totalBw < 2 ^ 64) :
    s.dlSub64 r bw = s.__dlSub r bw := by
  rw [dlSub64, Machine.__dlSub, wsub_of_le hle hlt]

theorem dlAdd64_eq (hlt : (s.rds r).totalBw + bw < 2 ^ 64) : s.dlAdd64 r bw = s.__dlAdd r bw := by
  rw [dlAdd64, Machine.__dlAdd, Nat.mod_eq_of_lt hlt]

theorem dlOverflow64_eq {oldBw newBw : Nat} (hcap : ∀ bw, (s.rds c.rd).bw = some bw → bw * s.dlBwCapacity c < 2 ^ 64)
    (hold : oldBw ≤ (s.rds c.rd).totalBw) (hlt : (s.rds c.rd).totalBw + newBw < 2 ^ 64) :
    s.dlOverflow64 c oldBw newBw = __dlOverflow (s.rds c.rd) (s.dlBwCapacity c) oldBw newBw := by
  unfold dlOverflow64 limit64 __dlOverflow
  cases hbw : (s.rds c.rd).bw with
  | none => rfl
  | some bw =>
    simp only [Option.map_some]
    rw [capScale64, capScale, Nat.mod_eq_of_lt (hcap bw hbw), wsub_of_le hold (by omega),
      Nat.mod_eq_of_lt (show (s.rds c.rd).totalBw - oldBw + newBw < 2 ^ 64 by omega)]

end

theorem after_dlSub_lt {s : Machine} {r oldBw newBw : Nat} (hlt : (s.rds r).totalBw + newBw < 2 ^ 64) :
    ((s.__dlSub r oldBw).rds r).totalBw + newBw < 2 ^ 64 := by
  have htotal : ((s.__dlSub r oldBw).rds r).totalBw = (s.rds r).totalBw - oldBw := by
    simp [Machine.__dlSub, Machine.__dlUpdate, setTotal]
  omega

/-- Where the total has what the task gives back and nothing is too large, `sched_dl_overflow` is that of `Task`. -/
theorem schedDlOverflow64_eq {v : View} {attr : SchedAttr} (policy : Policy)
    (hcap : ∀ bw, (v.machine.rds (v.machine.cpu v.p.cpu).rd).bw = some bw →
      bw * v.machine.dlBwCapacity (v.machine.cpu v.p.cpu) < 2 ^ 64)
    (hold : v.p.policy = .deadline ∨ v.p.dl.inactiveTimer.active →
      v.p.dl.dlBw ≤ (v.machine.rds (v.machine.cpu v.p.cpu).rd).totalBw)
    (hlt : (v.machine.rds (v.machine.cpu v.p.cpu).rd).totalBw + attr.bw < 2 ^ 64) :
    v.schedDlOverflow64 policy attr = match v.schedDlOverflow policy attr with
      | none => (-1, v)
      | some w => (0, w) := by
  have hle : (v.machine.rds (v.machine.cpu v.p.cpu).rd).totalBw < 2 ^ 64 := by omega
  cases policy with
  | other => cases hp : v.p.policy <;> cases hs : attr.flags.sugov <;> simp [schedDlOverflow64, schedDlOverflow, hp, hs]
  | deadline =>
    cases hp : v.p.policy with
    | other =>
      simp only [schedDlOverflow64, schedDlOverflow, hp, dlOverflow64_eq hcap (Nat.zero_le _) hlt]
      split
      · rfl
      split
      · simp_all
      split
      · rfl
      cases htimer : v.p.dl.inactiveTimer.active with
      | false =>
        simp only [Bool.false_eq_true, if_false]
        rw [dlAdd64_eq hlt]
        rfl
      | true =>
        simp only [if_true]
        rw [dlSub64_eq (hold (.inr htimer)) hle, dlAdd64_eq (after_dlSub_lt hlt)]
        rfl
    | deadline =>
      have hback := hold (.inl hp)
      simp only [schedDlOverflow64, schedDlOverflow, hp, dlOverflow64_eq hcap hback hlt]
      split
      · rfl
      split
      · rfl
      split
      · rfl
      rw [dlSub64_eq hback hle, dlAdd64_eq (after_dlSub_lt hlt)]
      rfl

/-! ## What a request is to do -/

def Machine.Fits (s : Machine) (c : Cpu) : Prop := ∃ limit ∈ s.limit64 c, (s.rds c.rd).totalBw ≤ limit

instance (s : Machine) (c : Cpu) : Decidable (s.Fits c) :=
  inferInstanceAs (Decidable (∃ limit ∈ s.limit64 c, (s.rds c.rd).totalBw ≤ limit))

/-- The CPUs change: one is taken on or off line, or its capacity changes. -/
def Machine.setCapacity (id capacity : Nat) (active : Bool) (s : Machine) : Machine :=
  { s with
    cpus := s.cpus.map fun c => if c.id = id then { c with capacity := capacity, active := active } else c
    ids := by
      rw [List.map_map]
      convert s.ids using 2
      funext c
      simp only [Function.comp]
      split <;> rfl }

structure Pool where
  machine : Machine
  rqs : Nat → RqBw

/-- A request for bandwidth, for a task as it is at that time, and what else changes the limit -/
inductive Request
  | overflow (p : Task) (policy : Policy) (attr : SchedAttr)
  | manage (req : DlBwRequest) (cpu dlBw : Nat)
  | setCapacity (id capacity : Nat) (active : Bool)

namespace Pool

/-- The pool as `sched_dl_overflow` sees it -/
def view (s : Pool) (p : Task) : View := ⟨s.machine, s.rqs, p⟩

end Pool

namespace Request

def step : Request → Pool → Option Pool
  | .overflow p policy attr, s =>
    let v := ((s.view p).schedDlOverflow64 policy attr).2
    some ⟨v.machine, v.rqs⟩
  | .manage req cpu dlBw, s => some { s with machine := (s.machine.dlBwManage req cpu dlBw).2 }
  | .setCapacity id capacity active, s => some { s with machine := s.machine.setCapacity id capacity active }

/-- What `sched_dl_overflow` is to do: it keeps the total within the limit, accepts a change that only lowers the
bandwidth, and leaves everything as it was when it answers with an error. -/
structure OverflowRight (s : Pool) (p : Task) (policy : Policy) (attr : SchedAttr) (out : Int × View) : Prop where
  kept : s.machine.Fits (s.machine.cpu p.cpu) → out.2.machine.Fits (s.machine.cpu p.cpu)
  lowered : s.machine.Fits (s.machine.cpu p.cpu) → policy = .deadline → p.policy = .deadline → attr.bw < p.dl.dlBw →
    out.1 = 0
  refused : out.1 ≠ 0 → out.2 = s.view p

/-- What `dl_bw_manage` is to do -/
structure ManageRight (s : Machine) (c : Cpu) (out : Option Errno × Machine) : Prop where
  kept : s.Fits c → out.2.Fits c
  refused : out.1 ≠ none → out.2 = s

def Right : Request → Pool → Prop
  | .overflow p policy attr, s => OverflowRight s p policy attr ((s.view p).schedDlOverflow64 policy attr)
  | .manage req cpu dlBw, s => ManageRight s.machine (s.machine.cpu cpu) (s.machine.dlBwManage req cpu dlBw)
  | .setCapacity _ _ _, _ => True

/-- The total has what the request gives back: the part by which a deadline task lowers its bandwidth, the old bandwidth
of a task that comes back while its timer is active, or what is freed. -/
def Backed : Request → Pool → Prop
  | .overflow p policy attr, s =>
    let c := s.machine.cpu p.cpu
    let total := (s.machine.rds c.rd).totalBw
    s.machine.Fits c → attr.flags.sugov = false → policy = .deadline →
      (p.policy = .deadline → attr.bw < p.dl.dlBw → p.dl.dlBw - attr.bw ≤ total) ∧
      (p.policy = .other → p.dl.inactiveTimer.active → s.machine.dlOverflow64 c 0 attr.bw = false →
        p.dl.dlBw ≤ (total + attr.bw) % 2 ^ 64)
  | .manage .free cpu dlBw, s =>
    let c := s.machine.cpu cpu
    s.machine.Fits c → dlBw ≤ (s.machine.rds c.rd).totalBw
  | _, _ => True

instance (op : Request) (s : Pool) : Decidable (op.Backed s) := by
  rcases op with _ | ⟨_ | _ | _⟩ | _ <;> unfold Backed <;> infer_instance

/-- The bandwidths of a request are below `2 ^ 63`. -/
def Sized : Request → Bool
  | .overflow p _ _ => p.dl.dlBw < 2 ^ 63
  | .manage _ _ dlBw => dlBw < 2 ^ 63
  | .setCapacity _ _ _ => True

end Request

/-! ## One request -/

section

variable {s : Machine} {c : Cpu} {bw old : Nat}

theorem limit64_lt {limit : Nat} (h : limit ∈ s.limit64 c) : limit < 2 ^ 54 := by
  obtain ⟨b, -, rfl⟩ := Option.map_eq_some_iff.1 h
  rw [capScale64, Nat.shiftRight_eq_div_pow]
  show _ / 2 ^ 10 < 2 ^ 54
  omega

theorem limit64_setTotal (r total : Nat) : (s.setTotal r total).limit64 c = s.limit64 c := by
  unfold limit64
  by_cases hr : c.rd = r
  · subst hr
    simp [setTotal]
    rfl
  · simp [setTotal, hr]
    rfl

theorem limit64_dlUpdate (r : Nat) (w : Wrap.U64) : (s.__dlUpdate r w).limit64 c = s.limit64 c := rfl

theorem fits_setTotal {total : Nat} (r : Nat) (w : Wrap.U64) :
    ((s.setTotal c.rd total).__dlUpdate r w).Fits c ↔ ∃ limit ∈ s.limit64 c, total ≤ limit := by
  unfold Machine.Fits
  rw [limit64_dlUpdate, limit64_setTotal]
  simp [Machine.__dlUpdate, setTotal]

theorem fits_dlAdd64 :
    (s.dlAdd64 c.rd bw).Fits c ↔ ∃ limit ∈ s.limit64 c, ((s.rds c.rd).totalBw + bw) % 2 ^ 64 ≤ limit := fits_setTotal _ _

theorem fits_dlSub64 :
    (s.dlSub64 c.rd bw).Fits c ↔ ∃ limit ∈ s.limit64 c, wsub (s.rds c.rd).totalBw bw ≤ limit := fits_setTotal _ _

theorem fits_dlSub64_dlAdd64 : ((s.dlSub64 c.rd old).dlAdd64 c.rd bw).Fits c ↔
    ∃ limit ∈ s.limit64 c, (wsub (s.rds c.rd).totalBw old + bw) % 2 ^ 64 ≤ limit := by
  rw [fits_dlAdd64]
  have hlimit : (s.dlSub64 c.rd old).limit64 c = s.limit64 c := by
    rw [dlSub64, limit64_dlUpdate, limit64_setTotal]
  have htotal : ((s.dlSub64 c.rd old).rds c.rd).totalBw = wsub (s.rds c.rd).totalBw old := by
    simp [dlSub64, Machine.__dlUpdate, setTotal]
  rw [hlimit, htotal]

/-- The test passes exactly if the total that the request leaves is within the limit. -/
theorem dlOverflow64_eq_false {limit : Nat} (h : limit ∈ s.limit64 c) (old newBw : Nat) :
    s.dlOverflow64 c old newBw = false ↔ (wsub (s.rds c.rd).totalBw old + newBw) % 2 ^ 64 ≤ limit := by
  rw [dlOverflow64, h]
  simp

theorem Machine.Fits.dlAdd64 (h : s.Fits c) (hover : s.dlOverflow64 c 0 bw = false) : (s.dlAdd64 c.rd bw).Fits c := by
  obtain ⟨limit, hlimit, htotal⟩ := h
  have hlt := limit64_lt hlimit
  have hpass := (dlOverflow64_eq_false hlimit _ _).1 hover
  rw [wsub_of_le (Nat.zero_le _) (by omega)] at hpass
  exact fits_dlAdd64.2 ⟨limit, hlimit, hpass⟩

end

namespace Request

variable {s : Pool} {p : Task} {attr : SchedAttr}

theorem right_of_idle {policy : Policy} (h : (s.view p).schedDlOverflow64 policy attr = (0, s.view p)) :
    Right (.overflow p policy attr) s := by
  show OverflowRight s p policy attr _
  rw [h]
  exact ⟨id, fun _ _ _ _ => rfl, fun _ => rfl⟩

/-- A deadline task changes its parameters: the total that it would leave is what is tested. -/
theorem right_iff_of_change (hp : p.policy = .deadline) (hsized : p.dl.dlBw < 2 ^ 63) :
    Right (.overflow p .deadline attr) s ↔ Backed (.overflow p .deadline attr) s := by
  by_cases hidle : attr.flags.sugov = true ∨ attr.bw = p.dl.dlBw
  · refine iff_of_true (right_of_idle ?_) ?_
    · obtain h | h := hidle <;> simp [schedDlOverflow64, Pool.view, h, hp]
    · intro _ hsugov _
      refine ⟨fun _ hlt => ?_, fun h => by simp [hp] at h⟩
      obtain h | h := hidle
      · simp [hsugov] at h
      · omega
  push Not at hidle
  obtain ⟨hsugov, hne⟩ := hidle
  have hsugov : attr.flags.sugov = false := by simpa using hsugov
  cases hover : s.machine.dlOverflow64 (s.machine.cpu p.cpu) p.dl.dlBw attr.bw with
  | true =>
    have hout : (s.view p).schedDlOverflow64 .deadline attr = (-1, s.view p) := by
      simp [schedDlOverflow64, Pool.view, hsugov, hne, hp, hover]
    show OverflowRight s p .deadline attr _ ↔ _
    rw [hout]
    constructor
    · rintro ⟨-, haccept, -⟩ hfits - -
      refine ⟨fun _ hlt => ?_, fun h => by simp [hp] at h⟩
      exact absurd (haccept hfits rfl hp hlt) (show (-1 : Int) ≠ 0 by decide)
    · intro hbacked
      refine ⟨id, fun hfits _ _ hlt => ?_, fun _ => rfl⟩
      have hle := (hbacked hfits hsugov rfl).1 hp hlt
      obtain ⟨limit, hlimit, htotal⟩ := hfits
      have hpass := mt (dlOverflow64_eq_false hlimit p.dl.dlBw attr.bw).2 (by simp [hover])
      unfold wsub at hpass
      omega
  | false =>
    have hout : (s.view p).schedDlOverflow64 .deadline attr = (0, dlChangeUtilization attr.bw
        ⟨(s.machine.dlSub64 (s.machine.cpu p.cpu).rd p.dl.dlBw).dlAdd64 (s.machine.cpu p.cpu).rd attr.bw, s.rqs, p⟩) := by
      simp [schedDlOverflow64, Pool.view, hsugov, hne, hp, hover]
    refine iff_of_true ?_ ?_
    · show OverflowRight s p .deadline attr _
      rw [hout]
      refine ⟨?_, fun _ _ _ _ => rfl, fun h => absurd rfl h⟩
      rintro ⟨limit, hlimit, -⟩
      rw [dlChangeUtilization_machine]
      exact fits_dlSub64_dlAdd64.2 ⟨limit, hlimit, (dlOverflow64_eq_false hlimit _ _).1 hover⟩
    · rintro ⟨limit, hlimit, htotal⟩ - -
      refine ⟨fun _ hlt => ?_, fun h => by simp [hp] at h⟩
      have hlt54 := limit64_lt hlimit
      have hpass := (dlOverflow64_eq_false hlimit _ _).1 hover
      unfold wsub at hpass
      omega

/-- A task comes back while its timer is active: the test does not see that its old bandwidth is taken off. -/
theorem right_iff_of_return (hp : p.policy = .other) (hsized : p.dl.dlBw < 2 ^ 63) (hsugov : attr.flags.sugov = false)
    (hover : s.machine.dlOverflow64 (s.machine.cpu p.cpu) 0 attr.bw = false) (htimer : p.dl.inactiveTimer.active = true) :
    Right (.overflow p .deadline attr) s ↔ Backed (.overflow p .deadline attr) s := by
  have hout : (s.view p).schedDlOverflow64 .deadline attr = (0, ⟨(s.machine.dlSub64 (s.machine.cpu p.cpu).rd
      p.dl.dlBw).dlAdd64 (s.machine.cpu p.cpu).rd attr.bw, s.rqs, p⟩) := by
    simp [schedDlOverflow64, Pool.view, hsugov, hp, hover, htimer]
  show OverflowRight s p .deadline attr _ ↔ _
  rw [hout]
  constructor
  · rintro ⟨hkept, -, -⟩ hfits - -
    refine ⟨fun h => by simp [hp] at h, fun _ _ _ => ?_⟩
    obtain ⟨limit, hlimit, hafter⟩ := fits_dlSub64_dlAdd64.1 (hkept hfits)
    have hlt54 := limit64_lt hlimit
    unfold wsub at hafter
    omega
  · intro hbacked
    refine ⟨fun hfits => ?_, fun _ _ h => by simp [hp] at h, fun h => absurd rfl h⟩
    have hle := (hbacked hfits hsugov rfl).2 hp htimer hover
    obtain ⟨limit, hlimit, htotal⟩ := hfits
    have hlt54 := limit64_lt hlimit
    have hpass := (dlOverflow64_eq_false hlimit _ _).1 hover
    refine fits_dlSub64_dlAdd64.2 ⟨limit, hlimit, ?_⟩
    rw [wsub_of_le (Nat.zero_le _) (by omega)] at hpass
    unfold wsub
    omega

theorem right_iff_of_enter (hp : p.policy = .other) (hsized : p.dl.dlBw < 2 ^ 63) :
    Right (.overflow p .deadline attr) s ↔ Backed (.overflow p .deadline attr) s := by
  by_cases hsugov : attr.flags.sugov = true
  · refine iff_of_true (right_of_idle ?_) ?_
    · simp [schedDlOverflow64, Pool.view, hsugov]
    · intro _ hnot
      simp [hsugov] at hnot
  have hsugov : attr.flags.sugov = false := by simpa using hsugov
  have hother : p.policy ≠ .deadline := by simp [hp]
  cases hover : s.machine.dlOverflow64 (s.machine.cpu p.cpu) 0 attr.bw with
  | true =>
    have hout : (s.view p).schedDlOverflow64 .deadline attr = (-1, s.view p) := by
      simp [schedDlOverflow64, Pool.view, hsugov, hp, hover]
    refine iff_of_true ?_ fun _ _ _ => ⟨fun h => absurd h hother, fun _ _ hnot => by simp [hover] at hnot⟩
    show OverflowRight s p .deadline attr _
    rw [hout]
    exact ⟨id, fun _ _ h => absurd h hother, fun _ => rfl⟩
  | false =>
    cases htimer : p.dl.inactiveTimer.active with
    | false =>
      have hout : (s.view p).schedDlOverflow64 .deadline attr =
          (0, ⟨s.machine.dlAdd64 (s.machine.cpu p.cpu).rd attr.bw, s.rqs, p⟩) := by
        simp [schedDlOverflow64, Pool.view, hsugov, hp, hover, htimer]
      refine iff_of_true ?_ fun _ _ _ => ⟨fun h => absurd h hother, fun _ hnot => by simp [htimer] at hnot⟩
      show OverflowRight s p .deadline attr _
      rw [hout]
      exact ⟨fun hfits => hfits.dlAdd64 hover, fun _ _ _ _ => rfl, fun h => absurd rfl h⟩
    | true => exact right_iff_of_return hp hsized hsugov hover htimer

theorem right_of_leave : Right (.overflow p .other attr) s := by
  cases hp : p.policy with
  | deadline =>
    refine right_of_idle ?_
    simp [schedDlOverflow64, Pool.view, hp]
  | other =>
    by_cases hsugov : attr.flags.sugov = true
    · exact right_of_idle (by simp [schedDlOverflow64, hsugov])
    · have hout : (s.view p).schedDlOverflow64 .other attr = (-1, s.view p) := by
        simp [schedDlOverflow64, Pool.view, hsugov, hp]
      show OverflowRight s p .other attr _
      rw [hout]
      exact ⟨id, fun _ h => absurd h (by decide), fun _ => rfl⟩

theorem manage_right_of_test {cpu dlBw : Nat} {req : DlBwRequest} (hreq : req ≠ .free) :
    Right (.manage req cpu dlBw) s := by
  show ManageRight s.machine (s.machine.cpu cpu) _
  cases req with
  | free => exact absurd rfl hreq
  | checkOverflow => exact ⟨id, fun _ => rfl⟩
  | alloc =>
    cases hover : s.machine.dlOverflow64 (s.machine.cpu cpu) 0 dlBw with
    | true =>
      have hout : s.machine.dlBwManage .alloc cpu dlBw = (some .ebusy, s.machine) := by simp [dlBwManage, hover]
      rw [hout]
      exact ⟨id, fun _ => rfl⟩
    | false =>
      have hout : s.machine.dlBwManage .alloc cpu dlBw = (none, s.machine.dlAdd64 (s.machine.cpu cpu).rd dlBw) := by
        simp [dlBwManage, hover]
      rw [hout]
      exact ⟨fun hfits => hfits.dlAdd64 hover, fun h => absurd rfl h⟩

theorem manage_right_iff_of_free {cpu dlBw : Nat} (hsized : dlBw < 2 ^ 63) :
    Right (.manage .free cpu dlBw) s ↔ Backed (.manage .free cpu dlBw) s := by
  show ManageRight s.machine (s.machine.cpu cpu) (none, s.machine.dlSub64 (s.machine.cpu cpu).rd dlBw) ↔ _
  constructor
  · rintro ⟨hkept, -⟩ hfits
    obtain ⟨limit, hlimit, hafter⟩ := fits_dlSub64.1 (hkept hfits)
    obtain ⟨limit', hlimit', htotal⟩ := hfits
    have hlt54 := limit64_lt hlimit
    unfold wsub at hafter
    omega
  · intro hbacked
    refine ⟨?_, fun h => absurd rfl h⟩
    intro hfits
    have hle := hbacked hfits
    obtain ⟨limit, hlimit, htotal⟩ := hfits
    have hlt54 := limit64_lt hlimit
    refine fits_dlSub64.2 ⟨limit, hlimit, ?_⟩
    rw [wsub_of_le hle (by omega)]
    omega

theorem right_iff (op : Request) (hsized : op.Sized) : op.Right s ↔ op.Backed s := by
  cases op with
  | overflow p policy attr =>
    cases policy with
    | other => exact iff_of_true right_of_leave fun _ _ h => by cases h
    | deadline =>
      cases hp : p.policy with
      | deadline => exact right_iff_of_change hp (of_decide_eq_true hsized)
      | other => exact right_iff_of_enter hp (of_decide_eq_true hsized)
  | manage req cpu dlBw =>
    cases req with
    | free => exact manage_right_iff_of_free (of_decide_eq_true hsized)
    | checkOverflow | alloc => exact iff_of_true (manage_right_of_test (by decide)) trivial
  | setCapacity id capacity active => exact Iff.rfl

/-- Along a sequence of requests, with any capacities, all are right exactly if the total always has what is given back.
-/
theorem right_iff_backed {ops : List Request} (hsized : ∀ op ∈ ops, op.Sized) (s : Pool) :
    Along step Right ops s ↔ Along step Backed ops s := by
  induction ops generalizing s with
  | nil => exact Iff.rfl
  | cons op ops ih =>
    have hrest := fun s' => ih (fun op' hop => hsized op' (by simp [hop])) s'
    exact and_congr (right_iff op (hsized op (by simp))) (forall₂_congr fun s' _ => hrest s')

section

/-- One CPU, of full capacity, and 95% for deadline tasks -/
def soleCpu : Pool where
  machine := oneCpu
  rqs := fun _ => { runningBw := 0, thisBw := 0, warned := false }

def withParams (attr : SchedAttr) (p : Task) : Task := ((soleCpu.view p).setschedulerParams .deadline attr).p

/-- A task that has been admitted with a tenth of the bandwidth -/
def tenth : View :=
  { ((soleCpu.view (Task.fork 0)).schedDlOverflow64 .deadline (.perTenth 10000000)).2 with
    p := withParams (.perTenth 10000000) (Task.fork 0) }

/-- It asks for half of that, so the tenth is given back. -/
theorem schedDlOverflow64_soleCpu : tenth.schedDlOverflow64 .deadline (.perTenth 5000000) =
    match tenth.schedDlOverflow .deadline (.perTenth 5000000) with
      | none => (-1, tenth)
      | some w => (0, w) :=
  schedDlOverflow64_eq .deadline (by decide +kernel) (by decide +kernel) (by decide +kernel)

/-- What a thread of the `schedutil` governor asks for -/
def sugovAttr : SchedAttr :=
  { SchedAttr.other with
    policy := some .deadline, runtime := 1000000, deadline := 10000000, period := 10000000,
    flags := { DlFlags.none with sugov := true } }

/-- The thread gets its parameters without an account, and then asks for half of the bandwidth without the flag. -/
def lowerSugov : List Request :=
  [.overflow (Task.fork 0) .deadline sugovAttr,
    .overflow (withParams sugovAttr (Task.fork 0)) .deadline (.perTenth 5000000)]

/-- It asks for twice as much instead, leaves the class, and comes back while its timer is armed. -/
def returnSugov : List Request :=
  [.overflow (Task.fork 0) .deadline sugovAttr,
    .overflow (withParams sugovAttr (Task.fork 0)) .deadline (.perTenth 20000000),
    .overflow { withParams (.perTenth 20000000) (Task.fork 0) with
      policy := .other, dl := { (withParams (.perTenth 20000000) (Task.fork 0)).dl with inactiveTimer := .armed } }
      .deadline (.perTenth 1000000)]

/-- The first is refused, though the domain is empty; the second leaves a total that has wrapped. -/
theorem unaccounted_sugov : soleCpu.machine.Fits (soleCpu.machine.cpu 0) ∧ ¬ Along step Right lowerSugov soleCpu ∧
    ∃ s ∈ run step returnSugov soleCpu, ¬ s.machine.Fits (s.machine.cpu 0) := by
  refine ⟨by decide, ?_, by decide +kernel⟩
  rintro ⟨-, hrest⟩
  have hsecond := (hrest soleCpu rfl).1
  exact absurd (hsecond.lowered (by decide) rfl rfl (by decide)) (by decide)

/-- A task comes into the class and lowers its bandwidth, and some is reserved and given back. -/
def lowered : List Request :=
  [.overflow (Task.fork 0) .deadline (.perTenth 10000000),
    .overflow (withParams (.perTenth 10000000) (Task.fork 0)) .deadline (.perTenth 5000000),
    .manage .alloc 0 100000, .setCapacity 0 512 true, .manage .free 0 100000]

theorem right_admitted : (∀ op ∈ lowered, Sized op) ∧ Along step Right lowered soleCpu :=
  have hsized : ∀ op ∈ lowered, Sized op := by decide
  ⟨hsized, (right_iff_backed hsized soleCpu).2 (by decide +kernel)⟩

end

end Request

end KernelSched.Deadline
