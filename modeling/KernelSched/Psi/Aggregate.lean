import Mathlib.Algebra.BigOperators.Group.Finset.Basic
import KernelSched.Psi.Times

/-!
# Pressure stall information: totals, averages and triggers of a group

The two aggregators fold the times of all CPUs into totals of their own (`collectPercpuTimes`). `psi_avgs_work` feeds
the averages and the triggers of unprivileged users, every two seconds; `psi_rtpoll_work` the triggers of privileged
ones, as often as their windows ask; `psi_show` brings the averages up to date before it reports them. A trigger follows
the growth of one total in a window of time, with what the window before gives for the part that has not yet passed.

Totals and times are numbers without a bound; a difference, a product or a sum of them is cut to 64 bits as the code's
is. The averages themselves (`calc_avgs`), which nothing but the report reads, are in `Averages`.
-/

namespace KernelSched.Psi

open Wrap

def sub64 (a b : ℕ) : ℕ := ((a : U64) - (b : U64)).toNat

theorem sub64_eq (a b : ℕ) : sub64 a b = (2 ^ 64 - b % 2 ^ 64 + a % 2 ^ 64) % 2 ^ 64 := BitVec.toNat_sub _ _

theorem sub64_le {a b : ℕ} (h : b ≤ a) : sub64 a b ≤ a - b := by
  have hcast : (a : U64) - (b : U64) = ((a - b : ℕ) : U64) := (Nat.cast_sub h).symm
  rw [sub64, hcast]
  exact Nat.mod_le _ _

/-! ## Windows and triggers -/

structure Window where
  size : ℕ
  startTime : ℕ
  startValue : ℕ
  prevGrowth : ℕ

def Window.reset (w : Window) (now value prevGrowth : ℕ) : Window :=
  { w with startTime := now, startValue := value, prevGrowth := prevGrowth }

def Window.over (w : Window) (now : ℕ) : Bool := decide (w.size < sub64 now w.startTime)

/-- `window_update`: the window, and the growth -/
def Window.update (w : Window) (now value : ℕ) : Window × ℕ :=
  let growth := sub64 value w.startValue
  if w.over now then (w.reset now value growth, growth)
  else
    let remaining := (w.size - sub64 now w.startTime) % 2 ^ 32
    (w, (growth + w.prevGrowth * remaining % 2 ^ 64 / w.size) % 2 ^ 64)

/-- `struct psi_trigger`, with three things that the code does not have: a number that tells triggers apart, when the
trigger was created, and when the window before the current one began. -/
structure Trigger where
  state : PsiState
  threshold : ℕ
  event : Bool
  win : Window
  lastEventTime : ℕ
  pendingEvent : Bool
  aggregator : Aggregator
  id : ℕ
  created : ℕ
  since : ℕ

/-- A trigger's window takes in a new total. -/
def Trigger.measure (now value : ℕ) (t : Trigger) : Trigger :=
  { t with
    win := (t.win.update now value).1
    since := if t.win.over now then t.win.startTime else t.since }

/-- The end of `update_triggers`: an event, but only one in a window -/
def Trigger.fire (now : ℕ) (t : Trigger) : Trigger × Bool :=
  if now < (t.lastEventTime + t.win.size) % 2 ^ 64 then (t, false)
  else ({ t with event := true, lastEventTime := now, pendingEvent := false }, true)

/-- `update_triggers`, for one trigger: `seen` is the total that the aggregator has dealt with, `value` the total now.
Also whether an event is raised. -/
def Trigger.update (now seen value : ℕ) (t : Trigger) : Trigger × Bool :=
  if seen ≠ value then
    if !t.pendingEvent && decide ((t.win.update now value).2 < t.threshold) then (t.measure now value, false)
    else { t.measure now value with pendingEvent := true }.fire now
  else if t.pendingEvent then t.fire now
  else (t, false)

/-! ## The group -/

/-- `psi_period`, and the length of a jiffy -/
structure Config where
  psiPeriod : ℕ
  jiffy : ℕ

/-- `struct psi_group`, the part that the aggregators read and write -/
structure Group (C : Type) where
  cpus : C → Sampled
  total : Aggregator → PsiState → ℕ
  avgTotal : PsiState → ℕ
  avgLastUpdate : ℕ
  avgNextUpdate : ℕ
  avgTriggers : List Trigger
  rtpollTotal : PsiState → ℕ
  rtpollNextUpdate : ℕ
  rtpollUntil : ℕ
  rtpollMinPeriod : ℕ
  rtpollTriggers : List Trigger

/-- `group_init` of a group whose memory is zeroed -/
def groupInit (C : Type) (K : Config) (clock : ℕ) : Group C where
  cpus := fun _ => ⟨⟨fun _ => 0, false, fun _ => false, fun _ => 0, 0⟩, fun _ _ => 0⟩
  total := fun _ _ => 0
  avgTotal := fun _ => 0
  avgLastUpdate := clock
  avgNextUpdate := clock + K.psiPeriod
  avgTriggers := []
  rtpollTotal := fun _ => 0
  rtpollNextUpdate := 2 ^ 64 - 1
  rtpollUntil := 0
  rtpollMinPeriod := 2 ^ 32 - 1
  rtpollTriggers := []

namespace Group

variable {C : Type} [Fintype C] (K : Config)

/-- What the sample of a CPU gives for a state -/
def delta (g : Group C) (a : Aggregator) (clocks : C → U64) (c : C) (σ : PsiState) : ℕ :=
  (((g.cpus c).getRecentTimes a (clocks c)).2 σ).toNat

/-- A CPU's weight: its non-idle time in jiffies -/
def nonidle (g : Group C) (a : Aggregator) (clocks : C → U64) (c : C) : ℕ := g.delta a clocks c .nonidle / K.jiffy

/-- What a collection adds to a total: the mean of the CPUs' samples, weighted by their non-idle time -/
def sample (g : Group C) (a : Aggregator) (clocks : C → U64) (σ : PsiState) : ℕ :=
  ((∑ c, g.delta a clocks c σ * g.nonidle K a clocks c) % 2 ^ 64) /
    max ((∑ c, g.nonidle K a clocks c) % 2 ^ 64) 1

/-- `collect_percpu_times`; `clocks` is what `cpu_clock` shows of each CPU. -/
def collectPercpuTimes (a : Aggregator) (clocks : C → U64) (g : Group C) : Group C :=
  { g with
    cpus := fun c => ((g.cpus c).getRecentTimes a (clocks c)).1
    total := Function.update g.total a fun σ => g.total a σ + if σ = .nonidle then 0 else g.sample K a clocks σ }

/-- `changed_states` of a collection -/
def changed (a : Aggregator) (clocks : C → U64) (g : Group C) (σ : PsiState) : Prop := ∃ c, g.delta a clocks c σ ≠ 0

instance (a : Aggregator) (clocks : C → U64) (g : Group C) (σ : PsiState) : Decidable (g.changed a clocks σ) :=
  inferInstanceAs (Decidable (∃ c : C, g.delta a clocks c σ ≠ 0))

/-- The number of whole periods that have passed since an update was due -/
def missedPeriods (now : ℕ) (g : Group C) : ℕ :=
  if K.psiPeriod ≤ sub64 now g.avgNextUpdate then sub64 now g.avgNextUpdate / K.psiPeriod else 0

/-- `update_averages`: a sample longer than the period is left for the next. -/
def updateAverages (now : ℕ) (g : Group C) : Group C :=
  let missed := g.missedPeriods K now
  let period := sub64 now (g.avgLastUpdate + missed * K.psiPeriod)
  { g with
    avgNextUpdate := g.avgNextUpdate + (1 + missed) * K.psiPeriod
    avgLastUpdate := now
    avgTotal := fun σ =>
      let sample := sub64 (g.total .avgs σ) (g.avgTotal σ) % 2 ^ 32
      g.avgTotal σ + if period < sample then period % 2 ^ 32 else sample }

def triggers (g : Group C) : Aggregator → List Trigger
  | .avgs => g.avgTriggers
  | .poll => g.rtpollTriggers

/-- The total that an aggregator has dealt with -/
def aggregatorTotal (g : Group C) : Aggregator → PsiState → ℕ
  | .avgs => g.avgTotal
  | .poll => g.rtpollTotal

/-- `update_triggers`, for one trigger of the aggregator -/
def updateTrigger (now : ℕ) (a : Aggregator) (g : Group C) (t : Trigger) : Trigger × Bool :=
  t.update now (g.aggregatorTotal a t.state) (g.total a t.state)

/-- There is stall time that the aggregator has not dealt with. -/
def newStall (g : Group C) (a : Aggregator) (t : Trigger) : Bool :=
  decide (g.aggregatorTotal a t.state ≠ g.total a t.state)

def psiAvgsWork (now : ℕ) (clocks : C → U64) (g : Group C) : Group C :=
  let g := g.collectPercpuTimes K .avgs clocks
  if g.avgNextUpdate ≤ now then
    { g with avgTriggers := g.avgTriggers.map fun t => (g.updateTrigger now .avgs t).1 }.updateAverages K now
  else g

/-- `psi_show`: what it does to the group -/
def psiShow (now : ℕ) (clocks : C → U64) (g : Group C) : Group C :=
  let g := g.collectPercpuTimes K .avgs clocks
  if g.avgNextUpdate ≤ now then g.updateAverages K now else g

def initRtpollTriggers (now : ℕ) (g : Group C) : Group C :=
  { g with
    rtpollTriggers := g.rtpollTriggers.map fun t =>
      { t with win := t.win.reset now (g.total .poll t.state) 0, since := now }
    rtpollTotal := g.total .poll
    rtpollNextUpdate := now + g.rtpollMinPeriod }

def updatesPerWindow : ℕ := 10

/-- The first half of `psi_rtpoll_work`: collect, and start polling or go on with it when a state that is monitored has
changed -/
def rtpollEnter (now : ℕ) (clocks : C → U64) (g : Group C) : Group C :=
  let g' := g.collectPercpuTimes K .poll clocks
  if ∃ t ∈ g.rtpollTriggers, g.changed .poll clocks t.state then
    let g'' := if g.rtpollUntil < now then g'.initRtpollTriggers now else g'
    { g'' with rtpollUntil := now + g.rtpollMinPeriod * updatesPerWindow }
  else g'

/-- An update of the triggers is due, once the times are collected. -/
def rtpollDue (now : ℕ) (g : Group C) : Bool := decide (now ≤ g.rtpollUntil) && decide (g.rtpollNextUpdate ≤ now)

/-- The second half of `psi_rtpoll_work`: the triggers -/
def rtpollUpdate (now : ℕ) (g : Group C) : Group C :=
  if g.rtpollUntil < now then { g with rtpollNextUpdate := 2 ^ 64 - 1 }
  else if g.rtpollNextUpdate ≤ now then
    { g with
      rtpollTriggers := g.rtpollTriggers.map fun t => (g.updateTrigger now .poll t).1
      rtpollTotal := if g.rtpollTriggers.any (g.newStall .poll) then g.total .poll else g.rtpollTotal
      rtpollNextUpdate := now + g.rtpollMinPeriod }
  else g

def psiRtpollWork (now : ℕ) (clocks : C → U64) (g : Group C) : Group C :=
  (g.rtpollEnter K now clocks).rtpollUpdate now

end Group

/-! ## Creating and destroying triggers -/

inductive PsiRes
  | io
  | mem
  | cpu
  | irq

/-- A line that `psi_trigger_create` can read: `some` or `full`, threshold and window in microseconds -/
structure TriggerLine where
  full : Bool
  thresholdUs : ℕ
  windowUs : ℕ

/-- The state that a line asks for; of interrupts there is only `full`. -/
def PsiRes.stateOf : PsiRes → Bool → Option PsiState
  | .io, false => some .ioSome
  | .io, true => some .ioFull
  | .mem, false => some .memSome
  | .mem, true => some .memFull
  | .cpu, false => some .cpuSome
  | .cpu, true => some .cpuFull
  | .irq, false => none
  | .irq, true => some .irqFull

inductive TriggerError
  | einval
  deriving DecidableEq

def windowMaxUs : ℕ := 10000000

/-- `psi_trigger_create`, up to the trigger that it links: `line` is none where the text is neither of the two forms.
The window starts from the total of the polling aggregator, for a trigger of either kind. -/
def psiTriggerCreate {C : Type} (g : Group C) (res : PsiRes) (line : Option TriggerLine) (privileged : Bool)
    (now id : ℕ) : Except TriggerError Trigger :=
  match line with
  | none => .error .einval
  | some line =>
    match res.stateOf line.full with
    | none => .error .einval
    | some state =>
      if line.windowUs = 0 ∨ windowMaxUs < line.windowUs then .error .einval
      else if privileged = false ∧ line.windowUs % 2000000 ≠ 0 then .error .einval
      else if line.thresholdUs = 0 ∨ line.windowUs < line.thresholdUs then .error .einval
      else .ok
        { state := state
          threshold := line.thresholdUs * 1000
          event := false
          win := ⟨line.windowUs * 1000, now, g.total .poll state, 0⟩
          lastEventTime := 0
          pendingEvent := false
          aggregator := if privileged then .poll else .avgs
          id := id
          created := now
          since := now }

namespace Group

variable {C : Type}

/-- The end of `psi_trigger_create`: the trigger is linked. -/
def link (t : Trigger) (g : Group C) : Group C :=
  match t.aggregator with
  | .poll =>
    { g with
      rtpollTriggers := t :: g.rtpollTriggers
      rtpollMinPeriod := min g.rtpollMinPeriod (t.win.size / updatesPerWindow) }
  | .avgs => { g with avgTriggers := t :: g.avgTriggers }

def minPeriod (l : List Trigger) : ℕ := l.foldl (fun m t => min m (t.win.size / updatesPerWindow)) (2 ^ 64 - 1)

/-- `psi_trigger_destroy` of a linked trigger -/
def psiTriggerDestroy (t : Trigger) (g : Group C) : Group C :=
  match t.aggregator with
  | .avgs => { g with avgTriggers := g.avgTriggers.filter fun x => decide (x.id ≠ t.id) }
  | .poll =>
    let rest := g.rtpollTriggers.filter fun x => decide (x.id ≠ t.id)
    { g with
      rtpollTriggers := rest
      rtpollMinPeriod :=
        if g.rtpollMinPeriod = t.win.size / updatesPerWindow then minPeriod rest else g.rtpollMinPeriod
      rtpollUntil := if rest.isEmpty then 0 else g.rtpollUntil }

end Group

end KernelSched.Psi
