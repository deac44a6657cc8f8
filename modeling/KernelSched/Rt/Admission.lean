import KernelSched.Deadline.Bandwidth
import KernelSched.Lib.Ledger
import KernelSched.Lib.Run
import KernelSched.Lib.Visit

/-!
# Admission of real-time bandwidth

Each task group has a real-time runtime in each of its periods, and a system-wide limit (`sched_rt_runtime_us` in
`sched_rt_period_us`) bounds them all. A request changes the runtime and period of one group (`tg_set_rt_bandwidth`) or
the limit (`sched_rt_handler`). `__rt_schedulable` goes through all groups with the new values in place of the old: no
group may have more than its period, more than the limit, or less than its children together.

After every request, refused or not, this holds of all groups (`good_after_requests`), and a refused request has changed
nothing. `sched_rt_handler` writes the limit before it looks, and puts it back.

- The groups are a `Rooted.Tree`; `0` is `root_task_group`. Times are in nanoseconds, of 64 bits.
- `dl` is what `deadline.c` keeps of the limit. Its generation counts also go up on a refusal.
- Which groups have real-time tasks comes with each request.
-/

set_option linter.style.nameCheck false

namespace KernelSched.Rt

open Function (update)
open Rooted Run List
open Deadline (toRatio bwUnit bwShift maxRtRuntime RtLimit)

inductive Errno
  | einval
  | ebusy
  deriving DecidableEq, Repr

/-- `struct rt_bandwidth`; an unlimited runtime is `RUNTIME_INF`. -/
structure RtBandwidth where
  rtPeriod : Nat
  rtRuntime : Nat
  deriving DecidableEq, Repr

def RtBandwidth.ratio (b : RtBandwidth) : Nat := toRatio b.rtPeriod b.rtRuntime

/-- The task groups. The ids of their `cgroup_subsys_state` are positive `int`s. -/
structure Groups extends Tree where
  pos : 0 < size
  few : size < 2 ^ 31

/-- `sysctl_sched_rt_period`, which is unsigned, and `sysctl_sched_rt_runtime`, which is signed, in microseconds -/
structure Sysctl where
  schedRtPeriod : BitVec 32
  schedRtRuntime : BitVec 32
  deriving DecidableEq, Repr

namespace Sysctl

variable (c : Sysctl)

def globalRtPeriod : Nat := c.schedRtPeriod.toNat * 1000

def globalRtRuntime : Nat := if c.schedRtRuntime.toInt < 0 then runtimeInf else c.schedRtRuntime.toNat * 1000

def rtBandwidthEnabled : Bool := decide (0 ≤ c.schedRtRuntime.toInt)

def limit : RtLimit := ⟨c.globalRtPeriod, c.globalRtRuntime⟩

def schedRtGlobalValidate : Option Errno :=
  if c.schedRtPeriod = 0 then some .einval
  -- `-1` is `RUNTIME_INF` after its conversion; the first comparison is one of unsigned words
  else if c.schedRtRuntime ≠ BitVec.allOnes 32 ∧
      (c.schedRtPeriod < c.schedRtRuntime ∨ maxRtRuntime < (c.schedRtRuntime.signExtend 64 * 1000).toNat)
        then some .einval
  else none

end Sysctl

structure Limits where
  /-- `tg->rt_bandwidth` -/
  group : Nat → RtBandwidth
  /-- `tg->rt_rq[i]->rt_runtime` -/
  rtRq : Nat → Nat → Nat
  sysctl : Sysctl
  defRtBandwidth : RtBandwidth
  dl : Deadline.Machine

namespace Limits

variable (T : Groups) (hasRtTasks : Nat → Bool)

/-! ## The walk -/

/-- The bandwidth of a group, with that of the request in its place: `struct rt_schedulable_data` without a group is
`none`. -/
def trial (s : Limits) (d : Option (Nat × RtBandwidth)) (g : Nat) : RtBandwidth :=
  match d with
  | some (tg, b) => if g = tg then b else s.group g
  | none => s.group g

def tgRtSchedulable (s : Limits) (d : Option (Nat × RtBandwidth)) (g : Nat) : Option Errno :=
  let b := s.trial d g
  if b.rtPeriod < b.rtRuntime ∧ b.rtRuntime ≠ runtimeInf then some .einval
  else if s.sysctl.rtBandwidthEnabled ∧ b.rtRuntime = 0 ∧ (s.group g).rtRuntime ≠ 0 ∧ hasRtTasks g then some .ebusy
  else if toRatio s.sysctl.globalRtPeriod s.sysctl.globalRtRuntime < b.ratio then some .einval
  else if b.ratio < ((T.children g).map fun c => (s.trial d c).ratio).sum % 2 ^ 64 then some .einval
  else none

def __rtSchedulable (s : Limits) (d : Option (Nat × RtBandwidth)) : Option Errno :=
  (T.walkOrStop (fun g (u : Unit) => (s.tgRtSchedulable T hasRtTasks d g, u)) 0 ()).1

/-! ## Requests -/

def tgSetRtBandwidth (tg rtPeriod rtRuntime : Nat) (s : Limits) : Option Errno × Limits :=
  if tg = 0 ∧ rtRuntime = 0 then (some .einval, s)
  else if rtPeriod = 0 then (some .einval, s)
  else if rtRuntime ≠ runtimeInf ∧ maxRtRuntime < rtRuntime then (some .einval, s)
  else match s.__rtSchedulable T hasRtTasks (some (tg, ⟨rtPeriod, rtRuntime⟩)) with
    | some e => (some e, s)
    | none =>
      (none, { s with
        group := update s.group tg ⟨rtPeriod, rtRuntime⟩
        rtRq := update s.rtRq tg fun i => if i ∈ s.dl.cpus.map Deadline.Cpu.id then rtRuntime else s.rtRq tg i })

/-- In microseconds -/
def schedGroupSetRtRuntime (tg : Nat) (rtRuntimeUs : Int) (s : Limits) : Option Errno × Limits :=
  if rtRuntimeUs < 0 then s.tgSetRtBandwidth T hasRtTasks tg (s.group tg).rtPeriod runtimeInf
  else if (2 ^ 64 - 1) / 1000 < rtRuntimeUs.toNat then (some .einval, s)
  else s.tgSetRtBandwidth T hasRtTasks tg (s.group tg).rtPeriod (rtRuntimeUs.toNat * 1000)

/-- In microseconds -/
def schedGroupSetRtPeriod (tg rtPeriodUs : Nat) (s : Limits) : Option Errno × Limits :=
  if (2 ^ 64 - 1) / 1000 < rtPeriodUs then (some .einval, s)
  else s.tgSetRtBandwidth T hasRtTasks tg (rtPeriodUs * 1000) (s.group tg).rtRuntime

def schedRtDoGlobal (s : Limits) : Limits :=
  { s with defRtBandwidth := ⟨s.sysctl.globalRtPeriod, s.sysctl.globalRtRuntime⟩ }

def schedDlDoGlobal (s : Limits) : Limits :=
  { s with dl := { s.dl with limit := s.sysctl.limit }.schedDlDoGlobal }

/-- `sched_rt_handler` after `proc_dointvec` has written: the checks, then the new limit, or `undo`. -/
def schedRtHandlerWritten (old : Sysctl) (s : Limits) : Option Errno × Limits :=
  match s.sysctl.schedRtGlobalValidate with
  | some e => (some e, { s with sysctl := old })
  | none =>
    let r := s.dl.schedDlGlobalValidate s.sysctl.limit
    let s := { s with dl := r.2 }
    if r.1 then
      match s.__rtSchedulable T hasRtTasks none with
      | some e => (some e, { s with sysctl := old })
      | none => (none, s.schedRtDoGlobal.schedDlDoGlobal)
    else (some .ebusy, { s with sysctl := old })

/-- `sched_rt_handler`, for the sysctl that `write` sets; `none` is a text that `proc_dointvec` does not take. -/
def schedRtHandler (write : Sysctl → BitVec 32 → Sysctl) (value : Option (BitVec 32)) (s : Limits) :
    Option Errno × Limits :=
  match value with
  | none => (some .einval, s)
  | some v => schedRtHandlerWritten T hasRtTasks s.sysctl { s with sysctl := write s.sysctl v }

end Limits

inductive Request
  | bandwidth (tg rtPeriod rtRuntime : Nat)
  | runtime (tg : Nat) (us : Int)
  | period (tg us : Nat)
  | globalPeriod (value : Option (BitVec 32))
  | globalRuntime (value : Option (BitVec 32))

def Request.answer (T : Groups) (hasRtTasks : Nat → Bool) : Request → Limits → Option Errno × Limits
  | bandwidth tg rtPeriod rtRuntime => Limits.tgSetRtBandwidth T hasRtTasks tg rtPeriod rtRuntime
  | runtime tg us => Limits.schedGroupSetRtRuntime T hasRtTasks tg us
  | period tg us => Limits.schedGroupSetRtPeriod T hasRtTasks tg us
  | globalPeriod v => Limits.schedRtHandler T hasRtTasks (fun c v => { c with schedRtPeriod := v }) v
  | globalRuntime v => Limits.schedRtHandler T hasRtTasks (fun c v => { c with schedRtRuntime := v }) v

/-! ## What is admitted -/

namespace Limits

/-- No group has more runtime than its period, less than its children, or more than the limit. -/
structure Good (T : Groups) (s : Limits) : Prop where
  runtime_le : ∀ g < T.size, (s.group g).rtRuntime ≤ (s.group g).rtPeriod ∨ (s.group g).rtRuntime = runtimeInf
  children_le : ∀ g < T.size, ((T.children g).map fun c => (s.group c).ratio).sum ≤ (s.group g).ratio
  le_limit : ∀ g < T.size, (s.group g).ratio ≤ toRatio s.sysctl.globalRtPeriod s.sysctl.globalRtRuntime

structure Same (s s' : Limits) : Prop where
  group : s'.group = s.group
  rtRq : s'.rtRq = s.rtRq
  sysctl : s'.sysctl = s.sysctl
  defRtBandwidth : s'.defRtBandwidth = s.defRtBandwidth

variable {T : Groups} {hasRtTasks : Nat → Bool} {s s' : Limits} {d : Option (Nat × RtBandwidth)} {e : Errno}

theorem Same.refl (s : Limits) : Same s s := ⟨rfl, rfl, rfl, rfl⟩

theorem ratio_le {b : RtBandwidth} (h : b.rtRuntime ≤ b.rtPeriod ∨ b.rtRuntime = runtimeInf) :
    b.ratio ≤ bwUnit := by
  unfold RtBandwidth.ratio toRatio
  split
  · exact le_rfl
  · rename_i hinf
    have h := h.resolve_right hinf
    split
    · exact Nat.zero_le _
    · rw [Nat.shiftLeft_eq]
      calc b.rtRuntime * 2 ^ bwShift % 2 ^ 64 / b.rtPeriod
          ≤ b.rtPeriod * bwUnit / b.rtPeriod := Nat.div_le_div_right ((Nat.mod_le _ _).trans (Nat.mul_le_mul_right _ h))
        _ = bwUnit := Nat.mul_div_cancel_left _ (by omega)

structure Passed (T : Groups) (s : Limits) (d : Option (Nat × RtBandwidth)) (g : Nat) : Prop where
  runtime_le : (s.trial d g).rtRuntime ≤ (s.trial d g).rtPeriod ∨ (s.trial d g).rtRuntime = runtimeInf
  le_limit : (s.trial d g).ratio ≤ toRatio s.sysctl.globalRtPeriod s.sysctl.globalRtRuntime
  children_le : ((T.children g).map fun c => (s.trial d c).ratio).sum % 2 ^ 64 ≤ (s.trial d g).ratio

theorem passed_of_schedulable {g : Nat} (h : s.tgRtSchedulable T hasRtTasks d g = none) : Passed T s d g := by
  unfold tgRtSchedulable at h
  simp only [ite_eq_iff, reduceCtorEq, and_false, false_or, and_true, not_lt] at h
  obtain ⟨hruntime, -, hlimit, hchildren⟩ := h
  refine ⟨?_, hlimit, hchildren⟩
  by_cases hinf : (s.trial d g).rtRuntime = runtimeInf
  · exact .inr hinf
  · exact .inl (not_lt.1 fun hlt => hruntime ⟨hlt, hinf⟩)

theorem children_sum_lt (h : ∀ g < T.size, Passed T s d g) (g : Nat) :
    ((T.children g).map fun c => (s.trial d c).ratio).sum < 2 ^ 64 := by
  have hle : ((T.children g).map fun c => (s.trial d c).ratio).sum ≤ (T.children g).length * bwUnit :=
    Ledger.owed_le_mul fun c hc => ratio_le (h c (T.mem_children.1 hc).1).runtime_le
  have hlen : (T.children g).length ≤ T.size := by
    rw [Tree.children, length_reverse]
    exact (length_filter_le _ _).trans_eq length_range
  have hfew := T.few
  calc _ ≤ (T.children g).length * bwUnit := hle
    _ ≤ 2 ^ 31 * bwUnit := Nat.mul_le_mul_right _ (by omega)
    _ < 2 ^ 64 := by decide

/-- When the walk accepts, the groups are good with the requested values in place. -/
theorem good_of_schedulable (h : s.__rtSchedulable T hasRtTasks d = none) (hgroup : s'.group = s.trial d)
    (hsysctl : s'.sysctl = s.sysctl) : s'.Good T := by
  have hp : ∀ g < T.size, Passed T s d g := fun g hg =>
    passed_of_schedulable ((T.walkOrStop_look_eq_none T.pos ()).1 h g hg)
  refine ⟨fun g hg => ?_, fun g hg => ?_, fun g hg => ?_⟩
  · rw [hgroup]
    exact (hp g hg).runtime_le
  · have hsum := (hp g hg).children_le
    rw [Nat.mod_eq_of_lt (children_sum_lt hp g)] at hsum
    rw [hgroup]
    exact hsum
  · rw [hgroup, hsysctl]
    exact (hp g hg).le_limit

theorem trial_some (s : Limits) (tg : Nat) (b : RtBandwidth) : s.trial (some (tg, b)) = update s.group tg b := by
  funext g
  unfold trial
  by_cases hg : g = tg
  · subst hg
    simp
  · simp [hg]

/-! ## Every request -/

/-- What a request does: it is refused and changes nothing, or it is granted and the groups are good. -/
def Settles (T : Groups) (s : Limits) (r : Option Errno × Limits) : Prop :=
  (r.1 ≠ none ∧ Same s r.2) ∨ (r.1 = none ∧ r.2.Good T)

theorem tgSetRtBandwidth_settles (tg rtPeriod rtRuntime : Nat) (s : Limits) :
    Settles T s (s.tgSetRtBandwidth T hasRtTasks tg rtPeriod rtRuntime) := by
  have refused : ∀ e, Settles T s (some e, s) := fun e => .inl ⟨by simp, Same.refl s⟩
  unfold tgSetRtBandwidth
  split
  · exact refused _
  split
  · exact refused _
  split
  · exact refused _
  split
  · exact refused _
  · rename_i h
    exact .inr ⟨rfl, good_of_schedulable h (trial_some ..).symm rfl⟩

theorem schedGroupSetRtRuntime_settles (tg : Nat) (us : Int) (s : Limits) :
    Settles T s (s.schedGroupSetRtRuntime T hasRtTasks tg us) := by
  unfold schedGroupSetRtRuntime
  split
  · exact tgSetRtBandwidth_settles ..
  split
  · exact .inl ⟨by simp, Same.refl s⟩
  · exact tgSetRtBandwidth_settles ..

theorem schedGroupSetRtPeriod_settles (tg us : Nat) (s : Limits) :
    Settles T s (s.schedGroupSetRtPeriod T hasRtTasks tg us) := by
  unfold schedGroupSetRtPeriod
  split
  · exact .inl ⟨by simp, Same.refl s⟩
  · exact tgSetRtBandwidth_settles ..

theorem schedRtHandlerWritten_settles {c : Sysctl} (s : Limits) :
    Settles T s (schedRtHandlerWritten T hasRtTasks s.sysctl { s with sysctl := c }) := by
  unfold schedRtHandlerWritten
  split
  · exact .inl ⟨by simp, rfl, rfl, rfl, rfl⟩
  dsimp only
  split
  · split
    · exact .inl ⟨by simp, rfl, rfl, rfl, rfl⟩
    · rename_i h
      exact .inr ⟨rfl, good_of_schedulable h rfl rfl⟩
  · exact .inl ⟨by simp, rfl, rfl, rfl, rfl⟩

theorem schedRtHandler_settles (write : Sysctl → BitVec 32 → Sysctl) (value : Option (BitVec 32)) (s : Limits) :
    Settles T s (s.schedRtHandler T hasRtTasks write value) := by
  cases value with
  | none => exact .inl ⟨by simp [schedRtHandler], Same.refl s⟩
  | some v => exact schedRtHandlerWritten_settles s

/-- The groups after `sched_init`: the root has the limit, all others have nothing. -/
def boot (c : Sysctl) (dl : Deadline.Machine) : Limits where
  group g := ⟨c.globalRtPeriod, if g = 0 then c.globalRtRuntime else 0⟩
  rtRq g _ := if g = 0 then c.globalRtRuntime else 0
  sysctl := c
  defRtBandwidth := ⟨c.globalRtPeriod, c.globalRtRuntime⟩
  dl := dl

theorem boot_good {c : Sysctl} (hc : c.globalRtRuntime ≤ c.globalRtPeriod ∨ c.globalRtRuntime = runtimeInf)
    (dl : Deadline.Machine) : (boot c dl).Good T := by
  have hzero : ∀ g, g ≠ 0 → ((boot c dl).group g).ratio = 0 := by
    intro g hg
    simp [boot, hg, RtBandwidth.ratio, toRatio, runtimeInf]
  refine ⟨fun g _ => ?_, fun g _ => ?_, fun g _ => ?_⟩
  · by_cases hg : g = 0
    · subst hg
      exact hc
    · exact .inl (by simp [boot, hg])
  · rw [map_congr_left fun c hc => hzero c (T.mem_children.1 hc).2.1, map_const', sum_replicate_nat, Nat.mul_zero]
    exact Nat.zero_le _
  · by_cases hg : g = 0
    · subst hg
      exact le_rfl
    · rw [hzero g hg]
      exact Nat.zero_le _

theorem Good.of_same (h : s.Good T) (hs : Same s s') : s'.Good T := by
  refine ⟨?_, ?_, ?_⟩
  · rw [hs.group]; exact h.runtime_le
  · rw [hs.group]; exact h.children_le
  · rw [hs.group, hs.sysctl]; exact h.le_limit

end Limits

namespace Request

open Limits

variable {T : Groups} {s : Limits}

theorem answer_settles (hasRtTasks : Nat → Bool) (r : Request) (s : Limits) : Settles T s (r.answer T hasRtTasks s) := by
  cases r with
  | bandwidth tg p r => exact tgSetRtBandwidth_settles ..
  | runtime tg us => exact schedGroupSetRtRuntime_settles ..
  | period tg us => exact schedGroupSetRtPeriod_settles ..
  | globalPeriod | globalRuntime => exact schedRtHandler_settles ..

/-- A request, with the groups that have real-time tasks when it is made. -/
def step (T : Groups) (r : Request × (Nat → Bool)) (s : Limits) : Option Limits := some (r.1.answer T r.2 s).2

/-- After every request of every sequence the groups are good, and a request that was refused has changed nothing. -/
theorem good_after_requests (h : s.Good T) (rs : List (Request × (Nat → Bool))) : Along (step T)
    (fun r s => (r.1.answer T r.2 s).2.Good T ∧ ((r.1.answer T r.2 s).1 ≠ none → Same s (r.1.answer T r.2 s).2))
    rs s := by
  have settled : ∀ (r : Request × (Nat → Bool)) (s : Limits), s.Good T →
      (r.1.answer T r.2 s).2.Good T ∧ ((r.1.answer T r.2 s).1 ≠ none → Same s (r.1.answer T r.2 s).2) := by
    intro r s h
    rcases answer_settles (T := T) r.2 r.1 s with ⟨hr, hsame⟩ | ⟨hr, hgood⟩
    · exact ⟨h.of_same hsame, fun _ => hsame⟩
    · exact ⟨hgood, fun hn => absurd hr hn⟩
  have hall : Along (step T) (fun _ _ => True) rs s := along_of_forall (fun _ _ => trivial) rs s
  refine hall.imp_invariant (I := Good T) ?_ ?_ h
  · rintro r s s' h - hs
    cases hs
    exact (settled r s h).1
  · exact fun r s h _ => settled r s h

def nested : Groups := ⟨⟨3, Nat.pred, Nat.pred_lt⟩, by decide, by decide⟩

def defaults : Limits := boot ⟨1000000, 950000⟩ Deadline.oneCpu

/-- The group gets 300 ms and its child 200 ms; 400 ms for the child, and a limit of 100 ms, are refused. -/
def asked : List (Request × (Nat → Bool)) :=
  [(runtime 1 300000, fun _ => false), (runtime 2 200000, fun _ => true), (runtime 2 400000, fun _ => true),
    (globalRuntime (some 100000), fun _ => false)]

theorem good_after_asked : defaults.Good nested ∧ Along (step nested)
    (fun r s => (r.1.answer nested r.2 s).2.Good nested ∧
      ((r.1.answer nested r.2 s).1 ≠ none → Same s (r.1.answer nested r.2 s).2)) asked defaults :=
  have h : defaults.Good nested := boot_good (.inl (by decide)) _
  ⟨h, good_after_requests h asked⟩

end Request

end KernelSched.Rt
