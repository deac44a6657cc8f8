import KernelSched.Deadline.RqActions
import KernelSched.Deadline.RqChange
import KernelSched.Lib.Ledger

/-!
# The bandwidths of the runqueues

In every run whose changes of policies and parameters are steady, `running_bw` and `this_bw` of every runqueue are the
sums over its tasks. A task is looked at against the rest of them: the actions keep it booked, and the sum over all
tasks is its share and that of the others. A change that meets a task between its wakeup on another CPU and its
activation there is not steady, and breaks the sums.
-/

namespace KernelSched.Deadline

open Run Ledger List Deadline.Task Deadline.Action Standing

/-! ## Steps -/

/-- The condition on an action: only a special task is a deadline task before it runs for the first time, and changes of
the parameters are steady. -/
def Action.Steady : Action → Task → Prop
  | .wakeUpNewTask _ _, p => p.policy = .deadline → p.dl.special = true
  | .setscheduler _ attr _ _, p => attr.Steady p
  | _, _ => True

instance (a : Action) (p : Task) : Decidable (a.Steady p) := by
  cases a <;> unfold Action.Steady <;> infer_instance

theorem Action.act_booked {R : Rest} {v : View} {a : Action} (he : a.enabled v.p = true) (ho : a.Steady v.p)
    (hs : v.p.Sane) (ht : v.p.Timed) (h : Booked R v) : Booked R (a.act v) ∧ (a.act v).p.Timed := by
  cases a with
  | wakeUpNewTask cpu late => exact wakeUpNewTask_booked ht h ho cpu late
  | tryToWakeUp cpu => exact tryToWakeUp_booked ht h hs (by simpa [enabled] using he) cpu
  | ttwuDoActivate late => exact ttwuDoActivate_booked ht h hs (by simpa [enabled] using he) late
  | sleep passed => exact deactivateSleep_booked ht h hs (by simpa [enabled] using he) .blocked passed
  | exit passed => exact deactivateSleep_booked ht h hs (by simpa [enabled] using he) .dead passed
  | throttle timerStarted =>
    have he' : v.p.onRq = .queued ∧ v.p.policy = .deadline := by simpa [enabled] using he
    exact throttle_booked ht h he'.1 timerStarted
  | replenish offline => exact replenish_booked ht h hs offline
  | migrateOut => exact migrateOut_booked ht h hs (by simpa [enabled] using he)
  | migrateIn cpu late => exact migrateIn_booked ht h hs (by simpa [enabled] using he) cpu late
  | inactiveTimerExpires => exact inactiveTimerExpires_booked ht h (by simpa [enabled] using he)
  | inactiveTimerRuns =>
    have he' : v.p.dl.inactiveTimer = .firing ∧ v.p.onRq ≠ .migrating := by simpa [enabled] using he
    exact inactiveTimerRuns_booked ht h hs (by rw [he'.1]; rfl)
  | setscheduler range attr passed late =>
    rw [act]
    split
    · exact setscheduler_booked hs ht h (by simpa [enabled] using he) ho ‹_›
    · exact ⟨h, ht⟩

/-- What a task counts in the active bandwidth of the CPU `c`. -/
def Task.runningShare (c : Nat) (p : Task) : Nat := if p.cpu = c then p.standing.running p.countedBw else 0

/-- What a task counts in the bandwidth assigned to the CPU `c`. -/
def Task.thisShare (c : Nat) (p : Task) : Nat := if p.cpu = c then p.standing.this p.countedBw else 0

theorem Task.runningShare_le (c : Nat) (p : Task) : p.runningShare c ≤ p.thisShare c := by
  unfold runningShare thisShare
  split
  · cases p.standing <;> simp [running, this]
  · exact le_rfl

theorem Task.thisShare_le {p : Task} (h : p.Sane) (c : Nat) : p.thisShare c ≤ bwUnit := by
  unfold thisShare
  split
  · cases p.standing
    · exact Nat.zero_le _
    · exact h.small
    · exact h.small
  · exact Nat.zero_le _

namespace Sched

/-- The invariant of runs: the runqueues count the shares of all tasks, and no check has failed. -/
structure Counted (s : Sched) : Prop where
  sane : ∀ p ∈ s.tasks, p.Sane ∧ p.Timed
  rqs : ∀ c, s.rqs c = ⟨owed (Task.runningShare c) s.tasks, owed (Task.thisShare c) s.tasks, false⟩
  few : s.tasks.length * bwUnit < 2 ^ 64

variable {s : Sched} {i : Nat} {p : Task}

def Counted.rest (h : s.Counted) (hp : s.tasks[i]? = some p) : Rest where
  running c := others (Task.runningShare c) s.tasks i
  this c := others (Task.thisShare c) s.tasks i
  le c := others_le fun q _ => q.runningShare_le c
  small c := by
    have hi : i < s.tasks.length := (List.getElem?_eq_some_iff.1 hp).1
    have hle := others_add_le (f := Task.thisShare c) (fun q hq => Task.thisShare_le (h.sane q hq).1 c) hi
    have hfew := h.few
    omega

theorem Counted.booked (h : s.Counted) (hp : s.tasks[i]? = some p) : Booked (h.rest hp) (s.view p) := by
  funext c
  show s.rqs c = (h.rest hp).book p.cpu p.countedBw p.standing c
  rw [h.rqs c, owed_eq_others_add hp, owed_eq_others_add hp]
  unfold Rest.book runningShare thisShare
  by_cases hc : c = p.cpu
  · subst hc
    simp only [if_true]
    rfl
  · simp only [hc, Ne.symm hc, if_false]
    rfl

theorem Counted.of_booked (h : s.Counted) (hp : s.tasks[i]? = some p) {v : View} (hs : v.p.Sane) (ht : v.p.Timed)
    (hb : Booked (h.rest hp) v) : Counted { machine := v.machine, rqs := v.rqs, tasks := s.tasks.set i v.p } where
  sane := by
    intro q hq
    rcases mem_or_eq_of_mem_set hq with hq | rfl
    · exact h.sane q hq
    · exact ⟨hs, ht⟩
  rqs := by
    intro c
    show v.rqs c = _
    rw [show v.rqs = (h.rest hp).book v.p.cpu v.p.countedBw v.p.standing from hb, owed_set hp, owed_set hp]
    unfold Rest.book runningShare thisShare
    by_cases hc : c = v.p.cpu
    · subst hc
      simp only [if_true]
      rfl
    · simp only [hc, Ne.symm hc, if_false]
      rfl
  few := by
    rw [length_set]
    exact h.few

end Sched

def Op.Steady (op : Op) (s : Sched) : Prop := ∀ p ∈ s.tasks[op.pid]?, op.action.Steady p

instance (op : Op) (s : Sched) : Decidable (op.Steady s) := inferInstanceAs (Decidable (∀ p ∈ s.tasks[op.pid]?, _))

theorem Op.step_counted {op : Op} {s s' : Sched} (h : s.Counted) (ho : op.Steady s) (hs : op.step s = some s') :
    s'.Counted := by
  unfold Op.step at hs
  split at hs
  · cases hs
  · rename_i p hp
    split at hs
    · rename_i he
      cases hs
      obtain ⟨hsane, htimed⟩ := h.sane p (mem_of_getElem? hp)
      obtain ⟨hb, ht⟩ := act_booked he (ho p hp) hsane htimed (h.booked hp)
      exact h.of_booked hp (act_sane he hsane) ht hb
    · cases hs

theorem Sched.counted_boot {m : Machine} {homes : List Nat} (hn : homes.length * bwUnit < 2 ^ 64) :
    (Sched.boot m homes).Counted where
  sane := by
    intro p hp
    obtain ⟨c, -, rfl⟩ := mem_map.1 hp
    exact ⟨⟨by simp [fork], nofun, nofun, Nat.zero_le _⟩, Task.Timed.of_other rfl rfl⟩
  rqs := by
    intro c
    have h0 : ∀ f : Task → Nat, (∀ c, f (fork c) = 0) → owed f (homes.map fork) = 0 := by
      intro f hf
      simp [owed, Function.comp_def, hf]
    show RqBw.mk 0 0 false = _
    rw [show (Sched.boot m homes).tasks = homes.map fork from rfl, h0, h0]
    · intro c'
      simp [thisShare, standing, fork, this]
    · intro c'
      simp [runningShare, standing, fork, running]
  few := by simpa [Sched.boot] using hn

/-! ## The sums over the tasks -/

/-- A deadline task that is not special and on the runqueue of the CPU `c`. -/
def Task.assigned (c : Nat) (p : Task) : Bool :=
  p.policy = .deadline && !p.dl.special && p.cpu = c && !p.between

def Task.active (p : Task) : Bool := p.onRq = .queued || p.dl.nonContending

/-- On every runqueue, `running_bw` is the sum over the active tasks, `this_bw` that over the assigned ones, the first is
at most the second, and no check has failed. -/
def Sched.Balanced (s : Sched) : Prop :=
  ∀ c, (s.rqs c).runningBw = owed (fun p => p.dl.dlBw) (s.tasks.filter fun p => p.assigned c && p.active) ∧
    (s.rqs c).thisBw = owed (fun p => p.dl.dlBw) (s.tasks.filter fun p => p.assigned c) ∧
    (s.rqs c).runningBw ≤ (s.rqs c).thisBw ∧ (s.rqs c).warned = false

theorem Task.runningShare_eq (c : Nat) (p : Task) :
    p.runningShare c = if p.assigned c && p.active then p.dl.dlBw else 0 := by
  unfold runningShare standing assigned active countedBw
  by_cases ha : p.onRq = .queued ∨ p.dl.nonContending = true
  · have ha' : (decide (p.onRq = .queued) || p.dl.nonContending) = true := by simpa using ha
    by_cases hc : p.cpu = c <;> by_cases hp : p.policy = .deadline <;> cases p.between <;> cases p.dl.special <;>
      simp [ha, ha', hc, hp, running]
  · have ha' : (decide (p.onRq = .queued) || p.dl.nonContending) = false := by simpa using ha
    rw [ha', Bool.and_false]
    by_cases hp : p.policy ≠ .deadline ∨ p.between = true <;> simp [ha, hp, running]

theorem Task.thisShare_eq (c : Nat) (p : Task) : p.thisShare c = if p.assigned c then p.dl.dlBw else 0 := by
  unfold thisShare standing assigned countedBw
  by_cases ha : p.onRq = .queued ∨ p.dl.nonContending = true <;> by_cases hc : p.cpu = c <;>
    by_cases hp : p.policy = .deadline <;> cases p.between <;> cases p.dl.special <;> simp [ha, hc, hp, this]

theorem Sched.Counted.balanced {s : Sched} (h : s.Counted) : s.Balanced := by
  intro c
  rw [h.rqs c, owed_filter, owed_filter]
  refine ⟨?_, ?_, ?_, rfl⟩
  · simp only [← runningShare_eq]
  · simp only [← thisShare_eq]
  · exact owed_le fun p _ => p.runningShare_le c

/-- In every run from boot whose changes of policies and parameters are steady, the bandwidths of every runqueue are the
sums over its tasks, and no check of them has failed. The bound on the tasks is far above the number of pids. -/
theorem rq_bandwidth_after_run {m : Machine} {homes : List Nat} {ops : List Op} {s : Sched}
    (hn : homes.length * bwUnit < 2 ^ 64) (ho : Along Op.step Op.Steady ops (Sched.boot m homes))
    (hr : run Op.step ops (Sched.boot m homes) = some s) : s.Balanced := by
  have hc : s.Counted := along_invariant (fun _ _ _ h ho hs => Op.step_counted h ho hs) (Sched.counted_boot hn) ho hr
  exact hc.balanced

/-- Two CPUs of full capacity in one domain. -/
def twoCpus : Machine := Machine.boot [⟨0, 0, true, 1024⟩, ⟨1, 0, true, 1024⟩] (by decide) defaultLimit false

/-- A task becomes a deadline task, blocks, is woken on the other CPU, and is moved, changed and throttled there. -/
def steadyRun : List Op :=
  [.wakeUpNewTask 0 false, .setscheduler .default (.perTenth 10000000) false false, .sleep false, .tryToWakeUp 1,
    .ttwuDoActivate false, .migrateOut, .migrateIn 0 false, .throttle true, .replenish (some 1), .sleep false,
    .inactiveTimerExpires, .setscheduler .default (.perTenth 20000000) false false, .inactiveTimerRuns,
    .setscheduler .default .other false false].map fun a => ⟨0, a⟩

theorem rq_bandwidth_after_steadyRun :
    ∃ s, run Op.step steadyRun (Sched.boot twoCpus [0]) = some s ∧ s.Balanced := by
  have hs : (run Op.step steadyRun (Sched.boot twoCpus [0])).isSome = true := by decide +kernel
  obtain ⟨s, hr⟩ := Option.isSome_iff_exists.1 hs
  exact ⟨s, hr, rq_bandwidth_after_run (by decide) (by decide +kernel) hr⟩

/-- A task is woken on the other CPU, and its parameters are changed before it is activated there. -/
def changeInFlight : List Op :=
  [.wakeUpNewTask 0 false, .setscheduler .default (.perTenth 10000000) false false, .sleep true, .tryToWakeUp 1,
    .setscheduler .default (.perTenth 20000000) false false, .ttwuDoActivate false].map fun a => ⟨0, a⟩

/-- The other runqueue gives back bandwidth it does not have, and then counts the task twice. -/
theorem change_in_flight_unbalanced : ∃ s, run Op.step changeInFlight (Sched.boot twoCpus [0]) = some s ∧
    s.rqs 1 = ⟨209715, 419430, true⟩ ∧ ¬ s.Balanced := by
  obtain ⟨s, hr, h1⟩ : ∃ s, run Op.step changeInFlight (Sched.boot twoCpus [0]) = some s ∧
      s.rqs 1 = ⟨209715, 419430, true⟩ := run_of_isSome (by decide +kernel)
  refine ⟨s, hr, h1, fun hb => ?_⟩
  have hw := (hb 1).2.2.2
  rw [h1] at hw
  cases hw

end KernelSched.Deadline
