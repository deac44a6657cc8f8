import KernelSched.Deadline.Queue
import KernelSched.Rt.Kept
import Mathlib.Data.Fintype.Option

/-!
# The priority level of a CPU with deadline tasks

A CPU with a deadline task should have the level `CPUPRI_HIGHER`, so that no real-time task is pushed to it. The deadline
class writes it for the first task and gives the level back to the real-time class with the last one. But the
real-time class writes its own level whenever `highest_prio.curr` changes, and when the CPU comes online, without a look
at the deadline queue.

`CpuRq.written` says what an operation writes (`act_cpupri`). The levels are right all along a run exactly when the
real-time class never writes one for a CPU with deadline tasks (`levels_right_iff`).
-/

namespace KernelSched.DlQueue

open Wrap CachedTree Cpupri Rt Run Deadline Option CpuRq

variable {n N : Nat} {T : Rooted.Tree}

/-! ## What is written -/

namespace CpuRq

variable {cpu : Nat} {r : CpuRq n} {rd : Rd}

def HasDl (r : CpuRq n) : Prop := r.dl.root.items ≠ []

instance : Decidable r.HasDl := inferInstanceAs (Decidable (_ ≠ _))

/-- What the real-time class writes when `highest_prio.curr` of the CPU becomes that of `r'` -/
def rtWrites (r r' : CpuRq n) : Option (Option Level) :=
  if r.online ∧ r'.highestPrio ≠ r.highestPrio then some (some (rtPrio r'.highestPrio)) else none

variable (T) in
/-- The priority an operation calls `cpupri_set` with, if it does -/
def written (op : DomainOp n) (r : CpuRq n) : Option (Option Level) :=
  match op with
  | .enqueueDl _ _ _ _ => if r.dl.curr = 0 then some (some higher) else none
  | .dequeueDl ds id =>
    if r.dl.onDlRq id ∧ (r.dl.root.erase Queued.id ds id).1.items = [] then some (some (rtPrio r.highestPrio)) else none
  | .setNext _ _ => none
  | .putPrev _ _ _ => none
  | .enqueueRt flags e => r.rtWrites { r with rt := r.rt.__enqueueRtEntity T flags e }
  | .dequeueRt flags e => r.rtWrites { r with rt := r.rt.__dequeueRtEntity T flags e }
  | .setTask _ _ => none
  | .setRqOnline => if r.online then none else some (some (rtPrio r.highestPrio))
  | .setRqOffline => if r.online then some none else none

/-- `inc_rt_prio` lowers `highest_prio.curr` to the priority that came, or leaves it. -/
theorem enqueueRt_highestPrio (flags : Flags) (e : Entity n) :
    ({ r with rt := r.rt.__enqueueRtEntity T flags e } : CpuRq n).highestPrio =
      if (!r.rt.blocked e ∧ r.rt.rtRqOfSe T e = 0) ∧ r.rt.rtSePrio e < r.highestPrio then r.rt.rtSePrio e
      else r.highestPrio := by
  show ((r.rt.__enqueueRtEntity T flags e).rt 0).highestPrio = _
  have hhigh : (r.rt.rt 0).highestPrio = r.highestPrio := rfl
  unfold Rq.__enqueueRtEntity
  by_cases hblocked : r.rt.blocked e = true
  · have hdelist := Rq.relisted_of_delist (T := T) ⟨false, true, false⟩ e r.rt
    have hnot : ¬((!r.rt.blocked e ∧ r.rt.rtRqOfSe T e = 0) ∧ r.rt.rtSePrio e < r.highestPrio) := by simp [hblocked]
    rw [if_pos hblocked, if_neg hnot]
    split
    · exact hdelist.highest 0
    · rfl
  · have hlist := Rq.relisted_of_move (T := T) flags e r.rt
    rw [if_neg hblocked, hlist.inc_rt]
    by_cases htop : r.rt.rtRqOfSe T e = 0
    · simp [htop, hblocked, Rq.incRtPrio, hlist.highest, hhigh]
    · rw [if_neg (Ne.symm htop), if_neg (fun h => htop h.1.2)]
      rfl

theorem dequeueRt_highestPrio (flags : Flags) (e : Entity n) (h : r.rt.rtRqOfSe T e ≠ 0) :
    ({ r with rt := r.rt.__dequeueRtEntity T flags e } : CpuRq n).highestPrio = r.highestPrio := by
  have hlist := Rq.relisted_of_delist (T := T) flags e r.rt
  simp only [highestPrio, Rq.__dequeueRtEntity]
  rw [hlist.dec_rt, if_neg (Ne.symm h)]

theorem act_cpupri (h : r.dl.Kept) (cpu : Nat) (op : DomainOp n) (rd : Rd) :
    (r.act T cpu op rd).2.cpupri = (r.written T op).elim rd.cpupri fun p => rd.cpupri.set cpu p := by
  cases op with
  | enqueueDl ds p current nrCpusAllowed =>
    simp only [act, withDl, DlRq.enqueueTaskDl, DlRq.__enqueueDlEntity, DlRq.incDlDeadline_cpupri, written]
    split <;> rfl
  | dequeueDl ds id =>
    simp only [act, withDl, DlRq.__dequeueTaskDl, written]
    cases hon : r.dl.onDlRq id with
    | false => simp [DlRq.__dequeueDlEntity, hon]
    | true =>
      rcases h.dequeue_cases hon cpu r.highestPrio ds rd with ⟨hempty, heq⟩ | ⟨e, R, hne, heq⟩ <;> rw [heq]
      · simp [hempty, Rd.cpupriSet, Rd.cpudlClear]
      · simp [hne, Rd.cpudlSet]
  | setNext | putPrev | setTask => rfl
  | enqueueRt flags e =>
    simp only [act, enqueueRt, written, rtWrites, enqueueRt_highestPrio, incRtPrioSmp]
    by_cases htop : !r.rt.blocked e ∧ r.rt.rtRqOfSe T e = 0
    · by_cases hlt : r.rt.rtSePrio e < r.highestPrio
      · simp only [if_pos htop, hlt, hlt.ne, and_true, ne_eq, not_false_eq_true]
        split <;> rfl
      · simp [htop, hlt]
    · have hnot : ¬((!r.rt.blocked e ∧ r.rt.rtRqOfSe T e = 0) ∧ r.rt.rtSePrio e < r.highestPrio) := fun h => htop h.1
      simp only [if_neg htop, if_neg hnot, ne_eq, not_true_eq_false, and_false, if_false, elim_none]
  | dequeueRt flags e =>
    simp only [act, dequeueRt, written, rtWrites, decRtPrioSmp]
    by_cases htop : r.rt.rtRqOfSe T e = 0
    · rw [if_pos htop]
      split <;> rfl
    · rw [if_neg htop, dequeueRt_highestPrio flags e htop, if_neg (fun h => h.2 rfl)]
      rfl
  | setRqOnline =>
    simp only [act, setRqOnline, written]
    split
    · rfl
    · simp only [rqOnlineRt, rqOnlineDl]
      split <;> rfl
  | setRqOffline =>
    simp only [act, setRqOffline, written]
    split <;> rfl

/-- The real-time class does not write a level for a CPU with deadline tasks. -/
def Alone (T : Rooted.Tree) (op : DomainOp n) (r : CpuRq n) : Prop :=
  match op with
  | .enqueueRt _ _ | .dequeueRt _ _ | .setRqOnline => r.HasDl → ∀ p, r.written T op = some p → p = some higher
  | _ => True

/-- The level of a CPU with or without deadline tasks -/
def level (r : CpuRq n) : Option Level :=
  if r.dl.root.items = [] then convertPrio (some (rtPrio r.highestPrio)) else some higher

instance (op : DomainOp n) : Decidable (r.Alone T op) := by
  cases op <;> unfold Alone <;> infer_instance

theorem level_of_hasDl (h : r.HasDl) : r.level = some higher := if_neg h

/-- The real-time class has written its level, or `highest_prio.curr` is what it was. -/
theorem level_rtWrites {r' : CpuRq n} (hdl : r'.dl = r.dl) (hon : r.online = true) :
    (r.rtWrites r').elim r.level convertPrio = r'.level ↔ (r.HasDl → ∀ p, r.rtWrites r' = some p → p = some higher) := by
  have hlevel : r'.level = if r.dl.root.items = [] then convertPrio (some (rtPrio r'.highestPrio)) else some higher := by
    rw [level, hdl]
  rw [hlevel]
  unfold rtWrites
  split
  · by_cases hempty : r.dl.root.items = []
    · simp [hempty, HasDl]
    · rw [if_neg hempty, elim_some, convertPrio_eq_higher]
      exact ⟨fun heq _ p hp => (some.inj hp).symm.trans heq, fun h => h hempty _ rfl⟩
  · next hno =>
    have hsame : r'.highestPrio = r.highestPrio := not_not.1 fun hne => hno ⟨hon, hne⟩
    rw [hsame]
    exact iff_of_true rfl fun _ _ hp => nomatch hp

/-- The level of an online CPU after an operation that starts from the right one -/
theorem level_act (op : DomainOp n) (h : r.dl.Kept) {l : Option Level} (hl : r.online = true → l = r.level) (rd : Rd)
    (hon : (r.act T cpu op rd).1.online = true) :
    (r.written T op).elim l convertPrio = (r.act T cpu op rd).1.level ↔ r.Alone T op := by
  cases op with
  | enqueueDl ds p current nrCpusAllowed =>
    have hdl : (r.act T cpu (.enqueueDl ds p current nrCpusAllowed) rd).1.HasDl := by
      show (r.dl.enqueueTaskDl cpu ds p current nrCpusAllowed rd).1.root.items ≠ []
      rw [DlRq.enqueueTaskDl_root]
      exact List.ne_nil_of_mem (CTree.mem_add.2 (.inl rfl))
    rw [level_of_hasDl hdl]
    refine iff_of_true ?_ trivial
    simp only [written]
    split
    · rfl
    · next hcurr => exact (hl hon).trans (level_of_hasDl fun hempty => hcurr (h.idle hempty))
  | dequeueDl ds id =>
    refine iff_of_true ?_ trivial
    have hl := hl hon
    have hroot : (r.act T cpu (.dequeueDl ds id) rd).1.dl.root = (r.dl.root.erase Queued.id ds id).1 :=
      h.__dequeueTaskDl_root cpu r.highestPrio ds id rd
    have hlevel : (r.act T cpu (.dequeueDl ds id) rd).1.level =
        if (r.dl.root.erase Queued.id ds id).1.items = [] then convertPrio (some (rtPrio r.highestPrio))
        else some higher := by
      rw [level, hroot]
      rfl
    rw [hlevel, written]
    by_cases honrq : r.dl.onDlRq id = true
    · obtain ⟨x, hx, -⟩ := List.mem_map.1 (DlRq.onDlRq_iff.1 honrq)
      have hdl : r.HasDl := List.ne_nil_of_mem hx
      by_cases hempty : (r.dl.root.erase Queued.id ds id).1.items = []
      · rw [if_pos ⟨honrq, hempty⟩, if_pos hempty, elim_some]
      · rw [if_neg fun hboth => hempty hboth.2, if_neg hempty, elim_none, hl, level_of_hasDl hdl]
    · have hnot := mt DlRq.onDlRq_iff.2 honrq
      rw [if_neg fun hboth => honrq hboth.1, CTree.erase_of_notMem ds hnot]
      exact hl
  | setNext | setTask => exact iff_of_true (hl hon) trivial
  | putPrev ds id nrCpusAllowed =>
    refine iff_of_true ((hl hon).trans ?_) trivial
    simp only [act, withDl, level, DlRq.putPrevTaskDl_root]
    rfl
  | enqueueRt | dequeueRt => exact hl hon ▸ level_rtWrites rfl hon
  | setRqOnline =>
    simp only [act, setRqOnline, written, Alone] at hon ⊢
    split
    · next honline => exact iff_of_true (hl honline) (fun _ p hp => by cases hp)
    · rw [elim_some, level]
      split
      · next hempty => exact iff_of_true rfl fun hdl => absurd hempty hdl
      · next hdl =>
        rw [convertPrio_eq_higher]
        exact ⟨fun heq _ p hp => (some.inj hp).symm.trans heq, fun hall => hall hdl _ rfl⟩
  | setRqOffline =>
    simp only [act, setRqOffline] at hon
    split at hon
    · cases hon
    · next hoff => exact absurd hon hoff

theorem alone_of_offline {op : DomainOp n} (hoff : (r.act T cpu op rd).1.online = false) : r.Alone T op := by
  have hsilent : ∀ r' : CpuRq n, r.online = false → r.rtWrites r' = none := fun r' h => by simp [rtWrites, h]
  cases op with
  | enqueueRt | dequeueRt => exact fun _ p hp => by rw [written, hsilent _ hoff] at hp; cases hp
  | setRqOnline =>
    simp only [act, setRqOnline] at hoff
    split at hoff
    · next hon => simp [hon] at hoff
    · cases hoff
  | _ => exact trivial

end CpuRq

/-! ## Runs -/

namespace Domain

/-- The level of an online CPU is that of its queues, and no search for a real-time task finds a CPU with deadline
tasks. -/
structure LevelRight (s : Domain n) (c : Nat) : Prop where
  queued : (s.rq c).HasDl → s.rd.cpupri.cpuToPri c = some higher
  offered : (s.rq c).HasDl → ∀ (q : Query Nat) (idx : Fin q.taskPri) (active m : Finset Nat) (l : Level),
    (Find.collect q idx).next s.rd.cpupri active = .out (some ⟨l, some m⟩) → c ∉ m
  free : ¬(s.rq c).HasDl → s.rd.cpupri.cpuToPri c = convertPrio (some (rtPrio (s.rq c).highestPrio))

def LevelsRight (s : Domain n) : Prop := ∀ c, (s.rq c).online = true → s.LevelRight c

variable {s s' : Domain n} {op : Nat × DomainOp n}

theorem levelRight_iff (hexact : s.rd.cpupri.Exact) (c : Nat) :
    s.LevelRight c ↔ s.rd.cpupri.cpuToPri c = (s.rq c).level := by
  unfold level
  constructor
  · intro h
    split
    · next hempty => exact h.free fun hdl => hdl hempty
    · next hdl => exact h.queued hdl
  · intro h
    have hqueued : (s.rq c).HasDl → s.rd.cpupri.cpuToPri c = some higher := fun hdl => h.trans (if_neg hdl)
    refine ⟨hqueued, fun hdl q idx active m l hnext hmem => ?_, fun hno => h.trans (if_pos (not_not.1 hno))⟩
    obtain ⟨hpri, hlt⟩ := hexact.offered hnext hmem
    rw [hqueued hdl] at hpri
    have hval : maxRtPrio = l.val := congrArg Fin.val (some.inj hpri)
    omega

structure Sound (s : Domain n) : Prop where
  kept : ∀ c, (s.rq c).dl.Kept
  exact : s.rd.cpupri.Exact
  right : s.LevelsRight

theorem exact_step (h : s.rd.cpupri.Exact) (hkept : ∀ c, (s.rq c).dl.Kept) (hstep : step T N op s = some s') :
    s'.rd.cpupri.Exact := by
  obtain ⟨-, -, -, -, hrd⟩ := step_eq_some hstep
  rw [hrd, act_cpupri (hkept op.1)]
  cases (s.rq op.1).written T op.2 with
  | none => exact h
  | some p => exact h.set p

theorem cpuToPri_step (hkept : ∀ c, (s.rq c).dl.Kept) (hstep : step T N op s = some s') :
    s'.rd.cpupri.cpuToPri op.1 = ((s.rq op.1).written T op.2).elim (s.rd.cpupri.cpuToPri op.1) convertPrio ∧
      ∀ c ≠ op.1, s'.rd.cpupri.cpuToPri c = s.rd.cpupri.cpuToPri c := by
  obtain ⟨-, -, -, -, hrd⟩ := step_eq_some hstep
  rw [hrd, act_cpupri (hkept op.1)]
  cases (s.rq op.1).written T op.2 with
  | none => exact ⟨rfl, fun _ _ => rfl⟩
  | some p =>
    simp only [elim_some, set_cpuToPri]
    exact ⟨Function.update_self _ _ _, fun c hc => Function.update_of_ne hc _ _⟩

/-- After a step from right levels the levels are right again exactly when the real-time class kept out. -/
theorem Sound.step_right_iff (h : s.Sound) (hstep : step T N op s = some s') :
    s'.LevelsRight ↔ (s.rq op.1).Alone T op.2 := by
  obtain ⟨-, -, hself, hother, -⟩ := step_eq_some hstep
  obtain ⟨hpri, hpris⟩ := cpuToPri_step h.kept hstep
  have hexact := exact_step h.exact h.kept hstep
  have hbefore : (s.rq op.1).online = true → s.rd.cpupri.cpuToPri op.1 = (s.rq op.1).level := fun hon =>
    (levelRight_iff h.exact op.1).1 (h.right op.1 hon)
  have hlevel : (s'.rq op.1).online = true → (s'.LevelRight op.1 ↔ (s.rq op.1).Alone T op.2) := by
    intro hon
    rw [levelRight_iff hexact, hpri, hself]
    rw [hself] at hon
    exact level_act op.2 (h.kept op.1) hbefore s.rd hon
  constructor
  · intro hright
    cases hon : (s'.rq op.1).online with
    | true => exact (hlevel hon).1 (hright op.1 hon)
    | false =>
      rw [hself] at hon
      exact alone_of_offline hon
  · intro halone c hon
    by_cases hc : c = op.1
    · subst hc
      exact (hlevel hon).2 halone
    · have hright := h.right c (hother c hc ▸ hon)
      rw [levelRight_iff hexact, hpris c hc, hother c hc]
      exact (levelRight_iff h.exact c).1 hright

theorem sound_init (free : Nat → Bool) : (init free : Domain n).Sound :=
  ⟨fun _ => DlRq.kept_init, exact_init, fun _ hon => by cases hon⟩

/-- The real-time class writes no level for the CPU of the operation while that has deadline tasks. -/
def Alone (T : Rooted.Tree) (N : Nat) (op : Nat × DomainOp n) (s : Domain n) : Prop :=
  op.1 < N → (s.rq op.1).Alone T op.2

instance (op : Nat × DomainOp n) : Decidable (s.Alone T N op) := inferInstanceAs (Decidable (_ → _))

theorem Sound.right_iff_alone (h : s.Sound) (op : Nat × DomainOp n) :
    (∀ s', step T N op s = some s' → s'.LevelsRight) ↔ s.Alone T N op := by
  cases hstep : step T N op s with
  | some s' =>
    obtain ⟨hlt, -⟩ := step_eq_some hstep
    have hiff := h.step_right_iff hstep
    exact ⟨fun hall _ => hiff.1 (hall s' rfl), fun halone u hu => by cases hu; exact hiff.2 (halone hlt)⟩
  | none =>
    refine iff_of_true (fun _ hu => by cases hu) fun hlt => ?_
    -- the operations that the condition is about can always be called
    obtain ⟨cpu, op⟩ := op
    cases op with
    | enqueueRt | dequeueRt | setRqOnline => simp [step, hlt, enabled] at hstep
    | _ => exact trivial

/-- The levels are right all along a run exactly when the real-time class never writes one for a CPU with deadline
tasks. -/
theorem levels_right_iff (T : Rooted.Tree) (N : Nat) (free : Nat → Bool) (ops : List (Nat × DomainOp n)) :
    Along (step T N) (fun op s => ∀ s', step T N op s = some s' → s'.LevelsRight) ops (init free) ↔
      Along (step T N) (fun op s => s.Alone T N op) ops (init free) := by
  refine along_congr (I := Sound) (fun op s s' h halone hstep => ?_) (fun op s h => h.right_iff_alone op)
    (sound_init free)
  obtain ⟨hlt, -⟩ := step_eq_some hstep
  exact ⟨kept_step h.kept hstep, exact_step h.exact h.kept hstep, (h.step_right_iff hstep).2 (halone hlt)⟩

/-- CPU 0 comes online; a deadline task comes and runs. -/
def deadlineRuns : List (Nat × DomainOp 1) := [(0, .setRqOnline), (0, .enqueueDl [] ⟨7, 1000, false⟩ true 1)]

/-- A real-time task of priority 50 is woken on the CPU. -/
def rtWakes : List (Nat × DomainOp 1) := [(0, .setTask 0 ⟨0, 50, 50, false⟩), (0, .enqueueRt .none (.task 0))]

/-- The CPU is attached anew while the deadline task is queued. -/
def reattached : List (Nat × DomainOp 1) := [(0, .setRqOffline), (0, .setRqOnline)]

/-- A search for a task of priority 10, which CPU 0 and 1 are allowed to run -/
def highQuery : Query Nat := ⟨⟨10, by decide⟩, {0, 1}, true, none⟩

/-- What a search for that task takes from a level -/
def taken (level : Nat) (s : Domain n) : Option (Option (Finset Nat)) :=
  if h : level < highQuery.taskPri then
    match (Find.collect highQuery ⟨level, h⟩).next s.rd.cpupri {0, 1} with
    | .out (some a) => some a.lowestMask
    | _ => none
  else none

/-- A CPU with a deadline task has another level, and is found. -/
def Exposed (level : Level) (s : Domain n) : Prop :=
  (s.rq 0).online = true ∧ (s.rq 0).HasDl ∧ s.rd.cpupri.cpuToPri 0 = some level ∧ s.taken level = some (some {0})

instance (level : Level) : Decidable (s.Exposed level) := inferInstanceAs (Decidable (_ ∧ _ ∧ _ ∧ _))

theorem Exposed.not_right {level : Level} (h : s.Exposed level) (hne : level ≠ higher) : ¬s.LevelsRight := by
  intro hright
  have hpri := (hright 0 h.1).queued h.2.1
  rw [h.2.2.1] at hpri
  exact hne (some.inj hpri)

/-- In both runs the CPU has a deadline task and the level of its real-time tasks, and is found for another one. -/
theorem level_overwritten :
    (∃ s, run (step rootOnly 2) (deadlineRuns ++ rtWakes) (init fun _ => false) = some s ∧ s.Exposed 49 ∧
      ¬s.LevelsRight) ∧
    ∃ s, run (step rootOnly 2) (deadlineRuns ++ reattached) (init fun _ => false) = some s ∧ s.Exposed normal ∧
      ¬s.LevelsRight := by
  have hwake : (run (step rootOnly 2) (deadlineRuns ++ rtWakes) (init fun _ => false)).any
      (fun s => decide (s.Exposed 49)) = true := by decide +kernel
  have hattach : (run (step rootOnly 2) (deadlineRuns ++ reattached) (init fun _ => false)).any
      (fun s => decide (s.Exposed normal)) = true := by decide +kernel
  obtain ⟨s, hs, hexp⟩ := (any_eq_true _ _).1 hwake
  obtain ⟨u, hu, hexp'⟩ := (any_eq_true _ _).1 hattach
  have hexp := of_decide_eq_true hexp
  have hexp' := of_decide_eq_true hexp'
  exact ⟨⟨s, hs, hexp, hexp.not_right (by decide)⟩, u, hu, hexp', hexp'.not_right (by decide)⟩

/-- The real-time task comes first and leaves last. -/
def oneAfterTheOther : List (Nat × DomainOp 1) :=
  [(0, .setRqOnline)] ++ rtWakes ++
    [(0, .enqueueDl [] ⟨7, 1000, false⟩ true 1), (0, .dequeueDl [] 7), (0, .dequeueRt .none (.task 0))]

theorem levels_right_oneAfterTheOther : (run (step rootOnly 2) oneAfterTheOther (init fun _ => false)).isSome = true ∧
    Along (step rootOnly 2) (fun op s => ∀ s', step rootOnly 2 op s = some s' → s'.LevelsRight) oneAfterTheOther
      (init fun _ => false) :=
  ⟨by decide +kernel, (levels_right_iff rootOnly 2 (fun _ => false) oneAfterTheOther).2 (by decide +kernel)⟩

/-- Whatever the classes write, the queues are kept, and each CPU is in the mask of its own level and in no other. -/
theorem queues_after_run (T : Rooted.Tree) (N : Nat) (free : Nat → Bool) (ops : List (Nat × DomainOp n))
    (hrun : run (step T N) ops (init free) = some s) : (∀ c, (s.rq c).dl.Kept) ∧ s.rd.cpupri.Exact :=
  run_invariant (I := fun s => (∀ c, (s.rq c).dl.Kept) ∧ s.rd.cpupri.Exact)
    (fun _ _ _ h hstep => ⟨kept_step h.1 hstep, exact_step h.2 h.1 hstep⟩) ⟨(sound_init free).kept,
    (sound_init free).exact⟩ hrun

/-- Two tasks come after that, and both can be pushed. -/
def crowded : List (Nat × DomainOp 1) :=
  deadlineRuns ++ reattached ++ [(0, .enqueueDl [] ⟨8, 500, false⟩ false 2), (0, .enqueueDl [] ⟨9, 400, false⟩ false 2)]

theorem queues_after_reattached : ∃ s, run (step rootOnly 2) crowded (init fun _ => false) = some s ∧
    (s.rq 0).dl.pushable.items.length = 2 ∧ (∀ c, (s.rq c).dl.Kept) ∧ s.rd.cpupri.Exact :=
  ⟨_, rfl, by decide +kernel, queues_after_run rootOnly 2 (fun _ => false) crowded rfl⟩

end Domain

end KernelSched.DlQueue
