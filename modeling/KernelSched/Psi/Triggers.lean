import KernelSched.Psi.Aggregate

/-!
# Pressure stall information: what a trigger's growth is made of

A run of a group: the scheduler changes the CPUs' times, the two workers and the readers of the pressure file come at
any time, triggers are created, linked, polled and destroyed. The totals are logged at every moment, and so are the
growths that are computed and the events that are raised.

A growth is at most what the total of the trigger's own aggregator has grown since the window before began, and that is
not before the trigger was created (`Growth.Sound`); an event is raised only after such a growth has reached the
threshold (`Event.Sound`). This needs that a window starts from the total it is compared with later: for a trigger of an
unprivileged user that is so only when the totals of the two aggregators are the same at its creation, since
`psi_trigger_create` takes the polling aggregator's.
-/

namespace KernelSched.Psi

open Wrap Run Function Option List Window Psi.Group

structure Snapshot where
  time : ℕ
  total : Aggregator → PsiState → ℕ

/-- A growth that `update_triggers` has computed: the trigger before, the time, the total and the growth -/
structure Growth where
  trigger : Trigger
  now : ℕ
  value : ℕ
  growth : ℕ

/-- An event that was raised: the trigger before, and the time -/
structure Event where
  trigger : Trigger
  now : ℕ

def Trigger.Same (t t' : Trigger) : Prop :=
  t.id = t'.id ∧ t.created = t'.created ∧ t.aggregator = t'.aggregator ∧ t.state = t'.state ∧ t.threshold = t'.threshold

instance (t t' : Trigger) : Decidable (t.Same t') := inferInstanceAs (Decidable (_ ∧ _))

/-- The computation does not underflow, and the growth is no more than what the total has grown between two moments:
the start of the window before, which is not before the trigger was created, and now. -/
def Growth.Sound (log : List Snapshot) (x : Growth) : Prop :=
  x.trigger.win.startValue ≤ x.value ∧
    ∃ A ∈ log, ∃ B ∈ log, x.trigger.created ≤ A.time ∧ A.time = x.trigger.since ∧ A.time ≤ B.time ∧ B.time = x.now ∧
      B.total x.trigger.aggregator x.trigger.state = x.value ∧
      x.growth + A.total x.trigger.aggregator x.trigger.state ≤ x.value

instance (log : List Snapshot) (x : Growth) : Decidable (x.Sound log) := inferInstanceAs (Decidable (_ ∧ _))

def Event.Sound (growths : List Growth) (e : Event) : Prop :=
  ∃ x ∈ growths, x.trigger.Same e.trigger ∧ x.now ≤ e.now ∧ e.trigger.threshold ≤ x.growth

/-- A group, the triggers that are created and not yet linked, and what has happened -/
structure World (C : Type) where
  group : Group C
  unlinked : List Trigger
  nextId : ℕ
  clock : ℕ
  log : List Snapshot
  growths : List Growth
  events : List Event

inductive GroupOp (C : Type)
  | schedule (cpus : C → GroupCpu)
  | avgsWork (now : ℕ) (clocks : C → U64)
  | show (now : ℕ) (clocks : C → U64)
  | rtpollWork (now : ℕ) (clocks : C → U64)
  | create (res : PsiRes) (line : Option TriggerLine) (privileged : Bool) (now : ℕ)
  | link (id : ℕ)
  | destroy (id : ℕ)
  /-- `psi_trigger_poll` takes the event. -/
  | poll (id : ℕ)

variable {C : Type} {t : Trigger} {a : Aggregator} {g : Group C}

/-- The growths that `update_triggers` computes -/
def Group.growths (now : ℕ) (a : Aggregator) (g : Group C) : List Growth :=
  ((g.triggers a).filter (g.newStall a)).map fun t =>
    ⟨t, now, g.total a t.state, (t.win.update now (g.total a t.state)).2⟩

/-- The events that `update_triggers` raises -/
def Group.events (now : ℕ) (a : Aggregator) (g : Group C) : List Event :=
  ((g.triggers a).filter fun t => (g.updateTrigger now a t).2).map fun t => ⟨t, now⟩

namespace World

/-- Time passes to `now`, with the totals logged. -/
def tick (W : World C) (g : Group C) (now : ℕ) : World C :=
  { W with group := g, clock := now, log := ⟨now, g.total⟩ :: W.log }

/-- `update_triggers` is called, on the group `g`. -/
def noted (W : World C) (g : Group C) (a : Aggregator) (now : ℕ) : World C :=
  { W with growths := g.growths now a ++ W.growths, events := g.events now a ++ W.events }

end World

def Trigger.polled (id : ℕ) (t : Trigger) : Trigger := if t.id = id then { t with event := false } else t

section

variable [Fintype C] (K : Config)

/-- The state after an operation; the clock never goes back. -/
def GroupOp.step : GroupOp C → World C → Option (World C)
  | .schedule cpus, W =>
    some { W with group := { W.group with cpus := fun c => { W.group.cpus c with cpu := cpus c } } }
  | .avgsWork now clocks, W =>
    if W.clock ≤ now then
      let g := W.group.collectPercpuTimes K .avgs clocks
      let W' := W.tick (W.group.psiAvgsWork K now clocks) now
      some (if g.avgNextUpdate ≤ now then W'.noted g .avgs now else W')
    else none
  | .show now clocks, W => if W.clock ≤ now then some (W.tick (W.group.psiShow K now clocks) now) else none
  | .rtpollWork now clocks, W =>
    if W.clock ≤ now then
      let g := W.group.rtpollEnter K now clocks
      let W' := W.tick (W.group.psiRtpollWork K now clocks) now
      some (if g.rtpollDue now then W'.noted g .poll now else W')
    else none
  | .create res line privileged now, W =>
    if W.clock ≤ now then
      match psiTriggerCreate W.group res line privileged now W.nextId with
      | .error _ => some (W.tick W.group now)
      | .ok t => some { W.tick W.group now with unlinked := t :: W.unlinked, nextId := W.nextId + 1 }
    else none
  | .link id, W =>
    match W.unlinked.find? fun t => decide (t.id = id) with
    | some t =>
      some { W with group := W.group.link t, unlinked := W.unlinked.filter fun x => decide (x.id ≠ id) }
    | none => none
  | .destroy id, W =>
    match (W.group.avgTriggers ++ W.group.rtpollTriggers).find? fun t => decide (t.id = id) with
    | some t => some { W with group := W.group.psiTriggerDestroy t }
    | none => none
  | .poll id, W =>
    some
      { W with
        group :=
          { W.group with
            avgTriggers := W.group.avgTriggers.map (Trigger.polled id)
            rtpollTriggers := W.group.rtpollTriggers.map (Trigger.polled id) } }

end

/-- A trigger that is created starts from the total of its own aggregator. -/
def GroupOp.Matched : GroupOp C → World C → Prop
  | .create res line privileged now, W =>
    ∀ t ∈ (psiTriggerCreate W.group res line privileged now W.nextId).toOption,
      W.group.total .poll t.state = W.group.total t.aggregator t.state
  | _, _ => True

instance (o : GroupOp C) (W : World C) : Decidable (o.Matched W) := by
  cases o <;> unfold GroupOp.Matched <;> infer_instance

/-- No trigger has been created yet; the totals may be anything. -/
structure World.Start (W : World C) : Prop where
  avg : W.group.avgTriggers = []
  rtpoll : W.group.rtpollTriggers = []
  unlinked : W.unlinked = []
  growths : W.growths = []
  events : W.events = []

/-! ## Windows -/

section

variable {w : Window} {now value : ℕ}

theorem Window.update_of_over (h : w.over now = true) :
    w.update now value = (w.reset now value (sub64 value w.startValue), sub64 value w.startValue) := if_pos h

theorem Window.update_of_not_over (h : w.over now = false) : w.update now value = (w, (sub64 value w.startValue +
      w.prevGrowth * ((w.size - sub64 now w.startTime) % 2 ^ 32) % 2 ^ 64 / w.size) % 2 ^ 64) :=
  if_neg (by simp [h])

/-- What is taken over from the window before is no more than its growth, though the product may be cut. -/
theorem interpolated_le (prevGrowth size elapsed : ℕ) :
    prevGrowth * ((size - elapsed) % 2 ^ 32) % 2 ^ 64 / size ≤ prevGrowth := by
  refine Nat.div_le_of_le_mul ((Nat.mod_le _ _).trans ?_)
  rw [Nat.mul_comm size]
  exact Nat.mul_le_mul_left _ ((Nat.mod_le _ _).trans (Nat.sub_le _ _))

theorem Window.growth_le (h : w.startValue ≤ value) : (w.update now value).2 + w.startValue ≤ value + w.prevGrowth := by
  have hsub := sub64_le h
  cases hover : w.over now with
  | true =>
    rw [update_of_over hover]
    show sub64 value w.startValue + w.startValue ≤ _
    omega
  | false =>
    have hinter := interpolated_le w.prevGrowth w.size (sub64 now w.startTime)
    rw [update_of_not_over hover]
    have hmod := Nat.mod_le (sub64 value w.startValue +
      w.prevGrowth * ((w.size - sub64 now w.startTime) % 2 ^ 32) % 2 ^ 64 / w.size) (2 ^ 64)
    show (sub64 value w.startValue + _) % 2 ^ 64 + w.startValue ≤ _
    omega

/-- An update of a window with a total, both the time and the total given -/
def Window.step (u : ℕ × ℕ) (w : Window) : Option Window := some (w.update u.1 u.2).1

/-- Neither time nor total goes back, and the totals fit in 64 bits. -/
structure Window.Ordered (u : ℕ × ℕ) (w : Window) : Prop where
  time : w.startTime ≤ u.1 ∧ u.1 < 2 ^ 64
  value : w.startValue ≤ u.2 ∧ u.2 + w.prevGrowth < 2 ^ 64

instance (u : ℕ × ℕ) (w : Window) : Decidable (w.Ordered u) :=
  decidable_of_iff (_ ∧ _) ⟨fun ⟨h₁, h₂⟩ => ⟨h₁, h₂⟩, fun h => ⟨h.time, h.value⟩⟩

/-- The window is reset just when more than its size has elapsed. Before, the growth is interpolated exactly just when the
rest of the window fits in 32 bits and the product in 64, or nothing is left to be interpolated. -/
structure Window.Updated (u : ℕ × ℕ) (w : Window) : Prop where
  past : w.size < u.1 - w.startTime → w.update u.1 u.2 = (w.reset u.1 u.2 (u.2 - w.startValue), u.2 - w.startValue)
  inside : u.1 - w.startTime ≤ w.size → (w.update u.1 u.2).1 = w
  exact : u.1 - w.startTime ≤ w.size →
    ((w.update u.1 u.2).2 = u.2 - w.startValue + w.prevGrowth * (w.size - (u.1 - w.startTime)) / w.size ↔
      w.size - (u.1 - w.startTime) < 2 ^ 32 ∧ w.prevGrowth * (w.size - (u.1 - w.startTime)) < 2 ^ 64 ∨
        w.prevGrowth * (w.size - (u.1 - w.startTime)) < w.size)

theorem sub64_of_le {a b : ℕ} (hle : b ≤ a) (hlt : a < 2 ^ 64) : sub64 a b = a - b := by
  rw [sub64_eq]
  omega

/-- A rest that is cut makes the quotient smaller, unless it was zero: with a growth of one or two the rest is nearly the
window, and from three on what is cut off is more than a window. -/
theorem interpolated_lt {prev rest size : ℕ} (hsize : size ≤ 10000000000) (hrest : rest ≤ size) (hcut : 2 ^ 32 ≤ rest)
    (hsome : size ≤ prev * rest) : prev * (rest % 2 ^ 32) / size < prev * rest / size := by
  have hlow : 2 ^ 32 + rest % 2 ^ 32 ≤ rest := by omega
  have hone : 1 ≤ prev * rest / size := (Nat.one_le_div_iff (by omega)).2 hsome
  rcases Nat.lt_or_ge prev 3 with hprev | hprev
  · refine lt_of_lt_of_le ((Nat.div_lt_one_iff (by omega)).2 ?_) hone
    have hcases : prev = 0 ∨ prev = 1 ∨ prev = 2 := by omega
    rcases hcases with rfl | rfl | rfl <;> omega
  · have hmore : 3 * 2 ^ 32 ≤ prev * (rest - rest % 2 ^ 32) := Nat.mul_le_mul hprev (by omega)
    rw [Nat.mul_sub] at hmore
    refine Nat.lt_of_lt_of_le (Nat.lt_succ_self _) ?_
    rw [← Nat.add_one, ← Nat.add_div_right _ (by omega)]
    exact Nat.div_le_div_right (by omega)

/-- The quotient that is computed is the exact one just when nothing is cut, or it is zero. -/
theorem interpolated_eq_iff {prev rest size : ℕ} (h0 : 0 < size) (hsize : size ≤ 10000000000) (hrest : rest ≤ size) :
    prev * (rest % 2 ^ 32) % 2 ^ 64 / size = prev * rest / size ↔
      rest < 2 ^ 32 ∧ prev * rest < 2 ^ 64 ∨ prev * rest < size := by
  constructor
  · intro heq
    by_contra hno
    rw [not_or, not_and, not_lt, not_lt] at hno
    rcases Nat.lt_or_ge rest (2 ^ 32) with hlt | hcut
    · rw [Nat.mod_eq_of_lt hlt] at heq
      have hover := hno.1 hlt
      have hless : prev * rest % 2 ^ 64 + size ≤ prev * rest := by omega
      have hdiv := Nat.div_le_div_right (c := size) hless
      rw [Nat.add_div_right _ h0] at hdiv
      omega
    · have hlt := interpolated_lt hsize hrest hcut hno.2
      have hle := Nat.div_le_div_right (c := size) (Nat.mod_le (prev * (rest % 2 ^ 32)) (2 ^ 64))
      omega
  · rintro (⟨hlt, hfits⟩ | hnone)
    · rw [Nat.mod_eq_of_lt hlt, Nat.mod_eq_of_lt hfits]
    · have hle : prev * (rest % 2 ^ 32) % 2 ^ 64 ≤ prev * rest :=
        (Nat.mod_le _ _).trans (Nat.mul_le_mul_left _ (Nat.mod_le _ _))
      rw [Nat.div_eq_of_lt (by omega), Nat.div_eq_of_lt hnone]

theorem Window.Ordered.updated {u : ℕ × ℕ} (h : w.Ordered u) (h0 : 0 < w.size) (hsize : w.size ≤ 10000000000) :
    w.Updated u := by
  have htime : sub64 u.1 w.startTime = u.1 - w.startTime := sub64_of_le h.time.1 h.time.2
  have hvalue : sub64 u.2 w.startValue = u.2 - w.startValue := sub64_of_le h.value.1 (by have := h.value.2; omega)
  have hover : u.1 - w.startTime ≤ w.size → w.over u.1 = false := by
    intro hin
    rw [Window.over, htime, decide_eq_false_iff_not]
    omega
  refine ⟨fun hout => ?_, fun hin => by rw [update_of_not_over (hover hin)], fun hin => ?_⟩
  · rw [update_of_over (by rw [Window.over, htime, decide_eq_true_iff]; exact hout), hvalue]
  · have hinter := interpolated_le w.prevGrowth w.size (u.1 - w.startTime)
    have hfits := h.value.2
    rw [← interpolated_eq_iff h0 hsize (Nat.sub_le _ _), update_of_not_over (hover hin), hvalue, htime]
    dsimp only
    rw [Nat.mod_eq_of_lt (a := u.2 - w.startValue + _) (by omega)]
    omega

/-- All updates of a window of an accepted size reset it when they should, and interpolate as `Updated` says. -/
theorem window_updates_exact {us : List (ℕ × ℕ)} (h0 : 0 < w.size) (hsize : w.size ≤ 10000000000)
    (h : Along Window.step (fun u w => w.Ordered u) us w) : Along Window.step (fun u w => w.Updated u) us w := by
  refine h.imp_invariant (I := fun v => v.size = w.size) (fun u v v' hv _ hs => ?_) (fun u v hv ho => ?_) rfl
  · obtain rfl := Option.some.inj hs
    rw [← hv]
    unfold Window.update
    split <;> rfl
  · exact ho.updated (by omega) (by omega)

/-- A window of four seconds: growth of a second, then half of it is interpolated. -/
theorem window_updates_exact_fourSeconds :
    let us := [(1000000000, 0), (4000000001, 1000000000), (6000000001, 1000000000)]
    Along Window.step (fun u w => w.Ordered u) us ⟨4000000000, 0, 0, 0⟩ ∧
      Along Window.step (fun u w => w.Updated u) us ⟨4000000000, 0, 0, 0⟩ :=
  ⟨by decide +kernel, window_updates_exact (by decide) (by decide) (by decide +kernel)⟩

/-- After a window of ten seconds, the longest that is accepted, in which a second was lost, a seventh of it is
interpolated at once instead of all: the ten seconds that remain are cut to 32 bits. -/
theorem window_truncated : ∃ t w,
    psiTriggerCreate (groupInit Unit ⟨2000000000, 4000000⟩ 0) .io (some ⟨false, 1, 10000000⟩) true 0 0 = .ok t ∧
      run Window.step [(10000000001, 1000000000)] t.win = some w ∧ (w.update 10000000001 1000000000).2 = 141006540 ∧
      1000000000 - w.startValue + w.prevGrowth * (w.size - (10000000001 - w.startTime)) / w.size = 1000000000 :=
  ⟨_, _, rfl, rfl, by decide +kernel, by decide +kernel⟩

end

/-! ## Triggers -/

theorem Trigger.aggregator_fire (now : ℕ) (t : Trigger) : (t.fire now).1.aggregator = t.aggregator := by
  unfold Trigger.fire
  split <;> rfl

theorem Trigger.aggregator_update (now seen value : ℕ) (t : Trigger) :
    (t.update now seen value).1.aggregator = t.aggregator := by
  unfold Trigger.update
  split
  · split
    · rfl
    · exact Trigger.aggregator_fire ..
  · split
    · exact Trigger.aggregator_fire ..
    · rfl

/-- A growth of the trigger has reached the threshold, up to now. -/
def Breached (W : World C) (t : Trigger) : Prop :=
  ∃ x ∈ W.growths, x.trigger.Same t ∧ x.now ≤ W.clock ∧ t.threshold ≤ x.growth

/-- What holds of a trigger: its window starts from the total of its own aggregator at a moment that is logged, and so
does the window before; a pending event comes from a growth that had reached the threshold. -/
structure TriggerOk (W : World C) (t : Trigger) : Prop where
  window : ∃ A ∈ W.log, ∃ B ∈ W.log, t.created ≤ A.time ∧ A.time = t.since ∧ A.time ≤ B.time ∧
    B.time = t.win.startTime ∧ B.time ≤ W.clock ∧ B.total t.aggregator t.state = t.win.startValue ∧
    t.win.prevGrowth + A.total t.aggregator t.state ≤ t.win.startValue
  value : t.win.startValue ≤ W.group.total t.aggregator t.state
  pending : t.pendingEvent = true → Breached W t

/-- The later of two worlds: nothing logged is lost, and no total gets less. -/
structure World.Later (W W' : World C) : Prop where
  clock : W.clock ≤ W'.clock
  log : ∀ A ∈ W.log, A ∈ W'.log
  growths : ∀ x ∈ W.growths, x ∈ W'.growths
  total : ∀ a σ, W.group.total a σ ≤ W'.group.total a σ

def World.Logged (W : World C) : Prop := ∃ N ∈ W.log, N.time = W.clock ∧ N.total = W.group.total

section

variable {W W' : World C} {t : Trigger}

section

variable (h : TriggerOk W t)

include h

theorem TriggerOk.later (hl : W.Later W') : TriggerOk W' t where
  window := by
    obtain ⟨A, hA, B, hB, h₁, h₂, h₃, h₄, h₅, h₆⟩ := h.window
    exact ⟨A, hl.log A hA, B, hl.log B hB, h₁, h₂, h₃, h₄, h₅.trans hl.clock, h₆⟩
  value := h.value.trans (hl.total _ _)
  pending hp := by
    obtain ⟨x, hx, h₁, h₂, h₃⟩ := h.pending hp
    exact ⟨x, hl.growths x hx, h₁, h₂.trans hl.clock, h₃⟩

theorem TriggerOk.growth_sound (hlog : W.Logged) : Growth.Sound W.log ⟨t, W.clock, W.group.total t.aggregator t.state,
      (t.win.update W.clock (W.group.total t.aggregator t.state)).2⟩ := by
  obtain ⟨A, hA, B, hB, hcreated, hsince, hAB, hstart, hBc, hvalue, hprev⟩ := h.window
  obtain ⟨N, hN, hNt, hNtotal⟩ := hlog
  have hg : (t.win.update W.clock (W.group.total t.aggregator t.state)).2 + t.win.startValue ≤ _ :=
    growth_le h.value
  refine ⟨h.value, A, hA, N, hN, hcreated, hsince, ?_, hNt, by rw [hNtotal], ?_⟩
  · rw [hNt]
    exact hAB.trans hBc
  · show (t.win.update W.clock (W.group.total t.aggregator t.state)).2 + A.total t.aggregator t.state ≤
      W.group.total t.aggregator t.state
    omega

theorem TriggerOk.measure (hlog : W.Logged) : TriggerOk W (t.measure W.clock (W.group.total t.aggregator t.state)) := by
  cases hover : t.win.over W.clock with
  | false =>
    have hsame : t.measure W.clock (W.group.total t.aggregator t.state) = t := by
      rw [Trigger.measure, update_of_not_over hover, hover]
      rfl
    rw [hsame]
    exact h
  | true =>
    -- the window that has passed is now the window before
    obtain ⟨A, hA, B, hB, hcreated, hsince, hAB, hstart, hBc, hvalue, hprev⟩ := h.window
    obtain ⟨N, hN, hNt, hNtotal⟩ := hlog
    have hle := h.value
    have hsub := sub64_le hle
    have hmeasure : t.measure W.clock (W.group.total t.aggregator t.state) =
        { t with
          win := t.win.reset W.clock (W.group.total t.aggregator t.state)
            (sub64 (W.group.total t.aggregator t.state) t.win.startValue)
          since := t.win.startTime } := by
      rw [Trigger.measure, update_of_over hover, if_pos hover]
    rw [hmeasure]
    refine ⟨⟨B, hB, N, hN, hcreated.trans hAB, hstart, ?_, hNt, hNt.le, ?_, ?_⟩, le_rfl, h.pending⟩
    · rw [hNt]
      exact hBc
    · rw [hNtotal]
      rfl
    · show sub64 _ _ + B.total t.aggregator t.state ≤ W.group.total t.aggregator t.state
      omega

theorem TriggerOk.fire (now : ℕ) : TriggerOk W (t.fire now).1 := by
  unfold Trigger.fire
  split
  · exact h
  · exact ⟨h.window, h.value, fun hp => absurd hp (by simp)⟩

theorem TriggerOk.setPending (hb : Breached W t) : TriggerOk W { t with pendingEvent := true } :=
  ⟨h.window, h.value, fun _ => hb⟩

/-- `update_triggers` on one trigger, when the growth that it computes is logged -/
theorem TriggerOk.update (hlog : W.Logged) (seen : ℕ) (hgrowth : seen ≠ W.group.total t.aggregator t.state →
      ⟨t, W.clock, W.group.total t.aggregator t.state, (t.win.update W.clock (W.group.total t.aggregator t.state)).2⟩ ∈
        W.growths) :
    TriggerOk W (t.update W.clock seen (W.group.total t.aggregator t.state)).1 ∧
      ((t.update W.clock seen (W.group.total t.aggregator t.state)).2 = true → Breached W t) := by
  have hmeasure := h.measure hlog
  unfold Trigger.update
  split
  · next hnew =>
    split
    · exact ⟨hmeasure, fun hf => absurd hf (by simp)⟩
    · next hcond =>
      have hb : Breached W t := by
        simp only [Bool.and_eq_true, Bool.not_eq_true', decide_eq_true_eq, not_and, not_lt] at hcond
        cases hp : t.pendingEvent with
        | true => exact h.pending hp
        | false => exact ⟨_, hgrowth hnew, ⟨rfl, rfl, rfl, rfl, rfl⟩, le_rfl, hcond hp⟩
      exact ⟨(hmeasure.setPending hb).fire W.clock, fun _ => hb⟩
  · split
    · next hp => exact ⟨h.fire W.clock, fun _ => h.pending hp⟩
    · exact ⟨h, fun hf => absurd hf (by simp)⟩

theorem TriggerOk.restart (hlog : W.Logged) :
    TriggerOk W { t with win := t.win.reset W.clock (W.group.total t.aggregator t.state) 0, since := W.clock } := by
  obtain ⟨A, -, B, -, hcreated, -, hAB, -, hBc, -⟩ := h.window
  obtain ⟨N, hN, hNt, hNtotal⟩ := hlog
  have hval : N.total t.aggregator t.state = W.group.total t.aggregator t.state := by rw [hNtotal]
  refine ⟨⟨N, hN, N, hN, ?_, hNt, le_rfl, hNt, hNt.le, hval, ?_⟩, le_rfl, h.pending⟩
  · rw [hNt]
    exact hcreated.trans (hAB.trans hBc)
  · show 0 + _ ≤ W.group.total t.aggregator t.state
    rw [hval, zero_add]

end

end

structure Created (g : Group C) (privileged : Bool) (now : ℕ) (t : Trigger) : Prop where
  aggregator : t.aggregator = if privileged then .poll else .avgs
  start : t.win.startTime = now
  value : t.win.startValue = g.total .poll t.state
  growth : t.win.prevGrowth = 0
  pending : t.pendingEvent = false
  created : t.created = now
  since : t.since = now

theorem created_of_ok {res : PsiRes} {line : Option TriggerLine} {privileged : Bool} {now id : ℕ}
    (h : psiTriggerCreate g res line privileged now id = .ok t) : Created g privileged now t := by
  unfold psiTriggerCreate at h
  repeat' split at h
  all_goals cases h
  all_goals exact ⟨by simp [*], rfl, rfl, rfl, rfl, rfl, rfl⟩

theorem Group.mem_triggers_link {x : Trigger} (hx : x ∈ (g.link t).triggers a) :
    x = t ∧ t.aggregator = a ∨ x ∈ g.triggers a := by
  cases a <;> cases hagg : t.aggregator <;> simp_all [link, triggers]

theorem Group.mem_triggers_destroy {x : Trigger} (hx : x ∈ (g.psiTriggerDestroy t).triggers a) : x ∈ g.triggers a := by
  cases a <;> cases hagg : t.aggregator <;> simp_all [psiTriggerDestroy, triggers]

/-! ## Worlds -/

def World.Has (W : World C) (t : Trigger) : Prop := t ∈ W.unlinked ∨ ∃ a, t ∈ W.group.triggers a

structure World.Inv (W : World C) : Prop where
  ok : ∀ t, W.Has t → TriggerOk W t
  own : ∀ a, ∀ t ∈ W.group.triggers a, t.aggregator = a
  growths : ∀ x ∈ W.growths, x.Sound W.log
  events : ∀ e ∈ W.events, e.Sound W.growths

theorem Growth.Sound.mono {x : Growth} {log log' : List Snapshot} (h : x.Sound log) (hl : ∀ A ∈ log, A ∈ log') :
    x.Sound log' := by
  obtain ⟨hv, A, hA, B, hB, hrest⟩ := h
  exact ⟨hv, A, hl A hA, B, hl B hB, hrest⟩

theorem Event.Sound.mono {e : Event} {growths growths' : List Growth} (h : e.Sound growths)
    (hl : ∀ x ∈ growths, x ∈ growths') : e.Sound growths' := by
  obtain ⟨x, hx, hrest⟩ := h
  exact ⟨x, hl x hx, hrest⟩

namespace World.Inv

variable {W : World C} {g : Group C} {now : ℕ}

theorem start (h : W.Start) : W.Inv where
  ok t ht := by
    rcases ht with ht | ⟨a, ht⟩
    · simp [h.unlinked] at ht
    · cases a <;> simp [triggers, h.avg, h.rtpoll] at ht
  own a t ht := by cases a <;> simp [triggers, h.avg, h.rtpoll] at ht
  growths := by simp [h.growths]
  events := by simp [h.events]

theorem rehang (h : W.Inv) {l : List Trigger} (n : ℕ) (htotal : g.total = W.group.total)
    (hunlinked : ∀ t ∈ l, TriggerOk W t) (hlinked : ∀ a, ∀ t ∈ g.triggers a, TriggerOk W t ∧ t.aggregator = a) :
    World.Inv { W with group := g, unlinked := l, nextId := n } := by
  have hlater : W.Later { W with group := g, unlinked := l, nextId := n } :=
    ⟨le_rfl, fun _ hA => hA, fun _ hx => hx, fun a σ => (congrFun (congrFun htotal a) σ).ge⟩
  refine ⟨fun t ht => ?_, fun a t ht => (hlinked a t ht).2, h.growths, h.events⟩
  rcases ht with ht | ⟨a, ht⟩
  · exact (hunlinked t ht).later hlater
  · exact (hlinked a t ht).1.later hlater

theorem linked (h : W.Inv) (ht : t ∈ W.group.triggers a) : TriggerOk W t ∧ t.aggregator = a :=
  ⟨h.ok t (.inr ⟨a, ht⟩), h.own a t ht⟩

theorem regroup (h : W.Inv) (htotal : g.total = W.group.total)
    (hlinked : ∀ a, ∀ t ∈ g.triggers a, TriggerOk W t ∧ t.aggregator = a) : World.Inv { W with group := g } :=
  h.rehang W.nextId htotal (fun t ht => h.ok t (.inl ht)) hlinked

theorem tick (h : W.Inv) (hclock : W.clock ≤ now) (htotal : ∀ a σ, W.group.total a σ ≤ g.total a σ)
    (htriggers : ∀ a, g.triggers a = W.group.triggers a) : (W.tick g now).Inv where
  ok t ht := by
    have hhas : W.Has t := by simpa only [World.Has, World.tick, htriggers] using ht
    exact (h.ok t hhas).later ⟨hclock, fun _ hA => mem_cons_of_mem _ hA, fun _ hx => hx, htotal⟩
  own a t ht := h.own a t (htriggers a ▸ ht)
  growths x hx := (h.growths x hx).mono fun _ hA => mem_cons_of_mem _ hA
  events := h.events

theorem logged_tick : (W.tick g now).Logged := ⟨⟨now, g.total⟩, mem_cons_self, rfl, rfl⟩

/-- A trigger of the aggregator, and its growth when it is one that is computed -/
theorem growth_mem (ht : t ∈ W.group.triggers a) (hnew : W.group.aggregatorTotal a t.state ≠ W.group.total a t.state) :
    ⟨t, now, W.group.total a t.state, (t.win.update now (W.group.total a t.state)).2⟩ ∈ W.group.growths now a :=
  mem_map.mpr ⟨t, mem_filter.mpr ⟨ht, decide_eq_true hnew⟩, rfl⟩

/-- `update_triggers`: every trigger of the aggregator is updated, and what is computed is logged. -/
theorem pass (h : W.Inv) (hlog : W.Logged) (a : Aggregator) (htotal : g.total = W.group.total)
    (hown : g.triggers a = (W.group.triggers a).map fun t => (W.group.updateTrigger W.clock a t).1)
    (hother : ∀ b, b ≠ a → g.triggers b = W.group.triggers b) :
        World.Inv { W.noted W.group a W.clock with group := g } := by
  have hlater : W.Later { W.noted W.group a W.clock with group := g } :=
    ⟨le_rfl, fun _ hA => hA, fun _ hx => mem_append_right _ hx, fun b σ => (congrFun (congrFun htotal b) σ).ge⟩
  have hlog' : World.Logged { W.noted W.group a W.clock with group := g } := by
    obtain ⟨N, hN, hNt, hNtotal⟩ := hlog
    exact ⟨N, hN, hNt, hNtotal.trans htotal.symm⟩
  have hupdate : ∀ t ∈ W.group.triggers a,
      TriggerOk { W.noted W.group a W.clock with group := g } (W.group.updateTrigger W.clock a t).1 ∧
        ((W.group.updateTrigger W.clock a t).2 = true → Breached { W.noted W.group a W.clock with group := g } t) := by
    intro t ht
    have hagg := h.own a t ht
    have hup := ((h.ok t (.inr ⟨a, ht⟩)).later hlater).update hlog' (W.group.aggregatorTotal a t.state)
    simp only [htotal, hagg] at hup
    exact hup fun hnew => mem_append_left _ (growth_mem ht hnew)
  refine ⟨fun t ht => ?_, fun b t ht => ?_, fun x hx => ?_, fun e he => ?_⟩
  · rcases ht with ht | ⟨b, ht⟩
    · exact (h.ok t (.inl ht)).later hlater
    · by_cases hb : b = a
      · subst hb
        obtain ⟨t₀, ht₀, rfl⟩ := mem_map.mp (hown ▸ ht)
        exact (hupdate t₀ ht₀).1
      · exact (h.ok t (.inr ⟨b, hother b hb ▸ ht⟩)).later hlater
  · by_cases hb : b = a
    · subst hb
      obtain ⟨t₀, ht₀, rfl⟩ := mem_map.mp (hown ▸ ht)
      exact (Trigger.aggregator_update ..).trans (h.own b t₀ ht₀)
    · exact h.own b t (hother b hb ▸ ht)
  · rcases mem_append.mp hx with hx | hx
    · obtain ⟨t, ht, rfl⟩ := mem_map.mp hx
      have ht := (mem_filter.mp ht).1
      have hs := (h.ok t (.inr ⟨a, ht⟩)).growth_sound hlog
      rwa [h.own a t ht] at hs
    · exact h.growths x hx
  · rcases mem_append.mp he with he | he
    · obtain ⟨t, ht, rfl⟩ := mem_map.mp he
      have ht := mem_filter.mp ht
      exact (hupdate t ht.1).2 ht.2
    · exact (h.events e he).mono fun _ hx => mem_append_right _ hx

theorem init (h : W.Inv) (hlog : W.Logged) : World.Inv { W with group := W.group.initRtpollTriggers W.clock } := by
  refine h.regroup rfl fun a t ht => ?_
  cases a with
  | avgs => exact h.linked ht
  | poll =>
    obtain ⟨t₀, ht₀, rfl⟩ := mem_map.mp ht
    have hl : TriggerOk W t₀ ∧ t₀.aggregator = .poll := h.linked ht₀
    have hval : W.group.total t₀.aggregator t₀.state = W.group.total .poll t₀.state := by rw [hl.2]
    have hr := hl.1.restart hlog
    rw [hval] at hr
    exact ⟨hr, hl.2⟩

/-- `psi_trigger_create`: the window starts from the total of the trigger's own aggregator, by assumption. -/
theorem create (h : W.Inv) (hlog : W.Logged) {privileged : Bool} (ht : Created W.group privileged W.clock t)
    (hmatched : W.group.total .poll t.state = W.group.total t.aggregator t.state) (n : ℕ) :
    World.Inv { W with unlinked := t :: W.unlinked, nextId := n } := by
  obtain ⟨N, hN, hNt, hNtotal⟩ := hlog
  have hvalue : t.win.startValue = W.group.total t.aggregator t.state := ht.value.trans hmatched
  have hlogged : N.total t.aggregator t.state = t.win.startValue := by rw [hNtotal, hvalue]
  have hok : TriggerOk W t := by
    refine ⟨⟨N, hN, N, hN, ?_, ?_, le_rfl, ?_, hNt.le, hlogged, ?_⟩, hvalue.le, fun hp => ?_⟩
    · rw [ht.created, hNt]
    · rw [ht.since, hNt]
    · rw [ht.start, hNt]
    · rw [ht.growth, hlogged, zero_add]
    · exact absurd (hp.symm.trans ht.pending) (by simp)
  refine h.rehang n rfl (fun x hx => ?_) fun a x hx => h.linked hx
  rcases mem_cons.mp hx with rfl | hx
  · exact hok
  · exact h.ok x (.inl hx)

theorem link (h : W.Inv) (ht : t ∈ W.unlinked) (p : Trigger → Bool) :
    World.Inv { W with group := W.group.link t, unlinked := W.unlinked.filter p } := by
  refine h.rehang W.nextId ?_ (fun x hx => h.ok x (.inl (mem_filter.mp hx).1)) fun a x hx => ?_
  · unfold Group.link
    split <;> rfl
  · rcases Group.mem_triggers_link hx with ⟨rfl, hagg⟩ | hx
    · exact ⟨h.ok x (.inl ht), hagg⟩
    · exact h.linked hx

theorem destroy (h : W.Inv) (t : Trigger) : World.Inv { W with group := W.group.psiTriggerDestroy t } := by
  refine h.regroup ?_ fun a x hx => h.linked (mem_triggers_destroy hx)
  unfold psiTriggerDestroy
  split <;> rfl

theorem poll (h : W.Inv) (id : ℕ) : World.Inv { W with group := { W.group with
      avgTriggers := W.group.avgTriggers.map (Trigger.polled id)
      rtpollTriggers := W.group.rtpollTriggers.map (Trigger.polled id) } } := by
  have hmem : ∀ a, ∀ t ∈ (W.group.triggers a).map (Trigger.polled id), TriggerOk W t ∧ t.aggregator = a := by
    intro a t ht
    obtain ⟨t₀, ht₀, rfl⟩ := mem_map.mp ht
    have hl := h.linked ht₀
    unfold Trigger.polled
    split
    · exact ⟨⟨hl.1.window, hl.1.value, hl.1.pending⟩, hl.2⟩
    · exact hl
  refine h.regroup rfl fun a t ht => hmem a t ?_
  cases a <;> exact ht

end World.Inv

/-! ## Steps -/

section

variable [Fintype C] {K : Config} {W : World C} {g : Group C} {now : ℕ} {clocks : C → U64}

theorem Group.total_le_collect (g : Group C) (a b : Aggregator) (σ : PsiState) :
    g.total b σ ≤ (g.collectPercpuTimes K a clocks).total b σ := by
  by_cases hb : b = a
  · subst hb
    show _ ≤ update g.total b _ b σ
    rw [update_self]
    exact Nat.le_add_right _ _
  · show _ ≤ update g.total a _ b σ
    rw [update_of_ne hb]

theorem Group.triggers_collect (g : Group C) (a b : Aggregator) :
    (g.collectPercpuTimes K a clocks).triggers b = g.triggers b := by
  cases b <;> rfl

namespace World.Inv

section

variable (h : W.Inv) (hclock : W.clock ≤ now)

include h hclock

theorem collect (a : Aggregator) : (W.tick (W.group.collectPercpuTimes K a clocks) now).Inv :=
  h.tick hclock (W.group.total_le_collect a) (W.group.triggers_collect a)

/-- `psi_avgs_work`: the triggers are updated when the averages are due. -/
theorem avgsWork : World.Inv (if (W.group.collectPercpuTimes K .avgs clocks).avgNextUpdate ≤ now then
      (W.tick (W.group.psiAvgsWork K now clocks) now).noted (W.group.collectPercpuTimes K .avgs clocks) .avgs now
    else W.tick (W.group.psiAvgsWork K now clocks) now) := by
  have hcollect : (W.tick (W.group.collectPercpuTimes K .avgs clocks) now).Inv := h.collect hclock .avgs
  unfold psiAvgsWork
  by_cases hdue : (W.group.collectPercpuTimes K .avgs clocks).avgNextUpdate ≤ now
  · simp only [if_pos hdue]
    refine hcollect.pass logged_tick .avgs rfl rfl fun b hb => ?_
    cases b with
    | avgs => exact absurd rfl hb
    | poll => rfl
  · simp only [if_neg hdue]
    exact hcollect

theorem psiShow : (W.tick (W.group.psiShow K now clocks) now).Inv := by
  have hcollect : (W.tick (W.group.collectPercpuTimes K .avgs clocks) now).Inv := h.collect hclock .avgs
  unfold Group.psiShow
  by_cases hdue : (W.group.collectPercpuTimes K .avgs clocks).avgNextUpdate ≤ now
  · simp only [if_pos hdue]
    refine hcollect.regroup rfl fun a t ht => hcollect.linked ?_
    cases a <;> exact ht
  · simp only [if_neg hdue]
    exact hcollect

theorem rtpollEnter : (W.tick (W.group.rtpollEnter K now clocks) now).Inv := by
  have hcollect : (W.tick (W.group.collectPercpuTimes K .poll clocks) now).Inv := h.collect hclock .poll
  unfold Group.rtpollEnter
  split
  · split
    · have hinit := hcollect.init logged_tick
      refine hinit.regroup rfl fun a t ht => hinit.linked ?_
      cases a <;> exact ht
    · refine hcollect.regroup rfl fun a t ht => hcollect.linked ?_
      cases a <;> exact ht
  · exact hcollect

/-- `psi_rtpoll_work`: the triggers are updated while polling goes on, when that is due. -/
theorem rtpollWork : World.Inv (if (W.group.rtpollEnter K now clocks).rtpollDue now then
      (W.tick (W.group.psiRtpollWork K now clocks) now).noted (W.group.rtpollEnter K now clocks) .poll now
    else W.tick (W.group.psiRtpollWork K now clocks) now) := by
  have henter : (W.tick (W.group.rtpollEnter K now clocks) now).Inv := h.rtpollEnter hclock
  unfold psiRtpollWork
  generalize W.group.rtpollEnter K now clocks = g at henter ⊢
  unfold rtpollUpdate
  by_cases huntil : g.rtpollUntil < now
  · have hdue : g.rtpollDue now = false := by simp [rtpollDue, huntil]
    simp only [hdue, if_pos huntil, Bool.false_eq_true, if_false]
    refine henter.regroup rfl fun a t ht => henter.linked ?_
    cases a <;> exact ht
  · by_cases hnext : g.rtpollNextUpdate ≤ now
    · have hdue : g.rtpollDue now = true := by simp [rtpollDue, hnext, not_lt.mp huntil]
      simp only [hdue, if_neg huntil, if_pos hnext, if_true]
      refine henter.pass logged_tick .poll rfl rfl fun b hb => ?_
      cases b with
      | avgs => rfl
      | poll => exact absurd rfl hb
    · have hdue : g.rtpollDue now = false := by simp [rtpollDue, hnext]
      simp only [hdue, if_neg huntil, if_neg hnext, Bool.false_eq_true, if_false]
      exact henter

end

theorem step (h : W.Inv) {o : GroupOp C} (hok : o.Matched W) {W' : World C} (hstep : o.step K W = some W') : W'.Inv := by
  cases o with
  | schedule cpus =>
    obtain rfl := some.inj hstep
    refine h.regroup rfl fun a t ht => h.linked ?_
    cases a <;> exact ht
  | avgsWork now clocks =>
    obtain ⟨hclock, rfl⟩ := of_guard hstep
    exact h.avgsWork hclock
  | «show» now clocks =>
    obtain ⟨hclock, rfl⟩ := of_guard hstep
    exact h.psiShow hclock
  | rtpollWork now clocks =>
    obtain ⟨hclock, rfl⟩ := of_guard hstep
    exact h.rtpollWork hclock
  | create res line privileged now =>
    obtain ⟨hclock, hstep⟩ := ite_none_right_eq_some.mp hstep
    have htick : (W.tick W.group now).Inv := h.tick hclock (fun _ _ => le_rfl) fun _ => rfl
    split at hstep
    · obtain rfl := some.inj hstep
      exact htick
    · next t ht =>
      obtain rfl := some.inj hstep
      have hmatched : W.group.total .poll t.state = W.group.total t.aggregator t.state := hok t (by rw [ht]; rfl)
      exact htick.create logged_tick (created_of_ok ht) hmatched _
  | link id =>
    simp only [GroupOp.step] at hstep
    split at hstep
    · next t ht =>
      obtain rfl := some.inj hstep
      exact h.link (mem_of_find?_eq_some ht) _
    · cases hstep
  | destroy id =>
    simp only [GroupOp.step] at hstep
    split at hstep
    · obtain rfl := some.inj hstep
      exact h.destroy _
    · cases hstep
  | poll id =>
    obtain rfl := some.inj hstep
    exact h.poll id

end World.Inv

end

/-- Whatever happens to a group, with triggers that start from the total of their own aggregator: every growth that is
computed is at most what that total has grown since the window before began and after the trigger was created, without
an underflow, and every event comes after such a growth that reached the threshold. -/
theorem sound_after_run [Fintype C] {K : Config} {ops : List (GroupOp C)} {W W' : World C} (hstart : W.Start)
    (hok : Along (GroupOp.step K) GroupOp.Matched ops W) (hrun : run (GroupOp.step K) ops W = some W') :
    (∀ x ∈ W'.growths, x.Sound W'.log) ∧ ∀ e ∈ W'.events, e.Sound W'.growths := by
  have hinv : W'.Inv := along_invariant (fun _ _ _ h ho hs => h.step ho hs) (.start hstart) hok hrun
  exact ⟨hinv.growths, hinv.events⟩

section

/-- 250 ticks a second, and a period of 501 of them -/
def hz250 : Config := ⟨2004000000, 4000000⟩

/-- A task waits for I/O from 0 to 4.008 s, and again for 4 ms. -/
def waitsFrom0 : GroupCpu := waits.write 0 ⟨fun _ => 0, false, fun _ => false, fun _ => 0, 0⟩

def waitedTo4 : GroupCpu := waitsNoMore.write 4008000000 waitsFrom0

def waitedAgain : GroupCpu := waitsNoMore.write 5504000000 (waits.write 5500000000 waitedTo4)

def newWorld : World Unit where
  group := groupInit Unit hz250 0
  unlinked := []
  nextId := 0
  clock := 0
  log := []
  growths := []
  events := []

theorem newWorld_start : newWorld.Start := ⟨rfl, rfl, rfl, rfl, rfl⟩

/-- Four seconds of stall are collected before an unprivileged user asks for an event at one second in two. Of the 4 ms
that follow, the next pass makes a growth of four seconds. -/
def lateRun : List (GroupOp Unit) :=
  [.schedule fun _ => waitsFrom0, .avgsWork 2004000000 fun _ => 2004000000, .avgsWork 4008000000 fun _ => 4008000000,
    .schedule fun _ => waitedTo4, .create .io (some ⟨false, 1000000, 2000000⟩) false 5000000000, .link 0,
    .schedule fun _ => waitedAgain, .avgsWork 6012000000 fun _ => 6012000000]

theorem unsound_lateRun : newWorld.Start ∧ ∃ W ∈ run (GroupOp.step hz250) lateRun newWorld,
    (∃ e ∈ W.events, ∃ A ∈ W.log, ∃ B ∈ W.log, A.time = e.trigger.created ∧ B.time = e.now ∧
      B.total e.trigger.aggregator e.trigger.state < A.total e.trigger.aggregator e.trigger.state + e.trigger.threshold) ∧
    ¬ ∀ x ∈ W.growths, x.Sound W.log :=
  ⟨newWorld_start, by decide +kernel⟩

/-- The same user comes before the stall, and a privileged one for a window of a second. -/
def timelyRun : List (GroupOp Unit) :=
  [.create .io (some ⟨false, 1000000, 2000000⟩) false 0, .link 0, .create .io (some ⟨false, 100000, 1000000⟩) true 0,
    .link 1, .schedule fun _ => waitsFrom0, .rtpollWork 100000000 fun _ => 100000000,
    .rtpollWork 900000000 fun _ => 900000000, .rtpollWork 1050000000 fun _ => 1050000000,
      .show 1500000000 fun _ => 1500000000,
    .avgsWork 2004000000 fun _ => 2004000000]

theorem sound_timelyRun : ∃ W, run (GroupOp.step hz250) timelyRun newWorld = some W ∧ W.events.length = 2 ∧
    (∀ x ∈ W.growths, x.Sound W.log) ∧ ∀ e ∈ W.events, e.Sound W.growths := by
  have hlength : (run (GroupOp.step hz250) timelyRun newWorld).map (fun W => W.events.length) = some 2 := by
    decide +kernel
  obtain ⟨W, hW, hlength⟩ := map_eq_some_iff.1 hlength
  exact ⟨W, hW, hlength, sound_after_run newWorld_start (by decide +kernel) hW⟩

end

end KernelSched.Psi
