import KernelSched.Psi.Triggers

/-!
# Pressure stall information: reads of the pressure file

`psi_show` collects the times for the aggregator of the averages, and brings the averages up to date when they are due.
It does not look at the triggers. A read that is due therefore takes from the next pass of `psi_avgs_work` both the
moment at which it would look at them and the new stall time that it would see: the events of unprivileged triggers are
lost, and not only put off.

Two runs are compared, one of them without the reads. `World.unread` is the part of a world that a read which is not due
leaves alone; the runs agree on it as long as no read is due, and every pass that is due finds the same totals in both.
The second condition is not always met either: a collection leaves out what a CPU with less than a jiffy of non-idle
time has to give, and weighs the CPUs anew each time.
-/

namespace KernelSched.Psi

open Wrap Run Option Psi.Group GroupOp World

variable {C : Type}

/-! ## What a read leaves alone -/

/-- Without what the aggregator of the averages saw last -/
def Sampled.unread (c : Sampled) : Sampled where
  cpu := c.cpu
  timesPrev
    | .avgs => fun _ => 0
    | .poll => c.timesPrev .poll

/-- Without that, and the totals of the averages -/
def Group.unread (g : Group C) : Group C :=
  { g with
    cpus := fun c => (g.cpus c).unread
    total := fun
      | .avgs => fun _ => 0
      | .poll => g.total .poll }

/-- Without that, the clock and the logged totals -/
def World.unread (W : World C) : World C := { W with group := W.group.unread, clock := 0, log := [] }

def GroupOp.isRead : GroupOp C → Bool
  | .show _ _ => true
  | _ => false

section

variable [Fintype C] {K : Config} {now : ℕ} {clocks : C → U64}

/-- A read is not due, and a pass that is due finds the totals that it would find without the reads. -/
def GroupOp.Harmless (K : Config) : GroupOp C → World C × World C → Prop
  | .show now _, (W, _) => now < W.group.avgNextUpdate
  | .avgsWork now clocks, (W, V) =>
    V.group.avgNextUpdate ≤ now →
      ∀ σ, (W.group.collectPercpuTimes K .avgs clocks).total .avgs σ =
        (V.group.collectPercpuTimes K .avgs clocks).total .avgs σ
  | _, _ => True

/-! ## Collecting -/

theorem Sampled.unread_avgs (c : Sampled) (t : U64) : (c.getRecentTimes .avgs t).1.unread = c.unread := by
  unfold Sampled.unread Sampled.getRecentTimes
  congr 1

theorem Sampled.unread_poll (c : Sampled) (t : U64) :
    (c.getRecentTimes .poll t).1.unread = (c.unread.getRecentTimes .poll t).1 := by
  unfold Sampled.unread Sampled.getRecentTimes
  congr 1
  funext a
  cases a <;> rfl

theorem Group.unread_collect_avgs (g : Group C) : (g.collectPercpuTimes K .avgs clocks).unread = g.unread := by
  have hcpus : (fun c => ((g.cpus c).getRecentTimes .avgs (clocks c)).1.unread) = fun c => (g.cpus c).unread :=
    funext fun c => (g.cpus c).unread_avgs (clocks c)
  unfold unread collectPercpuTimes
  simp only [hcpus]
  rfl

theorem Group.unread_collect_poll (g : Group C) :
    (g.collectPercpuTimes K .poll clocks).unread = g.unread.collectPercpuTimes K .poll clocks := by
  have hcpus : (fun c => ((g.cpus c).getRecentTimes .poll (clocks c)).1.unread) =
      fun c => ((g.cpus c).unread.getRecentTimes .poll (clocks c)).1 :=
    funext fun c => (g.cpus c).unread_poll (clocks c)
  unfold unread collectPercpuTimes
  simp only [hcpus]
  congr 1
  funext a
  cases a <;> rfl

theorem Group.unread_rtpollEnter (g : Group C) :
    (g.rtpollEnter K now clocks).unread = g.unread.rtpollEnter K now clocks := by
  unfold rtpollEnter
  rw [← unread_collect_poll]
  by_cases hchanged : ∃ t ∈ g.rtpollTriggers, g.changed .poll clocks t.state
  · have hchanged' : ∃ t ∈ g.unread.rtpollTriggers, g.unread.changed .poll clocks t.state := hchanged
    by_cases huntil : g.rtpollUntil < now
    · have huntil' : g.unread.rtpollUntil < now := huntil
      simp only [if_pos hchanged, if_pos hchanged', if_pos huntil, if_pos huntil']
      rfl
    · have huntil' : ¬ g.unread.rtpollUntil < now := huntil
      simp only [if_pos hchanged, if_pos hchanged', if_neg huntil, if_neg huntil']
      rfl
  · have hchanged' : ¬ ∃ t ∈ g.unread.rtpollTriggers, g.unread.changed .poll clocks t.state := hchanged
    simp only [if_neg hchanged, if_neg hchanged']

omit [Fintype C] in
theorem Group.unread_rtpollUpdate (g : Group C) : (g.rtpollUpdate now).unread = g.unread.rtpollUpdate now := by
  show (if g.rtpollUntil < now then _ else _ : Group C).unread = if g.rtpollUntil < now then _ else _
  split
  · rfl
  · show (if g.rtpollNextUpdate ≤ now then _ else _ : Group C).unread = if g.rtpollNextUpdate ≤ now then _ else _
    split <;> rfl

theorem Group.unread_psiRtpollWork (g : Group C) :
    (g.psiRtpollWork K now clocks).unread = g.unread.psiRtpollWork K now clocks := by
  unfold psiRtpollWork
  rw [unread_rtpollUpdate, unread_rtpollEnter]

omit [Fintype C] in
theorem Group.unread_link (g : Group C) (t : Trigger) : (g.link t).unread = g.unread.link t := by
  unfold link
  split <;> rfl

omit [Fintype C] in
theorem Group.unread_psiTriggerDestroy (g : Group C) (t : Trigger) :
    (g.psiTriggerDestroy t).unread = g.unread.psiTriggerDestroy t := by
  unfold psiTriggerDestroy
  split <;> rfl

omit [Fintype C] in
theorem Group.unread_unread (g : Group C) : g.unread.unread = g.unread := rfl

/-! ## Steps -/

variable {W W' V V' : World C} {o : GroupOp C}

/-- What an operation that has nothing to do with the averages makes of the unread part -/
theorem GroupOp.step_unread (hread : o.isRead = false) (hwork : ∀ now clocks, o ≠ .avgsWork now clocks)
    (hstep : o.step K W = some W') : (o.step K W.unread).map World.unread = some W'.unread := by
  cases o with
  | schedule | poll =>
    obtain rfl := some.inj hstep
    rfl
  | avgsWork now clocks => exact absurd rfl (hwork now clocks)
  | «show» now clocks => exact absurd hread (by simp [isRead])
  | rtpollWork now clocks =>
    obtain ⟨-, rfl⟩ := of_guard hstep
    have hclock : W.unread.clock ≤ now := Nat.zero_le _
    simp only [step, if_pos hclock, map_some]
    show some (unread (if (W.group.unread.rtpollEnter K now clocks).rtpollDue now then
      (W.unread.tick (W.group.unread.psiRtpollWork K now clocks) now).noted
        (W.group.unread.rtpollEnter K now clocks) .poll now
      else W.unread.tick (W.group.unread.psiRtpollWork K now clocks) now)) = _
    rw [← unread_rtpollEnter, ← unread_psiRtpollWork]
    generalize W.group.rtpollEnter K now clocks = g
    show some (World.unread (if g.rtpollDue now then _ else _)) = _
    split <;> rfl
  | create res line privileged now =>
    obtain ⟨-, hstep⟩ := ite_none_right_eq_some.mp hstep
    have hclock : W.unread.clock ≤ now := Nat.zero_le _
    have hcreate : psiTriggerCreate W.unread.group res line privileged now W.unread.nextId =
        psiTriggerCreate W.group res line privileged now W.nextId := rfl
    simp only [step, if_pos hclock, hcreate]
    split at hstep
    all_goals
      obtain rfl := some.inj hstep
      rfl
  | link id =>
    have hfind : (W.unread.unlinked.find? fun t => decide (t.id = id)) = W.unlinked.find? fun t => decide (t.id = id) :=
      rfl
    simp only [step, hfind] at hstep ⊢
    split at hstep
    · obtain rfl := some.inj hstep
      simp only [map_some, World.unread, unread_link, unread_unread]
    · cases hstep
  | destroy id =>
    have hfind : ((W.unread.group.avgTriggers ++ W.unread.group.rtpollTriggers).find? fun t => decide (t.id = id)) =
        (W.group.avgTriggers ++ W.group.rtpollTriggers).find? fun t => decide (t.id = id) := rfl
    simp only [step, hfind] at hstep ⊢
    split at hstep
    · obtain rfl := some.inj hstep
      simp only [map_some, World.unread, unread_psiTriggerDestroy, unread_unread]
    · cases hstep

/-- The unread part, with the totals of the averages: all that a pass over the triggers reads -/
def Group.refill (g : Group C) (total : PsiState → ℕ) : Group C :=
  { g with
    total := fun
      | .avgs => total
      | .poll => g.total .poll }

/-- What `psi_avgs_work` does when it is due, once the times are collected -/
def World.pass (K : Config) (now : ℕ) (g : Group C) (W : World C) : World C :=
  (W.tick ({ g with avgTriggers := g.avgTriggers.map fun t => (g.updateTrigger now .avgs t).1 }.updateAverages K now)
    now).noted g .avgs now

omit [Fintype C] in
theorem World.unread_pass (W : World C) (g : Group C) :
    (W.pass K now g).unread = (W.unread.pass K now (g.unread.refill (g.total .avgs))).unread := rfl

theorem World.unread_avgsWork (h : W.unread = V.unread) (hsame : (GroupOp.avgsWork now clocks).Harmless K (W, V))
    (hW : (GroupOp.avgsWork now clocks).step K W = some W') (hV : (GroupOp.avgsWork now clocks).step K V = some V') :
    W'.unread = V'.unread := by
  obtain ⟨-, hW⟩ := ite_none_right_eq_some.mp hW
  obtain ⟨-, hV⟩ := ite_none_right_eq_some.mp hV
  obtain rfl := some.inj hW
  obtain rfl := some.inj hV
  have hgroup : W.group.unread = V.group.unread := congrArg group h
  have hnext : W.group.unread.avgNextUpdate = V.group.unread.avgNextUpdate := by rw [hgroup]
  have hcollect : (W.group.collectPercpuTimes K .avgs clocks).unread =
      (V.group.collectPercpuTimes K .avgs clocks).unread := by
    rw [unread_collect_avgs, unread_collect_avgs, hgroup]
  unfold psiAvgsWork
  by_cases hdue : V.group.avgNextUpdate ≤ now
  · have hdueV : (V.group.collectPercpuTimes K .avgs clocks).avgNextUpdate ≤ now := hdue
    have hdueW : (W.group.collectPercpuTimes K .avgs clocks).avgNextUpdate ≤ now := hnext.trans_le hdue
    have htotal : (W.group.collectPercpuTimes K .avgs clocks).total .avgs =
        (V.group.collectPercpuTimes K .avgs clocks).total .avgs := funext (hsame hdue)
    simp only [if_pos hdueV, if_pos hdueW]
    show (W.pass K now (W.group.collectPercpuTimes K .avgs clocks)).unread =
      (V.pass K now (V.group.collectPercpuTimes K .avgs clocks)).unread
    rw [unread_pass, h, hcollect, htotal, ← unread_pass]
  · have hdueV : ¬ (V.group.collectPercpuTimes K .avgs clocks).avgNextUpdate ≤ now := hdue
    have hdueW : ¬ (W.group.collectPercpuTimes K .avgs clocks).avgNextUpdate ≤ now :=
      fun hd => hdue (hnext.symm.trans_le hd)
    simp only [if_neg hdueV, if_neg hdueW]
    show { W.unread with group := (W.group.collectPercpuTimes K .avgs clocks).unread } =
      { V.unread with group := (V.group.collectPercpuTimes K .avgs clocks).unread }
    rw [h, hcollect]

theorem World.unread_psiShow (hsame : (GroupOp.show now clocks).Harmless K (W, V))
    (hW : (GroupOp.show now clocks).step K W = some W') : W'.unread = W.unread := by
  obtain ⟨-, rfl⟩ := of_guard hW
  have hdue : ¬ (W.group.collectPercpuTimes K .avgs clocks).avgNextUpdate ≤ now := not_le.mpr hsame
  unfold psiShow
  simp only [if_neg hdue]
  show { W.unread with group := (W.group.collectPercpuTimes K .avgs clocks).unread } = W.unread
  rw [unread_collect_avgs]
  rfl

theorem GroupOp.unread_beside {s s' : World C × World C} (h : s.1.unread = s.2.unread) (ho : o.Harmless K s)
    (hstep : beside GroupOp.isRead (GroupOp.step K) o s = some s') : s'.1.unread = s'.2.unread := by
  obtain ⟨W, V⟩ := s
  unfold beside at hstep
  split at hstep
  · next hread =>
    obtain ⟨W', hW, rfl⟩ := map_eq_some_iff.1 hstep
    cases o <;> cases hread
    exact (unread_psiShow ho hW).trans h
  · next hread =>
    obtain ⟨W', hW, hstep⟩ := bind_eq_some_iff.1 hstep
    obtain ⟨V', hV, rfl⟩ := map_eq_some_iff.1 hstep
    by_cases hwork : ∃ now clocks, o = .avgsWork now clocks
    · obtain ⟨now, clocks, rfl⟩ := hwork
      exact unread_avgsWork h ho hW hV
    · have hread : o.isRead = false := Bool.not_eq_true _ ▸ hread
      have hother : ∀ now clocks, o ≠ .avgsWork now clocks := fun now clocks he => hwork ⟨now, clocks, he⟩
      have hW' := step_unread hread hother hW
      have hV' := step_unread hread hother hV
      rw [show W.unread = V.unread from h, hV'] at hW'
      exact (some.inj hW').symm

end

/-- Reads that are not due, and whose collections leave the passes the totals that they would find anyway, change
nothing of the triggers and of the events: what becomes pending or is raised at a pass without the reads does so at the
same pass with them. -/
theorem events_with_reads [Fintype C] {K : Config} {ops : List (GroupOp C)} {W W' V' : World C}
    (hok : Along (beside GroupOp.isRead (GroupOp.step K)) (GroupOp.Harmless K) ops (W, W))
    (hreads : run (GroupOp.step K) ops W = some W')
    (hnone : run (GroupOp.step K) (ops.filter fun o => !o.isRead) W = some V') :
    W'.group.avgTriggers = V'.group.avgTriggers ∧ W'.events = V'.events := by
  have h : W'.unread = V'.unread :=
    along_invariant (fun _ _ _ hs ho hstep => unread_beside hs ho hstep) rfl hok (run_beside hreads hnone)
  have htriggers : W'.unread.group.avgTriggers = V'.unread.group.avgTriggers := by rw [h]
  have hevents : W'.unread.events = V'.unread.events := by rw [h]
  exact ⟨htriggers, hevents⟩

section

instance {C : Type} [Fintype C] (K : Config) (o : GroupOp C) (s : World C × World C) : Decidable (o.Harmless K s) := by
  induction o using GroupOp.casesOn <;> unfold GroupOp.Harmless <;> infer_instance

def waitedTo2 : GroupCpu := waitsNoMore.write 2000000000 waitsFrom0

/-- An unprivileged user asks for an event at one second in two. The averages are due when the file is read: the pass
that comes right after finds that it is too early, and the next one that all the stall time has been dealt with. -/
def lostRun : List (GroupOp Unit) :=
  [.create .io (some ⟨false, 1000000, 2000000⟩) false 0, .link 0, .schedule fun _ => waitsFrom0,
    .schedule fun _ => waitedTo2, .show 2004000000 fun _ => 2004000000, .avgsWork 2005000000 fun _ => 2005000000,
    .avgsWork 4009000000 fun _ => 4009000000]

theorem lost_with_read : ∃ W ∈ run (GroupOp.step hz250) lostRun newWorld,
    ∃ V ∈ run (GroupOp.step hz250) (lostRun.filter fun o => !o.isRead) newWorld,
      (∃ e ∈ V.events, e.trigger.id = 0 ∧ e.now = 2005000000) ∧
        (∀ e ∈ W.events, e.trigger.id ≠ 0) ∧ ∀ t ∈ W.group.avgTriggers, t.pendingEvent = false := by
  decide +kernel

/-- The file is read before the averages are due. -/
def keptRun : List (GroupOp Unit) :=
  [.create .io (some ⟨false, 1000000, 2000000⟩) false 0, .link 0, .schedule fun _ => waitsFrom0,
    .show 1500000000 fun _ => 1500000000, .schedule fun _ => waitedTo2, .show 2001000000 fun _ => 2001000000,
    .avgsWork 2005000000 fun _ => 2005000000]

theorem kept_with_reads : ∃ W V, run (GroupOp.step hz250) keptRun newWorld = some W ∧
    run (GroupOp.step hz250) (keptRun.filter fun o => !o.isRead) newWorld = some V ∧ V.events.length = 1 ∧
      W.group.avgTriggers = V.group.avgTriggers ∧ W.events = V.events := by
  have hreads : (run (step hz250) keptRun newWorld).map (fun W => W.events.length) = some 1 := by decide +kernel
  have hnone : (run (step hz250) (keptRun.filter fun o => !o.isRead) newWorld).map (fun V => V.events.length) =
      some 1 := by decide +kernel
  obtain ⟨W, hW, -⟩ := map_eq_some_iff.1 hreads
  obtain ⟨V, hV, hlength⟩ := map_eq_some_iff.1 hnone
  exact ⟨W, V, hW, hV, hlength, events_with_reads (by decide +kernel) hW hV⟩

end

end KernelSched.Psi
