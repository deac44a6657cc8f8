import KernelSched.Deadline.Queue

/-!
# The cached earliest deadlines

`earliest_dl.curr` and `earliest_dl.next` of a runqueue and its entry in `cpudl` are kept up to date one task at a time.
The first and the entry are right (`DlRq.EarliestRight`, for every online CPU) after all runs in which

- no deadline is 0, the value that stands for an empty tree, and
- the deadlines that are queued at one time lie in one window narrower than half the range.

The pushable tasks are ordered by `dl_entity_preempt`, which puts a special task before all others. So `earliest_dl.next`,
which is the deadline of the first of them (`DlRq.Kept.next`), is the earliest (`DlRq.NextRight`) on those CPUs where no
special task becomes pushable.

All is said from the start of a window, which moves on with the deadlines (`Fine.rebase`).
-/

namespace KernelSched.DlQueue

open Wrap CachedTree Cpupri Rt Run Deadline Option List CpuRq DlRq

variable {n N : Nat} {T : Rooted.Tree} {base base' : U64} {l : List Queued} {plain : Bool}

/-! ## Lists of tasks in a window -/

/-- The tasks are in a window, ordered by deadline. -/
def Sorted (base : U64) (l : List Queued) : Prop :=
  (∀ p ∈ l, Within base p.deadline) ∧ l.Pairwise fun a b => off base a.deadline ≤ off base b.deadline

theorem Sorted.rebase (h : Sorted base l) (hwin : ∀ p ∈ l, Within base' p.deadline) : Sorted base' l := by
  refine ⟨hwin, h.2.imp_of_mem fun {a b} ha hb hle => ?_⟩
  have hdist := toInt_sub_of_within (h.1 a ha) (h.1 b hb)
  rw [toInt_sub_of_within (hwin a ha) (hwin b hb)] at hdist
  omega

theorem Sorted.sublist {l' : List Queued} (h : Sorted base l) (hsub : l'.Sublist l) : Sorted base l' :=
  ⟨fun p hp => h.1 p (hsub.subset hp), h.2.sublist hsub⟩

theorem Sorted.add {t : CTree Queued} {less : Queued → Queued → Bool} {p : Queued} (h : Sorted base t.items)
    (hp : Within base p.deadline) (hless : ∀ a ∈ t.items, less p a = dlTimeBefore p.deadline a.deadline)
    (ds : Rotations) :
    Sorted base (t.add less ds p).items := by
  refine ⟨fun x hx => ?_, CTree.sorted_add ds (fun a ha => ?_) h.2⟩
  · rcases CTree.mem_add.1 hx with rfl | hx
    · exact hp
    · exact h.1 x hx
  · rw [hless a ha]
    exact before_iff_off hp (h.1 a ha)

theorem Sorted.least {e : Queued} (h : Sorted base (e :: l)) : Least e.deadline ((e :: l).map Queued.deadline) := by
  have hwin : ∀ d ∈ (e :: l).map Queued.deadline, Within base d := by
    intro d hd
    obtain ⟨p, hp, rfl⟩ := mem_map.1 hd
    exact h.1 p hp
  refine (least_iff_off hwin).2 ⟨mem_cons_self, fun d hd => ?_⟩
  obtain ⟨p, hp, rfl⟩ := mem_map.1 hd
  rcases mem_cons.1 hp with rfl | hp
  · exact le_rfl
  · exact (pairwise_cons.1 h.2).1 p hp

/-! ## One queue -/

namespace DlRq

def deadlines (q : DlRq) : List U64 := q.root.items.map Queued.deadline

/-- The cache of a queue is right, `entry` being that of its CPU in `cpudl`. -/
structure EarliestRight (q : DlRq) (entry : Option U64) : Prop where
  curr : q.root.items ≠ [] → Least q.curr q.deadlines
  zero : q.curr = 0 ↔ q.root.items = []
  entry : entry = if q.root.items = [] then none else some q.curr

/-- The earliest deadline of the pushable tasks is cached. -/
def NextRight (q : DlRq) : Prop := q.pushable.items ≠ [] → Least q.next (q.pushable.items.map Queued.deadline)

/-- What the operations keep of a queue with its deadlines in a window; `plain` if no special task becomes pushable -/
structure Fine (plain : Bool) (base : U64) (q : DlRq) : Prop where
  kept : q.Kept
  root : Sorted base q.root.items
  pushable : plain = true → Sorted base q.pushable.items
  nonzero : ∀ p ∈ q.root.items, p.deadline ≠ 0
  ordinary : plain = true → ∀ p ∈ q.pushable.items, p.special = false
  least : q.root.items ≠ [] → Least q.curr q.deadlines

variable {q : DlRq} {p : Queued} {ds : Rotations} {id nrCpusAllowed cpu highestPrio : Nat} {current : Bool} {rd : Rd}

theorem fine_init (plain : Bool) (base : U64) : Fine plain base init :=
  ⟨kept_init, ⟨nofun, List.Pairwise.nil⟩, fun _ => ⟨nofun, List.Pairwise.nil⟩, nofun, nofun, fun h => absurd rfl h⟩

section

variable (h : q.Fine plain base)

include h

theorem Fine.rebase (hwin : ∀ d ∈ q.deadlines, Within base' d) : q.Fine plain base' := by
  have hroot : ∀ p ∈ q.root.items, Within base' p.deadline := fun p hp => hwin _ (mem_map_of_mem hp)
  exact ⟨h.kept, h.root.rebase hroot, fun hpl => (h.pushable hpl).rebase fun p hp => hroot p (h.kept.sub p hp),
    h.nonzero, h.ordinary, h.least⟩

theorem Fine.within : ∀ d ∈ q.deadlines, Within base d := by
  intro d hd
  obtain ⟨p, hp, rfl⟩ := mem_map.1 hd
  exact h.root.1 p hp

theorem Fine.curr_eq_zero : q.curr = 0 ↔ q.root.items = [] := by
  refine ⟨fun hzero => by_contra fun hne => ?_, h.kept.idle⟩
  obtain ⟨p, hp, hdl⟩ := mem_map.1 (h.least hne).1
  exact h.nonzero p hp (hdl.trans hzero)

theorem Fine.nextRight (hplain : plain = true) : q.NextRight := by
  intro hne
  cases hitems : q.pushable.items with
  | nil => exact absurd hitems hne
  | cons e l =>
    have hfirst := h.kept.pushable.first
    rw [hitems, List.head?_cons] at hfirst
    rw [h.kept.next e hfirst]
    exact (hitems ▸ h.pushable hplain).least

theorem Fine.least_earlier (hp : Within base p.deadline) : Least (q.earlier p.deadline) (p.deadline :: q.deadlines) := by
  have hwin : ∀ d ∈ p.deadline :: q.deadlines, Within base d := forall_mem_cons.2 ⟨hp, h.within⟩
  rw [least_iff_off hwin]
  unfold earlier
  by_cases hempty : q.root.items = []
  · rw [if_pos (.inl (h.curr_eq_zero.2 hempty))]
    simp [deadlines, hempty]
  · have hcurr : q.curr ≠ 0 := mt h.curr_eq_zero.1 hempty
    obtain ⟨hmem, hle⟩ := (least_iff_off h.within).1 (h.least hempty)
    simp only [hcurr, false_or]
    have hbefore : dlTimeBefore p.deadline q.curr = true ↔ off base p.deadline < off base q.curr :=
      before_iff_off hp (h.within _ hmem)
    split
    · next hlt =>
      refine ⟨mem_cons_self, forall_mem_cons.2 ⟨le_rfl, fun d hd => ?_⟩⟩
      exact (hbefore.1 hlt).le.trans (hle d hd)
    · next hnot => exact ⟨mem_cons_of_mem _ hmem, forall_mem_cons.2 ⟨not_lt.1 (mt hbefore.2 hnot), hle⟩⟩

theorem Fine.enqueuePushableDlTask (hp : p ∈ q.root.items) (hnot : q.isPushable p.id = false)
    (hord : plain = true → p.special = false) (ds : Rotations) : (q.enqueuePushableDlTask ds p).Fine plain base := by
  refine ⟨h.kept.enqueuePushableDlTask hp hnot, h.root, fun hpl =>
    (h.pushable hpl).add (h.root.1 p hp) (fun a _ => ?_) ds,
    h.nonzero, fun hpl x hx => ?_, h.least⟩
  · simp [dlEntityPreempt, hord hpl]
  · rcases CTree.mem_add.1 hx with rfl | hx
    · exact hord hpl
    · exact h.ordinary hpl x hx

theorem Fine.dequeuePushableDlTask (ds : Rotations) (id : Nat) : (q.dequeuePushableDlTask ds id).Fine plain base := by
  have hsub := h.kept.pushable.erase_sublist ds id
  exact ⟨h.kept.dequeuePushableDlTask ds id, h.root, fun hpl => (h.pushable hpl).sublist hsub, h.nonzero,
    fun hpl x hx => h.ordinary hpl x (hsub.subset hx), h.least⟩

theorem Fine.putPrevTaskDl (hnot : q.isPushable id = false)
    (hord : plain = true → ∀ p ∈ q.root.items, p.id = id → p.special = true → nrCpusAllowed ≤ 1) (ds : Rotations) :
    (q.putPrevTaskDl ds id nrCpusAllowed).Fine plain base := by
  unfold DlRq.putPrevTaskDl
  split
  · next x hx =>
    have hid : x.id = id := by simpa using List.find?_some hx
    have hmem := mem_of_find?_eq_some hx
    split
    · next hallowed =>
      refine h.enqueuePushableDlTask hmem (hid ▸ hnot) (fun hpl => Bool.eq_false_iff.2 fun hspecial => ?_) ds
      have := hord hpl x hmem hid hspecial
      omega
    · exact h
  · exact h

theorem Fine.enqueueDlEntity (hoff : q.onDlRq p.id = false) (hp : Within base p.deadline)
    (hne : p.deadline ≠ 0) (cpu : Nat) (ds : Rotations) (rd : Rd) :
    (q.__enqueueDlEntity cpu ds p rd).1.Fine plain base := by
  have hkept := h.kept.__enqueueDlEntity hoff cpu ds rd
  rw [DlRq.__enqueueDlEntity, incDlDeadline_fst] at hkept ⊢
  refine ⟨hkept, h.root.add hp (fun _ _ => rfl) ds, h.pushable, fun x hx => ?_, h.ordinary, fun _ => ?_⟩
  · rcases CTree.mem_add.1 hx with rfl | hx
    · exact hne
    · exact h.nonzero x hx
  · obtain ⟨hmem, hle⟩ := h.least_earlier hp
    have hperm := (CTree.perm_add dlLess ds p q.root).map Queued.deadline
    exact ⟨hperm.mem_iff.2 hmem, fun d hd => hle d (hperm.mem_iff.1 hd)⟩

theorem Fine.enqueueTaskDl (hoff : q.onDlRq p.id = false) (hp : Within base p.deadline)
    (hne : p.deadline ≠ 0) (hord : plain = true → p.special = true → current = true ∨ nrCpusAllowed ≤ 1) (cpu : Nat)
    (ds : Rotations) (rd : Rd) : (q.enqueueTaskDl cpu ds p current nrCpusAllowed rd).1.Fine plain base := by
  have hfine := h.enqueueDlEntity hoff hp hne cpu ds rd
  simp only [DlRq.enqueueTaskDl]
  split
  · next hpush =>
    rw [DlRq.__enqueueDlEntity, incDlDeadline_fst] at hfine ⊢
    refine hfine.enqueuePushableDlTask (CTree.mem_add.2 (.inl rfl)) (h.kept.not_pushable hoff)
      (fun hpl => Bool.eq_false_iff.2 fun hspecial => ?_) ds
    rcases hord hpl hspecial with hcurrent | hallowed
    · simp [hcurrent] at hpush
    · omega
  · exact hfine

/-- What a removal leaves is a part of the queue, and its first task the earliest. -/
theorem Fine.dequeueTaskDl (cpu highestPrio : Nat) (ds : Rotations) (id : Nat) (rd : Rd) :
    (q.__dequeueTaskDl cpu highestPrio ds id rd).1.Fine plain base := by
  have hkept := h.kept.__dequeueTaskDl cpu highestPrio ds id rd
  have hroot := h.kept.root.erase_sublist ds id
  have hpush := h.kept.pushable.erase_sublist ds id
  have hsorted := h.root.sublist hroot
  simp only [DlRq.__dequeueTaskDl] at hkept ⊢
  cases hon : q.onDlRq id with
  | false =>
    rw [DlRq.__dequeueDlEntity, hon, if_neg (by simp)]
    exact h.dequeuePushableDlTask ds id
  | true =>
    rcases h.kept.dequeue_cases hon cpu highestPrio ds rd with ⟨hempty, heq⟩ | ⟨e, R, hne, heq⟩ <;> rw [heq] at hkept ⊢
    all_goals
      refine ⟨hkept, hsorted, fun hpl => (h.pushable hpl).sublist hpush, fun x hx => h.nonzero x (hroot.subset hx),
        fun hpl x hx => h.ordinary hpl x (hpush.subset hx), fun hnot => ?_⟩
    · exact absurd hempty hnot
    · show Least e.deadline ((q.root.erase Queued.id ds id).1.items.map Queued.deadline)
      rw [hne] at hsorted ⊢
      exact hsorted.least

end

end DlRq

/-! ## One CPU -/

namespace CpuRq

variable {cpu : Nat} {r : CpuRq n} {rd : Rd} {e : Option U64}

/-- What an operation stores for the CPU in `cpudl`: a deadline, or none when it is cleared. -/
def stored (op : DomainOp n) (r : CpuRq n) : Option (Option U64) :=
  match op with
  | .enqueueDl _ p _ _ => if r.dl.curr = 0 ∨ dlTimeBefore p.deadline r.dl.curr then some (some p.deadline) else none
  | .dequeueDl ds id =>
    if r.dl.onDlRq id then some ((r.dl.root.erase Queued.id ds id).1.items.head?.map Queued.deadline) else none
  | .setRqOnline => if r.online then none else if 0 < r.dl.dlNrRunning then some (some r.dl.curr) else none
  | .setRqOffline => if r.online then some none else none
  | _ => none

theorem act_carries (op : DomainOp n) (hkept : r.dl.Kept) (hcarries : rd.cpudl.Carries base N rd.cpudl.entry)
    (hcpu : cpu < N) (hwin : ∀ d, r.stored op = some (some d) → Within base d) :
    (r.act T cpu op rd).2.cpudl.Carries base N
      ((r.stored op).elim rd.cpudl.entry fun v => Cpudl.note cpu v rd.cpudl.entry) := by
  cases op with
  | enqueueDl ds p current nrCpusAllowed =>
    simp only [act, withDl, enqueueTaskDl, DlRq.__enqueueDlEntity, incDlDeadline_cpudl, stored] at hwin ⊢
    split
    · next hset => exact hcarries.set hcpu (hwin _ (if_pos hset))
    · exact hcarries
  | dequeueDl ds id =>
    simp only [act, withDl, DlRq.__dequeueTaskDl, stored] at hwin ⊢
    cases hon : r.dl.onDlRq id with
    | false => simpa [DlRq.__dequeueDlEntity, hon] using hcarries
    | true =>
      rcases hkept.dequeue_cases hon cpu r.highestPrio ds rd with ⟨hempty, heq⟩ | ⟨e, R, hne, heq⟩ <;> rw [heq]
      · simp only [hempty, if_true, List.head?_nil, map_none]
        exact hcarries.clear
      · simp only [hon, hne, if_true, List.head?_cons, map_some] at hwin ⊢
        exact hcarries.set hcpu (hwin _ rfl)
  | setRqOnline =>
    simp only [act, setRqOnline, rqOnlineRt, rqOnlineDl, stored] at hwin ⊢
    split
    · exact hcarries
    · next hoff =>
      split
      · next hnr => exact (hcarries.setFree cpu true).set hcpu (hwin _ (by rw [if_neg hoff, if_pos hnr]))
      · exact hcarries.setFree cpu true
  | setRqOffline =>
    simp only [act, setRqOffline, stored]
    split
    · exact hcarries.clear.setFree cpu false
    · exact hcarries
  | enqueueRt flags e =>
    simp only [act, enqueueRt, incRtPrioSmp, stored]
    split
    · split <;> exact hcarries
    · exact hcarries
  | dequeueRt flags e =>
    simp only [act, dequeueRt, decRtPrioSmp, stored]
    split
    · split <;> exact hcarries
    · exact hcarries
  | _ => exact hcarries

/-- The entry of a CPU in `cpudl`: it has none without deadline tasks, and may have none only while it is offline. -/
structure Entered (r : CpuRq n) (e : Option U64) : Prop where
  absent : r.dl.root.items = [] → e = none
  cached : ∀ d, e = some d → d = r.dl.curr
  online : r.online = true → r.dl.root.items ≠ [] → e = some r.dl.curr

theorem Entered.congr {r' : CpuRq n} (h : r.Entered e) (hroot : r'.dl.root = r.dl.root) (hcurr : r'.dl.curr = r.dl.curr)
    (hon : r'.online = r.online) : r'.Entered e := by
  refine ⟨?_, ?_, ?_⟩
  · rw [hroot]
    exact h.absent
  · rw [hcurr]
    exact h.cached
  · rw [hroot, hcurr, hon]
    exact h.online

theorem Entered.enqueueDl (h : r.Entered e) (hfine : r.dl.Fine plain base) (ds : Rotations) (p : Queued) (current : Bool)
    (nrCpusAllowed : Nat) : (r.act T cpu (.enqueueDl ds p current nrCpusAllowed) rd).1.Entered
      ((r.stored (.enqueueDl ds p current nrCpusAllowed)).elim e id) := by
  have hcurr : (r.act T cpu (.enqueueDl ds p current nrCpusAllowed) rd).1.dl.curr = r.dl.earlier p.deadline :=
    enqueueTaskDl_curr
  have hroot : (r.act T cpu (.enqueueDl ds p current nrCpusAllowed) rd).1.dl.root = r.dl.root.add dlLess ds p :=
    enqueueTaskDl_root
  have hmem : p ∈ (r.dl.root.add dlLess ds p).items := CTree.mem_add.2 (.inl rfl)
  refine ⟨fun hempty => ?_, fun d hd => ?_, fun hon _ => ?_⟩
  · rw [hroot] at hempty
    rw [hempty] at hmem
    cases hmem
  · rw [hcurr, earlier]
    simp only [stored] at hd
    split at hd
    · next hset =>
      rw [if_pos hset]
      exact (some.inj hd).symm
    · next hset =>
      rw [if_neg hset]
      exact h.cached d hd
  · rw [hcurr, earlier]
    simp only [stored]
    split
    · rfl
    · next hset => exact h.online hon fun hempty => hset (.inl (hfine.curr_eq_zero.2 hempty))

theorem Entered.dequeueDl (h : r.Entered e) (hkept : r.dl.Kept) (ds : Rotations) (id' : Nat) :
    (r.act T cpu (.dequeueDl ds id') rd).1.Entered ((r.stored (.dequeueDl ds id')).elim e id) := by
  simp only [act, withDl, DlRq.__dequeueTaskDl, stored]
  cases hon : r.dl.onDlRq id' with
  | false =>
    simp only [DlRq.__dequeueDlEntity, hon, Bool.false_eq_true, if_false]
    exact h.congr rfl rfl rfl
  | true =>
    rcases hkept.dequeue_cases hon cpu r.highestPrio ds rd with ⟨hempty, heq⟩ | ⟨x, R, hne, heq⟩ <;> rw [heq]
    · simp only [hempty, if_true, List.head?_nil, map_none]
      exact ⟨fun _ => rfl, by simp, fun _ hnot => absurd hempty hnot⟩
    · simp only [hne, if_true, List.head?_cons, map_some]
      refine ⟨fun hempty => ?_, fun d hd => (some.inj hd).symm, fun _ _ => rfl⟩
      exact absurd (hne.symm.trans hempty) (cons_ne_nil x R)

theorem Entered.act (h : r.Entered e) (hfine : r.dl.Fine plain base) (T : Rooted.Tree) (cpu : Nat)
    (op : DomainOp n) (rd : Rd) :
    (r.act T cpu op rd).1.Entered ((r.stored op).elim e id) := by
  cases op with
  | enqueueDl ds p current nrCpusAllowed => exact h.enqueueDl hfine ds p current nrCpusAllowed
  | dequeueDl ds id' => exact h.dequeueDl hfine.kept ds id'
  | putPrev ds id' nrCpusAllowed =>
    exact h.congr putPrevTaskDl_root putPrevTaskDl_curr rfl
  | setRqOnline =>
    simp only [CpuRq.act, setRqOnline, stored]
    split
    · exact h
    · split
      · next hnr =>
        rw [hfine.kept.count, length_pos_iff] at hnr
        exact ⟨fun hempty => absurd hempty hnr, fun d hd => (some.inj hd).symm, fun _ _ => rfl⟩
      · next hnr =>
        rw [hfine.kept.count, length_pos_iff, not_not] at hnr
        exact ⟨h.absent, h.cached, fun _ hne => absurd hnr hne⟩
  | setRqOffline =>
    simp only [CpuRq.act, setRqOffline, stored]
    split
    · exact ⟨fun _ => rfl, nofun, nofun⟩
    · exact h
  | _ => exact h.congr rfl rfl rfl

end CpuRq

/-! ## Runs -/

namespace Domain

/-- All deadlines that are queued on `N` CPUs -/
def deadlines (N : Nat) (s : Domain n) : List U64 := (List.range N).flatMap fun c => (s.rq c).dl.deadlines

/-- A task that comes has a deadline other than 0, in one window with all that are queued. On a plain CPU it is not a
special task that may be pushed; nor does such a task stop to run there. -/
def Fair (N : Nat) (plain : Nat → Bool) (op : Nat × DomainOp n) (s : Domain n) : Prop :=
  match op.2 with
  | .enqueueDl _ p current nrCpusAllowed => p.deadline ≠ 0 ∧ Windowed (p.deadline :: s.deadlines N) ∧
      (plain op.1 = true → p.special = true → current = true ∨ nrCpusAllowed ≤ 1)
  | .putPrev _ id nrCpusAllowed => plain op.1 = true →
      ∀ p ∈ (s.rq op.1).dl.root.items, p.id = id → p.special = true → nrCpusAllowed ≤ 1
  | _ => True

variable {plain : Nat → Bool}

instance (op : Nat × DomainOp n) (s : Domain n) : Decidable (s.Fair N plain op) := by
  rcases op with ⟨_, _ | _⟩ <;> unfold Fair <;> infer_instance

variable {s s' : Domain n} {op : Nat × DomainOp n}

/-- What the steps keep, from the start of a window -/
structure Inv (plain : Nat → Bool) (base : U64) (N : Nat) (s : Domain n) : Prop where
  fine : ∀ c < N, (s.rq c).dl.Fine (plain c) base
  entered : ∀ c < N, (s.rq c).Entered (s.rd.cpudl.entry c)
  carries : s.rd.cpudl.Carries base N s.rd.cpudl.entry

theorem Inv.entry_mem (h : s.Inv plain base N) {c : Nat} {d : U64} (hentry : s.rd.cpudl.entry c = some d) :
    c < N ∧ d ∈ (s.rq c).dl.deadlines := by
  have hlt := h.carries.lt hentry
  have hne : (s.rq c).dl.root.items ≠ [] := fun hempty => by
    rw [(h.entered c hlt).absent hempty] at hentry
    cases hentry
  rw [(h.entered c hlt).cached d hentry]
  exact ⟨hlt, ((h.fine c hlt).least hne).1⟩

theorem Inv.rebase (h : s.Inv plain base N) (hwin : ∀ d ∈ s.deadlines N, Within base' d) : s.Inv plain base' N := by
  have hall : ∀ c < N, ∀ d ∈ (s.rq c).dl.deadlines, Within base' d := fun c hc d hd =>
    hwin d (mem_flatMap.2 ⟨c, mem_range.2 hc, hd⟩)
  refine ⟨fun c hc => (h.fine c hc).rebase (hall c hc), h.entered, h.carries.rebase fun c d hd => ?_⟩
  obtain ⟨hc, hmem⟩ := h.entry_mem hd
  exact hall c hc d hmem

theorem inv_init (plain : Nat → Bool) (base : U64) (N : Nat) (free : Nat → Bool) :
    (init free : Domain n).Inv plain base N where
  fine c _ := DlRq.fine_init (plain c) base
  entered _ _ := ⟨fun _ => rfl, nofun, nofun⟩
  carries := by
    exact ⟨free, Cpudl.tracks_init base N free⟩

theorem Inv.step (h : s.Inv plain base N) (hstep : step T N op s = some s')
    (hfine : (s'.rq op.1).dl.Fine (plain op.1) base)
    (hwin : ∀ d, (s.rq op.1).stored op.2 = some (some d) → Within base d) : s'.Inv plain base N := by
  obtain ⟨hlt, -, hself, hother, hrd⟩ := step_eq_some hstep
  have hcarries := act_carries (T := T) op.2 (h.fine op.1 hlt).kept h.carries hlt hwin
  rw [← hrd] at hcarries
  have hentry : s'.rd.cpudl.entry =
      ((s.rq op.1).stored op.2).elim s.rd.cpudl.entry fun v => Cpudl.note op.1 v s.rd.cpudl.entry := funext hcarries.entry
  refine ⟨fun c hc => ?_, fun c hc => ?_, hentry ▸ hcarries⟩
  · by_cases heq : c = op.1
    · exact heq ▸ hfine
    · rw [hother c heq]
      exact h.fine c hc
  · by_cases heq : c = op.1
    · subst heq
      have hown := (h.entered op.1 hlt).act (h.fine op.1 hlt) T op.1 op.2 s.rd
      rw [hself, hentry]
      cases hst : (s.rq op.1).stored op.2 with
      | none =>
        rw [hst] at hown
        exact hown
      | some v =>
        rw [hst] at hown
        simpa [Cpudl.note] using hown
    · rw [hother c heq, hentry]
      cases (s.rq op.1).stored op.2 with
      | none => exact h.entered c hc
      | some v => simpa [Cpudl.note, heq] using h.entered c hc

theorem Inv.step_fair (h : s.Inv plain base N) (hfair : s.Fair N plain op) (hstep : Domain.step T N op s = some s') :
    ∃ base', s'.Inv plain base' N := by
  obtain ⟨hlt, hen, hself, -, -⟩ := step_eq_some hstep
  obtain ⟨cpu, op⟩ := op
  have hfine := h.fine cpu hlt
  cases op with
  | enqueueDl ds p current nrCpusAllowed =>
    -- the window starts where it has to for the new deadline
    obtain ⟨hne, ⟨base', hwin⟩, hord⟩ := hfair
    obtain ⟨hp, hrest⟩ := forall_mem_cons.1 hwin
    have h := h.rebase hrest
    refine ⟨base', h.step hstep ?_ fun d hd => ?_⟩
    · rw [hself]
      exact (h.fine cpu hlt).enqueueTaskDl (by simpa [enabled] using hen) hp hne hord cpu ds s.rd
    · simp only [stored] at hd
      split at hd
      · cases hd
        exact hp
      · cases hd
  | dequeueDl ds id =>
    refine ⟨base, h.step hstep ?_ fun d hd => ?_⟩
    · rw [hself]
      exact hfine.dequeueTaskDl cpu (s.rq cpu).highestPrio ds id s.rd
    · simp only [stored] at hd
      split at hd
      · obtain ⟨x, hx, rfl⟩ := map_eq_some_iff.1 (some.inj hd)
        exact hfine.root.1 x ((hfine.kept.root.erase_sublist ds id).subset (mem_of_mem_head? hx))
      · cases hd
  | setNext ds id => exact ⟨base, h.step hstep (hself ▸ hfine.dequeuePushableDlTask ds id) (by rintro _ ⟨⟩)⟩
  | putPrev ds id nrCpusAllowed =>
    refine ⟨base, h.step hstep ?_ (by rintro _ ⟨⟩)⟩
    rw [hself]
    exact hfine.putPrevTaskDl (by simpa [enabled] using hen) hfair ds
  | enqueueRt | dequeueRt | setTask => exact ⟨base, h.step hstep (hself ▸ hfine) (by rintro _ ⟨⟩)⟩
  | setRqOnline =>
    refine ⟨base, h.step hstep ?_ fun d hd => ?_⟩
    · simp only [hself, act, setRqOnline]
      split <;> exact hfine
    · simp only [stored] at hd
      split at hd
      · cases hd
      · split at hd
        · next hnr =>
          rw [hfine.kept.count, length_pos_iff] at hnr
          cases hd
          exact hfine.within _ (hfine.least hnr).1
        · cases hd
  | setRqOffline =>
    refine ⟨base, h.step hstep ?_ fun d hd => ?_⟩
    · simp only [hself, act, setRqOffline]
      split <;> exact hfine
    · simp only [stored] at hd
      split at hd <;> cases hd

theorem Inv.right (h : s.Inv plain base N) {c : Nat} (hc : c < N) (hon : (s.rq c).online = true) :
    (s.rq c).dl.EarliestRight (s.rd.cpudl.entry c) := by
  have hfine := h.fine c hc
  have hentered := h.entered c hc
  refine ⟨hfine.least, hfine.curr_eq_zero, ?_⟩
  split
  · next hempty => exact hentered.absent hempty
  · next hne => exact hentered.online hon hne

/-- The caches of every online CPU are right after all fair runs, that of the pushable tasks on the plain CPUs. -/
theorem earliest_right (T : Rooted.Tree) (N : Nat) (free plain : Nat → Bool) (ops : List (Nat × DomainOp n))
    (s : Domain n) (hfair : Along (step T N) (fun op s => s.Fair N plain op) ops (init free))
    (hrun : run (step T N) ops (init free) = some s) : ∀ c < N, (s.rq c).online = true →
      (s.rq c).dl.EarliestRight (s.rd.cpudl.entry c) ∧ (plain c = true → (s.rq c).dl.NextRight) := by
  have hkeep : ∀ (op : Nat × DomainOp n) (s s' : Domain n), (∃ base, s.Inv plain base N) → s.Fair N plain op →
      step T N op s = some s' → ∃ base, s'.Inv plain base N := by
    rintro op s s' ⟨base, h⟩ hok hstep
    exact h.step_fair hok hstep
  obtain ⟨base, hinv⟩ := along_invariant hkeep ⟨0, inv_init plain 0 N free⟩ hfair hrun
  exact fun c hc hon => ⟨hinv.right hc hon, (hinv.fine c hc).nextRight⟩

/-- Two tasks that may run on two CPUs come to CPU 0; the second is special. -/
def specialRun : List (Nat × DomainOp 0) :=
  [(0, .setRqOnline), (0, .enqueueDl [] ⟨1, 10, false⟩ false 2), (0, .enqueueDl [] ⟨2, 20, true⟩ false 2)]

def zeroRun : List (Nat × DomainOp 0) := [(0, .setRqOnline), (0, .enqueueDl [] ⟨1, 0, false⟩ true 1)]

/-- Each deadline is before the next, and the last before the first. -/
def wideRun : List (Nat × DomainOp 0) :=
  [(0, .setRqOnline), (0, .enqueueDl [] ⟨1, 1, false⟩ true 1), (0, .enqueueDl [] ⟨2, 1 + 3 * 2 ^ 61, false⟩ true 1),
    (0, .enqueueDl [] ⟨3, 1 + 3 * 2 ^ 62, false⟩ true 1)]

def after (ops : List (Nat × DomainOp 0)) : Domain 0 :=
  (run (step rootOnly 1) ops (init fun _ => false)).getD (init fun _ => false)

/-- Behind a special task the earliest pushable deadline is not seen; a deadline of 0 is taken for none; deadlines that
are too far apart have no earliest. -/
theorem earliest_not_right :
    (run (step rootOnly 1) specialRun (init fun _ => false)).isSome = true ∧
    (run (step rootOnly 1) zeroRun (init fun _ => false)).isSome = true ∧
    (run (step rootOnly 1) wideRun (init fun _ => false)).isSome = true ∧
    (((after specialRun).rq 0).dl.next = 20 ∧ ((after specialRun).rq 0).dl.pushable.items.map Queued.deadline = [20, 10] ∧
      ¬((after specialRun).rq 0).dl.NextRight) ∧
    (((after zeroRun).rq 0).dl.curr = 0 ∧ ((after zeroRun).rq 0).dl.deadlines = [0] ∧
      ¬((after zeroRun).rq 0).dl.EarliestRight ((after zeroRun).rd.cpudl.entry 0)) ∧
    ¬((after wideRun).rq 0).dl.EarliestRight ((after wideRun).rd.cpudl.entry 0) := by
  have hnext : ((after specialRun).rq 0).dl.next = 20 := by decide +kernel
  have hpush : ((after specialRun).rq 0).dl.pushable.items.map Queued.deadline = [20, 10] := by decide +kernel
  have hcurr : ((after zeroRun).rq 0).dl.curr = 0 := by decide +kernel
  have hzero : ((after zeroRun).rq 0).dl.deadlines = [0] := by decide +kernel
  have hwide : ¬Least ((after wideRun).rq 0).dl.curr ((after wideRun).rq 0).dl.deadlines := by decide +kernel
  have hmany : ((after wideRun).rq 0).dl.root.items ≠ [] := by decide +kernel
  refine ⟨by decide +kernel, by decide +kernel, by decide +kernel, ⟨hnext, hpush, fun h => ?_⟩,
    ⟨hcurr, hzero, fun h => ?_⟩,
    fun h => hwide (h.curr hmany)⟩
  · have hleast := h fun hempty => by simp [hempty] at hpush
    exact absurd hleast (by decide)
  · have hempty := h.zero.1 hcurr
    simp [DlRq.deadlines, hempty] at hzero

/-- Three tasks around the end of the range; the earliest runs and leaves. On CPU 1 a special task is pushed. -/
def fairRun : List (Nat × DomainOp 0) :=
  [(0, .setRqOnline), (0, .enqueueDl [] ⟨1, 5, false⟩ false 2), (0, .enqueueDl [] ⟨2, -3, false⟩ false 2),
    (0, .enqueueDl [] ⟨3, 2, false⟩ false 2), (1, .setRqOnline), (1, .enqueueDl [] ⟨4, 1, false⟩ false 2),
    (1, .enqueueDl [] ⟨5, 2, true⟩ false 2), (0, .setNext [] 2), (0, .dequeueDl [] 2)]

theorem earliest_right_fairRun : ∃ s, run (step rootOnly 2) fairRun (init fun _ => false) = some s ∧
    (s.rq 0).dl.curr = 2 ∧ (s.rq 0).dl.NextRight ∧ (s.rq 0).dl.EarliestRight (s.rd.cpudl.entry 0) ∧
      (s.rq 1).dl.EarliestRight (s.rd.cpudl.entry 1) := by
  have hfair : Along (step rootOnly 2) (fun op s => s.Fair 2 (· == 0) op) fairRun
    (init fun _ => false) := by decide +kernel
  obtain ⟨s, hs, hon, hon', hcurr⟩ : ∃ s, run (step rootOnly 2) fairRun (init fun _ => false) = some s ∧
      (s.rq 0).online = true ∧ (s.rq 1).online = true ∧ (s.rq 0).dl.curr = 2 := run_of_isSome (by decide +kernel)
  have hright := earliest_right rootOnly 2 (fun _ => false) (· == 0) fairRun s hfair hs
  exact ⟨s, hs, hcurr, (hright 0 Nat.two_pos hon).2 rfl, (hright 0 Nat.two_pos hon).1, (hright 1 Nat.one_lt_two hon').1⟩

end Domain

end KernelSched.DlQueue
