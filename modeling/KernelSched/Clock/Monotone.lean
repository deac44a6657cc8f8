import KernelSched.Clock.Steps

/-!
# The per-CPU clocks never go back, and neither do the readings

What `sched_clock_local` computes is not behind the clock it read (`localClock_forward`), as long as the timekeeper's
stamp is not a half range, less a tick, ahead of it; `sched_clock_remote` writes the larger of two clocks, as long as
they are not exactly half the range apart (`Op.Near`). The compare-and-swap makes both a move of the clock itself, so
every operation moves every clock forward.

A value that `sched_clock_cpu` returns was the clock of the CPU asked for, and the clock of the CPU that asked, each at
a moment of the call (`Read.Honest`). Two calls one after the other that have a CPU in common so read one clock that
only moves forward.
-/

namespace KernelSched.Clock

open Wrap Run Function Option

/-! ## The window of `sched_clock_local` -/

theorem wrapMax_add (o x y : U64) : wrapMax (o + x) (o + y) = o + wrapMax x y := by
  unfold wrapMax ahead
  rw [add_sub_add_left_eq_sub]
  split <;> rfl

theorem wrapMin_add (o x y : U64) : wrapMin (o + x) (o + y) = o + wrapMin x y := by
  unfold wrapMin before
  rw [add_sub_add_left_eq_sub]
  split <;> rfl

theorem localClock_add (tickNsec o g x delta : U64) :
    localClock tickNsec (o + g) (o + x) delta = o + localClock tickNsec g x delta := by
  simp only [localClock, add_assoc, wrapMax_add, wrapMin_add]

theorem wrapMax_zero_nonneg (x : U64) : 0 ≤ (wrapMax x 0).toInt := by
  have h0 : (0 : U64).toInt = 0 := rfl
  unfold wrapMax
  split
  · rename_i h
    rw [ahead_iff, sub_zero] at h
    exact h.le
  · exact h0.ge

theorem wrapMin_nonneg {x y : U64} (hx : 0 ≤ x.toInt) (hy : 0 ≤ y.toInt) : 0 ≤ (wrapMin x y).toInt := by
  unfold wrapMin
  split
  · exact hx
  · exact hy

theorem ahead_zero_iff {x : U64} (hx : -2 ^ 63 < x.toInt) : ahead 0 x = true ↔ x.toInt < 0 := by
  have h0 : (0 : U64).toInt = 0 := rfl
  have hlt : x.toInt < 2 ^ 63 := x.toInt_lt
  rw [ahead_iff, toInt_sub_of_range (by omega) (by omega), h0]
  omega

theorem zero_wrapMax_nonneg {x : U64} (hx : -2 ^ 63 < x.toInt) : 0 ≤ (wrapMax 0 x).toInt := by
  have h0 : (0 : U64).toInt = 0 := rfl
  unfold wrapMax
  split
  · exact h0.ge
  · rename_i h
    rw [ahead_zero_iff hx] at h
    omega

theorem wrapMin_le {x y : U64} (hx : 0 ≤ x.toInt) (hy : 0 ≤ y.toInt) : (wrapMin x y).toInt ≤ y.toInt := by
  have hlt : y.toInt < 2 ^ 63 := y.toInt_lt
  have hlt' : x.toInt < 2 ^ 63 := x.toInt_lt
  unfold wrapMin
  split
  · rename_i h
    rw [before_iff, toInt_sub_of_range (by omega) (by omega)] at h
    omega
  · exact le_rfl

variable {K g d : U64}

theorem localClock_zero_nonneg (hK : 0 < K.toInt) (hg : g.toInt < 2 ^ 63 - K.toInt) : 0 ≤ (localClock K g 0 d).toInt := by
  have hgr : -2 ^ 63 ≤ g.toInt := g.le_toInt
  have hgK : (g + K).toInt = g.toInt + K.toInt := toInt_add_of_range (by omega) (by omega)
  have hmax : 0 ≤ (wrapMax 0 (g + K)).toInt := zero_wrapMax_nonneg (by omega)
  unfold localClock
  by_cases hpos : 0 < g.toInt
  · -- the window starts at `gtod` itself: measured from there it is `delta`, cut at one tick
    have hmin : wrapMax g 0 = g := if_pos (by rw [ahead_iff, sub_zero]; exact hpos)
    have hmax' : wrapMax 0 (g + K) = g + K := if_neg (by rw [ahead_zero_iff (by omega)]; omega)
    have hclock : wrapMax (g + d) g = g + wrapMax d 0 := by
      nth_rewrite 2 [← add_zero g]
      exact wrapMax_add g d 0
    have hnn := wrapMin_nonneg (wrapMax_zero_nonneg d) hK.le
    have hle := wrapMin_le (wrapMax_zero_nonneg d) hK.le
    simp only [hmin, hmax', hclock, wrapMin_add]
    rw [toInt_add_of_range (by omega) (by omega)]
    omega
  · have hmin : wrapMax g 0 = 0 := if_neg (by rw [ahead_iff, sub_zero]; exact hpos)
    simp only [hmin]
    exact wrapMin_nonneg (wrapMax_zero_nonneg _) hmax

theorem localClock_forward {gtod oldClock : U64} (hK : 0 < K.toInt)
    (hg : (gtod - oldClock).toInt < 2 ^ 63 - K.toInt) : 0 ≤ (localClock K gtod oldClock d - oldClock).toInt := by
  have hrel := localClock_add K oldClock (gtod - oldClock) 0 d
  rw [add_sub_cancel, add_zero] at hrel
  rw [hrel, add_sub_cancel_left]
  exact localClock_zero_nonneg hK hg

/-! ## What one operation does -/

variable {C T : Type} {M : Machine C T} {s s' : State C T} {op : Op C T}
  {answer : Option (C × U64)} {v : U64} {k : C}

/-- The words that are compared are less than half the range apart: the stamp of the timekeeper is not so far ahead of
the clock that a tick more turns the sign, and two clocks that are coupled are not at opposite points of the range. -/
def Op.Near (M : Machine C T) : Op C T → State C T → Prop
  | .next t _, s =>
    match s.pc t with
    | .loadGtod _ _ oldClock =>
      (s.tickGtod (M.cpuOf t) + M.gtodOffset - oldClock).toInt < 2 ^ 63 - M.tickNsec.toInt
    | .swapRemote _ thisClock remoteClock => (remoteClock - thisClock).toInt ≠ -2 ^ 63
    | _ => True
  | _, _ => True

/-- What the local variables of a context on CPU `k` say: a clock about to be written is not behind the one it
replaces, and the words read for a comparison have been seen. -/
def Pc.Ok (seen : C → U64 → Prop) (k : C) : Pc C → Prop
  | .swapLocal _ oldClock clock => 0 ≤ (clock - oldClock).toInt
  | .loadRemote _ thisClock => seen k thisClock
  | .swapRemote cpu thisClock remoteClock => seen k thisClock ∧ seen cpu remoteClock
  | _ => True

/-- Every clock stays or moves forward. -/
def Forward (s s' : State C T) : Prop := ∀ i, 0 ≤ (s'.clock i - s.clock i).toInt

theorem forward_of_eq (h : s'.clock = s.clock) : Forward s s' := by
  intro i
  rw [h, sub_self]
  exact le_refl 0

theorem forward_put [DecidableEq C] (h : 0 ≤ (v - s.clock k).toInt) (hc : s'.clock = update s.clock k v) :
    Forward s s' := by
  intro i
  rw [hc]
  by_cases hi : i = k
  · subst hi
    rwa [update_self]
  · rw [update_of_ne hi, sub_self]
    exact le_refl 0

/-- The larger of two words that are not exactly half the range apart is ahead of the other. -/
theorem forward_of_before {x y : U64} (h : before x y = true) (hn : (x - y).toInt ≠ -2 ^ 63) : 0 ≤ (y - x).toInt := by
  rw [before_iff] at h
  have hr : -2 ^ 63 ≤ (x - y).toInt := (x - y).le_toInt
  have h0 : (0 : U64).toInt = 0 := rfl
  rw [← neg_sub x y, ← zero_sub, toInt_sub_of_range (by omega) (by omega)]
  omega

theorem Pc.Ok.mono {seen seen' : C → U64 → Prop} (h : ∀ i v, seen i v → seen' i v) :
    ∀ {pc : Pc C}, pc.Ok seen k → pc.Ok seen' k
  | .out, _ | .stampGtod, _ | .stampRaw, _ | .loadRaw _, _ | .loadClock _ _, _ | .loadGtod _ _ _, _ | .loadThis _, _ =>
    trivial
  | .swapLocal _ _ _, hok => hok
  | .loadRemote _ _, hok => h _ _ hok
  | .swapRemote _ _ _, hok => ⟨h _ _ hok.1, h _ _ hok.2⟩

theorem Goal.answer_mem {g : Goal C} {r : C × U64} (h : r ∈ g.answer k v) : r = (k, v) := by
  cases g <;> simp_all [Goal.answer]

/-- The effect of one operation, whatever "seen" means: what was seen before stays seen, and so are the clocks just
before and just after it. -/
structure Effect [DecidableEq T] (M : Machine C T) (op : Op C T) (s s' : State C T) (answer : Option (C × U64))
    (seen : C → U64 → Prop) : Prop where
  pc : ∃ pc, s'.pc = update s.pc op.context pc ∧ pc.Ok seen (M.cpuOf op.context)
  forward : Forward s s'
  answer : ∀ r ∈ answer, seen r.1 r.2 ∧ seen (M.cpuOf op.context) r.2

section

variable [DecidableEq T] {seen seen' : C → U64 → Prop} {pc : Pc C}

theorem effect_goto {s₀ : State C T} (hc : s₀.clock = s.clock) (hp : s₀.pc = s.pc)
    (hok : pc.Ok seen (M.cpuOf op.context)) : Effect M op s (s₀.goto op.context pc) none seen where
  pc := ⟨pc, by rw [← hp]; rfl, hok⟩
  forward := forward_of_eq hc
  answer := by simp

variable [DecidableEq C]

theorem effect_put (hf : 0 ≤ (v - s.clock k).toInt)
    (hok : pc.Ok seen (M.cpuOf op.context)) (ha : ∀ r ∈ answer, seen r.1 r.2 ∧ seen (M.cpuOf op.context) r.2) :
    Effect M op s ((s.put k v).goto op.context pc) answer seen where
  pc := ⟨pc, rfl, hok⟩
  forward := forward_put hf rfl
  answer := ha

theorem put_clock {t : T} : ((s.put k v).goto t pc).clock k = v := update_self ..

/-- The next access of a call that is under way: one case for each place in the code. -/
theorem exec_next_effect {t : T} (hK : 0 < M.tickNsec.toInt)
    (hs : exec M (.next t v) s = some (s', answer)) (hn : (Op.next t v).Near M s)
    (hok : (s.pc t).Ok seen (M.cpuOf t)) (hseen : ∀ i v, seen i v → seen' i v)
    (hold : ∀ i, seen' i (s.clock i)) (hnew : ∀ i, seen' i (s'.clock i)) : Effect M (.next t v) s s' answer seen' := by
  unfold exec at hs
  unfold Op.Near at hn
  cases hpc : s.pc t with
  | out => simp [hpc] at hs
  | stampGtod | stampRaw | loadRaw | loadClock =>
    simp only [hpc] at hs
    cases hs
    exact effect_goto rfl rfl trivial
  | loadGtod g delta oldClock =>
    simp only [hpc] at hs hn
    cases hs
    exact effect_goto rfl rfl (localClock_forward hK hn)
  | swapLocal g oldClock clock =>
    simp only [hpc] at hs hok
    split at hs
    · rename_i hsame
      cases hs
      have hk := hnew (M.cpuOf t)
      rw [put_clock] at hk
      refine effect_put (by rw [hsame]; exact hok) (by cases g <;> trivial) ?_
      intro r hr
      rw [Goal.answer_mem hr]
      exact ⟨hk, hk⟩
    · cases hs
      exact effect_goto rfl rfl trivial
  | loadThis cpu =>
    simp only [hpc] at hs
    cases hs
    exact effect_goto rfl rfl (hold _)
  | loadRemote cpu thisClock =>
    simp only [hpc] at hs hok
    cases hs
    exact effect_goto rfl rfl ⟨hseen _ _ hok, hold _⟩
  | swapRemote cpu thisClock remoteClock =>
    simp only [hpc] at hs hok hn
    -- either side may have changed since it was read; only the side that is written is compared again
    split at hs <;> rename_i hlt <;> split at hs <;> rename_i hsame <;> cases hs
    · have hc := hnew cpu
      rw [put_clock] at hc
      refine effect_put (by rw [hsame]; exact forward_of_before hlt hn) trivial ?_
      simp only [mem_some_iff, forall_eq']
      exact ⟨hc, hseen _ _ hok.1⟩
    · exact effect_goto rfl rfl trivial
    · have hk := hnew (M.cpuOf t)
      rw [put_clock] at hk
      rw [before_iff, not_lt] at hlt
      refine effect_put (by rw [hsame]; exact hlt) trivial ?_
      simp only [mem_some_iff, forall_eq']
      exact ⟨hseen _ _ hok.2, hk⟩
    · exact effect_goto rfl rfl trivial

theorem exec_call_effect (hcall : op.isCall = true) (hs : exec M op s = some (s', answer)) :
    Effect M op s s' answer seen := by
  cases op with
  | next => simp [Op.isCall] at hcall
  | schedClockCpu t cpu | schedClockTick t =>
    simp only [exec] at hs
    split at hs
    · cases hs
      exact effect_goto rfl rfl trivial
    · simp at hs

end

/-! ## Runs -/

/-- Clock `i`, which started at `base i`, had the value `v` at a moment from `lo` to `hi`. -/
def Seen (base : C → U64) (movedAt : ℕ → C → ℤ) (lo hi : ℕ) (i : C) (v : U64) : Prop :=
  ∃ n, lo ≤ n ∧ n ≤ hi ∧ v = placedAt (base i) (movedAt n i)

/-- The value read was the clock of the CPU asked for, and the clock of the CPU that asked, during the call. -/
structure Read.Honest (base : C → U64) (h : History C T) (R : Read C) : Prop where
  finished : R.finished ≤ h.time
  target : Seen base h.movedAt R.started R.finished R.target R.value
  reader : Seen base h.movedAt R.started R.finished R.reader R.value

structure Inv (M : Machine C T) (base : C → U64) (s : State C T) (h : History C T) : Prop where
  /-- Every clock is where the history says. -/
  placed : ∀ i, s.clock i = placedAt (base i) (h.movedAt h.time i)
  rise : ∀ i m n, m ≤ n → n ≤ h.time → h.movedAt m i ≤ h.movedAt n i
  started : ∀ t, h.started t ≤ h.time
  pcs : ∀ t, (s.pc t).Ok (Seen base h.movedAt (h.started t) h.time) (M.cpuOf t)
  reads : ∀ R ∈ h.reads, R.Honest base h

section

variable {base : C → U64} {h : History C T}

theorem inv_start (hs : s.Idle) : Inv M s.clock s History.empty where
  placed i := placedAt_zero.symm
  rise _ _ _ _ _ := le_rfl
  started _ := le_rfl
  pcs t := by rw [hs t]; trivial
  reads := by simp [History.empty]

/-- Of two calls one after the other that read, or were made by, the same CPU `i`, the second returns no less, in the
order of words that wrap: clock `i` must not have moved by half the range in the meantime. -/
theorem Inv.reads_ordered (hi : Inv M base s h) {A B : Read C} (hA : A ∈ h.reads) (hB : B ∈ h.reads)
    (hAB : A.finished ≤ B.started) {i : C} (hcpu : A.target = i ∧ B.target = i ∨ A.reader = i ∧ B.reader = i)
    (hspan : h.movedAt B.finished i - h.movedAt A.started i < 2 ^ 63) : 0 ≤ (B.value - A.value).toInt := by
  have hA := hi.reads A hA
  have hB := hi.reads B hB
  have hfin := hB.finished
  have hseen : Seen base h.movedAt A.started A.finished i A.value ∧
      Seen base h.movedAt B.started B.finished i B.value := by
    rcases hcpu with ⟨ha, hb⟩ | ⟨ha, hb⟩
    · exact ⟨ha ▸ hA.target, hb ▸ hB.target⟩
    · exact ⟨ha ▸ hA.reader, hb ▸ hB.reader⟩
  obtain ⟨⟨m, hm, hm', hav⟩, ⟨n, hn, hn', hbv⟩⟩ := hseen
  have hfirst := hi.rise i A.started m hm (by omega)
  have hmn := hi.rise i m n (by omega) (by omega)
  have hlast := hi.rise i n B.finished hn' hfin
  rw [hav, hbv, toInt_placedAt_sub hmn (by omega)]
  omega

variable [DecidableEq T]

theorem note_movedAt {n : ℕ} (hn : n ≤ h.time) : (h.note M op s s' answer).movedAt n = h.movedAt n :=
  update_of_ne (by omega) ..

theorem note_movedAt_time : (h.note M op s s' answer).movedAt (h.time + 1) =
    fun i => h.movedAt h.time i + (s'.clock i - s.clock i).toInt := update_self ..

theorem Seen.note {lo hi hi' : ℕ} {i : C} (hv : Seen base h.movedAt lo hi i v) (hle : hi ≤ h.time)
    (hhi : hi ≤ hi') : Seen base (h.note M op s s' answer).movedAt lo hi' i v := by
  obtain ⟨n, hlo, hn, rfl⟩ := hv
  refine ⟨n, hlo, hn.trans hhi, ?_⟩
  rw [note_movedAt (hn.trans hle)]

theorem Read.Honest.note {R : Read C} (hR : R.Honest base h) : R.Honest base (h.note M op s s' answer) where
  finished := hR.finished.trans (Nat.le_succ _)
  target := hR.target.note hR.finished le_rfl
  reader := hR.reader.note hR.finished le_rfl

theorem note_started_of_ne {t : T} (ht : t ≠ op.context) : (h.note M op s s' answer).started t = h.started t := by
  unfold History.note
  split
  · exact update_of_ne ht ..
  · rfl

theorem note_started_call (hop : op.isCall = true) : (h.note M op s s' answer).started op.context = h.time := by
  unfold History.note
  rw [hop]
  exact update_self ..

theorem note_started_next (hop : op.isCall = false) : (h.note M op s s' answer).started = h.started := by
  unfold History.note
  rw [hop]
  rfl

theorem Inv.placed_note (hi : Inv M base s h) (i : C) :
    s'.clock i = placedAt (base i) ((h.note M op s s' answer).movedAt (h.time + 1) i) := by
  rw [note_movedAt_time]
  exact placedAt_move (hi.placed i)

theorem Inv.rise_note (hi : Inv M base s h) (hf : Forward s s') (i : C) (m n : ℕ) (hmn : m ≤ n) (hn : n ≤ h.time + 1) :
    (h.note M op s s' answer).movedAt m i ≤ (h.note M op s s' answer).movedAt n i := by
  rcases Nat.le_succ_iff.1 hn with hn | rfl
  · rw [note_movedAt hn, note_movedAt (hmn.trans hn)]
    exact hi.rise i m n hmn hn
  · rcases Nat.le_succ_iff.1 hmn with hm | rfl
    · rw [note_movedAt hm, note_movedAt_time]
      have hle := hi.rise i m h.time hm le_rfl
      have hstep := hf i
      show _ ≤ _ + _
      omega
    · exact le_rfl

theorem Inv.started_note (hi : Inv M base s h) (t : T) : (h.note M op s s' answer).started t ≤ h.time + 1 := by
  have hle := hi.started t
  by_cases ht : t = op.context
  · subst ht
    cases hop : op.isCall with
    | true => exact (note_started_call hop).le.trans (Nat.le_succ _)
    | false =>
      rw [note_started_next hop]
      omega
  · rw [note_started_of_ne ht]
    omega

variable [DecidableEq C]

theorem Inv.effect (hK : 0 < M.tickNsec.toInt) (hi : Inv M base s h) (hn : op.Near M s)
    (hs : exec M op s = some (s', answer)) : Effect M op s s' answer (Seen base (h.note M op s s' answer).movedAt
      ((h.note M op s s' answer).started op.context) (h.time + 1)) := by
  cases hop : op.isCall with
  | true => exact exec_call_effect hop hs
  | false =>
    cases op with
    | schedClockCpu | schedClockTick => simp [Op.isCall] at hop
    | next t v =>
      rw [note_started_next hop]
      refine exec_next_effect hK hs hn (hi.pcs t) (fun i w hw => hw.note le_rfl (Nat.le_succ _)) (fun i => ?_) fun i => ?_
      · refine ⟨h.time, hi.started t, Nat.le_succ _, ?_⟩
        rw [note_movedAt le_rfl]
        exact hi.placed i
      · exact ⟨h.time + 1, (hi.started t).trans (Nat.le_succ _), le_rfl, hi.placed_note i⟩

theorem isCall_of_answer {r : C × U64} (hs : exec M op s = some (s', some r)) : op.isCall = false := by
  cases op with
  | next => rfl
  | schedClockCpu t cpu | schedClockTick t =>
    simp only [exec] at hs
    split at hs <;> simp at hs

theorem Inv.note (hK : 0 < M.tickNsec.toInt) (hi : Inv M base s h) (hn : op.Near M s)
    (hs : exec M op s = some (s', answer)) : Inv M base s' (h.note M op s s' answer) := by
  have he := hi.effect hK hn hs
  obtain ⟨pc, hpc, hok⟩ := he.pc
  refine ⟨hi.placed_note, hi.rise_note he.forward, hi.started_note, fun t => ?_, fun R hR => ?_⟩
  · rw [hpc]
    by_cases ht : t = op.context
    · subst ht
      rw [update_self]
      exact hok
    · rw [update_of_ne ht, note_started_of_ne ht]
      exact (hi.pcs t).mono fun i v hv => hv.note le_rfl (Nat.le_succ _)
  · cases answer with
    | none => exact (hi.reads R hR).note
    | some r =>
      rcases List.mem_cons.1 hR with rfl | hR
      · obtain ⟨htarget, hreader⟩ := he.answer r rfl
        rw [note_started_next (isCall_of_answer hs)] at htarget hreader
        exact ⟨le_rfl, htarget, hreader⟩
      · exact (hi.reads R hR).note

theorem Inv.step (hK : 0 < M.tickNsec.toInt) (x x' : State C T × History C T) (hi : Inv M base x.1 x.2)
    (hn : op.Near M x.1) (hs : step M op x = some x') : Inv M base x'.1 x'.2 ∧ Forward x.1 x'.1 := by
  obtain ⟨⟨s', answer⟩, he, rfl⟩ := map_eq_some_iff.1 hs
  exact ⟨hi.note hK hn he, (hi.effect hK hn he).forward⟩

end

variable [DecidableEq C] [DecidableEq T]

def Op.Forward (M : Machine C T) (op : Op C T) (x : State C T × History C T) : Prop :=
  ∀ x' ∈ step M op x, Clock.Forward x.1 x'.1

/-- Whatever the raw clocks and the stamps, however the contexts interleave: no operation moves a clock back, and of
two `sched_clock_cpu` calls one after the other, for the same CPU or made by the same CPU, the second returns no
less. -/
theorem schedClockCpu_monotone (hK : 0 < M.tickNsec.toInt) {s₀ : State C T} {ops : List (Op C T)}
    {x : State C T × History C T} (hs : s₀.Idle)
    (hn : Along (step M) (fun op y => op.Near M y.1) ops (s₀, History.empty))
    (hr : run (step M) ops (s₀, History.empty) = some x) :
    Along (step M) (Op.Forward M) ops (s₀, History.empty) ∧
      ∀ A ∈ x.2.reads, ∀ B ∈ x.2.reads, A.finished ≤ B.started → ∀ i,
        (A.target = i ∧ B.target = i ∨ A.reader = i ∧ B.reader = i) →
        x.2.movedAt B.finished i - x.2.movedAt A.started i < 2 ^ 63 → 0 ≤ (B.value - A.value).toInt := by
  have hstep : ∀ op y y', Inv M s₀.clock y.1 y.2 → op.Near M y.1 → step M op y = some y' → Inv M s₀.clock y'.1 y'.2 :=
    fun op y y' hi hn hs => (hi.step hK y y' hn hs).1
  have h₀ : Inv M s₀.clock s₀ History.empty := inv_start hs
  constructor
  · refine hn.imp_invariant hstep ?_ h₀
    intro op y hi hn y' hy'
    exact (hi.step hK y y' hn hy').2
  · intro A hA B hB hAB i hcpu hspan
    exact (along_invariant hstep h₀ hn hr).reads_ordered hA hB hAB hcpu hspan

section

instance [Fintype C] : Decidable (Clock.Forward s s') :=
  inferInstanceAs (Decidable (∀ i, 0 ≤ (s'.clock i - s.clock i).toInt))

instance [Fintype C] (x : State C T × History C T) : Decidable (op.Forward M x) :=
  inferInstanceAs (Decidable (∀ x' ∈ step M op x, Clock.Forward x.1 x'.1))

instance : Decidable (op.Near M s) := by
  unfold Op.Near
  split
  · split <;> infer_instance
  · infer_instance

/-- Two CPUs with one context each, a tick of 4 ms -/
def twoCpus : Machine Bool Bool := ⟨id, 4000000, 0⟩

def clocksAt (clock : Bool → U64) : State Bool Bool := ⟨clock, fun _ => 0, fun _ => 0, fun _ => .out⟩

/-- CPU `k` reads its own clock when the raw clock shows `now`. -/
def ownRead (k : Bool) (now : U64) : List (Op Bool Bool) :=
  [.schedClockCpu k k, .next k now, .next k 0, .next k 0, .next k 0]

/-- CPU `k` reads the clock of the other when its raw clock shows `now`. -/
def otherRead (k : Bool) (now : U64) : List (Op Bool Bool) :=
  [.schedClockCpu k (!k), .next k now, .next k 0, .next k 0, .next k 0, .next k 0, .next k 0, .next k 0]

/-- CPU `k` ticks at `gtod`, its raw clock at `raw` and then, in `sched_clock_local`, at `now`. -/
def tickAt (k : Bool) (gtod raw now : U64) : List (Op Bool Bool) :=
  [.schedClockTick k, .next k gtod, .next k raw, .next k now, .next k 0, .next k 0, .next k 0]

/-- A tick whose stamp is half the range, less a tick, ahead takes the clock past the half: back. So does coupling two
clocks at opposite points of the range. -/
theorem backward_opposite :
    ¬ Along (step twoCpus) (Op.Forward twoCpus) (tickAt false (2 ^ 63 - 3999999) 0 4000000)
        (clocksAt fun _ => 0, History.empty) ∧
      ¬ Along (step twoCpus) (Op.Forward twoCpus) (otherRead false 0)
        (clocksAt fun k => if k then 2 ^ 63 else 0, History.empty) := by
  decide +kernel

/-- A tick, a read of the other CPU, and a read after the raw clock has jumped back -/
def jumpyRun : List (Op Bool Bool) := tickAt false 500 100 700 ++ otherRead true 9 ++ ownRead false 3 ++ otherRead true 0

theorem monotone_jumpyRun : ∃ x, run (step twoCpus) jumpyRun (clocksAt fun _ => 0, History.empty) = some x ∧
    x.2.reads.map Read.value = [1100, 1100, 1100] ∧
    Along (step twoCpus) (Op.Forward twoCpus) jumpyRun (clocksAt fun _ => 0, History.empty) ∧
      ∀ A ∈ x.2.reads, ∀ B ∈ x.2.reads, A.finished ≤ B.started → ∀ i,
        (A.target = i ∧ B.target = i ∨ A.reader = i ∧ B.reader = i) →
        x.2.movedAt B.finished i - x.2.movedAt A.started i < 2 ^ 63 → 0 ≤ (B.value - A.value).toInt := by
  obtain ⟨x, hx, hv⟩ : ∃ x, run (step twoCpus) jumpyRun (clocksAt fun _ => 0, History.empty) = some x ∧
      x.2.reads.map Read.value = [1100, 1100, 1100] := run_of_isSome (by decide +kernel)
  exact ⟨x, hx, hv, schedClockCpu_monotone (by decide) (fun _ => rfl) (by decide +kernel) hx⟩

end

end KernelSched.Clock
