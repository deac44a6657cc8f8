import KernelSched.Lib.Ledger
import KernelSched.Rt.Rq

/-!
# What holds inside an operation

- `Lists`: the lists and bitmaps hold the entities with `on_list`. The place of a group is the first bit of its own bitmap
  (`key`), which is its priority as long as the group has tasks.
- `Tallies`: the counters of a runqueue are the sums over the entities with `on_rq`.
- `Kept S`: both of them, with the highest priorities; only an entity in `S` can be on a list and not on the runqueue.

An entity is put on its runqueue, or taken off, while the entity of the group that it is in is off. So these hold after
every step of the loops, in which only the entities of the groups above are missing.
-/

namespace KernelSched.Rt

open Rooted List

/-! ## The first bit -/

section

variable {b : Nat → Bool} {i : Nat}

theorem firstBit_eq_iff (hi : i < maxRtPrio) : firstBit b = i ↔ b i = true ∧ ∀ j < i, b j = false := by
  unfold firstBit
  cases h : (List.range maxRtPrio).find? b with
  | none =>
    have hnone := List.find?_eq_none.1 h i (mem_range.2 hi)
    simp only [Option.getD_none]
    constructor
    · omega
    · exact fun hb => absurd hb.1 hnone
  | some k =>
    obtain ⟨hk, -, hfirst⟩ := List.find?_range_eq_some.1 h
    constructor
    · rintro rfl
      exact ⟨hk, fun j hj => by simpa using hfirst j hj⟩
    · rintro ⟨hb, hlt⟩
      rcases Nat.lt_trichotomy k i with hki | hki | hki
      · exact absurd hk (by simp [hlt k hki])
      · exact hki
      · exact absurd hb (by simpa using hfirst i hki)

theorem firstBit_le (hi : i < maxRtPrio) (h : b i = true) : firstBit b ≤ i := by
  unfold firstBit
  cases hf : (List.range maxRtPrio).find? b with
  | none => exact absurd h (by simpa using List.find?_eq_none.1 hf i (mem_range.2 hi))
  | some k =>
    obtain ⟨-, -, hfirst⟩ := List.find?_range_eq_some.1 hf
    exact Nat.le_of_not_lt fun hlt => absurd h (by simpa using hfirst i hlt)

end

/-! ## Counters as a group -/

namespace Counts

instance : AddCommGroup Counts where
  add_assoc a b c := by ext <;> simp [Int.add_assoc]
  zero_add a := by ext <;> simp
  add_zero a := by ext <;> simp
  neg_add_cancel a := by ext <;> simp
  add_comm a b := by ext <;> simp [Int.add_comm]
  sub_eq_add_neg _ _ := rfl
  nsmul := nsmulRec
  zsmul := zsmulRec

theorem sum_nr (l : List Counts) : l.sum.rtNrRunning = (l.map Counts.rtNrRunning).sum := by
  induction l with
  | nil => rfl
  | cons a l ih => simp [ih]

end Counts

/-! ## Entities -/

def entities (T : Tree) (n : Nat) : List (Entity n) :=
  (List.finRange n).map .task ++ (List.range T.size).map .group

theorem entities_nodup (T : Tree) (n : Nat) : (entities T n).Nodup := by
  refine List.Nodup.append ?_ ?_ ?_
  · exact (nodup_finRange n).map fun p q h => Entity.task.inj h
  · exact nodup_range.map fun g k h => Entity.group.inj h
  · intro e ht hg
    obtain ⟨p, -, rfl⟩ := mem_map.1 ht
    obtain ⟨g, -, hg⟩ := mem_map.1 hg
    cases hg

namespace Rq

variable {n : Nat} (T : Tree)

def key (s : Rq n) : Entity n → Nat
  | .task p => (s.task p).prio
  | .group g => firstBit (s.rt g).bitmap

/-- An entity that can be queued; the root has none. -/
def Present (s : Rq n) : Entity n → Prop
  | .task p => (s.task p).group < T.size
  | .group g => g ≠ 0 ∧ g < T.size

def isIn (s : Rq n) (c : Nat) (e : Entity n) : Prop := s.onRq e = true ∧ s.rtRqOfSe T e = c

instance (s : Rq n) (c : Nat) (e : Entity n) : Decidable (s.isIn T c e) := inferInstanceAs (Decidable (_ ∧ _))

/-- The counters of group `c`, from the entities that are on its runqueue. -/
def sums (s : Rq n) (c : Nat) : Counts := ((entities T n).map fun e => if s.isIn T c e then s.share e else 0).sum

structure Lists (s : Rq n) : Prop where
  bit : ∀ c i, (s.rt c).bitmap i = true ↔ (s.rt c).queue i ≠ []
  mem : ∀ c i e, e ∈ (s.rt c).queue i ↔ s.onList e = true ∧ s.rtRqOfSe T e = c ∧ s.key e = i
  there : ∀ e, s.onList e = true → s.Present T e ∧ s.key e < maxRtPrio

/-- The counters are right, and a group that is on a runqueue has tasks. -/
structure Tallies (s : Rq n) : Prop where
  counts : ∀ c, (s.rt c).counts = s.sums T c
  full : ∀ g, s.onRq (.group g) = true → 0 < (s.rt g).counts.rtNrRunning
  there : ∀ e, s.onRq e = true → s.Present T e

/-- `highest_prio.curr` of group `c` is right. -/
def HighestOk (s : Rq n) (c : Nat) : Prop :=
  (s.rt c).highestPrio = if (s.rt c).counts.rtNrRunning = 0 then maxRtPrio - 1 else firstBit (s.rt c).bitmap

/-- All of it; only an entity in `S` can be on a list and not on the runqueue. -/
structure Kept (S : Entity n → Prop) (s : Rq n) : Prop where
  lists : s.Lists T
  tallies : s.Tallies T
  highest : ∀ c, s.HighestOk c
  listed : ∀ e, s.onRq e = true → s.onList e = true
  off : ∀ e, s.onList e = true → s.onRq e = true ∨ S e

variable {T} {s r : Rq n} {S : Entity n → Prop} {c g : Nat} {e x : Entity n}

theorem Present.ne (h : s.Present T e) : e ≠ .group (s.rtRqOfSe T e) := by
  rintro heq
  cases e with
  | task p => cases heq
  | group g =>
    have hlt := T.parent_lt h.1
    have hg : g = T.parent g := Entity.group.inj heq
    omega

theorem Present.mem (h : s.Present T e) : e ∈ entities T n := by
  cases e with
  | task p => exact mem_append_left _ (mem_map_of_mem (mem_finRange p))
  | group g => exact mem_append_right _ (mem_map_of_mem (mem_range.2 h.2))

/-! ## Counting -/

theorem Tallies.nr_eq (h : s.Tallies T) (c : Nat) : (s.rt c).counts.rtNrRunning =
    ((entities T n).map fun e => if s.isIn T c e then s.rtSeNrRunning e else 0).sum := by
  rw [h.counts, sums, Counts.sum_nr, map_map]
  congr 2
  funext e
  simp only [Function.comp_apply]
  split <;> rfl

theorem Tallies.share_pos (h : s.Tallies T) (he : s.onRq e = true) : 0 < s.rtSeNrRunning e := by
  cases e with
  | task p => exact one_pos
  | group g => exact h.full g he

theorem Tallies.part_nonneg (h : s.Tallies T) (c : Nat) :
    ∀ v ∈ (entities T n).map (fun e => if s.isIn T c e then s.rtSeNrRunning e else 0), 0 ≤ v := by
  intro v hv
  obtain ⟨e, -, rfl⟩ := mem_map.1 hv
  split
  · next hin => exact (h.share_pos hin.1).le
  · exact le_rfl

theorem Tallies.nr_nonneg (h : s.Tallies T) (c : Nat) : 0 ≤ (s.rt c).counts.rtNrRunning := by
  rw [h.nr_eq]
  exact sum_nonneg (h.part_nonneg c)

theorem Tallies.nr_ne_zero (h : s.Tallies T) : (s.rt c).counts.rtNrRunning ≠ 0 ↔ ∃ e, s.isIn T c e := by
  constructor
  · intro hne
    by_contra hnone
    refine hne ?_
    rw [h.nr_eq]
    refine sum_eq_zero fun v hv => ?_
    obtain ⟨e, -, rfl⟩ := mem_map.1 hv
    exact if_neg fun hin => hnone ⟨e, hin⟩
  · rintro ⟨e, hin⟩
    have hmem : s.rtSeNrRunning e ∈ (entities T n).map fun e => if s.isIn T c e then s.rtSeNrRunning e else 0 :=
      mem_map.2 ⟨e, (h.there e hin.1).mem, if_pos hin⟩
    have hle := single_le_sum (h.part_nonneg c) _ hmem
    have hpos := h.share_pos hin.1
    rw [h.nr_eq]
    omega

/-! ## What the parts depend on -/

section

variable (ht : r.task = s.task)

include ht

theorem rtRqOfSe_congr (x : Entity n) : r.rtRqOfSe T x = s.rtRqOfSe T x := by
  cases x with
  | task p => exact congrArg (fun t => (t p).group) ht
  | group g => rfl

theorem present_congr (x : Entity n) : r.Present T x ↔ s.Present T x := by
  cases x with
  | task p => simp only [Present, ht]
  | group g => exact Iff.rfl

theorem share_congr (hx : ∀ g, x = .group g → (r.rt g).counts = (s.rt g).counts) : r.share x = s.share x := by
  cases x with
  | task p => simp only [share, rtSeNrRunning, rtSeRrNrRunning, rtSeBoosted, ht]
  | group g => simp only [share, rtSeNrRunning, rtSeRrNrRunning, rtSeBoosted, hx g rfl]

theorem rtSePrio_congr (hx : ∀ g, x = .group g → (r.rt g).highestPrio = (s.rt g).highestPrio) :
    r.rtSePrio x = s.rtSePrio x := by
  cases x with
  | task p => exact congrArg (fun t => (t p).prio) ht
  | group g => exact hx g rfl

theorem key_congr (hx : ∀ g, x = .group g → (r.rt g).bitmap = (s.rt g).bitmap) : r.key x = s.key x := by
  cases x with
  | task p => exact congrArg (fun t => (t p).prio) ht
  | group g => exact congrArg firstBit (hx g rfl)

end

theorem Lists.congr (h : s.Lists T) (ht : r.task = s.task) (hl : r.onList = s.onList)
    (hq : ∀ c, (r.rt c).queue = (s.rt c).queue) (hb : ∀ c, (r.rt c).bitmap = (s.rt c).bitmap) : r.Lists T := by
  have hkey : ∀ x, r.key x = s.key x := fun x => key_congr ht fun g _ => hb g
  refine ⟨fun c i => ?_, fun c i x => ?_, fun x hx => ?_⟩
  · rw [hq, hb]
    exact h.bit c i
  · rw [hq, hl, rtRqOfSe_congr ht, hkey]
    exact h.mem c i x
  · rw [present_congr ht, hkey]
    exact h.there x (hl ▸ hx)

/-! ## An entity is put on its runqueue, or taken off -/

/-- From `s` to `r`, the entity `e` is put on its runqueue or taken off it. -/
structure Turned (T : Tree) (e : Entity n) (on : Bool) (s r : Rq n) : Prop where
  task : r.task = s.task
  onRq : ∀ x, r.onRq x = if x = e then on else s.onRq x
  counts : ∀ x, (r.rt x).counts = (s.rt x).counts +
    if x = s.rtRqOfSe T e then (if on then s.share e else -s.share e) else 0
  elsewhere : ∀ x, x ≠ s.rtRqOfSe T e → r.rt x = s.rt x
  throttled : ∀ x, (r.rt x).rtThrottled = (s.rt x).rtThrottled
  queued : r.rtQueued = s.rtQueued
  nrRunning : r.nrRunning = s.nrRunning

variable {on : Bool}

theorem Turned.sums (ht : Turned T e on s r) (hex : s.Present T e) (hwas : s.onRq e = !on)
    (hgc : s.onRq (.group (s.rtRqOfSe T e)) = false) (x : Nat) : r.sums T x = s.sums T x +
      if x = s.rtRqOfSe T e then (if on then s.share e else -s.share e) else 0 := by
  have hhome : ∀ y, r.rtRqOfSe T y = s.rtRqOfSe T y := rtRqOfSe_congr ht.task
  have hshare : r.share e = s.share e := share_congr ht.task fun g hg =>
    congrArg RtRq.counts (ht.elsewhere g fun hc => hex.ne (hg.trans (congrArg Entity.group hc)))
  have hothers : ∀ y, y ≠ e → (if r.isIn T x y then r.share y else 0) = if s.isIn T x y then s.share y else 0 := by
    intro y hy
    have hin : r.isIn T x y ↔ s.isIn T x y := by simp only [isIn, ht.onRq, if_neg hy, hhome]
    by_cases hs : s.isIn T x y
    · rw [if_pos hs, if_pos (hin.2 hs)]
      refine share_congr ht.task fun g hg => congrArg RtRq.counts (ht.elsewhere g ?_)
      -- the group that the entity is in is off its runqueue
      rintro rfl
      rw [hg] at hs
      exact Bool.false_ne_true (hgc.symm.trans hs.1)
    · rw [if_neg hs, if_neg fun h => hs (hin.1 h)]
  rw [Rq.sums, Ledger.sum_map_change (a := e) _ _ (entities_nodup T n) hothers, if_pos hex.mem, hshare, ← Rq.sums]
  have hine : r.isIn T x e ↔ on = true ∧ s.rtRqOfSe T e = x := by simp only [isIn, ht.onRq, if_true, hhome]
  have hwasin : s.isIn T x e ↔ on = false ∧ s.rtRqOfSe T e = x := by
    simp only [isIn, hwas]
    cases on <;> simp
  cases on with
  | true =>
    rw [if_neg (fun h => Bool.false_ne_true (hwasin.1 h).1.symm), sub_zero]
    by_cases hx : x = s.rtRqOfSe T e
    · rw [if_pos (hine.2 ⟨rfl, hx.symm⟩), if_pos hx]
      rfl
    · rw [if_neg (fun h => hx (hine.1 h).2.symm), if_neg hx]
  | false =>
    rw [if_neg (fun h => Bool.false_ne_true (hine.1 h).1), zero_sub]
    by_cases hx : x = s.rtRqOfSe T e
    · rw [if_pos (hwasin.2 ⟨rfl, hx.symm⟩), if_pos hx]
      rfl
    · rw [if_neg (fun h => hx (hwasin.1 h).2.symm), if_neg hx, neg_zero]

theorem Turned.tallies (ht : Turned T e on s r) (h : s.Tallies T) (hex : s.Present T e) (hwas : s.onRq e = !on)
    (hgc : s.onRq (.group (s.rtRqOfSe T e)) = false)
    (hfull : ∀ g, e = .group g → 0 < (s.rt g).counts.rtNrRunning) : r.Tallies T := by
  refine ⟨fun x => ?_, fun g hg => ?_, fun x hx => ?_⟩
  · rw [ht.counts, h.counts, ht.sums hex hwas hgc]
  · have hne : g ≠ s.rtRqOfSe T e := by
      rintro rfl
      rw [ht.onRq, if_neg (Ne.symm hex.ne), hgc] at hg
      cases hg
    rw [ht.elsewhere g hne]
    rw [ht.onRq] at hg
    split at hg
    · next he => exact hfull g he.symm
    · exact h.full g hg
  · rw [present_congr ht.task]
    rw [ht.onRq] at hx
    split at hx
    · next he => exact he ▸ hex
    · exact h.there x hx

/-! ## The two entity operations -/

variable {u : Rq n} {flags : Flags}

/-- From `s` to `u`, only the lists of the runqueue of `e` have changed. -/
structure Relisted (T : Tree) (e : Entity n) (s u : Rq n) : Prop where
  task : u.task = s.task
  onRq : u.onRq = s.onRq
  counts : ∀ x, (u.rt x).counts = (s.rt x).counts
  highest : ∀ x, (u.rt x).highestPrio = (s.rt x).highestPrio
  throttled : ∀ x, (u.rt x).rtThrottled = (s.rt x).rtThrottled
  elsewhere : ∀ x, x ≠ s.rtRqOfSe T e → u.rt x = s.rt x
  queued : u.rtQueued = s.rtQueued
  nrRunning : u.nrRunning = s.nrRunning

theorem Relisted.refl (s : Rq n) : Relisted T e s s :=
  ⟨rfl, rfl, fun _ => rfl, fun _ => rfl, fun _ => rfl, fun _ _ => rfl, rfl, rfl⟩

theorem Relisted.upd {f : RtRq n → RtRq n} (hc : ∀ q, (f q).counts = q.counts)
    (hp : ∀ q, (f q).highestPrio = q.highestPrio)
    (ht : ∀ q, (f q).rtThrottled = q.rtThrottled) (on : Bool) :
    Relisted T e s ((s.upd (s.rtRqOfSe T e) f).setOnList e on) := by
  have hrt : ∀ x, ((s.upd (s.rtRqOfSe T e) f).setOnList e on).rt x = if x = s.rtRqOfSe T e then f (s.rt x) else s.rt x :=
    fun _ => rfl
  refine ⟨rfl, rfl, fun x => ?_, fun x => ?_, fun x => ?_, fun x hx => if_neg hx, rfl, rfl⟩ <;> rw [hrt] <;> split
  · exact hc _
  · rfl
  · exact hp _
  · rfl
  · exact ht _
  · rfl

theorem relisted_of_move (flags : Flags) (e : Entity n) (s : Rq n) :
    Relisted T e s (if flags.moveEntity then s.listRtEntity T flags.head e else s) := by
  split
  · refine .upd ?_ ?_ ?_ true <;> exact fun _ => rfl
  · exact .refl s

theorem relisted_of_delist (flags : Flags) (e : Entity n) (s : Rq n) :
    Relisted T e s (if flags.moveEntity then s.__delistRtEntity T e else s) := by
  split
  · refine .upd ?_ ?_ ?_ false <;> exact fun _ => rfl
  · exact .refl s

section

variable (hr : Relisted T e s u)

include hr

theorem Relisted.share (on : Bool) : (u.setOnRq e on).share e = s.share e :=
  share_congr hr.task fun g _ => hr.counts g

theorem Relisted.prio (on : Bool) : (u.setOnRq e on).rtSePrio e = s.rtSePrio e :=
  rtSePrio_congr hr.task fun g _ => hr.highest g

theorem Relisted.home (on : Bool) : (u.setOnRq e on).rtRqOfSe T e = s.rtRqOfSe T e :=
  rtRqOfSe_congr hr.task e

theorem Relisted.inc_rt (x : Nat) : ((u.setOnRq e true).incRtTasks T e).rt x =
    if x = s.rtRqOfSe T e then incRtPrio (s.rtSePrio e) { u.rt x with counts := (s.rt x).counts + s.share e }
    else s.rt x := by
  rw [incRtTasks, hr.share, hr.prio, hr.home, ← hr.counts]
  by_cases hx : x = s.rtRqOfSe T e
  · rw [if_pos hx]
    exact if_pos hx
  · rw [if_neg hx]
    exact (if_neg hx).trans (hr.elsewhere x hx)

theorem Relisted.dec_rt (x : Nat) : ((u.setOnRq e false).decRtTasks T e).rt x =
    if x = s.rtRqOfSe T e then decRtPrio (s.rtSePrio e) { u.rt x with counts := (s.rt x).counts - s.share e }
    else s.rt x := by
  rw [decRtTasks, hr.share, hr.prio, hr.home, ← hr.counts]
  by_cases hx : x = s.rtRqOfSe T e
  · rw [if_pos hx]
    exact if_pos hx
  · rw [if_neg hx]
    exact (if_neg hx).trans (hr.elsewhere x hx)

theorem Relisted.inc_turned : Turned T e true s ((u.setOnRq e true).incRtTasks T e) := by
  refine ⟨hr.task, fun x => ?_, fun x => ?_, fun x hx => ?_, fun x => ?_, hr.queued, hr.nrRunning⟩
  · rw [← hr.onRq]
    rfl
  · rw [hr.inc_rt]
    split
    · rfl
    · exact (add_zero _).symm
  · rw [hr.inc_rt, if_neg hx]
  · rw [hr.inc_rt]
    split
    · exact hr.throttled x
    · rfl

theorem Relisted.dec_turned : Turned T e false s ((u.setOnRq e false).decRtTasks T e) := by
  refine ⟨hr.task, fun x => ?_, fun x => ?_, fun x hx => ?_, fun x => ?_, hr.queued, hr.nrRunning⟩
  · rw [← hr.onRq]
    rfl
  · rw [hr.dec_rt]
    split
    · exact sub_eq_add_neg _ _
    · exact (add_zero _).symm
  · rw [hr.dec_rt, if_neg hx]
  · rw [hr.dec_rt]
    split
    · exact hr.throttled x
    · rfl

end

theorem enqueue_of_not_blocked (hb : s.blocked e = false) (flags : Flags) : s.__enqueueRtEntity T flags e =
    ((if flags.moveEntity then s.listRtEntity T flags.head e else s).setOnRq e true).incRtTasks T e :=
  if_neg (by rw [hb]; exact Bool.false_ne_true)

theorem enqueue_turned (hb : s.blocked e = false) (flags : Flags) :
    Turned T e true s (s.__enqueueRtEntity T flags e) := by
  rw [enqueue_of_not_blocked hb]
  exact (relisted_of_move flags e s).inc_turned

theorem dequeue_turned (flags : Flags) (e : Entity n) (s : Rq n) : Turned T e false s (s.__dequeueRtEntity T flags e) :=
  (relisted_of_delist flags e s).dec_turned

theorem Lists.upd {f : RtRq n → RtRq n} (h : s.Lists T) (hq : ∀ q, (f q).queue = q.queue)
    (hb : ∀ q, (f q).bitmap = q.bitmap) (c : Nat) (on : Bool) : ((s.setOnRq e on).upd c f).Lists T := by
  refine h.congr rfl rfl (fun x => ?_) fun x => ?_ <;> rw [Rq.upd] <;> dsimp only <;> split
  · exact hq _
  · rfl
  · exact hb _
  · rfl

theorem Lists.inc (h : s.Lists T) (e : Entity n) : ((s.setOnRq e true).incRtTasks T e).Lists T := by
  unfold incRtTasks
  refine h.upd ?_ ?_ _ true <;> exact fun _ => rfl

theorem Lists.dec (h : s.Lists T) (e : Entity n) : ((s.setOnRq e false).decRtTasks T e).Lists T := by
  unfold decRtTasks
  refine h.upd ?_ ?_ _ false <;> exact fun _ => rfl

theorem HighestOk.congr (h : s.HighestOk c) (heq : r.rt c = s.rt c) : r.HighestOk c := by
  rw [HighestOk, heq]
  exact h

/-! ## Places -/

theorem Lists.bit_key (h : s.Lists T) (hl : s.onList e = true) : (s.rt (s.rtRqOfSe T e)).bitmap (s.key e) = true := by
  rw [h.bit]
  exact ne_nil_of_mem ((h.mem _ _ e).2 ⟨hl, rfl, rfl⟩)

theorem Lists.firstBit_le_key (h : s.Lists T) (hl : s.onList e = true) :
    firstBit (s.rt (s.rtRqOfSe T e)).bitmap ≤ s.key e :=
  firstBit_le (h.there e hl).2 (h.bit_key hl)

theorem Kept.prio_eq_key (h : s.Kept T S) (he : ∀ g, e = .group g → (s.rt g).counts.rtNrRunning ≠ 0) :
    s.rtSePrio e = s.key e := by
  cases e with
  | task p => rfl
  | group g => exact (h.highest g).trans (if_neg (he g rfl))

theorem Kept.key_lt (h : s.Kept T S) (hne : (s.rt g).counts.rtNrRunning ≠ 0) : s.key (.group g) < maxRtPrio := by
  obtain ⟨x, hx, rfl⟩ := h.tallies.nr_ne_zero.1 hne
  have hl := h.listed x hx
  have hlt := (h.lists.there x hl).2
  exact (firstBit_le hlt (h.lists.bit_key hl)).trans_lt hlt

theorem nr_ne_zero_of_not_blocked (hb : s.blocked (.group g) = false) : (s.rt g).counts.rtNrRunning ≠ 0 := by
  simp only [blocked, Bool.or_eq_false_iff, decide_eq_false_iff_not] at hb
  exact hb.2

theorem Kept.onRq_of_onList (h : s.Kept T S) (hl : s.onList e = false) : s.onRq e = false := by
  cases hon : s.onRq e with
  | false => rfl
  | true => exact (hl.symm.trans (h.listed e hon)).symm

theorem Kept.pos_of_not_blocked (h : s.Kept T S) (hb : s.blocked e = false) {g : Nat} (hg : e = .group g) :
    0 < (s.rt g).counts.rtNrRunning :=
  (h.tallies.nr_nonneg g).lt_of_ne (nr_ne_zero_of_not_blocked (by rw [← hg]; exact hb)).symm

theorem Kept.highest_of_on (h : s.Kept T S) (hon : s.onRq e = true) :
    (s.rt (s.rtRqOfSe T e)).highestPrio = firstBit (s.rt (s.rtRqOfSe T e)).bitmap :=
  (h.highest _).trans (if_neg (h.tallies.nr_ne_zero.2 ⟨e, hon, rfl⟩))

theorem Kept.highest_turned (h : s.Kept T S) (ht : Turned T e on s r) (hhigh : r.HighestOk (s.rtRqOfSe T e)) (c : Nat) :
    r.HighestOk c := by
  by_cases hc : c = s.rtRqOfSe T e
  · exact hc ▸ hhigh
  · exact (h.highest c).congr (ht.elsewhere c hc)

/-- `inc_rt_prio` takes the better of the two priorities. -/
theorem Relisted.inc_highest (hr : Relisted T e s u) (htal : ((u.setOnRq e true).incRtTasks T e).Tallies T)
    (hfirst : (if s.rtSePrio e < (s.rt (s.rtRqOfSe T e)).highestPrio then s.rtSePrio e
      else (s.rt (s.rtRqOfSe T e)).highestPrio) = firstBit (u.rt (s.rtRqOfSe T e)).bitmap) :
    ((u.setOnRq e true).incRtTasks T e).HighestOk (s.rtRqOfSe T e) := by
  have hin : ((u.setOnRq e true).incRtTasks T e).isIn T (s.rtRqOfSe T e) e := by
    refine ⟨?_, hr.home true⟩
    rw [hr.inc_turned.onRq, if_pos rfl]
  rw [HighestOk, if_neg (htal.nr_ne_zero.2 ⟨e, hin⟩), hr.inc_rt, if_pos rfl]
  simp only [incRtPrio, hr.highest]
  exact hfirst

variable {prio : Nat} {head : Bool}

theorem decRtPrio_highest {q : RtRq n} (h : prio ≠ q.highestPrio → q.highestPrio = firstBit q.bitmap) :
    (decRtPrio prio q).highestPrio = if q.counts.rtNrRunning = 0 then maxRtPrio - 1 else firstBit q.bitmap := by
  unfold decRtPrio
  by_cases hz : q.counts.rtNrRunning = 0
  · simp only [hz, ne_eq, not_true_eq_false, if_false, if_true]
  · simp only [hz, ne_eq, not_false_eq_true, if_true, if_false]
    split
    · rfl
    · next hne => exact h hne

/-! ## Lists -/

theorem mem_listed {i : Nat} {q : List (Entity n)} :
    x ∈ (if i = prio then (if head then e :: q else q ++ [e]) else q) ↔ x ∈ q ∨ i = prio ∧ x = e := by
  by_cases hi : i = prio
  · cases head <;> simp [hi, or_comm]
  · simp [hi]

theorem key_of_elsewhere (ht : r.task = s.task) (h : ∀ g, g ≠ c → (r.rt g).bitmap = (s.rt g).bitmap)
    (hx : x ≠ .group c) : r.key x = s.key x :=
  key_congr ht fun g hg => h g fun hgc => hx (hg.trans (congrArg Entity.group hgc))

theorem listRtEntity_here (head : Bool) (e : Entity n) (s : Rq n) : (s.listRtEntity T head e).rt (s.rtRqOfSe T e) =
    { s.rt (s.rtRqOfSe T e) with
      queue := fun i => if i = s.rtSePrio e then (if head then e :: (s.rt (s.rtRqOfSe T e)).queue i
        else (s.rt (s.rtRqOfSe T e)).queue i ++ [e]) else (s.rt (s.rtRqOfSe T e)).queue i
      bitmap := fun i => if i = s.rtSePrio e then true else (s.rt (s.rtRqOfSe T e)).bitmap i } := if_pos rfl

theorem listRtEntity_elsewhere (hc : c ≠ s.rtRqOfSe T e) : (s.listRtEntity T head e).rt c = s.rt c := if_neg hc

theorem mem_listRtEntity {i : Nat} : x ∈ ((s.listRtEntity T head e).rt c).queue i ↔
    x ∈ (s.rt c).queue i ∨ c = s.rtRqOfSe T e ∧ i = s.rtSePrio e ∧ x = e := by
  by_cases hc : c = s.rtRqOfSe T e
  · subst hc
    rw [listRtEntity_here, mem_listed]
    simp only [true_and]
  · rw [listRtEntity_elsewhere hc]
    simp only [hc, false_and, or_false]

theorem Lists.bit_list (h : s.Lists T) (head : Bool) (e : Entity n) (c i : Nat) :
    ((s.listRtEntity T head e).rt c).bitmap i = true ↔ ((s.listRtEntity T head e).rt c).queue i ≠ [] := by
  by_cases hc : c = s.rtRqOfSe T e
  · subst hc
    by_cases hi : i = s.rtSePrio e
    · refine iff_of_true ?_ (ne_nil_of_mem (mem_listRtEntity.2 (.inr ⟨rfl, hi, rfl⟩)))
      rw [listRtEntity_here]
      exact if_pos hi
    · rw [listRtEntity_here]
      dsimp only
      rw [if_neg hi, if_neg hi]
      exact h.bit _ i
  · rw [listRtEntity_elsewhere hc]
    exact h.bit c i

theorem Lists.list (h : s.Lists T) (hex : s.Present T e) (hkey : s.key e < maxRtPrio) (hprio : s.rtSePrio e = s.key e)
    (hl : s.onList e = false) (hgc : s.onList (.group (s.rtRqOfSe T e)) = false) (head : Bool) :
    (s.listRtEntity T head e).Lists T := by
  have hkeys : ∀ x, x ≠ .group (s.rtRqOfSe T e) → (s.listRtEntity T head e).key x = s.key x := fun x hx =>
    key_of_elsewhere rfl (fun g hg => congrArg RtRq.bitmap (if_neg hg)) hx
  have hlist : ∀ x, (s.listRtEntity T head e).onList x = if x = e then true else s.onList x := fun _ => rfl
  -- an entity that was listed before has the same place
  have hold : ∀ x, s.onList x = true → (s.listRtEntity T head e).key x = s.key x := fun x hx => hkeys x (by
    rintro rfl
    exact Bool.false_ne_true (hgc.symm.trans hx))
  refine ⟨h.bit_list head e, fun c i x => ?_, fun x hx => ?_⟩
  · rw [mem_listRtEntity, h.mem, hlist, hprio]
    by_cases hx : x = e
    · subst hx
      rw [if_pos rfl, hl, hkeys x hex.ne]
      simp only [Bool.false_eq_true, false_and, false_or, and_true, true_and]
      exact and_congr eq_comm eq_comm
    · simp only [hx, and_false, or_false]
      refine and_congr_right fun hxl => ?_
      rw [hold x hxl]
      rfl
  · rw [hlist] at hx
    split at hx
    · next he =>
      subst he
      rw [hkeys x hex.ne]
      exact ⟨hex, hkey⟩
    · rw [hold x hx]
      exact h.there x hx

theorem delistRtEntity_here (e : Entity n) (s : Rq n) : (s.__delistRtEntity T e).rt (s.rtRqOfSe T e) =
    { s.rt (s.rtRqOfSe T e) with
      queue := fun i => ((s.rt (s.rtRqOfSe T e)).queue i).filter (· ≠ e)
      bitmap := fun i => if i = s.rtSePrio e ∧ ((s.rt (s.rtRqOfSe T e)).queue i).filter (· ≠ e) = [] then false
        else (s.rt (s.rtRqOfSe T e)).bitmap i } := if_pos rfl

theorem delistRtEntity_elsewhere (hc : c ≠ s.rtRqOfSe T e) : (s.__delistRtEntity T e).rt c = s.rt c := if_neg hc

theorem Lists.mem_delist (h : s.Lists T) {i : Nat} :
    x ∈ ((s.__delistRtEntity T e).rt c).queue i ↔ x ∈ (s.rt c).queue i ∧ x ≠ e := by
  by_cases hc : c = s.rtRqOfSe T e
  · subst hc
    rw [delistRtEntity_here]
    simp only [mem_filter, decide_eq_true_eq]
  · rw [delistRtEntity_elsewhere hc]
    refine (and_iff_left_of_imp fun hx => ?_).symm
    rintro rfl
    exact hc ((h.mem c i x).1 hx).2.1.symm

/-- The bit that is cleared is that of the list, since the priority of the entity is its place. -/
theorem Lists.bit_delist (h : s.Lists T) (hprio : s.rtSePrio e = s.key e) (c i : Nat) :
    ((s.__delistRtEntity T e).rt c).bitmap i = true ↔ ((s.__delistRtEntity T e).rt c).queue i ≠ [] := by
  by_cases hc : c = s.rtRqOfSe T e
  · subst hc
    rw [delistRtEntity_here, hprio]
    dsimp only
    by_cases hnil : ((s.rt (s.rtRqOfSe T e)).queue i).filter (· ≠ e) = []
    · rw [hnil]
      refine iff_of_false ?_ fun hne => hne rfl
      by_cases hi : i = s.key e
      · rw [if_pos ⟨hi, rfl⟩]
        exact Bool.false_ne_true
      · -- the entity was not on this list
        have hsame : ((s.rt (s.rtRqOfSe T e)).queue i).filter (· ≠ e) = (s.rt (s.rtRqOfSe T e)).queue i := by
          refine filter_eq_self.2 fun x hx => decide_eq_true ?_
          rintro rfl
          exact hi ((h.mem _ i x).1 hx).2.2.symm
        rw [if_neg fun hand => hi hand.1, h.bit, ← hsame, hnil]
        exact fun hne => hne rfl
    · rw [if_neg fun hand => hnil hand.2, h.bit]
      exact iff_of_true (fun hq => hnil (by rw [hq]; rfl)) hnil
  · rw [delistRtEntity_elsewhere hc]
    exact h.bit c i

theorem Lists.delist (h : s.Lists T) (hprio : s.rtSePrio e = s.key e)
    (hgc : s.onList (.group (s.rtRqOfSe T e)) = false) : (s.__delistRtEntity T e).Lists T := by
  have hlist : ∀ x, (s.__delistRtEntity T e).onList x = if x = e then false else s.onList x := fun _ => rfl
  have hkeys : ∀ x, s.onList x = true → (s.__delistRtEntity T e).key x = s.key x := fun x hx =>
    key_of_elsewhere rfl (fun g hg => congrArg RtRq.bitmap (if_neg hg)) (by
      rintro rfl
      exact Bool.false_ne_true (hgc.symm.trans hx))
  refine ⟨h.bit_delist hprio, fun c i x => ?_, fun x hx => ?_⟩
  · rw [h.mem_delist, h.mem, hlist]
    by_cases hx : x = e
    · simp [hx]
    · simp only [hx, ne_eq, not_false_eq_true, and_true]
      refine and_congr_right fun hxl => ?_
      rw [hkeys x hxl]
      rfl
  · rw [hlist] at hx
    split at hx
    · cases hx
    · rw [hkeys x hx]
      exact h.there x hx

/-! ## Entities that stay on their lists -/

theorem still_eq (hm : flags.moveEntity = false) (hb : s.blocked e = false) :
    s.__enqueueRtEntity T flags e = (s.setOnRq e true).incRtTasks T e := by
  rw [enqueue_of_not_blocked hb, hm]
  rfl

section

variable (h : s.Kept T S) (hl : s.onList e = true) (honly : ∀ x, S x → s.rtRqOfSe T x = s.rtRqOfSe T e → x = e)

include h hl honly

/-- With nothing on the runqueue, the entity that is left on its lists is the first there. -/
theorem Kept.firstBit_of_only (hnr : (s.rt (s.rtRqOfSe T e)).counts.rtNrRunning = 0) :
    firstBit (s.rt (s.rtRqOfSe T e)).bitmap = s.key e := by
  refine (firstBit_eq_iff (h.lists.there e hl).2).2 ⟨h.lists.bit_key hl, fun j hj => ?_⟩
  by_contra hbit
  obtain ⟨x, hx⟩ := exists_mem_of_ne_nil _ ((h.lists.bit _ j).1 (by simpa using hbit))
  obtain ⟨hxl, hxc, hxk⟩ := (h.lists.mem _ j x).1 hx
  have hxe : x = e := honly x ((h.off x hxl).resolve_left fun hon => h.tallies.nr_ne_zero.2 ⟨x, hon, hxc⟩ hnr) hxc
  rw [← hxe] at hj
  omega

theorem Kept.first_still :
    (if s.key e < (s.rt (s.rtRqOfSe T e)).highestPrio then s.key e else (s.rt (s.rtRqOfSe T e)).highestPrio) =
      firstBit (s.rt (s.rtRqOfSe T e)).bitmap := by
  have hle := h.lists.firstBit_le_key hl
  have hlt := (h.lists.there e hl).2
  have hhigh := h.highest (s.rtRqOfSe T e)
  rw [HighestOk] at hhigh
  by_cases hnr : (s.rt (s.rtRqOfSe T e)).counts.rtNrRunning = 0
  · rw [if_pos hnr] at hhigh
    rw [hhigh, h.firstBit_of_only hl honly hnr]
    split <;> omega
  · rw [if_neg hnr] at hhigh
    rw [hhigh, if_neg (by omega)]

theorem Kept.enqueue_still (hm : flags.moveEntity = false) (hb : s.blocked e = false) (hoff : s.onRq e = false)
    (hgc : s.onRq (.group (s.rtRqOfSe T e)) = false) : (s.__enqueueRtEntity T flags e).Kept T S := by
  have ht := enqueue_turned (T := T) hb flags
  have hex := (h.lists.there e hl).1
  have htal := ht.tallies h.tallies hex hoff hgc fun _ => h.pos_of_not_blocked hb
  rw [still_eq hm hb] at ht htal ⊢
  refine ⟨h.lists.inc e, htal, h.highest_turned ht ?_, fun x hx => ?_, fun x hx => ?_⟩
  · refine (Relisted.refl s).inc_highest htal ?_
    rw [h.prio_eq_key fun g hg => (h.pos_of_not_blocked hb hg).ne']
    exact h.first_still hl honly
  · rw [ht.onRq] at hx
    split at hx
    · next he => exact he ▸ hl
    · exact h.listed x hx
  · rw [ht.onRq]
    split
    · exact .inl rfl
    · exact h.off x hx

end

theorem Kept.dequeue_still (h : s.Kept T S) (hm : flags.moveEntity = false) (hon : s.onRq e = true) (hS : S e)
    (hgc : s.onRq (.group (s.rtRqOfSe T e)) = false) : (s.__dequeueRtEntity T flags e).Kept T S := by
  have ht := dequeue_turned (T := T) flags e s
  have hex := h.tallies.there e hon
  have hfull : ∀ g, e = .group g → 0 < (s.rt g).counts.rtNrRunning := fun g hg => h.tallies.full g (hg ▸ hon)
  have htal := ht.tallies h.tallies hex hon hgc hfull
  have heq : s.__dequeueRtEntity T flags e = (s.setOnRq e false).decRtTasks T e := by
    rw [__dequeueRtEntity, hm]
    rfl
  rw [heq] at ht htal ⊢
  refine ⟨h.lists.dec e, htal, h.highest_turned ht ?_, fun x hx => ?_, fun x hx => ?_⟩
  · rw [HighestOk, (Relisted.refl (T := T) (e := e) s).dec_rt, if_pos rfl]
    exact decRtPrio_highest fun _ => h.highest_of_on hon
  · rw [ht.onRq] at hx
    split at hx
    · cases hx
    · exact h.listed x hx
  · rw [ht.onRq]
    split
    · next he => exact .inr (he ▸ hS)
    · exact h.off x hx

/-! ## Entities that move -/

theorem firstBit_set {b : Nat → Bool} (hprio : prio < maxRtPrio) (hf : firstBit b < maxRtPrio) :
    firstBit (fun i => if i = prio then true else b i) = if prio < firstBit b then prio else firstBit b := by
  obtain ⟨hbit, hlow⟩ := (firstBit_eq_iff hf).1 rfl
  split
  · next hlt =>
    refine (firstBit_eq_iff hprio).2 ⟨if_pos rfl, fun j hj => ?_⟩
    rw [if_neg (by omega)]
    exact hlow j (by omega)
  · refine (firstBit_eq_iff hf).2 ⟨?_, fun j hj => ?_⟩
    · split
      · rfl
      · exact hbit
    · rw [if_neg (by omega)]
      exact hlow j hj

theorem firstBit_only {b : Nat → Bool} (hprio : prio < maxRtPrio) (hb : ∀ i, b i = false) :
    firstBit (fun i => if i = prio then true else b i) = prio := by
  refine (firstBit_eq_iff hprio).2 ⟨if_pos rfl, fun j hj => ?_⟩
  rw [if_neg (by omega)]
  exact hb j

section

variable (h : s.Kept T fun _ => False)

include h

theorem Kept.clear_of_empty (hnr : (s.rt c).counts.rtNrRunning = 0) (i : Nat) : (s.rt c).bitmap i = false := by
  by_contra hbit
  obtain ⟨x, hx⟩ := exists_mem_of_ne_nil _ ((h.lists.bit _ i).1 (by simpa using hbit))
  obtain ⟨hxl, hxc, -⟩ := (h.lists.mem _ i x).1 hx
  exact h.tallies.nr_ne_zero.2 ⟨x, (h.off x hxl).resolve_right id, hxc⟩ hnr

theorem Kept.first_move (hprio : prio < maxRtPrio) :
    (if prio < (s.rt c).highestPrio then prio else (s.rt c).highestPrio) =
      firstBit fun i => if i = prio then true else (s.rt c).bitmap i := by
  have hhigh := h.highest c
  rw [HighestOk] at hhigh
  by_cases hnr : (s.rt c).counts.rtNrRunning = 0
  · rw [if_pos hnr] at hhigh
    rw [firstBit_only hprio (h.clear_of_empty hnr), hhigh]
    split <;> omega
  · rw [if_neg hnr] at hhigh
    rw [firstBit_set hprio (h.key_lt hnr), hhigh]

theorem Kept.moved (ht : Turned T e on s r)
    (hlist : ∀ x, r.onList x = if x = e then on else s.onList x) (x : Entity n) : r.onList x = r.onRq x := by
  rw [hlist, ht.onRq]
  split
  · rfl
  · cases hl : s.onList x with
    | true => exact ((h.off x hl).resolve_right id).symm
    | false => exact (h.onRq_of_onList hl).symm

theorem Kept.enqueue_move (hm : flags.moveEntity = true) (hb : s.blocked e = false)
    (hex : s.Present T e) (hkey : s.key e < maxRtPrio) (hl : s.onList e = false)
    (hgc : s.onList (.group (s.rtRqOfSe T e)) = false) : (s.__enqueueRtEntity T flags e).Kept T fun _ => False := by
  have ht := enqueue_turned (T := T) hb flags
  have htal := ht.tallies h.tallies hex (h.onRq_of_onList hl) (h.onRq_of_onList hgc) fun _ => h.pos_of_not_blocked hb
  have hprio := h.prio_eq_key fun g hg => (h.pos_of_not_blocked hb hg).ne'
  have hrelist := relisted_of_move (T := T) flags e s
  rw [enqueue_of_not_blocked hb, hm] at ht htal ⊢
  rw [hm] at hrelist
  simp only [if_true] at ht htal hrelist ⊢
  have hsame := h.moved ht fun _ => rfl
  refine ⟨(h.lists.list hex hkey hprio hl hgc flags.head).inc e, htal, h.highest_turned ht ?_,
    fun x hx => (hsame x).trans hx, fun x hx => .inl ((hsame x).symm.trans hx)⟩
  refine hrelist.inc_highest htal ?_
  rw [listRtEntity_here]
  exact h.first_move (hprio ▸ hkey)

end

theorem Lists.firstBit_delist (h : s.Lists T) (hl : s.onList e = true) (hprio : s.rtSePrio e = s.key e)
    (hne : s.key e ≠ firstBit (s.rt (s.rtRqOfSe T e)).bitmap) :
    firstBit (s.rt (s.rtRqOfSe T e)).bitmap = firstBit ((s.__delistRtEntity T e).rt (s.rtRqOfSe T e)).bitmap := by
  have hle := h.firstBit_le_key hl
  have hlt := hle.trans_lt (h.there e hl).2
  obtain ⟨hbit, hlow⟩ := (firstBit_eq_iff hlt).1 rfl
  rw [delistRtEntity_here, hprio]
  dsimp only
  refine ((firstBit_eq_iff hlt).2 ⟨?_, fun j hj => ?_⟩).symm
  · rw [if_neg fun hand => hne hand.1.symm]
    exact hbit
  · rw [if_neg fun hand => by omega]
    exact hlow j hj

theorem Kept.dequeue_move (h : s.Kept T fun _ => False) (hm : flags.moveEntity = true) (hon : s.onRq e = true)
    (hgc : s.onList (.group (s.rtRqOfSe T e)) = false) : (s.__dequeueRtEntity T flags e).Kept T fun _ => False := by
  have ht := dequeue_turned (T := T) flags e s
  have hl := h.listed e hon
  have hfull : ∀ g, e = .group g → 0 < (s.rt g).counts.rtNrRunning := fun g hg => h.tallies.full g (hg ▸ hon)
  have htal := ht.tallies h.tallies (h.tallies.there e hon) hon (h.onRq_of_onList hgc) hfull
  have hprio := h.prio_eq_key fun g hg => (hfull g hg).ne'
  have hrelist := relisted_of_delist (T := T) flags e s
  rw [__dequeueRtEntity, hm] at ht htal ⊢
  rw [hm] at hrelist
  have hsame := h.moved ht fun _ => rfl
  refine ⟨(h.lists.delist hprio hgc).dec e, htal, h.highest_turned ht ?_,
    fun x hx => (hsame x).trans hx, fun x hx => .inl ((hsame x).symm.trans hx)⟩
  rw [HighestOk, hrelist.dec_rt, if_pos rfl]
  refine decRtPrio_highest fun hne => ?_
  rw [hrelist.highest, h.highest_of_on hon, hprio] at hne
  rw [hrelist.highest, h.highest_of_on hon]
  exact h.lists.firstBit_delist hl hprio hne

end Rq

end KernelSched.Rt
