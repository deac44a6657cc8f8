import Mathlib.Algebra.BigOperators.Fin
import KernelSched.Lib.Ledger
import KernelSched.Lib.Run
import KernelSched.Uclamp.Request

/-!
# Utilization clamps of a runqueue

The tasks on a runqueue are counted in buckets by their effective clamps. A bucket keeps the greatest clamp it has seen
since it was empty, and the runqueue the value of its highest bucket with tasks, which is computed anew only when that
bucket runs empty. Without tasks the last upper clamp is kept, under `UCLAMP_FLAG_IDLE`.

Tasks that were enqueued before `sched_uclamp_used` was enabled are not counted: their clamps are not `active`.
`warned` notes whether one of the two warnings of `uclamp_rq_dec_id` was hit.

A clamp is stored with the number of its bucket, and that is the bucket a task is counted in. All is right as long as it
is the bucket of the value (`uclamp_after_run`); an accepted request can be stored with another one
(`slipped_not_right`).
-/

namespace KernelSched.Uclamp

open Run Function Finset

/-! ## Model -/

structure UclampBucket where
  value : Nat
  tasks : Nat

structure UclampRq where
  value : Nat
  bucket : Nat → UclampBucket

/-- The clamps of `struct rq`; `idle` is `UCLAMP_FLAG_IDLE`. -/
structure Rq where
  uclamp : ClampId → UclampRq
  idle : Bool
  warned : Bool

def UclampRq.setBucket (uc : UclampRq) (b : Nat) (bucket : UclampBucket) : UclampRq :=
  { uc with bucket := update uc.bucket b bucket }

/-- The value of the highest of the first `k` buckets that has tasks: the loop of `uclamp_rq_max_value`. -/
def UclampRq.highest (uc : UclampRq) : Nat → Option Nat
  | 0 => none
  | k + 1 => if (uc.bucket k).tasks = 0 then uc.highest k else some (uc.bucket k).value

/-- `uclamp_idle_value`, and whether it sets the flag -/
def uclampIdleValue (clampValue : Nat) : ClampId → Nat × Bool
  | .max => (clampValue, true)
  | .min => (uclampNone .min, false)

/-- `uclamp_rq_max_value`, and whether it sets the flag -/
def uclampRqMaxValue (buckets : Nat) (id : ClampId) (clampValue : Nat) (uc : UclampRq) : Nat × Bool :=
  match uc.highest buckets with
  | some value => (value, false)
  | none => uclampIdleValue clampValue id

/-- For a task with the effective clamp `se` -/
def uclampRqIncId (idle : Bool) (se : UclampSe) (uc : UclampRq) : UclampRq :=
  let bucket := uc.bucket se.bucketId
  let bucket := { bucket with tasks := bucket.tasks + 1 }
  -- `uclamp_idle_reset`
  let value := if idle then se.value else uc.value
  let bucket := if bucket.tasks = 1 ∨ bucket.value < se.value then { bucket with value := se.value } else bucket
  let value := if value < se.value then se.value else value
  { uc with value := value }.setBucket se.bucketId bucket

/-- What `uclamp_rq_dec_id` leaves, whether it sets the flag, and whether it warns. -/
structure Dec where
  uc : UclampRq
  idle : Bool
  warned : Bool

/-- For an active task with the clamp `se` -/
def uclampRqDecId (buckets : Nat) (id : ClampId) (se : UclampSe) (uc : UclampRq) : Dec :=
  let bucket := uc.bucket se.bucketId
  let warned := decide (bucket.tasks = 0)
  let bucket := { bucket with tasks := bucket.tasks - 1 }
  let uc := uc.setBucket se.bucketId bucket
  if bucket.tasks ≠ 0 then ⟨uc, false, warned⟩
  else
    let warned := warned || decide (uc.value < bucket.value)
    if uc.value ≤ bucket.value then
      let (value, idle) := uclampRqMaxValue buckets id se.value uc
      ⟨{ uc with value := value }, idle, warned⟩
    else ⟨uc, false, warned⟩

/-- A task; `uclampEnabled` is that of its class. -/
structure Task where
  queued : Bool
  uclampEnabled : Bool
  uclamp : ClampId → UclampSe

structure State (n : Nat) where
  schedUclampUsed : Bool
  rq : Rq
  task : Fin n → Task

variable {n : Nat}

def State.clamps (s : State n) (id : ClampId) (t : Fin n) : UclampSe := (s.task t).uclamp id

def State.setClamp (s : State n) (t : Fin n) (id : ClampId) (uc : UclampRq) (se : UclampSe) : State n :=
  { s with
    rq := { s.rq with uclamp := update s.rq.uclamp id uc }
    task := update s.task t { s.task t with uclamp := update (s.task t).uclamp id se } }

def State.setFlags (s : State n) (idle warned : Bool) : State n :=
  { s with rq := { s.rq with idle := idle, warned := warned } }

/-- `p->uclamp[clamp_id]` once it is active, from what `uclamp_eff_get` gives: the value and the bucket as they are
stored -/
def effective (eff : UclampSe) : UclampSe := { eff with active := true }

def State.incId (t : Fin n) (eff : UclampSe) (id : ClampId) (s : State n) : State n :=
  s.setClamp t id (uclampRqIncId s.rq.idle (effective eff) (s.rq.uclamp id)) (effective eff)

def State.decId (buckets : Nat) (t : Fin n) (id : ClampId) (s : State n) : State n :=
  let se := s.clamps id t
  if se.active then
    let dec := uclampRqDecId buckets id se (s.rq.uclamp id)
    (s.setClamp t id dec.uc { se with active := false }).setFlags (s.rq.idle || dec.idle) (s.rq.warned || dec.warned)
  else s

def State.clearIdle (s : State n) : State n := s.setFlags false s.rq.warned

/-- With the effective clamps of the task -/
def uclampRqInc (t : Fin n) (eff : ClampId → UclampSe) (s : State n) : State n :=
  if s.schedUclampUsed = false ∨ (s.task t).uclampEnabled = false then s
  else ((s.incId t (eff .min) .min).incId t (eff .max) .max).clearIdle

def uclampRqDec (buckets : Nat) (t : Fin n) (s : State n) : State n :=
  if s.schedUclampUsed = false ∨ (s.task t).uclampEnabled = false then s
  else (s.decId buckets t .min).decId buckets t .max

/-- With the new effective clamp -/
def uclampRqReincId (buckets : Nat) (t : Fin n) (id : ClampId) (eff : UclampSe) (s : State n) : State n :=
  if (s.clamps id t).active then
    let s := (s.decId buckets t id).incId t eff id
    if id = .max ∧ s.rq.idle then s.clearIdle else s
  else s

inductive Op (n : Nat)
  | enable
  | enqueue (t : Fin n) (uclampEnabled : Bool) (eff : ClampId → UclampSe)
  | dequeue (t : Fin n)
  | reinc (t : Fin n) (id : ClampId) (eff : UclampSe)

def State.setQueued (s : State n) (t : Fin n) (queued uclampEnabled : Bool) : State n :=
  { s with task := update s.task t { s.task t with queued := queued, uclampEnabled := uclampEnabled } }

/-- A clamp that can be stored: a value in range, and a bucket that exists -/
def UclampSe.Storable (buckets : Nat) (eff : UclampSe) : Prop := eff.value ≤ schedCapacityScale ∧ eff.bucketId < buckets

instance (buckets : Nat) (eff : UclampSe) : Decidable (eff.Storable buckets) := inferInstanceAs (Decidable (_ ∧ _))

/-- A task is enqueued while it is not queued, and dequeued while it is. -/
def step (buckets : Nat) : Op n → State n → Option (State n)
  | .enable, s => some { s with schedUclampUsed := true }
  | .enqueue t enabled eff, s =>
    if (s.task t).queued = false ∧ (eff .min).Storable buckets ∧ (eff .max).Storable buckets then
      some (uclampRqInc t eff (s.setQueued t true enabled))
    else none
  | .dequeue t, s =>
    if (s.task t).queued then some ((uclampRqDec buckets t s).setQueued t false (s.task t).uclampEnabled) else none
  | .reinc t id eff, s => if eff.Storable buckets then some (uclampRqReincId buckets t id eff s) else none

/-- `init_uclamp_rq`, before `sched_uclamp_used` is enabled, with no task queued. -/
def init (n : Nat) : State n where
  schedUclampUsed := false
  rq := ⟨fun id => ⟨uclampNone id, fun _ => ⟨0, 0⟩⟩, true, false⟩
  task := fun _ => ⟨false, false, fun _ => ⟨0, 0, false, false⟩⟩

/-! ## Clamps of one kind -/

theorem uclampBucketId_mono (buckets : Nat) {v w : Nat} (h : v ≤ w) :
    uclampBucketId buckets v ≤ uclampBucketId buckets w := by
  have := Nat.div_le_div_right (c := uclampBucketDelta buckets) h
  unfold uclampBucketId
  omega

theorem lt_of_uclampBucketId_lt {buckets v w : Nat} (h : uclampBucketId buckets v < uclampBucketId buckets w) :
    v < w := by
  by_contra hle
  exact absurd (uclampBucketId_mono buckets (Nat.le_of_not_lt hle)) (by omega)

theorem uclampBucketId_lt {buckets : Nat} (hb : 0 < buckets) (v : Nat) : uclampBucketId buckets v < buckets := by
  unfold uclampBucketId
  omega

theorem card_filter_update {α : Type} (f : Fin n → α) (t : Fin n) (x : α) (P : α → Prop) [DecidablePred P] :
    (univ.filter fun i => P (update f t x i)).card + (if P (f t) then 1 else 0) =
      (univ.filter fun i => P (f i)).card + if P x then 1 else 0 := by
  rw [card_filter, card_filter]
  exact Ledger.sum_update f (fun a => if P a then 1 else 0) t x

def members (clamps : Fin n → UclampSe) (b : Nat) : Nat :=
  (univ.filter fun t => (clamps t).active = true ∧ (clamps t).bucketId = b).card

/-- The buckets and the value of a runqueue are right for the clamps of its tasks. -/
structure Tracks (buckets : Nat) (clamps : Fin n → UclampSe) (uc : UclampRq) : Prop where
  known : ∀ t, (clamps t).active = true → (clamps t).bucketId = uclampBucketId buckets (clamps t).value
  count : ∀ b, (uc.bucket b).tasks = members clamps b
  bound : ∀ t, (clamps t).active = true → (clamps t).value ≤ (uc.bucket (clamps t).bucketId).value
  own : ∀ b, (uc.bucket b).tasks ≠ 0 → uclampBucketId buckets (uc.bucket b).value = b
  le : ∀ b, (uc.bucket b).tasks ≠ 0 → (uc.bucket b).value ≤ uc.value
  hit : ∀ b, (uc.bucket b).tasks ≠ 0 → ∃ b', (uc.bucket b').tasks ≠ 0 ∧ (uc.bucket b').value = uc.value

def Idle (clamps : Fin n → UclampSe) : Prop := ∀ t, (clamps t).active = false

section

variable {buckets b : Nat} {clamps : Fin n → UclampSe} {uc : UclampRq} {t : Fin n} {se : UclampSe} {id : ClampId}

theorem members_pos (h : (clamps t).active = true) : members clamps (clamps t).bucketId ≠ 0 :=
  card_ne_zero_of_mem (mem_filter.2 ⟨mem_univ t, h, rfl⟩)

theorem exists_of_members (h : members clamps b ≠ 0) : ∃ t, (clamps t).active = true ∧ (clamps t).bucketId = b := by
  obtain ⟨t, ht⟩ := card_ne_zero.1 h
  exact ⟨t, (mem_filter.1 ht).2⟩

theorem members_of_idle (h : Idle clamps) (b : Nat) : members clamps b = 0 := by
  by_contra hne
  obtain ⟨t, ht, -⟩ := exists_of_members hne
  exact absurd (h t) (by simp [ht])

theorem members_add (ht : (clamps t).active = false) (hse : se.active = true) (b : Nat) :
    members (update clamps t se) b = members clamps b + if se.bucketId = b then 1 else 0 := by
  have h := card_filter_update clamps t se fun se => se.active = true ∧ se.bucketId = b
  simpa [members, ht, hse] using h

theorem members_remove (ht : (clamps t).active = true) (hse : se.active = false) (b : Nat) :
    members (update clamps t se) b + (if (clamps t).bucketId = b then 1 else 0) = members clamps b := by
  have h := card_filter_update clamps t se fun se => se.active = true ∧ se.bucketId = b
  simpa [members, ht, hse] using h

theorem Tracks.lt (h : Tracks buckets clamps uc) (hb : 0 < buckets) (hne : (uc.bucket b).tasks ≠ 0) : b < buckets := by
  rw [← h.own b hne]
  exact uclampBucketId_lt hb _

theorem Tracks.idle_of_empty (h : Tracks buckets clamps uc) (hnone : ∀ b, (uc.bucket b).tasks = 0) : Idle clamps := by
  intro t
  by_contra ht
  exact members_pos (by simpa using ht) ((h.count _).symm.trans (hnone _))

/-! ### A clamp is added -/

variable {idle : Bool}

theorem inc_tasks (idle : Bool) (se : UclampSe) (uc : UclampRq) (b : Nat) :
    ((uclampRqIncId idle se uc).bucket b).tasks = (uc.bucket b).tasks + if se.bucketId = b then 1 else 0 := by
  by_cases hb : se.bucketId = b
  · subst hb
    simp only [uclampRqIncId, UclampRq.setBucket, update_self]
    split <;> simp
  · simp [uclampRqIncId, UclampRq.setBucket, update_of_ne (Ne.symm hb), hb]

theorem inc_bucket_of_ne (idle : Bool) (se : UclampSe) (uc : UclampRq) (hb : b ≠ se.bucketId) :
    (uclampRqIncId idle se uc).bucket b = uc.bucket b := by
  simp [uclampRqIncId, UclampRq.setBucket, update_of_ne hb]

theorem inc_bucket_value (idle : Bool) (se : UclampSe) (uc : UclampRq) :
    ((uclampRqIncId idle se uc).bucket se.bucketId).value =
      if (uc.bucket se.bucketId).tasks = 0 then se.value else max (uc.bucket se.bucketId).value se.value := by
  simp only [uclampRqIncId, UclampRq.setBucket, update_self]
  split <;> split <;> simp_all
  all_goals omega

theorem inc_value (idle : Bool) (se : UclampSe) (uc : UclampRq) :
    (uclampRqIncId idle se uc).value = if idle then se.value else max uc.value se.value := by
  cases idle with
  | true => simp [uclampRqIncId, UclampRq.setBucket]
  | false =>
    simp only [uclampRqIncId, UclampRq.setBucket, Bool.false_eq_true, if_false]
    split <;> omega

section

variable (h : Tracks buckets clamps uc)

include h

theorem Tracks.tasks_pos (ht : (clamps t).active = true) : (uc.bucket (clamps t).bucketId).tasks ≠ 0 := by
  rw [h.count]
  exact members_pos ht

theorem Tracks.inc_value_of_busy (hidle : idle = true → Idle clamps)
    (hb : (uc.bucket b).tasks ≠ 0) : (uclampRqIncId idle se uc).value = max uc.value se.value := by
  rw [inc_value, if_neg]
  intro hi
  rw [h.count, members_of_idle (hidle hi)] at hb
  exact hb rfl

theorem Tracks.inc_bound {u : Fin n} (hu : (update clamps t se u).active = true) : (update clamps t se u).value ≤
      ((uclampRqIncId idle se uc).bucket (update clamps t se u).bucketId).value := by
  by_cases hut : u = t
  · rw [hut, update_self, inc_bucket_value]
    split
    · exact le_refl _
    · exact le_max_right _ _
  · rw [update_of_ne hut] at hu ⊢
    have hle := h.bound u hu
    have hpos := h.tasks_pos hu
    by_cases hub : (clamps u).bucketId = se.bucketId
    · rw [hub] at hle hpos ⊢
      rw [inc_bucket_value, if_neg hpos]
      exact hle.trans (le_max_left _ _)
    · rw [inc_bucket_of_ne idle se uc hub]
      exact hle

theorem Tracks.inc_own (hknown : se.bucketId = uclampBucketId buckets se.value)
    (hb : ((uclampRqIncId idle se uc).bucket b).tasks ≠ 0) :
    uclampBucketId buckets ((uclampRqIncId idle se uc).bucket b).value = b := by
  by_cases hbs : b = se.bucketId
  · rw [hbs, inc_bucket_value]
    split
    · exact hknown.symm
    · next hpos =>
      rcases le_total (uc.bucket se.bucketId).value se.value with hle | hle
      · rw [max_eq_right hle]
        exact hknown.symm
      · rw [max_eq_left hle]
        exact h.own _ hpos
  · rw [inc_bucket_of_ne idle se uc hbs] at hb ⊢
    exact h.own b hb

theorem Tracks.inc_le (hidle : idle = true → Idle clamps) (hb : ((uclampRqIncId idle se uc).bucket b).tasks ≠ 0) :
    ((uclampRqIncId idle se uc).bucket b).value ≤ (uclampRqIncId idle se uc).value := by
  by_cases hbs : b = se.bucketId
  · rw [hbs, inc_bucket_value]
    split
    · rw [inc_value]
      split
      · exact le_refl _
      · exact le_max_right _ _
    · next hpos =>
      have hle := h.le _ hpos
      rw [h.inc_value_of_busy hidle hpos]
      omega
  · rw [inc_bucket_of_ne idle se uc hbs] at hb ⊢
    rw [h.inc_value_of_busy hidle hb]
    exact (h.le b hb).trans (le_max_left _ _)

/-- The value is that of the new clamp's bucket, or that of the bucket it was before. -/
theorem Tracks.inc_hit (hidle : idle = true → Idle clamps)
    (hempty : Idle clamps → idle = true ∨ uc.value = 0) : ∃ b, ((uclampRqIncId idle se uc).bucket b).tasks ≠ 0 ∧
      ((uclampRqIncId idle se uc).bucket b).value = (uclampRqIncId idle se uc).value := by
  have htasks := inc_tasks idle se uc
  by_cases hnone : ∀ b, (uc.bucket b).tasks = 0
  · refine ⟨se.bucketId, by rw [htasks]; simp, ?_⟩
    rw [inc_bucket_value, if_pos (hnone _), inc_value]
    split
    · rfl
    · next hi =>
      have hzero := (hempty (h.idle_of_empty hnone)).resolve_left hi
      rw [hzero, Nat.zero_max]
  · obtain ⟨b, hb⟩ := not_forall.1 hnone
    obtain ⟨b', hb', heq⟩ := h.hit b hb
    rw [h.inc_value_of_busy hidle hb]
    by_cases hbs : b' = se.bucketId
    · refine ⟨se.bucketId, by rw [htasks]; simp, ?_⟩
      rw [inc_bucket_value, if_neg (hbs ▸ hb'), ← hbs, heq]
    · rcases le_total se.value uc.value with hle | hle
      · refine ⟨b', by rw [htasks]; omega, ?_⟩
        rw [inc_bucket_of_ne idle se uc hbs, heq, max_eq_left hle]
      · refine ⟨se.bucketId, by rw [htasks]; simp, ?_⟩
        rw [inc_bucket_value, max_eq_right hle]
        split
        · rfl
        · next hpos => exact max_eq_right ((h.le _ hpos).trans hle)

/-- `uclamp_rq_inc_id` counts a clamp that was not active. If the flag is set, no other is; if no other is, the flag is
set or the value is the least. -/
theorem Tracks.inc (ht : (clamps t).active = false) (hse : se.active = true)
    (hknown : se.bucketId = uclampBucketId buckets se.value) (hidle : idle = true → Idle clamps)
    (hempty : Idle clamps → idle = true ∨ uc.value = 0) :
    Tracks buckets (update clamps t se) (uclampRqIncId idle se uc) where
  known u hu := by
    by_cases hut : u = t
    · rw [hut, update_self]
      exact hknown
    · rw [update_of_ne hut] at hu ⊢
      exact h.known u hu
  count b := by rw [inc_tasks, members_add ht hse, h.count]
  bound _ hu := h.inc_bound hu
  own _ hb := h.inc_own hknown hb
  le _ hb := h.inc_le hidle hb
  hit _ _ := h.inc_hit hidle hempty

end

/-! ### A clamp is removed -/

theorem highest_spec (uc : UclampRq) (k : Nat) : (uc.highest k = none ∧ ∀ b, b < k → (uc.bucket b).tasks = 0) ∨
      ∃ b, uc.highest k = some (uc.bucket b).value ∧ (uc.bucket b).tasks ≠ 0 ∧
        ∀ b', b < b' → b' < k → (uc.bucket b').tasks = 0 := by
  induction k with
  | zero => exact .inl ⟨rfl, nofun⟩
  | succ k ih =>
    unfold UclampRq.highest
    split
    · next hk =>
      -- an empty bucket is passed
      have hpass : ∀ b, b < k + 1 → (b < k → (uc.bucket b).tasks = 0) → (uc.bucket b).tasks = 0 := by
        intro b hb hlt
        rcases Nat.lt_succ_iff_lt_or_eq.1 hb with hb | rfl
        · exact hlt hb
        · exact hk
      rcases ih with ⟨hnone, hall⟩ | ⟨b, hsome, hpos, hall⟩
      · exact .inl ⟨hnone, fun b hb => hpass b hb (hall b)⟩
      · exact .inr ⟨b, hsome, hpos, fun b' hlt hb' => hpass b' hb' (hall b' hlt)⟩
    · next hk => exact .inr ⟨k, rfl, hk, fun b' hlt hb' => by omega⟩

def without (se : UclampSe) (uc : UclampRq) : UclampRq :=
  uc.setBucket se.bucketId { uc.bucket se.bucketId with tasks := (uc.bucket se.bucketId).tasks - 1 }

theorem dec_cases (buckets : Nat) (id : ClampId) (hpos : (uc.bucket se.bucketId).tasks ≠ 0)
    (hle : (uc.bucket se.bucketId).value ≤ uc.value) : (uclampRqDecId buckets id se uc = ⟨without se uc, false, false⟩ ∧
      ((uc.bucket se.bucketId).tasks ≠ 1 ∨ (uc.bucket se.bucketId).value ≠ uc.value)) ∨
    (uclampRqDecId buckets id se uc = ⟨{ without se uc with value :=
    (uclampRqMaxValue buckets id se.value (without se uc)).1 },
        (uclampRqMaxValue buckets id se.value (without se uc)).2, false⟩ ∧
      (uc.bucket se.bucketId).tasks = 1 ∧ (uc.bucket se.bucketId).value = uc.value) := by
  unfold uclampRqDecId
  dsimp only
  split
  · refine .inl ⟨?_, .inl (by omega)⟩
    simp [hpos, without]
  · split
    · next hge =>
      have hge : uc.value ≤ (uc.bucket se.bucketId).value := hge
      refine .inr ⟨?_, by omega, by omega⟩
      simp [hpos, without, UclampRq.setBucket, not_lt.2 hle]
    · next hlt =>
      have hlt : ¬ uc.value ≤ (uc.bucket se.bucketId).value := hlt
      refine .inl ⟨?_, .inr (by omega)⟩
      simp [hpos, without, UclampRq.setBucket, not_lt.2 hle]

theorem without_tasks (se : UclampSe) (uc : UclampRq) (b : Nat) :
    ((without se uc).bucket b).tasks = (uc.bucket b).tasks - if se.bucketId = b then 1 else 0 := by
  by_cases hb : se.bucketId = b
  · subst hb
    simp [without, UclampRq.setBucket]
  · simp [without, UclampRq.setBucket, update_of_ne (Ne.symm hb), hb]

theorem without_value (se : UclampSe) (uc : UclampRq) (b : Nat) : ((without se uc).bucket b).value =
    (uc.bucket b).value := by
  by_cases hb : b = se.bucketId
  · subst hb
    simp [without, UclampRq.setBucket]
  · simp [without, UclampRq.setBucket, update_of_ne hb]

/-- The buckets are right after a clamp was removed, whatever the value of the runqueue is. -/
theorem Tracks.remove (h : Tracks buckets clamps uc) (ht : (clamps t).active = true) (hse : se.active = false) {v : Nat}
    (hle : ∀ b, ((without (clamps t) uc).bucket b).tasks ≠ 0 → (uc.bucket b).value ≤ v)
    (hhit : ∀ b, ((without (clamps t) uc).bucket b).tasks ≠ 0 →
      ∃ b', ((without (clamps t) uc).bucket b').tasks ≠ 0 ∧ (uc.bucket b').value = v) :
    Tracks buckets (update clamps t se) { without (clamps t) uc with value := v } := by
  have hactive : ∀ u, (update clamps t se u).active = true →
      update clamps t se u = clamps u ∧ (clamps u).active = true := by
    intro u hu
    by_cases hut : u = t
    · rw [hut, update_self, hse] at hu
      cases hu
    · rw [update_of_ne hut] at hu ⊢
      exact ⟨rfl, hu⟩
  refine ⟨fun u hu => ?_, fun b => ?_, fun u hu => ?_, fun b hb => ?_, fun b hb => ?_, fun b hb => ?_⟩
  · obtain ⟨heq, hu⟩ := hactive u hu
    rw [heq]
    exact h.known u hu
  · have hremove := members_remove ht hse b
    show ((without (clamps t) uc).bucket b).tasks = _
    rw [without_tasks, h.count]
    omega
  · obtain ⟨heq, hu⟩ := hactive u hu
    rw [heq]
    show _ ≤ ((without (clamps t) uc).bucket _).value
    rw [without_value]
    exact h.bound u hu
  · show uclampBucketId buckets ((without (clamps t) uc).bucket b).value = b
    rw [without_value]
    refine h.own b fun hzero => hb ?_
    show ((without (clamps t) uc).bucket b).tasks = 0
    rw [without_tasks, hzero, Nat.zero_sub]
  · show ((without (clamps t) uc).bucket b).value ≤ v
    rw [without_value]
    exact hle b hb
  · obtain ⟨b', hb', heq⟩ := hhit b hb
    exact ⟨b', hb', (without_value _ _ _).trans heq⟩

/-- What `uclamp_rq_dec_id` does to the clamps of one kind. -/
structure Removed (buckets : Nat) (id : ClampId) (clamps : Fin n → UclampSe) (dec : Dec) : Prop where
  tracks : Tracks buckets clamps dec.uc
  quiet : dec.warned = false
  idle : dec.idle = true ↔ id = .max ∧ Idle clamps
  least : id = .min → Idle clamps → dec.uc.value = 0

theorem Tracks.busy (h : Tracks buckets clamps uc) (hne : (uc.bucket b).tasks ≠ 0) : ¬ Idle clamps := fun hi =>
  hne ((h.count b).trans (members_of_idle hi b))

theorem Tracks.removed (h : Tracks buckets clamps uc) (hne : (uc.bucket b).tasks ≠ 0) :
    Removed buckets id clamps ⟨uc, false, false⟩ :=
  ⟨h, rfl, by simp [h.busy hne], fun _ hi => absurd hi (h.busy hne)⟩

theorem Tracks.removed_last (h : Tracks buckets clamps { uc with value := (uclampIdleValue v id).1 })
    (hnone : ∀ b, (uc.bucket b).tasks = 0) :
    Removed buckets id clamps ⟨{ uc with value := (uclampIdleValue v id).1 }, (uclampIdleValue v id).2, false⟩ := by
  have hi := h.idle_of_empty hnone
  refine ⟨h, rfl, ?_, ?_⟩
  · cases id <;> simp [uclampIdleValue, hi]
  · rintro rfl -
    rfl

theorem Tracks.dec (h : Tracks buckets clamps uc) (hb : 0 < buckets) (ht : (clamps t).active = true)
    (hse : se.active = false) : Removed buckets id (update clamps t se) (uclampRqDecId buckets id (clamps t) uc) := by
  have hpos := h.tasks_pos ht
  have htasks := without_tasks (clamps t) uc
  have hstill : ∀ b, ((without (clamps t) uc).bucket b).tasks ≠ 0 → (uc.bucket b).tasks ≠ 0 := by
    intro b hne
    rw [htasks] at hne
    omega
  rcases dec_cases buckets id hpos (h.le _ hpos) with ⟨heq, hwhy⟩ | ⟨heq, -⟩
  · -- the value stays: the bucket with that value still has tasks
    obtain ⟨b', hb', hval⟩ := h.hit _ hpos
    have hne : ((without (clamps t) uc).bucket b').tasks ≠ 0 := by
      rw [htasks]
      split
      · next heq' =>
        rw [heq'] at hwhy
        rcases hwhy with hwhy | hwhy
        · omega
        · exact absurd hval hwhy
      · exact hb'
    rw [heq]
    exact (h.remove ht hse (fun b hne => h.le b (hstill b hne)) fun _ _ => ⟨b', hne, hval⟩).removed hne
  · rw [heq]
    rcases highest_spec (without (clamps t) uc) buckets with ⟨hnone, hall⟩ | ⟨b, hsome, hne, hall⟩
    · have hzero : ∀ b, ((without (clamps t) uc).bucket b).tasks = 0 := by
        intro b
        by_contra hne
        exact hne (hall b (h.lt hb (hstill b hne)))
      have hmax : uclampRqMaxValue buckets id (clamps t).value (without (clamps t) uc) =
          uclampIdleValue (clamps t).value id := by rw [uclampRqMaxValue, hnone]
      rw [hmax]
      exact (h.remove ht hse (fun b hne => absurd (hzero b) hne) fun b hne => absurd (hzero b) hne).removed_last hzero
    · have hmax : uclampRqMaxValue buckets id (clamps t).value (without (clamps t) uc) =
          ((uc.bucket b).value, false) := by rw [uclampRqMaxValue, hsome, without_value]
      have htracks : Tracks buckets (update clamps t se)
          { without (clamps t) uc with value := (uc.bucket b).value } := by
        refine h.remove ht hse (fun b' hne' => ?_) fun _ _ => ⟨b, hne, rfl⟩
        -- no higher bucket has tasks, and lower ones have lower values
        rcases Nat.lt_trichotomy b' b with hlt | rfl | hlt
        · rw [← h.own b (hstill b hne), ← h.own b' (hstill b' hne')] at hlt
          exact (lt_of_uclampBucketId_lt hlt).le
        · exact le_refl _
        · exact absurd (hall b' hlt (h.lt hb (hstill b' hne'))) hne'
      rw [hmax]
      exact htracks.removed hne

end

/-! ## The runqueue -/

section

variable {buckets : Nat} {s : State n} {t : Fin n} {id : ClampId} {uc : UclampRq} {se : UclampSe} {s' : State n}
  {eff : UclampSe}

/-- The bucket of a stored clamp is that of its value. -/
def UclampSe.Matched (buckets : Nat) (eff : UclampSe) : Prop := eff.bucketId = uclampBucketId buckets eff.value

instance (buckets : Nat) (eff : UclampSe) : Decidable (eff.Matched buckets) := inferInstanceAs (Decidable (_ = _))

/-- One kind of clamp of a task is set, and with it only the buckets and the value of that kind, and the flags. -/
structure Sets (t : Fin n) (id : ClampId) (se : UclampSe) (s s' : State n) : Prop where
  clamps : s'.clamps id = update (s.clamps id) t se
  other : ∀ i, i ≠ id → s'.clamps i = s.clamps i ∧ s'.rq.uclamp i = s.rq.uclamp i
  task : ∀ u, (s'.task u).queued = (s.task u).queued ∧ (s'.task u).uclampEnabled = (s.task u).uclampEnabled
  used : s'.schedUclampUsed = s.schedUclampUsed

theorem setClamp_sets (uc : UclampRq) (idle warned : Bool) : Sets t id se s
    ((s.setClamp t id uc se).setFlags idle warned) := by
  refine ⟨funext fun u => ?_, fun i hi => ⟨funext fun u => ?_, update_of_ne hi ..⟩, fun u => ?_, rfl⟩
  all_goals
    by_cases hu : u = t
    · subst hu
      simp [State.clamps, State.setClamp, State.setFlags, *]
    · simp [State.clamps, State.setClamp, State.setFlags, update_of_ne hu]

theorem Sets.trans {se' : UclampSe} {s'' : State n} (h : Sets t id se s s') (h' : Sets t id se' s' s'') :
    Sets t id se' s s'' where
  clamps := by rw [h'.clamps, h.clamps, update_idem]
  other i hi := ⟨(h'.other i hi).1.trans (h.other i hi).1, (h'.other i hi).2.trans (h.other i hi).2⟩
  task u := ⟨(h'.task u).1.trans (h.task u).1, (h'.task u).2.trans (h.task u).2⟩
  used := h'.used.trans h.used

theorem Sets.tracks (h : Sets t id se s s') {i : ClampId} (hi : i ≠ id)
    (htracks : Tracks buckets (s.clamps i) (s.rq.uclamp i)) : Tracks buckets (s'.clamps i) (s'.rq.uclamp i) := by
  rw [(h.other i hi).1, (h.other i hi).2]
  exact htracks

structure Inv (buckets : Nat) (s : State n) : Prop where
  tracks : ∀ id, Tracks buckets (s.clamps id) (s.rq.uclamp id)
  both : ∀ t, (s.clamps .min t).active = (s.clamps .max t).active
  idle : s.rq.idle = true ↔ Idle (s.clamps .max)
  quiet : s.rq.warned = false
  counted : ∀ t, (s.clamps .max t).active = true →
    (s.task t).queued = true ∧ s.schedUclampUsed = true ∧ (s.task t).uclampEnabled = true

theorem Inv.idle_both (h : Inv buckets s) (id : ClampId) : s.rq.idle = true ↔ Idle (s.clamps id) := by
  cases id with
  | min =>
    rw [h.idle]
    exact forall_congr' fun t => by rw [h.both]
  | max => exact h.idle

theorem Inv.not_idle (h : Inv buckets s) (ht : (s.clamps id t).active = true) : s.rq.idle = false := by
  by_contra hi
  have := (h.idle_both id).1 (by simpa using hi) t
  rw [ht] at this
  cases this

theorem incId_sets (eff : UclampSe) : Sets t id (effective eff) s (s.incId t eff id) :=
  setClamp_sets _ s.rq.idle s.rq.warned

/-- One kind of clamp of a task that is not active is counted. -/
theorem incId_tracks (h : Tracks buckets (s.clamps id) (s.rq.uclamp id)) (hmatched : eff.Matched buckets)
    (ht : (s.clamps id t).active = false) (hidle : s.rq.idle = true → Idle (s.clamps id))
    (hempty : Idle (s.clamps id) → s.rq.idle = true ∨ (s.rq.uclamp id).value = 0) :
    Tracks buckets ((s.incId t eff id).clamps id) ((s.incId t eff id).rq.uclamp id) := by
  have huc : (s.incId t eff id).rq.uclamp id = uclampRqIncId s.rq.idle (effective eff) (s.rq.uclamp id) := update_self ..
  rw [(incId_sets eff).clamps, huc]
  exact h.inc ht rfl hmatched hidle hempty

/-- One kind of clamp of an active task is removed. -/
structure Drops (buckets : Nat) (t : Fin n) (id : ClampId) (s s' : State n) : Prop where
  sets : ∃ se : UclampSe, se.active = false ∧ Sets t id se s s'
  tracks : Tracks buckets (s'.clamps id) (s'.rq.uclamp id)
  idle : s'.rq.idle = true ↔ s.rq.idle = true ∨ id = .max ∧ Idle (s'.clamps id)
  quiet : s'.rq.warned = s.rq.warned
  least : id = .min → Idle (s'.clamps id) → (s'.rq.uclamp id).value = 0

theorem Removed.drops {dec : Dec} (h : Removed buckets id (update (s.clamps id) t se) dec) (hse : se.active = false) :
    Drops buckets t id s
      ((s.setClamp t id dec.uc se).setFlags (s.rq.idle || dec.idle) (s.rq.warned || dec.warned)) := by
  have huc : ∀ idle warned, ((s.setClamp t id dec.uc se).setFlags idle warned).rq.uclamp id = dec.uc :=
    fun _ _ => update_self ..
  refine ⟨⟨se, hse, setClamp_sets ..⟩, ?_, ?_, ?_, ?_⟩
  · rw [(setClamp_sets ..).clamps, huc]
    exact h.tracks
  · rw [(setClamp_sets ..).clamps, ← h.idle]
    exact Bool.or_eq_true_iff
  · show (s.rq.warned || dec.warned) = s.rq.warned
    rw [h.quiet, Bool.or_false]
  · rw [(setClamp_sets ..).clamps, huc]
    exact h.least

theorem decId_drops (h : Tracks buckets (s.clamps id) (s.rq.uclamp id)) (hb : 0 < buckets)
    (ht : (s.clamps id t).active = true) : Drops buckets t id s (s.decId buckets t id) := by
  rw [State.decId, if_pos ht]
  exact (h.dec hb ht rfl).drops rfl

theorem Inv.congr_flags (h : Inv buckets s) (hclamps : s'.clamps = s.clamps) (hrq : s'.rq = s.rq)
    (hcounted : ∀ t, (s.clamps .max t).active = true →
      (s'.task t).queued = true ∧ s'.schedUclampUsed = true ∧ (s'.task t).uclampEnabled = true) : Inv buckets s' := by
  refine ⟨?_, ?_, ?_, ?_, ?_⟩
  · rw [hclamps, hrq]
    exact h.tracks
  · rw [hclamps]
    exact h.both
  · rw [hclamps, hrq]
    exact h.idle
  · rw [hrq]
    exact h.quiet
  · rw [hclamps]
    exact hcounted

@[simp] theorem setQueued_clamps (queued enabled : Bool) : (s.setQueued t queued enabled).clamps = s.clamps := by
  funext i u
  by_cases hu : u = t
  · subst hu
    simp [State.clamps, State.setQueued]
  · simp [State.clamps, State.setQueued, update_of_ne hu]

/-- Both kinds of clamps of one task are set, active or not. -/
theorem Inv.of_changed (active : Bool) (h : Inv buckets s)
    (htracks : ∀ id, Tracks buckets (s'.clamps id) (s'.rq.uclamp id))
    (hclamps : ∀ id, ∃ se : UclampSe, se.active = active ∧ s'.clamps id = update (s.clamps id) t se)
    (hidle : s'.rq.idle = true ↔ Idle (s'.clamps .max)) (hquiet : s'.rq.warned = false)
    (htask : ∀ u, (s'.task u).queued = (s.task u).queued ∧ (s'.task u).uclampEnabled = (s.task u).uclampEnabled)
    (hused : s'.schedUclampUsed = s.schedUclampUsed)
    (hcounted : active = true → (s.task t).queued = true ∧ s.schedUclampUsed = true ∧ (s.task t).uclampEnabled = true) :
    Inv buckets s' := by
  obtain ⟨semin, hamin, hmin⟩ := hclamps .min
  obtain ⟨semax, hamax, hmax⟩ := hclamps .max
  refine ⟨htracks, fun u => ?_, hidle, hquiet, fun u hu => ?_⟩
  · rw [hmin, hmax]
    by_cases hut : u = t
    · rw [hut, update_self, update_self, hamin, hamax]
    · rw [update_of_ne hut, update_of_ne hut]
      exact h.both u
  · rw [(htask u).1, (htask u).2, hused]
    rw [hmax] at hu
    by_cases hut : u = t
    · rw [hut, update_self, hamax] at hu
      rw [hut]
      exact hcounted hu
    · rw [update_of_ne hut] at hu
      exact h.counted u hu

theorem not_idle_update {clamps : Fin n → UclampSe} (hse : se.active = true) : ¬ Idle (update clamps t se) := by
  intro hi
  have := hi t
  rw [update_self, hse] at this
  cases this

section

variable (h : Inv buckets s)

include h

theorem Inv.inc {eff : ClampId → UclampSe} (hmatched : ∀ id, (eff id).Matched buckets)
    (ht : (s.clamps .max t).active = false) (hqueued : (s.task t).queued = true) :
    Inv buckets (uclampRqInc t eff s) := by
  unfold uclampRqInc
  split
  · exact h
  · next hon =>
    have hcounted : s.schedUclampUsed = true ∧ (s.task t).uclampEnabled = true := by simpa [not_or] using hon
    have hsets₁ : Sets t .min _ s (s.incId t (eff .min) .min) := incId_sets (eff .min)
    have hidle₁ : (s.incId t (eff .min) .min).rq.idle = s.rq.idle := rfl
    have hquiet₁ : (s.incId t (eff .min) .min).rq.warned = s.rq.warned := rfl
    have hmin := incId_tracks (h.tracks .min) (hmatched .min) ((h.both t).trans ht) (h.idle_both .min).1 fun hi =>
      .inl ((h.idle_both .min).2 hi)
    generalize s.incId t (eff .min) .min = s₁ at hsets₁ hidle₁ hquiet₁ hmin ⊢
    have hother := (hsets₁.other .max (by decide)).1
    have hsets₂ : Sets t .max _ s₁ (s₁.incId t (eff .max) .max) := incId_sets (eff .max)
    have hquiet₂ : (s₁.incId t (eff .max) .max).rq.warned = s₁.rq.warned := rfl
    have hmax := incId_tracks (hsets₁.tracks (by decide) (h.tracks .max)) (hmatched .max) (by rw [hother]; exact ht)
      (by rw [hother, hidle₁]; exact h.idle.1) (by rw [hother, hidle₁]; exact fun hi => .inl (h.idle.2 hi))
    generalize s₁.incId t (eff .max) .max = s₂ at hsets₂ hquiet₂ hmax ⊢
    have hclamps : s₂.clamps .max = update (s.clamps .max) t (effective (eff .max)) := by
      rw [hsets₂.clamps, hother]
    refine h.of_changed true (fun id => ?_) (fun id => ⟨effective (eff id), rfl, ?_⟩) ?_
      ((hquiet₂.trans hquiet₁).trans h.quiet)
      (fun u => ⟨((hsets₂.task u).1).trans (hsets₁.task u).1, ((hsets₂.task u).2).trans (hsets₁.task u).2⟩)
      (hsets₂.used.trans hsets₁.used) fun _ => ⟨hqueued, hcounted⟩
    · cases id with
      | min => exact hsets₂.tracks (by decide) hmin
      | max => exact hmax
    · cases id with
      | min => exact (hsets₂.other .min (by decide)).1.trans hsets₁.clamps
      | max => exact hclamps
    · have hbusy : ¬ Idle (s₂.clamps .max) := by
        rw [hclamps]
        exact not_idle_update rfl
      exact ⟨nofun, fun hi => absurd hi hbusy⟩

theorem Inv.dec_active (hb : 0 < buckets) (ht : (s.clamps .max t).active = true) :
    Inv buckets (uclampRqDec buckets t s) ∧ ((uclampRqDec buckets t s).clamps .max t).active = false := by
  have hon : ¬ (s.schedUclampUsed = false ∨ (s.task t).uclampEnabled = false) := by
    simp [(h.counted t ht).2.1, (h.counted t ht).2.2]
  rw [uclampRqDec, if_neg hon]
  have hdrop₁ := decId_drops (h.tracks .min) hb ((h.both t).trans ht)
  generalize s.decId buckets t .min = s₁ at hdrop₁ ⊢
  obtain ⟨se₁, hse₁, hsets₁⟩ := hdrop₁.sets
  have hother := (hsets₁.other .max (by decide)).1
  have hdrop₂ := decId_drops (hsets₁.tracks (by decide) (h.tracks .max)) hb (by rw [hother]; exact ht)
  generalize s₁.decId buckets t .max = s₂ at hdrop₂ ⊢
  obtain ⟨se₂, hse₂, hsets₂⟩ := hdrop₂.sets
  have hclamps : s₂.clamps .max = update (s.clamps .max) t se₂ := by rw [hsets₂.clamps, hother]
  refine ⟨h.of_changed (t := t) false (fun id => ?_) (fun id => ?_) ?_ ?_
      (fun u => ⟨((hsets₂.task u).1).trans (hsets₁.task u).1, ((hsets₂.task u).2).trans (hsets₁.task u).2⟩)
      (hsets₂.used.trans hsets₁.used) fun hfalse => absurd hfalse Bool.false_ne_true, ?_⟩
  · cases id with
    | min => exact hsets₂.tracks (by decide) hdrop₁.tracks
    | max => exact hdrop₂.tracks
  · cases id with
    | min => exact ⟨se₁, hse₁, (hsets₂.other .min (by decide)).1.trans hsets₁.clamps⟩
    | max => exact ⟨se₂, hse₂, hclamps⟩
  · rw [hdrop₂.idle, hdrop₁.idle]
    simp [h.not_idle ht]
  · rw [hdrop₂.quiet, hdrop₁.quiet]
    exact h.quiet
  · rw [hclamps, update_self]
    exact hse₂

/-- A task leaves. If it was enqueued before clamps were used, nothing happens. -/
theorem Inv.dec (hb : 0 < buckets) :
    Inv buckets (uclampRqDec buckets t s) ∧ ((uclampRqDec buckets t s).clamps .max t).active = false := by
  cases ht : (s.clamps .max t).active with
  | true => exact h.dec_active hb ht
  | false =>
    have hsame : uclampRqDec buckets t s = s := by
      have hmin : s.decId buckets t .min = s := by simp [State.decId, h.both, ht]
      have hmax : s.decId buckets t .max = s := by simp [State.decId, ht]
      rw [uclampRqDec, hmin, hmax, ite_self]
    rw [hsame]
    exact ⟨h, ht⟩

theorem Inv.active (ht : (s.clamps id t).active = true) (i : ClampId) : (s.clamps i t).active = true := by
  cases id <;> cases i <;> first | exact ht | exact (h.both t).symm.trans ht | exact (h.both t).trans ht

/-- One kind of clamp of an active task is set anew. The queue is not idle then. -/
theorem Inv.of_set (ht : (s.clamps id t).active = true) (hse : se.active = true)
    (hsets : Sets t id se s s') (htracks : Tracks buckets (s'.clamps id) (s'.rq.uclamp id))
    (hquiet : s'.rq.warned = s.rq.warned) : Inv buckets (s'.setFlags false s'.rq.warned) := by
  have hactive := h.active ht
  refine h.of_changed true (fun i => ?_) (fun i => ?_) ⟨nofun, fun hi => ?_⟩ (hquiet.trans h.quiet) hsets.task hsets.used
    fun _ => h.counted t (hactive .max)
  · by_cases hi : i = id
    · rw [hi]
      exact htracks
    · exact hsets.tracks hi (h.tracks i)
  · by_cases hi : i = id
    · rw [hi]
      exact ⟨se, hse, hsets.clamps⟩
    · refine ⟨s.clamps i t, hactive i, ?_⟩
      rw [update_eq_self]
      exact (hsets.other i hi).1
  · have hi : Idle (s'.clamps .max) := hi
    by_cases hmax : ClampId.max = id
    · subst hmax
      exact absurd (hsets.clamps ▸ hi) (not_idle_update hse)
    · rw [(hsets.other .max hmax).1] at hi
      exact absurd (hi t) (by simp [hactive])

theorem Drops.idle_iff (ht : (s.clamps id t).active = true)
    (hdrop : Drops buckets t id s s') : s'.rq.idle = true ↔ id = .max ∧ Idle (s'.clamps id) := by
  rw [hdrop.idle, h.not_idle ht]
  simp

theorem Inv.reinc (hb : 0 < buckets) (hmatched : eff.Matched buckets) :
    Inv buckets (uclampRqReincId buckets t id eff s) := by
  unfold uclampRqReincId
  split
  · next ht =>
    have hdrop := decId_drops (h.tracks id) hb ht
    have hflag := Drops.idle_iff h ht hdrop
    generalize s.decId buckets t id = s₁ at hdrop hflag ⊢
    obtain ⟨se, hse, hsets⟩ := hdrop.sets
    have hoff : (s₁.clamps id t).active = false := by
      rw [hsets.clamps, update_self]
      exact hse
    have hleast : Idle (s₁.clamps id) → s₁.rq.idle = true ∨ (s₁.rq.uclamp id).value = 0 := by
      intro hi
      cases id with
      | min => exact .inr (hdrop.least rfl hi)
      | max => exact .inl (hflag.2 ⟨rfl, hi⟩)
    have htracks := incId_tracks hdrop.tracks hmatched hoff (fun hi => (hflag.1 hi).2) hleast
    have hinv : Inv buckets ((s₁.incId t eff id).setFlags false (s₁.incId t eff id).rq.warned) :=
      h.of_set ht rfl (hsets.trans (incId_sets eff)) htracks hdrop.quiet
    have hidle : (s₁.incId t eff id).rq.idle = s₁.rq.idle := rfl
    dsimp only
    split
    · exact hinv
    · next hkeep =>
      -- the flag is not set: it would have been cleared
      have hfalse : (s₁.incId t eff id).rq.idle = false := by
        rw [hidle] at hkeep ⊢
        by_contra hi
        have hi : s₁.rq.idle = true := by simpa using hi
        exact hkeep ⟨(hflag.1 hi).1, hi⟩
      rw [← hfalse] at hinv
      exact hinv
  · exact h

end

end

/-! ## Runs -/

section

variable {buckets : Nat} {s s' : State n}

theorem inv_init (buckets : Nat) : Inv buckets (init n) := by
  have hidle : ∀ id, Idle ((init n).clamps id) := fun _ _ => rfl
  refine ⟨fun id => ⟨nofun, fun b => ?_, nofun, fun b hb => absurd rfl hb, fun b hb => absurd rfl hb,
    fun b hb => absurd rfl hb⟩, fun _ => rfl, ⟨fun _ => hidle .max, fun _ => rfl⟩, rfl, nofun⟩
  exact (members_of_idle (hidle id) b).symm

/-- The clamps that come with an operation are in the buckets of their values. -/
def Op.Matched (buckets : Nat) : Op n → Prop
  | .enqueue _ _ eff => (eff .min).Matched buckets ∧ (eff .max).Matched buckets
  | .reinc _ _ eff => eff.Matched buckets
  | _ => True

instance (op : Op n) : Decidable (op.Matched buckets) := by
  cases op <;> unfold Op.Matched <;> infer_instance

theorem step_inv (hb : 0 < buckets) (op : Op n) (h : Inv buckets s) (hmatched : op.Matched buckets)
    (hstep : step buckets op s = some s') : Inv buckets s' := by
  cases op with
  | enable =>
    cases hstep
    exact h.congr_flags rfl rfl fun t ht => ⟨(h.counted t ht).1, rfl, (h.counted t ht).2.2⟩
  | enqueue t enabled eff =>
    obtain ⟨hguard, rfl⟩ := of_guard hstep
    have ht : (s.clamps .max t).active = false := by
      by_contra hact
      have hq := (h.counted t (by simpa using hact)).1
      rw [hguard.1] at hq
      cases hq
    have hcounted : ∀ u, (s.clamps .max u).active = true → ((s.setQueued t true enabled).task u).queued = true ∧
        s.schedUclampUsed = true ∧ ((s.setQueued t true enabled).task u).uclampEnabled = true := by
      intro u hu
      have hut : u ≠ t := by
        rintro rfl
        rw [ht] at hu
        cases hu
      simp only [State.setQueued, update_of_ne hut]
      exact h.counted u hu
    refine (h.congr_flags (setQueued_clamps true enabled) rfl hcounted).inc ?_ ?_ ?_
    · rintro (_ | _)
      · exact hmatched.1
      · exact hmatched.2
    · rw [setQueued_clamps]
      exact ht
    · simp [State.setQueued]
  | dequeue t =>
    obtain ⟨-, rfl⟩ := of_guard hstep
    obtain ⟨hinv, hoff⟩ := h.dec (t := t) hb
    refine hinv.congr_flags (setQueued_clamps _ _) rfl fun u hu => ?_
    have hut : u ≠ t := by
      rintro rfl
      rw [hoff] at hu
      cases hu
    simp only [State.setQueued, update_of_ne hut]
    exact hinv.counted u hu
  | reinc t id eff =>
    obtain ⟨-, rfl⟩ := of_guard hstep
    exact h.reinc hb hmatched

/-- The buckets of one kind of clamp, and the value of the runqueue, are right for the tasks that are active. -/
structure Correct (s : State n) (id : ClampId) : Prop where
  count : ∀ b, ((s.rq.uclamp id).bucket b).tasks =
    (univ.filter fun t => (s.clamps id t).active = true ∧ (s.clamps id t).bucketId = b).card
  bound : ∀ t, (s.clamps id t).active = true →
    (s.clamps id t).value ≤ ((s.rq.uclamp id).bucket (s.clamps id t).bucketId).value
  highest : ∀ b, ((s.rq.uclamp id).bucket b).tasks ≠ 0 → (∀ b', b < b' → ((s.rq.uclamp id).bucket b').tasks = 0) →
    (s.rq.uclamp id).value = ((s.rq.uclamp id).bucket b).value
  covers : ∀ t, (s.clamps id t).active = true → (s.clamps id t).value ≤ (s.rq.uclamp id).value
  idle : s.rq.idle = true ↔ ∀ t, (s.clamps id t).active = false

theorem Inv.correct (h : Inv buckets s) (id : ClampId) : Correct s id := by
  have htracks := h.tracks id
  refine ⟨htracks.count, htracks.bound, fun b hne habove => ?_, fun t ht => ?_, h.idle_both id⟩
  · obtain ⟨b', hne', heq⟩ := htracks.hit b hne
    rcases Nat.lt_trichotomy b' b with hlt | rfl | hlt
    · rw [← htracks.own b hne, ← htracks.own b' hne'] at hlt
      have := lt_of_uclampBucketId_lt hlt
      have := htracks.le b hne
      omega
    · exact heq.symm
    · exact absurd (habove b' hlt) hne'
  · refine (htracks.bound t ht).trans (htracks.le _ ?_)
    rw [htracks.count]
    exact members_pos ht

theorem inv_after_run (hb : 0 < buckets) {ops : List (Op n)}
    (hmatched : Along (step buckets) (fun op _ => op.Matched buckets) ops (init n))
    (hrun : run (step buckets) ops (init n) = some s) : Inv buckets s :=
  along_invariant (fun op _ _ h hok hstep => step_inv hb op h hok hstep) (inv_init buckets) hmatched hrun

/-- The clamps of a runqueue are right after every run with all tasks in the buckets of their clamps, and no warning is
hit. -/
theorem uclamp_after_run (hb : 0 < buckets) (ops : List (Op n))
    (hmatched : Along (step buckets) (fun op _ => op.Matched buckets) ops (init n))
    (hrun : run (step buckets) ops (init n) = some s) : (∀ id, Correct s id) ∧ s.rq.warned = false :=
  have hinv := inv_after_run hb hmatched hrun
  ⟨hinv.correct, hinv.quiet⟩

/-- A clamp as it is stored when there are five buckets -/
def clampTo (value : Nat) : UclampSe := uclampSeSet 5 value true ⟨0, 0, false, false⟩

/-- Task 0 is queued before clamps are used and leaves after them; tasks 1 and 2 share a bucket, and 2 moves to another.
-/
def lateRun : List (Op 3) :=
  [.enqueue 0 true fun _ => clampTo 300, .enable, .enqueue 1 true fun _ => clampTo 210,
    .enqueue 2 true fun _ => clampTo 220,
    .dequeue 0, .reinc 2 .max (clampTo 1024), .dequeue 1]

theorem uclamp_after_lateRun : ∃ s, run (step 5) lateRun (init 3) = some s ∧ (s.rq.uclamp .min).value = 220 ∧
    (s.rq.uclamp .max).value = 1024 ∧ (∀ id, Correct s id) ∧ s.rq.warned = false :=
  ⟨_, rfl, by decide +kernel, by decide +kernel, uclamp_after_run (show 0 < 5 by decide) lateRun (by decide +kernel) rfl⟩

/-- A lower clamp of `0x80000001` is accepted and stored as 1, in the highest bucket. -/
def slipped : ClampId → UclampSe := setschedulerUclamp 5 false 1024 (askFor 0x80000001 (-1)) (noRequest 5)

/-- Beside it tasks with lower clamps of 500 and 300 are queued, and that with 500 leaves. -/
def slippedRun : List (Op 3) :=
  [.enable, .enqueue 0 true slipped, .enqueue 1 true fun _ => clampTo 500, .enqueue 2 true fun _ =>
    clampTo 300, .dequeue 1]

/-- The runqueue is left with a lower clamp of 1 for the task with 300; when that leaves, there is a warning. -/
theorem slipped_not_right : uclampValidate (askFor 0x80000001 (-1)) (noRequest 5) = true ∧
    ∃ s, run (step 5) slippedRun (init 3) = some s ∧ (s.clamps .min 2).value = 300 ∧ (s.rq.uclamp .min).value = 1 ∧
      ¬ Correct s .min ∧ (uclampRqDec 5 2 s).rq.warned = true := by
  refine ⟨by decide, _, rfl, by decide +kernel, by decide +kernel, fun h => ?_, by decide +kernel⟩
  exact absurd (h.covers 2 (by decide +kernel)) (by decide +kernel)

end

/-! ## What the clamps are for -/

/-- `uclamp_rq_util_with`, with the effective clamps of the task if one is given -/
def uclampRqUtilWith (s : State n) (util : Nat) (p : Option (ClampId → Nat)) : Nat :=
  if s.schedUclampUsed then
    let own id := (p.map (· id)).getD 0
    let get id := if p.isSome && s.rq.idle then own id else max (own id) (s.rq.uclamp id).value
    if get .max ≤ get .min then get .min else min (max util (get .min)) (get .max)
  else util

/-- No runnable task gets less than its lower clamp, or than it asks for below its upper one, because of the others. -/
theorem uclamp_rq_util_with_right {buckets : Nat} {s : State n} (hb : 0 < buckets) (ops : List (Op n))
    (hmatched : Along (step buckets) (fun op _ => op.Matched buckets) ops (init n))
    (hrun : run (step buckets) ops (init n) = some s) (hused : s.schedUclampUsed = true) (util : Nat)
    (p : Option (ClampId → Nat)) {t : Fin n} (ht : ∀ id, (s.clamps id t).active = true) :
    (s.clamps .min t).value ≤ uclampRqUtilWith s util p ∧
        min util (s.clamps .max t).value ≤ uclampRqUtilWith s util p := by
  have hinv := inv_after_run hb hmatched hrun
  have hmin := (hinv.correct .min).covers t (ht _)
  have hmax := (hinv.correct .max).covers t (ht _)
  have hbusy : s.rq.idle = false := Bool.eq_false_iff.2 fun h => by simpa [ht] using (hinv.correct .min).idle.1 h t
  simp only [uclampRqUtilWith, hused, hbusy, if_true, Bool.and_false, Bool.false_eq_true, if_false]
  split <;> omega

theorem uclamp_rq_util_with_lateRun : ∃ s, run (step 5) lateRun (init 3) = some s ∧
    (s.clamps .min 2).value = 220 ∧ 220 ≤ uclampRqUtilWith s 100 none ∧ 100 ≤ uclampRqUtilWith s 100 none :=
  have h := uclamp_rq_util_with_right (t := 2) (show 0 < 5 by decide) lateRun (by decide +kernel) rfl
    (by decide +kernel) 100 none fun id => by cases id <;> decide +kernel
  ⟨_, rfl, by decide +kernel, h.1, h.2⟩

end KernelSched.Uclamp
