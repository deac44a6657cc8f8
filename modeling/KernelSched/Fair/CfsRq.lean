import KernelSched.Fair.Timeline

/-!
# One fair runqueue

The entity operations of `struct cfs_rq`: averages, placement, enqueueing and dequeueing, picking up and putting back the
current entity, changing a weight.

- An entity is held by value: the queued ones in the timeline, the current one in `curr`; one that is not on the
  runqueue is passed in, and the one that leaves is handed back.
- `shares` is what `update_cfs_group` computes for the entity of a group from the load averages, `none` where it returns
  early (a task, or a throttled group). Load averages, statistics, buddies and bandwidth are not kept.
- `now` is `rq_clock_task`.
-/

set_option linter.style.nameCheck false

namespace KernelSched.Fair

open Wrap

/-- `struct cfs_rq`, as far as the entity operations read and write it. -/
structure CfsRq where
  curr : Option SchedEntity
  tasksTimeline : Timeline
  avgVruntime : U64
  avgLoad : U64
  minVruntime : U64
  nrRunning : BitVec 32
  /-- `load.weight` -/
  load : U64
  deriving DecidableEq

/-- `init_cfs_rq`, over zeroed memory. -/
def initCfsRq : CfsRq where
  curr := none
  tasksTimeline := .empty
  avgVruntime := 0
  avgLoad := 0
  minVruntime := -(1#64 <<< 20)
  nrRunning := 0
  load := 0

namespace CfsRq

def isCurr (id : Nat) (cfs : CfsRq) : Bool := cfs.curr.any fun c => c.id == id

/-! ## Averages -/

def entityKey (cfs : CfsRq) (se : SchedEntity) : U64 := se.vruntime - cfs.minVruntime

def avgVruntimeAdd (se : SchedEntity) (cfs : CfsRq) : CfsRq :=
  { cfs with
    avgVruntime := cfs.avgVruntime + cfs.entityKey se * se.seWeight
    avgLoad := cfs.avgLoad + se.seWeight }

def avgVruntimeSub (se : SchedEntity) (cfs : CfsRq) : CfsRq :=
  { cfs with
    avgVruntime := cfs.avgVruntime - cfs.entityKey se * se.seWeight
    avgLoad := cfs.avgLoad - se.seWeight }

def avgVruntimeUpdate (delta : U64) (cfs : CfsRq) : CfsRq :=
  { cfs with avgVruntime := cfs.avgVruntime - cfs.avgLoad * delta }

/-- The sum of keys times weights and the sum of weights, the current entity included while it is on the runqueue. -/
def avgAndLoad (cfs : CfsRq) : U64 × U64 :=
  match cfs.curr with
  | some c =>
    if c.onRq then (cfs.avgVruntime + cfs.entityKey c * c.seWeight, cfs.avgLoad + c.seWeight)
    else (cfs.avgVruntime, cfs.avgLoad)
  | none => (cfs.avgVruntime, cfs.avgLoad)

/-- `avg_vruntime()`: the average, rounded down. -/
def avgVruntimeOf (cfs : CfsRq) : U64 :=
  let avg := cfs.avgAndLoad.1
  let load := cfs.avgAndLoad.2
  if load = 0 then cfs.minVruntime + avg
  else
    -- the division rounds to zero, so a negative sum is moved down first
    let avg := if avg.toInt < 0 then avg - (load - 1) else avg
    cfs.minVruntime + divS64 avg load

def entityEligible (cfs : CfsRq) (se : SchedEntity) : Bool :=
  decide ((cfs.entityKey se * cfs.avgAndLoad.2).toInt ≤ cfs.avgAndLoad.1.toInt)

def updateEntityLag (cfg : Config) (cfs : CfsRq) (se : SchedEntity) : SchedEntity :=
  let lag := cfs.avgVruntimeOf - se.vruntime
  let r := calcDeltaFair (if 2 * se.slice < cfg.tickNsec then cfg.tickNsec else 2 * se.slice) se
  let limit := r.1
  let low := if lag.toInt < (-limit).toInt then -limit else lag
  { r.2 with vlag := if limit.toInt < low.toInt then limit else low }

/-! ## The timeline -/

def __enqueueEntity (ds : Rotations) (se : SchedEntity) (cfs : CfsRq) : CfsRq :=
  let cfs := cfs.avgVruntimeAdd se
  { cfs with tasksTimeline := cfs.tasksTimeline.rbAddAugmentedCached ds se }

def __dequeueEntity (ds : Rotations) (se : SchedEntity) (cfs : CfsRq) : CfsRq :=
  let cfs := { cfs with tasksTimeline := cfs.tasksTimeline.rbEraseAugmentedCached ds se.id }
  cfs.avgVruntimeSub se

def __pickFirstEntity (cfs : CfsRq) : Option SchedEntity := cfs.tasksTimeline.rbFirstCached

/-! ## min_vruntime -/

/-- `__update_min_vruntime`: go to `vruntime` if that is forward, and shift the average. -/
def __updateMinVruntime (vruntime : U64) (cfs : CfsRq) : CfsRq :=
  if ahead vruntime cfs.minVruntime then
    { cfs.avgVruntimeUpdate (vruntime - cfs.minVruntime) with minVruntime := vruntime }
  else cfs

/-- The lesser of the current and the first queued vruntime, as far as there are any. -/
def leastVruntime (cfs : CfsRq) : U64 :=
  match cfs.curr.filter SchedEntity.onRq, cfs.__pickFirstEntity with
  | none, none => cfs.minVruntime
  | some curr, none => curr.vruntime
  | none, some se => se.vruntime
  | some curr, some se => if before se.vruntime curr.vruntime then se.vruntime else curr.vruntime

def updateMinVruntime (cfs : CfsRq) : CfsRq := cfs.__updateMinVruntime cfs.leastVruntime

/-! ## The current entity -/

/-- A new slice once the last one is used up -/
def updateDeadline (cfg : Config) (se : SchedEntity) : SchedEntity :=
  if before se.vruntime se.deadline then se
  else
    let r := calcDeltaFair cfg.baseSlice { se with slice := cfg.baseSlice }
    { r.2 with deadline := r.2.vruntime + r.1 }

/-- What `update_curr` charges the current entity with. -/
def chargeCurr (cfg : Config) (now deltaExec : U64) (curr : SchedEntity) : SchedEntity :=
  let r := calcDeltaFair deltaExec { curr with execStart := now, sumExecRuntime := curr.sumExecRuntime + deltaExec }
  updateDeadline cfg { r.2 with vruntime := r.2.vruntime + r.1 }

def updateCurr (cfg : Config) (now : U64) (cfs : CfsRq) : CfsRq :=
  match cfs.curr with
  | none => cfs
  | some curr =>
    let deltaExec := now - curr.execStart
    if deltaExec.toInt ≤ 0 then cfs
    else { cfs with curr := some (chargeCurr cfg now deltaExec curr) }.updateMinVruntime

/-! ## Placement -/

/-- `place_entity`: at the average, less the lag the entity left with. -/
def placeEntity (cfg : Config) (initial : Bool) (cfs : CfsRq) (se : SchedEntity) : SchedEntity :=
  let vruntime := cfs.avgVruntimeOf
  let r := calcDeltaFair cfg.baseSlice { se with slice := cfg.baseSlice }
  let se := r.2
  let lag :=
    if cfg.placeLag && cfs.nrRunning ≠ 0 then
      let load := cfs.avgAndLoad.2
      divS64 (se.vlag * (load + se.seWeight)) (if load = 0 then 1 else load)
    else 0
  let vruntime := vruntime - lag
  let vslice := if cfg.placeDeadlineInitial && initial then r.1 / 2 else r.1
  { se with vruntime := vruntime, deadline := vruntime + vslice }

/-! ## Changing a weight -/

/-- What `reweight_entity` does to the entity: the lag is scaled with the weight, and so is the distance of the deadline
while the entity is on the runqueue. -/
def rescale (weight : U64) (se : SchedEntity) : SchedEntity :=
  if se.onRq then
    { se with
      load := updateLoadSet weight
      deadline := se.vruntime + divS64 ((se.deadline - se.vruntime) * se.load.weight) weight }
  else
    { se with load := updateLoadSet weight, vlag := divS64 (se.vlag * se.load.weight) weight }

def reweightCurr (cfg : Config) (now weight : U64) (cfs : CfsRq) : CfsRq :=
  match cfs.curr with
  | none => cfs
  | some c =>
    if c.onRq then
      let cfs := cfs.updateCurr cfg now
      { cfs with
        curr := cfs.curr.map (rescale weight)
        load := cfs.load - c.load.weight + weight }
    else { cfs with curr := some (rescale weight c) }

/-- `reweight_entity` of a queued entity. The averages lose it with its old weight and gain it with the new one; its
deadline changes in place. -/
def reweightQueued (weight : U64) (se : SchedEntity) (cfs : CfsRq) : CfsRq :=
  let cfs := cfs.avgVruntimeSub se
  let cfs :=
    { cfs with
      tasksTimeline := cfs.tasksTimeline.change (rescale weight) se.id
      load := cfs.load - se.load.weight + weight }
  cfs.avgVruntimeAdd (rescale weight se)

/-- `reweight_entity`. An entity that is not on the runqueue is changed by `rescale` alone. -/
def reweightEntity (cfg : Config) (now : U64) (id : Nat) (weight : U64) (cfs : CfsRq) : CfsRq :=
  if cfs.isCurr id then cfs.reweightCurr cfg now weight
  else
    match cfs.tasksTimeline.find id with
    | none => cfs
    | some se => cfs.reweightQueued weight se

/-- For an entity that is not on the runqueue -/
def updateCfsGroup (shares : Option U64) (se : SchedEntity) : SchedEntity :=
  shares.elim se fun w => rescale w se

/-! ## Enqueueing and dequeueing -/

def accountEntityEnqueue (se : SchedEntity) (cfs : CfsRq) : CfsRq :=
  { cfs with load := cfs.load + se.load.weight, nrRunning := cfs.nrRunning + 1 }

def accountEntityDequeue (se : SchedEntity) (cfs : CfsRq) : CfsRq :=
  { cfs with load := cfs.load - se.load.weight, nrRunning := cfs.nrRunning - 1 }

/-- `ENQUEUE_INITIAL` and `ENQUEUE_MIGRATED`. -/
structure EnqueueFlags where
  initial : Bool
  migrated : Bool
  deriving Repr, DecidableEq

/-- The entity as it stands once it is on the runqueue. -/
def join (flags : EnqueueFlags) (se : SchedEntity) : SchedEntity :=
  { se with onRq := true, execStart := if flags.migrated then 0 else se.execStart }

/-- The current entity joins: reweighted, then counted. -/
def joinCurr (flags : EnqueueFlags) (shares : Option U64) (cfs : CfsRq) : CfsRq :=
  match cfs.curr with
  | none => cfs
  | some c =>
    let se := updateCfsGroup shares c
    { cfs.accountEntityEnqueue se with curr := some (join flags se) }

/-- `enqueue_entity` of the current entity: placed first, charged after, and left out of the tree. -/
def enqueueCurr (cfg : Config) (now : U64) (flags : EnqueueFlags) (shares : Option U64) (se : SchedEntity)
    (cfs : CfsRq) : CfsRq :=
  ({ cfs with curr := some (cfs.placeEntity cfg flags.initial se) }.updateCurr cfg now).joinCurr flags shares

/-- `enqueue_entity` of another entity. `on_rq` is set in the source once the entity is linked; linking does not read
it. -/
def enqueueOther (cfg : Config) (now : U64) (flags : EnqueueFlags) (shares : Option U64) (ds : Rotations)
    (se : SchedEntity) (cfs : CfsRq) : CfsRq :=
  let cfs := cfs.updateCurr cfg now
  let se := cfs.placeEntity cfg flags.initial (updateCfsGroup shares se)
  (cfs.accountEntityEnqueue se).__enqueueEntity ds (join flags se)

def enqueueEntity (cfg : Config) (now : U64) (flags : EnqueueFlags) (shares : Option U64) (ds : Rotations)
    (se : SchedEntity) (cfs : CfsRq) : CfsRq :=
  if cfs.isCurr se.id then cfs.enqueueCurr cfg now flags shares se
  else cfs.enqueueOther cfg now flags shares ds se

/-- What `dequeue_entity` leaves in the entity: its lag, and that it is off the runqueue. -/
def leave (cfg : Config) (cfs : CfsRq) (se : SchedEntity) : SchedEntity :=
  { cfs.updateEntityLag cfg se with onRq := false }

/-- Out of the tree, unless it is the current entity, which stays as `out`. -/
def unlink (ds : Rotations) (se out : SchedEntity) (cfs : CfsRq) : CfsRq :=
  if cfs.isCurr se.id then { cfs with curr := some out } else cfs.__dequeueEntity ds se

/-- The end of `dequeue_entity`; `save` is `DEQUEUE_SAVE` without `DEQUEUE_MOVE`. -/
def settle (save : Bool) (cfs : CfsRq) : CfsRq := if save then cfs else cfs.updateMinVruntime

/-- `dequeue_entity`, from the point where the current entity has been charged. -/
def dequeueCharged (cfg : Config) (save : Bool) (shares : Option U64) (ds : Rotations) (id : Nat) (cfs : CfsRq) :
    Option (SchedEntity × CfsRq) :=
  (if cfs.isCurr id then cfs.curr else cfs.tasksTimeline.find id).map fun gone =>
    let se := cfs.leave cfg gone
    let out := updateCfsGroup shares se
    (out, ((cfs.unlink ds se out).accountEntityDequeue se).settle save)

def dequeueEntity (cfg : Config) (now : U64) (save : Bool) (shares : Option U64) (ds : Rotations) (id : Nat)
    (cfs : CfsRq) : Option (SchedEntity × CfsRq) :=
  (cfs.updateCurr cfg now).dequeueCharged cfg save shares ds id

/-! ## Picking up and putting back -/

/-- `set_next_entity`: the entity leaves the tree and becomes the current one, with its deadline stashed in `vlag`. -/
def setNextEntity (now : U64) (ds : Rotations) (se : SchedEntity) (cfs : CfsRq) : CfsRq :=
  let cfs := if se.onRq then cfs.__dequeueEntity ds se else cfs
  let se := if se.onRq then { se with vlag := se.deadline } else se
  { cfs with curr := some { se with execStart := now, prevSumExecRuntime := se.sumExecRuntime } }

def putBack (ds : Rotations) (cfs : CfsRq) : CfsRq :=
  match cfs.curr with
  | none => cfs
  | some prev => { cfs.__enqueueEntity ds prev with curr := none }

def putPrevEntity (cfg : Config) (now : U64) (ds : Rotations) (cfs : CfsRq) : CfsRq :=
  if cfs.curr.any SchedEntity.onRq then (cfs.updateCurr cfg now).putBack ds else { cfs with curr := none }

/-! ## What the operations leave alone -/

variable {cfg : Config} {now v : U64} {cfs : CfsRq}

@[simp] theorem updateDeadline_id (se : SchedEntity) : (updateDeadline cfg se).id = se.id := by
  unfold updateDeadline; split <;> simp

@[simp] theorem updateDeadline_onRq (se : SchedEntity) : (updateDeadline cfg se).onRq = se.onRq := by
  unfold updateDeadline; split <;> simp

@[simp] theorem chargeCurr_id (d : U64) (c : SchedEntity) : (chargeCurr cfg now d c).id = c.id := by simp [chargeCurr]

@[simp] theorem chargeCurr_onRq (d : U64) (c : SchedEntity) : (chargeCurr cfg now d c).onRq = c.onRq := by
  simp [chargeCurr]

@[simp] theorem placeEntity_id (i : Bool) (se : SchedEntity) : (cfs.placeEntity cfg i se).id = se.id := by
  simp [placeEntity]

@[simp] theorem rescale_id (w : U64) (se : SchedEntity) : (rescale w se).id = se.id := by
  unfold rescale; split <;> rfl

section

variable (se : SchedEntity)

include se

@[simp] theorem rescale_onRq (w : U64) : (rescale w se).onRq = se.onRq := by
  unfold rescale; split <;> rfl

@[simp] theorem rescale_vruntime (w : U64) : (rescale w se).vruntime = se.vruntime := by
  unfold rescale; split <;> rfl

@[simp] theorem updateCfsGroup_id (shares : Option U64) : (updateCfsGroup shares se).id = se.id := by
  cases shares with
  | none => rfl
  | some w => exact rescale_id w se

@[simp] theorem leave_id : (cfs.leave cfg se).id = se.id := by simp [leave, updateEntityLag]

@[simp] theorem leave_vruntime : (cfs.leave cfg se).vruntime = se.vruntime := by
  simp [leave, updateEntityLag]

@[simp] theorem leave_seWeight : (cfs.leave cfg se).seWeight = se.seWeight := by
  simp [leave, updateEntityLag, SchedEntity.seWeight]

end

/-- `update_curr` changes nothing, or charges the current entity and moves `min_vruntime`. -/
theorem updateCurr_cases (cfg : Config) (now : U64) (cfs : CfsRq) : cfs.updateCurr cfg now = cfs ∨
    ∃ c d v, cfs.curr = some c ∧
      cfs.updateCurr cfg now = { cfs with curr := some (chargeCurr cfg now d c) }.__updateMinVruntime v := by
  unfold updateCurr
  split
  · exact .inl rfl
  · rename_i c hc
    by_cases hd : (now - c.execStart).toInt ≤ 0
    · exact .inl (if_pos hd)
    · exact .inr ⟨c, _, _, hc, if_neg hd⟩

@[simp] theorem __updateMinVruntime_curr : (cfs.__updateMinVruntime v).curr = cfs.curr := by
  unfold __updateMinVruntime; split <;> rfl

@[simp] theorem __updateMinVruntime_timeline : (cfs.__updateMinVruntime v).tasksTimeline = cfs.tasksTimeline := by
  unfold __updateMinVruntime; split <;> rfl

@[simp] theorem updateMinVruntime_curr : cfs.updateMinVruntime.curr = cfs.curr := __updateMinVruntime_curr

@[simp] theorem updateMinVruntime_timeline : cfs.updateMinVruntime.tasksTimeline = cfs.tasksTimeline :=
  __updateMinVruntime_timeline

theorem updateCurr_curr (cfg : Config) (now : U64) (cfs : CfsRq) :
    (cfs.updateCurr cfg now).curr = cfs.curr ∨ ∃ c d, cfs.curr = some c ∧
    (cfs.updateCurr cfg now).curr = some (chargeCurr cfg now d c) := by
  rcases updateCurr_cases cfg now cfs with h | ⟨c, d, v, hc, h⟩
  · exact .inl (by rw [h])
  · exact .inr ⟨c, d, hc, by rw [h, __updateMinVruntime_curr]⟩

@[simp] theorem updateCurr_currId : (cfs.updateCurr cfg now).curr.map SchedEntity.id = cfs.curr.map SchedEntity.id := by
  rcases updateCurr_curr cfg now cfs with h | ⟨c, d, hc, h⟩
  · rw [h]
  · rw [h, hc]; simp

@[simp] theorem updateCurr_timeline : (cfs.updateCurr cfg now).tasksTimeline = cfs.tasksTimeline := by
  rcases updateCurr_cases cfg now cfs with h | ⟨c, d, v, -, h⟩
  · rw [h]
  · rw [h, __updateMinVruntime_timeline]

end CfsRq

end KernelSched.Fair
