import KernelSched.Lib.Inherit
import KernelSched.Lib.Run
import KernelSched.Uclamp.Request

/-!
# The clamps of task groups

A group asks for clamps (`uclamp_req`) and gets effective ones (`uclamp`): the upper one capped by that of its parent,
the lower one by that of its parent and by its own upper one. A write to `cpu.uclamp.min` or `cpu.uclamp.max`, a new
group and a change of the system defaults, which are the requests of the root, each call `cpu_util_update_eff` from the
group that is concerned. The walk leaves out what is under a group whose clamps stay the same.

After every such operation all groups have the effective clamps that their requests and parents give them
(`effective_after_run`).

- The groups are a `Rooted.Tree` that grows; `0` is `root_task_group`.
- A group is made in two steps: `alloc_uclamp_sched_group` copies the clamps that its parent has then, and `css_online`
  computes them anew, maybe after others have changed. What the group has in between is not looked at.
-/

namespace KernelSched.Uclamp

open Rooted Run List Option
open Function (update update_of_ne update_self)

/-! ## Model -/

/-- What `cgroup_parse_float` makes of a text: hundredths of a percent, or nothing. -/
inductive Text
  | max
  | percent (hundredths : Int)
  | invalid

inductive Errno
  | einval
  | erange
  deriving DecidableEq

/-- `struct uclamp_request` of a good text -/
structure UclampRequest where
  percent : Int
  util : Nat

def uclampPercentScale : Nat := 10000

/-- The percentage is compared as a `u64`. -/
def capacityFromPercent : Text → Except Errno UclampRequest
  | .max => .ok ⟨uclampPercentScale, schedCapacityScale⟩
  | .percent p =>
    if p < 0 ∨ (uclampPercentScale : Int) < p then .error .erange
    else .ok ⟨p, (p.toNat * schedCapacityScale + uclampPercentScale / 2) / uclampPercentScale⟩
  | .invalid => .error .einval

abbrev Clamps := ClampId → UclampSe

structure Groups where
  tree : Tree
  /-- `tg->uclamp_req` -/
  req : Nat → Clamps
  /-- `tg->uclamp` -/
  eff : Nat → Clamps
  /-- `tg->uclamp_pct` -/
  pct : Nat → ClampId → Int
  /-- `sysctl_sched_uclamp_util_min` and `_max` -/
  sysctl : ClampId → Nat
  /-- `sysctl_sched_uclamp_util_min_rt_default` -/
  sysctlMinRt : Nat
  /-- `uclamp_default` -/
  defaults : Clamps
  /-- Groups that are allocated and not online: their parent and their clamps -/
  allocated : List (Nat × Clamps)

section

variable (buckets : Nat)

/-- The array `eff` of `cpu_util_update_eff`: from the requests and the clamps of the parent, which the root does not
have -/
def effOf (g : Nat) (req : Clamps) (parent : ClampId → Nat) : ClampId → Nat :=
  let eff := fun id => if g = 0 then (req id).value else min (req id).value (parent id)
  fun
    | .min => min (eff .min) (eff .max)
    | .max => eff .max

/-- One effective clamp; its field has `bits_per(SCHED_CAPACITY_SCALE)` bits. -/
def setEff (eff : Nat) (se : UclampSe) : UclampSe :=
  if eff = se.value then se else { se with value := eff % 2 ^ 11, bucketId := uclampBucketId buckets eff }

/-- The loop body of `cpu_util_update_eff`, with `clamps` as a flag -/
def updateEffOne (g : Nat) (s : Groups) : Groups × Bool :=
  let eff := effOf g (s.req g) fun id => (s.eff (s.tree.parent g) id).value
  ({ s with eff := update s.eff g fun id => setEff buckets (eff id) (s.eff g id) },
    decide (eff .min ≠ (s.eff g .min).value) || decide (eff .max ≠ (s.eff g .max).value))

def cpuUtilUpdateEff (g : Nat) (s : Groups) : Groups := s.tree.walkChanged (updateEffOne buckets) s.tree.size g s

/-- `cpu_uclamp_write`, for a good request -/
def cpuUclampWrite (g : Nat) (id : ClampId) (r : UclampRequest) (s : Groups) : Groups :=
  let se := if (s.req g id).value ≠ r.util then uclampSeSet buckets r.util false (s.req g id) else s.req g id
  cpuUtilUpdateEff buckets g
    { s with
      req := update s.req g (update (s.req g) id se)
      pct := update s.pct g (update (s.pct g) id r.percent) }

def allocUclampSchedGroup (parent : Nat) (s : Groups) : Groups :=
  { s with allocated := s.allocated ++ [(parent, s.eff parent)] }

def freshRequest : Clamps := fun id => uclampSeSet buckets (uclampNone id) false ⟨0, 0, false, false⟩

/-- `sched_online_group`: the group that was allocated as number `k` gets its place in the tree. -/
def schedOnlineGroup (k : Nat) (a : Nat × Clamps) (s : Groups) : Groups :=
  { s with
    tree := s.tree.grow a.1
    req := update s.req s.tree.size (freshRequest buckets)
    eff := update s.eff s.tree.size a.2
    pct := update s.pct s.tree.size fun _ => 0
    allocated := s.allocated.eraseIdx k }

def cpuCgroupCssOnline (k : Nat) (s : Groups) : Option Groups :=
  (s.allocated[k]?).map fun a => cpuUtilUpdateEff buckets s.tree.size (schedOnlineGroup buckets k a s)

def uclampUpdateRootTg (s : Groups) : Groups :=
  cpuUtilUpdateEff buckets 0
    { s with req := update s.req 0 fun id => uclampSeSet buckets (s.sysctl id) false (s.req 0 id) }

/-- The sysctls of `sysctl_sched_uclamp_handler` -/
inductive SysctlName
  | util (id : ClampId)
  | minRt

/-- `proc_dointvec`, for a value that it takes -/
def procDointvec (name : SysctlName) (value : BitVec 32) (s : Groups) : Groups :=
  match name with
  | .util id => { s with sysctl := update s.sysctl id value.toNat }
  | .minRt => { s with sysctlMinRt := value.toNat }

def sysctlSchedUclampHandler (name : SysctlName) (value : BitVec 32) (s : Groups) : Groups :=
  let s' := procDointvec name value s
  if s'.sysctl .max < s'.sysctl .min ∨ schedCapacityScale < s'.sysctl .max ∨ schedCapacityScale < s'.sysctlMinRt then
    { s' with sysctl := s.sysctl, sysctlMinRt := s.sysctlMinRt }
  else if s'.sysctl .min ≠ s.sysctl .min ∨ s'.sysctl .max ≠ s.sysctl .max then
    uclampUpdateRootTg buckets { s' with
      defaults := fun id =>
        if s'.sysctl id ≠ s.sysctl id then uclampSeSet buckets (s'.sysctl id) false (s.defaults id) else s.defaults id }
  else s'

end

/-! ## Runs -/

/-- What calls `cpu_util_update_eff`, and the allocation of a group -/
inductive GroupOp
  | write (g : Nat) (id : ClampId) (text : Text)
  | alloc (parent : Nat)
  | online (k : Nat)
  | sysctl (name : SysctlName) (value : BitVec 32)

/-- The root has no files for the clamps. -/
def GroupOp.step (buckets : Nat) : GroupOp → Groups → Option Groups
  | write g id text, s =>
    if g ≠ 0 ∧ g < s.tree.size then
      match capacityFromPercent text with
      | .error _ => some s
      | .ok r => some (cpuUclampWrite buckets g id r s)
    else none
  | alloc parent, s => if parent < s.tree.size then some (allocUclampSchedGroup parent s) else none
  | online k, s => cpuCgroupCssOnline buckets k s
  | sysctl name value, s => some (sysctlSchedUclampHandler buckets name value s)

/-- After `init_uclamp`: the root alone, with no limits -/
def Groups.boot (buckets : Nat) : Groups :=
  let ucMax : UclampSe := uclampSeSet buckets (uclampNone .max) false ⟨0, 0, false, false⟩
  { tree := ⟨1, fun _ => 0, fun h => by omega⟩
    req := fun _ _ => ucMax
    eff := fun _ _ => ucMax
    pct := fun _ _ => 0
    sysctl := fun _ => schedCapacityScale
    sysctlMinRt := schedCapacityScale
    defaults := fun _ => ucMax
    allocated := [] }

/-- The effective clamps of a group are what its requests and its parent give it, with their buckets. -/
structure Effective (buckets : Nat) (s : Groups) (g : Nat) : Prop where
  max : (s.eff g .max).value =
    if g = 0 then (s.req g .max).value else min (s.req g .max).value (s.eff (s.tree.parent g) .max).value
  min : (s.eff g .min).value =
    min (if g = 0 then (s.req g .min).value else min (s.req g .min).value (s.eff (s.tree.parent g) .min).value)
      (s.eff g .max).value
  bucket : ∀ id, (s.eff g id).bucketId = uclampBucketId buckets (s.eff g id).value

/-! ## One walk -/

section

variable {buckets : Nat} {s : Groups} {g : Nat}

def Groups.values (s : Groups) (g : Nat) (id : ClampId) : Nat := (s.eff g id).value

/-- Requests fit in their fields, and effective clamps are in the buckets of their values. -/
structure Groups.Sane (buckets : Nat) (s : Groups) : Prop where
  req : ∀ g id, (s.req g id).value < 2 ^ 11
  bucket : ∀ g id, (s.eff g id).bucketId = uclampBucketId buckets (s.eff g id).value

structure Groups.Like (buckets : Nat) (s₀ s : Groups) : Prop extends s.Sane buckets where
  tree : s.tree = s₀.tree
  sameReq : s.req = s₀.req
  allocated : s.allocated = s₀.allocated

theorem setEff_value {eff : Nat} (h : eff < 2 ^ 11) (se : UclampSe) : (setEff buckets eff se).value = eff := by
  unfold setEff
  split
  · rename_i heq
    exact heq.symm
  · exact Nat.mod_eq_of_lt h

theorem setEff_bucket {eff : Nat} (h : eff < 2 ^ 11) {se : UclampSe}
    (hse : se.bucketId = uclampBucketId buckets se.value) :
    (setEff buckets eff se).bucketId = uclampBucketId buckets (setEff buckets eff se).value := by
  rw [setEff_value h]
  unfold setEff
  split
  · rename_i heq
    rw [hse, heq]
  · rfl

theorem effOf_lt {req : Clamps} (h : ∀ id, (req id).value < 2 ^ 11) (parent : ClampId → Nat) (id : ClampId) :
    effOf g req parent id < 2 ^ 11 := by
  have hid : ∀ id, (if g = 0 then (req id).value else min (req id).value (parent id)) < 2 ^ 11 := by
    intro id
    have := h id
    split <;> omega
  cases id with
  | min => exact lt_of_le_of_lt (min_le_left _ _) (hid .min)
  | max => exact hid .max

theorem values_updateEffOne (hs : s.Sane buckets) :
    (updateEffOne buckets g s).1.values g = effOf g (s.req g) (s.values (s.tree.parent g)) := by
  funext id
  show (update s.eff g _ g id).value = _
  rw [update_self, setEff_value (effOf_lt (hs.req g) _ id)]
  rfl

theorem values_updateEffOne_of_ne {x : Nat} (hx : x ≠ g) : (updateEffOne buckets g s).1.values x = s.values x := by
  funext id
  show (update s.eff g _ x id).value = _
  rw [update_of_ne hx]
  rfl

theorem updateEffOne_sane (hs : s.Sane buckets) : (updateEffOne buckets g s).1.Sane buckets := by
  refine ⟨hs.req, fun x id => ?_⟩
  show (update s.eff g _ x id).bucketId = uclampBucketId buckets (update s.eff g _ x id).value
  by_cases hx : x = g
  · subst hx
    rw [update_self]
    exact setEff_bucket (effOf_lt (hs.req x) _ id) (hs.bucket x id)
  · rw [update_of_ne hx]
    exact hs.bucket x id

theorem inherits (buckets : Nat) (s₀ : Groups) : Inherits s₀.tree (updateEffOne buckets) Groups.values
    (fun g => effOf g (s₀.req g)) (Groups.Like buckets s₀) where
  root v w := by
    funext id
    cases id <;> simp [effOf]
  keeps h := ⟨updateEffOne_sane h.toSane, h.tree, h.sameReq, h.allocated⟩
  self h := by rw [values_updateEffOne h.toSane, h.tree, h.sameReq]
  others _ hx := values_updateEffOne_of_ne hx
  still {g s} h hstill := by
    rw [values_updateEffOne h.toSane]
    simp only [updateEffOne, Bool.or_eq_false_iff, decide_eq_false_iff_not, not_not] at hstill
    funext id
    cases id with
    | min => exact hstill.1
    | max => exact hstill.2

/-- All effective clamps have the values that requests and parents give. -/
def Groups.Right (s : Groups) : Prop := ∀ g < s.tree.size, s.tree.IsRight (fun g => effOf g (s.req g)) s.values g

theorem cpuUtilUpdateEff_spec (hg : g < s.tree.size) (hs : s.Sane buckets)
    (h : ∀ x < s.tree.size, x ≠ g → s.tree.IsRight (fun g => effOf g (s.req g)) s.values x) :
    s.Like buckets (cpuUtilUpdateEff buckets g s) ∧ (cpuUtilUpdateEff buckets g s).Right := by
  obtain ⟨hlike, hr⟩ := (inherits buckets s).walk_right hg ⟨hs, rfl, rfl, rfl⟩ h
  refine ⟨hlike, fun x hx => ?_⟩
  have hlike' : s.Like buckets (cpuUtilUpdateEff buckets g s) := hlike
  rw [hlike'.tree] at hx ⊢
  rw [hlike'.sameReq]
  exact hr x hx

end

/-! ## Every operation -/

structure Groups.Inv (buckets : Nat) (s : Groups) : Prop extends s.Sane buckets where
  right : s.Right
  root : 0 < s.tree.size
  copied : ∀ a ∈ s.allocated, a.1 < s.tree.size ∧ ∀ id, (a.2 id).bucketId = uclampBucketId buckets (a.2 id).value

namespace Groups.Inv

variable {buckets : Nat} {s s' : Groups} {g : Nat}

theorem uclampSeSet_lt (value : Nat) (user : Bool) (se : UclampSe) : (uclampSeSet buckets value user se).value < 2 ^ 11 :=
  Nat.mod_lt _ (Nat.two_pow_pos 11)

section

variable (h : s.Inv buckets)

include h

/-- The walk after the requests of one group have changed. -/
theorem update (hg : g < s.tree.size) (htree : s'.tree = s.tree) (heff : s'.eff = s.eff)
    (halloc : s'.allocated = s.allocated) (hreq : ∀ x id, (s'.req x id).value < 2 ^ 11)
    (hothers : ∀ x, x ≠ g → s'.req x = s.req x) : (cpuUtilUpdateEff buckets g s').Inv buckets := by
  have hvalues : s'.values = s.values := by
    unfold Groups.values
    rw [heff]
  obtain ⟨hlike, hr⟩ := cpuUtilUpdateEff_spec (htree ▸ hg) ⟨hreq, heff ▸ h.bucket⟩ fun x hx hxg => by
    rw [Tree.IsRight, hothers x hxg, htree, hvalues]
    exact h.right x (htree ▸ hx)
  refine ⟨hlike.toSane, hr, ?_, ?_⟩
  · rw [hlike.tree, htree]
    exact h.root
  · rw [hlike.tree, htree, hlike.allocated, halloc]
    exact h.copied

theorem write (hg : g < s.tree.size) (id : ClampId) (r : UclampRequest) :
    (cpuUclampWrite buckets g id r s).Inv buckets := by
  refine h.update hg rfl rfl rfl (fun x id' => ?_) fun x hx => update_of_ne hx _ _
  show (Function.update s.req g _ x id').value < _
  by_cases hx : x = g
  · subst hx
    rw [update_self]
    by_cases hid : id' = id
    · subst hid
      rw [update_self]
      split
      · exact uclampSeSet_lt ..
      · exact h.req x id'
    · rw [update_of_ne hid]
      exact h.req x id'
  · rw [update_of_ne hx]
    exact h.req x id'

theorem alloc (hg : g < s.tree.size) : (allocUclampSchedGroup g s).Inv buckets := by
  refine ⟨⟨h.req, h.bucket⟩, h.right, h.root, fun a ha => ?_⟩
  rcases mem_append.1 ha with ha | ha
  · exact h.copied a ha
  · obtain rfl := mem_singleton.1 ha
    exact ⟨hg, h.bucket g⟩

theorem link_sane (k : Nat) {a : Nat × Clamps} (ha : a ∈ s.allocated) :
    (schedOnlineGroup buckets k a s).Sane buckets := by
  refine ⟨fun x id => ?_, fun x id => ?_⟩
  · show (Function.update s.req s.tree.size _ x id).value < _
    by_cases hx : x = s.tree.size
    · rw [hx, update_self]
      exact uclampSeSet_lt ..
    · rw [update_of_ne hx]
      exact h.req x id
  · show (Function.update s.eff s.tree.size _ x id).bucketId =
      uclampBucketId buckets (Function.update s.eff s.tree.size _ x id).value
    by_cases hx : x = s.tree.size
    · rw [hx, update_self]
      exact (h.copied a ha).2 id
    · rw [update_of_ne hx]
      exact h.bucket x id

theorem link_right (k : Nat) (a : Nat × Clamps) {x : Nat} (hx : x < s.tree.size) :
    (schedOnlineGroup buckets k a s).tree.IsRight (fun g => effOf g ((schedOnlineGroup buckets k a s).req g))
      (schedOnlineGroup buckets k a s).values x := by
  have hvalues : ∀ y < s.tree.size, (schedOnlineGroup buckets k a s).values y = s.values y := fun y hy => by
    funext id
    show (Function.update s.eff s.tree.size _ y id).value = _
    rw [update_of_ne hy.ne]
    rfl
  have hreq : (schedOnlineGroup buckets k a s).req x = s.req x := update_of_ne hx.ne _ _
  have hparent : (schedOnlineGroup buckets k a s).tree.parent x = s.tree.parent x := s.tree.grow_parent hx
  have hright := h.right x hx
  rw [Tree.IsRight] at hright ⊢
  rw [hvalues x hx, hreq, hparent, hright]
  by_cases hx0 : x = 0
  · subst hx0
    exact (inherits buckets s).root _ _
  · rw [hvalues _ ((s.tree.parent_lt hx0).trans hx)]

theorem online {k : Nat} (hs : cpuCgroupCssOnline buckets k s = some s') : s'.Inv buckets := by
  obtain ⟨a, ha, rfl⟩ := map_eq_some_iff.1 hs
  have ha := mem_of_getElem? ha
  obtain ⟨hlike, hr⟩ := cpuUtilUpdateEff_spec (s := schedOnlineGroup buckets k a s) (Nat.lt_succ_self s.tree.size)
    (h.link_sane k ha) fun x hx hxn => h.link_right k a (lt_of_le_of_ne (Nat.lt_succ_iff.1 hx) hxn)
  refine ⟨hlike.toSane, hr, ?_, ?_⟩
  · rw [hlike.tree]
    exact Nat.succ_pos _
  · rw [hlike.tree, hlike.allocated]
    intro b hb
    obtain ⟨hbp, hbc⟩ := h.copied b (mem_of_mem_eraseIdx hb)
    exact ⟨hbp.trans (Nat.lt_succ_self _), hbc⟩

theorem congr (htree : s'.tree = s.tree) (hreq : s'.req = s.req) (heff : s'.eff = s.eff)
    (halloc : s'.allocated = s.allocated) : s'.Inv buckets := by
  obtain ⟨tree, req, eff, pct, sysctl, rt, defaults, allocated⟩ := s'
  subst htree hreq heff halloc
  exact ⟨⟨h.req, h.bucket⟩, h.right, h.root, h.copied⟩

theorem sysctl (name : SysctlName) (value : BitVec 32) : (sysctlSchedUclampHandler buckets name value s).Inv buckets := by
  -- what is written first is no part of the groups
  obtain ⟨htree, hreq, heff, halloc⟩ : (procDointvec name value s).tree = s.tree ∧
    (procDointvec name value s).req = s.req ∧
      (procDointvec name value s).eff = s.eff ∧ (procDointvec name value s).allocated = s.allocated := by
    cases name <;> exact ⟨rfl, rfl, rfl, rfl⟩
  unfold sysctlSchedUclampHandler
  generalize procDointvec name value s = t at htree hreq heff halloc
  dsimp only
  split
  · exact h.congr htree hreq heff halloc
  split
  · refine h.update h.root htree heff halloc (fun x id => ?_) fun x hx => ?_
    · show (Function.update t.req 0 _ x id).value < _
      by_cases hx : x = 0
      · rw [hx, update_self]
        exact uclampSeSet_lt ..
      · rw [update_of_ne hx, hreq]
        exact h.req x id
    · rw [← hreq]
      exact update_of_ne hx _ _
  · exact h.congr htree hreq heff halloc

end

theorem boot (buckets : Nat) : (Groups.boot buckets).Inv buckets := by
  refine ⟨⟨fun _ _ => uclampSeSet_lt .., fun _ _ => rfl⟩, fun g hg => ?_, Nat.one_pos, fun a ha => absurd ha not_mem_nil⟩
  obtain rfl : g = 0 := Nat.lt_one_iff.1 hg
  funext id
  cases id with
  | min => exact (min_self _).symm
  | max => rfl

end Groups.Inv

namespace GroupOp

variable {buckets : Nat} {s s' : Groups}

theorem step_inv {o : GroupOp} (h : s.Inv buckets) (hs : o.step buckets s = some s') : s'.Inv buckets := by
  cases o with
  | write g id text =>
    obtain ⟨⟨-, hg⟩, hs⟩ := ite_none_right_eq_some.1 hs
    match capacityFromPercent text, hs with
    | .error _, hs =>
      cases hs
      exact h
    | .ok r, hs =>
      cases hs
      exact h.write hg id r
  | alloc parent =>
    obtain ⟨hp, rfl⟩ := of_guard hs
    exact h.alloc hp
  | online k => exact h.online hs
  | sysctl name value =>
    cases hs
    exact h.sysctl name value

theorem effective_of_inv (h : s.Inv buckets) {g : Nat} (hg : g < s.tree.size) : Effective buckets s g := by
  have hr := h.right g hg
  have hmax := congrFun hr .max
  have hmin := congrFun hr .min
  refine ⟨hmax, ?_, h.bucket g⟩
  rw [show (s.eff g .max).value = _ from hmax]
  exact hmin

/-- After every run of writes, new groups and changes of the defaults, the effective clamps of all groups are right. -/
theorem effective_after_run {os : List GroupOp} (h : run (step buckets) os (Groups.boot buckets) = some s) :
    ∀ g < s.tree.size, Effective buckets s g := by
  have hinv : s.Inv buckets := run_invariant (fun _ _ _ hi hs => step_inv hi hs) (Groups.Inv.boot buckets) h
  exact fun g hg => effective_of_inv hinv hg

/-- A group with a child, whose limits are lowered and raised again; the second write to the child changes nothing
below. -/
def nestedRun : List GroupOp :=
  [alloc 0, online 0, alloc 1, write 1 .max (.percent 5000), online 0, write 2 .min (.percent 8000),
    write 1 .min (.percent 3000), write 2 .min .max, sysctl (.util .min) 100, write 1 .max (.percent 2000)]

theorem effective_after_nestedRun : ∃ s, run (step 5) nestedRun (Groups.boot 5) = some s ∧ s.tree.size = 3 ∧
    (s.eff 2 .min).value = 100 ∧ (s.eff 2 .max).value = 205 ∧ ∀ g < s.tree.size, Effective 5 s g := by
  obtain ⟨s, hs, hsize, hmin, hmax⟩ : ∃ s, run (step 5) nestedRun (Groups.boot 5) = some s ∧ s.tree.size = 3 ∧
      (s.eff 2 .min).value = 100 ∧ (s.eff 2 .max).value = 205 := run_of_isSome (by decide)
  exact ⟨s, hs, hsize, hmin, hmax, effective_after_run hs⟩

end GroupOp

end KernelSched.Uclamp
