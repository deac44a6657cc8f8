import KernelSched.Fair.Averages
import KernelSched.Lib.Weighted

/-!
# Picking the next entity

`__pick_eevdf` looks for the eligible entity with the earliest deadline. One loop goes down the tree along the border of
the eligible entities, remembering the best entity passed and the best left branch passed (`searchEligible`); the other
finds the entity with the least deadline of that branch (`searchMinDeadline`).

- The loops are right for any predicate that holds of a first part of the tree (`searchEligible_found`).
- Eligibility is such a predicate in a sorted tree, and holds of some runnable entity: it compares a key with the
  weighted average (`Pickable.eligible_iff`), and some key is at most the average.
-/

set_option linter.style.nameCheck false

namespace KernelSched.Fair

open Wrap AugTree ATree SchedEntity CfsRq

/-! ## The search -/

/-- The best so far, or `a` if there is none or its `field` is earlier. -/
def earlier {α : Type} (field : α → U64) (best : Option α) (a : α) : α :=
  match best with
  | none => a
  | some b => if ahead (field b) (field a) then a else b

/-- A node and its `min_deadline`. -/
abbrev Branch := ATree SchedEntity U64 × U64

/-- The best left branch so far, after passing the left child `l`. -/
def passLeft (bestLeft : Option Branch) (l : ATree SchedEntity U64) : Option Branch :=
  match l.aug? with
  | none => bestLeft
  | some ml => some (earlier Prod.snd bestLeft (l, ml))

/-- The first loop of `__pick_eevdf`. -/
def searchEligible (eligible : SchedEntity → Bool) :
    ATree SchedEntity U64 → Option SchedEntity → Option Branch → Option SchedEntity × Option Branch
  | nil, best, bestLeft => (best, bestLeft)
  | node l se m r, best, bestLeft =>
    if eligible se then
      let best := earlier SchedEntity.deadline best se
      let bestLeft := passLeft bestLeft l
      -- the minimum is in the left branch, or at this node; else it is in the right branch
      if l.aug? = some m ∨ se.deadline = m then (best, bestLeft) else searchEligible eligible r best bestLeft
    else searchEligible eligible l best bestLeft

/-- The second loop of `__pick_eevdf`: follow the least deadline. -/
def searchMinDeadline : ATree SchedEntity U64 → Option SchedEntity
  | nil => none
  | node l se m r =>
    if se.deadline = m then some se
    else if l.aug? = some m then searchMinDeadline l
    else searchMinDeadline r

/-- The end of `__pick_eevdf`: the best entity passed, or the one with the least deadline of the best left branch. -/
def pickBetween : Option SchedEntity → Option Branch → Option SchedEntity
  | best, none => best
  -- not reached: a left branch is only remembered at an eligible entity
  | none, some _ => none
  | some best, some left => if ahead left.2 best.deadline then some best else searchMinDeadline left.1

namespace CfsRq

def eligibleCurr (cfs : CfsRq) : Option SchedEntity := cfs.curr.filter fun c => c.onRq && cfs.entityEligible c

/-- `RUN_TO_PARITY` keeps the current entity until it gets a new slice. -/
def runsToParity (cfg : Config) (cfs : CfsRq) : Bool :=
  cfg.runToParity && cfs.eligibleCurr.any fun c => c.vlag == c.deadline

def __pickEevdf (cfg : Config) (cfs : CfsRq) : Option SchedEntity :=
  if cfs.runsToParity cfg then cfs.eligibleCurr
  else
    let r := searchEligible cfs.entityEligible cfs.tasksTimeline.root cfs.eligibleCurr none
    pickBetween r.1 r.2

/-- `pick_eevdf`, and whether it reports that the scheduling failed. -/
def pickEevdf (cfg : Config) (cfs : CfsRq) : Option SchedEntity × Bool :=
  match cfs.__pickEevdf cfg with
  | some se => (some se, false)
  | none =>
    match cfs.__pickFirstEntity with
    | some left => (some left, true)
    | none => (none, false)

/-- The entities that can run: the current one while it is on the runqueue, and the queued ones. -/
def runnable (cfs : CfsRq) : List SchedEntity := (cfs.curr.filter SchedEntity.onRq).toList ++ cfs.tasksTimeline.entities

end CfsRq

/-! ## The second loop -/

section

variable {base : U64} {t : ATree SchedEntity U64} {l : ATree SchedEntity U64} {e : SchedEntity} {m : U64}

/-- Every node caches the deadline of its subtree with the least distance from `base`. -/
def Cached (base : U64) (t : ATree SchedEntity U64) : Prop :=
  ∀ u ∈ subtrees t, ∀ m ∈ u.aug?, (∃ e ∈ u.toList, e.deadline = m) ∧ ∀ e ∈ u.toList, off base m ≤ off base e.deadline

theorem Cached.root (h : Cached base t) (hm : m ∈ t.aug?) :
    (∃ e ∈ t.toList, e.deadline = m) ∧ ∀ e ∈ t.toList, off base m ≤ off base e.deadline :=
  h t (mem_subtrees_self hm) m hm

theorem Cached.subtree (h : Cached base t) {u : ATree SchedEntity U64} (hu : u ∈ subtrees t) : Cached base u :=
  fun v hv => h v (subtrees_trans hu hv)

theorem Cached.left {r : ATree SchedEntity U64} (h : Cached base (node l e m r)) :
    Cached base l := fun u hu => h u (by simp [subtrees, hu])

theorem Cached.right {r : ATree SchedEntity U64} (h : Cached base (node l e m r)) :
    Cached base r := fun u hu => h u (by simp [subtrees, hu])

theorem Cached.eq_of_le (h : Cached base t) (he : e ∈ t.toList)
    (hm : ∀ e' ∈ t.toList, off base e.deadline ≤ off base e'.deadline) : t.aug? = some e.deadline := by
  obtain ⟨m, ht⟩ := aug_isSome_of_mem he
  obtain ⟨⟨e', he', rfl⟩, hle⟩ := h.root ht
  rw [eq_of_off (le_antisymm (hm e' he') (hle e he))]
  exact ht

theorem searchMinDeadline_eq (h : Cached base t) (hm : t.aug? = some m) :
    ∃ e ∈ t.toList, searchMinDeadline t = some e ∧ e.deadline = m := by
  induction t with
  | nil => cases hm
  | node l se m' r ihl ihr =>
    cases hm
    unfold searchMinDeadline
    by_cases hs : se.deadline = m
    · exact ⟨se, by simp [toList], by rw [if_pos hs], hs⟩
    rw [if_neg hs]
    by_cases hl : l.aug? = some m
    · obtain ⟨e, he, hf, hd⟩ := ihl h.left hl
      exact ⟨e, by simp [toList, he], by rw [if_pos hl, hf], hd⟩
    rw [if_neg hl]
    -- the minimum is neither here nor on the left, so it is on the right
    obtain ⟨⟨e, he, rfl⟩, hle⟩ := h.root (m := m) rfl
    have her : e ∈ r.toList := by
      simp only [toList, List.mem_append, List.mem_cons] at he
      rcases he with he | rfl | he
      · exact absurd (h.left.eq_of_le he fun e' he' => hle e' (by simp [toList, he'])) hl
      · exact absurd rfl hs
      · exact he
    obtain ⟨e', he', hf, hd⟩ := ihr h.right (h.right.eq_of_le her fun e' he' => hle e' (by simp [toList, he']))
    exact ⟨e', by simp [toList, he'], hf, hd⟩

/-! ## The first loop -/

/-- What the first loop has found in `t` when it ends with `best'` and `left'`, having come in with `best` and `left`:
both are as good as before, what is new is eligible, and one of them is as good as any eligible entity of `t`. -/
structure Found (base : U64) (eligible : SchedEntity → Bool) (t : ATree SchedEntity U64) (best : Option SchedEntity)
    (left : Option Branch) (best' : Option SchedEntity) (left' : Option Branch) : Prop where
  best_le : ∀ b ∈ best, ∃ b' ∈ best', off base b'.deadline ≤ off base b.deadline
  left_le : ∀ b ∈ left, ∃ b' ∈ left', off base b'.2 ≤ off base b.2
  best_mem : ∀ b ∈ best', b ∈ best ∨ b ∈ t.toList ∧ eligible b = true
  left_mem : ∀ b ∈ left', b ∈ left ∨ b.1 ∈ subtrees t ∧ b.2 ∈ b.1.aug? ∧ ∀ e ∈ b.1.toList, eligible e = true
  covers : ∀ e ∈ t.toList, eligible e = true → (∃ b ∈ best', off base b.deadline ≤ off base e.deadline) ∨
    ∃ b ∈ left', off base b.2 ≤ off base e.deadline
  best_some : left'.isSome = true → left.isSome = true ∨ best'.isSome = true

variable {eligible : SchedEntity → Bool} {best : Option SchedEntity} {left : Option Branch}

section

variable {α : Type} {old : Option α} {a : α}

theorem earlier_cases (field : α → U64) (old : Option α) (a : α) :
    earlier field old a = a ∨ earlier field old a ∈ old := by
  unfold earlier
  split
  · exact .inl rfl
  · split
    · exact .inl rfl
    · exact .inr rfl

theorem earlier_le (field : α → U64) (ha : Within base (field a)) (ho : ∀ b ∈ old, Within base (field b)) :
    off base (field (earlier field old a)) ≤ off base (field a) ∧
      ∀ b ∈ old, off base (field (earlier field old a)) ≤ off base (field b) := by
  cases old with
  | none => exact ⟨le_rfl, by simp⟩
  | some b =>
    have h := ahead_iff_off (ho b rfl) ha
    simp only [earlier, Option.mem_some_iff, forall_eq']
    split
    · rename_i hc
      exact ⟨le_rfl, (h.1 hc).le⟩
    · rename_i hc
      exact ⟨not_lt.1 (mt h.2 hc), le_rfl⟩

end

/-- All deadlines that are compared lie in the window. -/
structure InWindow (base : U64) (t : ATree SchedEntity U64) (best : Option SchedEntity) (left : Option Branch) :
    Prop where
  tree : ∀ e ∈ t.toList, Within base e.deadline
  best : ∀ b ∈ best, Within base b.deadline
  left : ∀ b ∈ left, Within base b.2

theorem InWindow.tree_left {l r : ATree SchedEntity U64} {se : SchedEntity}
    (hw : InWindow base (node l se m r) best left) :
    ∀ e ∈ l.toList, Within base e.deadline :=
  fun e he => hw.tree e (by simp [toList, he])

theorem Cached.within (h : Cached base t) (hw : ∀ e ∈ t.toList, Within base e.deadline) (hm : t.aug? = some m) :
    Within base m := by
  obtain ⟨⟨e, he, rfl⟩, -⟩ := h.root hm
  exact hw e he

theorem passLeft_mem {b : Branch} (h : b ∈ passLeft left l) : b ∈ left ∨ b.1 = l ∧ b.2 ∈ l.aug? := by
  unfold passLeft at h
  split at h
  · exact .inl h
  · rename_i ml hl
    cases h
    rcases earlier_cases Prod.snd left (l, ml) with e | e
    · rw [e]; exact .inr ⟨rfl, hl⟩
    · exact .inl e

/-- The remembered left branch is as early as the one before and as the one passed. -/
theorem passLeft_le (hl : Cached base l) (hw : ∀ e ∈ l.toList, Within base e.deadline)
    (ho : ∀ b ∈ left, Within base b.2) : (∀ b ∈ left, ∃ b' ∈ passLeft left l, off base b'.2 ≤ off base b.2) ∧
      ∀ m ∈ l.aug?, ∃ b' ∈ passLeft left l, off base b'.2 ≤ off base m := by
  unfold passLeft
  split
  · rename_i hn
    exact ⟨fun b hb => ⟨b, hb, le_rfl⟩, by simp [hn]⟩
  · rename_i ml hm
    obtain ⟨h₁, h₂⟩ := earlier_le Prod.snd (a := (l, ml)) (hl.within hw hm) ho
    refine ⟨fun b hb => ⟨_, rfl, h₂ b hb⟩, fun m hm' => ⟨_, rfl, ?_⟩⟩
    rw [hm] at hm'
    cases hm'
    exact h₁

section

variable {l r : ATree SchedEntity U64} {se : SchedEntity} {m : U64}

section

variable (h : Cached base (node l se m r)) (hw : InWindow base (node l se m r) best left)
  (hs : eligible se = true) (hl : ∀ e ∈ l.toList, eligible e = true)

include h hw hs hl

/-- The loop stops at an eligible node whose minimum is at hand. -/
theorem Found.stop (hm : l.aug? = some m ∨ se.deadline = m) :
    Found base eligible (node l se m r) best left (some (earlier SchedEntity.deadline best se)) (passLeft left l) := by
  obtain ⟨hb₁, hb₂⟩ := earlier_le deadline (hw.tree se (by simp [toList])) hw.best
  obtain ⟨hl₁, hl₂⟩ := passLeft_le h.left hw.tree_left hw.left
  obtain ⟨-, hle⟩ := h.root (m := m) rfl
  refine ⟨fun b hb => ⟨_, rfl, hb₂ b hb⟩, hl₁, ?_, ?_, ?_, fun _ => .inr rfl⟩
  · rintro b ⟨⟩
    rcases earlier_cases deadline best se with e | e
    · exact .inr (by rw [e]; exact ⟨by simp [toList], hs⟩)
    · exact .inl e
  · intro b hb
    rcases passLeft_mem hb with hb | ⟨rfl, hb⟩
    · exact .inl hb
    · exact .inr ⟨by simp [subtrees, mem_subtrees_self hb], hb, hl⟩
  · intro e he _
    rcases hm with hm | hm
    · obtain ⟨b, hb, hbe⟩ := hl₂ m hm
      exact .inr ⟨b, hb, hbe.trans (hle e he)⟩
    · refine .inl ⟨_, rfl, hb₁.trans ?_⟩
      rw [hm]
      exact hle e he

/-- The loop goes on into the right branch of an eligible node. -/
theorem Found.goRight {best' : Option SchedEntity} {left' : Option Branch}
    (hf : Found base eligible r (some (earlier SchedEntity.deadline best se)) (passLeft left l) best' left') :
    Found base eligible (node l se m r) best left best' left' := by
  obtain ⟨hb₁, hb₂⟩ := earlier_le deadline (hw.tree se (by simp [toList])) hw.best
  obtain ⟨hl₁, hl₂⟩ := passLeft_le h.left hw.tree_left hw.left
  obtain ⟨b', hb', hbe⟩ := hf.best_le _ rfl
  refine ⟨fun b hb => ⟨b', hb', hbe.trans (hb₂ b hb)⟩, ?_, ?_, ?_, ?_, fun _ => .inr ?_⟩
  · intro b hb
    obtain ⟨b₁, h₁, e₁⟩ := hl₁ b hb
    obtain ⟨b₂, h₂, e₂⟩ := hf.left_le b₁ h₁
    exact ⟨b₂, h₂, e₂.trans e₁⟩
  · intro b hb
    rcases hf.best_mem b hb with hb | ⟨hb, he⟩
    · cases hb
      rcases earlier_cases deadline best se with e | e
      · exact .inr (by rw [e]; exact ⟨by simp [toList], hs⟩)
      · exact .inl e
    · exact .inr ⟨by simp [toList, hb], he⟩
  · intro b hb
    rcases hf.left_mem b hb with hb | ⟨hb, he⟩
    · rcases passLeft_mem hb with hb | ⟨rfl, hb⟩
      · exact .inl hb
      · exact .inr ⟨by simp [subtrees, mem_subtrees_self hb], hb, hl⟩
    · exact .inr ⟨by simp [subtrees, hb], he⟩
  · intro e he hee
    simp only [toList, List.mem_append, List.mem_cons] at he
    rcases he with he | rfl | he
    · -- the left branch that was remembered is as early as `e`
      obtain ⟨m', hm'⟩ := aug_isSome_of_mem he
      obtain ⟨b₁, h₁, e₁⟩ := hl₂ m' hm'
      obtain ⟨b₂, h₂, e₂⟩ := hf.left_le b₁ h₁
      obtain ⟨-, hle⟩ := h.left.root hm'
      exact .inr ⟨b₂, h₂, (e₂.trans e₁).trans (hle e he)⟩
    · exact .inl ⟨b', hb', hbe.trans hb₁⟩
    · exact hf.covers e he hee
  · exact Option.isSome_iff_exists.2 ⟨b', hb'⟩

end

/-- The loop goes left of a node that is not eligible: nothing to the right of it is eligible. -/
theorem Found.goLeft {best' : Option SchedEntity}
    {left' : Option Branch} (hs : ¬ eligible se = true) (hr : ∀ e ∈ r.toList, eligible e = true → eligible se = true)
    (hf : Found base eligible l best left best' left') : Found base eligible (node l se m r) best left best' left' := by
  refine ⟨hf.best_le, hf.left_le, ?_, ?_, ?_, hf.best_some⟩
  · intro b hb
    exact (hf.best_mem b hb).imp_right fun h => ⟨by simp [toList, h.1], h.2⟩
  · intro b hb
    exact (hf.left_mem b hb).imp_right fun h => ⟨by simp [subtrees, h.1], h.2⟩
  · intro e he hee
    simp only [toList, List.mem_append, List.mem_cons] at he
    rcases he with he | rfl | he
    · exact hf.covers e he hee
    · exact absurd hee hs
    · exact absurd (hr e he hee) hs

end

/-- The first loop is right for a predicate that holds of a first part of the tree. -/
theorem searchEligible_found (h : Cached base t) (hw : InWindow base t best left)
    (hp : t.toList.Pairwise fun a b => eligible b = true → eligible a = true) :
    Found base eligible t best left (searchEligible eligible t best left).1 (searchEligible eligible t best left).2 := by
  induction t generalizing best left with
  | nil =>
    exact ⟨fun b hb => ⟨b, hb, le_rfl⟩, fun b hb => ⟨b, hb, le_rfl⟩, fun b hb => .inl hb, fun b hb => .inl hb,
      by simp [toList], fun h => .inl h⟩
  | node l se m r ihl ihr =>
    simp only [toList, List.pairwise_append, List.pairwise_cons, List.mem_cons] at hp
    obtain ⟨hpl, ⟨hsr, hpr⟩, hlr⟩ := hp
    have hwr : ∀ e ∈ r.toList, Within base e.deadline := fun e he => hw.tree e (by simp [toList, he])
    by_cases hs : eligible se = true
    · have hl : ∀ e ∈ l.toList, eligible e = true := fun e he => hlr e he se (.inl rfl) hs
      by_cases hm : l.aug? = some m ∨ se.deadline = m
      · simp only [searchEligible, hs, hm, if_true]
        exact Found.stop h hw hs hl hm
      · simp only [searchEligible, hs, hm, if_true, if_false]
        refine Found.goRight h hw hs hl (ihr h.right ⟨hwr, ?_, ?_⟩ hpr)
        · rintro b ⟨⟩
          rcases earlier_cases deadline best se with e | e
          · rw [e]; exact hw.tree se (by simp [toList])
          · exact hw.best _ e
        · intro b hb
          rcases passLeft_mem hb with hb | ⟨-, hb⟩
          · exact hw.left b hb
          · exact h.left.within hw.tree_left hb
    · simp only [searchEligible, hs, Bool.false_eq_true, if_false]
      exact Found.goLeft hs hsr (ihl h.left ⟨hw.tree_left, hw.best, hw.left⟩ hpl)

/-- What is returned after the first loop is as early as the best entity and the best left branch. -/
theorem Found.pickBetween {best' : Option SchedEntity} {left' : Option Branch} (h : Cached base t)
    (hw : InWindow base t best none) (hf : Found base eligible t best none best' left')
    (he : e ∈ best ∨ e ∈ t.toList ∧ eligible e = true) :
    ∃ se, pickBetween best' left' = some se ∧ (se ∈ best ∨ se ∈ t.toList ∧ eligible se = true) ∧
      (∀ b ∈ best', off base se.deadline ≤ off base b.deadline) ∧
      ∀ b ∈ left', off base se.deadline ≤ off base b.2 := by
  have hwb : ∀ b ∈ best', Within base b.deadline := by
    intro b hb
    rcases hf.best_mem b hb with hb | ⟨hb, -⟩
    · exact hw.best b hb
    · exact hw.tree b hb
  cases left' with
  | none =>
    -- `e` itself shows that the loop has found something
    have hs : ∃ b, b ∈ best' := by
      rcases he with he | ⟨he, hee⟩
      · obtain ⟨b, hb, -⟩ := hf.best_le e he
        exact ⟨b, hb⟩
      · rcases hf.covers e he hee with ⟨b, hb, -⟩ | ⟨b, hb, -⟩
        · exact ⟨b, hb⟩
        · cases hb
    obtain ⟨b, hb⟩ := hs
    cases hb
    exact ⟨b, rfl, hf.best_mem b rfl, by simp, by simp⟩
  | some left =>
    obtain ⟨b, hb⟩ := Option.isSome_iff_exists.1 ((hf.best_some rfl).resolve_left (by simp))
    subst hb
    obtain ⟨hsub, haug, hall⟩ := (hf.left_mem left rfl).resolve_left (by simp)
    have hcl := h.subtree hsub
    have hwl : Within base left.2 := hcl.within (fun e he => hw.tree e (mem_of_subtree hsub e he)) haug
    have hah := ahead_iff_off hwl (hwb b rfl)
    by_cases hc : ahead left.2 b.deadline = true
    · refine ⟨b, by simp [Fair.pickBetween, hc], hf.best_mem b rfl, by simp, ?_⟩
      rintro b' ⟨⟩
      exact (hah.1 hc).le
    · obtain ⟨se, hse, hfind, hd⟩ := searchMinDeadline_eq hcl haug
      refine ⟨se, by simp [Fair.pickBetween, hc, hfind], .inr ⟨mem_of_subtree hsub se hse, hall se hse⟩, ?_, ?_⟩
      · rintro b' ⟨⟩
        rw [hd]
        exact not_lt.1 (mt hah.2 hc)
      · rintro b' ⟨⟩
        rw [hd]

/-- And so it is as early as every eligible entity. -/
theorem Found.le_of_eligible {best' : Option SchedEntity} {left' : Option Branch} {se : SchedEntity}
    (hf : Found base eligible t best none best' left') (hb : ∀ b ∈ best', off base se.deadline ≤ off base b.deadline)
    (hl : ∀ b ∈ left', off base se.deadline ≤ off base b.2) (he : e ∈ best ∨ e ∈ t.toList ∧ eligible e = true) :
    off base se.deadline ≤ off base e.deadline := by
  rcases he with he | ⟨he, hee⟩
  · obtain ⟨b, hb', hle⟩ := hf.best_le e he
    exact (hb b hb').trans hle
  · rcases hf.covers e he hee with ⟨b, hb', hle⟩ | ⟨b, hb', hle⟩
    · exact (hb b hb').trans hle
    · exact (hl b hb').trans hle

end

/-! ## Eligibility -/

open Weighted

/-- The distance of an entity from `min_vruntime`, as a number. -/
def CfsRq.key (cfs : CfsRq) (e : SchedEntity) : ℤ := (cfs.entityKey e).toInt

def SchedEntity.weightNat (e : SchedEntity) : ℕ := e.seWeight.toNat

theorem CfsRq.ofInt_key (cfs : CfsRq) (e : SchedEntity) : BitVec.ofInt 64 (cfs.key e) = cfs.entityKey e :=
  BitVec.ofInt_toInt

theorem SchedEntity.ofInt_weightNat (e : SchedEntity) : BitVec.ofInt 64 e.weightNat = e.seWeight := by
  simp [weightNat]

open SchedEntity (weightNat ofInt_weightNat)

theorem scaleLoadDown_ne_one (w : U64) : (scaleLoadDown w).toNat ≠ 1 := by
  unfold scaleLoadDown
  split
  · simp
  · split
    · simp
    · rename_i h
      rw [BitVec.lt_def] at h
      have : (2 : U64).toNat = 2 := rfl
      omega

theorem total_ne_one : ∀ es : List SchedEntity, total weightNat es ≠ 1
  | [] => by simp [total]
  | e :: es => by
    have h₁ : e.weightNat ≠ 1 := scaleLoadDown_ne_one _
    have h₂ := total_ne_one es
    have h₃ : 0 ≤ total weightNat es := total_nonneg es
    rw [total_cons]
    omega

theorem weightSum_ofInt (es : List SchedEntity) : weightSum es = BitVec.ofInt 64 (total weightNat es) := by
  induction es with
  | nil => rfl
  | cons e es ih =>
    rw [weightSum_cons, total_cons, BitVec.ofInt_add, ← ih, ofInt_weightNat]

theorem keySum_ofInt (cfs : CfsRq) (es : List SchedEntity) :
    keySum cfs.minVruntime es = BitVec.ofInt 64 (wsum cfs.key weightNat es) := by
  induction es with
  | nil => rfl
  | cons e es ih =>
    rw [keySum_cons, wsum_cons, BitVec.ofInt_add, BitVec.ofInt_mul, ← ih, ofInt_weightNat, ofInt_key]
    rfl

theorem CfsRq.Averaged.avgAndLoad_eq {cfs : CfsRq} (h : cfs.Averaged) : cfs.avgAndLoad =
    (BitVec.ofInt 64 (wsum cfs.key weightNat cfs.runnable),
      BitVec.ofInt 64 (total weightNat cfs.runnable)) := by
  rw [← keySum_ofInt, ← weightSum_ofInt]
  unfold avgAndLoad runnable
  split
  · rename_i c hc
    rw [hc]
    split
    · rename_i ho
      simp [Option.filter, ho, h.load, h.sum, entityKey, add_comm]
    · rename_i ho
      simp [Option.filter, ho, h.load, h.sum]
  · rename_i hc
    simp [hc, h.load, h.sum]

/-- A runqueue as `__pick_eevdf` expects it. The total weight times any key fits in a signed word. -/
structure Pickable (cfs : CfsRq) : Prop where
  sorted : cfs.tasksTimeline.entities.Pairwise fun a b => entityBefore b a = false
  minDeadline : ∀ u ∈ subtrees cfs.tasksTimeline.root, ∀ m ∈ u.aug?, Least m (u.toList.map SchedEntity.deadline)
  averaged : cfs.Averaged
  window : Windowed (cfs.runnable.map SchedEntity.deadline)
  fits : ∀ e ∈ cfs.runnable, -2 ^ 63 ≤ cfs.key e * total weightNat cfs.runnable ∧
    cfs.key e * total weightNat cfs.runnable < 2 ^ 63

theorem half_of_mul_two_le {x t : ℤ} (ht : 2 ≤ t) (h₁ : -2 ^ 63 ≤ x * t) (h₂ : x * t < 2 ^ 63) :
    -2 ^ 62 ≤ x ∧ x < 2 ^ 62 := by
  constructor
  · by_contra hc
    have := mul_le_mul_of_nonpos_left ht (by omega : x ≤ 0)
    omega
  · by_contra hc
    have := mul_le_mul_of_nonneg_left ht (by omega : 0 ≤ x)
    omega

namespace Pickable

variable {cfs : CfsRq} {a b e : SchedEntity}

section

variable (h : Pickable cfs)

include h

/-- The weighted sum lies between the least and the greatest key times the total weight, so it fits too. -/
theorem wsum_fits : -2 ^ 63 ≤ wsum cfs.key weightNat cfs.runnable ∧ wsum cfs.key weightNat cfs.runnable < 2 ^ 63 := by
  rcases (total_nonneg cfs.runnable).eq_or_lt with h0 | hp
  · rw [wsum_of_total_eq_zero h0.symm]
    omega
  · have hlo := le_wsum (fun e he => (h.fits e he).1) hp
    have hb : ∀ e ∈ cfs.runnable, cfs.key e * total weightNat cfs.runnable ≤ 2 ^ 63 - 1 := by
      intro e he
      have := (h.fits e he).2
      omega
    have hhi := wsum_le hb hp
    omega

theorem eligible_iff (he : e ∈ cfs.runnable) : cfs.entityEligible e = true ↔
    cfs.key e * total weightNat cfs.runnable ≤ wsum cfs.key weightNat cfs.runnable := by
  have hkey : InS64 (cfs.key e * total weightNat cfs.runnable) := h.fits e he
  have hsum : InS64 (wsum cfs.key weightNat cfs.runnable) := h.wsum_fits
  have hp : (cfs.entityKey e * BitVec.ofInt 64 (total weightNat cfs.runnable)).toInt =
      cfs.key e * total weightNat cfs.runnable := by
    rw [← ofInt_key, ← BitVec.ofInt_mul, hkey.toInt_ofInt]
  rw [entityEligible, h.averaged.avgAndLoad_eq, decide_eq_true_iff, hp, hsum.toInt_ofInt]

/-- With a total weight of two or more, a key that fits times the weight fits twice. -/
theorem key_bound (ht : 2 ≤ total weightNat cfs.runnable) (he : e ∈ cfs.runnable) :
    -2 ^ 62 ≤ cfs.key e ∧ cfs.key e < 2 ^ 62 := by
  obtain ⟨h₁, h₂⟩ := h.fits e he
  exact half_of_mul_two_le ht h₁ h₂

theorem key_le (ht : 2 ≤ total weightNat cfs.runnable) (ha : a ∈ cfs.runnable)
    (hb : b ∈ cfs.runnable) (hab : entityBefore b a = false) : cfs.key a ≤ cfs.key b := by
  obtain ⟨a₁, a₂⟩ := h.key_bound ht ha
  obtain ⟨b₁, b₂⟩ := h.key_bound ht hb
  rw [← Bool.not_eq_true, entityBefore, before_iff, ← sub_sub_sub_cancel_right b.vruntime a.vruntime cfs.minVruntime,
    BitVec.toInt_sub] at hab
  have hm : (cfs.key b - cfs.key a).bmod (2 ^ 64) = cfs.key b - cfs.key a := Int.bmod_eq_of_le (by omega) (by omega)
  have hab' : ¬ (cfs.key b - cfs.key a).bmod (2 ^ 64) < 0 := hab
  omega

theorem eligible_of_before (ha : a ∈ cfs.runnable) (hb : b ∈ cfs.runnable)
    (hab : entityBefore b a = false) (he : cfs.entityEligible b = true) : cfs.entityEligible a = true := by
  rw [h.eligible_iff hb] at he
  rw [h.eligible_iff ha]
  have hn : 0 ≤ total weightNat cfs.runnable := total_nonneg _
  rcases hn.eq_or_lt with h0 | hp
  · rw [← h0] at he ⊢
    simpa using he
  · have ht : 2 ≤ total weightNat cfs.runnable := by
      have := total_ne_one cfs.runnable
      omega
    exact (mul_le_mul_of_nonneg_right (h.key_le ht ha hb hab) hn).trans he

theorem exists_eligible (hr : cfs.runnable ≠ []) : ∃ e ∈ cfs.runnable, cfs.entityEligible e = true := by
  rcases (total_nonneg cfs.runnable).eq_or_lt with h0 | hp
  · obtain ⟨e, he⟩ := List.exists_mem_of_ne_nil _ hr
    refine ⟨e, he, (h.eligible_iff he).2 ?_⟩
    rw [wsum_of_total_eq_zero h0.symm, ← h0]
    simp
  · obtain ⟨e, he, hle⟩ := exists_le_wsum (k := cfs.key) hp
    exact ⟨e, he, (h.eligible_iff he).2 hle⟩

end

/-! ## The pick -/

theorem mem_eligibleCurr {c : SchedEntity} (hc : c ∈ cfs.eligibleCurr) :
    c ∈ cfs.runnable ∧ cfs.entityEligible c = true := by
  obtain ⟨hc, hp⟩ := Option.filter_eq_some_iff.1 hc
  rw [Bool.and_eq_true] at hp
  refine ⟨List.mem_append_left _ ?_, hp.2⟩
  rw [Option.mem_toList, Option.filter_eq_some_iff]
  exact ⟨hc, hp.1⟩

theorem mem_runnable_cases (he : e ∈ cfs.runnable) (hel : cfs.entityEligible e = true) :
    e ∈ cfs.eligibleCurr ∨ e ∈ cfs.tasksTimeline.root.toList ∧ cfs.entityEligible e = true := by
  rcases List.mem_append.1 he with he | he
  · rw [Option.mem_toList, Option.filter_eq_some_iff] at he
    exact .inl (Option.filter_eq_some_iff.2 ⟨he.1, by simp [he.2, hel]⟩)
  · exact .inr ⟨he, hel⟩

/-- What the two loops return: an eligible entity with the least deadline, whenever there is an eligible one. -/
theorem pick_least {cfg : Config} (h : Pickable cfs) (hp : cfs.runsToParity cfg = false) (hr : cfs.runnable ≠ []) :
    ∃ se, cfs.__pickEevdf cfg = some se ∧ se ∈ cfs.runnable ∧
      cfs.entityEligible se = true ∧
      ∀ e' ∈ cfs.runnable, cfs.entityEligible e' = true → ahead se.deadline e'.deadline = false := by
  obtain ⟨e, he, hel⟩ := h.exists_eligible hr
  obtain ⟨base, hw⟩ := h.window
  have hw : ∀ e ∈ cfs.runnable, Within base e.deadline := List.forall_mem_map.1 hw
  have hq : ∀ e ∈ cfs.tasksTimeline.root.toList, e ∈ cfs.runnable := fun e he => List.mem_append_right _ he
  have hcached : Cached base cfs.tasksTimeline.root := by
    intro u hu m hm
    have hwu : ∀ x ∈ u.toList.map deadline, Within base x :=
      List.forall_mem_map.2 fun e he => hw e (hq e (mem_of_subtree hu e he))
    obtain ⟨h₁, h₂⟩ := (least_iff_off hwu).1 (h.minDeadline u hu m hm)
    exact ⟨by simpa using h₁, fun e he => h₂ _ (List.mem_map_of_mem he)⟩
  have hin : InWindow base cfs.tasksTimeline.root cfs.eligibleCurr none :=
    ⟨fun e he => hw e (hq e he), fun b hb => hw b (mem_eligibleCurr hb).1, by simp⟩
  have hfound := searchEligible_found hcached hin
    (h.sorted.imp_of_mem fun ha hb hab => h.eligible_of_before (hq _ ha) (hq _ hb) hab)
  obtain ⟨se, hse, hmem, hb, hl⟩ := hfound.pickBetween hcached hin (mem_runnable_cases he hel)
  have hsr : se ∈ cfs.runnable ∧ cfs.entityEligible se = true := by
    rcases hmem with hm | ⟨hm, hee⟩
    · exact mem_eligibleCurr hm
    · exact ⟨hq se hm, hee⟩
  refine ⟨se, ?_, hsr.1, hsr.2, ?_⟩
  · rw [CfsRq.__pickEevdf, hp]
    exact hse
  · intro e' he' hee'
    have hle := hfound.le_of_eligible hb hl (mem_runnable_cases he' hee')
    rw [← Bool.not_eq_true, ahead_iff_off (hw se hsr.1) (hw e' he')]
    exact not_lt.2 hle

end Pickable

/-- On a runqueue with something to run, `__pick_eevdf` returns an eligible entity with a deadline no later than any
other's, unless `RUN_TO_PARITY` keeps the current one; and `pick_eevdf` never falls back to the leftmost entity. -/
theorem pick_eevdf_least {cfg : Config} {cfs : CfsRq} (h : Pickable cfs) :
    (cfs.runsToParity cfg = false → cfs.runnable ≠ [] → ∃ se, cfs.__pickEevdf cfg = some se ∧ se ∈ cfs.runnable ∧
      cfs.entityEligible se = true ∧
      ∀ e ∈ cfs.runnable, cfs.entityEligible e = true → ahead se.deadline e.deadline = false) ∧
    cfs.pickEevdf cfg = (cfs.__pickEevdf cfg, false) := by
  refine ⟨h.pick_least, ?_⟩
  unfold pickEevdf
  cases hpick : cfs.__pickEevdf cfg with
  | some se => rfl
  | none =>
    -- nothing is picked only if nothing is runnable, and then the tree is empty
    have hq : cfs.tasksTimeline.entities = [] := by
      by_contra hne
      cases hp : cfs.runsToParity cfg with
      | false =>
        obtain ⟨se, hse, -⟩ := h.pick_least hp fun hr => hne (List.append_eq_nil_iff.1 hr).2
        rw [hse] at hpick
        cases hpick
      | true =>
        rw [CfsRq.__pickEevdf, hp, if_pos rfl] at hpick
        simp [runsToParity, hpick] at hp
    cases hl : cfs.__pickFirstEntity with
    | none => rfl
    | some left =>
      obtain ⟨id, -, hf⟩ := Option.bind_eq_some_iff.1 hl
      have hm := (Timeline.find_mem hf).1
      rw [hq] at hm
      cases hm

/-- Two queued entities and a current one, all of one weight, with vruntimes 10, 20 and 15. -/
def threeRunnable : CfsRq where
  curr := some { newEntity 3 with onRq := true, vruntime := 15, deadline := 50 }
  tasksTimeline :=
    { root := .node .nil { newEntity 1 with onRq := true, vruntime := 10, deadline := 40 } 30
        (.node .nil { newEntity 2 with onRq := true, vruntime := 20, deadline := 30 } 30 .nil)
      leftmost := some 1 }
  avgVruntime := 30 * 1024
  avgLoad := 2 * 1024
  minVruntime := 0
  nrRunning := 3
  load := 3 * nice0Load

/-- The queued entity with the earliest deadline is not eligible, so the other one is picked. -/
theorem pick_eevdf_of_three : Pickable threeRunnable ∧ threeRunnable.runsToParity .default = false ∧
    (threeRunnable.__pickEevdf .default).map SchedEntity.id = some 1 ∧
    threeRunnable.pickEevdf .default = (threeRunnable.__pickEevdf .default, false) := by
  have h : Pickable threeRunnable := by
    refine ⟨by decide, ?_, ⟨by decide, by decide⟩, by decide, by decide⟩
    intro u hu m hm
    simp only [threeRunnable, subtrees, List.mem_append, List.mem_cons, List.not_mem_nil, or_false, false_or] at hu
    rcases hu with rfl | rfl
    · cases hm; decide
    · cases hm; decide
  exact ⟨h, by decide, by decide, (pick_eevdf_least h).2⟩

end KernelSched.Fair
