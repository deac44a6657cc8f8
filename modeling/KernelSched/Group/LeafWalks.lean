import KernelSched.Group.Throttles

/-!
# Throttling and the leaf list

Throttling takes everything under a group off the list. Unthrottling goes through the same groups from below and puts
them back as one branch, each behind its children (`Woken`).
-/

namespace KernelSched.Group

open Rooted Links List
open List (mem_append mem_filter mem_append_left mem_append_right getLast? mem_singleton mem_cons_self mem_cons_of_mem)

namespace Rq

variable {T : Tree} {s r u v w : Rq} {b c g x y : Nat} {K : Prop} {cs br br₁ br₂ rest l l₁ l₂ : List Nat} {e : Entity}

/-! ## Down -/

theorem filter_not_mem_cons (l v : List Nat) (y : Nat) :
    (l.filter fun x => decide (x ≠ y)).filter (fun x => decide (x ∉ v)) = l.filter fun x => decide (x ∉ y :: v) := by
  rw [filter_filter]
  refine filter_congr fun x _ => ?_
  simp only [mem_cons, not_or, ne_eq, Bool.decide_and, Bool.and_comm]

/-- `tg_throttle_down` at one group. -/
theorem tgThrottleDown_spec (hh : s.leaf.Hangs br rest) (hfree : ∀ x ∈ br ++ rest, (s.cfs x).throttleCount = 0)
    (y : Nat) :
    (s.tgThrottleDown y).leaf.Hangs (br.filter fun x => decide (x ≠ y)) (rest.filter fun x => decide (x ≠ y)) ∧
      ∀ x, ((s.tgThrottleDown y).cfs x).throttleCount = (s.cfs x).throttleCount + if x = y then 1 else 0 := by
  unfold tgThrottleDown
  by_cases h0 : (s.cfs y).throttleCount = 0
  · rw [if_pos h0]
    refine ⟨hh.del y, fun x => ?_⟩
    rw [upd_cfs]
    split
    · rfl
    · exact (add_zero _).symm
  · rw [if_neg h0]
    obtain ⟨hbr, hrest⟩ := not_or.1 (mt mem_append.2 (mt (hfree y) h0))
    refine ⟨by rw [filter_ne_of_not_mem hbr, filter_ne_of_not_mem hrest]; exact hh, fun x => ?_⟩
    rw [upd_cfs]
    split
    · rfl
    · exact (add_zero _).symm

theorem foldl_throttleDown (l : List Nat) (hl : l.Nodup) (hh : s.leaf.Hangs br rest)
    (hfree : ∀ x ∈ br ++ rest, (s.cfs x).throttleCount = 0) :
    (l.foldl (fun s x => s.tgThrottleDown x) s).leaf.Hangs (br.filter fun x => decide (x ∉ l))
        (rest.filter fun x => decide (x ∉ l)) ∧
      ∀ x, ((l.foldl (fun s x => s.tgThrottleDown x) s).cfs x).throttleCount =
        (s.cfs x).throttleCount + if x ∈ l then 1 else 0 := by
  induction l generalizing s br rest with
  | nil => exact ⟨by simpa using hh, fun x => by simp⟩
  | cons y l ih =>
    obtain ⟨hy, hl⟩ := nodup_cons.1 hl
    obtain ⟨hh', hcount⟩ := tgThrottleDown_spec hh hfree y
    obtain ⟨hleaf, hc⟩ := ih hl hh' fun x hx => by
      rw [← filter_append, mem_filter] at hx
      have hne : x ≠ y := by simpa using hx.2
      rw [hcount, if_neg hne, hfree x hx.1, add_zero]
    rw [foldl_cons]
    refine ⟨by rw [← filter_not_mem_cons, ← filter_not_mem_cons]; exact hleaf, fun x => ?_⟩
    rw [hc, hcount]
    by_cases hx : x = y
    · subst hx
      simp [hy]
    · simp [hx]

section

variable (h : Hung T K cs br rest s) (hg : g < T.size) (hoff : (s.cfs g).throttled = false) (hbr : ∀ x ∈ br, g ∈ T.path x)
  (hq : Quiet (T.walk tgThrottleDown (fun _ s => s) g s) v)

include h hg hoff hbr hq

/-- `throttle_cfs_rq` but for the loops, which the list does not notice. All of the branch lies under `g`. -/
theorem Hung.throttle :
    Hung T K [] [] (rest.filter fun x => decide (g ∉ T.path x)) (v.upd g fun q => { q with throttled := true }) ∧
      ∀ x, x < T.size → (v.cfs x).throttleCount = (s.cfs x).throttleCount + if g ∈ T.path x then 1 else 0 := by
  have hmem : ∀ x, x < T.size → (x ∈ T.preorder T.size g ↔ g ∈ T.path x) := by
    intro x hx
    rw [T.mem_preorder (n := T.size) hg (by omega)]
    simp [hx]
  have hsame := walk_down_same (T := T) (s := s) g
  rw [Tree.walk, T.walkAux_down] at hq hsame
  obtain ⟨hleaf, hcount⟩ := foldl_throttleDown (T.preorder T.size g) (T.preorder_nodup hg (by omega)) h.hangs h.free
  have hv : ∀ x, x < T.size → (v.cfs x).throttleCount = (s.cfs x).throttleCount + if g ∈ T.path x then 1 else 0 := by
    intro x hx
    rw [hq.throttleCount, hcount]
    simp only [hmem x hx]
  -- the branch is gone, and so is all else under `g`
  have hnil : br.filter (fun x => decide (x ∉ T.preorder T.size g)) = [] := by
    refine filter_eq_nil_iff.2 fun x hx => ?_
    simpa using (hmem x (h.lt x (mem_append_left _ hx))).2 (hbr x hx)
  have hrest : rest.filter (fun x => decide (x ∉ T.preorder T.size g)) = rest.filter fun x => decide (g ∉ T.path x) :=
    filter_congr fun x hx => by rw [decide_eq_decide, hmem x (h.lt x (mem_append_right _ hx))]
  rw [hnil, hrest, ← hq.leaf] at hleaf
  have hset : ∀ x, ((v.upd g fun q => { q with throttled := true }).cfs x).throttled =
      if x = g then true else (s.cfs x).throttled := by
    intro x
    obtain ⟨n, hn⟩ := hsame.cfs x
    rw [upd_cfs]
    split
    · rfl
    · rw [hq.throttled, hn]
  have hkeep : ∀ x, ((v.upd g fun q => { q with throttled := true }).cfs x).throttleCount = (v.cfs x).throttleCount := by
    intro x
    rw [upd_cfs]
    split <;> rfl
  refine ⟨⟨hleaf, fun x hx => ?_, fun x hx => ?_, fun x hx => ?_, by simp, fun hne => absurd rfl hne,
    fun hK x hx hx0 => ?_⟩, hv⟩
  · exact h.lt x (mem_append_right _ (mem_of_mem_filter hx))
  · rw [hkeep, hv x hx, throttles_set hoff hset, h.count x hx]
    push_cast
    rfl
  · obtain ⟨hx, hgx⟩ := mem_filter.1 hx
    have hx := mem_append_right br hx
    rw [hkeep, hv x (h.lt x hx), h.free x hx, if_neg (by simpa using hgx), add_zero]
  · obtain ⟨hx, hgx⟩ := mem_filter.1 hx
    have hgx : g ∉ T.path x := by simpa using hgx
    have hgp : g ∉ T.path (T.parent x) := fun hp => hgx (T.mem_path_trans hp (T.parent_mem_path hx0))
    have hb := (h.order hK x (mem_append_right _ hx) hx0).resolve_right fun hbr' => hgx (hbr x hbr'.1)
    have hb := hb.filter (p := fun x => decide (g ∉ T.path x)) (by simpa using hgx) (by simpa using hgp)
    rw [filter_append, filter_eq_nil_iff.2 fun y hy => by simpa using hbr y hy] at hb
    exact .inl hb

theorem Covers.throttle
    (hcov : ∀ x, x < T.size → g ∉ T.path x → 0 < (s.cfs x).counts.nrRunning → (s.cfs x).throttleCount = 0 →
      s.leaf.onList x = true) : (v.upd g fun q => { q with throttled := true }).Covers T := by
  obtain ⟨hh, hcount⟩ := h.throttle hg hoff hbr hq
  intro x hx hnr hzero
  have hfields : (v.cfs x).counts.nrRunning = ((v.upd g fun q => { q with throttled := true }).cfs x).counts.nrRunning ∧
      (v.cfs x).throttleCount = ((v.upd g fun q => { q with throttled := true }).cfs x).throttleCount := by
    rw [upd_cfs]
    split <;> exact ⟨rfl, rfl⟩
  rw [← hfields.1] at hnr
  rw [← hfields.2, hcount x hx, h.count x hx] at hzero
  have hgx : g ∉ T.path x := fun hgx => by
    rw [if_pos hgx] at hzero
    omega
  rw [if_neg hgx, add_zero, ← h.count x hx] at hzero
  have hpos : 0 < (s.cfs x).counts.nrRunning := by
    obtain ⟨n, hn⟩ := (walk_down_same (T := T) (s := s) g).cfs x
    have hle := hq.nr x
    rw [hn] at hle
    exact hnr.trans_le hle
  have hon := (h.hangs.mem x).1 (hcov x hx hgx hpos hzero)
  refine (hh.hangs.mem x).2 (mem_filter.2 ⟨(mem_append.1 hon).resolve_left fun hbr' => hgx (hbr x hbr'), ?_⟩)
  simpa using hgx

end

/-! ## Up -/

def Below (T : Tree) (l : List Nat) (x : Nat) : Prop := x < T.size ∧ ∃ c ∈ l, c ∈ T.path x

/-- The walk up from the groups in `l` has added `br₁` to the branch `br`. -/
structure Woken (T : Tree) (l br rest br₁ : List Nat) (s u : Rq) : Prop where
  same : Same s u
  hangs : u.leaf.Hangs (br ++ br₁) rest
  waked : ∀ x, Below T l x → (u.cfs x).throttleCount = (s.cfs x).throttleCount - 1
  other : ∀ x, ¬ Below T l x → (u.cfs x).throttleCount = (s.cfs x).throttleCount
  below : ∀ x ∈ br₁, Below T l x
  free : ∀ x ∈ br₁, (u.cfs x).throttleCount = 0
  covers : ∀ x, Below T l x → 0 < (s.cfs x).counts.nrRunning → (u.cfs x).throttleCount = 0 → x ∈ br₁
  last : br₁ ≠ [] → ∃ c ∈ l, br₁.getLast? = some c
  order : ∀ x ∈ br₁, Before br₁ x (T.parent x) ∨ x ∈ l

theorem Woken.refl (hh : s.leaf.Hangs br rest) : Woken T [] br rest [] s s where
  same := Same.refl
  hangs := by simpa using hh
  waked := by rintro x ⟨-, c, hc, -⟩; cases hc
  other := fun _ _ => rfl
  below := nofun
  free := nofun
  covers := by rintro x ⟨-, c, hc, -⟩; cases hc
  last := fun h => absurd rfl h
  order := nofun

theorem Woken.trans (h : Woken T l₁ br rest br₁ s u) (h' : Woken T l₂ (br ++ br₁) rest br₂ u v)
    (hdis : ∀ x, Below T l₁ x → ¬ Below T l₂ x) : Woken T (l₁ ++ l₂) br rest (br₁ ++ br₂) s v := by
  have hsplit : ∀ x, Below T (l₁ ++ l₂) x ↔ Below T l₁ x ∨ Below T l₂ x := by
    intro x
    simp only [Below, mem_append]
    constructor
    · rintro ⟨hx, c, hc | hc, hcx⟩
      · exact .inl ⟨hx, c, hc, hcx⟩
      · exact .inr ⟨hx, c, hc, hcx⟩
    · rintro (⟨hx, c, hc, hcx⟩ | ⟨hx, c, hc, hcx⟩)
      · exact ⟨hx, c, .inl hc, hcx⟩
      · exact ⟨hx, c, .inr hc, hcx⟩
  have hnr : ∀ x, (u.cfs x).counts.nrRunning = (s.cfs x).counts.nrRunning := by
    intro x
    obtain ⟨n, hn⟩ := h.same.cfs x
    rw [hn]
  refine ⟨h.same.trans h'.same, by rw [← append_assoc]; exact h'.hangs, fun x hx => ?_, fun x hx => ?_, fun x hx => ?_,
    fun x hx => ?_, fun x hx hpos hzero => ?_, fun hne => ?_, fun x hx => ?_⟩
  · rcases (hsplit x).1 hx with hx | hx
    · rw [h'.other x (hdis x hx), h.waked x hx]
    · rw [h'.waked x hx, h.other x fun hx' => hdis x hx' hx]
  · obtain ⟨hx₁, hx₂⟩ := not_or.1 (mt (hsplit x).2 hx)
    rw [h'.other x hx₂, h.other x hx₁]
  · rcases mem_append.1 hx with hx | hx
    · exact (hsplit x).2 (.inl (h.below x hx))
    · exact (hsplit x).2 (.inr (h'.below x hx))
  · rcases mem_append.1 hx with hx | hx
    · rw [h'.other x (hdis x (h.below x hx)), h.free x hx]
    · exact h'.free x hx
  · rcases (hsplit x).1 hx with hx | hx
    · rw [h'.other x (hdis x hx)] at hzero
      exact mem_append_left _ (h.covers x hx hpos hzero)
    · exact mem_append_right _ (h'.covers x hx (by rw [hnr]; exact hpos) hzero)
  · by_cases hbr₂ : br₂ = []
    · subst hbr₂
      rw [append_nil] at hne ⊢
      obtain ⟨c, hc, hlast⟩ := h.last hne
      exact ⟨c, mem_append_left _ hc, hlast⟩
    · obtain ⟨c, hc, hlast⟩ := h'.last hbr₂
      exact ⟨c, mem_append_right _ hc, by rw [List.getLast?_append, hlast]; rfl⟩
  · rcases mem_append.1 hx with hx | hx
    · exact (h.order x hx).imp (fun hb => hb.mono (sublist_append_left _ _)) fun hl => mem_append_left _ hl
    · exact (h'.order x hx).imp (fun hb => hb.mono (sublist_append_right _ _)) fun hl => mem_append_right _ hl

/-- All under `g` is off the list, and counts one throttled group that is not any more. -/
def Asleep (T : Tree) (g : Nat) (s : Rq) : Prop :=
  ∀ x, x < T.size → g ∈ T.path x → (s.cfs x).throttleCount = s.throttles T x + 1 ∧ s.leaf.onList x = false

/-- A runqueue without load is empty. -/
def Weighty (s : Rq) : Prop := ∀ x, 0 < (s.cfs x).counts.nrRunning → (s.cfs x).counts.load ≠ 0

theorem Weighty.same (h : s.Weighty) (hs : Same s u) : u.Weighty := by
  intro x
  obtain ⟨n, hn⟩ := hs.cfs x
  rw [hn]
  exact h x

theorem Same.throttles (h : Same s u) (g : Nat) : u.throttles T g = s.throttles T g :=
  throttles_congr (fun x => by obtain ⟨n, hn⟩ := h.cfs x; rw [hn]) g

theorem Asleep.woken (h : Asleep T c s) (hw : Woken T l br rest br₁ s u) (hh : s.leaf.Hangs br rest)
    (hdis : ∀ x, x < T.size → c ∈ T.path x → ¬ Below T l x) : Asleep T c u := by
  intro x hx hcx
  obtain ⟨hcount, hoff⟩ := h x hx hcx
  refine ⟨by rw [hw.other x (hdis x hx hcx), hw.same.throttles, hcount], ?_⟩
  rw [hh.not_mem] at hoff
  rw [hw.hangs.not_mem]
  obtain ⟨hbr, hrest⟩ := not_or.1 (mt mem_append.2 hoff)
  simp only [mem_append, not_or]
  exact ⟨⟨hbr, fun hbr₁ => hdis x hx hcx (hw.below x hbr₁)⟩, hrest⟩

/-- A group is looked at after its children: if one of them is on the list now, then the group is not taken for
decayed. -/
theorem Woken.not_decayed (o : Env) (hw : Woken T (T.children g) br rest br₁ s u) (hne : br₁ ≠ [])
    (hoff : u.leaf.onList g = false) : u.cfsRqIsDecayed T o g = false := by
  obtain ⟨c, hc, hlast⟩ := hw.last hne
  obtain ⟨-, hc0, hp⟩ := T.mem_children.1 hc
  have htmp : u.leaf.tmp = some c := by rw [hw.hangs.tmp, List.getLast?_append, hlast]; rfl
  have hseen : u.leaf.childCfsRqOnList T o g = true := by
    rw [LeafList.childCfsRqOnList, LeafList.inspected, if_neg (by simp [hoff]), htmp]
    simp [hc0, hp]
  simp [cfsRqIsDecayed, hseen]

theorem below_singleton (hg : g < T.size) : Below T [g] x ↔ x = g ∨ Below T (T.children g) x := by
  constructor
  · rintro ⟨hx, c, hc, hgx⟩
    obtain rfl := mem_singleton.1 hc
    by_cases hxc : x = c
    · exact .inl hxc
    · exact .inr ⟨hx, T.exists_child hx hgx hxc⟩
  · rintro (rfl | ⟨hx, c, hc, hcx⟩)
    · exact ⟨hg, x, mem_singleton_self x, T.mem_path_self⟩
    · exact ⟨hx, g, mem_singleton_self g, T.mem_path_of_child hc hcx⟩

theorem not_below_children : ¬ Below T (T.children g) g := by
  rintro ⟨-, c, hc, hcg⟩
  exact (T.lt_of_mem_child_path hc hcg).false

theorem Below.ne (h : Below T (T.children g) x) : x ≠ g := fun heq => not_below_children (heq ▸ h)

theorem Below.mem_path (h : Below T (T.children g) x) : g ∈ T.path x := by
  obtain ⟨-, c, hc, hcx⟩ := h
  exact T.mem_path_of_child hc hcx

/-- The runqueue of `g` with one throttled group less above it. -/
def wake (g : Nat) (s : Rq) : Rq := s.upd g fun q => { q with throttleCount := q.throttleCount - 1 }

theorem wake_count (x : Nat) : ((s.wake g).cfs x).throttleCount = (s.cfs x).throttleCount - if x = g then 1 else 0 := by
  rw [wake, upd_cfs]
  split
  · rfl
  · exact (sub_zero _).symm

theorem wake_count_of_ne (h : x ≠ g) : ((s.wake g).cfs x).throttleCount = (s.cfs x).throttleCount := by
  rw [wake_count, if_neg h, sub_zero]

/-- What `tg_unthrottle_up` does at `g`, after its children. If it leaves the group off the list, none of the children
is there, and the group has nothing to run or is still throttled. -/
theorem Woken.visit (o : Env) (hw : Woken T (T.children g) br rest br₁ s u) (hg : g < T.size) (ha : Asleep T g s)
    (hh : s.leaf.Hangs br rest) (hwt : s.Weighty) :
    ((u.wake g).cfs g).throttleCount = s.throttles T g ∧ g ∉ br ++ br₁ ++ rest ∧
      (((u.wake g).cfs g).throttleCount = 0 ∧ u.tgUnthrottleUp T o g = (u.wake g).listAddLeafCfsRq T g ∨
        br₁ = [] ∧ u.tgUnthrottleUp T o g = u.wake g ∧
          (0 < (s.cfs g).counts.nrRunning → ((u.wake g).cfs g).throttleCount ≠ 0)) := by
  obtain ⟨hcount, hoff⟩ := ha g hg T.mem_path_self
  have hcg : ((u.wake g).cfs g).throttleCount = s.throttles T g := by
    rw [wake_count, if_pos rfl, hw.other g not_below_children, hcount]
    omega
  have hnot : g ∉ br ++ br₁ ++ rest := by
    obtain ⟨hbr, hrest⟩ := not_or.1 (mt mem_append.2 (hh.not_mem.1 hoff))
    simp only [mem_append, not_or]
    exact ⟨⟨hbr, fun hbr₁ => not_below_children (hw.below g hbr₁)⟩, hrest⟩
  have hoffu : (u.wake g).leaf.onList g = false := hw.hangs.not_mem.2 hnot
  refine ⟨hcg, hnot, ?_⟩
  -- a child on the list is not in a throttled hierarchy, and neither is `g`
  have hchild : br₁ ≠ [] → ((u.wake g).cfs g).throttleCount = 0 ∧ (u.wake g).cfsRqIsDecayed T o g = false := by
    intro hne
    refine ⟨?_, ?_⟩
    · obtain ⟨y, hy⟩ := exists_mem_of_ne_nil _ hne
      have hbelow := hw.below y hy
      have hgy := hbelow.mem_path
      have hzero := hw.free y hy
      rw [hw.waked y hbelow, (ha y hbelow.1 hgy).1] at hzero
      rw [hcg]
      exact_mod_cast throttles_mono hgy (s := s) (by omega)
    · have := hw.not_decayed o hne hoffu
      rw [cfsRqIsDecayed] at this ⊢
      rw [wake, upd_cfs_self]
      exact this
  rw [show u.tgUnthrottleUp T o g = if ((u.wake g).cfs g).throttleCount = 0 ∧ (u.wake g).cfsRqIsDecayed T o g = false then
    (u.wake g).listAddLeafCfsRq T g else u.wake g from rfl]
  split
  · next hadd => exact .inl ⟨hadd.1, rfl⟩
  · next hadd =>
    refine .inr ⟨by_contra fun hne => hadd (hchild hne), rfl, fun hpos hzero => hadd ⟨hzero, ?_⟩⟩
    have hload : ((u.wake g).cfs g).counts.load ≠ 0 := by
      obtain ⟨n, hn⟩ := hw.same.cfs g
      rw [wake, upd_cfs_self, hn]
      exact hwt g hpos
    simp [cfsRqIsDecayed, hload]

/-- `tg_unthrottle_up` at a group whose parent is still off the list: it goes behind its children. -/
theorem Woken.up (o : Env) (hw : Woken T (T.children g) br rest br₁ s u) (hg0 : g ≠ 0) (hg : g < T.size)
    (ha : Asleep T g s) (hh : s.leaf.Hangs br rest) (hp : T.parent g ∉ br ++ rest) (hwt : s.Weighty) :
    ∃ br₂, Woken T [g] br rest br₂ s (u.tgUnthrottleUp T o g) := by
  obtain ⟨-, hnot, hcase⟩ := hw.visit o hg ha hh hwt
  have hsame : Same s (u.tgUnthrottleUp T o g) := hw.same.trans (tgUnthrottleUp_same o u g)
  have hself : (u.cfs g).throttleCount = (s.cfs g).throttleCount := hw.other g not_below_children
  have hwaked : ∀ x, Below T [g] x → ((u.wake g).cfs x).throttleCount = (s.cfs x).throttleCount - 1 := by
    intro x hx
    rcases (below_singleton hg).1 hx with rfl | hx
    · rw [wake_count, if_pos rfl, hself]
    · rw [wake_count_of_ne hx.ne, hw.waked x hx]
  have hother : ∀ x, ¬ Below T [g] x → ((u.wake g).cfs x).throttleCount = (s.cfs x).throttleCount := by
    intro x hx
    obtain ⟨hne, hx⟩ := not_or.1 (mt (below_singleton hg).2 hx)
    rw [wake_count_of_ne hne, hw.other x hx]
  rcases hcase with ⟨hzero, heq⟩ | ⟨rfl, heq, hidle⟩
  · have hlt := T.parent_lt hg0
    have hpar : T.parent g ∉ br ++ br₁ ++ rest := by
      obtain ⟨hbr, hrest⟩ := not_or.1 (mt mem_append.2 hp)
      simp only [mem_append, not_or]
      refine ⟨⟨hbr, fun hbr₁ => ?_⟩, hrest⟩
      obtain ⟨-, c, hc, hcp⟩ := hw.below _ hbr₁
      exact (T.lt_of_mem_child_path hc hcp).not_gt hlt
    obtain ⟨hh', -⟩ := LeafList.Hangs.add_alone (T := T) hw.hangs hg0 hnot hpar
    rw [append_assoc] at hh'
    rw [heq] at hsame ⊢
    refine ⟨br₁ ++ [g], hsame, hh', hwaked, hother, fun x hx => ?_, fun x hx => ?_, fun x hx hpos hz => ?_,
      fun _ => ⟨g, by simp, by simp⟩, fun x hx => ?_⟩
    · rcases mem_append.1 hx with hx | hx
      · exact (below_singleton hg).2 (.inr (hw.below x hx))
      · exact (below_singleton hg).2 (.inl (mem_singleton.1 hx))
    · rcases mem_append.1 hx with hx | hx
      · exact (wake_count_of_ne (hw.below x hx).ne).trans (hw.free x hx)
      · rw [mem_singleton.1 hx]
        exact hzero
    · rcases (below_singleton hg).1 hx with rfl | hx
      · simp
      · exact mem_append_left _ (hw.covers x hx hpos ((wake_count_of_ne hx.ne).symm.trans hz))
    · rcases mem_append.1 hx with hx₁ | hxg
      · rcases hw.order x hx₁ with hb | hc
        · exact .inl (hb.mono (sublist_append_left _ _))
        · obtain ⟨-, -, rfl⟩ := T.mem_children.1 hc
          exact .inl (before_append hx₁ mem_cons_self)
      · exact .inr hxg
  · rw [heq] at hsame ⊢
    refine ⟨[], hsame, hw.hangs, hwaked, hother, nofun, nofun, fun x hx hpos hz => ?_, fun hne => absurd rfl hne, nofun⟩
    rcases (below_singleton hg).1 hx with rfl | hx
    · exact absurd hz (hidle hpos)
    · exact hw.covers x hx hpos ((wake_count_of_ne hx.ne).symm.trans hz)

/-- The walks through some children of `g`, one after the other. -/
theorem foldl_woken {f : Nat → Rq → Rq} (hl : l.Nodup) (hc : ∀ c ∈ l, c ∈ T.children g)
    (hf : ∀ c ∈ l, ∀ (s : Rq) (br : List Nat), Asleep T c s → s.leaf.Hangs br rest → g ∉ br ++ rest → s.Weighty →
      ∃ br₁, Woken T [c] br rest br₁ s (f c s))
    (ha : ∀ c ∈ l, Asleep T c s) (hh : s.leaf.Hangs br rest) (hg : g ∉ br ++ rest) (hwt : s.Weighty) :
    ∃ br₁, Woken T l br rest br₁ s (l.foldl (fun s c => f c s) s) := by
  induction l generalizing s br with
  | nil => exact ⟨[], .refl hh⟩
  | cons c l ih =>
    obtain ⟨hcl, hl⟩ := nodup_cons.1 hl
    have hchild := hc c mem_cons_self
    obtain ⟨-, hc0, hp⟩ := T.mem_children.1 hchild
    have hlt := T.parent_lt hc0
    obtain ⟨br₁, hw⟩ := hf c mem_cons_self s br (ha c mem_cons_self) hh hg hwt
    -- what is under another child is not under `c`
    have hdis : ∀ d ∈ l, ∀ x, d ∈ T.path x → ¬ Below T [c] x := by
      rintro d hd x hdx ⟨-, c', hc', hcx⟩
      obtain rfl := mem_singleton.1 hc'
      obtain rfl := T.child_unique hchild (hc d (mem_cons_of_mem _ hd)) hcx hdx
      exact hcl hd
    have hgoff : g ∉ br ++ br₁ ++ rest := by
      obtain ⟨hbr, hrest⟩ := not_or.1 (mt mem_append.2 hg)
      simp only [mem_append, not_or]
      refine ⟨⟨hbr, fun hbr₁ => ?_⟩, hrest⟩
      obtain ⟨-, c', hc', hcg⟩ := hw.below g hbr₁
      obtain rfl := mem_singleton.1 hc'
      have := T.le_of_mem_path hcg
      omega
    obtain ⟨br₂, hw'⟩ := ih hl (fun d hd => hc d (mem_cons_of_mem _ hd))
      (fun d hd => hf d (mem_cons_of_mem _ hd))
      (fun d hd => (ha d (mem_cons_of_mem _ hd)).woken hw hh fun x _ hdx => hdis d hd x hdx)
      hw.hangs hgoff (hwt.same hw.same)
    refine ⟨br₁ ++ br₂, hw.trans hw' fun x hx => ?_⟩
    rintro ⟨-, d, hd, hdx⟩
    exact hdis d hd x hdx hx

theorem Asleep.child (h : Asleep T g s) (hc : c ∈ T.children g) : Asleep T c s := by
  exact fun x hx hcx => h x hx (T.mem_path_of_child hc hcx)

/-- The walk through the children of `g`, given the walks through each of them. -/
theorem children_woken {f : Nat → Rq → Rq} (hf : ∀ c ∈ T.children g, ∀ (s : Rq) (br : List Nat), Asleep T c s →
      s.leaf.Hangs br rest → g ∉ br ++ rest → s.Weighty → ∃ br₁, Woken T [c] br rest br₁ s (f c s))
    (hg : g < T.size) (ha : Asleep T g s) (hh : s.leaf.Hangs br rest) (hwt : s.Weighty) :
    ∃ br₁, Woken T (T.children g) br rest br₁ s ((T.children g).foldl (fun s c => f c s) s) :=
  foldl_woken T.children_nodup (fun _ hc => hc) hf (fun _ hc => ha.child hc) hh
    (hh.not_mem.1 (ha g hg T.mem_path_self).2) hwt

/-- The walk up from a group whose parent is off the list. -/
theorem walkAux_woken (o : Env) (n : Nat) (hg0 : g ≠ 0) (hg : g < T.size) (hn : T.size ≤ n + g) (ha : Asleep T g s)
    (hh : s.leaf.Hangs br rest) (hp : T.parent g ∉ br ++ rest) (hwt : s.Weighty) :
    ∃ br₁, Woken T [g] br rest br₁ s (T.walkAux (fun _ s => s) (tgUnthrottleUp T o) n g s) := by
  induction n generalizing g s br with
  | zero => omega
  | succ n ih =>
    have hchild : ∀ c ∈ T.children g, ∀ (s : Rq) (br : List Nat), Asleep T c s → s.leaf.Hangs br rest → g ∉ br ++ rest →
        s.Weighty → ∃ br₁, Woken T [c] br rest br₁ s (T.walkAux (fun _ s => s) (tgUnthrottleUp T o) n c s) := by
      intro c hc s br ha hh hgoff hwt
      obtain ⟨hcs, hc0, hcp⟩ := T.mem_children.1 hc
      have hlt := T.lt_of_child hc
      exact ih hc0 hcs (by omega) ha hh (by rw [hcp]; exact hgoff) hwt
    obtain ⟨br₁, hw⟩ := children_woken hchild hg ha hh hwt
    exact hw.up o hg0 hg ha hh hp hwt

/-- The walks up from the children of `g`. -/
theorem children_walk_woken (o : Env) (n : Nat) (hg : g < T.size) (hn : T.size ≤ n + 1 + g) (ha : Asleep T g s)
    (hh : s.leaf.Hangs br rest) (hwt : s.Weighty) : ∃ br₁, Woken T (T.children g) br rest br₁ s
      ((T.children g).foldl (fun s c => T.walkAux (fun _ s => s) (tgUnthrottleUp T o) n c s) s) := by
  refine children_woken (fun c hc s br ha hh hgoff hwt => ?_) hg ha hh hwt
  obtain ⟨hcs, hc0, hcp⟩ := T.mem_children.1 hc
  have hlt := T.lt_of_child hc
  exact walkAux_woken o n hc0 hcs (by omega) ha hh (by rw [hcp]; exact hgoff) hwt

/-! ## Unthrottling -/

theorem Hung.asleep (h : Hung T K [] [] rest s) (ht : (s.cfs g).throttled = true) :
    Asleep T g (s.upd g fun q => { q with throttled := false }) ∧
      ∀ x, s.throttles T x = (s.upd g fun q => { q with throttled := false }).throttles T x + if g ∈ T.path x
          then 1 else 0 := by
  generalize hr : (s.upd g fun q => { q with throttled := false }) = r
  have hmore : ∀ x, s.throttles T x = r.throttles T x + if g ∈ T.path x then 1 else 0 := by
    refine throttles_set (by rw [← hr, upd_cfs_self]) fun x => ?_
    rw [← hr, upd_cfs]
    split
    · next hx => rw [hx, ht]
    · rfl
  refine ⟨fun x hx hgx => ?_, hmore⟩
  have hcount : (s.cfs x).throttleCount = r.throttles T x + 1 := by
    rw [h.count x hx, hmore, if_pos hgx]
    rfl
  refine ⟨?_, ?_⟩
  · rw [← hcount, ← hr, upd_cfs]
    split <;> rfl
  · rw [← hr]
    refine h.hangs.not_mem.2 fun hmem => ?_
    have := h.free x hmem
    omega

/-- When the children of `g` are back on the list, they are a branch below `g`. -/
theorem Woken.hung (hw : Woken T (T.children g) [] rest br₁ s u) (hh : s.leaf.Hangs [] rest) (ha : Asleep T g s)
    (hg : g < T.size) (hlt : ∀ x ∈ rest, x < T.size) (hfree : ∀ x ∈ rest, (s.cfs x).throttleCount = 0)
    (hcount : ∀ x, x < T.size → g ∉ T.path x → (s.cfs x).throttleCount = s.throttles T x)
    (horder : K → ∀ x ∈ rest, x ≠ 0 → Before rest x (T.parent x))
    (hcg : ((u.wake g).cfs g).throttleCount = s.throttles T g)
    (hnot : g ∉ br₁ ++ rest) : Hung T K (g :: T.above g) br₁ rest (u.wake g) := by
  have hthrottles : ∀ x, (u.wake g).throttles T x = s.throttles T x := by
    intro x
    rw [← hw.same.throttles (T := T) x]
    refine throttles_congr (fun y => ?_) x
    rw [wake, upd_cfs]
    split <;> rfl
  have hne : ∀ x ∈ br₁ ++ rest, x ≠ g := fun x hx => ne_of_mem_of_not_mem hx hnot
  have haside : ∀ x ∈ rest, ¬ Below T (T.children g) x := by
    intro x hx hbelow
    exact hh.not_mem.1 (ha x (hlt x hx) hbelow.mem_path).2 hx
  refine ⟨hw.hangs, fun x hx => ?_, fun x hx => ?_, fun x hx => ?_, fun x hx c hc => ?_, fun _ => ⟨g, rfl, hnot⟩,
    fun hK x hx hx0 => ?_⟩
  · rcases mem_append.1 hx with hx | hx
    · exact (hw.below x hx).1
    · exact hlt x hx
  · rw [hthrottles]
    by_cases hxg : x = g
    · rw [hxg, hcg]
    · rw [wake_count_of_ne hxg]
      by_cases hbelow : Below T (T.children g) x
      · rw [hw.waked x hbelow, (ha x hx hbelow.mem_path).1]
        omega
      · rw [hw.other x hbelow]
        exact hcount x hx fun hgx => ((below_singleton hg).1 ⟨hx, g, mem_singleton_self g, hgx⟩).elim hxg hbelow
  · rw [wake_count_of_ne (hne x hx)]
    rcases mem_append.1 hx with hx | hx
    · exact hw.free x hx
    · rw [hw.other x (haside x hx), hfree x hx]
  · obtain rfl := Option.some.inj hc
    exact ⟨(hw.below x hx).mem_path, hne x (mem_append_left _ hx)⟩
  · rcases mem_append.1 hx with hx | hx
    · rcases hw.order x hx with hb | hc
      · exact .inl (hb.mono (sublist_append_left _ _))
      · obtain ⟨-, -, hp⟩ := T.mem_children.1 hc
        exact .inr ⟨hx, by rw [hp]; rfl⟩
    · exact .inl ((horder hK x hx hx0).mono (sublist_append_right _ _))

/-- After the walk of `unthrottle_cfs_rq`, what was put on the list is a branch below the parent. -/
theorem Hung.unthrottle (o : Env) (h : Hung T K [] [] rest s) (hcov : s.Covers T) (hwt : s.Weighty) (hg : g < T.size)
    (ht : (s.cfs g).throttled = true) :
    ∃ br' rest', Hung T K (T.above g) br' rest' (T.walk (fun _ s => s) (tgUnthrottleUp T o) g
        (s.upd g fun q => { q with throttled := false })) ∧
      (T.walk (fun _ s => s) (tgUnthrottleUp T o) g (s.upd g fun q => { q with throttled := false })).Covers T ∧
        (g ∉ br' ++ rest' → br' = []) := by
  obtain ⟨ha, hmore⟩ := h.asleep ht
  have hrcfs : ∀ x, ((s.upd g fun q => { q with throttled := false }).cfs x).counts = (s.cfs x).counts ∧
      ((s.upd g fun q => { q with throttled := false }).cfs x).throttleCount = (s.cfs x).throttleCount := by
    intro x
    rw [upd_cfs]
    split <;> exact ⟨rfl, rfl⟩
  have hh : (s.upd g fun q => { q with throttled := false }).leaf.Hangs [] rest := h.hangs
  generalize (s.upd g fun q => { q with throttled := false }) = r at *
  have hwtr : r.Weighty := fun x => by rw [(hrcfs x).1]; exact hwt x
  obtain ⟨n, hn⟩ : ∃ n, T.size = n + 1 := ⟨T.size - 1, by omega⟩
  obtain ⟨br₁, hw⟩ := children_walk_woken o n hg (by omega) ha hh hwtr
  have hwalk : T.walk (fun _ s => s) (tgUnthrottleUp T o) g r =
      ((T.children g).foldl (fun s c => T.walkAux (fun _ s => s) (tgUnthrottleUp T o) n c s) r).tgUnthrottleUp T o g := by
    rw [Tree.walk, hn]
    rfl
  rw [hwalk]
  generalize (T.children g).foldl (fun s c => T.walkAux (fun _ s => s) (tgUnthrottleUp T o) n c s) r = u at hw
  obtain ⟨hcg, hnot, hcase⟩ := hw.visit o hg ha hh hwtr
  have hung : Hung T K (g :: T.above g) br₁ rest (u.wake g) := by
    refine hw.hung hh ha hg h.lt (fun x hx => (hrcfs x).2.trans (h.free x hx)) (fun x hx hgx => ?_)
      (fun hK x hx hx0 => ?_)
      hcg hnot
    · rw [(hrcfs x).2, h.count x hx, hmore, if_neg hgx]
      rfl
    · exact (h.order hK x hx hx0).resolve_right fun hbr => not_mem_nil hbr.1
  -- all but `g` that should be on the list is there
  have hcovers : ∀ x, x < T.size → x ≠ g → 0 < (u.cfs x).counts.nrRunning → (u.cfs x).throttleCount = 0 →
      x ∈ br₁ ++ rest := by
    intro x hx hxg hpos hzero
    obtain ⟨m, hm⟩ := hw.same.cfs x
    have hpos' : 0 < (r.cfs x).counts.nrRunning := by rwa [hm] at hpos
    by_cases hbelow : Below T (T.children g) x
    · exact mem_append_left _ (hw.covers x hbelow hpos' hzero)
    · rw [hw.other x hbelow, (hrcfs x).2] at hzero
      rw [(hrcfs x).1] at hpos'
      exact mem_append_right _ ((h.hangs.mem x).1 (hcov x hx hpos' hzero))
  have hstay : ∀ x, x ≠ g → (u.wake g).cfs x = u.cfs x := fun x hx => upd_cfs_ne _ _ hx
  rcases hcase with ⟨hzero, heq⟩ | ⟨rfl, heq, hidle⟩
  · obtain ⟨br', rest', hadd, hmem, hold, -⟩ := hung.add hg hzero
    rw [heq]
    refine ⟨br', rest', hadd, fun x hx hpos hz => (hadd.hangs.mem x).2 ?_, fun hoff => absurd hmem hoff⟩
    by_cases hxg : x = g
    · exact hxg ▸ hmem
    · have hx' : ((u.wake g).listAddLeafCfsRq T g).cfs x = u.cfs x := hstay x hxg
      rw [hx'] at hpos hz
      exact hold x (hcovers x hx hxg hpos hz)
  · rw [heq]
    refine ⟨[], rest, hung.closed _, fun x hx hpos hz => (hung.hangs.mem x).2 ?_, fun _ => rfl⟩
    by_cases hxg : x = g
    · subst hxg
      refine absurd hz (hidle ?_)
      obtain ⟨m, hm⟩ := hw.same.cfs x
      rw [wake, upd_cfs_self, hm] at hpos
      exact hpos
    · rw [hstay x hxg] at hpos hz
      exact hcovers x hx hxg hpos hz

end Rq

end KernelSched.Group
