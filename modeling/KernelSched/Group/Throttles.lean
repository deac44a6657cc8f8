import KernelSched.Group.LeafList
import KernelSched.Group.Falling

/-!
# Throttled hierarchies

`throttle_count` of a group is the number of throttled groups from it up to the root. A runqueue in a throttled hierarchy
is off the leaf list; one with something to run that is not in such a hierarchy is on it (`Covers`). `Hung` is what holds
while a branch is put on the list from below: it also says that a runqueue comes before its parent, given `K`.
-/

namespace KernelSched.Group

open Rooted Links List

namespace Rq

variable {T : Tree} {s r u : Rq} {b c g x y : Nat} {K : Prop} {cs br rest : List Nat} {e : Entity}

/-! ## The number of throttled groups above -/

def throttles (T : Tree) (s : Rq) (g : Nat) : Nat := T.marks (fun x => (s.cfs x).throttled) g

theorem throttles_eq_zero : s.throttles T g = 0 ↔ ∀ x ∈ T.path g, (s.cfs x).throttled = false := T.marks_eq_zero

theorem throttles_mono (h : y ∈ T.path x) (h0 : s.throttles T x = 0) : s.throttles T y = 0 := T.marks_mono h h0

theorem throttles_congr (h : ∀ x, (u.cfs x).throttled = (s.cfs x).throttled) (g : Nat) :
    u.throttles T g = s.throttles T g := by simp only [throttles, h]

theorem throttles_set (hg : (s.cfs g).throttled = false)
    (h : ∀ x, (u.cfs x).throttled = if x = g then true else (s.cfs x).throttled) (x : Nat) :
    u.throttles T x = s.throttles T x + if g ∈ T.path x then 1 else 0 :=
  T.marks_set hg h x

/-! ## What holds while a branch is put on the list -/

/-- A runqueue that has something to run and is not in a throttled hierarchy is on the list. -/
def Covers (T : Tree) (s : Rq) : Prop :=
  ∀ x, x < T.size → 0 < (s.cfs x).counts.nrRunning → (s.cfs x).throttleCount = 0 → s.leaf.onList x = true

/-- The branch `br` has been put on the list, up to below the first of `cs`. -/
structure Hung (T : Tree) (K : Prop) (cs br rest : List Nat) (s : Rq) : Prop where
  hangs : s.leaf.Hangs br rest
  lt : ∀ x ∈ br ++ rest, x < T.size
  count : ∀ x, x < T.size → (s.cfs x).throttleCount = s.throttles T x
  free : ∀ x ∈ br ++ rest, (s.cfs x).throttleCount = 0
  under : ∀ x ∈ br, ∀ c, cs.head? = some c → c ∈ T.path x ∧ x ≠ c
  next : br ≠ [] → ∃ c, cs.head? = some c ∧ c ∉ br ++ rest
  order : K → ∀ x ∈ br ++ rest, x ≠ 0 → Before (br ++ rest) x (T.parent x) ∨ x ∈ br ∧ cs.head? = some (T.parent x)

/-- Between two operations, no branch stands alone. -/
def Tidy (T : Tree) (K : Prop) (s : Rq) : Prop := (∃ rest, Hung T K [] [] rest s) ∧ s.Covers T

theorem Hung.closed (h : Hung T K cs [] rest s) (cs' : List Nat) : Hung T K cs' [] rest s where
  hangs := h.hangs
  lt := h.lt
  count := h.count
  free := h.free
  under := nofun
  next := fun hne => absurd rfl hne
  order := fun hK x hx hx0 => .inl ((h.order hK x hx hx0).resolve_right fun hbr => not_mem_nil hbr.1)

theorem Hung.top (h : Hung T K [] br rest s) : br = [] := by
  by_contra hne
  obtain ⟨c, hc, -⟩ := h.next hne
  cases hc

/-- No branch stands below a runqueue that is on the list, or in a throttled hierarchy. -/
theorem Hung.branch_nil (h : Hung T K (c :: cs) br rest s)
    (hc : c ∈ br ++ rest ∨ c < T.size ∧ (s.cfs c).throttleCount ≠ 0) : br = [] := by
  by_contra hne
  obtain ⟨d, hd, hoff⟩ := h.next hne
  obtain rfl := Option.some.inj hd
  rcases hc with hon | ⟨hlt, hcount⟩
  · exact hoff hon
  · obtain ⟨x, hx⟩ := exists_mem_of_ne_nil _ hne
    have hxmem : x ∈ br ++ rest := mem_append_left _ hx
    have hzero := h.free x hxmem
    rw [h.count x (h.lt x hxmem)] at hzero
    rw [h.count c hlt] at hcount
    exact hcount (by exact_mod_cast throttles_mono (h.under x hx c rfl).1 (by exact_mod_cast hzero))

theorem Hung.congr (h : Hung T K cs br rest s) (hleaf : u.leaf = s.leaf)
    (hthrottled : ∀ x, (u.cfs x).throttled = (s.cfs x).throttled)
    (hcount : ∀ x, (u.cfs x).throttleCount = (s.cfs x).throttleCount) : Hung T K cs br rest u where
  hangs := hleaf ▸ h.hangs
  lt := h.lt
  count := fun x hx => by rw [hcount, h.count x hx, throttles_congr hthrottled]
  free := fun x hx => by rw [hcount, h.free x hx]
  under := h.under
  next := h.next
  order := h.order

/-! ## What the list does not notice -/

/-- From `s` to `u`, no runqueue got more entities, and neither the list nor throttling has changed. -/
structure Quiet (s u : Rq) : Prop where
  leaf : u.leaf = s.leaf
  throttled : ∀ x, (u.cfs x).throttled = (s.cfs x).throttled
  throttleCount : ∀ x, (u.cfs x).throttleCount = (s.cfs x).throttleCount
  nr : ∀ x, (u.cfs x).counts.nrRunning ≤ (s.cfs x).counts.nrRunning

theorem Quiet.refl : Quiet s s := ⟨rfl, fun _ => rfl, fun _ => rfl, fun _ => le_rfl⟩

theorem Quiet.trans (h : Quiet s u) (h' : Quiet u r) : Quiet s r :=
  ⟨h'.leaf.trans h.leaf, fun x => (h'.throttled x).trans (h.throttled x),
    fun x => (h'.throttleCount x).trans (h.throttleCount x), fun x => (h'.nr x).trans (h.nr x)⟩

theorem Quiet.upd (g : Nat) {f : GroupRq → GroupRq} (ht : ∀ q, (f q).throttled = q.throttled)
    (hc : ∀ q, (f q).throttleCount = q.throttleCount) (hn : ∀ q, (f q).counts.nrRunning ≤ q.counts.nrRunning) :
    Quiet s (s.upd g f) := by
  refine ⟨rfl, fun x => ?_, fun x => ?_, fun x => ?_⟩ <;> rw [upd_cfs] <;> split
  · exact ht _
  · rfl
  · exact hc _
  · rfl
  · exact hn _
  · exact le_rfl

theorem Quiet.add (c : Nat) {d : Counts} (hd : d.nrRunning ≤ 0) : Quiet s (s.add c d) := by
  have h := Quiet.upd (s := s) c (f := fun q => { q with counts := q.counts + d }) (fun _ => rfl) (fun _ => rfl)
    fun q => by simpa using hd
  exact ⟨h.leaf, h.throttled, h.throttleCount, h.nr⟩

theorem Quiet.addTasks (c : Nat) (h i : Int) : Quiet s (s.addTasks c h i) := .add c le_rfl

theorem Quiet.addNrRunning (n : Int) : Quiet s (s.addNrRunning n) := ⟨rfl, fun _ => rfl, fun _ => rfl, fun _ => le_rfl⟩

theorem Quiet.noteUnderflow (n : Int) : Quiet s (s.noteUnderflow n) := ⟨rfl, fun _ => rfl, fun _ => rfl, fun _ => le_rfl⟩

theorem Reweighed.quiet (h : Reweighed s u) : Quiet s u := by
  refine ⟨h.leaf, fun x => ?_, fun x => ?_, fun x => ?_⟩ <;> obtain ⟨w, l, hx⟩ := h.cfs x <;> rw [hx]

theorem Moved.quiet (h : Moved c (-1) e false s u) : Quiet s u := by
  refine ⟨h.leaf, h.throttled, h.throttleCount, fun x => ?_⟩
  rw [h.nr]
  split <;> omega

theorem Hung.quiet (h : Hung T K cs br rest s) (hq : Quiet s u) : Hung T K cs br rest u :=
  h.congr hq.leaf hq.throttled hq.throttleCount

theorem Covers.quiet (h : s.Covers T) (hq : Quiet s u) : u.Covers T := by
  intro x hx hnr hcount
  rw [hq.leaf]
  rw [hq.throttleCount] at hcount
  exact h x hx (hnr.trans_le (hq.nr x)) hcount

theorem Tidy.quiet (h : s.Tidy T K) (hq : Quiet s u) : u.Tidy T K := by
  obtain ⟨⟨rest, hh⟩, hc⟩ := h
  exact ⟨⟨rest, hh.quiet hq⟩, hc.quiet hq⟩

/-- From `s` to `u`, the tasks have not changed either. -/
structure Calm (s u : Rq) : Prop extends Quiet s u where
  tasks : u.tasks = s.tasks

theorem Calm.refl : Calm s s := ⟨.refl, rfl⟩

theorem Calm.trans (h : Calm s u) (h' : Calm u r) : Calm s r :=
  ⟨h.toQuiet.trans h'.toQuiet, h'.tasks.trans h.tasks⟩

theorem Calm.addTasks (c : Nat) (h i : Int) : Calm s (s.addTasks c h i) := ⟨.addTasks c h i, rfl⟩

theorem Calm.addNrRunning (n : Int) : Calm s (s.addNrRunning n) := ⟨.addNrRunning n, rfl⟩

theorem updateCfsGroup_calm (o : Env) (c : Nat) (e : Entity) : Calm s (s.updateCfsGroup o c e) :=
  ⟨(updateCfsGroup_reweighed o c e).quiet, (updateCfsGroup_reweighed o c e).tasks⟩

theorem dequeueEntity_tasks (o : Env) (c : Nat) (e : Entity) (s : Rq) :
    (s.dequeueEntity o c e).tasks = (s.setOnRq e false).tasks := by
  rw [dequeueEntity, (updateCfsGroup_calm o c e).tasks]
  rfl

/-! The loops that take tasks out, or add them where the entity already is. -/

theorem secondLoop_calm (o : Env) (h i : Int) (cs : List Nat) (e : Entity) (s : Rq) :
    Calm s (s.secondLoop o h cs e i) := by
  induction cs generalizing e i s with
  | nil => exact .addNrRunning h
  | cons c cs ih =>
    have hstep : Calm s ((s.updateCfsGroup o c e).addTasks c h i) :=
      (updateCfsGroup_calm o c e).trans (.addTasks c h i)
    rw [secondLoop]
    split
    · exact hstep
    · exact hstep.trans (ih _ _ _)

theorem dequeueLoop_quiet (o : Env) (i : Int) (cs : List Nat) (e : Entity) (s : Rq) :
    Quiet s (s.dequeueLoop o cs e i) := by
  induction cs generalizing e i s with
  | nil => exact .addNrRunning (-1)
  | cons c cs ih =>
    have hstep : Quiet s ((s.dequeueEntity o c e).addTasks c (-1) (-i)) :=
      (dequeueEntity_moved o c e).quiet.trans (.addTasks c _ _)
    rw [dequeueLoop]
    split
    · exact hstep
    · split
      · exact hstep.trans (secondLoop_calm o _ _ _ _ _).toQuiet
      · exact hstep.trans (ih _ _ _)

theorem throttleRest_calm (h i : Int) (cs : List Nat) (b : Nat) (s : Rq) : Calm s (s.throttleRest h cs b i) := by
  induction cs generalizing b i s with
  | nil => exact .addNrRunning (-h)
  | cons c cs ih =>
    rw [throttleRest]
    split
    · exact .refl
    · exact (Calm.addTasks c _ _).trans (ih _ _ _)

theorem throttleLoop_calm (o : Env) (h i : Int) (cs : List Nat) (b : Nat) (s : Rq) :
    Calm s (s.throttleLoop o h cs b i) := by
  induction cs generalizing b i s with
  | nil => exact .addNrRunning (-h)
  | cons c cs ih =>
    have hstep : ∀ j, Calm s ((s.dequeueEntity o c (.group b)).addTasks c (-h) j) := fun j =>
      ⟨(dequeueEntity_moved o c (.group b)).quiet.trans (.addTasks c _ _), dequeueEntity_tasks o c (.group b) s⟩
    rw [throttleLoop]
    split
    · exact .refl
    · dsimp only
      split
      · exact (hstep _).trans (throttleRest_calm _ _ _ _ _)
      · exact (hstep _).trans (ih _ _ _)

theorem unthrottleRest_calm (h i : Int) (cs : List Nat) (b : Nat) (s : Rq) : Calm s (s.unthrottleRest h cs b i) := by
  induction cs generalizing b i s with
  | nil => exact .addNrRunning h
  | cons c cs ih =>
    rw [unthrottleRest]
    split
    · exact .addTasks c _ _
    · exact (Calm.addTasks c _ _).trans (ih _ _ _)

theorem setSharesLoop_calm (o : Env) (cs : List Nat) (b : Nat) (s : Rq) : Calm s (s.setSharesLoop o cs b) := by
  induction cs generalizing b s with
  | nil => exact .refl
  | cons c cs ih => exact (updateCfsGroup_calm o c (.group b)).trans (ih _ _)

theorem setIdleLoop_calm (d : Int) (cs : List Nat) (b : Nat) (s : Rq) : Calm s (s.setIdleLoop d cs b) := by
  induction cs generalizing b s with
  | nil => exact .refl
  | cons c cs ih =>
    rw [setIdleLoop]
    split
    · exact .refl
    · dsimp only
      split
      · exact .addTasks c _ _
      · exact (Calm.addTasks c _ _).trans (ih _ _)

theorem setIdleCounts_calm (g : Nat) (s : Rq) : Calm s (s.setIdleCounts T g) := by
  have hadd : ∀ d : Int, Calm s (if (s.cfs g).seOnRq then s.add (T.parent g) ⟨0, 0, d, 0, 0⟩ else s) := by
    intro d
    split
    · exact ⟨.add _ le_rfl, rfl⟩
    · exact .refl
  exact ((hadd _).trans ⟨.noteUnderflow _, rfl⟩).trans (setIdleLoop_calm _ _ _ _)

theorem setShares_calm (o : Env) (g : Nat) (n : Int) (s : Rq) : Calm s (s.__schedGroupSetShares T o g n) := by
  unfold __schedGroupSetShares
  dsimp only
  split
  · exact .refl
  · refine Calm.trans ?_ (setSharesLoop_calm o _ _ _)
    exact ⟨.upd g (fun _ => rfl) (fun _ => rfl) fun _ => le_rfl, rfl⟩

theorem schedGroupSetIdle_calm (o : Env) (g : Nat) (n : Int) (s : Rq) :
    Calm s ((s.schedGroupSetIdle T o g n).getD s) := by
  unfold schedGroupSetIdle
  split
  · exact .refl
  · dsimp only
    split
    · exact .refl
    · have hmark : Calm s (s.markIdle g (decide (n = 1))) :=
        ⟨.upd g (fun _ => rfl) (fun _ => rfl) fun _ => le_rfl, rfl⟩
      refine Calm.trans ?_ (setShares_calm o g _ _)
      split
      · exact hmark
      · exact hmark.trans (setIdleCounts_calm g _)

/-! ## Adding to the branch -/

section

variable (h : Hung T K (c :: T.above c) br rest s) {l : List Nat}

include h

/-! What holds of all members still holds with `c` among them. -/

theorem Hung.lt_with (hc : c < T.size) (hl : ∀ x ∈ l, x = c ∨ x ∈ br ++ rest) : ∀ x ∈ l, x < T.size := by
  intro x hx
  rcases hl x hx with rfl | hx
  · exact hc
  · exact h.lt x hx

theorem Hung.free_with (h0 : (s.cfs c).throttleCount = 0) (hl : ∀ x ∈ l, x = c ∨ x ∈ br ++ rest) :
    ∀ x ∈ l, (s.cfs x).throttleCount = 0 := by
  intro x hx
  rcases hl x hx with rfl | hx
  · exact h0
  · exact h.free x hx

end

theorem Hung.add_root (h : Hung T K (0 :: T.above 0) br rest s) (hT : 0 < T.size) (h0 : (s.cfs 0).throttleCount = 0)
    (hmem : 0 ∉ br ++ rest) : Hung T K (T.above 0) [] (br ++ rest ++ [0]) (s.listAddLeafCfsRq T 0) := by
  obtain ⟨hh, -⟩ := h.hangs.add_root (T := T) hmem
  have hl : ∀ x ∈ [] ++ (br ++ rest ++ [0]), x = 0 ∨ x ∈ br ++ rest := by
    intro x hx
    simp only [nil_append, mem_append, mem_singleton] at hx ⊢
    tauto
  refine ⟨hh, h.lt_with hT hl, h.count, h.free_with h0 hl, nofun, fun hne => absurd rfl hne, fun hK x hx hx0 => .inl ?_⟩
  rcases h.order hK x ((hl x hx).resolve_left hx0) hx0 with hb | ⟨hbr, hp⟩
  · exact hb.mono (sublist_append_left _ _)
  · obtain hp : 0 = T.parent x := Option.some.inj hp
    rw [← hp]
    exact before_append (p := br ++ rest) (mem_append_left _ hbr) mem_cons_self

section

variable (h : Hung T K (c :: T.above c) br rest s) (hc : c < T.size) (h0 : (s.cfs c).throttleCount = 0)

include h hc h0

/-- The parent is on the list: the group is put in front of it, and the branch ends. -/
theorem Hung.add_connected (hc0 : c ≠ 0) (hmem : c ∉ br ++ rest) (hp : T.parent c ∈ br ++ rest) : ∃ rest',
      Hung T K (T.above c) [] rest' (s.listAddLeafCfsRq T c) ∧ c ∈ rest' ∧ ∀ x ∈ br ++ rest, x ∈ rest' := by
  have hlt := T.parent_lt hc0
  have hbr : T.parent c ∉ br := fun hbr => by
    have := T.le_of_mem_path (h.under _ hbr c rfl).1
    omega
  obtain ⟨pre, post, rfl, hh, -⟩ := h.hangs.add_connected hc0 hmem hbr ((mem_append.1 hp).resolve_left hbr)
  have hl : ∀ x ∈ [] ++ (br ++ (pre ++ c :: T.parent c :: post)), x = c ∨ x ∈ br ++ (pre ++ T.parent c :: post) := by
    intro x hx
    simp only [nil_append, mem_append, mem_cons] at hx ⊢
    tauto
  have hsub : (br ++ (pre ++ T.parent c :: post)).Sublist (br ++ (pre ++ c :: T.parent c :: post)) :=
    (List.Sublist.append_left (List.Sublist.append_left (sublist_cons_self _ _) _) _)
  refine ⟨_, ⟨hh, h.lt_with hc hl, h.count, h.free_with h0 hl, nofun, fun hne => absurd rfl hne,
    fun hK x hx hx0 => .inl ?_⟩,
    by simp, fun x hx => hsub.subset hx⟩
  rcases hl x hx with rfl | hx
  · -- `c` stands right in front of its parent
    show Before (br ++ (pre ++ ([x] ++ T.parent x :: post))) x (T.parent x)
    rw [← append_assoc, ← append_assoc]
    exact before_append (by simp) mem_cons_self
  · rcases h.order hK x hx hx0 with hb | ⟨hxbr, hp⟩
    · exact hb.mono hsub
    · obtain rfl : c = T.parent x := Option.some.inj hp
      exact before_append (p := br) hxbr (by simp)

theorem Hung.add_alone (hc0 : c ≠ 0) (hmem : c ∉ br ++ rest) (hp : T.parent c ∉ br ++ rest) :
    Hung T K (T.above c) (br ++ [c]) rest (s.listAddLeafCfsRq T c) := by
  have hlt := T.parent_lt hc0
  have hhead := T.above_head_of_ne hc0
  have hl : ∀ x ∈ br ++ [c] ++ rest, x = c ∨ x ∈ br ++ rest := by
    intro x hx
    simp only [mem_append, mem_singleton] at hx ⊢
    tauto
  refine ⟨(h.hangs.add_alone hc0 hmem hp).1, h.lt_with hc hl, h.count, h.free_with h0 hl, fun x hx d hd => ?_,
    fun _ => ⟨_, hhead, fun hmem => hp ((hl _ hmem).resolve_left (by omega))⟩, fun hK x hx hx0 => ?_⟩
  · obtain ⟨-, rfl⟩ := T.above_head hd
    rcases mem_append.1 hx with hx | hx
    · have hunder := (h.under x hx c rfl).1
      have := T.le_of_mem_path hunder
      exact ⟨T.mem_path_trans (T.parent_mem_path hc0) hunder, by omega⟩
    · obtain rfl := mem_singleton.1 hx
      exact ⟨T.parent_mem_path hc0, by omega⟩
  · by_cases hxc : x = c
    · subst hxc
      exact .inr ⟨by simp, hhead⟩
    · rcases h.order hK x ((hl x hx).resolve_left hxc) hx0 with hb | ⟨hbr, hp⟩
      · refine .inl (hb.mono ?_)
        rw [append_assoc]
        exact List.Sublist.append_left (sublist_append_right _ _) _
      · obtain rfl : c = T.parent x := Option.some.inj hp
        refine .inl ?_
        rw [append_assoc]
        exact before_append hbr (by simp)

/-- `list_add_leaf_cfs_rq` for the runqueue above the branch. -/
theorem Hung.add : ∃ br' rest', Hung T K (T.above c) br' rest' (s.listAddLeafCfsRq T c) ∧ c ∈ br' ++ rest' ∧
      (∀ x ∈ br ++ rest, x ∈ br' ++ rest') ∧ ((s.leaf.listAddLeafCfsRq T c).2 = true → br' = []) := by
  by_cases hmem : c ∈ br ++ rest
  · obtain rfl := h.branch_nil (.inl hmem)
    have hs : s.listAddLeafCfsRq T c = s := by rw [listAddLeafCfsRq, h.hangs.add_mem hmem]
    exact ⟨[], rest, by rw [hs]; exact h.closed _, hmem, fun x hx => hx, fun _ => rfl⟩
  · by_cases hc0 : c = 0
    · subst hc0
      exact ⟨[], _, h.add_root hc h0 hmem, by simp, fun x hx => mem_append_left [0] hx, fun _ => rfl⟩
    · by_cases hp : T.parent c ∈ br ++ rest
      · obtain ⟨rest', hh, hcr, hsub⟩ := h.add_connected hc h0 hc0 hmem hp
        exact ⟨[], rest', hh, hcr, hsub, fun _ => rfl⟩
      · refine ⟨br ++ [c], rest, h.add_alone hc h0 hc0 hmem hp, by simp, fun x hx => ?_, fun ht => ?_⟩
        · simp only [mem_append] at hx ⊢
          tauto
        · rw [(h.hangs.add_alone hc0 hmem hp).2] at ht
          cases ht

end

end Rq

end KernelSched.Group
