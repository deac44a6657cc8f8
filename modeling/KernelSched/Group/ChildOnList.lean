import Mathlib.Data.List.Chain
import KernelSched.Group.LeafOrder

/-!
# Children in front of their parents

`child_cfs_rq_on_list` looks at one node only, the one right in front of a runqueue, or the end of the branch that is
alone. It relies on how the list was built: a runqueue is put right in front of its parent, and taken off after its
children. Where all operations keep to that (`LeafOp.BottomUp`), the list is a walk of the tree with children first: what
comes after a runqueue is under its parent (`Walked`), so nothing is between a runqueue and the last of its children. An
enqueue can put a branch at the front and its top somewhere behind (`splitRun`).
-/

namespace KernelSched.Group

open Rooted Links List Option Rq

/-! ## The operations of the list -/

inductive LeafOp
  | add (g : Nat)
  | del (g : Nat)

namespace LeafOp

variable (T : Tree)

def step : LeafOp → LeafList → Option LeafList
  | add g, L => if g < T.size then some (L.listAddLeafCfsRq T g).1 else none
  | del g, L => some (L.listDelLeafCfsRq g)

/-- A branch that is alone goes on with the parent of its last runqueue, and is connected where that one's parent comes
next on the list. A runqueue is taken off when no child of it is on the list. -/
def BottomUp : LeafOp → LeafList → Prop
  | add g, L => L.onList g = true ∨ ∀ t ∈ L.tmp, T.parent t = g ∧
      (g ≠ 0 → L.onList (T.parent g) = true → prev (T.parent g) L.list = some t)
  | del g, L => ∀ c ∈ T.children g, L.onList c = false

instance : ∀ (op : LeafOp) (L : LeafList), Decidable (op.BottomUp T L)
  | add _, _ => inferInstanceAs (Decidable (_ ∨ _))
  | del _, _ => inferInstanceAs (Decidable (∀ _ ∈ _, _))

end LeafOp

/-! ## What they keep -/

/-- What follows a runqueue on the list is its parent or under its parent, and its parent comes somewhere. -/
structure Walked (T : Tree) (l : List Nat) : Prop where
  lt : ∀ x ∈ l, x < T.size
  chain : l.IsChain fun a b => a ≠ 0 ∧ T.parent a ∈ T.path b
  order : ∀ x ∈ l, x ≠ 0 → Before l x (T.parent x)

/-- The branch goes up to a runqueue that is not on the list, in front of a rest that has all parents. -/
structure Posted (T : Tree) (br rest : List Nat) : Prop where
  lt : ∀ x ∈ br, x < T.size
  branch : br.IsChain fun a b => a ≠ 0 ∧ T.parent a = b
  top : ∀ t ∈ br.getLast?, t ≠ 0 ∧ T.parent t ∉ br ++ rest
  rest : Walked T rest

variable {T : Tree} {L L' : LeafList} {br rest pre post l : List Nat} {a c g t x : Nat}

namespace Walked

theorem zero_mem (h : Walked T l) : x ∈ l → 0 ∈ l := by
  induction x using T.root_induction with
  | zero => exact id
  | step x hx ih => exact fun hmem => ih (h.order x hmem hx).right

/-- From a runqueue under `g` on, all are under `g` until `g` comes. -/
theorem under_of_chain (hl : (c :: l).IsChain fun a b => a ≠ 0 ∧ T.parent a ∈ T.path b) (hg : g ∉ c :: l)
    (hc : g ∈ T.path c) : ∀ x ∈ c :: l, g ∈ T.path x := by
  induction l generalizing c with
  | nil => simpa using hc
  | cons b l ih =>
    obtain ⟨⟨-, hb⟩, hl⟩ := isChain_cons_cons.1 hl
    obtain ⟨hgc, hgl⟩ := not_or.1 (mt mem_cons.2 hg)
    have hup : g ∈ T.path (T.parent c) := ((T.mem_path_iff.1 hc).resolve_left hgc).2
    exact forall_mem_cons.2 ⟨hc, ih hl hgl (T.mem_path_trans hup hb)⟩

/-- Right in front of a runqueue with a child on the list is a child. -/
theorem child_in_front (h : Walked T (pre ++ [a] ++ g :: post)) (hnd : (pre ++ [a] ++ g :: post).Nodup)
    (hc : c ∈ pre ++ [a] ++ g :: post) (hc0 : c ≠ 0) (hcg : T.parent c = g) : a ≠ 0 ∧ T.parent a = g := by
  have hcpre : c ∈ pre ++ [a] := (hcg ▸ h.order c hc hc0).mem_front hnd
  obtain ⟨p, l, hl⟩ := append_of_mem hcpre
  obtain ⟨hfront, -, hnext⟩ := isChain_append.1 h.chain
  rw [hl] at hfront
  have hgpre : g ∉ pre ++ [a] := fun hmem => (nodup_append.1 hnd).2.2 g hmem g mem_cons_self rfl
  have hunder := under_of_chain (isChain_append.1 hfront).2.1
    (fun hmem => hgpre (by rw [hl]; exact mem_append_right _ hmem)) (hcg ▸ T.parent_mem_path hc0)
  have hlast : a ∈ c :: l := by
    have := congrArg getLast? hl
    rw [getLast?_concat, getLast?_append_cons] at this
    exact mem_of_getLast? this.symm
  obtain ⟨ha0, hag⟩ := hnext a (by simp) g (by simp)
  have hga : g ∈ T.path (T.parent a) :=
    ((T.mem_path_iff.1 (hunder a hlast)).resolve_left fun heq => hgpre (by simp [heq])).2
  exact ⟨ha0, le_antisymm (T.le_of_mem_path hag) (T.le_of_mem_path hga)⟩

/-- A runqueue is put right in front of its parent. -/
theorem insert (h : Walked T (pre ++ T.parent g :: post)) (hlt : g < T.size) (hg0 : g ≠ 0) :
    Walked T (pre ++ g :: T.parent g :: post) := by
  obtain ⟨hpre, hpost, hnext⟩ := isChain_append.1 h.chain
  refine ⟨fun x hx => ?_, isChain_append.2 ⟨hpre, isChain_cons_cons.2 ⟨⟨hg0, T.mem_path_self⟩, hpost⟩,
    fun x hx y hy => ?_⟩,
    fun x hx hx0 => ?_⟩
  · rcases mem_append.1 hx with hx | hx
    · exact h.lt x (mem_append_left _ hx)
    · rcases mem_cons.1 hx with rfl | hx
      · exact hlt
      · exact h.lt x (mem_append_right _ hx)
  · obtain rfl : g = y := by simpa using hy
    obtain ⟨hx0, hup⟩ := hnext x hx (T.parent g) (by simp)
    exact ⟨hx0, T.mem_path_trans hup (T.parent_mem_path hg0)⟩
  · by_cases hxg : x = g
    · subst hxg
      exact (Sublist.cons_cons _ (Sublist.cons_cons _ (nil_sublist _))).trans (sublist_append_right ..)
    · have hold : x ∈ pre ++ T.parent g :: post := by simpa [hxg] using hx
      exact (h.order x hold hx0).mono ((sublist_cons_self ..).append_left _)

/-- A runqueue without children on the list is taken off. -/
theorem erase (h : Walked T l) (hnd : l.Nodup) (hno : ∀ x ∈ l, x ≠ 0 → T.parent x ≠ g) :
    Walked T (l.filter fun x => decide (x ≠ g)) := by
  refine ⟨fun x hx => h.lt x (mem_of_mem_filter hx), ?_, fun x hx hx0 => ?_⟩
  · by_cases hg : g ∈ l
    · obtain ⟨pre, post, rfl⟩ := append_of_mem hg
      obtain ⟨-, hgpost, hdis⟩ := nodup_append.1 hnd
      obtain ⟨hpre, hpost, hnext⟩ := isChain_append.1 h.chain
      rw [filter_append, filter_cons_of_neg (by simp), filter_ne_of_not_mem fun hmem => hdis g hmem g mem_cons_self rfl,
        filter_ne_of_not_mem (nodup_cons.1 hgpost).1]
      refine isChain_append.2 ⟨hpre, (isChain_cons.1 hpost).2, fun x hx y hy => ?_⟩
      obtain ⟨hx0, hup⟩ := hnext x hx g (by simp)
      have hne := hno x (mem_append_left _ (mem_of_getLast? hx)) hx0
      exact ⟨hx0, T.mem_path_trans ((T.mem_path_iff.1 hup).resolve_left hne).2 ((isChain_cons.1 hpost).1 y hy).2⟩
    · rw [filter_ne_of_not_mem hg]
      exact h.chain
  · have hmem := mem_of_mem_filter hx
    exact (h.order x hmem hx0).filter (mem_filter.1 hx).2 (decide_eq_true (hno x hmem hx0))

end Walked

namespace Posted

/-- In the branch the parent of a runqueue comes next, but for the last. -/
theorem branch_cases (h : Posted T br rest) (hx : x ∈ br) :
    (∃ pre post, br = pre ++ x :: T.parent x :: post) ∨ br.getLast? = some x := by
  obtain ⟨pre, l, rfl⟩ := append_of_mem hx
  cases l with
  | nil => exact .inr (by simp)
  | cons b post =>
    obtain rfl := (isChain_cons_cons.1 (isChain_append.1 h.branch).2.1).1.2
    exact .inl ⟨pre, post, rfl⟩

/-- The branch is put in front of the parent of its last runqueue. -/
theorem join (h : Posted T br rest) (hl : Walked T (g :: l)) (hup : ∀ t ∈ br.getLast?, T.parent t = g) :
    Walked T (br ++ g :: l) := by
  refine ⟨fun x hx => (mem_append.1 hx).elim (h.lt x) (hl.lt x), isChain_append.2 ⟨?_, hl.chain, fun t ht y hy => ?_⟩,
    fun x hx hx0 => ?_⟩
  · exact h.branch.imp fun a b (hab : a ≠ 0 ∧ T.parent a = b) => ⟨hab.1, hab.2 ▸ T.mem_path_self⟩
  · obtain rfl : g = y := by simpa using hy
    exact ⟨(h.top t ht).1, hup t ht ▸ T.mem_path_self⟩
  · rcases mem_append.1 hx with hx | hx
    · rcases h.branch_cases hx with ⟨p, q, rfl⟩ | hlast
      · exact ((Sublist.cons_cons _ (Sublist.cons_cons _ (nil_sublist _))).trans (sublist_append_right ..)).trans
          (sublist_append_left ..)
      · exact before_append hx (by simp [hup x hlast])
    · exact (hl.order x hx hx0).mono (sublist_append_right ..)

/-- `child_cfs_rq_on_list` is right about a runqueue on the list, if another one is in front of it. -/
theorem seen_of_prev (h : Posted T br rest) (hnd : (br ++ rest).Nodup) (hg : g ∈ br ++ rest)
    (hprev : prev g (br ++ rest) = some a) (hc : c ∈ br ++ rest) (hc0 : c ≠ 0) (hcg : T.parent c = g) :
    a ≠ 0 ∧ T.parent a = g := by
  subst hcg
  rcases mem_append.1 hc with hbr | hrest
  · rcases h.branch_cases hbr with ⟨p, q, rfl⟩ | hlast
    · have heq : prev (T.parent c) (p ++ c :: T.parent c :: q ++ rest) = some c :=
        (prev_eq_some hnd hg).2 ⟨p, q ++ rest, by simp⟩
      obtain rfl := Option.some.inj (hprev.symm.trans heq)
      exact ⟨hc0, rfl⟩
    · exact absurd hg (h.top c hlast).2
  · have hndr := (nodup_append.1 hnd).2.1
    obtain ⟨p, q, rfl⟩ := append_of_mem (h.rest.order c hrest hc0).right
    rcases eq_nil_or_concat' p with rfl | ⟨p, b, rfl⟩
    · cases (h.rest.order c hrest hc0).mem_front hndr
    · have heq : prev (T.parent c) (br ++ (p ++ [b] ++ T.parent c :: q)) = some b :=
        (prev_eq_some hnd hg).2 ⟨br ++ p, q, by simp⟩
      obtain rfl := Option.some.inj (hprev.symm.trans heq)
      exact h.rest.child_in_front hndr hrest hc0 rfl

/-- It is right about a runqueue off the list while a branch is alone. -/
theorem seen_of_top (h : Posted T br rest) (hg : g ∉ br ++ rest) (ht : br.getLast? = some t) (hc : c ∈ br ++ rest)
    (hc0 : c ≠ 0) (hcg : T.parent c = g) : t = c := by
  subst hcg
  rcases mem_append.1 hc with hbr | hrest
  · rcases h.branch_cases hbr with ⟨p, q, rfl⟩ | hlast
    · exact absurd (by simp) hg
    · exact Option.some.inj (ht.symm.trans hlast)
  · exact absurd (mem_append_right _ (h.rest.order c hrest hc0).right) hg

theorem add_alone (h : Posted T br rest) (hlt : g < T.size) (hg0 : g ≠ 0) (hp : T.parent g ∉ br ++ rest)
    (hup : ∀ t ∈ br.getLast?, T.parent t = g) : Posted T (br ++ [g]) rest where
  lt x hx := (mem_append.1 hx).elim (h.lt x) fun hx => mem_singleton.1 hx ▸ hlt
  branch := isChain_append.2 ⟨h.branch, isChain_singleton g, fun t ht y hy =>
    ⟨(h.top t ht).1, (hup t ht).trans (by simpa using hy)⟩⟩
  top t ht := by
    rw [getLast?_concat] at ht
    obtain rfl := Option.some.inj ht
    have hne : T.parent g ≠ g := fun heq => T.not_mem_path_parent hg0 (a := g) (by simp [heq]) T.mem_path_self
    exact ⟨hg0, by simpa [hne, or_comm] using hp⟩
  rest := h.rest

theorem del (h : Posted T br rest) (hnd : (br ++ rest).Nodup) (hno : ∀ x ∈ br ++ rest, x ≠ 0 → T.parent x ≠ g) :
    Posted T (br.filter fun x => decide (x ≠ g)) (rest.filter fun x => decide (x ≠ g)) := by
  have hrest := h.rest.erase (nodup_append.1 hnd).2.1 fun x hx => hno x (mem_append_right _ hx)
  have hsub : ∀ x, x ∈ (br.filter fun x => decide (x ≠ g)) ++ (rest.filter fun x => decide (x ≠ g)) → x ∈ br ++ rest := by
    intro x hx
    rw [← filter_append] at hx
    exact mem_of_mem_filter hx
  by_cases hg : g ∈ br
  · -- nothing is in front of it in the branch
    obtain ⟨pre, post, rfl⟩ := append_of_mem hg
    rcases eq_nil_or_concat' pre with rfl | ⟨pre, b, rfl⟩
    · have hpost : g ∉ post := (nodup_cons.1 (nodup_append.1 hnd).1).1
      rw [nil_append, filter_cons_of_neg (by simp), filter_ne_of_not_mem hpost] at hsub ⊢
      refine ⟨fun x hx => h.lt x (mem_cons_of_mem _ hx), (isChain_cons.1 h.branch).2, fun t ht => ?_, hrest⟩
      have htop := h.top t (by rw [nil_append, getLast?_cons, ht]; rfl)
      exact ⟨htop.1, fun hmem => htop.2 (hsub _ hmem)⟩
    · obtain ⟨hb0, hbg⟩ := (isChain_append.1 h.branch).2.2 b (by simp) g (by simp)
      exact absurd hbg (hno b (by simp) hb0)
  · rw [filter_ne_of_not_mem hg] at hsub ⊢
    exact ⟨h.lt, h.branch, fun t ht => ⟨(h.top t ht).1, fun hmem => (h.top t ht).2 (hsub _ hmem)⟩, hrest⟩

end Posted

/-! ## Runs -/

/-- What is kept of a list with its branch -/
def LeafList.Built (T : Tree) (L : LeafList) : Prop := ∃ br rest, L.Hangs br rest ∧ Posted T br rest

/-- A connected branch: the parent of its top comes next on the list. -/
theorem Posted.connect (h : Posted T br (pre ++ T.parent g :: post)) (hlt : g < T.size) (hg0 : g ≠ 0)
    (hup : ∀ t ∈ br.getLast?, T.parent t = g ∧ pre = []) : Walked T (br ++ (pre ++ g :: T.parent g :: post)) := by
  have hrest := h.rest.insert hlt hg0
  cases hbr : br.getLast? with
  | none =>
    rw [getLast?_eq_none_iff.1 hbr]
    exact hrest
  | some t =>
    obtain ⟨-, rfl⟩ := hup t hbr
    exact h.join hrest fun t ht => (hup t ht).1

theorem LeafOp.step_built {op : LeafOp} (h : L.Built T) (hop : op.BottomUp T L) (hs : op.step T L = some L') :
    L'.Built T := by
  obtain ⟨br, rest, hh, hp⟩ := h
  cases op with
  | del g =>
    obtain rfl := Option.some.inj hs
    refine ⟨_, _, hh.del g, hp.del hh.nodup fun x hx hx0 hpar => ?_⟩
    have hlt : x < T.size := (mem_append.1 hx).elim (hp.lt x) (hp.rest.lt x)
    have hoff := hop x (T.mem_children.2 ⟨hlt, hx0, hpar⟩)
    exact hh.not_mem.1 hoff hx
  | add g =>
    obtain ⟨hlt, rfl⟩ := Run.of_guard hs
    by_cases hg : g ∈ br ++ rest
    · rw [hh.add_mem hg]
      exact ⟨br, rest, hh, hp⟩
    have hop := (hop.resolve_left fun hon => hg ((hh.mem g).1 hon))
    rw [hh.tmp] at hop
    by_cases hg0 : g = 0
    · subst hg0
      have hempty : rest = [] := eq_nil_iff_forall_not_mem.2 fun x hx => hg (mem_append_right _ (hp.rest.zero_mem hx))
      subst hempty
      have hroot : Walked T [0] := ⟨by simpa using hlt, isChain_singleton 0, by simp⟩
      exact ⟨[], _, (hh.add_root hg).1, ⟨nofun, isChain_nil, nofun, by
        simpa using hp.join hroot fun t ht => (hop t ht).1⟩⟩
    by_cases hpar : T.parent g ∈ br ++ rest
    · have hfirst : ∀ t ∈ br.getLast?, ∃ post, rest = T.parent g :: post := by
        intro t ht
        have hprev := (hop t ht).2 hg0 ((hh.mem _).2 hpar)
        rw [hh.list, prev_eq_some hh.nodup hpar] at hprev
        obtain ⟨p, q, hsplit⟩ := hprev
        obtain ⟨b, rfl⟩ := getLast?_eq_some_iff.1 ht
        rw [append_assoc, singleton_append] at hsplit
        have hnd := hh.nodup
        rw [append_assoc, singleton_append] at hnd
        obtain ⟨-, htr, hdis⟩ := nodup_append.1 hnd
        exact ⟨q, ((append_cons_inj_of_notMem (fun h => hdis t h t mem_cons_self rfl) (nodup_cons.1 htr).1).1 hsplit).2.2⟩
      have hin : T.parent g ∈ rest ∧ T.parent g ∉ br := by
        cases hlast : br.getLast? with
        | none =>
          obtain rfl := getLast?_eq_none_iff.1 hlast
          exact ⟨hpar, not_mem_nil⟩
        | some t =>
          obtain ⟨q, rfl⟩ := hfirst t hlast
          exact ⟨mem_cons_self, fun hmem => (nodup_append.1 hh.nodup).2.2 _ hmem _ mem_cons_self rfl⟩
      obtain ⟨pre, post, rfl, hconn, -⟩ := hh.add_connected hg0 hg hin.2 hin.1
      refine ⟨[], _, hconn, ⟨nofun, isChain_nil, nofun, hp.connect hlt hg0 fun t ht => ⟨(hop t ht).1, ?_⟩⟩⟩
      obtain ⟨q, hq⟩ := hfirst t ht
      cases pre with
      | nil => rfl
      | cons y pre =>
        obtain ⟨rfl, -⟩ := cons.inj hq
        exact absurd (by simp) (nodup_cons.1 (nodup_append.1 hh.nodup).2.1).1
    · exact ⟨_, _, (hh.add_alone hg0 hg hpar).1, hp.add_alone hlt hg0 hpar fun t ht => (hop t ht).1⟩

/-- The nodes that are looked at: what is in front of `g` on the list, or the last of the branch that is alone. -/
theorem LeafList.inspected_isSome (h : L.Hangs br rest) : (∃ x, L.inspected g = some x) ↔
    L.onList g = true ∧ L.list.head? ≠ some g ∨ L.onList g = false ∧ L.tmp ≠ none := by
  unfold LeafList.inspected
  cases hon : L.onList g with
  | false => simp [ne_none_iff_exists']
  | true =>
    have hg := (h.mem g).1 hon
    have hnd := h.nodup
    rw [← h.list] at hg hnd
    obtain ⟨pre, post, heq⟩ := append_of_mem hg
    rw [heq] at hnd ⊢
    have hpre : g ∉ pre := fun hmem => (nodup_append.1 hnd).2.2 g hmem g mem_cons_self rfl
    rcases eq_nil_or_concat' pre with rfl | ⟨pre, b, rfl⟩
    · simp [prev_head (nodup_cons.1 hnd).1]
    · have hb : b ≠ g := fun hb => hpre (by simp [hb])
      have hprev : prev g (pre ++ [b] ++ g :: post) = some b := by
        rw [append_assoc]
        exact prev_append (fun hmem => hpre (mem_append_left _ hmem)) hb
      have hhead : (pre ++ [b] ++ g :: post).head? ≠ some g := by
        cases pre with
        | nil => exact fun h => hb (Option.some.inj h)
        | cons y pre => exact fun h => hpre (by simp [Option.some.inj h])
      exact iff_of_true ⟨b, hprev⟩ (.inl ⟨rfl, hhead⟩)

/-- `child_cfs_rq_on_list` looks at a runqueue, and finds a child just when one is on the list. -/
def LeafList.ChildSeen (T : Tree) (o : Env) (g : Nat) (L : LeafList) : Prop :=
  (∃ x, L.inspected g = some x) ∧ (L.childCfsRqOnList T o g = true ↔ Rq.ChildListed T g L)

/-- On a list that was built from below, `child_cfs_rq_on_list` is right about a runqueue just if there is one to look at:
it is on the list and not the first, or it is not on the list and a branch is alone. -/
theorem childSeen_after_run (T : Tree) (ops : List LeafOp) (L : LeafList)
    (hok : Run.Along (LeafOp.step T) (LeafOp.BottomUp T) ops Rq.boot.leaf)
    (hrun : Run.run (LeafOp.step T) ops Rq.boot.leaf = some L) (o : Env) (g : Nat) : L.ChildSeen T o g ↔
      L.onList g = true ∧ L.list.head? ≠ some g ∨ L.onList g = false ∧ L.tmp ≠ none := by
  have hboot : Rq.boot.leaf.Built T :=
    ⟨[], [], ⟨rfl, rfl, nodup_nil, by simp [boot]⟩, by simp, isChain_nil, by simp, by simp, isChain_nil, by simp⟩
  obtain ⟨br, rest, hh, hp⟩ := Run.along_invariant (fun _ _ _ h hop hs => LeafOp.step_built h hop hs) hboot hok hrun
  rw [← LeafList.inspected_isSome hh]
  refine and_iff_left_of_imp fun hsome => ?_
  obtain ⟨x, hx⟩ := hsome
  have hlisted : Rq.ChildListed T g L ↔ ∃ c ∈ T.children g, c ∈ br ++ rest := by simp only [Rq.ChildListed, hh.mem]
  rw [hlisted, LeafList.childCfsRqOnList, hx, decide_eq_true_iff]
  have hmem : x ∈ br ++ rest := by
    unfold LeafList.inspected at hx
    split at hx
    · next hon =>
      have hg := (hh.mem g).1 hon
      rw [hh.list] at hx
      obtain ⟨pre, post, hsplit⟩ := (prev_eq_some hh.nodup hg).1 hx
      simp [hsplit]
    · exact mem_append_left _ (mem_of_getLast? (hh.tmp ▸ hx))
  refine ⟨fun hchild => ⟨x, T.mem_children.2 ⟨(mem_append.1 hmem).elim (hp.lt x) (hp.rest.lt x), hchild⟩, hmem⟩,
    fun hlist => ?_⟩
  obtain ⟨c, hc, hcmem⟩ := hlist
  obtain ⟨-, hc0, hcg⟩ := T.mem_children.1 hc
  unfold LeafList.inspected at hx
  split at hx
  · next hon =>
    rw [hh.list] at hx
    exact hp.seen_of_prev hh.nodup ((hh.mem g).1 hon) hx hcmem hc0 hcg
  · next hoff =>
    rw [hh.tmp] at hx
    obtain rfl := hp.seen_of_top (mt (hh.mem g).2 hoff) hx hcmem hc0 hcg
    exact ⟨hc0, hcg⟩

/-- A branch of groups 3 and 1 is connected, 2 is put in front of the root, and 3 leaves and comes back. -/
def bottomUpRun : List LeafOp := [.add 3, .add 1, .add 0, .add 2, .del 3, .add 3]

theorem childSeen_bottomUpRun : ∃ L, Run.run (LeafOp.step smallTree) bottomUpRun Rq.boot.leaf = some L ∧
    L.list = [3, 1, 2, 0] ∧ L.ChildSeen smallTree .calm 1 ∧ L.ChildSeen smallTree .calm 0 := by
  obtain ⟨L, hL, hlist, hon⟩ : ∃ L, Run.run (LeafOp.step smallTree) bottomUpRun boot.leaf = some L ∧
      L.list = [3, 1, 2, 0] ∧ L.onList 1 = true ∧ L.onList 0 = true := Run.run_of_isSome (by decide +kernel)
  have hok : Run.Along (LeafOp.step smallTree) (LeafOp.BottomUp smallTree) bottomUpRun boot.leaf := by decide +kernel
  have hseen := childSeen_after_run smallTree bottomUpRun L hok hL .calm
  exact ⟨L, hL, hlist, (hseen 1).2 (.inl ⟨hon.1, by simp [hlist]⟩), (hseen 0).2 (.inl ⟨hon.2, by simp [hlist]⟩)⟩

/-- The first runqueue on the list has the list head in front of it; and what stands between a runqueue and its child
hides the child. -/
theorem child_not_seen : ∃ s, Run.run (Op.step smallTree) splitRun Rq.boot = some s ∧ s.leaf.list = [3, 2, 1, 0] ∧
    s.leaf.inspected 3 = none ∧ Rq.ChildListed smallTree 1 s.leaf ∧
        s.leaf.childCfsRqOnList smallTree .calm 1 = false := by
  exact Run.run_of_isSome (by decide +kernel)

end KernelSched.Group
