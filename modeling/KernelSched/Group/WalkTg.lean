import Mathlib.Logic.Function.Iterate

/-!
# The walk through a tree of task groups

`walk_tg_tree_from` does not call itself: it goes by the pointers to the first child of a group, to the next in the list
of its parent, and back to the parent. Its calls are those of the recursive walk, in the same order, up to the first
that fails (`walk_tg_tree_from_right`). Other modules have the walk in its recursive form.
-/

namespace KernelSched.Group

variable {α σ : Type}

/-! ## Model -/

/-- The pointers of the groups: `first` is the head of `children`, `next` the group after this one in `siblings`. -/
structure TgLinks (α : Type) where
  parent : α → Option α
  first : α → Option α
  next : α → Option α

inductive Visitor
  | down
  | up
  deriving DecidableEq

/-- The next call, or the end. -/
inductive WalkPc (α : Type)
  | call (v : Visitor) (tg : α)
  | out (ret : Int)

/-- In the list of the children: the next child, or after the last one `up`. -/
def WalkPc.each (parent : α) : Option α → WalkPc α
  | some child => .call .down child
  | none => .call .up parent

/-- `walk_tg_tree_from` from one call to the next -/
def walkStep [DecidableEq α] (L : TgLinks α) (visit : Visitor → α → σ → Int × σ) (start : α) : WalkPc α × σ → WalkPc α × σ
  | (.call .down tg, s) =>
    let (ret, s) := visit .down tg s
    if ret ≠ 0 then (.out ret, s) else (.each tg (L.first tg), s)
  | (.call .up tg, s) =>
    let (ret, s) := visit .up tg s
    if ret ≠ 0 ∨ tg = start then (.out ret, s)
    else
      match L.parent tg with
      | some parent => (.each parent (L.next tg), s)
      | none => (.out ret, s)
  | (.out ret, s) => (.out ret, s)

/-! ## The calls of the recursive walk -/

/-- A list of groups, each with its children. -/
inductive TgList (α : Type)
  | nil
  | cons (tg : α) (children siblings : TgList α)

namespace TgList

def head? : TgList α → Option α
  | nil => none
  | cons tg _ _ => some tg

def calls : TgList α → List (Visitor × α)
  | nil => []
  | cons tg children siblings => (.down, tg) :: children.calls ++ (.up, tg) :: siblings.calls

/-- The pointers of the groups under `start` are those of the list. -/
def Linked (L : TgLinks α) (start : α) : α → TgList α → Prop
  | _, nil => True
  | parent, cons tg children siblings => tg ≠ start ∧ L.parent tg = some parent ∧ L.first tg = children.head? ∧
      L.next tg = siblings.head? ∧ Linked L start tg children ∧ Linked L start parent siblings

end TgList

/-- Make the calls up to the first that fails. -/
def makeCalls (visit : Visitor → α → σ → Int × σ) : List (Visitor × α) → σ → Int × σ
  | [], s => (0, s)
  | (v, tg) :: l, s =>
    let (ret, s) := visit v tg s
    if ret ≠ 0 then (ret, s) else makeCalls visit l s

section

variable {L : TgLinks α} {visit : Visitor → α → σ → Int × σ} {start : α}

theorem makeCalls_append (l l' : List (Visitor × α)) (s : σ) : makeCalls visit (l ++ l') s =
    if (makeCalls visit l s).1 ≠ 0 then makeCalls visit l s else makeCalls visit l' (makeCalls visit l s).2 := by
  induction l generalizing s with
  | nil => rfl
  | cons c l ih =>
    by_cases hc : (visit c.1 c.2 s).1 = 0 <;> simp [makeCalls, ih, hc]

variable [DecidableEq α]

def Reaches (L : TgLinks α) (visit : Visitor → α → σ → Int × σ) (start : α) (x y : WalkPc α × σ) : Prop :=
  ∃ n, (walkStep L visit start)^[n] x = y

theorem Reaches.trans {x y z : WalkPc α × σ} : Reaches L visit start x y → Reaches L visit start y z →
    Reaches L visit start x z := by
  rintro ⟨m, rfl⟩ ⟨n, rfl⟩
  exact ⟨n + m, Function.iterate_add_apply ..⟩

/-- The walk has made the calls of a list of children. -/
def made (parent : α) (r : Int × σ) : WalkPc α × σ := (if r.1 ≠ 0 then .out r.1 else .call .up parent, r.2)

theorem reaches_down {children : TgList α} {tg : α} (hfirst : L.first tg = children.head?)
    (h : ∀ s, Reaches L visit start (.each tg children.head?, s) (made tg (makeCalls visit children.calls s))) (s : σ) :
    Reaches L visit start (.call .down tg, s) (made tg (makeCalls visit ((.down, tg) :: children.calls) s)) := by
  by_cases hd : (visit .down tg s).1 = 0
  · have hmade := h (visit .down tg s).2
    simp only [makeCalls, if_neg (not_not.2 hd)]
    exact Reaches.trans ⟨1, by simp [walkStep, hfirst, hd]⟩ hmade
  · exact ⟨1, by simp [walkStep, makeCalls, made, hd]⟩

theorem reaches_made {l : TgList α} {parent : α} (h : l.Linked L start parent) (s : σ) :
    Reaches L visit start (.each parent l.head?, s) (made parent (makeCalls visit l.calls s)) := by
  induction l generalizing parent s with
  | nil => exact ⟨0, rfl⟩
  | cons tg children siblings ihc ihs =>
    obtain ⟨hne, hparent, hfirst, hnext, hc, hs⟩ := h
    refine (reaches_down hfirst (ihc hc) s).trans ?_
    rw [TgList.calls, makeCalls_append]
    generalize makeCalls visit ((.down, tg) :: children.calls) s = r
    by_cases hr : r.1 = 0
    · by_cases hu : (visit .up tg r.2).1 = 0
      · simp only [if_neg (not_not.2 hr), makeCalls, if_neg (not_not.2 hu)]
        exact Reaches.trans ⟨1, by simp [made, walkStep, hne, hparent, hnext, hr, hu]⟩ (ihs hs _)
      · exact ⟨1, by simp [made, makeCalls, walkStep, hr, hu]⟩
    · exact ⟨0, by simp [made, hr]⟩

/-- The calls of the walk and what it returns are those of the recursive walk. -/
theorem walk_tg_tree_from_right {children : TgList α} (h : children.Linked L start start)
    (hfirst : L.first start = children.head?) (s : σ) : ∃ n, (walkStep L visit start)^[n] (.call .down start, s) =
      (.out (makeCalls visit (TgList.cons start children .nil).calls s).1,
        (makeCalls visit (TgList.cons start children .nil).calls s).2) := by
  refine (reaches_down hfirst (reaches_made h) s).trans ?_
  rw [TgList.calls, makeCalls_append]
  generalize makeCalls visit ((.down, start) :: children.calls) s = r
  by_cases hr : r.1 = 0
  · by_cases hu : (visit .up start r.2).1 = 0 <;> exact ⟨1, by simp [made, TgList.calls, makeCalls, walkStep, hr, hu]⟩
  · exact ⟨0, by simp [made, hr]⟩

end

/-- Groups 1 and 2 are the children of group 0; the visitor keeps a log, and fails when it leaves group 1. -/
theorem walk_tg_tree_from_two :
    ∃ n, (walkStep ⟨fun _ => some 0, fun tg => if tg = 0 then some 1 else none,
      fun tg => if tg = 1 then some 2 else none⟩
      (fun v tg log => (if v = .up ∧ tg = 1 then -1 else 0, (v, tg) :: log)) 0)^[n] (.call .down 0, []) =
        (.out (-1), [(.up, 1), (.down, 1), (.down, 0)]) :=
  have h : (TgList.cons 1 .nil (.cons 2 .nil .nil)).Linked _ 0 0 := by simp [TgList.Linked, TgList.head?]
  walk_tg_tree_from_right h rfl []

end KernelSched.Group
