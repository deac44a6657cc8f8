import Mathlib.Data.List.Basic
import Mathlib.Order.Nat

/-!
# Searching an ordered list from one end

Three scans of a list whose keys are ordered by `r`, each from the head, each with an early exit, and each falling back
on the best element so far: `firstFrom` looks for the first key that is not before `t`; `lastUpTo` for the last key up to
`t`, which it knows only once it has seen the next; `nearest` for the closer of the two. The order is any strict total
one, so a scan of a descending list is the same scan with `>` for `r`.

All three are read off the same split of the list at `t` (`Split`): what lies before `t`, and the rest. `Selects r t l a`
says what the first two look for: the first element of `l` that is not before `t`, or the last one of all. It does not
depend on the order of `l`, and there is at most one such element.
-/

namespace KernelSched.Scan

open List (pairwise_cons mem_cons pairwise_append forall_mem_map mem_append mem_map_of_mem mem_singleton cons_append
    eq_nil_or_concat')

variable {ε α : Type} (key : ε → α) (r : α → α → Prop) (t : α)

section

variable [DecidableRel r] [DecidableEq α]

/-- The first element whose key is not before `t`, or else the last. -/
def firstFrom : List ε → Option ε → Option ε
  | [], best => best
  | e :: es, _ => if r (key e) t then firstFrom es (some e) else some e

/-- The last element whose key is before `t` or equal to it, or else the first. -/
def lastUpTo : List ε → Option ε → Option ε
  | [], best => best
  | e :: es, best =>
    if key e = t then some e
    else if r (key e) t then lastUpTo es (some e)
    else some (best.getD e)

/-- The last element up to `t` or the first one after it; `closer` compares the two. -/
def nearest (closer : α → α → Bool) : List ε → Option ε → Option ε
  | [], best => best
  | e :: es, best =>
    if key e = t then some e
    else if r (key e) t then nearest closer es (some e)
    else some (best.elim e fun b => if closer (key b) (key e) then e else b)

end

/-! ## What is looked for -/

/-- Of the elements that are not before `t`, the first; or, where all are before `t`, the last of all. -/
structure Selects (l : List α) (a : α) : Prop where
  mem : a ∈ l
  reaches : (∃ x ∈ l, ¬ r x t) → ¬ r a t
  first : ∀ x ∈ l, ¬ r x t → ¬ r x a
  last : (∀ x ∈ l, r x t) → ∀ x ∈ l, ¬ r a x

/-- The smallest distance; where several have it, the first of them. -/
structure Nearest (d : α → ℕ) (l : List α) (a : α) : Prop where
  mem : a ∈ l
  le : ∀ x ∈ l, d a ≤ d x
  tie : ∀ x ∈ l, d x = d a → ¬ r x a

/-- A distance from `t` grows on both sides of it. -/
structure Distance (d : α → ℕ) : Prop where
  before : ∀ x y, r x y → ¬ r t y → d y < d x
  after : ∀ x y, r x y → ¬ r x t → d x < d y

variable {key r t} {l : List α}

theorem eq_of_not_before [Std.Trichotomous r] {a b : α} (hab : ¬ r a b) (hba : ¬ r b a) : a = b :=
  (trichotomous_of r a b).resolve_left hab |>.resolve_right hba

theorem Selects.of_reached {a : α} (ha : a ∈ l) (hat : ¬ r a t) (hfirst : ∀ x ∈ l, ¬ r x t → ¬ r x a) : Selects r t l a :=
  ⟨ha, fun _ => hat, hfirst, fun hall => absurd (hall a ha) hat⟩

theorem Selects.of_all {a : α} (ha : a ∈ l) (hall : ∀ x ∈ l, r x t) (hlast : ∀ x ∈ l, ¬ r a x) : Selects r t l a :=
  ⟨ha, fun ⟨x, hx, hxt⟩ => absurd (hall x hx) hxt, fun x hx hxt => absurd (hall x hx) hxt, fun _ => hlast⟩

theorem Selects.self [Std.Irrefl r] (h : t ∈ l) : Selects r t l t := .of_reached h (irrefl _) fun _ _ hx => hx

/-- `t'` is `t`, or the limit that `t` is beyond. -/
def Clamped (r : α → α → Prop) (lo hi t t' : α) : Prop :=
  r t lo ∧ t' = lo ∨ r hi t ∧ t' = hi ∨ ¬ r t lo ∧ ¬ r hi t ∧ t' = t

/-- What is selected of the elements between two limits that are elements themselves is what is selected of all the
elements, with `t` clamped to the limits. -/
theorem Selects.clamp [IsStrictTotalOrder α r] {l' : List α} {a lo hi t' : α} (hlo : lo ∈ l) (hhi : hi ∈ l)
    (hle : ¬ r hi lo) (hl' : ∀ x, x ∈ l' ↔ x ∈ l ∧ ¬ r x lo ∧ ¬ r hi x) (ht' : Clamped r lo hi t t')
    (h : Selects r t l' a) : Selects r t' l a := by
  obtain ⟨ha, halo, hahi⟩ := (hl' a).1 h.mem
  have hlo' : lo ∈ l' := (hl' lo).2 ⟨hlo, irrefl _, hle⟩
  have hhi' : hi ∈ l' := (hl' hi).2 ⟨hhi, hle, irrefl _⟩
  obtain ⟨ht, rfl⟩ | ⟨ht, rfl⟩ | ⟨htlo, hthi, rfl⟩ := ht'
  · obtain rfl : a = t' := eq_of_not_before halo (h.first t' hlo' (asymm ht))
    exact .self ha
  · have hall : ∀ x ∈ l', r x t := fun x hx => trans_trichotomous_left ((hl' x).1 hx).2.2 ht
    obtain rfl : a = t' := eq_of_not_before (h.last hall t' hhi') hahi
    exact .self ha
  · refine .of_reached ha (h.reaches ⟨hi, hhi', hthi⟩) ?_
    intro x hx hxt hxa
    by_cases hxhi : r hi x
    · exact hahi (trans_of r hxhi hxa)
    · have hxlo : ¬ r x lo := fun hxlo => hxt (trans_trichotomous_right hxlo htlo)
      exact h.first x ((hl' x).2 ⟨hx, hxlo, hxhi⟩) hxt hxa

/-- With `t` between two limits, what is selected is between them, when some element is, and the upper limit is an
element itself or has none beyond it. -/
theorem Selects.between [IsStrictTotalOrder α r] {a : α} (h : Selects r t l a) {lo hi : α} (hlo : ¬ r t lo)
    (hhi : ¬ r hi t) (hlast : hi ∈ l ∨ ∀ x ∈ l, ¬ r hi x) (hmid : ∃ x ∈ l, ¬ r x lo ∧ ¬ r hi x) :
        ¬ r a lo ∧ ¬ r hi a := by
  obtain ⟨x, hx, hxlo, hxhi⟩ := hmid
  by_cases hall : ∀ y ∈ l, r y t
  · constructor
    · intro halo
      exact h.last hall x hx (trans_trichotomous_right halo hxlo)
    · intro hhia
      exact hhi (trans_of r hhia (hall a h.mem))
  · push Not at hall
    have hat := h.reaches hall
    constructor
    · intro halo
      exact hat (trans_trichotomous_right halo hlo)
    · obtain hmem | hnone := hlast
      · exact h.first hi hmem hhi
      · exact hnone a h.mem

/-! ## The split at `t` -/

/-- What lies before `t`, and the rest, of a list that is ordered by `r` -/
structure Split (key : ε → α) (r : α → α → Prop) (t : α) (pre post : List ε) : Prop where
  ordered : (pre ++ post).Pairwise fun x y => r (key x) (key y)
  pre : ∀ x ∈ pre, r (key x) t
  post : ∀ x ∈ post, ¬ r (key x) t

theorem exists_split [IsTrans α r] {l : List ε} (h : l.Pairwise fun x y => r (key x) (key y)) :
    ∃ pre post, l = pre ++ post ∧ Split key r t pre post := by
  induction l with
  | nil => exact ⟨[], [], rfl, .nil, by simp, by simp⟩
  | cons e es ih =>
    obtain ⟨hhead, htail⟩ := pairwise_cons.1 h
    by_cases he : r (key e) t
    · obtain ⟨pre, post, rfl, hsplit⟩ := ih htail
      refine ⟨e :: pre, post, rfl, h, ?_, hsplit.post⟩
      intro x hx
      obtain rfl | hx := mem_cons.1 hx
      · exact he
      · exact hsplit.pre x hx
    · refine ⟨[], e :: es, rfl, h, by simp, ?_⟩
      intro x hx hxt
      obtain rfl | hx := mem_cons.1 hx
      · exact he hxt
      · exact he (trans_of r (hhead x hx) hxt)

namespace Split

variable {pre post : List ε} {a : ε} {x : ε}

theorem head_first [IsStrictOrder α r] (h : Split key r t pre (a :: post)) (hx : x ∈ a :: post) :
    ¬ r (key x) (key a) := by
  have hpost := pairwise_cons.1 (pairwise_append.1 h.ordered).2.1
  obtain rfl | hx := mem_cons.1 hx
  · exact irrefl _
  · exact asymm (hpost.1 x hx)

theorem last_before [IsStrictOrder α r] {b : ε} (h : Split key r t (pre ++ [b]) post) (hx : x ∈ pre) :
    r (key x) (key b) :=
  (pairwise_append.1 (pairwise_append.1 h.ordered).1).2.2 x hx b (by simp)

theorem before [IsStrictTotalOrder α r] (h : Split key r t pre post) {y : ε} (hx : x ∈ pre) (hy : y ∈ post) :
    r (key x) (key y) :=
  (pairwise_append.1 h.ordered).2.2 x hx y hy

theorem selects_head [IsStrictOrder α r] (h : Split key r t pre (a :: post)) :
    Selects r t ((pre ++ a :: post).map key) (key a) := by
  refine .of_reached (mem_map_of_mem (by simp)) (h.post a (by simp)) (forall_mem_map.2 fun e he het => ?_)
  obtain he | he := mem_append.1 he
  · exact absurd (h.pre e he) het
  · exact h.head_first he

theorem selects_last [IsStrictOrder α r] {b : ε} (h : Split key r t (pre ++ [b]) []) :
    Selects r t ((pre ++ [b]).map key) (key b) := by
  refine .of_all (mem_map_of_mem (by simp)) (forall_mem_map.2 h.pre) (forall_mem_map.2 fun e he => ?_)
  obtain he | he := mem_append.1 he
  · exact asymm (h.last_before he)
  · obtain rfl := mem_singleton.1 he
    exact irrefl _

theorem after_of_ne [IsStrictTotalOrder α r] (h : Split key r t pre (a :: post)) (ha : key a ≠ t)
    (hx : x ∈ a :: post) : r t (key x) := by
  have hta : r t (key a) :=
    ((trichotomous_of r (key a) t).resolve_left (h.post a (by simp))).resolve_left ha
  have hpost := pairwise_cons.1 (pairwise_append.1 h.ordered).2.1
  obtain rfl | hx := mem_cons.1 hx
  · exact hta
  · exact trans_of r hta (hpost.1 x hx)

/-- Seen from the other end, the last element before `t` is what is looked for, when `t` itself is not in the list. -/
theorem flip_selects_last [IsStrictOrder α r] {b : ε} (h : Split key r t (pre ++ [b]) post)
    (hpost : ∀ x ∈ post, r t (key x)) : Selects (flip r) t ((pre ++ [b] ++ post).map key) (key b) := by
  have hb : ¬ r t (key b) := asymm (h.pre b (by simp))
  refine .of_reached (mem_map_of_mem (by simp)) hb (forall_mem_map.2 fun e he hxt => ?_)
  obtain he | he := mem_append.1 he
  · obtain he | he := mem_append.1 he
    · exact asymm (r := r) (h.last_before he)
    · obtain rfl := mem_singleton.1 he
      exact irrefl (r := r) _
  · exact absurd (hpost e he) hxt

theorem flip_selects_head [IsStrictTotalOrder α r] (ha : key a = t) :
    Selects (flip r) t ((pre ++ a :: post).map key) (key a) := by
  have hat : ¬ r t (key a) := ha ▸ irrefl _
  exact .of_reached (mem_map_of_mem (by simp)) hat fun x _ hxt => ha ▸ hxt

theorem flip_selects_first [IsStrictTotalOrder α r] (h : Split key r t [] (a :: post)) (ha : key a ≠ t) :
    Selects (flip r) t ((a :: post).map key) (key a) := by
  refine .of_all (mem_map_of_mem (by simp)) (forall_mem_map.2 fun e he => ?_) (forall_mem_map.2 fun e he => ?_)
  · exact h.after_of_ne ha he
  · exact h.head_first he

end Split

/-! ## The nearest element -/

section

variable {d : α → ℕ} {pre post : List ε}

theorem Split.head_nearest {a : ε} (hd : Distance r t d) (h : Split key r t pre (a :: post)) {x : ε} (hx : x ∈ post) :
    d (key a) < d (key x) := by
  have hpost := pairwise_cons.1 (pairwise_append.1 h.ordered).2.1
  exact hd.after _ _ (hpost.1 x hx) (h.post a (by simp))

theorem Split.last_nearest [IsStrictOrder α r] {b : ε} (hd : Distance r t d) (h : Split key r t (pre ++ [b]) post) {x : ε}
    (hx : x ∈ pre) : d (key b) < d (key x) :=
  hd.before _ _ (h.last_before hx) (asymm (h.pre b (by simp)))

/-- The first element of the rest is the nearest, when it is nearer than all that lie before `t`. -/
theorem Split.nearest_head [IsStrictOrder α r] {a : ε} (hd : Distance r t d) (h : Split key r t pre (a :: post))
    (hpre : ∀ x ∈ pre, d (key a) < d (key x)) : Nearest r d ((pre ++ a :: post).map key) (key a) := by
  have hcloser : ∀ x ∈ pre ++ a :: post, key x = key a ∨ d (key a) < d (key x) := by
    intro x hx
    obtain hx | hx := mem_append.1 hx
    · exact .inr (hpre x hx)
    · obtain rfl | hx := mem_cons.1 hx
      · exact .inl rfl
      · exact .inr (h.head_nearest hd hx)
  refine ⟨mem_map_of_mem (by simp), forall_mem_map.2 fun e he => ?_, forall_mem_map.2 fun e he htie => ?_⟩
  · obtain heq | hlt := hcloser e he
    · rw [heq]
    · exact hlt.le
  · obtain heq | hlt := hcloser e he
    · exact heq ▸ irrefl _
    · omega

theorem Split.nearest_last [IsStrictOrder α r] {b : ε} (hd : Distance r t d) (h : Split key r t (pre ++ [b]) post)
    (hpost : ∀ x ∈ post, d (key b) ≤ d (key x)) : Nearest r d ((pre ++ [b] ++ post).map key) (key b) := by
  refine ⟨mem_map_of_mem (by simp), forall_mem_map.2 fun e he => ?_, forall_mem_map.2 fun e he htie => ?_⟩
  · obtain he | he := mem_append.1 he
    · obtain he | he := mem_append.1 he
      · exact (h.last_nearest hd he).le
      · rw [mem_singleton.1 he]
    · exact hpost e he
  · obtain he | he := mem_append.1 he
    · obtain he | he := mem_append.1 he
      · exact absurd htie (h.last_nearest hd he).ne'
      · rw [mem_singleton.1 he]
        exact irrefl _
    · exact asymm ((pairwise_append.1 h.ordered).2.2 b (by simp) e he)

end

/-! ## The scans -/

/-- The element that a scan remembers once it has passed `pre` -/
def passed (pre : List ε) (best : Option ε) : Option ε := pre.foldl (fun _ e => some e) best

@[simp] theorem passed_concat (pre : List ε) (b : ε) (best : Option ε) : passed (pre ++ [b]) best = some b := by
  simp [passed]

section

variable [DecidableRel r]

section

variable {pre : List ε} (hpre : ∀ x ∈ pre, r (key x) t) (post : List ε) (best : Option ε)

include hpre post best

theorem firstFrom_append : firstFrom key r t (pre ++ post) best = firstFrom key r t post (passed pre best) := by
  induction pre generalizing best with
  | nil => rfl
  | cons e es ih =>
    rw [cons_append, firstFrom, if_pos (hpre e (by simp)), ih fun x hx => hpre x (by simp [hx])]
    rfl

theorem lastUpTo_append [DecidableEq α] [Std.Irrefl r] :
    lastUpTo key r t (pre ++ post) best = lastUpTo key r t post (passed pre best) := by
  induction pre generalizing best with
  | nil => rfl
  | cons e es ih =>
    have he := hpre e (by simp)
    have hne : key e ≠ t := fun h => irrefl (r := r) t (h ▸ he)
    rw [cons_append, lastUpTo, if_neg hne, if_pos he, ih fun x hx => hpre x (by simp [hx])]
    rfl

theorem nearest_append [DecidableEq α] [Std.Irrefl r] {closer : α → α → Bool} :
    nearest key r t closer (pre ++ post) best = nearest key r t closer post (passed pre best) := by
  induction pre generalizing best with
  | nil => rfl
  | cons e es ih =>
    have he := hpre e (by simp)
    have hne : key e ≠ t := fun h => irrefl (r := r) t (h ▸ he)
    rw [cons_append, nearest, if_neg hne, if_pos he, ih fun x hx => hpre x (by simp [hx])]
    rfl

end

variable [IsStrictTotalOrder α r] {l : List ε}

theorem firstFrom_selects (hl : l.Pairwise fun x y => r (key x) (key y)) (hne : l ≠ []) :
    ∃ e ∈ l, firstFrom key r t l none = some e ∧ Selects r t (l.map key) (key e) := by
  obtain ⟨pre, post, rfl, hsplit⟩ := exists_split (t := t) hl
  rw [firstFrom_append hsplit.pre]
  cases post with
  | cons a post =>
    refine ⟨a, by simp, ?_, hsplit.selects_head⟩
    rw [firstFrom, if_neg (hsplit.post a (by simp))]
  | nil =>
    obtain rfl | ⟨pre, b, rfl⟩ := eq_nil_or_concat' pre
    · exact absurd rfl hne
    · rw [List.append_nil]
      exact ⟨b, by simp, by simp [firstFrom], hsplit.selects_last⟩

variable [DecidableEq α]

theorem lastUpTo_selects (hl : l.Pairwise fun x y => r (key x) (key y)) (hne : l ≠ []) :
    ∃ e ∈ l, lastUpTo key r t l none = some e ∧ Selects (flip r) t (l.map key) (key e) := by
  obtain ⟨pre, post, rfl, hsplit⟩ := exists_split (t := t) hl
  rw [lastUpTo_append hsplit.pre]
  cases post with
  | cons a post =>
    have hat := hsplit.post a (by simp)
    by_cases ha : key a = t
    · refine ⟨a, by simp, ?_, Split.flip_selects_head ha⟩
      rw [lastUpTo, if_pos ha]
    · obtain rfl | ⟨pre, b, rfl⟩ := eq_nil_or_concat' pre
      · refine ⟨a, by simp, ?_, hsplit.flip_selects_first ha⟩
        rw [lastUpTo, if_neg ha, if_neg hat]
        rfl
      · refine ⟨b, by simp, ?_, hsplit.flip_selects_last fun x => hsplit.after_of_ne ha⟩
        rw [lastUpTo, if_neg ha, if_neg hat, passed_concat]
        rfl
  | nil =>
    obtain rfl | ⟨pre, b, rfl⟩ := eq_nil_or_concat' pre
    · exact absurd rfl hne
    · exact ⟨b, by simp, by simp [lastUpTo], hsplit.flip_selects_last (by simp)⟩

/-- With a distance, and a comparison by it of an element before `t` and one after it. -/
theorem nearest_spec {d : α → ℕ} {closer : α → α → Bool} (hd : Distance r t d)
    (hcloser : ∀ x y, r x t → r t y → (closer x y = true ↔ d y < d x))
    (hl : l.Pairwise fun x y => r (key x) (key y)) (hne : l ≠ []) :
    ∃ e ∈ l, nearest key r t closer l none = some e ∧ Nearest r d (l.map key) (key e) := by
  obtain ⟨pre, post, rfl, hsplit⟩ := exists_split (t := t) hl
  rw [nearest_append hsplit.pre]
  cases post with
  | nil =>
    obtain rfl | ⟨pre, b, rfl⟩ := eq_nil_or_concat' pre
    · exact absurd rfl hne
    · exact ⟨b, by simp, by simp [nearest], hsplit.nearest_last hd (by simp)⟩
  | cons a post =>
    have hat := hsplit.post a (by simp)
    by_cases ha : key a = t
    · refine ⟨a, by simp, ?_, hsplit.nearest_head hd fun x hx => hd.before _ _ (hsplit.before hx (by simp)) ?_⟩
      · rw [nearest, if_pos ha]
      · exact ha ▸ irrefl _
    · obtain rfl | ⟨pre, b, rfl⟩ := eq_nil_or_concat' pre
      · refine ⟨a, by simp, ?_, hsplit.nearest_head hd (by simp)⟩
        rw [nearest, if_neg ha, if_neg hat]
        rfl
      · have hbt := hsplit.pre b (by simp)
        have hcloser := hcloser _ _ hbt (hsplit.after_of_ne ha (x := a) (by simp))
        rw [nearest, if_neg ha, if_neg hat, passed_concat]
        by_cases hlt : d (key a) < d (key b)
        · refine ⟨a, by simp, by simp [hcloser.2 hlt], hsplit.nearest_head hd ?_⟩
          intro x hx
          obtain hx | hx := mem_append.1 hx
          · exact hlt.trans (hsplit.last_nearest hd hx)
          · rwa [mem_singleton.1 hx]
        · refine ⟨b, by simp, by simp [mt hcloser.1 hlt], hsplit.nearest_last hd ?_⟩
          intro x hx
          obtain rfl | hx := mem_cons.1 hx
          · omega
          · have := hsplit.head_nearest hd hx
            omega

end

end KernelSched.Scan
