import KernelSched.Lib.Heap
import KernelSched.Lib.Wrap

/-!
# The heap of CPUs by deadline

`struct cpudl` keeps the CPUs that run deadline tasks in a max-heap on their earliest deadline. One array holds both the
heap, by position (`dl`, `cpu`), and the position of every CPU (`idx`), by CPU. A CPU is sifted up or down by moving a
hole: its own deadline and number are written only at the end.

`none` is `IDX_INVALID`. The two loops take a bound on their rounds; it is never reached (`heapifyUpLoop_spec`,
`heapifyDownLoop_spec`).
-/

namespace KernelSched.Deadline

open Wrap Heap

/-! ## Model -/

structure CpudlItem where
  dl : U64
  cpu : Nat
  idx : Option Nat

structure Cpudl where
  size : Nat
  freeCpus : Nat → Bool
  elements : Nat → CpudlItem

def dlTimeBefore (a b : U64) : Bool := Wrap.before a b

def leftChild (i : Nat) : Nat := 2 * i + 1

def rightChild (i : Nat) : Nat := 2 * i + 2

namespace Cpudl

def upd (i : Nat) (f : CpudlItem → CpudlItem) (cp : Cpudl) : Cpudl :=
  { cp with elements := fun j => if j = i then f (cp.elements j) else cp.elements j }

def setItem (i : Nat) (dl : U64) (cpu : Nat) (cp : Cpudl) : Cpudl := cp.upd i fun e => { e with dl := dl, cpu := cpu }

def setIdx (cpu : Nat) (idx : Option Nat) (cp : Cpudl) : Cpudl := cp.upd cpu fun e => { e with idx := idx }

def put (i : Nat) (dl : U64) (cpu : Nat) (cp : Cpudl) : Cpudl := (cp.setItem i dl cpu).setIdx cpu (some i)

/-- Copy what is at position `j` to `i`. -/
def pull (j i : Nat) (cp : Cpudl) : Cpudl := cp.put i (cp.elements j).dl (cp.elements j).cpu

/-- The position with the latest deadline of `idx`, with `dl`, and its children. -/
def largest (idx : Nat) (dl : U64) (cp : Cpudl) : Nat :=
  let l := leftChild idx
  let r := rightChild idx
  let (largest, largestDl) :=
    if l < cp.size ∧ dlTimeBefore dl (cp.elements l).dl then (l, (cp.elements l).dl) else (idx, dl)
  if r < cp.size ∧ dlTimeBefore largestDl (cp.elements r).dl then r else largest

def heapifyDownLoop : Nat → Nat → U64 → Nat → Cpudl → Cpudl
  | 0, idx, dl, cpu, cp => cp.put idx dl cpu
  | n + 1, idx, dl, cpu, cp =>
    if cp.largest idx dl = idx then cp.put idx dl cpu
    else heapifyDownLoop n (cp.largest idx dl) dl cpu (cp.pull (cp.largest idx dl) idx)

def heapifyDown (idx : Nat) (cp : Cpudl) : Cpudl :=
  if cp.size ≤ leftChild idx then cp
  else cp.heapifyDownLoop cp.size idx (cp.elements idx).dl (cp.elements idx).cpu

def heapifyUpLoop : Nat → Nat → U64 → Nat → Cpudl → Cpudl
  | 0, idx, dl, cpu, cp => cp.put idx dl cpu
  | n + 1, idx, dl, cpu, cp =>
    let p := parent idx
    if dlTimeBefore dl (cp.elements p).dl then cp.put idx dl cpu
    else if p = 0 then (cp.pull p idx).put p dl cpu
    else heapifyUpLoop n p dl cpu (cp.pull p idx)

def heapifyUp (idx : Nat) (cp : Cpudl) : Cpudl :=
  if idx = 0 then cp else cp.heapifyUpLoop idx idx (cp.elements idx).dl (cp.elements idx).cpu

def heapify (idx : Nat) (cp : Cpudl) : Cpudl :=
  if 0 < idx ∧ dlTimeBefore (cp.elements (parent idx)).dl (cp.elements idx).dl then cp.heapifyUp idx
  else cp.heapifyDown idx

def maximum (cp : Cpudl) : Nat := (cp.elements 0).cpu

def setFree (cpu : Nat) (free : Bool) (cp : Cpudl) : Cpudl :=
  { cp with freeCpus := fun c => if c = cpu then free else cp.freeCpus c }

def clear (cpu : Nat) (cp : Cpudl) : Cpudl :=
  match (cp.elements cpu).idx with
  | none => cp
  | some oldIdx =>
    let last := cp.elements (cp.size - 1)
    let cp := { cp.setItem oldIdx last.dl last.cpu with size := cp.size - 1 }
    (((cp.setIdx last.cpu (some oldIdx)).setIdx cpu none).heapify oldIdx).setFree cpu true

def set (cpu : Nat) (dl : U64) (cp : Cpudl) : Cpudl :=
  match (cp.elements cpu).idx with
  | none => (({ cp with size := cp.size + 1 }.put cp.size dl cpu).heapifyUp cp.size).setFree cpu false
  | some oldIdx => (cp.upd oldIdx fun e => { e with dl := dl }).heapify oldIdx

/-- `cpudl_init`, with any set of free CPUs. -/
def init (free : Nat → Bool) : Cpudl := ⟨0, free, fun _ => ⟨0, 0, none⟩⟩

/-! ## Fields -/

variable {cp : Cpudl} {i j c : Nat} {f : CpudlItem → CpudlItem}

theorem upd_elements (i j : Nat) (f : CpudlItem → CpudlItem) :
    (cp.upd i f).elements j = if j = i then f (cp.elements j) else cp.elements j := rfl

def item (cp : Cpudl) (j : Nat) : U64 × Nat := ((cp.elements j).dl, (cp.elements j).cpu)

def pos (cp : Cpudl) (c : Nat) : Option Nat := (cp.elements c).idx

@[simp] theorem setItem_item (i : Nat) (dl : U64) (cpu j : Nat) :
    (cp.setItem i dl cpu).item j = if j = i then (dl, cpu) else cp.item j := by
  simp only [item, setItem, upd_elements]
  split <;> rfl

@[simp] theorem setItem_pos (i : Nat) (dl : U64) (cpu c : Nat) : (cp.setItem i dl cpu).pos c = cp.pos c := by
  simp only [pos, setItem, upd_elements]
  split <;> rfl

@[simp] theorem setIdx_item (cpu : Nat) (k : Option Nat) (j : Nat) : (cp.setIdx cpu k).item j = cp.item j := by
  simp only [item, setIdx, upd_elements]
  split <;> rfl

@[simp] theorem setIdx_pos (cpu : Nat) (k : Option Nat) (c : Nat) :
    (cp.setIdx cpu k).pos c = if c = cpu then k else cp.pos c := by
  simp only [pos, setIdx, upd_elements]
  split <;> rfl

@[simp] theorem put_item (i : Nat) (dl : U64) (cpu j : Nat) :
    (cp.put i dl cpu).item j = if j = i then (dl, cpu) else cp.item j := by rw [put, setIdx_item, setItem_item]

@[simp] theorem put_pos (i : Nat) (dl : U64) (cpu c : Nat) :
    (cp.put i dl cpu).pos c = if c = cpu then some i else cp.pos c := by rw [put, setIdx_pos, setItem_pos]

/-! ## Sifting -/

/-- The heap with the hole at `i` filled. -/
def filled (i : Nat) (dl : U64) (cpu : Nat) (cp : Cpudl) (j : Nat) : U64 × Nat := if j = i then (dl, cpu) else cp.item j

theorem filled_pull {dl : U64} {cpu : Nat} (hij : j ≠ i) :
    (cp.pull j i).filled j dl cpu = swap i j (cp.filled i dl cpu) := by
  funext k
  simp only [filled, pull, put_item, swap]
  by_cases hki : k = i
  · subst hki
    simp [hij, Ne.symm hij, item]
  · by_cases hkj : k = j
    · simp [hkj, hij]
    · simp [hki, hkj]

section

variable {base : U64} {Q : U64 × Nat → Prop} {dl : U64} {cpu : Nat}

/-- All but the place of the CPU that is being moved is right; `Q` holds of all that is in the heap. -/
structure Sifting (Q : U64 × Nat → Prop) (i : Nat) (dl : U64) (cpu : Nat) (cp : Cpudl) : Prop where
  lt : i < cp.size
  placed : Placed cp.size i (fun k => (cp.filled i dl cpu k).2) cp.pos
  all : ∀ k < cp.size, Q (cp.filled i dl cpu k)

/-- A heap whose order may be wrong. -/
structure Holds (Q : U64 × Nat → Prop) (cp : Cpudl) : Prop where
  inverse : Inverse cp.size (fun k => (cp.item k).2) cp.pos
  all : ∀ k < cp.size, Q (cp.item k)

theorem filled_self (i : Nat) (cp : Cpudl) : cp.filled i (cp.elements i).dl (cp.elements i).cpu = cp.item := by
  funext k
  unfold filled
  split
  · next hk => rw [hk, item]
  · rfl

theorem Holds.sifting (h : cp.Holds Q) (hi : i < cp.size) : cp.Sifting Q i (cp.elements i).dl (cp.elements i).cpu := by
  refine ⟨hi, ?_, ?_⟩ <;> simp only [filled_self]
  · exact h.inverse.placed hi
  · exact h.all

theorem Sifting.pull (h : cp.Sifting Q i dl cpu) (hj : j < cp.size) (hij : j ≠ i) : (cp.pull j i).Sifting Q j dl cpu := by
  have hitem : (cp.filled i dl cpu j).2 = (cp.elements j).cpu := by simp [filled, hij, item]
  refine ⟨hj, ?_, ?_⟩
  · have hplaced := h.placed.swap h.lt hj hij (q := (cp.pull j i).pos) fun c => by
      rw [hitem]
      exact put_pos _ _ _ _
    have hswap : (fun k => ((cp.pull j i).filled j dl cpu k).2) = swap i j fun k => (cp.filled i dl cpu k).2 := by
      rw [filled_pull hij]
      funext k
      simp only [swap]
      split
      · rfl
      · split <;> rfl
    rw [hswap]
    exact hplaced
  · rw [filled_pull hij]
    exact swap_forall h.all h.lt hj

theorem put_eq_filled (i : Nat) (dl : U64) (cpu : Nat) (cp : Cpudl) : (cp.put i dl cpu).item = cp.filled i dl cpu := by
  funext k
  rw [put_item]
  rfl

theorem Sifting.put (h : cp.Sifting Q i dl cpu) : (cp.put i dl cpu).Holds Q := by
  refine ⟨?_, ?_⟩ <;> simp only [put_eq_filled]
  · refine h.placed.done h.lt fun c => ?_
    rw [put_pos]
    simp [filled]
  · exact h.all

def keys (base : U64) (V : Nat → U64 × Nat) (k : Nat) : Int := off base (V k).1

theorem keys_swap (V : Nat → U64 × Nat) : keys base (swap i j V) = swap i j (keys base V) := by
  funext k
  simp only [keys, swap]
  split
  · rfl
  · split <;> rfl

/-- `u` is `cp` with the same CPUs in the heap, in order. -/
structure Sorted (base : U64) (Q : U64 × Nat → Prop) (cp u : Cpudl) : Prop where
  holds : u.Holds Q
  ordered : Ordered u.size (keys base u.item)
  size : u.size = cp.size
  freeCpus : u.freeCpus = cp.freeCpus
  gone : ∀ c, u.pos c = none → cp.pos c = none

theorem put_pos_none {i : Nat} (h : (cp.put i dl cpu).pos c = none) : cp.pos c = none := by
  rw [put_pos] at h
  split at h
  · cases h
  · exact h

theorem Sorted.of_pull {u : Cpudl} (h : Sorted base Q (cp.pull j i) u) : Sorted base Q cp u :=
  ⟨h.holds, h.ordered, h.size, h.freeCpus, fun c hc => put_pos_none (h.gone c hc)⟩

theorem Sifting.sorted (h : cp.Sifting Q i dl cpu) (ho : Ordered cp.size (keys base (cp.filled i dl cpu))) :
    Sorted base Q cp (cp.put i dl cpu) :=
  ⟨h.put, by rw [put_eq_filled]; exact ho, rfl, rfl, fun _ hc => put_pos_none hc⟩

variable (hQ : ∀ x, Q x → Within base x.1)
include hQ

theorem Sifting.before_iff (h : cp.Sifting Q i dl cpu) {k : Nat} (hj : j < cp.size) (hk : k < cp.size) :
    dlTimeBefore (cp.filled i dl cpu j).1 (cp.filled i dl cpu k).1 = true ↔
      keys base (cp.filled i dl cpu) j < keys base (cp.filled i dl cpu) k :=
  before_iff_off (hQ _ (h.all j hj)) (hQ _ (h.all k hk))

omit hQ in
theorem filled_hole : (cp.filled i dl cpu i).1 = dl := by simp [filled]

omit hQ in
theorem filled_other (hj : j ≠ i) : (cp.filled i dl cpu j).1 = (cp.elements j).dl := by simp [filled, hj, item]

theorem heapifyUpLoop_spec (n : Nat) (hn : i ≤ n) (hi0 : 0 < i) (h : cp.Sifting Q i dl cpu)
    (hup : Up cp.size i (keys base (cp.filled i dl cpu))) : Sorted base Q cp (cp.heapifyUpLoop n i dl cpu) := by
  induction n generalizing i cp with
  | zero => omega
  | succ n ih =>
    have hp := parent_lt (i := i) (by omega)
    have hlt := h.lt
    have hbefore := h.before_iff hQ hlt (k := parent i) (by omega)
    rw [filled_hole, filled_other (by omega)] at hbefore
    rw [heapifyUpLoop]
    split
    · next hb => exact h.sorted (hup.done fun _ => (hbefore.1 hb).le)
    · next hb =>
      have hle := not_lt.1 (mt hbefore.2 hb)
      have hpull := h.pull (j := parent i) (by omega) (by omega)
      have hup' := hup.swap hi0 hlt hle
      rw [← keys_swap, ← filled_pull (by omega)] at hup'
      split
      · next hp0 => exact (hpull.sorted (hup'.done fun h0 => absurd hp0 h0.ne')).of_pull
      · next hp0 => exact (ih (by omega) (by omega) hpull hup').of_pull

theorem heapifyUp_spec (h : cp.Holds Q) (hi : i < cp.size) (hup : Up cp.size i (keys base cp.item)) :
    Sorted base Q cp (cp.heapifyUp i) := by
  unfold heapifyUp
  split
  · next hi0 => exact ⟨h, hup.done fun h0 => absurd hi0 h0.ne', rfl, rfl, fun _ hc => hc⟩
  · next hi0 =>
    refine heapifyUpLoop_spec hQ i le_rfl (by omega) (h.sifting hi) ?_
    rw [filled_self]
    exact hup

/-- `largest` is `i` if no child is later, else the later child. -/
theorem Sifting.largest_spec (h : cp.Sifting Q i dl cpu) :
    (cp.largest i dl = i ∧ ∀ j, 0 < j → j < cp.size → parent j = i →
        keys base (cp.filled i dl cpu) j ≤ keys base (cp.filled i dl cpu) i) ∨
      (0 < cp.largest i dl ∧ cp.largest i dl < cp.size ∧ parent (cp.largest i dl) = i ∧
        keys base (cp.filled i dl cpu) i ≤ keys base (cp.filled i dl cpu) (cp.largest i dl) ∧
          ∀ j, 0 < j → j < cp.size → parent j = i →
            keys base (cp.filled i dl cpu) j ≤ keys base (cp.filled i dl cpu) (cp.largest i dl)) := by
  have hchild : ∀ j, 0 < j → parent j = i → j = leftChild i ∨ j = rightChild i := by
    intro j hj0 hj
    unfold Heap.parent at hj
    unfold leftChild rightChild
    omega
  have hparent : parent (leftChild i) = i ∧ parent (rightChild i) = i := by
    unfold Heap.parent leftChild rightChild
    omega
  have hgt : i < leftChild i ∧ leftChild i < rightChild i := by
    unfold leftChild rightChild
    omega
  have hl := fun hlt => h.before_iff hQ h.lt (k := leftChild i) hlt
  have hr := fun hlt => h.before_iff hQ h.lt (k := rightChild i) hlt
  have hlr := fun hlt hlt' => h.before_iff hQ (j := leftChild i) (k := rightChild i) hlt hlt'
  rw [filled_hole, filled_other (by omega)] at hl hr
  rw [filled_other (by omega), filled_other (by omega)] at hlr
  generalize keys base (cp.filled i dl cpu) = K at hl hr hlr
  have hall : ∀ m, (leftChild i < cp.size → K (leftChild i) ≤ m) → (rightChild i < cp.size → K (rightChild i) ≤ m) →
      ∀ j, 0 < j → j < cp.size → parent j = i → K j ≤ m := by
    intro m hml hmr j hj0 hj hp
    rcases hchild j hj0 hp with rfl | rfl
    · exact hml hj
    · exact hmr hj
  by_cases hleft : leftChild i < cp.size ∧ dlTimeBefore dl (cp.elements (leftChild i)).dl = true
  · have hKl := (hl hleft.1).1 hleft.2
    by_cases hright : rightChild i < cp.size ∧
        dlTimeBefore (cp.elements (leftChild i)).dl (cp.elements (rightChild i)).dl = true
    · have heq : cp.largest i dl = rightChild i := by simp only [largest, if_pos hleft, if_pos hright]
      have hKr := (hlr hleft.1 hright.1).1 hright.2
      rw [heq]
      exact .inr ⟨by omega, hright.1, hparent.2, (hKl.trans hKr).le, hall _ (fun _ => hKr.le) fun _ => le_rfl⟩
    · have heq : cp.largest i dl = leftChild i := by simp only [largest, if_pos hleft, if_neg hright]
      rw [heq]
      refine .inr ⟨by omega, hleft.1, hparent.1, hKl.le, hall _ (fun _ => le_rfl) fun hj => ?_⟩
      exact not_lt.1 fun hlt => hright ⟨hj, (hlr hleft.1 hj).2 hlt⟩
  · have hKl : leftChild i < cp.size → K (leftChild i) ≤ K i := fun hlt => not_lt.1 fun h => hleft ⟨hlt, (hl hlt).2 h⟩
    by_cases hright : rightChild i < cp.size ∧ dlTimeBefore dl (cp.elements (rightChild i)).dl = true
    · have heq : cp.largest i dl = rightChild i := by simp only [largest, if_neg hleft, if_pos hright]
      have hKr := (hr hright.1).1 hright.2
      rw [heq]
      exact .inr ⟨by omega, hright.1, hparent.2, hKr.le, hall _ (fun hj => (hKl hj).trans hKr.le) fun _ => le_rfl⟩
    · have heq : cp.largest i dl = i := by simp only [largest, if_neg hleft, if_neg hright]
      exact .inl ⟨heq, hall _ hKl fun hj => not_lt.1 fun h => hright ⟨hj, (hr hj).2 h⟩⟩

theorem heapifyDownLoop_spec (n : Nat) (hn : cp.size ≤ n + i) (h : cp.Sifting Q i dl cpu)
    (hdown : Down cp.size i (keys base (cp.filled i dl cpu))) : Sorted base Q cp (cp.heapifyDownLoop n i dl cpu) := by
  induction n generalizing i cp with
  | zero =>
    have := h.lt
    omega
  | succ n ih =>
    rw [heapifyDownLoop]
    rcases h.largest_spec hQ with ⟨heq, hmax⟩ | ⟨hj0, hj, hp, hle, hmax⟩
    · rw [if_pos heq]
      exact h.sorted (hdown.done hmax)
    · have hlt := parent_lt (i := cp.largest i dl) (by omega)
      rw [if_neg (by omega)]
      generalize cp.largest i dl = j at *
      have hdown' := hdown.swap hj0 hj hp hle hmax
      rw [← keys_swap, ← filled_pull (by omega)] at hdown'
      have hn' : (cp.pull j i).size ≤ n + j := by
        show cp.size ≤ n + j
        omega
      exact (ih hn' (h.pull hj (by omega)) hdown').of_pull

theorem heapifyDown_spec (h : cp.Holds Q) (hi : i < cp.size) (hdown : Down cp.size i (keys base cp.item)) :
    Sorted base Q cp (cp.heapifyDown i) := by
  unfold heapifyDown
  split
  · next hleaf =>
    refine ⟨h, hdown.done fun j hj0 hj hp => ?_, rfl, rfl, fun _ hc => hc⟩
    unfold leftChild at hleaf
    unfold Heap.parent at hp
    omega
  · refine heapifyDownLoop_spec hQ cp.size (by omega) (h.sifting hi) ?_
    rw [filled_self]
    exact hdown

theorem heapify_spec (h : cp.Holds Q) (hi : i < cp.size) (hoff : Off cp.size i (keys base cp.item)) :
    Sorted base Q cp (cp.heapify i) := by
  have hbefore : ∀ j k, j < cp.size → k < cp.size →
      (dlTimeBefore (cp.elements j).dl (cp.elements k).dl = true ↔ keys base cp.item j < keys base cp.item k) :=
    fun j k hj hk => before_iff_off (hQ _ (h.all j hj)) (hQ _ (h.all k hk))
  unfold heapify
  split
  · next hup =>
    have hp := parent_lt (i := i) (by omega)
    exact heapifyUp_spec hQ h hi (hoff.up ((hbefore _ _ (by omega) hi).1 hup.2).le hup.1)
  · next hup =>
    refine heapifyDown_spec hQ h hi (hoff.down fun hi0 => not_lt.1 fun hlt => hup ⟨hi0, ?_⟩)
    have hp := parent_lt (i := i) (by omega)
    exact (hbefore _ _ (by omega) hi).2 hlt

end

/-! ## The two operations -/

/-- What is in the heap: a CPU with the last deadline that was set for it, which is not free. -/
structure Entry (base : U64) (n : Nat) (last : Nat → Option U64) (free : Nat → Bool) (x : U64 × Nat) : Prop where
  cpu : x.2 < n
  within : Within base x.1
  last : last x.2 = some x.1
  busy : free x.2 = false

/-- The heap has the CPUs that a deadline was set for. -/
structure Tracks (base : U64) (n : Nat) (last : Nat → Option U64) (cp : Cpudl) : Prop where
  holds : cp.Holds (Entry base n last cp.freeCpus)
  ordered : Ordered cp.size (keys base cp.item)
  gone : ∀ c, cp.pos c = none → last c = none

def note {α : Type} (c : Nat) (v : α) (f : Nat → α) (x : Nat) : α := if x = c then v else f x

variable {base : U64} {n cpu : Nat} {last : Nat → Option U64} {dl : U64} {old : Nat}

theorem Sorted.tracks {u : Cpudl} (h : Sorted base (Entry base n last cp.freeCpus) cp u)
    (hgone : ∀ c, cp.pos c = none → last c = none) : Tracks base n last u :=
  ⟨⟨h.holds.inverse, by rw [h.freeCpus]; exact h.holds.all⟩, h.ordered, fun c hc => hgone c (h.gone c hc)⟩

theorem Sorted.tracks_setFree (cp : Cpudl) {u : Cpudl} {b : Bool}
    (h : Sorted base (Entry base n last (note cpu b cp.freeCpus)) cp u)
    (hgone : ∀ c, cp.pos c = none → last c = none) : Tracks base n last (u.setFree cpu b) := by
  have hfree : (u.setFree cpu b).freeCpus = note cpu b cp.freeCpus := by
    rw [← h.freeCpus]
    rfl
  exact ⟨⟨h.holds.inverse, by rw [hfree]; exact h.holds.all⟩, h.ordered, fun c hc => hgone c (h.gone c hc)⟩

theorem Entry.other {free : Nat → Bool} {x : U64 × Nat} (h : Entry base n last free x) (hne : x.2 ≠ cpu)
    (v : Option U64) (b : Bool) : Entry base n (note cpu v last) (note cpu b free) x :=
  ⟨h.cpu, h.within, (if_neg hne).trans h.last, (if_neg hne).trans h.busy⟩

/-! ### A CPU that is not in the heap -/

def appended (cpu : Nat) (dl : U64) (cp : Cpudl) : Cpudl := ({ cp with size := cp.size + 1 } : Cpudl).put cp.size dl cpu

theorem set_of_none (hpos : cp.pos cpu = none) :
    cp.set cpu dl = ((cp.appended cpu dl).heapifyUp cp.size).setFree cpu false := by
  have hidx : (cp.elements cpu).idx = none := hpos
  rw [set, hidx]
  rfl

theorem appended_item (cpu : Nat) (dl : U64) (k : Nat) :
    (cp.appended cpu dl).item k = if k = cp.size then (dl, cpu) else cp.item k := by
  rw [appended, put_item]
  rfl

theorem appended_pos (cpu : Nat) (dl : U64) (c : Nat) :
    (cp.appended cpu dl).pos c = if c = cpu then some cp.size else cp.pos c := by
  rw [appended, put_pos]
  rfl

theorem Tracks.appended_holds (h : Tracks base n last cp) (hcpu : cpu < n) (hdl : Within base dl)
    (hpos : cp.pos cpu = none) :
    (cp.appended cpu dl).Holds (Entry base n (note cpu (some dl) last) (note cpu false cp.freeCpus)) := by
  refine ⟨h.holds.inverse.append hpos (fun k => ?_) (appended_pos cpu dl), fun k hk => ?_⟩
  · rw [appended_item]
    split <;> rfl
  · have hk : k < cp.size + 1 := hk
    rw [appended_item]
    by_cases hks : k = cp.size
    · rw [if_pos hks]
      exact ⟨hcpu, hdl, if_pos rfl, if_pos rfl⟩
    · have hplace := h.holds.inverse.place k (by omega)
      have hne : (cp.item k).2 ≠ cpu := fun heq => by
        rw [heq, hpos] at hplace
        cases hplace
      rw [if_neg hks]
      exact (h.holds.all k (by omega)).other hne _ _

theorem Tracks.appended_up (h : Tracks base n last cp) (cpu : Nat) (dl : U64) :
    Up (cp.size + 1) cp.size (keys base (cp.appended cpu dl).item) := by
  refine ⟨fun j hj0 hj hjs => ?_, fun _ j hj0 hj hp => ?_⟩
  · have hp := parent_lt (i := j) (by omega)
    rw [keys, keys, appended_item, appended_item, if_neg hjs, if_neg (by omega)]
    exact h.ordered j hj0 (by omega)
  · have hp' := parent_lt (i := j) (by omega)
    omega

theorem Tracks.set_new (h : Tracks base n last cp) (hcpu : cpu < n) (hdl : Within base dl) (hpos : cp.pos cpu = none) :
    Tracks base n (note cpu (some dl) last) (cp.set cpu dl) := by
  have hsize : cp.size < (cp.appended cpu dl).size := Nat.lt_succ_self _
  rw [set_of_none hpos]
  refine Sorted.tracks_setFree (cp.appended cpu dl) ?_ fun c hc => ?_
  · exact heapifyUp_spec (fun _ hx => hx.within) (h.appended_holds hcpu hdl hpos) hsize (h.appended_up cpu dl)
  · rw [appended_pos] at hc
    split at hc
    · cases hc
    · next hne => exact (if_neg hne).trans (h.gone c hc)

/-! ### A CPU that is in the heap -/

def rekeyed (old : Nat) (dl : U64) (cp : Cpudl) : Cpudl := cp.upd old fun e => { e with dl := dl }

theorem set_of_some (hpos : cp.pos cpu = some old) : cp.set cpu dl = (cp.rekeyed old dl).heapify old := by
  have hidx : (cp.elements cpu).idx = some old := hpos
  rw [set, hidx]
  rfl

theorem rekeyed_item (old : Nat) (dl : U64) (k : Nat) :
    (cp.rekeyed old dl).item k = if k = old then (dl, (cp.item old).2) else cp.item k := by
  rw [rekeyed, item, upd_elements]
  split
  · next hk => rw [hk, item]
  · rfl

theorem rekeyed_cpu (old : Nat) (dl : U64) (k : Nat) : ((cp.rekeyed old dl).item k).2 = (cp.item k).2 := by
  rw [rekeyed_item]
  split
  · next hk => rw [hk]
  · rfl

theorem rekeyed_pos (old : Nat) (dl : U64) : (cp.rekeyed old dl).pos = cp.pos := by
  funext c
  rw [rekeyed, pos, upd_elements]
  split <;> rfl

theorem Tracks.rekeyed_holds (h : Tracks base n last cp) (hdl : Within base dl) (hold : old < cp.size)
    (hcpu : (cp.item old).2 = cpu) :
    (cp.rekeyed old dl).Holds (Entry base n (note cpu (some dl) last) (cp.rekeyed old dl).freeCpus) := by
  refine ⟨?_, fun k hk => ?_⟩
  · simp only [rekeyed_cpu, rekeyed_pos]
    exact h.holds.inverse
  · have hentry := h.holds.all k hk
    rw [rekeyed_item]
    split
    · next hko =>
      rw [hko] at hentry
      exact ⟨hentry.cpu, hdl, if_pos hcpu, hentry.busy⟩
    · next hko =>
      have hne : (cp.item k).2 ≠ cpu := fun heq => hko (h.holds.inverse.inj hk hold (heq.trans hcpu.symm))
      exact ⟨hentry.cpu, hentry.within, (if_neg hne).trans hentry.last, hentry.busy⟩

theorem Tracks.set_old (h : Tracks base n last cp) (hdl : Within base dl) (hpos : cp.pos cpu = some old) :
    Tracks base n (note cpu (some dl) last) (cp.set cpu dl) := by
  obtain ⟨hold, hcpu⟩ := h.holds.inverse.member cpu old hpos
  have hoff : Off cp.size old (keys base (cp.rekeyed old dl).item) := by
    refine h.ordered.off (fun j _ hj => ?_) hold
    rw [keys, keys, rekeyed_item, if_neg hj]
  rw [set_of_some hpos]
  refine (heapify_spec (fun _ hx => hx.within) (h.rekeyed_holds hdl hold hcpu) hold hoff).tracks fun c hc => ?_
  rw [rekeyed_pos] at hc
  have hne : c ≠ cpu := by
    rintro rfl
    rw [hpos] at hc
    cases hc
  exact (if_neg hne).trans (h.gone c hc)

theorem Tracks.set (h : Tracks base n last cp) (hcpu : cpu < n) (hdl : Within base dl) :
    Tracks base n (note cpu (some dl) last) (cp.set cpu dl) := by
  cases hpos : cp.pos cpu with
  | none => exact h.set_new hcpu hdl hpos
  | some old => exact h.set_old hdl hpos

/-! ### A CPU that leaves the heap -/

/-- The last CPU of the heap takes the place of the one that is removed, which may be the same. -/
def removed (cpu old : Nat) (cp : Cpudl) : Cpudl :=
  ({ cp.setItem old (cp.elements (cp.size - 1)).dl (cp.elements (cp.size - 1)).cpu with size := cp.size - 1 }.setIdx
    (cp.elements (cp.size - 1)).cpu (some old)).setIdx cpu none

theorem clear_eq (hpos : cp.pos cpu = some old) : cp.clear cpu = ((cp.removed cpu old).heapify old).setFree cpu true := by
  have hidx : (cp.elements cpu).idx = some old := hpos
  rw [clear, hidx]
  rfl

theorem removed_item (cpu old k : Nat) :
    (cp.removed cpu old).item k = if k = old then cp.item (cp.size - 1) else cp.item k := by
  rw [removed, setIdx_item, setIdx_item]
  exact setItem_item _ _ _ _

theorem removed_pos (cpu old c : Nat) : (cp.removed cpu old).pos c =
    if c = cpu then none else if c = (cp.item (cp.size - 1)).2 then some old else cp.pos c := by
  rw [removed, setIdx_pos, setIdx_pos]
  congr 2
  exact setItem_pos _ _ _ _

section

variable (h : Tracks base n last cp)

include h

theorem Tracks.removed_holds (hpos : cp.pos cpu = some old) :
    (cp.removed cpu old).Holds (Entry base n (note cpu none last) (note cpu true cp.freeCpus)) := by
  obtain ⟨hold, hcpu⟩ := h.holds.inverse.member cpu old hpos
  have hinj := fun {i j : Nat} => h.holds.inverse.inj (i := i) (j := j)
  refine ⟨h.holds.inverse.remove hpos (fun k => ?_) (removed_pos cpu old), fun k hk => ?_⟩
  · rw [removed_item]
    split <;> rfl
  · have hk : k < cp.size - 1 := hk
    rw [removed_item]
    split
    · refine (h.holds.all _ (by omega)).other (fun heq => ?_) _ _
      have := hinj (by omega) hold (heq.trans hcpu.symm)
      omega
    · next hko =>
      exact (h.holds.all k (by omega)).other (fun heq => hko (hinj (by omega) hold (heq.trans hcpu.symm))) _ _

/-- The CPU that is removed is the last: its position is behind the heap then, and nothing moves. -/
theorem Tracks.removed_last (cpu : Nat) (hold : old < cp.size) (hlast : old = cp.size - 1) :
    (cp.removed cpu old).item = cp.item ∧ (cp.removed cpu old).heapify old = cp.removed cpu old := by
  have hsame : (cp.removed cpu old).item = cp.item := by
    funext k
    rw [removed_item]
    split
    · next hk => rw [hk, hlast]
    · rfl
  have hdl : ∀ k, ((cp.removed cpu old).elements k).dl = (cp.item k).1 := fun k => congrArg Prod.fst (congrFun hsame k)
  have hchild : ¬ leftChild old < (cp.removed cpu old).size := by
    show ¬ 2 * old + 1 < cp.size - 1
    omega
  refine ⟨hsame, ?_⟩
  unfold heapify heapifyDown
  rw [if_neg, if_pos (not_lt.1 hchild)]
  rintro ⟨h0, hbefore⟩
  have hp := parent_lt (i := old) (by omega)
  rw [hdl, hdl] at hbefore
  have hlt := (before_iff_off (h.holds.all (parent old) (by omega)).within (h.holds.all old hold).within).1 hbefore
  exact absurd (h.ordered old h0 hold) (not_le.2 hlt)

theorem Tracks.removed_sorted (hpos : cp.pos cpu = some old) :
    Sorted base (Entry base n (note cpu none last) (note cpu true cp.freeCpus)) (cp.removed cpu old)
      ((cp.removed cpu old).heapify old) := by
  have hold := (h.holds.inverse.member cpu old hpos).1
  have hholds := h.removed_holds hpos
  have hless : Ordered (cp.size - 1) (keys base cp.item) := h.ordered.mono (by omega)
  by_cases hlast : old = cp.size - 1
  · obtain ⟨hsame, hstay⟩ := h.removed_last cpu hold hlast
    rw [hstay]
    refine ⟨hholds, ?_, rfl, rfl, fun _ hc => hc⟩
    rw [hsame]
    exact hless
  · have hlt : old < (cp.removed cpu old).size := by
      show old < cp.size - 1
      omega
    refine heapify_spec (fun _ hx => hx.within) hholds hlt (hless.off (fun j _ hj => ?_) hlt)
    rw [keys, keys, removed_item, if_neg hj]

theorem Tracks.clear : Tracks base n (note cpu none last) (cp.clear cpu) := by
  cases hpos : cp.pos cpu with
  | none =>
    have hidx : (cp.elements cpu).idx = none := hpos
    have hlast : note cpu none last = last := by
      funext c
      unfold note
      split
      · next hc => rw [hc, h.gone cpu hpos]
      · rfl
    rw [Cpudl.clear, hidx, hlast]
    exact h
  | some old =>
    rw [clear_eq hpos]
    refine Sorted.tracks_setFree (cp.removed cpu old) (h.removed_sorted hpos) fun c hc => ?_
    rw [removed_pos] at hc
    unfold note
    split at hc
    · next hcc => rw [if_pos hcc]
    · next hcc =>
      rw [if_neg hcc]
      split at hc
      · cases hc
      · exact h.gone c hc

end

theorem tracks_init (base : U64) (n : Nat) (free : Nat → Bool) : (init free).Tracks base n fun _ => none := by
  refine ⟨⟨⟨nofun, fun c k hc => ?_⟩, nofun⟩, fun j _ hj => ?_, fun _ _ => rfl⟩
  · cases hc
  · exact absurd hj (Nat.not_lt_zero j)

/-! ## Without the free CPUs

`cpudl_set_freecpu` sets a bit that nothing ties to the heap, so what the heap has is said for any free CPUs. -/

def withFree (free : Nat → Bool) (cp : Cpudl) : Cpudl := { cp with freeCpus := free }

theorem heapifyDownLoop_withFree (free : Nat → Bool) : ∀ (m i : Nat) (dl : U64) (cpu : Nat) (cp : Cpudl),
    (cp.withFree free).heapifyDownLoop m i dl cpu = (cp.heapifyDownLoop m i dl cpu).withFree free
  | 0, _, _, _, _ => rfl
  | m + 1, i, dl, cpu, cp => by
    have hlargest : (cp.withFree free).largest i dl = cp.largest i dl := rfl
    rw [heapifyDownLoop, heapifyDownLoop, hlargest]
    split
    · rfl
    · exact heapifyDownLoop_withFree free m _ dl cpu (cp.pull (cp.largest i dl) i)

theorem heapifyUpLoop_withFree (free : Nat → Bool) : ∀ (m i : Nat) (dl : U64) (cpu : Nat) (cp : Cpudl),
    (cp.withFree free).heapifyUpLoop m i dl cpu = (cp.heapifyUpLoop m i dl cpu).withFree free
  | 0, _, _, _, _ => rfl
  | m + 1, i, dl, cpu, cp => by
    have hdl : ((cp.withFree free).elements (parent i)).dl = (cp.elements (parent i)).dl := rfl
    simp only [heapifyUpLoop, hdl]
    split
    · rfl
    · split
      · rfl
      · exact heapifyUpLoop_withFree free m _ dl cpu (cp.pull (parent i) i)

theorem heapifyUp_withFree (free : Nat → Bool) (i : Nat) (cp : Cpudl) :
    (cp.withFree free).heapifyUp i = (cp.heapifyUp i).withFree free := by
  unfold heapifyUp
  split
  · rfl
  · exact heapifyUpLoop_withFree free _ _ _ _ cp

theorem heapify_withFree (free : Nat → Bool) (i : Nat) (cp : Cpudl) :
    (cp.withFree free).heapify i = (cp.heapify i).withFree free := by
  have hdl : ∀ j, ((cp.withFree free).elements j).dl = (cp.elements j).dl := fun _ => rfl
  simp only [heapify, hdl]
  split
  · exact heapifyUp_withFree free i cp
  · unfold heapifyDown
    have hsize : (cp.withFree free).size = cp.size := rfl
    rw [hsize]
    split
    · rfl
    · exact heapifyDownLoop_withFree free _ _ _ _ cp

theorem set_withFree (free : Nat → Bool) (cpu : Nat) (dl : U64) (cp : Cpudl) :
    ∃ free', (cp.withFree free).set cpu dl = (cp.set cpu dl).withFree free' := by
  cases hpos : cp.pos cpu with
  | none =>
    have hpos' : (cp.withFree free).pos cpu = none := hpos
    rw [set_of_none hpos, set_of_none hpos']
    refine ⟨note cpu false free, ?_⟩
    show (((cp.appended cpu dl).withFree free).heapifyUp cp.size).setFree cpu false = _
    rw [heapifyUp_withFree]
    rfl
  | some old =>
    have hpos' : (cp.withFree free).pos cpu = some old := hpos
    rw [set_of_some hpos, set_of_some hpos']
    exact ⟨free, heapify_withFree free old (cp.rekeyed old dl)⟩

theorem clear_withFree (free : Nat → Bool) (cpu : Nat) (cp : Cpudl) :
    ∃ free', (cp.withFree free).clear cpu = (cp.clear cpu).withFree free' := by
  cases hpos : cp.pos cpu with
  | none =>
    have hidx : (cp.elements cpu).idx = none := hpos
    have hidx' : ((cp.withFree free).elements cpu).idx = none := hpos
    exact ⟨free, by rw [clear, clear, hidx, hidx']⟩
  | some old =>
    have hpos' : (cp.withFree free).pos cpu = some old := hpos
    rw [clear_eq hpos, clear_eq hpos']
    refine ⟨note cpu true free, ?_⟩
    show (((cp.removed cpu old).withFree free).heapify old).setFree cpu true = _
    rw [heapify_withFree]
    rfl

/-- The heap has the CPUs that a deadline was set for, whichever CPUs are free. -/
def Carries (base : U64) (n : Nat) (last : Nat → Option U64) (cp : Cpudl) : Prop :=
  ∃ free, (cp.withFree free).Tracks base n last

section

variable {base base' : U64} {n cpu : Nat} {last : Nat → Option U64} {dl : U64}

theorem Carries.set (h : cp.Carries base n last) (hcpu : cpu < n) (hdl : Within base dl) :
    (cp.set cpu dl).Carries base n (note cpu (some dl) last) := by
  obtain ⟨free, h⟩ := h
  obtain ⟨free', heq⟩ := set_withFree free cpu dl cp
  exact ⟨free', heq ▸ h.set hcpu hdl⟩

theorem Carries.clear (h : cp.Carries base n last) : (cp.clear cpu).Carries base n (note cpu none last) := by
  obtain ⟨free, h⟩ := h
  obtain ⟨free', heq⟩ := clear_withFree free cpu cp
  exact ⟨free', heq ▸ h.clear⟩

theorem Carries.setFree (h : cp.Carries base n last) (cpu : Nat) (b : Bool) : (cp.setFree cpu b).Carries base n last := h

def entry (cp : Cpudl) (cpu : Nat) : Option U64 := (cp.elements cpu).idx.map fun i => (cp.elements i).dl

theorem Carries.entry (h : cp.Carries base n last) (cpu : Nat) : cp.entry cpu = last cpu := by
  obtain ⟨free, h⟩ := h
  unfold Cpudl.entry
  cases hpos : (cp.elements cpu).idx with
  | none => exact (h.gone cpu hpos).symm
  | some i =>
    obtain ⟨hi, heq⟩ := h.holds.inverse.member cpu i hpos
    have hlast := (h.holds.all i hi).last
    rw [heq] at hlast
    exact hlast.symm

theorem Carries.lt (h : cp.Carries base n last) {d : U64} (hentry : cp.entry cpu = some d) : cpu < n := by
  obtain ⟨free, h⟩ := h
  obtain ⟨i, hpos, -⟩ := Option.map_eq_some_iff.1 hentry
  obtain ⟨hi, heq⟩ := h.holds.inverse.member cpu i hpos
  exact heq ▸ (h.holds.all i hi).cpu

theorem Carries.rebase (h : cp.Carries base n last) (hwin : ∀ c d, last c = some d → Within base' d) :
    cp.Carries base' n last := by
  obtain ⟨free, h⟩ := h
  have hin : ∀ k < (cp.withFree free).size, Within base' ((cp.withFree free).item k).1 := fun k hk =>
    hwin _ _ (h.holds.all k hk).last
  refine ⟨free, ⟨h.holds.inverse, fun k hk => ?_⟩, fun i hi0 hi => ?_, h.gone⟩
  · have hentry := h.holds.all k hk
    exact ⟨hentry.cpu, hin k hk, hentry.last, hentry.busy⟩
  · have hp : parent i < (cp.withFree free).size := (parent_lt (i := i) (by omega)).trans hi
    have hle := h.ordered i hi0 hi
    unfold keys at hle ⊢
    have hdist := toInt_sub_of_within (h.holds.all _ hp).within (h.holds.all i hi).within
    rw [toInt_sub_of_within (hin _ hp) (hin i hi)] at hdist
    omega

end

end Cpudl

/-! ## Runs -/

inductive CpudlOp
  | set (cpu : Nat) (dl : U64)
  | clear (cpu : Nat)

namespace CpudlOp

def apply (cp : Cpudl) : CpudlOp → Cpudl
  | set cpu dl => cp.set cpu dl
  | clear cpu => cp.clear cpu

/-- The last deadline set for each CPU, if it was not cleared since. -/
def noteLast (last : Nat → Option U64) : CpudlOp → Nat → Option U64
  | set cpu dl => Cpudl.note cpu (some dl) last
  | clear cpu => Cpudl.note cpu none last

def lastSet (ops : List CpudlOp) : Nat → Option U64 := ops.foldl noteLast fun _ => none

/-- The CPU is one of `n`, and a deadline that is set lies in the window that starts at `base`. -/
def InWindow (base : U64) (n : Nat) : CpudlOp → Prop
  | set cpu dl => cpu < n ∧ Within base dl
  | clear cpu => cpu < n

instance (base : U64) (n : Nat) : ∀ op, Decidable (InWindow base n op)
  | set _ _ => inferInstanceAs (Decidable (_ ∧ _))
  | clear _ => inferInstanceAs (Decidable (_ < _))

end CpudlOp

/-- The heap of `n` CPUs is right, for the deadlines `last`: it has the CPUs that have one, and no others. -/
structure Cpudl.Correct (n : Nat) (last : Nat → Option U64) (cp : Cpudl) : Prop where
  bounded : cp.size ≤ n
  heap : ∀ i, 0 < i → i < cp.size → dlTimeBefore (cp.elements (Heap.parent i)).dl (cp.elements i).dl = false
  place : ∀ i, i < cp.size → (cp.elements i).cpu < n ∧ (cp.elements (cp.elements i).cpu).idx = some i
  member : ∀ c, c < n → ∀ i, (cp.elements c).idx = some i → i < cp.size ∧ (cp.elements i).cpu = c
  invalid : ∀ c, c < n → ((cp.elements c).idx = none ↔ ∀ i, i < cp.size → (cp.elements i).cpu ≠ c)
  deadline : ∀ i, i < cp.size → last (cp.elements i).cpu = some (cp.elements i).dl
  busy : ∀ i, i < cp.size → cp.freeCpus (cp.elements i).cpu = false
  listed : ∀ c dl, last c = some dl → ∃ i, i < cp.size ∧ (cp.elements i).cpu = c
  maximum : ∀ c dl, last c = some dl → ∃ dl', last cp.maximum = some dl' ∧ dlTimeBefore dl' dl = false

variable {last : Nat → Option U64} {cp : Cpudl} {base : U64}

theorem Cpudl.Tracks.size_le {n : Nat} (h : cp.Tracks base n last) : cp.size ≤ n := by
  have hcard := Finset.card_le_card_of_injOn (s := Finset.range cp.size) (t := Finset.range n) (fun i => (cp.item i).2)
    (fun i hi => by simpa using (h.holds.all i (by simpa using hi)).cpu)
    (fun i hi j hj heq => h.holds.inverse.inj (by simpa using hi) (by simpa using hj) heq)
  simpa using hcard

/-- A CPU that a deadline was set for is in the heap. -/
theorem Cpudl.Tracks.listed {n c : Nat} {dl : U64} (h : cp.Tracks base n last) (hc : last c = some dl) :
    ∃ i, i < cp.size ∧ (cp.elements i).cpu = c := by
  cases hpos : cp.pos c with
  | none =>
    rw [h.gone c hpos] at hc
    cases hc
  | some i => exact ⟨i, h.holds.inverse.member c i hpos⟩

theorem Cpudl.Tracks.correct {n : Nat} (h : cp.Tracks base n last) : cp.Correct n last := by
  have hbefore : ∀ i j, i < cp.size → j < cp.size → keys base cp.item j ≤ keys base cp.item i →
      dlTimeBefore (cp.elements i).dl (cp.elements j).dl = false := by
    intro i j hi hj hle
    rw [← Bool.not_eq_true]
    exact fun hb => absurd hle (not_le.2 ((before_iff_off (h.holds.all i hi).within (h.holds.all j hj).within).1 hb))
  refine ⟨h.size_le, fun i hi0 hi => ?_, fun i hi => ?_, fun c _ i hc => ?_, fun c _ =>
    ⟨fun hnone i hi heq => ?_, fun hno => ?_⟩,
    fun i hi => ?_, fun i hi => ?_, fun c dl => h.listed, fun c dl hc => ?_⟩
  · have hp := Heap.parent_lt (i := i) (by omega)
    exact hbefore _ _ (by omega) hi (h.ordered i hi0 hi)
  · exact ⟨(h.holds.all i hi).cpu, h.holds.inverse.place i hi⟩
  · exact h.holds.inverse.member c i hc
  · have : (cp.elements (cp.elements i).cpu).idx = some i := h.holds.inverse.place i hi
    rw [heq, hnone] at this
    cases this
  · cases hpos : (cp.elements c).idx with
    | none => rfl
    | some i =>
      obtain ⟨hi, heq⟩ := h.holds.inverse.member c i hpos
      exact absurd heq (hno i hi)
  · exact (h.holds.all i hi).last
  · exact (h.holds.all i hi).busy
  · obtain ⟨i, hi, rfl⟩ := h.listed hc
    have hdl : (cp.elements i).dl = dl := Option.some.inj ((h.holds.all i hi).last.symm.trans hc)
    exact ⟨_, (h.holds.all 0 (by omega)).last, hdl ▸ hbefore _ _ (by omega) hi (h.ordered.le_root hi)⟩

theorem CpudlOp.tracks_foldl {n : Nat} (ops : List CpudlOp) (hops : ∀ op ∈ ops, op.InWindow base n)
    (h : cp.Tracks base n last) :
    (ops.foldl apply cp).Tracks base n (ops.foldl noteLast last) := by
  induction ops generalizing last cp with
  | nil => exact h
  | cons op ops ih =>
    have hop := hops op List.mem_cons_self
    refine ih (fun op' hop' => hops op' (List.mem_cons_of_mem _ hop')) ?_
    cases op with
    | set cpu dl => exact h.set hop.1 hop.2
    | clear cpu => exact h.clear

/-- The heap is right after all operations with deadlines in one window. -/
theorem cpudl_correct (base : U64) (n : Nat) (free : Nat → Bool) (ops : List CpudlOp)
    (hops : ∀ op ∈ ops, op.InWindow base n) :
    (ops.foldl CpudlOp.apply (Cpudl.init free)).Correct n (CpudlOp.lastSet ops) :=
  (CpudlOp.tracks_foldl ops hops (Cpudl.tracks_init base n free)).correct

/-- Three CPUs with deadlines around the end of the range; one moves up, one leaves. -/
def wrapOps : List CpudlOp := [.set 0 (-2), .set 2 5, .set 1 (-1), .set 0 7, .clear 2]

theorem cpudl_correct_wrapOps : (∀ op ∈ wrapOps, op.InWindow (-2) 3) ∧
    (wrapOps.foldl CpudlOp.apply (Cpudl.init fun _ => true)).maximum = 0 ∧
      (wrapOps.foldl CpudlOp.apply (Cpudl.init fun _ => true)).Correct 3 (CpudlOp.lastSet wrapOps) :=
  ⟨by decide +kernel, by decide +kernel, cpudl_correct (-2) 3 (fun _ => true) wrapOps (by decide +kernel)⟩

end KernelSched.Deadline
