import Mathlib.Order.Lattice

/-!
# Binary heaps in an array, with the place of every member

Position `i` has its parent at `(i - 1) / 2`. An array of keys is in order (`Ordered`) if no key is above that of its
parent. While one key is sifted up or down, the order fails only around it (`Up`, `Down`); exchanging it with its parent,
or with the greater of its children, moves the fault (`Up.swap`, `Down.swap`). `Inverse` says that a table gives the
position of every member; `Placed` that it does so for all but the one that is being moved.
-/

namespace KernelSched.Heap

def parent (i : Nat) : Nat := (i - 1) / 2

theorem parent_lt {i : Nat} (h : i ≠ 0) : parent i < i := by
  unfold parent
  omega

def swap {α : Type} (i j : Nat) (f : Nat → α) (k : Nat) : α := if k = i then f j else if k = j then f i else f k

section

variable {α : Type} {f : Nat → α} {i j k : Nat}

@[simp] theorem swap_left : swap i j f i = f j := if_pos rfl

@[simp] theorem swap_right : swap i j f j = f i := by
  unfold swap
  split
  · next h => rw [h]
  · exact if_pos rfl

theorem swap_of_ne (hi : k ≠ i) (hj : k ≠ j) : swap i j f k = f k := by rw [swap, if_neg hi, if_neg hj]

theorem swap_forall {n : Nat} {P : α → Prop} (h : ∀ k < n, P (f k)) (hi : i < n) (hj : j < n) :
    ∀ k < n, P (swap i j f k) := by
  intro k hk
  unfold swap
  split
  · exact h j hj
  · split
    · exact h i hi
    · exact h k hk

end

/-! ## Order -/

section

variable {κ : Type} [LinearOrder κ] {n i j : Nat} {K K' : Nat → κ}

/-- No key is above that of its parent. -/
def Ordered (n : Nat) (K : Nat → κ) : Prop := ∀ j, 0 < j → j < n → K j ≤ K (parent j)

/-- The children of `i` are not above its parent. -/
def Bridged (n i : Nat) (K : Nat → κ) : Prop := 0 < i → ∀ j, 0 < j → j < n → parent j = i → K j ≤ K (parent i)

/-- In order but for `i` and its children. -/
structure Off (n i : Nat) (K : Nat → κ) : Prop where
  rest : ∀ j, 0 < j → j < n → j ≠ i → parent j ≠ i → K j ≤ K (parent j)
  bridged : Bridged n i K

/-- In order but for `i`, which may be above its parent. -/
structure Up (n i : Nat) (K : Nat → κ) : Prop where
  rest : ∀ j, 0 < j → j < n → j ≠ i → K j ≤ K (parent j)
  bridged : Bridged n i K

/-- In order but for the children of `i`, which may be above it. -/
structure Down (n i : Nat) (K : Nat → κ) : Prop where
  rest : ∀ j, 0 < j → j < n → parent j ≠ i → K j ≤ K (parent j)
  bridged : Bridged n i K

theorem Ordered.le_root (h : Ordered n K) (hi : i < n) : K i ≤ K 0 := by
  induction i using Nat.strong_induction_on with
  | _ i ih =>
    by_cases hi0 : i = 0
    · rw [hi0]
    · have hp := parent_lt hi0
      exact (h i (by omega) hi).trans (ih _ hp (by omega))

theorem Ordered.mono {m : Nat} (h : Ordered n K) (hm : m ≤ n) : Ordered m K :=
  fun j hj0 hj => h j hj0 (hj.trans_le hm)

theorem Ordered.off (h : Ordered n K) (hK : ∀ j, j < n → j ≠ i → K' j = K j) (hi : i < n) : Off n i K' := by
  refine ⟨fun j hj0 hj hji hp => ?_, fun hi0 j hj0 hj hp => ?_⟩
  · have hlt := parent_lt (i := j) (by omega)
    rw [hK j hj hji, hK (parent j) (by omega) hp]
    exact h j hj0 hj
  · have hlt := parent_lt (i := i) (by omega)
    have hlt' := parent_lt (i := j) (by omega)
    rw [hK j hj (by omega), hK (parent i) (by omega) (by omega)]
    have hstep := h j hj0 hj
    rw [hp] at hstep
    exact hstep.trans (h i hi0 hi)

theorem Off.up (h : Off n i K) (hi : K (parent i) ≤ K i) (hi0 : 0 < i) : Up n i K := by
  refine ⟨fun j hj0 hj hji => ?_, h.bridged⟩
  by_cases hp : parent j = i
  · rw [hp]
    exact (h.bridged hi0 j hj0 hj hp).trans hi
  · exact h.rest j hj0 hj hji hp

theorem Off.down (h : Off n i K) (hi : 0 < i → K i ≤ K (parent i)) : Down n i K := by
  refine ⟨fun j hj0 hj hp => ?_, h.bridged⟩
  by_cases hji : j = i
  · subst hji
    exact hi hj0
  · exact h.rest j hj0 hj hji hp

theorem Up.done (h : Up n i K) (hi : 0 < i → K i ≤ K (parent i)) : Ordered n K := by
  intro j hj0 hj
  by_cases hji : j = i
  · subst hji
    exact hi hj0
  · exact h.rest j hj0 hj hji

theorem Down.done (h : Down n i K) (hi : ∀ j, 0 < j → j < n → parent j = i → K j ≤ K i) : Ordered n K := by
  intro j hj0 hj
  by_cases hp : parent j = i
  · rw [hp]
    exact hi j hj0 hj hp
  · exact h.rest j hj0 hj hp

theorem Up.swap (h : Up n i K) (hi0 : 0 < i) (hi : i < n) (hle : K (parent i) ≤ K i) :
    Up n (parent i) (swap i (parent i) K) := by
  have hlt := parent_lt (i := i) (by omega)
  refine ⟨fun j hj0 hj hjp => ?_, fun hp0 j hj0 hj hpj => ?_⟩
  · by_cases hji : j = i
    · subst hji
      rw [swap_left, swap_right]
      exact hle
    · rw [swap_of_ne hji hjp]
      by_cases hpi : parent j = i
      · -- a child of `i` now has the old parent above it
        rw [hpi, swap_left]
        exact h.bridged hi0 j hj0 hj hpi
      · by_cases hpp : parent j = parent i
        · rw [hpp, swap_right]
          have := h.rest j hj0 hj hji
          rw [hpp] at this
          exact this.trans hle
        · rw [swap_of_ne hpi hpp]
          exact h.rest j hj0 hj hji
  · have hlt' := parent_lt (i := parent i) (by omega)
    have hup := h.rest (parent i) hp0 (by omega) (by omega)
    rw [swap_of_ne (k := parent (parent i)) (by omega) (by omega)]
    by_cases hji : j = i
    · subst hji
      rw [swap_left]
      exact hup
    · have hltj := parent_lt (i := j) (by omega)
      rw [swap_of_ne hji (by omega)]
      have := h.rest j hj0 hj hji
      rw [hpj] at this
      exact this.trans hup

theorem Down.swap (h : Down n i K) (hj0 : 0 < j) (hj : j < n) (hp : parent j = i) (hle : K i ≤ K j)
    (hmax : ∀ k, 0 < k → k < n → parent k = i → K k ≤ K j) : Down n j (swap i j K) := by
  have hlt := parent_lt (i := j) (by omega)
  refine ⟨fun k hk0 hk hpk => ?_, fun _ k hk0 hk hpk => ?_⟩
  · have hltk := parent_lt (i := k) (by omega)
    by_cases hkj : k = j
    · subst hkj
      rw [swap_right, hp, swap_left]
      exact hle
    · by_cases hki : k = i
      · -- the parent of `i` is above the child that took its place
        subst hki
        rw [swap_left, swap_of_ne (by omega) (by omega)]
        exact h.bridged hk0 j hj0 hj hp
      · rw [swap_of_ne hki hkj]
        by_cases hpi : parent k = i
        · rw [hpi, swap_left]
          exact hmax k hk0 hk hpi
        · rw [swap_of_ne hpi hpk]
          exact h.rest k hk0 hk hpi
  · have hltk := parent_lt (i := k) (by omega)
    rw [swap_of_ne (by omega) (by omega), hp, swap_left]
    have := h.rest k hk0 hk (by omega)
    rwa [hpk] at this

end

/-! ## Places -/

section

variable {ν : Type} {n i j : Nat} {C : Nat → ν} {pos q : ν → Option Nat}

/-- The members are at the positions that the table gives, and only those have one. -/
structure Inverse (n : Nat) (C : Nat → ν) (pos : ν → Option Nat) : Prop where
  place : ∀ k, k < n → pos (C k) = some k
  member : ∀ c k, pos c = some k → k < n ∧ C k = c

/-- The same, but for what the table says of the member at `i`. -/
structure Placed (n i : Nat) (C : Nat → ν) (pos : ν → Option Nat) : Prop where
  place : ∀ k, k < n → k ≠ i → pos (C k) = some k
  member : ∀ c k, c ≠ C i → pos c = some k → k < n ∧ C k = c
  alone : ∀ k, k < n → k ≠ i → C k ≠ C i

theorem Inverse.inj (h : Inverse n C pos) (hi : i < n) (hj : j < n) (heq : C i = C j) : i = j := by
  have := h.place i hi
  rw [heq, h.place j hj] at this
  exact (Option.some.inj this).symm

theorem Inverse.placed (h : Inverse n C pos) (hi : i < n) : Placed n i C pos :=
  ⟨fun k hk _ => h.place k hk, fun c k _ hc => h.member c k hc, fun _ hk hki heq => hki (h.inj hk hi heq)⟩

variable [DecidableEq ν]

theorem Placed.swap (h : Placed n i C pos) (hi : i < n) (hj : j < n) (hij : j ≠ i)
    (hpos : ∀ c, q c = if c = C j then some i else pos c) : Placed n j (swap i j C) q := by
  refine ⟨fun k hk hkj => ?_, fun c k hc hck => ?_, fun k hk hkj => ?_⟩
  · by_cases hki : k = i
    · rw [hki, swap_left, hpos, if_pos rfl]
    · rw [swap_of_ne hki hkj, hpos, if_neg, h.place k hk hki]
      intro heq
      have hk' := h.place k hk hki
      rw [heq, h.place j hj hij] at hk'
      exact hkj (Option.some.inj hk').symm
  · rw [swap_right] at hc
    rw [hpos] at hck
    split at hck
    · next hcj =>
      obtain rfl := Option.some.inj hck
      exact ⟨hi, by rw [swap_left, hcj]⟩
    · next hcj =>
      obtain ⟨hk, heq⟩ := h.member c k hc hck
      refine ⟨hk, ?_⟩
      rw [swap_of_ne, heq]
      · rintro rfl
        exact hc heq.symm
      · rintro rfl
        exact hcj heq.symm
  · rw [swap_right]
    by_cases hki : k = i
    · rw [hki, swap_left]
      exact h.alone j hj hij
    · rw [swap_of_ne hki hkj]
      exact h.alone k hk hki

theorem Placed.done (h : Placed n i C pos) (hi : i < n) (hpos : ∀ c, q c = if c = C i then some i else pos c) :
    Inverse n C q := by
  refine ⟨fun k hk => ?_, fun c k hck => ?_⟩
  · rw [hpos]
    by_cases hki : k = i
    · rw [hki, if_pos rfl]
    · rw [if_neg (h.alone k hk hki), h.place k hk hki]
  · rw [hpos] at hck
    split at hck
    · next hc =>
      obtain rfl := Option.some.inj hck
      exact ⟨hi, hc.symm⟩
    · next hc => exact h.member c k hc hck

theorem Inverse.append (h : Inverse n C pos) {D : Nat → ν} {c : ν} (hc : pos c = none)
    (hD : ∀ k, D k = if k = n then c else C k) (hpos : ∀ x, q x = if x = c then some n else pos x) :
    Inverse (n + 1) D q := by
  refine ⟨fun k hk => ?_, fun x k hx => ?_⟩
  · rw [hpos, hD]
    by_cases hkn : k = n
    · rw [if_pos hkn, if_pos rfl, hkn]
    · have hplace := h.place k (by omega)
      have hne : C k ≠ c := fun heq => by
        rw [heq, hc] at hplace
        cases hplace
      rw [if_neg hkn, if_neg hne]
      exact hplace
  · rw [hpos] at hx
    rw [hD]
    split at hx
    · next hxc =>
      obtain rfl := Option.some.inj hx
      exact ⟨by omega, by rw [if_pos rfl, hxc]⟩
    · obtain ⟨hk, heq⟩ := h.member x k hx
      exact ⟨by omega, by rw [if_neg hk.ne]; exact heq⟩

/-- The last member takes the place of the one that is removed, which may be the same. -/
theorem Inverse.remove (h : Inverse n C pos) {D : Nat → ν} {c : ν} (hc : pos c = some i)
    (hD : ∀ k, D k = if k = i then C (n - 1) else C k)
    (hpos : ∀ x, q x = if x = c then none else if x = C (n - 1) then some i else pos x) : Inverse (n - 1) D q := by
  obtain ⟨hi, hic⟩ := h.member c i hc
  refine ⟨fun k hk => ?_, fun x k hx => ?_⟩
  · rw [hpos, hD]
    by_cases hki : k = i
    · have hne : C (n - 1) ≠ c := fun heq => by
        have := h.inj (by omega) hi (heq.trans hic.symm)
        omega
      rw [if_pos hki, if_neg hne, if_pos rfl, hki]
    · have hne : C k ≠ c := fun heq => hki (h.inj (by omega) hi (heq.trans hic.symm))
      have hlast : C k ≠ C (n - 1) := fun heq => by
        have := h.inj (by omega) (by omega) heq
        omega
      rw [if_neg hki, if_neg hne, if_neg hlast]
      exact h.place k (by omega)
  · rw [hpos] at hx
    rw [hD]
    split at hx
    · cases hx
    · next hxc =>
      split at hx
      · next hl =>
        obtain rfl := Option.some.inj hx
        have hne : i ≠ n - 1 := fun heq => hxc (by rw [hl, ← heq, hic])
        exact ⟨by omega, by rw [if_pos rfl, hl]⟩
      · next hl =>
        obtain ⟨hk, heq⟩ := h.member x k hx
        have hki : k ≠ i := by
          rintro rfl
          exact hxc (heq.symm.trans hic)
        have hkl : k ≠ n - 1 := by
          rintro rfl
          exact hl heq.symm
        exact ⟨by omega, by rw [if_neg hki]; exact heq⟩

end

end KernelSched.Heap
