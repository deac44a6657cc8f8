import Mathlib.Data.BitVec
import Mathlib.Data.List.MinMax

/-!
# Words that wrap, compared by the sign of their difference

Counters of 64 bits that run past their end are ordered by the sign of the difference: `before a b` when `a - b`, read
as a signed word, is negative; `ahead a b` when it is positive. Neither is an order on all words. On the words of a
window shorter than half the range (`Within base`) both are the order of the distances from the base (`off base`), so
the smaller of two words (`wmin`) is a minimum there.
-/

namespace KernelSched.Wrap

open BitVec

abbrev U64 := BitVec 64

/-- The difference, read as a signed word, is negative. -/
def before (a b : U64) : Bool := decide ((a - b).toInt < 0)

/-- The difference, read as a signed word, is positive. -/
def ahead (a b : U64) : Bool := decide (0 < (a - b).toInt)

theorem before_iff {a b : U64} : before a b = true ↔ (a - b).toInt < 0 := by simp [before]

theorem ahead_iff {a b : U64} : ahead a b = true ↔ 0 < (a - b).toInt := by simp [ahead]

/-! ## Windows -/

/-- The distance of `x` from `base`, going up. -/
def off (base x : U64) : ℤ := (x - base).toNat

/-- `x` is less than half the range above `base`. -/
def Within (base x : U64) : Prop := (x - base).toNat < 2 ^ 63

/-- All words of `S` lie in one window narrower than half the range. -/
def Windowed (S : List U64) : Prop := ∃ base, ∀ x ∈ S, Within base x

section

variable {base a b : U64}

section

variable (ha : Within base a) (hb : Within base b)

include ha hb

theorem toInt_sub_of_within : (a - b).toInt = off base a - off base b := by
  unfold Within at ha hb
  unfold off
  rw [toInt_eq_toNat_cond]
  rw [← sub_sub_sub_cancel_right a b base, toNat_sub]
  split <;> omega

theorem before_iff_off : before a b = true ↔ off base a < off base b := by
  rw [before_iff, toInt_sub_of_within ha hb]; omega

theorem ahead_iff_off : ahead a b = true ↔ off base b < off base a := by
  rw [ahead_iff, toInt_sub_of_within ha hb]; omega

end

theorem off_inj : off base a = off base b ↔ a = b := by
  constructor
  · intro h
    have h' : a - base = b - base := eq_of_toNat_eq (by unfold off at h; exact_mod_cast h)
    exact sub_left_injective h'
  · rintro rfl; rfl

theorem windowed_iff {S : List U64} : Windowed S ↔ S = [] ∨ ∃ base ∈ S, ∀ x ∈ S, Within base x := by
  constructor
  · rintro ⟨base, hb⟩
    by_cases hne : S = []
    · exact .inl hne
    obtain ⟨m, hm⟩ := Option.ne_none_iff_exists'.1 (mt List.argmin_eq_none.1 hne : S.argmin (off base) ≠ none)
    refine .inr ⟨m, List.argmin_mem hm, fun x hx => ?_⟩
    have hle := List.le_of_mem_argmin hx hm
    have hd := toInt_sub_of_within (hb x hx) (hb m (List.argmin_mem hm))
    rw [toInt_eq_toNat_cond] at hd
    unfold Within
    split at hd <;> omega
  · rintro (rfl | ⟨base, -, hb⟩)
    · exact ⟨0, by simp⟩
    · exact ⟨base, hb⟩

instance (base x : U64) : Decidable (Within base x) := inferInstanceAs (Decidable (_ < _))

-- the bounded quantifiers are decided by going through the list, not through all words
instance (S : List U64) : Decidable (Windowed S) :=
  have : DecidablePred fun base => ∀ x ∈ S, Within base x := fun _ => List.decidableBAll _ S
  have : Decidable (∃ base ∈ S, ∀ x ∈ S, Within base x) := List.decidableBEx _ S
  decidable_of_iff' _ windowed_iff

end

/-! ## The smaller of two words -/

/-- `y` when `x` is ahead of it, else `x`. -/
def wmin (x y : U64) : U64 := if ahead x y then y else x

section

variable {base x y z : U64}

theorem wmin_within (hx : Within base x) (hy : Within base y) : Within base (wmin x y) := by
  unfold wmin; split <;> assumption

theorem off_wmin (hx : Within base x) (hy : Within base y) : off base (wmin x y) = min (off base x) (off base y) := by
  unfold wmin
  split
  · rename_i h
    have := (ahead_iff_off hx hy).1 h
    omega
  · rename_i h
    have := mt (ahead_iff_off hx hy).2 h
    omega

theorem eq_of_off (h : off base x = off base y) : x = y := off_inj.1 h

end

/-- `m` is one of the words of `S` and ahead of none of them. -/
def Least (m : U64) (S : List U64) : Prop := m ∈ S ∧ ∀ d ∈ S, ahead m d = false

instance (m : U64) (S : List U64) : Decidable (Least m S) :=
  have : Decidable (∀ d ∈ S, ahead m d = false) := List.decidableBAll _ S
  inferInstanceAs (Decidable (_ ∧ _))

theorem least_iff_off {base m : U64} {S : List U64} (hS : ∀ x ∈ S, Within base x) :
    Least m S ↔ m ∈ S ∧ ∀ d ∈ S, off base m ≤ off base d := by
  refine and_congr_right fun hm => forall₂_congr fun d hd => ?_
  rw [← Bool.not_eq_true, ahead_iff_off (hS m hm) (hS d hd), not_lt]

/-! ## Signed words whose sum or difference stays in range -/

def InS64 (x : ℤ) : Prop := -2 ^ 63 ≤ x ∧ x < 2 ^ 63

instance : DecidablePred InS64 := fun x => inferInstanceAs (Decidable (-2 ^ 63 ≤ x ∧ x < 2 ^ 63))

theorem InS64.toInt_ofInt {x : ℤ} (h : InS64 x) : (BitVec.ofInt 64 x).toInt = x := by
  obtain ⟨hlow, hhigh⟩ := h
  rw [BitVec.toInt_ofInt]
  exact Int.bmod_eq_of_le (by omega) (by omega)

section

variable {x y : U64}

theorem inS64_toInt (x : U64) : InS64 x.toInt := by
  have := le_toInt x
  have := toInt_lt (x := x)
  constructor <;> omega

theorem toInt_sub_of_range (h : -2 ^ 63 ≤ x.toInt - y.toInt) (h' : x.toInt - y.toInt < 2 ^ 63) :
    (x - y).toInt = x.toInt - y.toInt := by
  rw [toInt_sub]
  exact Int.bmod_eq_of_le (by omega) (by omega)

theorem toInt_add_of_range (h : -2 ^ 63 ≤ x.toInt + y.toInt) (h' : x.toInt + y.toInt < 2 ^ 63) :
    (x + y).toInt = x.toInt + y.toInt := by
  rw [toInt_add]
  exact Int.bmod_eq_of_le (by omega) (by omega)

end

/-! ## Words that move -/

section

variable {base x y : U64} {m n : ℤ}

/-- The word at distance `m` from `base`, for a distance of any size -/
def placedAt (base : U64) (m : ℤ) : U64 := base + BitVec.ofInt 64 m

theorem placedAt_zero : placedAt base 0 = base := by simp [placedAt]

theorem placedAt_move (h : x = placedAt base m) : y = placedAt base (m + (y - x).toInt) := by
  rw [placedAt, ofInt_add, ofInt_toInt, ← add_assoc]
  rw [placedAt] at h
  rw [← h, add_comm, sub_add_cancel]

/-- Of two positions less than half the range apart, the words are in the same order. -/
theorem toInt_placedAt_sub (hle : m ≤ n) (hlt : n - m < 2 ^ 63) : (placedAt base n - placedAt base m).toInt = n - m := by
  have hsub : placedAt base n - placedAt base m = BitVec.ofInt 64 (n - m) := by
    have hsplit : n = m + (n - m) := by omega
    rw [placedAt, placedAt, add_sub_add_left_eq_sub]
    nth_rewrite 1 [hsplit]
    rw [ofInt_add]
    exact add_sub_cancel_left _ _
  rw [hsub, toInt_ofInt]
  exact Int.bmod_eq_of_le (by omega) (by omega)

end

/-! ## Registers

A word of `w` bits that counts is the image of the count under the map from the integers, so a sum of words is the image
of the sum; only to read the count back does it have to be in range. -/

section

variable {v w : ℕ}

theorem setWidth_intCast (h : v ≤ w) (a : ℤ) : ((a : BitVec w)).setWidth v = (a : BitVec v) := by
  refine eq_of_toNat_eq ?_
  have hpos : (0 : ℤ) ≤ a % (2 ^ w : ℕ) := Int.emod_nonneg _ (Int.natCast_ne_zero.2 (Nat.two_pow_pos w).ne')
  have hdvd : ((2 ^ v : ℕ) : ℤ) ∣ (2 ^ w : ℕ) := by exact_mod_cast pow_dvd_pow 2 h
  show ((BitVec.ofInt w a).setWidth v).toNat = (BitVec.ofInt v a).toNat
  rw [toNat_setWidth, toNat_ofInt, toNat_ofInt, ← Int.emod_emod_of_dvd a hdvd,
    Int.toNat_emod hpos (Int.natCast_nonneg _), Int.toNat_natCast]

theorem toNat_intCast {a : ℤ} (h0 : 0 ≤ a) (h : a < (2 ^ w : ℕ)) : (((a : BitVec w)).toNat : ℤ) = a := by
  show ((BitVec.ofInt w a).toNat : ℤ) = a
  rw [toNat_ofInt, Int.emod_eq_of_lt h0 h, Int.toNat_of_nonneg h0]

end

end KernelSched.Wrap
