import Mathlib.Data.ENat.Basic
import ChunkSort.Value

/-!
Floating-point numbers by their bits: a sign, eleven bits of exponent and 52 bits of fraction. The ranks that keys
compare put all of them, NaNs included, in the total order of the floating-point standard.
-/

namespace ChunkSort
namespace FloatBits

def isNegative (a : UInt64) : Bool := 0x8000000000000000 ≤ a

def exponent (a : UInt64) : Nat := a.toNat / 2 ^ 52 % 2 ^ 11

def fraction (a : UInt64) : Nat := a.toNat % 2 ^ 52

def negate (a : UInt64) : UInt64 := a + 0x8000000000000000

/-- A finite number in multiples of the smallest one. A leading one stands before the fraction unless the exponent is
zero. -/
def units (exponent fraction : Nat) : Nat :=
  if exponent = 0 then fraction else (2 ^ 52 + fraction) * 2 ^ (exponent - 1)

def size (a : UInt64) : ℕ∞ := if exponent a = 2047 then ⊤ else units (exponent a) (fraction a)

def totalOrder (a b : UInt64) : Ordering := compare (rank a) (rank b)

/-- What makes an order the standard's total order: numbers stand by size, the zero with a sign before the one without,
and NaNs behind the infinity of their sign, by their fractions. The negative side mirrors the positive one. -/
structure IsTotalOrder (ord : UInt64 → UInt64 → Ordering) : Prop where
  eq_iff : ∀ {a b}, ord a b = .eq ↔ a = b
  swap : ∀ {a b}, ord b a = (ord a b).swap
  signs : ∀ {a b}, isNegative a = true → isNegative b = false → ord a b = .lt
  mirrored : ∀ {a b}, isNegative a = false → isNegative b = false → ord (negate a) (negate b) = ord b a
  numbers : ∀ {a b}, isNegative a = false → isNegative b = false → isNaN a = false → isNaN b = false →
    size a < size b → ord a b = .lt
  nans_last : ∀ {a b}, isNegative a = false → isNegative b = false → isNaN a = false → isNaN b = true → ord a b = .lt
  nans : ∀ {a b}, isNegative a = false → isNegative b = false → isNaN a = true → isNaN b = true →
    ord a b = compare (fraction a) (fraction b)

variable {a b : UInt64}

theorem isNegative_eq_false_iff : isNegative a = false ↔ a.toNat < 2 ^ 63 := by
  rw [isNegative, decide_eq_false_iff_not, UInt64.le_iff_toNat_le, Nat.not_le]
  rfl

theorem isNegative_eq_true_iff : isNegative a = true ↔ 2 ^ 63 ≤ a.toNat := by
  rw [isNegative, decide_eq_true_iff, UInt64.le_iff_toNat_le]
  rfl

theorem rank_of_not_negative (h : isNegative a = false) : rank a = a.toNat := by
  rw [isNegative_eq_false_iff] at h
  rw [rank, if_pos (UInt64.lt_iff_toNat_lt.mpr h)]

theorem rank_of_negative (h : isNegative a = true) : rank a = 2 ^ 63 - 1 - (a.toNat : Int) := by
  rw [isNegative_eq_true_iff] at h
  rw [rank, if_neg (by rw [UInt64.lt_iff_toNat_lt]; exact Nat.not_lt_of_le h)]
  rfl

theorem rank_injective (h : rank a = rank b) : a = b := by
  apply UInt64.toNat_inj.mp
  have ha := a.toNat_lt
  have hb := b.toNat_lt
  cases hna : isNegative a <;> cases hnb : isNegative b
  · rw [rank_of_not_negative hna, rank_of_not_negative hnb] at h
    omega
  · rw [rank_of_not_negative hna, rank_of_negative hnb] at h
    rw [isNegative_eq_true_iff] at hnb
    omega
  · rw [rank_of_negative hna, rank_of_not_negative hnb] at h
    rw [isNegative_eq_true_iff] at hna
    omega
  · rw [rank_of_negative hna, rank_of_negative hnb] at h
    omega

/-! ### Fields -/

theorem toNat_eq (h : isNegative a = false) : a.toNat = exponent a * 2 ^ 52 + fraction a := by
  rw [isNegative_eq_false_iff] at h
  rw [exponent, fraction]
  omega

theorem isNaN_iff : isNaN a = true ↔ exponent a = 2047 ∧ fraction a ≠ 0 := by
  have hmagnitude : (magnitude a).toNat = a.toNat % 2 ^ 63 := by
    rw [magnitude, UInt64.toNat_and]
    exact Nat.and_two_pow_sub_one_eq_mod a.toNat 63
  have hlt := a.toNat_lt
  rw [isNaN, decide_eq_true_iff, UInt64.lt_iff_toNat_lt, hmagnitude, exponent, fraction]
  change 2047 * 2 ^ 52 < _ ↔ _
  omega

theorem units_le_of_exponent_lt {e e' f : Nat} (f' : Nat) (he : e < e') (hf : f < 2 ^ 52) : units e f ≤ units e' f' := by
  obtain ⟨e', rfl⟩ := Nat.exists_eq_succ_of_ne_zero (Nat.ne_zero_of_lt he)
  have hleast : 2 ^ 52 * 2 ^ e' ≤ units (e' + 1) f' := by
    rw [units, if_neg (Nat.succ_ne_zero e'), Nat.add_sub_cancel]
    exact Nat.mul_le_mul_right _ (Nat.le_add_right _ _)
  refine Nat.le_trans ?_ hleast
  cases e with
  | zero =>
    rw [units, if_pos rfl]
    exact Nat.le_trans (Nat.le_of_lt hf) (Nat.le_mul_of_pos_right _ (Nat.two_pow_pos e'))
  | succ e =>
    rw [units, if_neg (Nat.succ_ne_zero e), Nat.add_sub_cancel]
    -- The leading one of the next exponent is worth more than any fraction.
    calc (2 ^ 52 + f) * 2 ^ e ≤ 2 ^ 52 * 2 * 2 ^ e := Nat.mul_le_mul_right _ (by omega)
      _ = 2 ^ 52 * 2 ^ (e + 1) := by rw [Nat.mul_assoc, ← Nat.pow_succ']
      _ ≤ 2 ^ 52 * 2 ^ e' := Nat.mul_le_mul_left _ (Nat.pow_le_pow_right (by decide) (Nat.lt_of_succ_lt_succ he))

theorem units_le_of_fraction_le (e : Nat) {f f' : Nat} (h : f ≤ f') : units e f ≤ units e f' := by
  unfold units
  split
  · exact h
  · exact Nat.mul_le_mul_right _ (Nat.add_le_add_left h _)

theorem size_le (ha : isNegative a = false) (hb : isNegative b = false) (h : b.toNat ≤ a.toNat) : size b ≤ size a := by
  have hfa : fraction a < 2 ^ 52 := Nat.mod_lt _ (by decide)
  have hfb : fraction b < 2 ^ 52 := Nat.mod_lt _ (by decide)
  have hea : exponent a < 2 ^ 11 := Nat.mod_lt _ (by decide)
  rw [toNat_eq ha, toNat_eq hb] at h
  rw [size, size]
  by_cases hinf : exponent a = 2047
  · rw [if_pos hinf]
    exact le_top
  rw [if_neg hinf, if_neg (by omega), Nat.cast_le]
  rcases Nat.lt_or_ge (exponent b) (exponent a) with he | he
  · exact units_le_of_exponent_lt _ he hfb
  · obtain he : exponent b = exponent a := by omega
    rw [he]
    exact units_le_of_fraction_le _ (by omega)

/-! ### The order -/

theorem compare_of_strictMono {α β : Type} [LinearOrder α] [LinearOrder β] {f : α → β} (h : StrictMono f) (a b : α) :
    compare (f a) (f b) = compare a b := by
  rw [← cmp_eq_compare, ← cmp_eq_compare, h.cmp_map_eq]

theorem compare_of_strictAnti {α β : Type} [LinearOrder α] [LinearOrder β] {f : α → β} (h : StrictAnti f) (a b : α) :
    compare (f a) (f b) = compare b a := by
  rw [← cmp_eq_compare, ← cmp_eq_compare, h.cmp_map_eq]

theorem totalOrder_of_not_negative (ha : isNegative a = false) (hb : isNegative b = false) :
    totalOrder a b = compare a.toNat b.toNat := by
  have hmono : StrictMono fun n : Nat => (n : Int) := fun _ _ h => Int.ofNat_lt.mpr h
  rw [totalOrder, rank_of_not_negative ha, rank_of_not_negative hb]
  exact compare_of_strictMono hmono _ _

theorem totalOrder_lt_of_toNat_lt (ha : isNegative a = false) (hb : isNegative b = false) (h : a.toNat < b.toNat) :
    totalOrder a b = .lt := by
  rw [totalOrder_of_not_negative ha hb, compare_lt_iff_lt]
  exact h

theorem totalOrder_of_negative (ha : isNegative a = true) (hb : isNegative b = true) :
    totalOrder a b = compare b.toNat a.toNat := by
  have hanti : StrictAnti fun n : Nat => 2 ^ 63 - 1 - (n : Int) := fun m n h => by
    dsimp only
    omega
  rw [totalOrder, rank_of_negative ha, rank_of_negative hb]
  exact compare_of_strictAnti hanti _ _

theorem toNat_negate (h : isNegative a = false) : (negate a).toNat = a.toNat + 2 ^ 63 := by
  rw [isNegative_eq_false_iff] at h
  have hsign : (0x8000000000000000 : UInt64).toNat = 2 ^ 63 := rfl
  rw [negate, UInt64.toNat_add, hsign, Nat.mod_eq_of_lt (by omega)]

theorem isNegative_negate (h : isNegative a = false) : isNegative (negate a) = true := by
  rw [isNegative_eq_true_iff, toNat_negate h]
  exact Nat.le_add_left _ _

theorem totalOrder_isTotalOrder : IsTotalOrder totalOrder where
  eq_iff := by
    intro a b
    rw [totalOrder, compare_eq_iff_eq]
    exact ⟨rank_injective, congrArg rank⟩
  swap := Std.OrientedOrd.eq_swap
  signs := by
    intro a b ha hb
    rw [totalOrder, rank_of_negative ha, rank_of_not_negative hb, compare_lt_iff_lt]
    rw [isNegative_eq_true_iff] at ha
    omega
  mirrored := by
    intro a b ha hb
    have hmono : StrictMono fun n : Nat => n + 2 ^ 63 := fun m n h => Nat.add_lt_add_right h _
    rw [totalOrder_of_negative (isNegative_negate ha) (isNegative_negate hb), toNat_negate ha, toNat_negate hb,
      totalOrder_of_not_negative hb ha]
    exact compare_of_strictMono hmono _ _
  numbers := by
    intro a b ha hb _ _ hsize
    apply totalOrder_lt_of_toNat_lt ha hb
    by_contra hle
    exact absurd (size_le ha hb (Nat.le_of_not_lt hle)) (not_le_of_gt hsize)
  nans_last := by
    intro a b ha hb hna hnb
    apply totalOrder_lt_of_toNat_lt ha hb
    obtain ⟨heb, hfb⟩ := isNaN_iff.mp hnb
    have hna : ¬(exponent a = 2047 ∧ fraction a ≠ 0) := fun h => by simp [isNaN_iff.mpr h] at hna
    have hea : exponent a < 2 ^ 11 := Nat.mod_lt _ (by decide)
    have hfa : fraction a < 2 ^ 52 := Nat.mod_lt _ (by decide)
    rw [toNat_eq ha, toNat_eq hb, heb]
    omega
  nans := by
    intro a b ha hb hna hnb
    have hmono : StrictMono fun f : Nat => 2047 * 2 ^ 52 + f := fun m n h => Nat.add_lt_add_left h _
    rw [totalOrder_of_not_negative ha hb, toNat_eq ha, toNat_eq hb, (isNaN_iff.mp hna).1, (isNaN_iff.mp hnb).1]
    exact compare_of_strictMono hmono _ _

end FloatBits
end ChunkSort
