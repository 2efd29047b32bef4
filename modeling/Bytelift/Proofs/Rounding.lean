import Bytelift.Binary64
import Mathlib.Algebra.Order.Group.Nat
import Mathlib.Data.Int.Order.Basic

/-! Rounding whole numbers keeps their order. Two numbers may be rounded to the same one, but never past
each other: within a range between two powers of two they are rounded to the same grid, and no number is
rounded out of its range by more than the power that ends it. -/

namespace Bytelift.Binary64

theorem le_roundedQuotient (n d : Nat) : n / d ≤ roundedQuotient n d := by
  unfold roundedQuotient
  dsimp only
  split <;> omega

theorem roundedQuotient_le (n d : Nat) : roundedQuotient n d ≤ n / d + 1 := by
  unfold roundedQuotient
  dsimp only
  split <;> omega

theorem roundedQuotient_mono {a b d : Nat} (h : a ≤ b) : roundedQuotient a d ≤ roundedQuotient b d := by
  rcases Nat.lt_or_eq_of_le (Nat.div_le_div_right h) with hlt | heq
  · calc roundedQuotient a d ≤ a / d + 1 := roundedQuotient_le a d
      _ ≤ b / d := hlt
      _ ≤ roundedQuotient b d := le_roundedQuotient b d
  · -- between the same two points of the grid, the greater number has the greater excess
    have hmod : a % d ≤ b % d := by
      have ha := Nat.div_add_mod a d
      have hb := Nat.div_add_mod b d
      rw [heq] at ha
      omega
    unfold roundedQuotient
    dsimp only
    rw [heq]
    simp only [Bool.or_eq_true, Bool.and_eq_true, decide_eq_true_eq]
    split <;> split <;> omega

def roundedSize (m : Nat) : Nat :=
  if m < twoTo 53 then m else roundedQuotient m (twoTo (m.log2 - 52)) * twoTo (m.log2 - 52)

theorem eq_of_nearestWhole? {n x : Int} (h : nearestWhole? n = some x) :
    x = n.sign * roundedSize n.natAbs := by
  unfold nearestWhole? at h
  unfold roundedSize
  dsimp only at h
  split at h
  · next hsmall =>
    rw [if_pos hsmall, Int.sign_mul_natAbs]
    exact (Option.some.inj h).symm
  · next hlarge =>
    rw [if_neg hlarge]
    split at h
    · exact (Option.some.inj h).symm
    · cases h

theorem twoTo_add (a b : Nat) : twoTo (a + b) = twoTo a * twoTo b := Nat.pow_add 2 a b

theorem twoTo_pos (k : Nat) : 0 < twoTo k := Nat.pow_pos (by decide)

section Large

variable {m : Nat} (h : twoTo 53 ≤ m)

include h

theorem log2_large : 53 ≤ m.log2 := by
  have hne : m ≠ 0 := by
    have := twoTo_pos 53
    omega
  exact (Nat.le_log2 hne).2 h

theorem twoTo_log2_le : twoTo m.log2 ≤ roundedSize m := by
  have hne : m ≠ 0 := by
    have := twoTo_pos 53
    omega
  have hlog := log2_large h
  have hsplit : twoTo m.log2 = twoTo 52 * twoTo (m.log2 - 52) := by
    rw [← twoTo_add]
    congr 1
    omega
  have hfloor : twoTo 52 ≤ m / twoTo (m.log2 - 52) := by
    rw [Nat.le_div_iff_mul_le (twoTo_pos _), ← hsplit]
    exact Nat.log2_self_le hne
  rw [roundedSize, if_neg (by omega), hsplit]
  exact Nat.mul_le_mul_right _ (hfloor.trans (le_roundedQuotient _ _))

theorem roundedSize_le_twoTo : roundedSize m ≤ twoTo (m.log2 + 1) := by
  have hlog := log2_large h
  have hsplit : twoTo (m.log2 + 1) = twoTo 53 * twoTo (m.log2 - 52) := by
    rw [← twoTo_add]
    congr 1
    omega
  have hfloor : m / twoTo (m.log2 - 52) < twoTo 53 := by
    rw [Nat.div_lt_iff_lt_mul (twoTo_pos _), ← hsplit]
    exact Nat.lt_log2_self
  rw [roundedSize, if_neg (by omega), hsplit]
  exact Nat.mul_le_mul_right _ ((roundedQuotient_le _ _).trans hfloor)

end Large

theorem roundedSize_mono {a b : Nat} (h : a ≤ b) : roundedSize a ≤ roundedSize b := by
  by_cases hb : b < twoTo 53
  · rw [roundedSize, if_pos (by omega), roundedSize, if_pos hb]
    exact h
  have hb : twoTo 53 ≤ b := by omega
  by_cases ha : a < twoTo 53
  · have hpow : twoTo 53 ≤ twoTo b.log2 := Nat.pow_le_pow_right (by decide) (log2_large hb)
    have hle := twoTo_log2_le hb
    rw [roundedSize, if_pos ha]
    omega
  have ha : twoTo 53 ≤ a := by omega
  have hlog : a.log2 ≤ b.log2 := by
    have hpos := twoTo_pos 53
    exact (Nat.le_log2 (by omega)).2 ((Nat.log2_self_le (by omega)).trans h)
  rcases Nat.lt_or_eq_of_le hlog with hlt | heq
  · calc roundedSize a ≤ twoTo (a.log2 + 1) := roundedSize_le_twoTo ha
      _ ≤ twoTo b.log2 := Nat.pow_le_pow_right (by decide) hlt
      _ ≤ roundedSize b := twoTo_log2_le hb
  · rw [roundedSize, if_neg (by omega), roundedSize, if_neg (by omega), heq]
    exact Nat.mul_le_mul_right _ (roundedQuotient_mono h)

theorem nearestWhole?_mono {a b x y : Int} (h : a ≤ b) (ha : nearestWhole? a = some x)
    (hb : nearestWhole? b = some y) : x ≤ y := by
  rw [eq_of_nearestWhole? ha, eq_of_nearestWhole? hb]
  rcases Int.lt_trichotomy a 0 with hneg | rfl | hpos
  · rcases Int.lt_trichotomy b 0 with hneg' | rfl | hpos'
    · -- below zero the greater number is the smaller one in size
      have hsize := roundedSize_mono (by omega : b.natAbs ≤ a.natAbs)
      rw [Int.sign_eq_neg_one_of_neg hneg, Int.sign_eq_neg_one_of_neg hneg']
      omega
    · rw [Int.sign_eq_neg_one_of_neg hneg]
      simp
    · rw [Int.sign_eq_neg_one_of_neg hneg, Int.sign_eq_one_of_pos hpos']
      omega
  · have hsign : 0 ≤ b.sign := Int.sign_nonneg_iff.2 h
    simpa using Int.mul_nonneg hsign (Int.natCast_nonneg _)
  · have hsize := roundedSize_mono (by omega : a.natAbs ≤ b.natAbs)
    rw [Int.sign_eq_one_of_pos hpos, Int.sign_eq_one_of_pos (by omega : 0 < b)]
    omega

end Bytelift.Binary64
