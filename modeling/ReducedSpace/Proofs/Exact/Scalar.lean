import Mathlib
import ReducedSpace.Basis.Solver

/-!
# Exact scalars

A linearly ordered field reads the definitions of the library as mathematics: comparisons decide the
order, nothing is a NaN, and all values are finite. The constants that stand for infinity, for a
result that is not a number and for the spacing of the numbers are left open, and so is the square
root, of which `ExactRoots` asks that it inverts squaring. Statements over all exact scalars
therefore depend on none of them.
-/

namespace ReducedSpace

/-- A linearly ordered field with the constants that the algorithms mention. -/
class ExactScalar (K : Type) extends Field K, LinearOrder K, IsStrictOrderedRing K where
  root : K → K
  unbounded : K
  undefined : K
  spacing : K
  smallest : K

/-- The arithmetic of an exact scalar. -/
instance ExactScalar.toScalar {K : Type} [ExactScalar K] : Scalar K where
  ofNat n := (n : K)
  lt a b := decide (a < b)
  le a b := decide (a ≤ b)
  eq a b := decide (a = b)
  abs a := |a|
  max := max
  min := min
  sqrt := ExactScalar.root
  isNaN _ := false
  isFinite _ := true
  infinity := ExactScalar.unbounded
  nan := ExactScalar.undefined
  epsilon := ExactScalar.spacing
  minPositive := ExactScalar.smallest

/-- The square root of a positive number is a number with that square. -/
class ExactRoots (K : Type) [ExactScalar K] : Prop where
  mul_self_root : ∀ {x : K}, 0 < x → ExactScalar.root x * ExactScalar.root x = x

/-- Rational arithmetic. Square roots are exact for squares only. -/
instance : ExactScalar Rat where
  root := Rat.sqrt
  unbounded := 2 ^ 1024
  undefined := 0
  spacing := 1 / 2 ^ 52
  smallest := 1 / 2 ^ 1022

/-- Real arithmetic. -/
noncomputable instance : ExactScalar Real where
  root := Real.sqrt
  unbounded := 2 ^ 1024
  undefined := 0
  spacing := 1 / 2 ^ 52
  smallest := 1 / 2 ^ 1022

instance : ExactRoots Real := ⟨fun hx => Real.mul_self_sqrt hx.le⟩

variable {K : Type} [ExactScalar K]

namespace Scalar

@[simp] theorem lt_iff {a b : K} : Scalar.lt a b = true ↔ a < b := decide_eq_true_iff

/-- Exact numbers are totally ordered. -/
@[simp] theorem lt_eq_false_iff {a b : K} : Scalar.lt a b = false ↔ b ≤ a := by
  rw [← not_lt]
  exact decide_eq_false_iff_not

@[simp] theorem le_iff {a b : K} : Scalar.le a b = true ↔ a ≤ b := decide_eq_true_iff

/-- So a comparison that fails holds the other way round. -/
@[simp] theorem le_eq_false_iff {a b : K} : Scalar.le a b = false ↔ b < a := by
  rw [← not_le]
  exact decide_eq_false_iff_not

@[simp] theorem eq_iff {a b : K} : Scalar.eq a b = true ↔ a = b := decide_eq_true_iff

@[simp] theorem isZero_iff {a : K} : Scalar.isZero a = true ↔ a = 0 := decide_eq_true_iff

/-- The test for zero is exact. -/
@[simp] theorem isZero_eq_false_iff {a : K} : Scalar.isZero a = false ↔ a ≠ 0 :=
  decide_eq_false_iff_not

@[simp] theorem abs_eq (a : K) : Scalar.abs a = |a| := rfl

@[simp] theorem max_eq (a b : K) : Scalar.max a b = max a b := rfl

@[simp] theorem min_eq (a b : K) : Scalar.min a b = min a b := rfl

@[simp] theorem ofNat_eq (n : Nat) : (Scalar.ofNat n : K) = (n : K) := rfl

@[simp] theorem isNaN_eq (a : K) : Scalar.isNaN a = false := rfl

/-- Repeated squaring computes the power. -/
theorem powAux_eq (base acc : K) (k : Nat) : powAux base acc k = acc * base ^ k := by
  induction k using Nat.strong_induction_on generalizing base acc with
  | _ k ih =>
    rw [powAux]
    by_cases hk : k = 0
    · simp [hk]
    · rw [dif_neg hk, ih (k / 2) (by omega), ← pow_two, ← pow_mul]
      have hsplit := Nat.div_add_mod k 2
      rcases Nat.mod_two_eq_zero_or_one k with hmod | hmod
      · rw [if_neg (by omega), show 2 * (k / 2) = k by omega]
      · rw [if_pos hmod, mul_assoc, ← pow_succ', show 2 * (k / 2) + 1 = k by omega]

/-- Powers of a positive number are positive, with negative exponents as well. -/
theorem pow_positive {base : K} (h : 0 < base) (k : Int) : 0 < Scalar.pow base k := by
  cases k with
  | ofNat k =>
    show 0 < powAux base 1 k
    rw [powAux_eq, one_mul]
    exact pow_pos h k
  | negSucc k =>
    show 0 < 1 / powAux base 1 (k + 1)
    rw [powAux_eq, one_mul]
    exact one_div_pos.2 (pow_pos h (k + 1))

end Scalar

/-- The threshold of every attempt is positive if the base threshold is. -/
theorem thresholdForAttempt_pos {u : K} (hu : 0 < u) (attempt : Nat) :
    0 < thresholdForAttempt u attempt := by
  rw [thresholdForAttempt]
  split
  · exact hu
  · have hten : (0 : K) < Scalar.ofNat 10 := by
      rw [Scalar.ofNat_eq]
      norm_num
    exact lt_min (mul_pos hu (Scalar.pow_positive hten _)) one_pos

/-- The threshold of every attempt is at most one if the base threshold is. -/
theorem thresholdForAttempt_le_one {u : K} (hu : u ≤ 1) (attempt : Nat) :
    thresholdForAttempt u attempt ≤ 1 := by
  rw [thresholdForAttempt]
  split
  · exact hu
  · exact min_le_right _ _

/-- A count of less than 31 bits is read as it is. -/
theorem signed32_of_lt {n : Nat} (h : n < 2 ^ 31) : signed32 n = n := by
  have hpow : Nat.pow 2 32 = 4294967296 := by norm_num
  unfold signed32
  exact Int.bmod_eq_of_le_mul_two (by rw [hpow]; omega) (by rw [hpow]; omega)

/-- No retry lowers the threshold, as long as their number does not overflow. -/
theorem le_thresholdForAttempt {u : K} (hu : 0 < u) (hu' : u ≤ 1) {attempt : Nat}
    (hattempt : attempt < 2 ^ 31) : u ≤ thresholdForAttempt u attempt := by
  rw [thresholdForAttempt]
  split
  · exact le_refl u
  · rw [signed32_of_lt hattempt]
    refine le_min (le_mul_of_one_le_right hu.le ?_) hu'
    show 1 ≤ Scalar.powAux (Scalar.ofNat 10 : K) 1 attempt
    rw [Scalar.powAux_eq, one_mul]
    refine one_le_pow₀ ?_
    rw [Scalar.ofNat_eq]
    norm_num

/-- The tolerances of a pivot search are in their documented ranges. -/
structure PivotTolerances (threshold rankTol : K) : Prop where
  threshold_pos : 0 < threshold
  threshold_le_one : threshold ≤ 1
  rankTol_nonneg : 0 ≤ rankTol

/-- The tolerances of a solver are in their documented ranges. -/
structure Tolerances (threshold rankTol refactorTol : K) : Prop
    extends PivotTolerances threshold rankTol where
  refactorTol_nonneg : 0 ≤ refactorTol

section Sums

open Finset

/-- A sum gathered from left to right. -/
theorem foldl_add_range (f : Nat → K) (s : K) (n : Nat) :
    (List.range n).foldl (fun s k => s + f k) s = s + ∑ k ∈ range n, f k := by
  induction n with
  | zero => simp
  | succ n ih =>
    rw [List.range_succ, List.foldl_append, ih, List.foldl_cons, List.foldl_nil,
      sum_range_succ, add_assoc]

end Sums

end ReducedSpace
