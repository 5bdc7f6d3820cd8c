import ReducedSpace.Proofs.Dense.Cholesky
import ReducedSpace.Proofs.Exact.Substitution

/-!
# Solves with Cholesky factors

Both substitutions read the lower triangle of the factor only. A triangle that has no zero on its
diagonal and multiplies with its transpose to a matrix therefore solves with that matrix. The
factorization of a positive definite matrix returns such a triangle wherever positive numbers have
square roots.
-/

namespace ReducedSpace.Cholesky

open Finset Elimination

variable {K : Type} [ExactScalar K] {c : Cholesky K} {n : ℕ} {a : ℕ → ℕ → K}

/-- The lower triangle of the factor, which is all that is read of it. -/
def triangle (c : Cholesky K) (i k : ℕ) : K := if k ≤ i then c.lower.entry i k else 0

/-- The triangle times its transpose is a matrix, and every entry of its diagonal can be divided
by. -/
structure Factors (c : Cholesky K) (n : ℕ) (a : ℕ → ℕ → K) : Prop where
  rows_eq : c.lower.rows = n
  diagonal_ne_zero : ∀ i, i < n → c.lower.entry i i ≠ 0
  sum_eq : ∀ i, i < n → ∀ j, j < n →
    ∑ k ∈ range n, c.triangle i k * c.triangle j k = a i j

instance : Decidable (c.Factors n a) :=
  decidable_of_iff (c.lower.rows = n ∧ (∀ i, i < n → c.lower.entry i i ≠ 0) ∧
      ∀ i, i < n → ∀ j, j < n → ∑ k ∈ range n, c.triangle i k * c.triangle j k = a i j)
    ⟨fun h => ⟨h.1, h.2.1, h.2.2⟩, fun h => ⟨h.rows_eq, h.diagonal_ne_zero, h.sum_eq⟩⟩

/-- The solutions are those with a matrix. -/
def SolvesWith (c : Cholesky K) (n : ℕ) (a : ℕ → ℕ → K) : Prop :=
  ∀ b : Array K, b.size = n → product n n a (c.solve b) = b

theorem size_forward (c : Cholesky K) (b : Array K) : (c.forward b).size = b.size :=
  Vec.size_sweep _ _ _

section Triangle

theorem triangle_self (c : Cholesky K) (i : ℕ) : c.triangle i i = c.lower.entry i i :=
  if_pos (Nat.le_refl i)

theorem triangle_of_lt (c : Cholesky K) {i k : ℕ} (h : i < k) : c.triangle i k = 0 :=
  if_neg (Nat.not_le.2 h)

theorem triangle_of_le (c : Cholesky K) {i k : ℕ} (h : k ≤ i) :
    c.triangle i k = c.lower.entry i k := if_pos h

variable {b : Array K}

/-- The first substitution solves with the triangle. -/
theorem sum_triangle_forward (hrows : c.lower.rows = n)
    (hne : ∀ i, i < n → c.lower.entry i i ≠ 0) (hb : b.size = n) {i : ℕ} (hi : i < n) :
    ∑ k ∈ range n, c.triangle i k * (c.forward b).getD k 0 = b.getD i 0 := by
  have hfold : ∀ i (z : Array K), i < n →
      (List.range i).foldl (fun v k => -z.getD k 0 * c.lower.entry i k + v) (z.getD i 0) /
          c.lower.entry i i =
        (z.getD i 0 - ∑ k ∈ range i, c.triangle i k * z.getD k 0) / c.lower.entry i i := by
    intro i z _
    have hstep : (fun v k => -z.getD k 0 * c.lower.entry i k + v) =
        fun v k => v + -(c.lower.entry i k * z.getD k 0) := by
      funext v k
      ring
    rw [hstep, foldl_add_range (fun k => -(c.lower.entry i k * z.getD k 0)), sum_neg_distrib,
      ← sub_eq_add_neg]
    refine congrArg (fun s => (_ - s) / _) (sum_congr rfl fun k hk => ?_)
    rw [c.triangle_of_le (Nat.le_of_lt (mem_range.1 hk))]
  refine sum_of_forward (y := fun k => (c.forward b).getD k 0) (b := fun i => b.getD i 0)
    (fun i k _ hik => c.triangle_of_lt hik) (fun i hi => ?_) hi
  have hentry := getD_sweep_forward hb.ge hfold hi
  rw [triangle_self, forward, hrows, hentry, mul_div_cancel₀ _ (hne i hi)]

/-- The second substitution solves with the transposed triangle. -/
theorem sum_triangle_backward (hrows : c.lower.rows = n)
    (hne : ∀ i, i < n → c.lower.entry i i ≠ 0) (hb : b.size = n) {k : ℕ} (hk : k < n) :
    ∑ i ∈ range n, c.triangle i k * (c.backward b).getD i 0 = b.getD k 0 := by
  have hblocked : ∀ i (z : Array K), i < n →
      (z.getD i 0 - blockedSum (n - (i + 1)) (fun t => c.lower.entry (i + 1 + t) i)
          fun t => z.getD (i + 1 + t) 0) / c.lower.entry i i =
        (z.getD i 0 - ∑ k ∈ Ico (i + 1) n, c.triangle k i * z.getD k 0) / c.lower.entry i i := by
    intro i z _
    rw [blockedSum_eq, sum_Ico_eq_sum_range]
    refine congrArg (fun s => (_ - s) / _) (sum_congr rfl fun t _ => ?_)
    rw [c.triangle_of_le (show i ≤ i + 1 + t by omega)]
  refine sum_of_backward (t := fun k i => c.triangle i k)
    (y := fun i => (c.backward b).getD i 0) (b := fun k => b.getD k 0)
    (fun k i _ hik => c.triangle_of_lt hik) (fun i hi => ?_) hk
  have hentry := getD_sweep_backward hb.ge hblocked hi
  rw [triangle_self, backward, hrows]
  dsimp only
  rw [hentry, mul_div_cancel₀ _ (hne i hi)]

end Triangle

/-- Factors of a matrix solve with it. -/
theorem Factors.solvesWith (h : c.Factors n a) : c.SolvesWith n a := by
  intro b hb
  have hsize : (c.forward b).size = n := (c.size_forward b).trans hb
  refine ext_getD (by rw [size_product, hb]) fun i hi => ?_
  rw [size_product] at hi
  calc (product n n a (c.solve b)).getD i 0
      = ∑ j ∈ range n, a i j * (c.solve b).getD j 0 := getD_product hi
    _ = ∑ k ∈ range n, c.triangle i k *
          ∑ j ∈ range n, c.triangle j k * (c.solve b).getD j 0 := by
        simp only [mul_sum]
        rw [sum_comm]
        refine sum_congr rfl fun j hj => ?_
        rw [← h.sum_eq i hi j (mem_range.1 hj), sum_mul]
        exact sum_congr rfl fun k _ => mul_assoc _ _ _
    _ = ∑ k ∈ range n, c.triangle i k * (c.forward b).getD k 0 := by
        refine sum_congr rfl fun k hk => congrArg _ ?_
        exact sum_triangle_backward h.rows_eq h.diagonal_ne_zero hsize (mem_range.1 hk)
    _ = b.getD i 0 := sum_triangle_forward h.rows_eq h.diagonal_ne_zero hb hi

section Roots

variable [ExactRoots K] {s : DenseMatrix K}

/-- Columns of the elimination that are scaled by the roots of the pivots factor the matrix. -/
theorem Columns.factors (h : Columns s c.lower n n) (hsymm : ∀ i j, s.entry i j = s.entry j i)
    (hpos : ∀ k, k < n → 0 < natural s.entry k k k) : c.Factors n s.entry := by
  have hpivots : NaturalPivots s.entry n := fun k hk => (hpos k hk).ne'
  have hroot : ∀ k, k < n → ExactScalar.root (natural s.entry k k k) *
      ExactScalar.root (natural s.entry k k k) = natural s.entry k k k :=
    fun k hk => ExactRoots.mul_self_root (hpos k hk)
  have hscaled : ∀ i k, i < n → k < n →
      c.triangle i k * ExactScalar.root (natural s.entry k k k) = natural s.entry k i k := by
    intro i k hi hk
    rcases Nat.lt_or_ge i k with hik | hki
    · rw [c.triangle_of_lt hik, zero_mul,
        natural_row_eq_zero (hpivots.mono (Nat.le_of_lt hk)) hik]
    · rw [c.triangle_of_le hki, h.entry_mul_root i k hk hki hi]
  refine ⟨h.rows_eq, fun i hi hzero => ?_, fun i hi j hj => ?_⟩
  · have hdiagonal := hscaled i i hi hi
    rw [triangle_self, hzero, zero_mul] at hdiagonal
    exact (hpos i hi).ne hdiagonal
  · rw [← sum_factors hpivots hi j]
    refine sum_congr rfl fun k hk => ?_
    have hk := mem_range.1 hk
    rw [Elimination.lower, upper, natural_symmetric hsymm k k j, div_mul_eq_mul_div,
      eq_div_iff (hpos k hk).ne', ← hscaled i k hi hk, ← hscaled j k hj hk]
    linear_combination -(c.triangle i k * c.triangle j k) * hroot k hk

/-- Where positive numbers have roots, the factors of a positive definite matrix are exact. -/
theorem factors_of_factor? (hsymm : ∀ i j, s.entry i j = s.entry j i)
    (hpositive : PositiveFrom s.rows 0 s.entry) (h : factor? s = some c) :
    c.Factors s.rows s.entry := by
  obtain ⟨c', hc', hcolumns⟩ := exists_factor hsymm hpositive
  obtain rfl : c = c' := Option.some.inj (h.symm.trans hc')
  exact hcolumns.factors hsymm fun k hk => natural_diagonal_pos hsymm hpositive hk

end Roots

end ReducedSpace.Cholesky
