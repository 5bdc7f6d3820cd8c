import Mathlib
import ReducedSpace.Proofs.Basis.PivotOrders
import ReducedSpace.Proofs.Basis.SearchSteps
import ReducedSpace.Proofs.Basis.SparseLu
import ReducedSpace.Proofs.Sparse.Submatrix

/-!
# Markowitz pivoting in exact arithmetic

The pivots of an analysis become the diagonal of its leading block. They are nonzero when their turn
comes, so the factorization of that block in natural order meets the same pivots again and cannot
fail without a tolerance. What the pivots leave is zero without a rank tolerance, so their number is
the rank.
-/

namespace ReducedSpace.MarkowitzSolver

open Elimination

variable {K : Type} [ExactScalar K]

/-- The solver has tolerances in their documented ranges. -/
def Admissible (solver : MarkowitzSolver K) : Prop :=
  Tolerances solver.pivotThreshold solver.rankTol solver.refactorTol

/-- The threshold is in its documented range, and no pivot is too small for an analysis and for the
factors that it ends with. -/
def Untolerant (solver : MarkowitzSolver K) : Prop :=
  0 < solver.pivotThreshold ∧ solver.pivotThreshold ≤ 1 ∧ solver.rankTol = 0 ∧
    solver.refactorTol = 0

/-- Tolerances of zero are in range. -/
theorem Untolerant.admissible {solver : MarkowitzSolver K} (h : solver.Untolerant) :
    solver.Admissible := ⟨⟨h.1, h.2.1, h.2.2.1.ge⟩, h.2.2.2.ge⟩

section Orders

variable {α : Type} [Scalar α]

/-- A completed order starts with the listed indices. -/
theorem old_of_orderPermutation {order : List ℕ} {n : ℕ} {p : Permutation}
    (h : orderPermutation order n = .ok p) {t i : ℕ} (ht : order[t]? = some i) : p.old t = i := by
  have hlt : t < order.length := (List.getElem?_eq_some_iff.1 ht).1
  have hget : (p.olds.extract 0 order.length)[t]? = some i := by
    rw [extract_olds_of_orderPermutation h, List.getElem?_toArray, ht]
  rw [Array.getElem?_extract] at hget
  split at hget
  · rw [Nat.zero_add] at hget
    unfold Permutation.old
    rw [Array.getD_eq_getD_getElem?, hget, Option.getD_some]
  · cases hget

omit [Scalar α] in
/-- The leading block has as many rows as asked for. -/
theorem rows_leadingBlock (a : SparseMatrix α) {rowPerm : Permutation} {r : ℕ}
    (hr : r ≤ rowPerm.size) (colPerm : Permutation) :
    (leadingBlock a rowPerm colPerm r).rows = r :=
  rowPerm.size_extract_olds hr

omit [Scalar α] in
/-- And as many columns. -/
theorem cols_leadingBlock (a : SparseMatrix α) (rowPerm : Permutation) {colPerm : Permutation}
    {r : ℕ} (hc : r ≤ colPerm.size) : (leadingBlock a rowPerm colPerm r).cols = r :=
  colPerm.size_extract_olds hc

/-- Its entries come from the old positions. -/
theorem entry_leadingBlock (a : SparseMatrix α) {rowPerm colPerm : Permutation} {r : ℕ}
    (hr : r ≤ rowPerm.size) (hc : r ≤ colPerm.size) {i j : ℕ} (hi : i < r) (hj : j < r) :
    (leadingBlock a rowPerm colPerm r).entry i j = a.entry (rowPerm.old i) (colPerm.old j) := by
  unfold SparseMatrix.entry leadingBlock
  rw [a.find?_submatrix_extract hr hc, if_pos ⟨hi, hj⟩, Nat.zero_add, Nat.zero_add]

end Orders

/-- No entry of the leading block is larger than the largest one of the matrix. -/
theorem maxAbs_leadingBlock_le (a : SparseMatrix K) {rowPerm colPerm : Permutation} {r : ℕ}
    (hr : r ≤ rowPerm.size) (hc : r ≤ colPerm.size) :
    (leadingBlock a rowPerm colPerm r).maxAbs ≤ a.maxAbs := by
  refine maxAbs_le_of_find? fun i j v hv => ?_
  rw [leadingBlock] at hv
  rw [a.find?_submatrix_extract hr hc] at hv
  split at hv
  · exact ⟨_, _, hv⟩
  · cases hv

variable {solver : MarkowitzSolver K} {a : SparseMatrix K} {hints : AnalysisHints}

/-- Without a rank tolerance the pivots count the rank. -/
theorem length_pivots_eq_rank (h : solver.Admissible) (htol : solver.rankTol = 0)
    (a : SparseMatrix K) (hints : AnalysisHints) :
    (solver.pivots a hints).length = (block a.rows a.cols a.entry).rank := by
  refine ((pivots_valid solver a hints).rank_eq_length (pivots_lt solver a hints)
    fun i j hi hj => ?_).symm
  rcases Nat.lt_or_ge (solver.pivots a hints).length (min a.rows a.cols) with hlt | hge
  · have hle : |residual (ActiveMatrix.ofSparse a).value (solver.pivots a hints) i j| ≤
        solver.rankTol * a.maxAbs :=
      ActiveMatrix.abs_residual_pivots_le (ActiveMatrix.ofSparse_aligned a)
        (ActiveMatrix.zeroFree_ofSparse a)
        (thresholdForAttempt_le_one h.threshold_le_one hints.attempt)
        (mul_nonneg h.rankTol_nonneg (maxAbs_nonneg a)) hlt i j
    have hzero : solver.rankTol * a.maxAbs = 0 := by rw [htol, zero_mul]
    rw [hzero, value_ofSparse_eq] at hle
    exact abs_eq_zero.1 (le_antisymm hle (abs_nonneg _))
  · exact (pivots_valid solver a hints).residual_eq_zero (pivots_lt solver a hints) hge hi hj

section LeadingBlock

variable {rowPerm colPerm : Permutation}

private theorem rank_le_sizes
    (hrow : orderPermutation ((solver.pivots a hints).map (·.1)) a.rows = .ok rowPerm)
    (hcol : orderPermutation ((solver.pivots a hints).map (·.2)) a.cols = .ok colPerm) :
    (solver.pivots a hints).length ≤ rowPerm.size ∧
      (solver.pivots a hints).length ≤ colPerm.size := by
  have hle := length_pivots_le solver a hints
  obtain ⟨hrows, hcols⟩ := size_of_orders hrow hcol
  omega

/-- The orders of an analysis start with its pivots. -/
theorem old_of_orders
    (hrow : orderPermutation ((solver.pivots a hints).map (·.1)) a.rows = .ok rowPerm)
    (hcol : orderPermutation ((solver.pivots a hints).map (·.2)) a.cols = .ok colPerm) {t : ℕ}
    {e : ℕ × ℕ} (ht : (solver.pivots a hints)[t]? = some e) :
    e = (rowPerm.old t, colPerm.old t) := by
  have hp : ((solver.pivots a hints).map (·.1))[t]? = some e.1 := by
    rw [List.getElem?_map, ht, Option.map_some]
  have hq : ((solver.pivots a hints).map (·.2))[t]? = some e.2 := by
    rw [List.getElem?_map, ht, Option.map_some]
  rw [old_of_orderPermutation hrow hp, old_of_orderPermutation hcol hq]

/-- Elimination of the leading block along its diagonal goes through the values of the active
matrices of the search. -/
theorem natural_leadingBlock
    (hrow : orderPermutation ((solver.pivots a hints).map (·.1)) a.rows = .ok rowPerm)
    (hcol : orderPermutation ((solver.pivots a hints).map (·.2)) a.cols = .ok colPerm)
    {k i j : ℕ} (hk : k ≤ (solver.pivots a hints).length)
    (hi : i < (solver.pivots a hints).length) (hj : j < (solver.pivots a hints).length) :
    natural (leadingBlock a rowPerm colPerm (solver.pivots a hints).length).entry k i j =
      (solver.active a hints k).value (rowPerm.old i) (colPerm.old j) := by
  obtain ⟨hr, hc⟩ := rank_le_sizes hrow hcol
  rw [natural_congr hk hk (fun i j hi hj => entry_leadingBlock a hr hc hi hj) hi hj,
    natural_of_pivots a.entry (fun t e ht => old_of_orders hrow hcol ht) hk, value_active]

/-- The pivots of an analysis are the diagonal pivots of its leading block. -/
theorem naturalPivots_leadingBlock
    (hrow : orderPermutation ((solver.pivots a hints).map (·.1)) a.rows = .ok rowPerm)
    (hcol : orderPermutation ((solver.pivots a hints).map (·.2)) a.cols = .ok colPerm) :
    NaturalPivots (leadingBlock a rowPerm colPerm (solver.pivots a hints).length).entry
      (solver.pivots a hints).length := by
  intro t ht
  have hget := List.getElem?_eq_getElem ht
  have hne := (pivots_valid solver a hints).getElem_ne_zero hget
  rw [old_of_orders hrow hcol hget] at hne
  rw [natural_leadingBlock hrow hcol (Nat.le_of_lt ht) ht ht, value_active]
  exact hne

/-- Factors of the leading block are those of its elimination along the diagonal, whatever the
tolerance. -/
theorem records_leadingBlock
    (hrow : orderPermutation ((solver.pivots a hints).map (·.1)) a.rows = .ok rowPerm)
    (hcol : orderPermutation ((solver.pivots a hints).map (·.2)) a.cols = .ok colPerm)
    {refactorTol : K} {f : SparseLu K}
    (hf : SparseLu.factor refactorTol
      (leadingBlock a rowPerm colPerm (solver.pivots a hints).length) = .ok f) :
    f.Records (leadingBlock a rowPerm colPerm (solver.pivots a hints).length).entry
      (solver.pivots a hints).length (solver.pivots a hints).length := by
  obtain ⟨hr, hc⟩ := rank_le_sizes hrow hcol
  have hrows := rows_leadingBlock a hr colPerm
  have hcols := cols_leadingBlock a rowPerm hc
  have hrecords := fun hpivots => SparseLu.records_factor
    (SparseLu.rejectsZeros_of_pivots refactorTol hpivots) (hcols.trans hrows.symm) hf
  rw [hrows] at hrecords
  exact hrecords (naturalPivots_leadingBlock hrow hcol)

/-- If its tolerance is not the larger one, the factorization of the leading block succeeds. -/
theorem exists_factor_leadingBlock (h : solver.refactorTol ≤ solver.rankTol)
    (hrow : orderPermutation ((solver.pivots a hints).map (·.1)) a.rows = .ok rowPerm)
    (hcol : orderPermutation ((solver.pivots a hints).map (·.2)) a.cols = .ok colPerm) :
    ∃ f, SparseLu.factor solver.refactorTol
      (leadingBlock a rowPerm colPerm (solver.pivots a hints).length) = .ok f := by
  obtain ⟨hr, hc⟩ := rank_le_sizes hrow hcol
  have hrows := rows_leadingBlock a hr colPerm
  have hcols := cols_leadingBlock a rowPerm hc
  have hpivots := naturalPivots_leadingBlock hrow hcol
  have hmax := maxAbs_leadingBlock_le a hr hc
  have hfactor := SparseLu.exists_factor solver.refactorTol (hcols.trans hrows.symm)
  rw [hrows] at hfactor
  refine hfactor hpivots fun t ht => ?_
  have hget := List.getElem?_eq_getElem ht
  have habove := lt_abs_pivot hget
  rw [old_of_orders hrow hcol hget, ← natural_leadingBlock hrow hcol (Nat.le_of_lt ht) ht ht]
    at habove
  rcases le_or_gt 0 solver.refactorTol with hnonneg | hneg
  · exact lt_of_le_of_lt ((mul_le_mul_of_nonneg_left hmax hnonneg).trans
      (mul_le_mul_of_nonneg_right h (maxAbs_nonneg a))) habove
  · exact lt_of_le_of_lt (mul_nonpos_of_nonpos_of_nonneg hneg.le (maxAbs_nonneg _))
      (abs_pos.2 (hpivots t ht))

end LeadingBlock

section Analysis

/-- The factors of an analysis solve with the block that its orders lead to. -/
theorem inverts_analyze {an : Analysis MarkowitzStructure (SparseLu K)}
    (han : solver.analyze a hints = .ok an) :
    Inverts an.basis.numeric.solveIn an.rank
      fun i j => a.entry (an.rowPerm.old i) (an.colPerm.old j) := by
  obtain ⟨-, rowPerm, colPerm, factors, hrow, hcol, hfactors, rfl⟩ := analyze_eq_ok_iff.1 han
  obtain ⟨hr, hc⟩ := rank_le_sizes hrow hcol
  exact (records_leadingBlock hrow hcol hfactors).inverts.congr fun i j hi hj =>
    entry_leadingBlock a hr hc hi hj

/-- The factors of a refactorization solve with the block. -/
theorem inverts_refactor (h : solver.Admissible) {block : SparseMatrix K}
    {symbolic : MarkowitzStructure} {b : BasisMatrix MarkowitzStructure (SparseLu K)}
    (hb : solver.refactor block symbolic = .ok b) :
    Inverts b.numeric.solveIn b.dim block.entry := by
  obtain ⟨hrows, hcols, factors, hfactors, rfl⟩ := refactor_eq_ok_iff.1 hb
  have hrecords := SparseLu.records_factor
    (SparseLu.rejectsZeros_of_nonneg h.refactorTol_nonneg block) (hcols.trans hrows.symm) hfactors
  rw [hrows] at hrecords
  exact hrecords.inverts

/-- An analysis that finds fewer pivots than required reports their number. -/
theorem analyze_eq_error (hlt : (solver.pivots a hints).length < hints.requiredRank) :
    solver.analyze a hints =
      Attempt.fail (.singularBasis (solver.pivots a hints).length hints.requiredRank) := by
  rw [analyze]
  change (if (solver.pivots a hints).length < hints.requiredRank then _ else _) = _
  rw [if_pos hlt]
  rfl

/-- If the tolerance for its factors is not the larger one, an analysis fails only for lack of
pivots. -/
theorem exists_analyze (h : solver.refactorTol ≤ solver.rankTol)
    (hle : hints.requiredRank ≤ (solver.pivots a hints).length) :
    ∃ an, solver.analyze a hints = .ok an ∧ an.rank = (solver.pivots a hints).length := by
  obtain ⟨rowPerm, colPerm, hrow, hcol⟩ := exists_orders solver a hints
  obtain ⟨factors, hfactors⟩ := exists_factor_leadingBlock h hrow hcol
  exact ⟨_, analyze_eq_ok_iff.2 ⟨hle, rowPerm, colPerm, factors, hrow, hcol, hfactors, rfl⟩, rfl⟩

end Analysis

end ReducedSpace.MarkowitzSolver
