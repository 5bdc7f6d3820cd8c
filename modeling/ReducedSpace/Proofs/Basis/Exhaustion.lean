import Mathlib
import ReducedSpace.Proofs.Basis.WellFormed
import ReducedSpace.Proofs.Decomposer.Retries
import ReducedSpace.Proofs.Exact.SchurComplement

/-!
# Nothing acceptable is left

An analysis stops at a rank only because the rest of the matrix offers no pivot. The rest is the
Schur complement of the block that was chosen, and none of its entries is above the rank tolerance.
For the sparse search this does not depend on its limit: a limited search finds a pivot whenever
there is one.
-/

namespace ReducedSpace

open Elimination

namespace ActiveMatrix

variable {K : Type} [ExactScalar K] {s : ActiveMatrix K} {m n : ℕ} {u absTol : K}

/-- With a threshold of at most one a search finds a pivot exactly if a value is above the
tolerance. -/
theorem isSome_search_iff (hs : s.Aligned m n) (hu : u ≤ 1) (htol : 0 ≤ absTol)
    (hints : AnalysisHints) (limit : ℕ) :
    (s.search u absTol hints limit).isSome = true ↔ ∃ i j, absTol < |s.value i j| := by
  rw [← choosePivot_eq_search limit]
  constructor
  · intro h
    obtain ⟨c, hc⟩ := Option.isSome_iff_exists.1 h
    obtain ⟨-, -, -, habove⟩ := acceptable_of_choosePivot hc
    exact ⟨c.row, c.col, Scalar.le_eq_false_iff.1 habove⟩
  · rintro ⟨i, j, hlt⟩
    rw [Option.isSome_iff_ne_none]
    intro hnone
    exact absurd (abs_value_le_of_choosePivot hs hu htol hnone i j) (not_le.2 hlt)

end ActiveMatrix

section Answers

variable {K S N : Type} [ExactScalar K]

/-- Two orders of a matrix lead to a nonsingular block of size `k`, and no entry of its Schur
complement is above the tolerance. -/
structure Exhausted (a : SparseMatrix K) (rowPerm colPerm : Permutation) (k : ℕ) (tol : K) :
    Prop where
  size_rowPerm : rowPerm.size = a.rows
  size_colPerm : colPerm.size = a.cols
  rank_le : k ≤ min a.rows a.cols
  nonsingular : IsUnit (block k k fun i j => a.entry (rowPerm.old i) (colPerm.old j))
  rest_le : ∀ i j, k ≤ i → i < a.rows → k ≤ j → j < a.cols →
    |schurComplement (fun i j => a.entry (rowPerm.old i) (colPerm.old j)) k i j| ≤ tol

omit [ExactScalar K] in
/-- The answer is about these orders and this rank: a success returns them, and a lack of rank is
reported with it. -/
structure Reports (answer : Attempt (SolverError K) (Analysis S N))
    (rowPerm colPerm : Permutation) (k : ℕ) : Prop where
  found : ∀ an, answer = .ok an → an.rowPerm = rowPerm ∧ an.colPerm = colPerm ∧ an.rank = k
  lacking : ∀ rank required, answer = Attempt.fail (.singularBasis rank required) → rank = k

/-- Orders behind whose pivots elimination leaves nothing above the tolerance. -/
theorem exhausted_of_naturalPivots {a : SparseMatrix K} {rowPerm colPerm : Permutation} {k : ℕ}
    {tol : K} (hrow : rowPerm.size = a.rows) (hcol : colPerm.size = a.cols)
    (hk : k ≤ min a.rows a.cols)
    (hpivots : NaturalPivots (fun i j => a.entry (rowPerm.old i) (colPerm.old j)) k)
    (hrest : ∀ i j, k ≤ i → i < a.rows → k ≤ j → j < a.cols →
      |natural (fun i j => a.entry (rowPerm.old i) (colPerm.old j)) k i j| ≤ tol) :
    Exhausted a rowPerm colPerm k tol where
  size_rowPerm := hrow
  size_colPerm := hcol
  rank_le := hk
  nonsingular := hpivots.isUnit_block
  rest_le i j hki hi hkj hj := by
    rw [← hpivots.natural_eq_schurComplement]
    exact hrest i j hki hi hkj hj

end Answers

namespace DenseSolver

variable {K : Type} [ExactScalar K] {solver : DenseSolver K}

/-- The dense elimination leaves nothing above the tolerance. -/
theorem exhausted (h : PivotTolerances solver.pivotThreshold solver.rankTol) (a : SparseMatrix K)
    (hints : AnalysisHints) :
    Exhausted a (solver.elimination a hints).2.rowPerm (solver.elimination a hints).2.colPerm
      (solver.elimination a hints).1 (solver.rankTol * a.maxAbs) := by
  obtain ⟨hle, htracks, hrest⟩ := elimination_spec h a hints
  exact exhausted_of_naturalPivots htracks.size_rowPerm htracks.size_colPerm hle
    htracks.eliminated.pivots hrest

omit [ExactScalar K] in
/-- And the analysis reports what it finds. -/
theorem reports [Scalar K] (solver : DenseSolver K) (a : SparseMatrix K) (hints : AnalysisHints) :
    Reports (DirectSolver.analyze solver a hints).1 (solver.elimination a hints).2.rowPerm
      (solver.elimination a hints).2.colPerm (solver.elimination a hints).1 where
  found an h := by
    have han : solver.analyze a hints = .ok an := Attempt.ofExcept_eq_ok_iff.1 h
    rw [analyze_eq] at han
    split at han
    · cases han
    · cases han
      exact ⟨rfl, rfl, rfl⟩
  lacking _ _ h := (singular_analyze h).1

end DenseSolver

namespace MarkowitzSolver

variable {K : Type} [ExactScalar K] {solver : MarkowitzSolver K} {a : SparseMatrix K}
  {hints : AnalysisHints} {rowPerm colPerm : Permutation}

/-- Nor does the sparse search. -/
theorem exhausted (h : PivotTolerances solver.pivotThreshold solver.rankTol)
    (hrow : orderPermutation ((solver.pivots a hints).map (·.1)) a.rows = .ok rowPerm)
    (hcol : orderPermutation ((solver.pivots a hints).map (·.2)) a.cols = .ok colPerm) :
    Exhausted a rowPerm colPerm (solver.pivots a hints).length (solver.rankTol * a.maxAbs) := by
  have hvalid := pivots_valid solver a hints
  have hle := length_pivots_le solver a hints
  obtain ⟨hrows, hcols⟩ := size_of_orders hrow hcol
  have horders := fun t e => old_of_orders (t := t) (e := e) hrow hcol
  refine exhausted_of_naturalPivots hrows hcols hle (hvalid.naturalPivots horders)
    fun i j hki hi hkj hj => ?_
  have hlt : (solver.pivots a hints).length < min a.rows a.cols := by omega
  have hrest : |residual (ActiveMatrix.ofSparse a).value (solver.pivots a hints) (rowPerm.old i)
      (colPerm.old j)| ≤ solver.rankTol * a.maxAbs :=
    ActiveMatrix.abs_residual_pivots_le (ActiveMatrix.ofSparse_aligned a)
      (ActiveMatrix.zeroFree_ofSparse a)
      (thresholdForAttempt_le_one h.threshold_le_one hints.attempt)
      (mul_nonneg h.rankTol_nonneg (maxAbs_nonneg a)) hlt _ _
  rw [value_ofSparse_eq] at hrest
  rw [natural_of_pivots a.entry horders (le_refl _), List.take_length]
  exact hrest

omit [ExactScalar K] in
/-- With the same report. -/
theorem reports [Scalar K] {solver : MarkowitzSolver K} {a : SparseMatrix K}
    {hints : AnalysisHints}
    (hrow : orderPermutation ((solver.pivots a hints).map (·.1)) a.rows = .ok rowPerm)
    (hcol : orderPermutation ((solver.pivots a hints).map (·.2)) a.cols = .ok colPerm) :
    Reports (DirectSolver.analyze solver a hints).1 rowPerm colPerm
      (solver.pivots a hints).length where
  found an h := by
    obtain ⟨-, rowPerm', colPerm', factors, hrow', hcol', -, rfl⟩ := analyze_eq_ok_iff.1 h
    exact ⟨Except.ok.inj (hrow'.symm.trans hrow), Except.ok.inj (hcol'.symm.trans hcol), rfl⟩
  lacking _ _ h := (singular_analyze h).1

end MarkowitzSolver

open MarkowitzSolver in
/-- Whatever rank an analysis reports, the orders behind it leave nothing above the tolerance: the
exchanges of the dense solver, and the completed pivots of the sparse one. The search of the sparse
solver finds a pivot with one limit exactly if it does with any other, which is exactly if a value
is above the tolerance, so it is never widened to another result. -/
theorem analyses_exhaust_the_matrix (K : Type) [ExactScalar K] :
    (∀ solver : DenseSolver K, PivotTolerances solver.pivotThreshold solver.rankTol →
      ∀ a hints, ∃ rank s, solver.elimination a hints = (rank, s) ∧
        Exhausted a s.rowPerm s.colPerm rank (solver.rankTol * a.maxAbs) ∧
        Reports (DirectSolver.analyze solver a hints).1 s.rowPerm s.colPerm rank) ∧
    (∀ solver : MarkowitzSolver K, PivotTolerances solver.pivotThreshold solver.rankTol →
      ∀ a hints, ∃ rowPerm colPerm,
        orderPermutation ((solver.pivots a hints).map (·.1)) a.rows = .ok rowPerm ∧
        orderPermutation ((solver.pivots a hints).map (·.2)) a.cols = .ok colPerm ∧
        Exhausted a rowPerm colPerm (solver.pivots a hints).length (solver.rankTol * a.maxAbs) ∧
        Reports (DirectSolver.analyze solver a hints).1 rowPerm colPerm
          (solver.pivots a hints).length) ∧
    ∀ (s : ActiveMatrix K) (u absTol : K) (hints : AnalysisHints) (limit : ℕ),
      (∀ limit', (s.search u absTol hints limit).isSome =
        (s.search u absTol hints limit').isSome) ∧
      s.choosePivot u absTol hints limit = s.search u absTol hints limit ∧
      ∀ m n, s.Aligned m n → u ≤ 1 → 0 ≤ absTol →
        ((s.search u absTol hints limit).isSome = true ↔ ∃ i j, absTol < |s.value i j|) := by
  refine ⟨fun solver h a hints => ?_, fun solver h a hints => ?_, fun s u absTol hints limit => ?_⟩
  · exact ⟨_, _, rfl, DenseSolver.exhausted h a hints, solver.reports a hints⟩
  · obtain ⟨rowPerm, colPerm, hrow, hcol⟩ := exists_orders solver a hints
    exact ⟨rowPerm, colPerm, hrow, hcol, exhausted h hrow hcol, reports hrow hcol⟩
  · exact ⟨ActiveMatrix.isSome_search limit, ActiveMatrix.choosePivot_eq_search limit,
      fun m n hs hu htol => ActiveMatrix.isSome_search_iff hs hu htol hints limit⟩

open Decomposer in
/-- With the second row of the retry sample preferred, either solver takes one pivot for the two
that are required. In units of the tolerance, which is one, nothing larger is left behind it. -/
theorem analyses_exhaust_the_matrix_sample :
    let hints : AnalysisHints := ⟨2, some #[false, true, false], 0⟩
    let sparse : MarkowitzSolver ℚ := ⟨1 / 8, 1 / 4, 0, 1⟩
    (∃ s, tolerantSolver.elimination retrySample hints = (1, s) ∧
      Exhausted retrySample s.rowPerm s.colPerm 1 1 ∧
      tolerantSolver.analyze retrySample hints = .error (.singularBasis 1 2)) ∧
    (∃ rowPerm colPerm, Exhausted retrySample rowPerm colPerm 1 1 ∧
      Reports (DirectSolver.analyze sparse retrySample hints).1 rowPerm colPerm 1) ∧
    ((ActiveMatrix.ofSparse retrySample).search (1 / 8) 1 hints 1).isSome = true := by
  intro hints sparse
  obtain ⟨hdense, hsparse, hsearch⟩ := analyses_exhaust_the_matrix ℚ
  have htol : tolerantSolver.rankTol * retrySample.maxAbs = 1 := by decide +kernel
  have hrank : (tolerantSolver.elimination retrySample hints).1 = 1 := by decide +kernel
  have hpivots : (sparse.pivots retrySample hints).length = 1 := by decide +kernel
  refine ⟨?_, ?_, ?_⟩
  · obtain ⟨rank, s, heq, hexhausted, -⟩ := hdense tolerantSolver tolerantSolver_tolerances
      retrySample hints
    obtain rfl : rank = 1 := (congrArg Prod.fst heq).symm.trans hrank
    rw [htol] at hexhausted
    refine ⟨s, heq, hexhausted, DenseSolver.analyze_eq_error_iff.2 ⟨?_, ?_⟩⟩
    · exact hrank.trans_lt Nat.one_lt_two
    · rw [hrank]
  · obtain ⟨rowPerm, colPerm, -, -, hexhausted, hreports⟩ := hsparse sparse
      tolerantSolver_tolerances retrySample hints
    rw [hpivots] at hexhausted hreports
    exact ⟨rowPerm, colPerm, htol ▸ hexhausted, hreports⟩
  · refine (((hsearch _ (1 / 8) 1 hints 1).2.2 _ _
      (ActiveMatrix.ofSparse_aligned retrySample) (by norm_num) zero_le_one).2 ⟨0, 0, ?_⟩)
    decide +kernel

end ReducedSpace
