import ReducedSpace.Proofs.Basis.Markowitz
import ReducedSpace.Proofs.Guarded.PivotSearch
import ReducedSpace.Proofs.Guarded.Selection
import ReducedSpace.Proofs.Guarded.SparseLu

/-!
# The sparse solver with guarded accesses

An analysis marks its pivots in tables of the rows and of the columns and cuts the leading block out
of the completed orders. Pivots lie in the matrix, no two of them share a row or a column, and there
are no more of them than rows or columns, so the orders are bijections and the cuts are inside.
-/

namespace ReducedSpace.Guarded

variable {α : Type} [Scalar α]

/-- The listed indices, then the others below `n` in ascending order. Each index that is listed must
have a mark to set, and each mark is looked up. -/
def completeOrder (order : List Nat) (n : Nat) : Checked (Array Nat) := do
  let marks ← order.foldlM (fun marks i => write marks i true) (Array.replicate n false)
  let rest ← (List.range n).mapM fun i => do return if ← read marks i then none else some i
  return (order ++ rest.filterMap id).toArray

/-- The permutation that puts the listed indices first. -/
def orderPermutation (order : List Nat) (n : Nat) : Checked Permutation := do
  bijection (← completeOrder order n)

/-- Analysis by Markowitz pivots, followed by the factorization of the leading block. -/
def analyzeSparse (solver : MarkowitzSolver α) (a : SparseMatrix α) (hints : AnalysisHints) :
    Attempt (SolverError α) (Analysis MarkowitzStructure (SparseLu α)) := do
  let u := thresholdForAttempt solver.pivotThreshold hints.attempt
  let absTol := solver.rankTol * a.maxAbs
  let active ← .ofChecked (ofSparse a)
  let pivots ← .ofChecked
    (pivots u absTol hints (max solver.maxSearch 1) (min a.rows a.cols) active)
  let rank := pivots.length
  if rank < hints.requiredRank then
    Attempt.fail (.singularBasis rank hints.requiredRank)
  else
    let rowPerm ← .ofChecked (orderPermutation (pivots.map (·.1)) a.rows)
    let colPerm ← .ofChecked (orderPermutation (pivots.map (·.2)) a.cols)
    let rows ← .ofChecked (slice rowPerm.olds 0 rank)
    let cols ← .ofChecked (slice colPerm.olds 0 rank)
    let block ← .ofChecked (select a rows cols)
    let factors ← factor solver.refactorTol block
    return {
      rowPerm := rowPerm
      colPerm := colPerm
      rank := rank
      basis := ⟨rank, ⟨rank, block.storedCount, factors.storedCount⟩, factors⟩ }

/-- Factors a block in its natural order; it must have the dimension of the structure. -/
def refactorSparse (solver : MarkowitzSolver α) (block : SparseMatrix α)
    (symbolic : MarkowitzStructure) :
    Attempt (SolverError α) (BasisMatrix MarkowitzStructure (SparseLu α)) :=
  if block.rows = symbolic.dim ∧ block.cols = symbolic.dim then
    (factor solver.refactorTol block).map fun factors => ⟨symbolic.dim, symbolic, factors⟩
  else Attempt.fail (.dimensionMismatch symbolic.dim (max block.rows block.cols))

section Solver

variable {solver : MarkowitzSolver α} {a : SparseMatrix α} {hints : AnalysisHints}

/-- The marks that a loop sets are those of the listed indices. -/
private theorem getD_foldl_mark {order : List Nat} {marks : Array Bool} {i : Nat}
    (hi : i < marks.size) :
    (order.foldl (fun marks i => marks.setIfInBounds i true) marks).getD i false =
      (order.contains i || marks.getD i false) := by
  induction order generalizing marks with
  | nil => rfl
  | cons k order ih =>
    rw [List.foldl_cons, ih (Array.size_setIfInBounds.symm ▸ hi), getD_setIfInBounds,
      List.contains_cons]
    by_cases hik : i = k
    · subst hik
      simp [hi]
    · rw [if_neg fun h => hik h.1, beq_false_of_ne hik, Bool.false_or]

private theorem size_foldl_mark (order : List Nat) (marks : Array Bool) :
    (order.foldl (fun marks i => marks.setIfInBounds i true) marks).size = marks.size :=
  List.foldlRecOn (motive := fun m : Array Bool => m.size = marks.size) _ _ rfl
    fun _ hm _ _ => Array.size_setIfInBounds.trans hm

/-- An order of positions in range can be completed. -/
theorem completeOrder_eq {order : List Nat} {n : Nat} (horder : ∀ i ∈ order, i < n) :
    completeOrder order n = .ok (MarkowitzSolver.completeOrder order n) := by
  have hmarks : order.foldlM (fun marks i => write marks i true) (Array.replicate n false) =
      .ok (order.foldl (fun marks i => marks.setIfInBounds i true) (Array.replicate n false)) := by
    refine foldlM_eq_ok (P := fun marks => marks.size = n) Array.size_replicate ?_
    intro marks hmarks i hi
    exact ⟨write_eq_ok (hmarks.symm ▸ horder i hi) true,
      Array.size_setIfInBounds.trans hmarks⟩
  have hrest (i : Nat) (hi : i ∈ List.range n) :
      (do return if ← read (order.foldl (fun marks i => marks.setIfInBounds i true)
        (Array.replicate n false)) i then none else some i : Checked (Option Nat)) =
        .ok (Option.guard (fun i => !order.contains i) i) := by
    have hi : i < (Array.replicate n false).size := by simpa using hi
    rw [read_eq_ok ((size_foldl_mark _ _).symm ▸ hi) false, ok_bind, getD_foldl_mark hi]
    refine congrArg Except.ok ?_
    cases hcontains : order.contains i <;> simp_all [Option.guard]
  rw [completeOrder]
  rw [hmarks, ok_bind, mapM_eq_ok hrest, ok_bind, List.filterMap_map]
  refine congrArg (fun rest => Except.ok (order ++ rest).toArray) ?_
  exact congrFun List.filterMap_eq_filter _

private theorem orderPermutation_eq {order : List Nat} {n : Nat} {p : Permutation}
    (horder : ∀ i ∈ order, i < n) (h : MarkowitzSolver.orderPermutation order n = .ok p) :
    orderPermutation order n = .ok p := by
  rw [MarkowitzSolver.orderPermutation] at h
  split at h
  · rename_i p' hp
    obtain rfl := Except.ok.inj h
    rw [orderPermutation]
    rw [completeOrder_eq horder, ok_bind, ← Permutation.ofMap?_eq_some_iff.1 hp, bijection_eq]
  · cases h

private theorem pivots_ofSparse (solver : MarkowitzSolver α) (a : SparseMatrix α)
    (hints : AnalysisHints) :
    ActiveMatrix.pivots (thresholdForAttempt solver.pivotThreshold hints.attempt)
      (solver.rankTol * a.maxAbs) hints (max solver.maxSearch 1) (min a.rows a.cols)
      (.ofSparse a) = solver.pivots a hints := by
  rw [MarkowitzSolver.pivots]

/-- The leading block can be selected. -/
private theorem select_leadingBlock {rowPerm colPerm : Permutation} {r : Nat}
    (hrows : rowPerm.size = a.rows) (hcols : colPerm.size = a.cols) (hr : r ≤ a.rows)
    (hr' : r ≤ a.cols) :
    select a (rowPerm.olds.extract 0 r) (colPerm.olds.extract 0 r) =
      .ok (MarkowitzSolver.leadingBlock a rowPerm colPerm r) := by
  refine select_eq (SparseMatrix.select_eq_ok_iff.2 ⟨fun i hi => ?_, fun j hj => ?_, rfl⟩)
  · have hlt := (rowPerm.mem_extract_olds_iff (hrows ▸ hr)).1 hi
    exact hrows ▸ rowPerm.new_lt_iff.1 (by omega)
  · have hlt := (colPerm.mem_extract_olds_iff (hcols ▸ hr')).1 hj
    exact hcols ▸ colPerm.new_lt_iff.1 (by omega)

omit [Scalar α] in
private theorem square_leadingBlock {rowPerm colPerm : Permutation} {r : Nat}
    (hrows : rowPerm.size = a.rows) (hcols : colPerm.size = a.cols) (hr : r ≤ a.rows)
    (hr' : r ≤ a.cols) :
    (MarkowitzSolver.leadingBlock a rowPerm colPerm r).cols =
      (MarkowitzSolver.leadingBlock a rowPerm colPerm r).rows := by
  rw [MarkowitzSolver.rows_leadingBlock a (hrows ▸ hr),
    MarkowitzSolver.cols_leadingBlock a rowPerm (hcols ▸ hr')]

/-- A sparse analysis never accesses anything out of range. -/
theorem analyzeSparse_eq (solver : MarkowitzSolver α) (a : SparseMatrix α) (hints : AnalysisHints) :
    analyzeSparse solver a hints = solver.analyze a hints := by
  have hpivots : pivots (thresholdForAttempt solver.pivotThreshold hints.attempt)
      (solver.rankTol * a.maxAbs) hints (max solver.maxSearch 1) (min a.rows a.cols)
      (ActiveMatrix.ofSparse a) = .ok (solver.pivots a hints) :=
    pivots_eq (ActiveMatrix.ofSparse_aligned a) _ _
  obtain ⟨rowPerm, colPerm, hrow, hcol⟩ := MarkowitzSolver.exists_orders solver a hints
  obtain ⟨hlt, hlt'⟩ := MarkowitzSolver.order_lt solver a hints
  obtain ⟨hrows, hcols⟩ := MarkowitzSolver.size_of_orders hrow hcol
  obtain ⟨hr, hr'⟩ := Nat.le_min.1 (MarkowitzSolver.length_pivots_le solver a hints)
  have hslice : slice rowPerm.olds 0 (solver.pivots a hints).length = .ok _ :=
    slice_eq_ok (Nat.zero_le _) (hr.trans (Nat.le_of_eq hrows.symm))
  have hslice' : slice colPerm.olds 0 (solver.pivots a hints).length = .ok _ :=
    slice_eq_ok (Nat.zero_le _) (hr'.trans (Nat.le_of_eq hcols.symm))
  have hfactor := factor_eq solver.refactorTol (square_leadingBlock hrows hcols hr hr')
  rw [analyzeSparse, MarkowitzSolver.analyze]
  rw [ofSparse_eq]
  simp only [Attempt.ofChecked_ok, ok_bind, hpivots, pivots_ofSparse]
  split
  · rfl
  · simp only [orderPermutation_eq hlt hrow, hrow, orderPermutation_eq hlt' hcol, hcol, hslice,
      hslice', select_leadingBlock hrows hcols hr hr', hfactor, Attempt.ofChecked_ok, ok_bind]
    rfl

/-- An analysis may find the rank too low or its block singular, but it never faults. -/
theorem noFault_analyzeSparse (solver : MarkowitzSolver α) (a : SparseMatrix α)
    (hints : AnalysisHints) : NoFault (solver.analyze a hints) := by
  obtain ⟨rowPerm, colPerm, hrow, hcol⟩ := MarkowitzSolver.exists_orders solver a hints
  rw [MarkowitzSolver.analyze]
  simp only [pivots_ofSparse]
  split
  · exact noFault_fail _
  · simp only [hrow, hcol, Attempt.ofChecked_ok, ok_bind]
    exact (noFault_ofExcept _).bind fun factors _ => noFault_ok _

/-- Nor does a sparse refactorization. -/
theorem refactorSparse_eq (solver : MarkowitzSolver α) (block : SparseMatrix α)
    (symbolic : MarkowitzStructure) :
    refactorSparse solver block symbolic = .ofExcept (solver.refactor block symbolic) := by
  rw [refactorSparse, MarkowitzSolver.refactor]
  split
  · rename_i h
    rw [factor_eq solver.refactorTol (h.2.trans h.1.symm)]
    cases SparseLu.factor solver.refactorTol block <;> rfl
  · rfl

/-- The factors of an analysis are shaped. -/
theorem shaped_analyzeSparse {an : Analysis MarkowitzStructure (SparseLu α)}
    (h : solver.analyze a hints = .ok an) : an.basis.numeric.Shaped an.basis.dim an.basis.dim := by
  obtain ⟨-, rowPerm, colPerm, factors, hrow, hcol, hfactors, rfl⟩ :=
    MarkowitzSolver.analyze_eq_ok_iff.1 h
  obtain ⟨hrows, hcols⟩ := MarkowitzSolver.size_of_orders hrow hcol
  obtain ⟨hr, hr'⟩ := Nat.le_min.1 (MarkowitzSolver.length_pivots_le solver a hints)
  have hshaped := shaped_factor (square_leadingBlock hrows hcols hr hr') hfactors
  rwa [MarkowitzSolver.rows_leadingBlock a (hrows ▸ hr)] at hshaped

/-- So are the factors of a refactorization, which have the dimension of the block. -/
theorem shaped_refactorSparse {block : SparseMatrix α} {symbolic : MarkowitzStructure}
    {b : BasisMatrix MarkowitzStructure (SparseLu α)} (h : solver.refactor block symbolic = .ok b) :
    b.dim = block.rows ∧ b.numeric.Shaped b.dim b.dim := by
  obtain ⟨hrows, hcols, factors, hfactors, rfl⟩ := MarkowitzSolver.refactor_eq_ok_iff.1 h
  have hshaped := shaped_factor (hcols.trans hrows.symm) hfactors
  exact ⟨hrows.symm, hrows ▸ hshaped⟩

end Solver

end ReducedSpace.Guarded
