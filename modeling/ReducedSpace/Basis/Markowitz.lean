import ReducedSpace.Basis.PivotSearch
import ReducedSpace.Basis.SparseLu

/-!
# Sparse solver

The analysis eliminates a matrix of any shape by Markowitz pivots. The pivot sequence becomes the
leading part of the row and column orders, and the leading block is then factored in its natural
order without any search, which is also how a refactorization works.
-/

namespace ReducedSpace

/-- Tolerances and search width of the sparse solver. -/
structure MarkowitzSolver (α : Type) where
  /-- Relative pivot threshold. -/
  pivotThreshold : α
  /-- Entries up to this multiple of the largest one are never pivots of an analysis. -/
  rankTol : α
  /-- Pivots up to this multiple of the largest entry make a refactorization singular. -/
  refactorTol : α
  /-- Columns with candidates inspected in one pivot search. -/
  maxSearch : Nat

/-- Sizes at the time of the analysis. -/
structure MarkowitzStructure where
  dim : Nat
  /-- Stored entries of the leading block. -/
  blockCount : Nat
  /-- Stored entries of both factors. -/
  factorCount : Nat
  deriving DecidableEq, Repr

namespace MarkowitzSolver

variable {α : Type} [Scalar α]

/-- The listed indices, then the others below `n` in ascending order. -/
def completeOrder (order : List Nat) (n : Nat) : Array Nat :=
  (order ++ (List.range n).filter fun i => !order.contains i).toArray

/-- The permutation that puts the listed indices first. -/
def orderPermutation (order : List Nat) (n : Nat) : Checked Permutation :=
  match Permutation.ofMap? (completeOrder order n) with
  | some p => .ok p
  | none => .error .index

/-- Analysis by Markowitz pivots, followed by the factorization of the leading block. -/
def analyze (solver : MarkowitzSolver α) (a : SparseMatrix α) (hints : AnalysisHints) :
    Attempt (SolverError α) (Analysis MarkowitzStructure (SparseLu α)) := do
  let u := thresholdForAttempt solver.pivotThreshold hints.attempt
  let absTol := solver.rankTol * a.maxAbs
  let pivots := ActiveMatrix.pivots u absTol hints (max solver.maxSearch 1) (min a.rows a.cols)
    (.ofSparse a)
  let rank := pivots.length
  if rank < hints.requiredRank then
    Attempt.fail (.singularBasis rank hints.requiredRank)
  else
    let rowPerm ← .ofChecked (orderPermutation (pivots.map (·.1)) a.rows)
    let colPerm ← .ofChecked (orderPermutation (pivots.map (·.2)) a.cols)
    let block := a.submatrix (rowPerm.olds.extract 0 rank) (colPerm.olds.extract 0 rank)
    let factors ← .ofExcept (SparseLu.factor solver.refactorTol block)
    return {
      rowPerm := rowPerm
      colPerm := colPerm
      rank := rank
      basis := ⟨rank, ⟨rank, block.storedCount, factors.storedCount⟩, factors⟩ }

/-- Factors a block in its natural order; it must have the dimension of the structure. -/
def refactor (solver : MarkowitzSolver α) (block : SparseMatrix α)
    (symbolic : MarkowitzStructure) :
    Except (SolverError α) (BasisMatrix MarkowitzStructure (SparseLu α)) :=
  if block.rows = symbolic.dim ∧ block.cols = symbolic.dim then
    (SparseLu.factor solver.refactorTol block).map fun factors => ⟨symbolic.dim, symbolic, factors⟩
  else .error (.dimensionMismatch symbolic.dim (max block.rows block.cols))

end MarkowitzSolver

instance {α : Type} [Scalar α] : Factorization MarkowitzStructure (SparseLu α) α where
  solve _ f := f.solveIn

instance {α : Type} [Scalar α] :
    DirectSolver (MarkowitzSolver α) α MarkowitzStructure (SparseLu α) where
  name _ := "markowitz-lu"
  thresholdAffectsRank _ := true
  analyze solver a hints := (solver.analyze a hints, solver)
  refactor solver block symbolic := (.ofExcept (solver.refactor block symbolic), solver)

end ReducedSpace
