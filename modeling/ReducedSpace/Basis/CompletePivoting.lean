import ReducedSpace.Basis.Solver
import ReducedSpace.Dense.Lu

/-!
# Dense solver

The analysis eliminates a dense copy of the matrix with threshold complete pivoting: among the
remaining entries within the threshold of the largest one it takes a preferred row if it can, then
the largest magnitude, then the first in column order. A refactorization is partial pivoting on the
block. The rank tolerance is compared with the largest remaining entry only, so the threshold does
not affect the rank unless a preferred row gets precedence.
-/

namespace ReducedSpace

/-- Tolerances of the dense solver. -/
structure DenseSolver (α : Type) where
  /-- Relative pivot threshold. -/
  pivotThreshold : α
  /-- Entries up to this multiple of the largest one are never pivots of an analysis. -/
  rankTol : α
  /-- Pivots up to this multiple of the largest entry make a refactorization singular. -/
  refactorTol : α

/-- All that a dense refactorization keeps of the analysis. -/
structure DenseStructure where
  dim : Nat
  deriving DecidableEq, Repr

/-- A partly eliminated matrix and how its rows and columns were reordered so far. -/
structure PivotedMatrix (α : Type) where
  matrix : DenseMatrix α
  rowPerm : Permutation
  colPerm : Permutation

/-- An entry that may become a pivot. -/
structure DensePivot (α : Type) where
  preferred : Bool
  magnitude : α
  row : Nat
  col : Nat

namespace PivotedMatrix

variable {α : Type} [Scalar α]

/-- The matrix before any elimination. -/
def start (a : DenseMatrix α) : PivotedMatrix α := ⟨a, .identity a.rows, .identity a.cols⟩

/-- The positions from `(k, k)` on, column by column. -/
def remaining (a : DenseMatrix α) (k : Nat) : List (Nat × Nat) :=
  (List.range' k (a.cols - k)).flatMap fun j => (List.range' k (a.rows - k)).map fun i => (i, j)

/-- The largest magnitude among the remaining entries. -/
def largest (a : DenseMatrix α) (k : Nat) : α :=
  (remaining a k).foldl (fun acc e => Scalar.max acc (Scalar.abs (a.entry e.1 e.2))) 0

/-- Whether a candidate is better than the best one so far. -/
def better (preferred : Bool) (magnitude : α) : Option (DensePivot α) → Bool
  | none => true
  | some best =>
    (preferred && !best.preferred)
      || (preferred == best.preferred && Scalar.lt best.magnitude magnitude)

/-- The best of the remaining entries whose magnitude is at least `bound`. -/
def bestPivot (s : PivotedMatrix α) (hints : AnalysisHints) (bound : α) (k : Nat) :
    Option (DensePivot α) :=
  (remaining s.matrix k).foldl
    (fun best e =>
      let magnitude := Scalar.abs (s.matrix.entry e.1 e.2)
      let preferred := hints.isPreferred (s.rowPerm.old e.1)
      if Scalar.lt magnitude bound then best
      else if better preferred magnitude best then some ⟨preferred, magnitude, e.1, e.2⟩
      else best)
    none

/-- Moves an entry to the diagonal and eliminates below it. -/
def pivot (s : PivotedMatrix α) (k p q : Nat) : PivotedMatrix α where
  matrix := ((s.matrix.swapRows k p).swapCols k q).eliminate k
  rowPerm := s.rowPerm.swap k p
  colPerm := s.colPerm.swap k q

/-- The next elimination step, if an acceptable pivot is left. -/
def step (s : PivotedMatrix α) (hints : AnalysisHints) (u absTol : α) (k : Nat) :
    Option (PivotedMatrix α) :=
  let top := largest s.matrix k
  if Scalar.le top absTol || Scalar.isZero top then none
  else (s.bestPivot hints (u * top) k).map fun best => s.pivot k best.row best.col

/-- Eliminates from step `k` on, at most `steps` times; answers the rank with the last state. -/
def run (hints : AnalysisHints) (u absTol : α) : (steps k : Nat) → PivotedMatrix α →
    Nat × PivotedMatrix α
  | 0, k, s => (k, s)
  | steps + 1, k, s =>
    match s.step hints u absTol k with
    | none => (k, s)
    | some s => run hints u absTol steps (k + 1) s

end PivotedMatrix

namespace DenseSolver

variable {α : Type} [Scalar α]

/-- Analysis with complete pivoting. -/
def analyze (solver : DenseSolver α) (a : SparseMatrix α) (hints : AnalysisHints) :
    Except (SolverError α) (Analysis DenseStructure (DenseLu α)) :=
  let u := thresholdForAttempt solver.pivotThreshold hints.attempt
  let absTol := solver.rankTol * a.maxAbs
  let (rank, s) := PivotedMatrix.run hints u absTol (min a.rows a.cols) 0 (.start a.toDense)
  if rank < hints.requiredRank then .error (.singularBasis rank hints.requiredRank)
  else .ok {
    rowPerm := s.rowPerm
    colPerm := s.colPerm
    rank := rank
    basis := ⟨rank, ⟨rank⟩, ⟨s.matrix.leading rank rank, Array.range rank⟩⟩ }

/-- Refactorization with partial pivoting; the block must have the dimension of the structure. -/
def refactor (solver : DenseSolver α) (block : SparseMatrix α) (symbolic : DenseStructure) :
    Except (SolverError α) (BasisMatrix DenseStructure (DenseLu α)) :=
  if block.rows = symbolic.dim ∧ block.cols = symbolic.dim then
    (DenseLu.factor block.toDense (solver.refactorTol * block.maxAbs)).map fun lu =>
      ⟨symbolic.dim, symbolic, lu⟩
  else .error (.dimensionMismatch symbolic.dim (max block.rows block.cols))

end DenseSolver

instance {α : Type} [Scalar α] : Factorization DenseStructure (DenseLu α) α where
  solve _ lu := lu.solveIn

instance {α : Type} [Scalar α] : DirectSolver (DenseSolver α) α DenseStructure (DenseLu α) where
  name _ := "dense-lu"
  thresholdAffectsRank _ := false
  analyze solver a hints := (.ofExcept (solver.analyze a hints), solver)
  refactor solver block symbolic := (.ofExcept (solver.refactor block symbolic), solver)

end ReducedSpace
