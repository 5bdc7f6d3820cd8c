import ReducedSpace.Operator
import ReducedSpace.Error

/-!
# Direct solvers

A direct solver turns a matrix of any shape into permutations of its rows and columns that expose a
nonsingular leading block, and factors that block. The *symbolic* half of the result is what later
factorizations with new values reuse; the *numeric* half are the factors themselves. A
`BasisMatrix` pairs the two, and `Factorization` says how such a pair solves.

Solvers are a class, so that the decomposition works with any of them. A solver has a state, which
each call hands on.
-/

namespace ReducedSpace

/-- How a symbolic and a numeric half together solve a linear system. -/
class Factorization (S N : Type) (α : outParam Type) where
  /-- Solves with the factored block in a given orientation. -/
  solve : S → N → Orientation → Array α → Checked (Array α)

/-- A factored square block. Nothing here ensures that the halves belong together. -/
structure BasisMatrix (S N : Type) where
  dim : Nat
  symbolic : S
  numeric : N

/-- Solves with a factored block; the right-hand side must have its dimension. -/
def BasisMatrix.solve {S N α : Type} [Factorization S N α] (b : BasisMatrix S N) (o : Orientation)
    (x : Array α) : Checked (Array α) := do
  Checked.sameLength b.dim x.size
  Factorization.solve b.symbolic b.numeric o x

/-- A factored block as an operator that solves. -/
def BasisMatrix.toInverse {S N α : Type} [Factorization S N α] (b : BasisMatrix S N) :
    InverseOperator α where
  dim := b.dim
  solve := b.solve .plain
  solveTranspose := b.solve .transposed

/-- What an analysis should look for. -/
structure AnalysisHints where
  /-- Fewer pivots than this are an error. -/
  requiredRank : Nat
  /-- Rows that should land in the leading block when there is a choice. -/
  preferredRows : Option (Array Bool)
  /-- Counts the retries; later attempts pivot more conservatively. -/
  attempt : Nat
  deriving DecidableEq, Repr

/-- Hints that only ask for a rank. -/
def AnalysisHints.ofRank (requiredRank : Nat) : AnalysisHints := ⟨requiredRank, none, 0⟩

/-- Whether a row is preferred; rows without a hint are not. -/
def AnalysisHints.isPreferred (hints : AnalysisHints) (row : Nat) : Bool :=
  match hints.preferredRows with
  | none => false
  | some preferred => preferred.getD row false

/-- The result of an analysis: after the permutations, the leading block of size `rank` is
nonsingular and factored in `basis`. -/
structure Analysis (S N : Type) where
  rowPerm : Permutation
  colPerm : Permutation
  rank : Nat
  basis : BasisMatrix S N

/-- A solver that picks and factors the basis block. -/
class DirectSolver (σ : Type) (α S N : outParam Type) where
  /-- The name under which the solver is reported. -/
  name : σ → String
  /-- Whether a stricter threshold on a later attempt can find a larger rank. -/
  thresholdAffectsRank : σ → Bool
  /-- Choose permutations and factor the leading block. -/
  analyze : σ → SparseMatrix α → AnalysisHints → Attempt (SolverError α) (Analysis S N) × σ
  /-- Factor a square block that is ordered as the analysis behind the symbolic half ordered its
  block. -/
  refactor : σ → SparseMatrix α → S → Attempt (SolverError α) (BasisMatrix S N) × σ

/-- A count read as a signed number of 32 bits. -/
def signed32 (n : Nat) : Int := Int.bmod n (Nat.pow 2 32)

/-- The pivot threshold of an attempt: the base value on the first one, then ten times as strict per
retry, and never above one. The number of retries is a signed number of 32 bits. -/
def thresholdForAttempt {α : Type} [Scalar α] (u : α) (attempt : Nat) : α :=
  if attempt = 0 then u
  else Scalar.min (u * Scalar.pow (Scalar.ofNat 10) (signed32 attempt)) 1

end ReducedSpace
