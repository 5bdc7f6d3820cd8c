import ReducedSpace.Scalar
import ReducedSpace.Decimal.Scientific

/-!
# Errors

`SolverError` is what a direct solver reports, `DecompError` what the operations on a decomposition
report. Each error is a cause with its data; the wording is in `message`, for machine numbers.
-/

namespace ReducedSpace

/-- Why a direct solver gave no factors. -/
inductive SolverError (α : Type) where
  /-- No nonsingular block of the requested size was found. -/
  | singularBasis (rank required : Nat)
  /-- A pivot of a fixed sequence is too small for the current values. -/
  | numericallySingular (pivot : Nat) (value : α)
  /-- A block does not have the size of the structure it is factored with. -/
  | dimensionMismatch (expected actual : Nat)
  /-- A structure made by one solver was handed to another. -/
  | backendMismatch (expected actual : String)
  deriving DecidableEq, Repr

/-- Why an operation on a decomposition failed. -/
inductive DecompError (α : Type) where
  /-- The chosen sets of variables and equations have a rank deficient block. -/
  | singularBasis (rank required : Nat)
  /-- A valid partition became singular for the current values. -/
  | numericallySingular (pivot : Nat) (value : α)
  /-- The line search failed again right after a recovery. -/
  | recoveryExhausted (iter previousIter : Nat) (betaMin : α)
  /-- The self-test of a new decomposition found an inconsistency. -/
  | testFailed (check : String) (value tol : α)
  /-- An argument has the wrong size. -/
  | dimensionMismatch (what : String) (expected actual : Nat)
  /-- The index maps or the rank do not form a partition that is allowed. -/
  | invalidPartition (reason : String)
  /-- A setting is out of range or contradicts another one. -/
  | invalidSettings (reason : String)
  /-- No basis was chosen yet. -/
  | notInitialized
  /-- Any other error of the direct solver. -/
  | backend (source : SolverError α)
  deriving DecidableEq, Repr

namespace SolverError

/-- The text of an error. -/
def message : SolverError Float → String
  | singularBasis rank required => s!"singular basis: found rank {rank}, required {required}"
  | numericallySingular pivot value =>
    s!"numerically singular basis: pivot {pivot} has magnitude " ++ Decimal.scientific value
  | dimensionMismatch expected actual => s!"dimension mismatch: expected {expected}, got {actual}"
  | backendMismatch expected actual =>
    s!"backend mismatch: solver is {expected}, structure came from {actual}"

end SolverError

namespace DecompError

variable {α : Type}

/-- The text of an error; a solver error without a class of its own keeps the solver's text. -/
def message : DecompError Float → String
  | singularBasis rank required => s!"singular basis: found rank {rank}, required {required}"
  | numericallySingular pivot value =>
    s!"numerically singular basis: pivot {pivot} has magnitude " ++ Decimal.scientific value
  | recoveryExhausted iter previousIter betaMin =>
    s!"recovery exhausted at iteration {iter}: previous recovery at iteration {previousIter}, "
      ++ "beta_min = " ++ Decimal.scientific betaMin
  | testFailed check value tol =>
    "decomposition check \x60" ++ check ++ "\x60 failed: " ++ Decimal.scientific value ++ " > "
      ++ Decimal.scientific tol
  | dimensionMismatch what expected actual =>
    s!"dimension mismatch for {what}: expected {expected}, got {actual}"
  | invalidPartition reason => s!"invalid partition: {reason}"
  | invalidSettings reason => s!"invalid settings: {reason}"
  | notInitialized => "no basis has been selected"
  | backend source => source.message

/-- A solver's singular basis keeps its class; its other errors are passed on as they are. -/
def ofSolver : SolverError α → DecompError α
  | .singularBasis rank required => .singularBasis rank required
  | .numericallySingular pivot value => .numericallySingular pivot value
  | other => .backend other

/-- Whether choosing a new basis may cure the error. -/
def isRecoverable : DecompError α → Bool
  | singularBasis .. | numericallySingular .. | testFailed .. => true
  | _ => false

end DecompError

end ReducedSpace
