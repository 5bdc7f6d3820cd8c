import ReducedSpace.Error
import ReducedSpace.Text.Blank

/-!
# Settings

The choices that fix how a basis is selected, how the decomposition is formed and when it is judged
ill conditioned. `Settings.validate` accepts exactly the settings in range; it reports the first
violation in the order of the fields.
-/

namespace ReducedSpace

/-- The direct solver of the basis block. -/
inductive SolverChoice where
  /-- Dense elimination with complete pivoting, for small problems. -/
  | dense
  /-- Sparse elimination with a Markowitz pivot search. -/
  | markowitz
  deriving DecidableEq, Repr

/-- The basis of the range space. -/
inductive RangeBasis where
  /-- The matrix `[I; 0]`. -/
  | coordinate
  /-- The matrix `[I; -Dᵀ]`. -/
  | orthogonal
  deriving DecidableEq, Repr

/-- Whether the sensitivity matrix is formed or applied by solves. -/
inductive Explicitness where
  | explicit
  | implicit
  deriving DecidableEq, Repr

/-- The quantity that the conditioning monitor measures. -/
inductive BetaSource where
  /-- The quasi-normal step relative to the constraint residual. -/
  | quasiNormalStep
  /-- The residual of the range-space solve relative to the constraint residual. -/
  | rangeResidual
  deriving DecidableEq, Repr

/-- The error of a text that names none of the choices; the text is quoted as it was given. -/
private def unknownWord {α : Type} (what text : String) : DecompError α :=
  .invalidSettings (s!"unknown {what} " ++ "\x60" ++ text ++ "\x60")

/-- Reads the name of a direct solver; case and surrounding blanks do not matter. -/
def SolverChoice.parse {α : Type} (text : String) : Except (DecompError α) SolverChoice :=
  match Text.word text with
  | "dense" | "dense-lu" => .ok .dense
  | "markowitz" | "markowitz-lu" | "sparse" => .ok .markowitz
  | _ => .error (unknownWord "backend" text)

/-- Reads the kind of a decomposition. -/
def RangeBasis.parse {α : Type} (text : String) : Except (DecompError α) RangeBasis :=
  match Text.word text with
  | "coordinate" | "basis" => .ok .coordinate
  | "orthogonal" => .ok .orthogonal
  | _ => .error (unknownWord "decomposition" text)

/-- Reads whether the sensitivity matrix is formed. -/
def Explicitness.parse {α : Type} (text : String) : Except (DecompError α) Explicitness :=
  match Text.word text with
  | "explicit" => .ok .explicit
  | "implicit" => .ok .implicit
  | _ => .error (unknownWord "explicitness" text)

/-- Reads what the conditioning monitor measures. -/
def BetaSource.parse {α : Type} (text : String) : Except (DecompError α) BetaSource :=
  match Text.word text with
  | "py" | "quasi-normal" => .ok .quasiNormalStep
  | "residual" | "range-residual" => .ok .rangeResidual
  | _ => .error (unknownWord "beta source" text)

/-- How bases are selected and factored, and when they are given up. -/
structure Settings (α : Type) where
  solver : SolverChoice
  kind : RangeBasis
  sensitivity : Explicitness
  /-- Relative pivot threshold of the basis selection. -/
  pivotThreshold : α
  /-- Entries up to this multiple of the largest one count as zero in a rank decision. -/
  rankTol : α
  /-- Pivots up to this multiple of the largest entry make a refactorization singular. -/
  refactorTol : α
  /-- Columns inspected in one Markowitz pivot search. -/
  maxSearch : Nat
  /-- Analyses tried in one selection of a basis. -/
  maxSelectAttempts : Nat
  /-- Accept a basis that leaves equations undecomposed. -/
  allowUndecomposed : Bool
  betaSource : BetaSource
  /-- A measure above this multiple of its minimum triggers. -/
  maxCondChangeFrac : α
  /-- A measure above this bound triggers whatever the history. -/
  maxCond : α
  /-- Test every new decomposition before it is published. -/
  testDecomposition : Bool
  testTol : α
  deriving Repr

namespace Settings

variable {α : Type} [Scalar α]

/-- The range checks in the order in which they are reported, with the text of their violation. -/
def checks (s : Settings α) : List (Bool × String) :=
  [(Scalar.lt 0 s.pivotThreshold && Scalar.le s.pivotThreshold 1,
      "pivot_threshold must lie in (0, 1]"),
    (Scalar.le 0 s.rankTol && Scalar.le 0 s.refactorTol, "tolerances must be nonnegative"),
    (decide (s.maxSearch ≠ 0), "max_search must be at least 1"),
    (decide (s.maxSelectAttempts ≠ 0), "max_select_attempts must be at least 1"),
    (Scalar.lt 1 s.maxCondChangeFrac, "max_cond_change_frac must exceed 1"),
    (Scalar.lt 0 s.maxCond, "max_cond must be positive"),
    (Scalar.lt 0 s.testTol, "test_tol must be positive"),
    (decide (¬(s.kind = .orthogonal ∧ s.sensitivity = .implicit)),
      "the orthogonal decomposition needs an explicit D")]

/-- Reports the first violated range check. -/
def validate (s : Settings α) : Except (DecompError α) Unit :=
  match s.checks.find? (!·.1) with
  | some (_, reason) => .error (.invalidSettings reason)
  | none => .ok ()

end Settings

end ReducedSpace
