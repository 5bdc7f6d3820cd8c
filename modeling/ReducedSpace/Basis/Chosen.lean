import ReducedSpace.Basis.CompletePivoting
import ReducedSpace.Basis.Markowitz
import ReducedSpace.Settings

/-!
# The solver that the settings choose

A solver that is one of the two solvers of the library, with structures and factors that carry the
same tag. A structure of one solver is refused by the other. A structure paired by hand with factors
of the other solver answers every solve with NaN.
-/

namespace ReducedSpace

/-- One of the solvers of the library. -/
inductive ChosenSolver (α : Type) where
  | dense (solver : DenseSolver α)
  | markowitz (solver : MarkowitzSolver α)

/-- The symbolic half of a factorization by one of the solvers. -/
inductive ChosenStructure where
  | dense (symbolic : DenseStructure)
  | markowitz (symbolic : MarkowitzStructure)
  deriving DecidableEq, Repr

/-- The numeric half of a factorization by one of the solvers. -/
inductive ChosenFactors (α : Type) where
  | dense (numeric : DenseLu α)
  | markowitz (numeric : SparseLu α)

/-- The dimension of the block that was analysed. -/
def ChosenStructure.dim : ChosenStructure → Nat
  | dense symbolic => symbolic.dim
  | markowitz symbolic => symbolic.dim

/-- The name of the solver that made the structure. -/
def ChosenStructure.solverName : ChosenStructure → String
  | dense _ => "dense-lu"
  | markowitz _ => "markowitz-lu"

section Settings

variable {α : Type}

/-- The dense solver with the tolerances of the settings. -/
def DenseSolver.ofSettings (s : Settings α) : DenseSolver α :=
  ⟨s.pivotThreshold, s.rankTol, s.refactorTol⟩

/-- The sparse solver with the tolerances of the settings. -/
def MarkowitzSolver.ofSettings (s : Settings α) : MarkowitzSolver α :=
  ⟨s.pivotThreshold, s.rankTol, s.refactorTol, s.maxSearch⟩

/-- The solver that the settings name. -/
def ChosenSolver.ofSettings (s : Settings α) : ChosenSolver α :=
  match s.solver with
  | .dense => .dense (.ofSettings s)
  | .markowitz => .markowitz (.ofSettings s)

end Settings

/-- An analysis with other symbolic and numeric halves. -/
def Analysis.map {S N S' N' : Type} (f : S → S') (g : N → N') (an : Analysis S N) :
    Analysis S' N' :=
  { an with basis := ⟨an.basis.dim, f an.basis.symbolic, g an.basis.numeric⟩ }

namespace ChosenSolver

variable {α : Type} [Scalar α]

/-- The name of the solver. -/
def name : ChosenSolver α → String
  | dense _ => "dense-lu"
  | markowitz _ => "markowitz-lu"

/-- Analysis by the solver at hand. -/
def analyze (solver : ChosenSolver α) (a : SparseMatrix α) (hints : AnalysisHints) :
    Attempt (SolverError α) (Analysis ChosenStructure (ChosenFactors α)) :=
  match solver with
  | dense s => (Attempt.ofExcept (s.analyze a hints)).map (.map .dense .dense)
  | markowitz s => (s.analyze a hints).map (.map .markowitz .markowitz)

/-- Refactorization by the solver at hand, which must be the one that made the structure. -/
def refactor (solver : ChosenSolver α) (block : SparseMatrix α) (symbolic : ChosenStructure) :
    Except (SolverError α) (BasisMatrix ChosenStructure (ChosenFactors α)) :=
  match solver, symbolic with
  | dense s, .dense inner =>
    (s.refactor block inner).map fun b => ⟨block.rows, symbolic, .dense b.numeric⟩
  | markowitz s, .markowitz inner =>
    (s.refactor block inner).map fun b => ⟨block.rows, symbolic, .markowitz b.numeric⟩
  | _, _ => .error (.backendMismatch solver.name symbolic.solverName)

end ChosenSolver

instance {α : Type} [Scalar α] : Factorization ChosenStructure (ChosenFactors α) α where
  solve
    | .dense _, .dense lu, o, b => lu.solveIn o b
    | .markowitz _, .markowitz f, o, b => f.solveIn o b
    | _, _, _, b => .ok (b.map fun _ => Scalar.nan)

instance {α : Type} [Scalar α] :
    DirectSolver (ChosenSolver α) α ChosenStructure (ChosenFactors α) where
  name := ChosenSolver.name
  thresholdAffectsRank
    | .dense _ => false
    | .markowitz _ => true
  analyze solver a hints := (solver.analyze a hints, solver)
  refactor solver block symbolic := (.ofExcept (solver.refactor block symbolic), solver)

end ReducedSpace
