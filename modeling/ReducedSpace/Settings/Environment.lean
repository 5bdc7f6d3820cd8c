import ReducedSpace.Settings
import ReducedSpace.Decimal.Reader

/-!
# Settings from the environment

The standard settings, of which four can be overridden for experiments by environment variables:
`RSQP_BACKEND`, `RSQP_DECOMP`, `RSQP_MAX_COND_CHANGE_FRAC` and `RSQP_TEST_DECOMP`. A value that
cannot be read leaves the standard one in place.
-/

namespace ReducedSpace.Settings

/-- The settings used when nothing is overridden. -/
def standard : Settings Float where
  solver := .markowitz
  kind := .coordinate
  sensitivity := .explicit
  pivotThreshold := 0.1
  rankTol := 1e-10
  refactorTol := 1e-13
  maxSearch := 4
  maxSelectAttempts := 3
  allowUndecomposed := false
  betaSource := .quasiNormalStep
  maxCondChangeFrac := 100.0
  maxCond := 0.01 / Scalar.epsilon
  testDecomposition := false
  testTol := 1e-8

/-- Whether a text switches an option on: `1`, or `true` in any case, without blanks. -/
def switchesOn (text : String) : Bool :=
  text == "1" || text.toList.map Char.toLower == "true".toList

/-- The standard settings with the overrides that the environment gives. -/
def ofEnvironment (lookup : String → Option String) : Settings Float :=
  let solver := (lookup "RSQP_BACKEND").bind fun t =>
    (SolverChoice.parse t : Except (DecompError Float) _).toOption
  let kind := (lookup "RSQP_DECOMP").bind fun t =>
    (RangeBasis.parse t : Except (DecompError Float) _).toOption
  let frac := (lookup "RSQP_MAX_COND_CHANGE_FRAC").bind Decimal.read?
  { standard with
    solver := solver.getD standard.solver
    kind := kind.getD standard.kind
    maxCondChangeFrac := frac.getD standard.maxCondChangeFrac
    testDecomposition := ((lookup "RSQP_TEST_DECOMP").map switchesOn).getD false }

end ReducedSpace.Settings
