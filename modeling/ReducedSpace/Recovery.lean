import ReducedSpace.Decomposer

/-!
# Recovery

Two events ask for a new basis: the conditioning monitor fires, or a line search fails. A line
search that fails again on the iteration right after a recovery from such a failure is fatal;
recoveries that the monitor asked for may repeat as long as the selection succeeds.
-/

namespace ReducedSpace

/-- What a check of one iteration led to. -/
inductive StepOutcome where
  /-- The decomposition is kept. -/
  | proceed
  /-- A new basis was selected; it has the given generation. -/
  | reselected (generation : Nat)
  deriving DecidableEq, Repr

/-- The monitor and the record of recoveries. -/
structure Recovery (α : Type) where
  monitor : Monitor α
  /-- The iteration of the last line search failure that was not fatal. -/
  lastLineSearch : Option Nat
  /-- The number of successful selections. -/
  count : Nat

namespace Recovery

variable {σ α S N : Type} [Scalar α]

/-- A record without recoveries. -/
def new (monitor : Monitor α) : Recovery α := ⟨monitor, none, 0⟩

/-- A record with the monitor that the settings ask for. -/
def ofSettings (s : Settings α) : Recovery α := new (.ofSettings s)

variable [Factorization S N α] [DirectSolver σ α S N]

/-- Selects a new basis and, if that succeeds, counts it and restarts the monitor. -/
def reselect (r : Recovery α) (system : Decomposer σ α S N) (gc : SparseMatrix α)
    (nu : Option (Array α)) :
    Attempt (DecompError α) StepOutcome × Recovery α × Decomposer σ α S N :=
  match system.selectBasis nu gc with
  | (.error e, system) => (.error e, r, system)
  | (.ok dec, system) =>
    (.ok (.reselected dec.generation),
      { r with monitor := r.monitor.reset, count := r.count + 1 }, system)

/-- Shows the measure of an iteration to the monitor and selects a new basis if it fires. -/
def checkConditioning (r : Recovery α) (beta : α) (system : Decomposer σ α S N)
    (gc : SparseMatrix α) (nu : Option (Array α)) :
    Attempt (DecompError α) StepOutcome × Recovery α × Decomposer σ α S N :=
  let (verdict, monitor) := r.monitor.observe beta system.generation
  let r := { r with monitor := monitor }
  match verdict with
  | .accept => (.ok .proceed, r, system)
  | .illConditioned _ => r.reselect system gc nu

omit [Scalar α] in
/-- The previous failure, if a failure at the given iteration comes too soon after it. -/
def exhaustedBy (r : Recovery α) (iter : Nat) : Option Nat :=
  r.lastLineSearch.filter fun previous => decide (iter ≤ previous + 1)

/-- Handles a failed line search: fatal right after the previous one, otherwise recorded and
answered by a new basis. -/
def lineSearchFailure (r : Recovery α) (iter : Nat) (system : Decomposer σ α S N)
    (gc : SparseMatrix α) (nu : Option (Array α)) :
    Attempt (DecompError α) StepOutcome × Recovery α × Decomposer σ α S N :=
  match r.exhaustedBy iter with
  | some previous =>
    (Attempt.fail (.recoveryExhausted iter previous r.monitor.betaMin), r, system)
  | none => { r with lastLineSearch := some iter }.reselect system gc nu

end Recovery

end ReducedSpace
