import ReducedSpace.Proofs.Decomposer.Invariant
import ReducedSpace.Recovery

/-!
# Sessions

A session is a record of recoveries together with the system that it looks after. Calls on the
record and calls of the client on the system come in any order; a history lists them.
-/

namespace ReducedSpace

/-- A call on a record of recoveries. -/
inductive RecoveryCall (α : Type) where
  /-- Show the measure of an iteration to the monitor. -/
  | check (beta : α) (gc : SparseMatrix α) (nu : Option (Array α))
  /-- Report that the line search of an iteration failed. -/
  | lineSearchFailure (iter : Nat) (gc : SparseMatrix α) (nu : Option (Array α))
  /-- Ask for a new basis outright. -/
  | reselect (gc : SparseMatrix α) (nu : Option (Array α))

namespace Recovery

variable {σ α S N : Type} [Scalar α] [Factorization S N α] [DirectSolver σ α S N]

/-- Carries out a call. -/
def perform (r : Recovery α) (system : Decomposer σ α S N) :
    RecoveryCall α → Attempt (DecompError α) StepOutcome × Recovery α × Decomposer σ α S N
  | .check beta gc nu => r.checkConditioning beta system gc nu
  | .lineSearchFailure iter gc nu => r.lineSearchFailure iter system gc nu
  | .reselect gc nu => r.reselect system gc nu

end Recovery

/-- A record of recoveries and the system that it looks after. -/
structure Session (σ α S N : Type) where
  recovery : Recovery α
  system : Decomposer σ α S N

namespace Session

/-- What can happen in a session. -/
inductive Event (α : Type) where
  /-- The client changes the basis by itself. -/
  | client (call : BasisCall α)
  | recovery (call : RecoveryCall α)

variable {σ α S N : Type} [Scalar α] [Factorization S N α] [DirectSolver σ α S N]

/-- The session after an event. -/
def handle (t : Session σ α S N) : Event α → Session σ α S N
  | .client call => { t with system := (t.system.perform call).2 }
  | .recovery call =>
    let (_, recovery, system) := t.recovery.perform t.system call
    ⟨recovery, system⟩

/-- The session after a history. -/
def after (t : Session σ α S N) (history : List (Event α)) : Session σ α S N :=
  history.foldl handle t

/-- A session with a new system for the sample gradients. -/
def sample : Session (MarkowitzSolver Rat) Rat MarkowitzStructure (SparseLu Rat) :=
  ⟨.new (.ofSettings (sampleSettings .markowitz)),
    Decomposer.sample (.ofSettings (sampleSettings .markowitz)) (sampleSettings .markowitz)⟩

end Session

end ReducedSpace
