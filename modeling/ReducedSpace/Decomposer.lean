import ReducedSpace.Decomposition.SelfTest
import ReducedSpace.Basis.Chosen

/-!
# The decomposition system

A system owns a solver and the decomposition that is currently published. Each way of changing the
basis prepares a complete decomposition first and only then publishes it, so a failure leaves the
published decomposition and its generation as they were. Only the state of the solver moves on in
any case.
-/

namespace ReducedSpace

/-- A solver, the settings, the sizes and the published decomposition. -/
structure Decomposer (σ α S N : Type) where
  solver : σ
  settings : Settings α
  /-- The number of variables. -/
  n : Nat
  /-- The number of equations. -/
  m : Nat
  /-- The published decomposition. -/
  current : Option (Decomposition α S N)
  /-- The number of bases adopted so far. -/
  generation : Nat

namespace Decomposer

variable {σ α S N : Type} [Scalar α]

/-- A system without a decomposition. The settings must be valid, and all equations must be
decomposable unless the settings allow otherwise. -/
def new (n m : Nat) (solver : σ) (settings : Settings α) :
    Except (DecompError α) (Decomposer σ α S N) := do
  settings.validate
  if n < m ∧ ¬settings.allowUndecomposed then
    .error (.invalidSettings s!"{m} equalities cannot all be decomposed with {n} variables")
  else .ok ⟨solver, settings, n, m, none, 0⟩

/-- A system with the solver that the settings name. -/
def ofSettings (n m : Nat) (settings : Settings α) :
    Except (DecompError α) (Decomposer (ChosenSolver α) α ChosenStructure (ChosenFactors α)) :=
  new n m (.ofSettings settings) settings

/-- Whether a decomposition is published. -/
def isInitialized (s : Decomposer σ α S N) : Bool := s.current.isSome

/-- The published decomposition. -/
def decomposition (s : Decomposer σ α S N) : Except (DecompError α) (Decomposition α S N) :=
  match s.current with
  | some dec => .ok dec
  | none => .error .notInitialized

variable [Factorization S N α]

/-- A decomposition that is ready to be published: built and, if the settings ask for it, tested. -/
def prepare (settings : Settings α) (partition : Partition) (basis : BasisMatrix S N)
    (gc : SparseMatrix α) (generation : Nat) : Attempt (DecompError α) (Decomposition α S N) := do
  let dec ← Decomposition.build partition basis gc settings generation
  if settings.testDecomposition then
    let _ ← dec.verify gc settings.testTol
    return dec
  else return dec

/-- Publishes the decomposition for a partition and its factors under the given generation. -/
def publish (s : Decomposer σ α S N) (partition : Partition) (basis : BasisMatrix S N)
    (gc : SparseMatrix α) (generation : Nat) :
    Attempt (DecompError α) (Decomposition α S N) × Decomposer σ α S N :=
  match prepare s.settings partition basis gc generation with
  | .error e => (.error e, s)
  | .ok dec => (.ok dec, { s with current := some dec, generation := generation })

omit [Factorization S N α] in
/-- The checks in front of adopting a partition. -/
def checkClient (s : Decomposer σ α S N) (partition : Partition) (gc : SparseMatrix α) :
    Except (DecompError α) Unit := do
  Partition.checkShape gc s.n s.m
  if partition.n ≠ s.n ∨ partition.m ≠ s.m then
    .error (.invalidPartition
      s!"partition is {partition.n}x{partition.m}, system is {s.n}x{s.m}")
  else if partition.rank < s.m ∧ ¬s.settings.allowUndecomposed then
    .error (.invalidPartition
      s!"rank {partition.rank} leaves {s.m - partition.rank} equations undecomposed")
  else .ok ()

omit [Scalar α] [Factorization S N α] in
/-- A partition with the leading variables and equations reordered as an analysis of its basis block
asks for. -/
def refine (partition : Partition) (an : Analysis S N) (n m : Nat) :
    Attempt (DecompError α) Partition := do
  let rowPerm ← .ofChecked (an.rowPerm.extendIdentity n)
  let varPerm ← .ofChecked (partition.varPerm.compose rowPerm)
  let colPerm ← .ofChecked (an.colPerm.extendIdentity m)
  let equPerm ← .ofChecked (partition.equPerm.compose colPerm)
  .ofExcept (Partition.new varPerm equPerm partition.rank)

variable [DirectSolver σ α S N]

/-- Adopts a partition of the caller's choice. The solver may reorder the dependent variables and
the decomposed equations among themselves; the sets stay as they are. -/
def setBasis (s : Decomposer σ α S N) (partition : Partition) (gc : SparseMatrix α) :
    Attempt (DecompError α) (Decomposition α S N) × Decomposer σ α S N :=
  match s.checkClient partition gc with
  | .error e => (Attempt.fail e, s)
  | .ok () =>
    match partition.basisBlock gc with
    | .error f => (.error (.fault f), s)
    | .ok block =>
      let (answer, solver) := DirectSolver.analyze s.solver block (.ofRank partition.rank)
      let s := { s with solver := solver }
      match answer.mapError DecompError.ofSolver with
      | .error e => (.error e, s)
      | .ok an =>
        match refine partition an s.n s.m with
        | .error e => (.error e, s)
        | .ok refined => s.publish refined an.basis gc (s.generation + 1)

omit [Factorization S N α] [DirectSolver σ α S N] in
/-- The checks in front of a selection: the shape of the gradients and the length of the dual
estimate. -/
def checkSelection (s : Decomposer σ α S N) (nu : Option (Array α)) (gc : SparseMatrix α) :
    Except (DecompError α) Unit := do
  Partition.checkShape gc s.n s.m
  match nu with
  | none => .ok ()
  | some nu =>
    if nu.size ≠ s.n then .error (.dimensionMismatch "dual estimate" s.n nu.size) else .ok ()

omit [Scalar α] [Factorization S N α] [DirectSolver σ α S N] in
/-- The rank that a selection must reach. -/
def requiredRank (s : Decomposer σ α S N) : Nat :=
  if s.settings.allowUndecomposed then min s.m 1 else s.m

omit [Factorization S N α] in
/-- The number of analyses in one selection; more than one only if a stricter threshold can change
the rank. -/
def attempts (s : Decomposer σ α S N) : Nat :=
  if DirectSolver.thresholdAffectsRank s.solver then s.settings.maxSelectAttempts else 1

/-- Analyses with the hints of attempt `attempt` and up to `left - 1` further ones, and publishes
the first success. A rank deficient analysis is tried again, any other error ends the selection. -/
def selectFrom (preferred : Option (Array Bool)) (gc : SparseMatrix α) :
    (left attempt : Nat) → SolverError α → Decomposer σ α S N →
      Attempt (DecompError α) (Decomposition α S N) × Decomposer σ α S N
  | 0, _, last, s => (Attempt.fail (.ofSolver last), s)
  | left + 1, attempt, _, s =>
    let (answer, solver) := DirectSolver.analyze s.solver gc ⟨s.requiredRank, preferred, attempt⟩
    let s := { s with solver := solver }
    match answer with
    | .ok an =>
      match Partition.new an.rowPerm an.colPerm an.rank with
      | .error e => (Attempt.fail e, s)
      | .ok partition => s.publish partition an.basis gc (s.generation + 1)
    | .error (.error (.singularBasis rank required)) =>
      selectFrom preferred gc left (attempt + 1) (.singularBasis rank required) s
    | .error (.error e) => (Attempt.fail (.ofSolver e), s)
    | .error (.fault f) => (.error (.fault f), s)

/-- Lets the solver choose the partition. Variables with a nonzero entry of `nu` are preferred as
dependent variables. -/
def selectBasis (s : Decomposer σ α S N) (nu : Option (Array α)) (gc : SparseMatrix α) :
    Attempt (DecompError α) (Decomposition α S N) × Decomposer σ α S N :=
  match s.checkSelection nu gc with
  | .error e => (Attempt.fail e, s)
  | .ok () =>
    let preferred := nu.map fun nu => nu.map fun v => !Scalar.isZero v
    selectFrom preferred gc s.attempts 0 (.singularBasis 0 s.requiredRank) s

/-- Factors the published partition anew for other values of the gradients. It never chooses another
partition. -/
def updateBasis (s : Decomposer σ α S N) (gc : SparseMatrix α) :
    Attempt (DecompError α) (Decomposition α S N) × Decomposer σ α S N :=
  match Partition.checkShape gc s.n s.m with
  | .error e => (Attempt.fail e, s)
  | .ok () =>
    match s.decomposition with
    | .error e => (Attempt.fail e, s)
    | .ok current =>
      match current.partition.basisBlock gc with
      | .error f => (.error (.fault f), s)
      | .ok block =>
        let (answer, solver) := DirectSolver.refactor s.solver block current.basis.symbolic
        let s := { s with solver := solver }
        match answer.mapError DecompError.ofSolver with
        | .error e => (.error e, s)
        | .ok basis => s.publish current.partition basis gc s.generation

end Decomposer

end ReducedSpace
