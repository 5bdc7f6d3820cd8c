import ReducedSpace.Proofs.Guarded.CompletePivoting
import ReducedSpace.Proofs.Guarded.DenseSolve
import ReducedSpace.Proofs.Guarded.Markowitz

/-!
# Solvers with guarded accesses

A solver has twins of its analysis, of its refactorization and of the solves with its factors, in
which every access is guarded. The guards are lawful if the twins answer the same, if neither of
them faults, and if the factors that they return can be solved with. The solvers of the library have
lawful guards in every arithmetic.
-/

namespace ReducedSpace

/-- Solves with guarded accesses. -/
class GuardedFactorization (S N : Type) (α : outParam Type) where
  solve : S → N → Orientation → Array α → Checked (Array α)

/-- Analysis and refactorization with guarded accesses. -/
class GuardedSolver (σ : Type) (α S N : outParam Type) where
  analyze : σ → SparseMatrix α → AnalysisHints → Attempt (SolverError α) (Analysis S N) × σ
  refactor : σ → SparseMatrix α → S → Attempt (SolverError α) (BasisMatrix S N) × σ

/-- Every right-hand side of the right length has a solution of that length, and finding it keeps to
the factors and to the right-hand side. -/
structure BasisMatrix.Solvable {S N α : Type} [Factorization S N α] [GuardedFactorization S N α]
    (b : BasisMatrix S N) : Prop where
  guarded_eq : ∀ o (x : Array α), x.size = b.dim →
    GuardedFactorization.solve b.symbolic b.numeric o x =
      Factorization.solve b.symbolic b.numeric o x
  exists_solve : ∀ o (x : Array α), x.size = b.dim →
    ∃ y, Factorization.solve b.symbolic b.numeric o x = .ok y ∧ y.size = b.dim

/-- Solves with a factored block, with guarded accesses. -/
def Guarded.solve {S N α : Type} [GuardedFactorization S N α] (b : BasisMatrix S N)
    (o : Orientation) (x : Array α) : Checked (Array α) := do
  Checked.sameLength b.dim x.size
  GuardedFactorization.solve b.symbolic b.numeric o x

/-- A solvable basis solves alike with and without guards. -/
theorem BasisMatrix.Solvable.exists_eq {S N α : Type} [Factorization S N α]
    [GuardedFactorization S N α] {b : BasisMatrix S N} (h : b.Solvable) (o : Orientation)
    {x : Array α} (hx : x.size = b.dim) :
    ∃ y, Guarded.solve b o x = .ok y ∧ b.solve o x = .ok y ∧ y.size = b.dim := by
  obtain ⟨y, hy, hsize⟩ := h.exists_solve o x hx
  have hlength : Checked.sameLength b.dim x.size = .ok () := Checked.sameLength_eq_ok_iff.2 hx.symm
  exact ⟨y, bind_eq_ok_iff.2 ⟨(), hlength, (h.guarded_eq o x hx).trans hy⟩,
    bind_eq_ok_iff.2 ⟨(), hlength, hy⟩, hsize⟩

/-- A solver that never leaves the matrices and vectors that it works on. -/
class LawfulGuards (σ : Type) {α S N : Type} [Dimensioned S N] [Factorization S N α]
    [GuardedFactorization S N α] [DirectSolver σ α S N] [GuardedSolver σ α S N] : Prop
    extends BlockSolver σ where
  analyze_eq : ∀ (solver : σ) (a : SparseMatrix α) (hints : AnalysisHints),
    GuardedSolver.analyze solver a hints = DirectSolver.analyze solver a hints
  refactor_eq : ∀ (solver : σ) (block : SparseMatrix α) (symbolic : S),
    GuardedSolver.refactor solver block symbolic = DirectSolver.refactor solver block symbolic
  noFault_analyze : ∀ (solver : σ) (a : SparseMatrix α) (hints : AnalysisHints),
    NoFault (DirectSolver.analyze solver a hints).1
  noFault_refactor : ∀ (solver : σ) (block : SparseMatrix α) (symbolic : S),
    NoFault (DirectSolver.refactor solver block symbolic).1
  solvable_analyze : ∀ {solver : σ} {a : SparseMatrix α} {hints : AnalysisHints}
    {an : Analysis S N}, (DirectSolver.analyze solver a hints).1 = .ok an → an.basis.Solvable
  solvable_refactor : ∀ {solver : σ} {block : SparseMatrix α} {symbolic : S}
    {b : BasisMatrix S N}, (DirectSolver.refactor solver block symbolic).1 = .ok b → b.Solvable

section Library

variable {α : Type} [Scalar α]

instance : GuardedFactorization DenseStructure (DenseLu α) α where
  solve _ lu := Guarded.solveDense lu

instance : GuardedFactorization MarkowitzStructure (SparseLu α) α where
  solve _ f := Guarded.solveIn f

instance : GuardedFactorization ChosenStructure (ChosenFactors α) α where
  solve
    | .dense _, .dense lu, o, b => Guarded.solveDense lu o b
    | .markowitz _, .markowitz f, o, b => Guarded.solveIn f o b
    | _, _, _, b => .ok (b.map fun _ => Scalar.nan)

instance : GuardedSolver (DenseSolver α) α DenseStructure (DenseLu α) where
  analyze solver a hints := (Guarded.analyzeDense solver a hints, solver)
  refactor solver block symbolic := (Guarded.refactorDense solver block symbolic, solver)

instance : GuardedSolver (MarkowitzSolver α) α MarkowitzStructure (SparseLu α) where
  analyze solver a hints := (Guarded.analyzeSparse solver a hints, solver)
  refactor solver block symbolic := (Guarded.refactorSparse solver block symbolic, solver)

namespace Guarded

/-- Analysis by the solver at hand. -/
def analyzeChosen (solver : ChosenSolver α) (a : SparseMatrix α) (hints : AnalysisHints) :
    Attempt (SolverError α) (Analysis ChosenStructure (ChosenFactors α)) :=
  match solver with
  | .dense s => (analyzeDense s a hints).map (.map .dense .dense)
  | .markowitz s => (analyzeSparse s a hints).map (.map .markowitz .markowitz)

/-- Refactorization by the solver at hand, which must be the one that made the structure. -/
def refactorChosen (solver : ChosenSolver α) (block : SparseMatrix α) (symbolic : ChosenStructure) :
    Attempt (SolverError α) (BasisMatrix ChosenStructure (ChosenFactors α)) :=
  match solver, symbolic with
  | .dense s, .dense inner =>
    (refactorDense s block inner).map fun b => ⟨block.rows, symbolic, .dense b.numeric⟩
  | .markowitz s, .markowitz inner =>
    (refactorSparse s block inner).map fun b => ⟨block.rows, symbolic, .markowitz b.numeric⟩
  | _, _ => Attempt.fail (.backendMismatch solver.name symbolic.solverName)

/-- The chosen solver analyzes as the solver at hand does. -/
theorem analyzeChosen_eq (solver : ChosenSolver α) (a : SparseMatrix α) (hints : AnalysisHints) :
    analyzeChosen solver a hints = solver.analyze a hints := by
  cases solver with
  | dense s => exact congrArg (Except.map _) (analyzeDense_eq s a hints)
  | markowitz s => exact congrArg (Except.map _) (analyzeSparse_eq s a hints)

/-- And it refactors as that does, if the structure is its own. -/
theorem refactorChosen_eq (solver : ChosenSolver α) (block : SparseMatrix α)
    (symbolic : ChosenStructure) :
    refactorChosen solver block symbolic = .ofExcept (solver.refactor block symbolic) := by
  have hmap {β γ : Type} (f : β → γ) (x : Except (SolverError α) β) :
      (Attempt.ofExcept x).map f = Attempt.ofExcept (x.map f) := by
    cases x <;> rfl
  cases solver with
  | dense s => cases symbolic with
    | dense inner =>
      exact (congrArg (Except.map _) (refactorDense_eq s block inner)).trans (hmap _ _)
    | markowitz inner => rfl
  | markowitz s => cases symbolic with
    | dense inner => rfl
    | markowitz inner =>
      exact (congrArg (Except.map _) (refactorSparse_eq s block inner)).trans (hmap _ _)

end Guarded

instance : GuardedSolver (ChosenSolver α) α ChosenStructure (ChosenFactors α) where
  analyze solver a hints := (Guarded.analyzeChosen solver a hints, solver)
  refactor solver block symbolic := (Guarded.refactorChosen solver block symbolic, solver)

section Shaped

/-- Shaped dense factors can be solved with, under any structure and with or without the tag of the
solver. -/
theorem DenseLu.Shaped.solvable {lu : DenseLu α} {r : Nat} (h : lu.Shaped r) :
    (∀ symbolic, (⟨r, symbolic, lu⟩ : BasisMatrix DenseStructure (DenseLu α)).Solvable) ∧
      ∀ symbolic, (⟨r, .dense symbolic, .dense lu⟩ :
        BasisMatrix ChosenStructure (ChosenFactors α)).Solvable :=
  ⟨fun _ => ⟨fun o _ hx => (Guarded.solveDense_eq h o hx).1,
      fun o _ hx => (Guarded.solveDense_eq h o hx).2⟩,
    fun _ => ⟨fun o _ hx => (Guarded.solveDense_eq h o hx).1,
      fun o _ hx => (Guarded.solveDense_eq h o hx).2⟩⟩

/-- Shaped sparse factors can be solved with, too. -/
theorem SparseLu.Shaped.solvable {f : SparseLu α} {r : Nat} (h : f.Shaped r r) :
    (∀ symbolic, (⟨r, symbolic, f⟩ : BasisMatrix MarkowitzStructure (SparseLu α)).Solvable) ∧
      ∀ symbolic, (⟨r, .markowitz symbolic, .markowitz f⟩ :
        BasisMatrix ChosenStructure (ChosenFactors α)).Solvable :=
  ⟨fun _ => ⟨fun o _ hx => (Guarded.solveIn_eq h o hx).1,
      fun o _ hx => (Guarded.solveIn_eq h o hx).2⟩,
    fun _ => ⟨fun o _ hx => (Guarded.solveIn_eq h o hx).1,
      fun o _ hx => (Guarded.solveIn_eq h o hx).2⟩⟩

end Shaped

instance : LawfulGuards (DenseSolver α) where
  analyze_eq solver a hints := congrArg (·, solver) (Guarded.analyzeDense_eq solver a hints)
  refactor_eq solver block symbolic :=
    congrArg (·, solver) (Guarded.refactorDense_eq solver block symbolic)
  noFault_analyze _ _ _ := noFault_ofExcept _
  noFault_refactor _ _ _ := noFault_ofExcept _
  solvable_analyze h :=
    (Guarded.shaped_analyzeDense (Attempt.ofExcept_eq_ok_iff.1 h)).solvable.1 _
  solvable_refactor h :=
    (Guarded.shaped_refactorDense (Attempt.ofExcept_eq_ok_iff.1 h)).2.solvable.1 _

instance : LawfulGuards (MarkowitzSolver α) where
  analyze_eq solver a hints := congrArg (·, solver) (Guarded.analyzeSparse_eq solver a hints)
  refactor_eq solver block symbolic :=
    congrArg (·, solver) (Guarded.refactorSparse_eq solver block symbolic)
  noFault_analyze := Guarded.noFault_analyzeSparse
  noFault_refactor _ _ _ := noFault_ofExcept _
  solvable_analyze h := (Guarded.shaped_analyzeSparse h).solvable.1 _
  solvable_refactor h :=
    (Guarded.shaped_refactorSparse (Attempt.ofExcept_eq_ok_iff.1 h)).2.solvable.1 _

/-- The solver of the settings inherits its guards from the solver that it runs. -/
instance : LawfulGuards (ChosenSolver α) where
  analyze_eq solver a hints := congrArg (·, solver) (Guarded.analyzeChosen_eq solver a hints)
  refactor_eq solver block symbolic :=
    congrArg (·, solver) (Guarded.refactorChosen_eq solver block symbolic)
  noFault_analyze solver a hints := by
    cases solver with
    | dense s => exact (noFault_ofExcept _).map _
    | markowitz s => exact (Guarded.noFault_analyzeSparse s a hints).map _
  noFault_refactor _ _ _ := noFault_ofExcept _
  solvable_analyze {solver} a hints an h := by
    cases solver with
    | dense s =>
      obtain ⟨inner, hinner, rfl⟩ := map_eq_ok_iff.1 h
      exact (Guarded.shaped_analyzeDense (Attempt.ofExcept_eq_ok_iff.1 hinner)).solvable.2 _
    | markowitz s =>
      obtain ⟨inner, hinner, rfl⟩ := map_eq_ok_iff.1 h
      exact (Guarded.shaped_analyzeSparse hinner).solvable.2 _
  solvable_refactor {solver} block symbolic b h := by
    have h' := Attempt.ofExcept_eq_ok_iff.1 h
    cases solver with
    | dense s => cases symbolic with
      | dense inner =>
        obtain ⟨ib, hib, rfl⟩ := map_eq_ok_iff.1 h'
        obtain ⟨hdim, hshaped⟩ := Guarded.shaped_refactorDense hib
        exact (hdim ▸ hshaped).solvable.2 _
      | markowitz inner => cases h'
    | markowitz s => cases symbolic with
      | dense inner => cases h'
      | markowitz inner =>
        obtain ⟨ib, hib, rfl⟩ := map_eq_ok_iff.1 h'
        obtain ⟨hdim, hshaped⟩ := Guarded.shaped_refactorSparse hib
        exact (hdim ▸ hshaped).solvable.2 _

end Library

end ReducedSpace
