import Mathlib
import ReducedSpace.Proofs.Basis.Exactness
import ReducedSpace.Proofs.Decomposer.Invariant
import ReducedSpace.Proofs.Dense.Packed

/-!
# Solves return the solution

An analysis selects a block and factors it, a refactorization factors the block it is given, and
packed factors from elsewhere belong to the matrix that they multiply to. In each case a solve, plain
or transposed, returns the one solution for its right-hand side.
-/

namespace ReducedSpace

open Elimination

section Blocks

variable {K σ S N : Type} [ExactScalar K] [Factorization S N K] [DirectSolver σ K S N]

/-- Whatever a solver factors, it solves with: the block that the orders of an analysis select, and
the block that is factored anew. -/
structure FactorsBlocks (solver : σ) : Prop where
  analyze : ∀ {a : SparseMatrix K} {hints : AnalysisHints} {an : Analysis S N},
    (DirectSolver.analyze solver a hints).1 = .ok an →
      ∃ block, a.select (an.rowPerm.olds.extract 0 an.rank) (an.colPerm.olds.extract 0 an.rank) =
          .ok block ∧
        block.rows = an.rank ∧ block.cols = an.rank ∧ an.basis.dim = an.rank ∧
        UniquelyInverts an.basis.solve an.rank block.entry
  refactor : ∀ {block : SparseMatrix K} {symbolic : S} {b : BasisMatrix S N},
    (DirectSolver.refactor solver block symbolic).1 = .ok b →
      block.rows = b.dim ∧ block.cols = b.dim ∧ UniquelyInverts b.solve b.dim block.entry

variable [Dimensioned S N] [BlockSolver σ] {solver : σ}

open MarkowitzSolver in
/-- The rows and columns in front of two orders select the block that an analysis factors. -/
theorem SolvesExactly.factorsBlocks (h : SolvesExactly solver) : FactorsBlocks solver where
  analyze {a hints an} han := by
    have hfits := SizedSolver.analyze_fits han
    have hle := BlockSolver.rank_le han
    have hr : an.rank ≤ an.rowPerm.size := by
      rw [hfits.size_rowPerm]
      omega
    have hc : an.rank ≤ an.colPerm.size := by
      rw [hfits.size_colPerm]
      omega
    refine ⟨leadingBlock a an.rowPerm an.colPerm an.rank, ?_, rows_leadingBlock a hr _,
      cols_leadingBlock a _ hc, hfits.hasDim.dim_eq, ?_⟩
    · refine SparseMatrix.select_eq_ok_iff.2 ⟨fun i hi => ?_, fun j hj => ?_, rfl⟩
      · have hnew := ((an.rowPerm.mem_extract_olds_iff hr).1 hi).2
        rw [← hfits.size_rowPerm]
        exact an.rowPerm.new_lt_iff.1 (Nat.lt_of_lt_of_le hnew hr)
      · have hnew := ((an.colPerm.mem_extract_olds_iff hc).1 hj).2
        rw [← hfits.size_colPerm]
        exact an.colPerm.new_lt_iff.1 (Nat.lt_of_lt_of_le hnew hc)
    · refine ((h.inverts_analyze han).congr fun i j hi hj => ?_).unique
      exact (entry_leadingBlock a hr hc hi hj).symm
  refactor hb := by
    obtain ⟨hrows, hcols⟩ := BlockSolver.square_refactor hb
    exact ⟨hrows, hcols, (h.inverts_refactor hb).unique⟩

end Blocks

/-- All solvers with tolerances in range solve with the blocks that they factor, and packed factors
from elsewhere solve with `Pᵀ L U`. Every solve returns the one solution. -/
theorem solves_return_the_solution (K : Type) [ExactScalar K] :
    (∀ solver : DenseSolver K, solver.Admissible → FactorsBlocks solver) ∧
    (∀ solver : MarkowitzSolver K, solver.Admissible → FactorsBlocks solver) ∧
    (∀ solver : ChosenSolver K, solver.Admissible → FactorsBlocks solver) ∧
    ∀ f : DenseLu K, f.WellPacked → UniquelyInverts f.solveIn f.dim (entriesOf f.factored) :=
  ⟨fun _ h => (DenseSolver.solvesExactly h).factorsBlocks,
    fun _ h => (MarkowitzSolver.solvesExactly h).factorsBlocks,
    fun _ h => (ChosenSolver.solvesExactly h).factorsBlocks,
    fun _ h => h.factorsOf.inverts.unique⟩

/-- Packed factors of three rows with two exchanges that move rows. -/
def samplePacked : DenseLu Rat where
  packed := .ofFn 3 3 fun i j =>
    ((#[#[2, 1, 0], #[1 / 2, 3, 1], #[-1, 2, 4]] : Array (Array Rat)).getD i #[]).getD j 0
  swaps := #[2, 2, 2]

/-- The sample factors solve for a vector of the matrix that they belong to, and an analysis of
gradients without full rank factors the block of the independent ones. -/
theorem solves_return_the_solution_sample :
    let solver := MarkowitzSolver.ofSettings (sampleSettings .markowitz)
    solver.Admissible ∧ ((solver.analyze sampleGradients (.ofRank 2)).map (·.rank) = .ok 2) ∧
      FactorsBlocks solver ∧ samplePacked.WellPacked ∧
      samplePacked.solveIn .plain #[11, 26, 4] = .ok #[1, 2, 3] ∧
      UniquelyInverts samplePacked.solveIn 3 (entriesOf samplePacked.factored) := by
  intro solver
  obtain ⟨-, hmarkowitz, -, hpacked⟩ := solves_return_the_solution ℚ
  have hsolver : solver.Admissible :=
    MarkowitzSolver.admissible_ofSettings (sampleSettings_valid .markowitz)
  have hsample : samplePacked.WellPacked :=
    ⟨rfl, Nat.le_refl 3, by decide, by decide +kernel⟩
  exact ⟨hsolver, by decide +kernel, hmarkowitz solver hsolver, hsample, by decide +kernel,
    hpacked samplePacked hsample⟩

end ReducedSpace
