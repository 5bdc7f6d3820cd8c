import ReducedSpace.Proofs.Outcome
import ReducedSpace.Proofs.Basis.PivotSearch
import ReducedSpace.Basis.Chosen

/-!
# What the solvers answer

Each solver is described by when it succeeds and with what: the elimination it ran, the orders it
read off and the factors it formed. Over these equivalences stand the sizes of an answer, which
hold in every arithmetic: an answer orders all rows and all columns, and both halves of the factored
block have the dimension of the block.
-/

namespace ReducedSpace

variable {α : Type} [Scalar α]

namespace DenseSolver

/-- The elimination that an analysis runs: the rank and the final state. -/
def elimination (solver : DenseSolver α) (a : SparseMatrix α) (hints : AnalysisHints) :
    Nat × PivotedMatrix α :=
  PivotedMatrix.run hints (thresholdForAttempt solver.pivotThreshold hints.attempt)
    (solver.rankTol * a.maxAbs) (min a.rows a.cols) 0 (.start a.toDense)

/-- The answer of a dense analysis in terms of its elimination. -/
theorem analyze_eq (solver : DenseSolver α) (a : SparseMatrix α) (hints : AnalysisHints) :
    solver.analyze a hints =
      if (solver.elimination a hints).1 < hints.requiredRank then
        .error (.singularBasis (solver.elimination a hints).1 hints.requiredRank)
      else .ok {
        rowPerm := (solver.elimination a hints).2.rowPerm
        colPerm := (solver.elimination a hints).2.colPerm
        rank := (solver.elimination a hints).1
        basis := ⟨(solver.elimination a hints).1, ⟨(solver.elimination a hints).1⟩,
          ⟨(solver.elimination a hints).2.matrix.leading (solver.elimination a hints).1
            (solver.elimination a hints).1, Array.range (solver.elimination a hints).1⟩⟩ } := rfl

/-- An analysis that finds the required rank succeeds with the rank that it finds. -/
theorem exists_analyze (solver : DenseSolver α) (a : SparseMatrix α) (hints : AnalysisHints)
    (h : hints.requiredRank ≤ (solver.elimination a hints).1) :
    ∃ an, solver.analyze a hints = .ok an ∧ an.rank = (solver.elimination a hints).1 := by
  rw [analyze_eq, if_neg (Nat.not_lt.2 h)]
  exact ⟨_, rfl, rfl⟩

/-- When a dense refactorization succeeds, and with what. -/
theorem refactor_eq_ok_iff {solver : DenseSolver α} {block : SparseMatrix α}
    {symbolic : DenseStructure} {b : BasisMatrix DenseStructure (DenseLu α)} :
    solver.refactor block symbolic = .ok b ↔
      block.rows = symbolic.dim ∧ block.cols = symbolic.dim ∧
        ∃ lu, DenseLu.factor block.toDense (solver.refactorTol * block.maxAbs) = .ok lu ∧
          ⟨symbolic.dim, symbolic, lu⟩ = b := by
  rw [refactor]
  by_cases h : block.rows = symbolic.dim ∧ block.cols = symbolic.dim
  · rw [if_pos h, map_eq_ok_iff]
    exact ⟨fun hb => ⟨h.1, h.2, hb⟩, fun hb => hb.2.2⟩
  · rw [if_neg h]
    constructor
    · intro hb
      cases hb
    · intro hb
      exact absurd ⟨hb.1, hb.2.1⟩ h

end DenseSolver

namespace MarkowitzSolver

/-- The positions of the pivots that an analysis eliminates. -/
def pivots (solver : MarkowitzSolver α) (a : SparseMatrix α) (hints : AnalysisHints) :
    List (Nat × Nat) :=
  ActiveMatrix.pivots (thresholdForAttempt solver.pivotThreshold hints.attempt)
    (solver.rankTol * a.maxAbs) hints (max solver.maxSearch 1) (min a.rows a.cols) (.ofSparse a)

/-- The block that the pivots lead to. -/
def leadingBlock (a : SparseMatrix α) (rowPerm colPerm : Permutation) (rank : Nat) :
    SparseMatrix α :=
  a.submatrix (rowPerm.olds.extract 0 rank) (colPerm.olds.extract 0 rank)

/-- All pivots of a sparse analysis are inside the matrix. -/
theorem pivots_lt (solver : MarkowitzSolver α) (a : SparseMatrix α) (hints : AnalysisHints) :
    ∀ e ∈ solver.pivots a hints, e.1 < a.rows ∧ e.2 < a.cols :=
  ActiveMatrix.pivots_lt (ActiveMatrix.ofSparse_aligned a)

/-- There are at most as many as rows or columns. -/
theorem length_pivots_le (solver : MarkowitzSolver α) (a : SparseMatrix α)
    (hints : AnalysisHints) : (solver.pivots a hints).length ≤ min a.rows a.cols :=
  ActiveMatrix.length_pivots_le _ _ _

/-- The orders of an analysis start with indices of the matrix. -/
theorem order_lt (solver : MarkowitzSolver α) (a : SparseMatrix α) (hints : AnalysisHints) :
    (∀ i ∈ (solver.pivots a hints).map (·.1), i < a.rows) ∧
      ∀ j ∈ (solver.pivots a hints).map (·.2), j < a.cols := by
  have hlt := pivots_lt solver a hints
  refine ⟨fun i hi => ?_, fun j hj => ?_⟩
  · obtain ⟨e, he, rfl⟩ := List.mem_map.1 hi
    exact (hlt e he).1
  · obtain ⟨e, he, rfl⟩ := List.mem_map.1 hj
    exact (hlt e he).2

/-- They are orders of all rows and of all columns. -/
theorem size_of_orders {solver : MarkowitzSolver α} {a : SparseMatrix α} {hints : AnalysisHints}
    {rowPerm colPerm : Permutation}
    (hrow : orderPermutation ((solver.pivots a hints).map (·.1)) a.rows = .ok rowPerm)
    (hcol : orderPermutation ((solver.pivots a hints).map (·.2)) a.cols = .ok colPerm) :
    rowPerm.size = a.rows ∧ colPerm.size = a.cols :=
  ⟨size_of_orderPermutation (order_lt solver a hints).1 hrow,
    size_of_orderPermutation (order_lt solver a hints).2 hcol⟩

/-- When a sparse analysis succeeds, and with what. -/
theorem analyze_eq_ok_iff {solver : MarkowitzSolver α} {a : SparseMatrix α} {hints : AnalysisHints}
    {an : Analysis MarkowitzStructure (SparseLu α)} :
    solver.analyze a hints = .ok an ↔
      hints.requiredRank ≤ (solver.pivots a hints).length ∧
        ∃ rowPerm colPerm factors,
          orderPermutation ((solver.pivots a hints).map (·.1)) a.rows = .ok rowPerm ∧
          orderPermutation ((solver.pivots a hints).map (·.2)) a.cols = .ok colPerm ∧
          SparseLu.factor solver.refactorTol
            (leadingBlock a rowPerm colPerm (solver.pivots a hints).length) = .ok factors ∧
          ⟨rowPerm, colPerm, (solver.pivots a hints).length, (solver.pivots a hints).length,
            ⟨(solver.pivots a hints).length,
              (leadingBlock a rowPerm colPerm (solver.pivots a hints).length).storedCount,
              factors.storedCount⟩, factors⟩ = an := by
  rw [analyze]
  change (if (solver.pivots a hints).length < hints.requiredRank then _ else _) = _ ↔ _
  by_cases h : (solver.pivots a hints).length < hints.requiredRank
  · rw [if_pos h]
    constructor
    · intro hb
      cases hb
    · intro hb
      omega
  · rw [if_neg h]
    simp only [bind_eq_ok_iff, Attempt.ofChecked_eq_ok_iff, Attempt.ofExcept_eq_ok_iff]
    constructor
    · rintro ⟨rowPerm, hrow, colPerm, hcol, factors, hfactors, han⟩
      exact ⟨Nat.not_lt.1 h, rowPerm, colPerm, factors, hrow, hcol, hfactors, Except.ok.inj han⟩
    · rintro ⟨-, rowPerm, colPerm, factors, hrow, hcol, hfactors, rfl⟩
      exact ⟨rowPerm, hrow, colPerm, hcol, factors, hfactors, rfl⟩

/-- When a sparse refactorization succeeds, and with what. -/
theorem refactor_eq_ok_iff {solver : MarkowitzSolver α} {block : SparseMatrix α}
    {symbolic : MarkowitzStructure} {b : BasisMatrix MarkowitzStructure (SparseLu α)} :
    solver.refactor block symbolic = .ok b ↔
      block.rows = symbolic.dim ∧ block.cols = symbolic.dim ∧
        ∃ factors, SparseLu.factor solver.refactorTol block = .ok factors ∧
          ⟨symbolic.dim, symbolic, factors⟩ = b := by
  rw [refactor]
  by_cases h : block.rows = symbolic.dim ∧ block.cols = symbolic.dim
  · rw [if_pos h, map_eq_ok_iff]
    exact ⟨fun hb => ⟨h.1, h.2, hb⟩, fun hb => hb.2.2⟩
  · rw [if_neg h]
    constructor
    · intro hb
      cases hb
    · intro hb
      exact absurd ⟨hb.1, hb.2.1⟩ h

end MarkowitzSolver

section Sizes

/-- Pivoting only swaps entries of the orders. -/
theorem PivotedMatrix.size_perms_run (hints : AnalysisHints) (u absTol : α) (steps k : Nat)
    (s : PivotedMatrix α) :
    (run hints u absTol steps k s).2.rowPerm.size = s.rowPerm.size ∧
      (run hints u absTol steps k s).2.colPerm.size = s.colPerm.size := by
  induction steps generalizing k s with
  | zero => exact ⟨rfl, rfl⟩
  | succ steps ih =>
    rw [run]
    cases hstep : s.step hints u absTol k with
    | none => exact ⟨rfl, rfl⟩
    | some t =>
      have ht : t.rowPerm.size = s.rowPerm.size ∧ t.colPerm.size = s.colPerm.size := by
        unfold step at hstep
        dsimp only at hstep
        split at hstep
        · cases hstep
        · obtain ⟨best, -, rfl⟩ := Option.map_eq_some_iff.1 hstep
          simp [pivot]
      rw [← ht.1, ← ht.2]
      exact ih (k + 1) t

/-- Dense factors have the dimension of the block. -/
theorem DenseLu.dim_factor {a : DenseMatrix α} {tol : α} {lu : DenseLu α}
    (h : factor a tol = .ok lu) : lu.dim = a.rows := by
  have hfrom : ∀ (steps k : Nat) (b : DenseMatrix α) (swaps : Array Nat),
      factorFrom tol steps k b swaps = .ok lu → lu.dim = b.rows := by
    intro steps
    induction steps with
    | zero =>
      intro k b swaps h
      cases h
      rfl
    | succ steps ih =>
      intro k b swaps h
      rw [factorFrom] at h
      dsimp only at h
      split at h
      · exact (ih _ _ _ h).trans rfl
      · cases h
  rw [factor] at h
  split at h
  · exact hfrom _ _ _ _ h
  · cases h

/-- So do sparse ones. -/
theorem SparseLu.dim_factor {tol : α} {block : SparseMatrix α} {f : SparseLu α}
    (h : factor tol block = .ok f) : f.dim = block.rows := by
  have hfrom : ∀ (absTol : α) (steps k : Nat) (a : ActiveMatrix α) (g : SparseLu α),
      factorFrom absTol steps k a g = .ok f → f.dim = g.dim + steps := by
    intro absTol steps
    induction steps with
    | zero =>
      intro k a g h
      cases h
      rfl
    | succ steps ih =>
      intro k a g h
      rw [factorFrom] at h
      dsimp only at h
      split at h
      · rw [ih _ _ _ h]
        simp only [dim, push, Array.size_push]
        omega
      · cases h
  have := hfrom _ _ _ _ _ h
  rwa [show (SparseLu.empty : SparseLu α).dim = 0 from rfl, Nat.zero_add] at this

end Sizes

/-- The dimensions that the two halves of a factored block record. -/
class Dimensioned (S N : Type) where
  structureDim : S → Nat
  factorsDim : N → Nat

instance : Dimensioned DenseStructure (DenseLu α) := ⟨DenseStructure.dim, DenseLu.dim⟩

omit [Scalar α] in
instance : Dimensioned MarkowitzStructure (SparseLu α) := ⟨MarkowitzStructure.dim, SparseLu.dim⟩

/-- The dimension of factors by either solver. -/
def ChosenFactors.dim : ChosenFactors α → Nat
  | dense numeric => numeric.dim
  | markowitz numeric => numeric.dim

instance : Dimensioned ChosenStructure (ChosenFactors α) := ⟨ChosenStructure.dim, ChosenFactors.dim⟩

/-- Both halves of a factored block have its dimension. -/
structure BasisMatrix.HasDim {S N : Type} [Dimensioned S N] (b : BasisMatrix S N) (r : Nat) :
    Prop where
  dim_eq : b.dim = r
  structureDim_eq : Dimensioned.structureDim N b.symbolic = r
  factorsDim_eq : Dimensioned.factorsDim S b.numeric = r

/-- The answer orders all rows and columns of a matrix and factors a block of its rank. -/
structure Analysis.Fits {S N : Type} [Dimensioned S N] (an : Analysis S N)
    (rows cols requiredRank : Nat) : Prop where
  size_rowPerm : an.rowPerm.size = rows
  size_colPerm : an.colPerm.size = cols
  requiredRank_le : requiredRank ≤ an.rank
  hasDim : an.basis.HasDim an.rank

/-- A solver whose answers have the right sizes, whatever its state, the matrix and the
arithmetic. -/
class SizedSolver (σ : Type) {α S N : Type} [Dimensioned S N] [DirectSolver σ α S N] : Prop where
  analyze_fits : ∀ {solver : σ} {a : SparseMatrix α} {hints : AnalysisHints} {an : Analysis S N},
    (DirectSolver.analyze solver a hints).1 = .ok an → an.Fits a.rows a.cols hints.requiredRank
  refactor_fits : ∀ {solver : σ} {block : SparseMatrix α} {symbolic : S} {b : BasisMatrix S N},
    (DirectSolver.refactor solver block symbolic).1 = .ok b →
      b.symbolic = symbolic ∧ b.HasDim (Dimensioned.structureDim N symbolic)

/-- The answers of the dense solver have the right sizes and the required rank. -/
theorem DenseSolver.analyze_fits {solver : DenseSolver α} {a : SparseMatrix α}
    {hints : AnalysisHints} {an : Analysis DenseStructure (DenseLu α)}
    (h : solver.analyze a hints = .ok an) : an.Fits a.rows a.cols hints.requiredRank := by
  rw [analyze_eq] at h
  split at h
  · cases h
  · rename_i hrank
    cases h
    obtain ⟨hrow, hcol⟩ := PivotedMatrix.size_perms_run hints
      (thresholdForAttempt solver.pivotThreshold hints.attempt) (solver.rankTol * a.maxAbs)
      (min a.rows a.cols) 0 (.start a.toDense)
    refine ⟨hrow.trans ?_, hcol.trans ?_, Nat.not_lt.1 hrank, rfl, rfl, rfl⟩
    · exact Permutation.size_identity _
    · exact Permutation.size_identity _

/-- So have those of the sparse solver. -/
theorem MarkowitzSolver.analyze_fits {solver : MarkowitzSolver α} {a : SparseMatrix α}
    {hints : AnalysisHints} {an : Analysis MarkowitzStructure (SparseLu α)}
    (h : solver.analyze a hints = .ok an) : an.Fits a.rows a.cols hints.requiredRank := by
  obtain ⟨hrank, rowPerm, colPerm, factors, hrow, hcol, hfactors, rfl⟩ := analyze_eq_ok_iff.1 h
  obtain ⟨hrows, hcols⟩ := size_of_orders hrow hcol
  have hle := length_pivots_le solver a hints
  refine ⟨hrows, hcols, hrank, rfl, rfl, ?_⟩
  have hdim := SparseLu.dim_factor hfactors
  have holds : rowPerm.olds.size = a.rows := hrows
  have hblock : (leadingBlock a rowPerm colPerm (solver.pivots a hints).length).rows =
      (rowPerm.olds.extract 0 (solver.pivots a hints).length).size := rfl
  rw [hblock, Array.size_extract, holds] at hdim
  show factors.dim = (solver.pivots a hints).length
  omega

instance : SizedSolver (DenseSolver α) where
  analyze_fits h := DenseSolver.analyze_fits (Attempt.ofExcept_eq_ok_iff.1 h)
  refactor_fits h := by
    obtain ⟨hrows, -, lu, hlu, rfl⟩ :=
      DenseSolver.refactor_eq_ok_iff.1 (Attempt.ofExcept_eq_ok_iff.1 h)
    exact ⟨rfl, rfl, rfl, (DenseLu.dim_factor hlu).trans hrows⟩

instance : SizedSolver (MarkowitzSolver α) where
  analyze_fits h := MarkowitzSolver.analyze_fits h
  refactor_fits h := by
    obtain ⟨hrows, -, factors, hfactors, rfl⟩ :=
      MarkowitzSolver.refactor_eq_ok_iff.1 (Attempt.ofExcept_eq_ok_iff.1 h)
    exact ⟨rfl, rfl, rfl, (SparseLu.dim_factor hfactors).trans hrows⟩

/-- The solver of the settings inherits the sizes from the solver that it runs. -/
instance : SizedSolver (ChosenSolver α) where
  analyze_fits {solver} a hints an h := by
    cases solver with
    | dense s =>
      obtain ⟨inner, hinner, rfl⟩ := map_eq_ok_iff.1 h
      have hfits := DenseSolver.analyze_fits (Attempt.ofExcept_eq_ok_iff.1 hinner)
      exact ⟨hfits.size_rowPerm, hfits.size_colPerm, hfits.requiredRank_le, hfits.hasDim.dim_eq,
        hfits.hasDim.structureDim_eq, hfits.hasDim.factorsDim_eq⟩
    | markowitz s =>
      obtain ⟨inner, hinner, rfl⟩ := map_eq_ok_iff.1 h
      have hfits := MarkowitzSolver.analyze_fits hinner
      exact ⟨hfits.size_rowPerm, hfits.size_colPerm, hfits.requiredRank_le, hfits.hasDim.dim_eq,
        hfits.hasDim.structureDim_eq, hfits.hasDim.factorsDim_eq⟩
  refactor_fits {solver} block symbolic b h := by
    have h' := Attempt.ofExcept_eq_ok_iff.1 h
    cases solver with
    | dense s => cases symbolic with
      | dense inner =>
        obtain ⟨ib, hib, rfl⟩ := map_eq_ok_iff.1 h'
        obtain ⟨hrows, -, lu, hlu, rfl⟩ := DenseSolver.refactor_eq_ok_iff.1 hib
        exact ⟨rfl, hrows, rfl, (DenseLu.dim_factor hlu).trans hrows⟩
      | markowitz inner => cases h'
    | markowitz s => cases symbolic with
      | dense inner => cases h'
      | markowitz inner =>
        obtain ⟨ib, hib, rfl⟩ := map_eq_ok_iff.1 h'
        obtain ⟨hrows, -, factors, hfactors, rfl⟩ := MarkowitzSolver.refactor_eq_ok_iff.1 hib
        exact ⟨rfl, hrows, rfl, (SparseLu.dim_factor hfactors).trans hrows⟩

/-- A sized solver whose analyses lead to a block inside the matrix, and which refactors square
blocks only. -/
class BlockSolver (σ : Type) {α S N : Type} [Dimensioned S N] [DirectSolver σ α S N] : Prop
    extends SizedSolver σ where
  rank_le : ∀ {solver : σ} {a : SparseMatrix α} {hints : AnalysisHints} {an : Analysis S N},
    (DirectSolver.analyze solver a hints).1 = .ok an → an.rank ≤ min a.rows a.cols
  square_refactor : ∀ {solver : σ} {block : SparseMatrix α} {symbolic : S} {b : BasisMatrix S N},
    (DirectSolver.refactor solver block symbolic).1 = .ok b →
      block.rows = b.dim ∧ block.cols = b.dim

/-- Every step finds at most one pivot. -/
theorem PivotedMatrix.rank_run_le (hints : AnalysisHints) (u absTol : α) (steps k : Nat)
    (s : PivotedMatrix α) : (run hints u absTol steps k s).1 ≤ k + steps := by
  induction steps generalizing k s with
  | zero => exact Nat.le_refl k
  | succ steps ih =>
    rw [run]
    cases s.step hints u absTol k with
    | none => exact Nat.le_add_right _ _
    | some t =>
      have := ih (k + 1) t
      dsimp only
      omega

/-- A rank is at most the number of rows and of columns. -/
theorem DenseSolver.rank_le {solver : DenseSolver α} {a : SparseMatrix α} {hints : AnalysisHints}
    {an : Analysis DenseStructure (DenseLu α)} (h : solver.analyze a hints = .ok an) :
    an.rank ≤ min a.rows a.cols := by
  rw [analyze_eq] at h
  split at h
  · cases h
  · cases h
    have hle : (solver.elimination a hints).1 ≤ 0 + min a.rows a.cols :=
      PivotedMatrix.rank_run_le _ _ _ _ _ _
    rwa [Nat.zero_add] at hle

/-- With either solver. -/
theorem MarkowitzSolver.rank_le {solver : MarkowitzSolver α} {a : SparseMatrix α}
    {hints : AnalysisHints} {an : Analysis MarkowitzStructure (SparseLu α)}
    (h : solver.analyze a hints = .ok an) : an.rank ≤ min a.rows a.cols := by
  obtain ⟨-, rowPerm, colPerm, factors, -, -, -, rfl⟩ := analyze_eq_ok_iff.1 h
  exact length_pivots_le solver a hints

instance : BlockSolver (DenseSolver α) where
  rank_le h := DenseSolver.rank_le (Attempt.ofExcept_eq_ok_iff.1 h)
  square_refactor h := by
    obtain ⟨hrows, hcols, lu, -, rfl⟩ :=
      DenseSolver.refactor_eq_ok_iff.1 (Attempt.ofExcept_eq_ok_iff.1 h)
    exact ⟨hrows, hcols⟩

instance : BlockSolver (MarkowitzSolver α) where
  rank_le h := MarkowitzSolver.rank_le h
  square_refactor h := by
    obtain ⟨hrows, hcols, factors, -, rfl⟩ :=
      MarkowitzSolver.refactor_eq_ok_iff.1 (Attempt.ofExcept_eq_ok_iff.1 h)
    exact ⟨hrows, hcols⟩

instance : BlockSolver (ChosenSolver α) where
  rank_le {solver} a hints an h := by
    cases solver with
    | dense s =>
      obtain ⟨inner, hinner, rfl⟩ := map_eq_ok_iff.1 h
      exact DenseSolver.rank_le (Attempt.ofExcept_eq_ok_iff.1 hinner)
    | markowitz s =>
      obtain ⟨inner, hinner, rfl⟩ := map_eq_ok_iff.1 h
      exact MarkowitzSolver.rank_le hinner
  square_refactor {solver} block symbolic b h := by
    have h' := Attempt.ofExcept_eq_ok_iff.1 h
    cases solver with
    | dense s => cases symbolic with
      | dense inner =>
        obtain ⟨ib, hib, rfl⟩ := map_eq_ok_iff.1 h'
        obtain ⟨hrows, hcols, -⟩ := DenseSolver.refactor_eq_ok_iff.1 hib
        exact ⟨rfl, hcols.trans hrows.symm⟩
      | markowitz inner => cases h'
    | markowitz s => cases symbolic with
      | dense inner => cases h'
      | markowitz inner =>
        obtain ⟨ib, hib, rfl⟩ := map_eq_ok_iff.1 h'
        obtain ⟨hrows, hcols, -⟩ := MarkowitzSolver.refactor_eq_ok_iff.1 hib
        exact ⟨rfl, hcols.trans hrows.symm⟩

end ReducedSpace
