import Mathlib
import ReducedSpace.Proofs.Basis.CompletePivoting
import ReducedSpace.Proofs.Basis.Markowitz
import ReducedSpace.Proofs.Exact.Rank

/-!
# The solvers are exact

What the decomposition needs of a solver, in two properties. It *solves exactly*: it keeps its
state, and its factors solve with the blocks that they belong to. It *finds ranks*: an analysis
fails only for lack of rank, and its pivots count the rank. All solvers of the library have the
first property; without tolerances they have the second one as well.
-/

namespace ReducedSpace

open Elimination

variable {K : Type} [ExactScalar K]

section Properties

variable {σ S N : Type} [Factorization S N K] [DirectSolver σ K S N]

/-- A solver whose analyses keep its state and factor the blocks that their orders lead to. -/
structure AnalyzesExactly (solver : σ) : Prop where
  state_analyze : ∀ a hints, (DirectSolver.analyze solver a hints).2 = solver
  inverts_analyze : ∀ {a hints an}, (DirectSolver.analyze solver a hints).1 = .ok an →
    Inverts an.basis.solve an.rank fun i j => a.entry (an.rowPerm.old i) (an.colPerm.old j)

/-- A solver without a changing state whose factors solve with their blocks. -/
structure SolvesExactly (solver : σ) : Prop extends AnalyzesExactly solver where
  state_refactor : ∀ block symbolic, (DirectSolver.refactor solver block symbolic).2 = solver
  inverts_refactor : ∀ {block symbolic b},
    (DirectSolver.refactor solver block symbolic).1 = .ok b → Inverts b.solve b.dim block.entry

omit [Factorization S N K] in
/-- An analysis that succeeds exactly if the rank suffices, and then reports it. -/
structure FindsRank (solver : σ) : Prop where
  exists_analyze : ∀ (a : SparseMatrix K) (hints : AnalysisHints), hints.requiredRank ≤ a.rank →
    ∃ an, (DirectSolver.analyze solver a hints).1 = .ok an ∧ an.rank = a.rank
  analyze_eq_error : ∀ (a : SparseMatrix K) (hints : AnalysisHints), a.rank < hints.requiredRank →
    (DirectSolver.analyze solver a hints).1 =
      Attempt.fail (.singularBasis a.rank hints.requiredRank)

omit [DirectSolver σ K S N] in
/-- The check of the length in front of a solve does not stand in the way. -/
theorem inverts_solve {b : BasisMatrix S N} {r : ℕ} {a : ℕ → ℕ → K} (hdim : b.dim = r)
    (h : Inverts (Factorization.solve b.symbolic b.numeric) r a) : Inverts b.solve r a := by
  intro o y hy
  obtain ⟨x, hx, hsize, hproduct⟩ := h o y hy
  refine ⟨x, ?_, hsize, hproduct⟩
  rw [BasisMatrix.solve]
  rw [hdim, hy, Checked.sameLength_self]
  exact hx

end Properties

namespace DenseSolver

variable {solver : DenseSolver K}

/-- The factors of a refactorization solve with the block. -/
theorem inverts_refactor (h : solver.Admissible) {block : SparseMatrix K}
    {symbolic : DenseStructure} {b : BasisMatrix DenseStructure (DenseLu K)}
    (hb : solver.refactor block symbolic = .ok b) :
    Inverts b.numeric.solveIn b.dim block.entry := by
  obtain ⟨hrows, -, lu, hlu, rfl⟩ := refactor_eq_ok_iff.1 hb
  have hfactors := DenseLu.factorsOf_factor
    (mul_nonneg h.refactorTol_nonneg (maxAbs_nonneg block)) hlu
  have hdim : block.toDense.rows = symbolic.dim := hrows
  rw [hdim] at hfactors
  exact hfactors.inverts.congr fun i j _ _ => block.entry_toDense i j

/-- With a pivot threshold and a rank tolerance in range the analyses of the dense solver are exact.
-/
theorem analyzesExactly (h : PivotTolerances solver.pivotThreshold solver.rankTol) :
    AnalyzesExactly solver where
  state_analyze _ _ := rfl
  inverts_analyze {a hints an} han := by
    have han := Attempt.ofExcept_eq_ok_iff.1 han
    have hdim : an.basis.dim = an.rank := (analyze_fits han).hasDim.dim_eq
    exact inverts_solve hdim (factorsOf_analyze h han).inverts

/-- With a refactorization tolerance in range as well, so are all its factors. -/
theorem solvesExactly (h : solver.Admissible) : SolvesExactly solver where
  toAnalyzesExactly := analyzesExactly h.toPivotTolerances
  state_refactor _ _ := rfl
  inverts_refactor hb := inverts_solve rfl (inverts_refactor h (Attempt.ofExcept_eq_ok_iff.1 hb))

/-- Without a rank tolerance the analysis finds the rank, and it fails only for lack of rank. -/
theorem findsRank (h : solver.Untolerant) : FindsRank solver where
  exists_analyze a hints hle := by
    have hrank : (solver.elimination a hints).1 = a.rank :=
      elimination_rank h.pivotTolerances h.2.2 a hints
    obtain ⟨an, han, hfound⟩ := solver.exists_analyze a hints (hrank.symm ▸ hle)
    exact ⟨an, Attempt.ofExcept_eq_ok_iff.2 han, hfound.trans hrank⟩
  analyze_eq_error a hints hlt := by
    have hrank : (solver.elimination a hints).1 = a.rank :=
      elimination_rank h.pivotTolerances h.2.2 a hints
    show Attempt.ofExcept (solver.analyze a hints) = _
    rw [analyze_eq, hrank, if_pos hlt]
    rfl

end DenseSolver

namespace MarkowitzSolver

variable {solver : MarkowitzSolver K}

/-- So do those of the sparse solver. -/
theorem solvesExactly (h : solver.Admissible) : SolvesExactly solver where
  state_analyze _ _ := rfl
  state_refactor _ _ := rfl
  inverts_analyze han := inverts_solve (analyze_fits han).hasDim.dim_eq (inverts_analyze han)
  inverts_refactor hb := inverts_solve rfl (inverts_refactor h (Attempt.ofExcept_eq_ok_iff.1 hb))

/-- Without tolerances the analysis finds the rank, and it fails only for lack of rank. -/
theorem findsRank (h : solver.Untolerant) : FindsRank solver where
  exists_analyze a hints hle := by
    have hlength : (solver.pivots a hints).length = a.rank :=
      length_pivots_eq_rank h.admissible h.2.2.1 a hints
    obtain ⟨an, han, hrank⟩ := exists_analyze (h.2.2.2.trans h.2.2.1.symm).le
      (hlength.symm ▸ hle)
    exact ⟨an, han, hrank.trans hlength⟩
  analyze_eq_error a hints hlt := by
    have hlength : (solver.pivots a hints).length = a.rank :=
      length_pivots_eq_rank h.admissible h.2.2.1 a hints
    have herror := analyze_eq_error (hlength.symm ▸ hlt)
    rw [hlength] at herror
    exact herror

end MarkowitzSolver

namespace ChosenSolver

/-- The solver at hand has tolerances in their documented ranges. -/
def Admissible : ChosenSolver K → Prop
  | dense s => s.Admissible
  | markowitz s => s.Admissible

/-- The solver at hand has no tolerance that can hide a pivot of an analysis. -/
def Untolerant : ChosenSolver K → Prop
  | dense s => s.Untolerant
  | markowitz s => s.Untolerant

variable {solver : ChosenSolver K}

section Tags

variable {dense : DenseSolver K} {markowitz : MarkowitzSolver K}

/-- The chosen solver takes over what holds of the dense one. -/
theorem analyzesExactly_dense (h : AnalyzesExactly dense) :
    AnalyzesExactly (ChosenSolver.dense dense) where
  state_analyze _ _ := rfl
  inverts_analyze han := by
    obtain ⟨inner, hinner, rfl⟩ := map_eq_ok_iff.1 han
    exact h.inverts_analyze hinner

/-- And of the sparse one. -/
theorem analyzesExactly_markowitz (h : AnalyzesExactly markowitz) :
    AnalyzesExactly (ChosenSolver.markowitz markowitz) where
  state_analyze _ _ := rfl
  inverts_analyze han := by
    obtain ⟨inner, hinner, rfl⟩ := map_eq_ok_iff.1 han
    exact h.inverts_analyze hinner

/-- It finds the rank if the dense solver does. -/
theorem findsRank_dense (h : FindsRank dense) : FindsRank (ChosenSolver.dense dense) where
  exists_analyze a hints hle := by
    obtain ⟨an, han, hrank⟩ := h.exists_analyze a hints hle
    exact ⟨an.map .dense .dense, map_eq_ok_iff.2 ⟨an, han, rfl⟩, hrank⟩
  analyze_eq_error a hints hlt := congrArg (Except.map _) (h.analyze_eq_error a hints hlt)

/-- Or if the sparse one does. -/
theorem findsRank_markowitz (h : FindsRank markowitz) :
    FindsRank (ChosenSolver.markowitz markowitz) where
  exists_analyze a hints hle := by
    obtain ⟨an, han, hrank⟩ := h.exists_analyze a hints hle
    exact ⟨an.map .markowitz .markowitz, map_eq_ok_iff.2 ⟨an, han, rfl⟩, hrank⟩
  analyze_eq_error a hints hlt := congrArg (Except.map _) (h.analyze_eq_error a hints hlt)

end Tags

/-- Its factors solve exactly in either case. -/
theorem solvesExactly (h : solver.Admissible) : SolvesExactly solver where
  toAnalyzesExactly := by
    cases solver with
    | dense s => exact analyzesExactly_dense (DenseSolver.solvesExactly h).toAnalyzesExactly
    | markowitz s =>
      exact analyzesExactly_markowitz (MarkowitzSolver.solvesExactly h).toAnalyzesExactly
  state_refactor _ _ := rfl
  inverts_refactor {block symbolic b} hb := by
    have hb' := Attempt.ofExcept_eq_ok_iff.1 hb
    cases solver with
    | dense s => cases symbolic with
      | dense inner =>
        obtain ⟨ib, hib, rfl⟩ := map_eq_ok_iff.1 hb'
        have hinverts := DenseSolver.inverts_refactor h hib
        obtain ⟨hrows, -, lu, -, rfl⟩ := DenseSolver.refactor_eq_ok_iff.1 hib
        have hinverts : Inverts lu.solveIn block.rows block.entry := by
          rw [hrows]
          exact hinverts
        exact inverts_solve rfl hinverts
      | markowitz inner => cases hb'
    | markowitz s => cases symbolic with
      | dense inner => cases hb'
      | markowitz inner =>
        obtain ⟨ib, hib, rfl⟩ := map_eq_ok_iff.1 hb'
        have hinverts := MarkowitzSolver.inverts_refactor h hib
        obtain ⟨hrows, -, factors, -, rfl⟩ := MarkowitzSolver.refactor_eq_ok_iff.1 hib
        have hinverts : Inverts factors.solveIn block.rows block.entry := by
          rw [hrows]
          exact hinverts
        exact inverts_solve rfl hinverts

/-- Without tolerances the solver of the settings is exact and finds ranks, too. -/
theorem exact_of_untolerant (h : solver.Untolerant) :
    AnalyzesExactly solver ∧ FindsRank solver := by
  cases solver with
  | dense s => exact ⟨analyzesExactly_dense (DenseSolver.analyzesExactly h.pivotTolerances),
      findsRank_dense (DenseSolver.findsRank h)⟩
  | markowitz s => exact ⟨analyzesExactly_markowitz
      (MarkowitzSolver.solvesExactly h.admissible).toAnalyzesExactly,
      findsRank_markowitz (MarkowitzSolver.findsRank h)⟩

end ChosenSolver

section Settings

variable {s : Settings K}

/-- Settings are valid if they pass every check. -/
theorem Settings.validate_eq_ok_iff : s.validate = .ok () ↔ ∀ check ∈ s.checks, check.1 = true := by
  rw [validate]
  constructor
  · intro h check hmem
    split at h
    · cases h
    · rename_i hnone
      simpa using List.find?_eq_none.1 hnone check hmem
  · intro h
    have hnone : s.checks.find? (!·.1) = none := List.find?_eq_none.2 fun check hmem => by
      simpa using h check hmem
    rw [hnone]

/-- Valid settings have tolerances in their documented ranges. -/
theorem Settings.tolerances_of_validate (h : s.validate = .ok ()) :
    Tolerances s.pivotThreshold s.rankTol s.refactorTol := by
  have hall := validate_eq_ok_iff.1 h
  rw [checks] at hall
  simp only [List.forall_mem_cons, Bool.and_eq_true, Scalar.lt_iff, Scalar.le_iff] at hall
  obtain ⟨⟨hpos, hle⟩, ⟨hrank, hrefactor⟩, -⟩ := hall
  exact ⟨⟨hpos, hle, hrank⟩, hrefactor⟩

/-- Valid settings ask for an analysis, and their self-test tolerates something. -/
theorem Settings.attempts_of_validate (h : s.validate = .ok ()) :
    s.maxSelectAttempts ≠ 0 ∧ 0 < s.testTol := by
  have hall := validate_eq_ok_iff.1 h
  rw [checks] at hall
  simp only [List.forall_mem_cons, decide_eq_true_eq, Scalar.lt_iff] at hall
  obtain ⟨-, -, -, hattempts, -, -, htest, -⟩ := hall
  exact ⟨hattempts, htest⟩

/-- Valid settings give a dense solver with tolerances in range. -/
theorem DenseSolver.admissible_ofSettings (h : s.validate = .ok ()) :
    (DenseSolver.ofSettings s).Admissible := s.tolerances_of_validate h

/-- And a sparse one. -/
theorem MarkowitzSolver.admissible_ofSettings (h : s.validate = .ok ()) :
    (MarkowitzSolver.ofSettings s).Admissible := s.tolerances_of_validate h

/-- Whichever they name. -/
theorem ChosenSolver.admissible_ofSettings (h : s.validate = .ok ()) :
    (ChosenSolver.ofSettings s).Admissible := by
  rw [ofSettings]
  cases s.solver with
  | dense => exact DenseSolver.admissible_ofSettings h
  | markowitz => exact MarkowitzSolver.admissible_ofSettings h

end Settings

end ReducedSpace
