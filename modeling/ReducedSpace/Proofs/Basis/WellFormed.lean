import Mathlib
import ReducedSpace.Proofs.Basis.NaturalOrder
import ReducedSpace.Proofs.Basis.SearchSteps
import ReducedSpace.Proofs.Decomposer.Invariant
import ReducedSpace.Proofs.Guarded.Solver
import ReducedSpace.Proofs.Permutation.Tables

/-!
# Well-formed answers

An analysis reads its orders off what it did: the dense solver off the exchanges of its steps, the
sparse solver off the list of its pivots, completed by the rows and columns that are left. Neither
table is checked where it is made a permutation. That both are bijections, and that the rank counts
what the factors store, holds for all matrices, tolerances and hints and in every arithmetic.
-/

namespace ReducedSpace

namespace Permutation

/-- Two tables over the indices below `n` that are bijections and inverse to each other. -/
structure Orders (p : Permutation) (n : Nat) : Prop where
  size_olds : p.olds.size = n
  size_news : p.news.size = n
  bijective : Set.BijOn p.old (Set.Iio n) (Set.Iio n)
  new_of_old : ∀ i, i < n → ∃ j, j < n ∧ p.olds[i]? = some j ∧ p.news[j]? = some i
  old_of_new : ∀ j, j < n → ∃ i, i < n ∧ p.news[j]? = some i ∧ p.olds[i]? = some j

/-- Every permutation orders the positions of its length. -/
theorem orders {p : Permutation} {n : Nat} (h : p.size = n) : p.Orders n := by
  subst h
  have htables := p.inverseTables
  exact ⟨rfl, htables.size_eq, p.bijOn_old, htables.new_of_old, htables.old_of_new⟩

/-- An exchange of positions exchanges the entries of the table. -/
theorem olds_swap (p : Permutation) {i j : Nat} (hi : i < p.size) (hj : j < p.size) :
    (p.swap i j).olds = p.olds.swapIfInBounds i j := by
  have hi' : i < p.olds.size := hi
  have hj' : j < p.olds.size := hj
  refine Array.ext_getElem? fun k => ?_
  rw [getElem?_olds, size_swap, p.old_swap hi hj, Array.swapIfInBounds_def, dif_pos hi',
    dif_pos hj', Array.getElem?_swap, exchange, ← Array.getElem?_eq_getElem hi',
    ← Array.getElem?_eq_getElem hj', getElem?_olds, getElem?_olds, getElem?_olds]
  grind

end Permutation

/-- An answer that orders all rows and all columns and whose factors have the rank that it found. -/
structure Analysis.WellFormed {α S N : Type} [Dimensioned S N] (an : Analysis S N)
    (a : SparseMatrix α) (hints : AnalysisHints) : Prop where
  rowPerm_orders : an.rowPerm.Orders a.rows
  colPerm_orders : an.colPerm.Orders a.cols
  requiredRank_le : hints.requiredRank ≤ an.rank
  rank_le : an.rank ≤ min a.rows a.cols
  hasDim : an.basis.HasDim an.rank

/-- What a solver may answer to an analysis: no fault, a well-formed success, and a lack of rank
only with a smaller rank than the required one. -/
structure AnswersWellFormed {σ α S N : Type} [Dimensioned S N] [DirectSolver σ α S N]
    (solver : σ) : Prop where
  noFault : ∀ a hints, NoFault (DirectSolver.analyze solver a hints).1
  wellFormed : ∀ a hints an, (DirectSolver.analyze solver a hints).1 = .ok an →
    an.WellFormed a hints
  singular : ∀ a hints rank required,
    (DirectSolver.analyze solver a hints).1 = Attempt.fail (.singularBasis rank required) →
      rank < required ∧ required = hints.requiredRank

section Generic

variable {σ α S N : Type} [Dimensioned S N] [Factorization S N α] [GuardedFactorization S N α]
  [DirectSolver σ α S N] [GuardedSolver σ α S N] [LawfulGuards σ]

/-- Only the reports of a lack of rank depend on the solver. -/
theorem answersWellFormed {solver : σ}
    (hsingular : ∀ a hints rank required,
      (DirectSolver.analyze solver a hints).1 = Attempt.fail (.singularBasis rank required) →
        rank < required ∧ required = hints.requiredRank) :
    AnswersWellFormed solver where
  noFault := LawfulGuards.noFault_analyze solver
  wellFormed _ _ _ h := by
    have hfits := SizedSolver.analyze_fits h
    exact ⟨Permutation.orders hfits.size_rowPerm, Permutation.orders hfits.size_colPerm,
      hfits.requiredRank_le, BlockSolver.rank_le h, hfits.hasDim⟩
  singular := hsingular

end Generic

variable {α : Type} [Scalar α]

section Exchanges

/-- The second table is the first one after exchanges, one for each step from `k` up to `r`, of the
position of the step with one that is not in front of it. -/
def ExchangedFrom (n k r : Nat) (before after : Array Nat) : Prop :=
  ∃ es : List (Nat × Nat), r = k + es.length ∧ es.map (·.1) = List.range' k es.length ∧
    (∀ e ∈ es, e.1 ≤ e.2 ∧ e.2 < n) ∧ after = DenseLu.exchangeAll es before

theorem ExchangedFrom.refl (n k : Nat) (table : Array Nat) : ExchangedFrom n k k table table :=
  ⟨[], rfl, rfl, by simp, rfl⟩

/-- One more exchange in front of the others. -/
theorem ExchangedFrom.cons {n k r p : Nat} {q : Permutation} {after : Array Nat}
    (h : ExchangedFrom n (k + 1) r (q.swap k p).olds after) (hsize : q.size = n) (hkp : k ≤ p)
    (hp : p < n) : ExchangedFrom n k r q.olds after := by
  obtain ⟨es, hr, hsteps, hes, rfl⟩ := h
  refine ⟨(k, p) :: es, ?_, ?_, List.forall_mem_cons.2 ⟨⟨hkp, hp⟩, hes⟩, ?_⟩
  · rw [List.length_cons]
    omega
  · rw [List.map_cons, hsteps, List.length_cons, List.range'_succ]
  · rw [q.olds_swap (by omega) (by omega)]
    rfl

/-- The orders of a dense elimination are what its exchanges make of the first orders. -/
theorem PivotedMatrix.exchangedFrom_run {hints : AnalysisHints} {u absTol : α} {steps k : Nat}
    {s : PivotedMatrix α} (hrow : s.rowPerm.size = s.matrix.rows)
    (hcol : s.colPerm.size = s.matrix.cols) :
    ExchangedFrom s.matrix.rows k (run hints u absTol steps k s).1 s.rowPerm.olds
        (run hints u absTol steps k s).2.rowPerm.olds ∧
      ExchangedFrom s.matrix.cols k (run hints u absTol steps k s).1 s.colPerm.olds
        (run hints u absTol steps k s).2.colPerm.olds := by
  induction steps generalizing k s with
  | zero => exact ⟨.refl _ _ _, .refl _ _ _⟩
  | succ steps ih =>
    rw [run]
    cases hstep : s.step hints u absTol k with
    | none => exact ⟨.refl _ _ _, .refl _ _ _⟩
    | some t =>
      obtain ⟨p, q, hkp, hp, hkq, hq, rfl⟩ := exists_pivot_of_step hstep
      obtain ⟨hrows, hcols⟩ := ih (k := k + 1) (s := s.pivot k p q)
        ((Permutation.size_swap _ _ _).trans hrow) ((Permutation.size_swap _ _ _).trans hcol)
      exact ⟨hrows.cons hrow hkp hp, hcols.cons hcol hkq hq⟩

end Exchanges

namespace DenseSolver

/-- What the dense solver answers besides: the packed factors and the exchanges behind its
orders. -/
structure ReadsExchanges (an : Analysis DenseStructure (DenseLu α)) (rows cols : Nat) : Prop where
  rows_packed : an.basis.numeric.packed.rows = an.rank
  cols_packed : an.basis.numeric.packed.cols = an.rank
  size_swaps : an.basis.numeric.swaps.size = an.rank
  rowPerm_exchanged : ExchangedFrom rows 0 an.rank (Array.range rows) an.rowPerm.olds
  colPerm_exchanged : ExchangedFrom cols 0 an.rank (Array.range cols) an.colPerm.olds

/-- The orders of a dense analysis are read off its exchanges. -/
theorem readsExchanges {solver : DenseSolver α} {a : SparseMatrix α} {hints : AnalysisHints}
    {an : Analysis DenseStructure (DenseLu α)} (h : solver.analyze a hints = .ok an) :
    ReadsExchanges an a.rows a.cols := by
  obtain ⟨hrows, hcols⟩ : ExchangedFrom a.rows 0 (solver.elimination a hints).1
        (Permutation.identity a.rows).olds (solver.elimination a hints).2.rowPerm.olds ∧
      ExchangedFrom a.cols 0 (solver.elimination a hints).1
        (Permutation.identity a.cols).olds (solver.elimination a hints).2.colPerm.olds :=
    PivotedMatrix.exchangedFrom_run (Permutation.size_identity _) (Permutation.size_identity _)
  rw [Permutation.olds_identity] at hrows hcols
  rw [analyze_eq] at h
  split at h
  · cases h
  · cases h
    exact ⟨rfl, rfl, Array.size_range, hrows, hcols⟩

/-- A lack of rank is reported with the rank that the elimination found. -/
theorem singular_analyze {solver : DenseSolver α} {a : SparseMatrix α} {hints : AnalysisHints}
    {rank required : Nat} (h : Attempt.ofExcept (solver.analyze a hints) =
      Attempt.fail (.singularBasis rank required)) :
    rank = (solver.elimination a hints).1 ∧ rank < required ∧ required = hints.requiredRank := by
  rw [analyze_eq] at h
  split at h
  · rename_i hlt
    cases h
    exact ⟨rfl, hlt, rfl⟩
  · cases h

end DenseSolver

/-- A factorization in natural order fails for a pivot, and never for a lack of rank. -/
theorem SparseLu.raises_factor (refactorTol : α) (block : SparseMatrix α) :
    RaisesOnly (fun e => ∃ k v, e = .numericallySingular k v) (factor refactorTol block) := by
  have hfrom (absTol : α) (steps : Nat) : ∀ (k : Nat) (a : ActiveMatrix α) (f : SparseLu α),
      RaisesOnly (fun e => ∃ k v, e = .numericallySingular k v)
        (factorFrom absTol steps k a f) := by
    induction steps with
    | zero => exact fun k a f => raisesOnly_ok f
    | succ steps ih =>
      intro k a f
      rw [factorFrom]
      dsimp only
      split
      · exact ih _ _ _
      · exact raisesOnly_error ⟨_, _, rfl⟩
  exact hfrom _ _ _ _ _

namespace MarkowitzSolver

/-- Behind the indices that it starts with, a completed order is ascending. -/
theorem old_lt_old_of_orderPermutation {order : List Nat} {n : Nat} {p : Permutation}
    (h : orderPermutation order n = .ok p) {i j : Nat} (hi : order.length ≤ i) (hij : i < j)
    (hj : j < p.size) : p.old i < p.old j := by
  let rest := (List.range n).filter fun i => !order.contains i
  have hget (k : Nat) (hk : order.length ≤ k) (hlt : k < p.size) :
      rest[k - order.length]? = some (p.old k) := by
    have holds : p.olds[k]? = some (p.old k) := by
      rw [p.getElem?_olds, if_pos hlt]
    rw [orderPermutation_eq_ok_iff.1 h, completeOrder, List.getElem?_toArray,
      List.getElem?_append_right hk] at holds
    exact holds
  have hrest : rest.Pairwise (· < ·) := List.pairwise_lt_range.filter _
  obtain ⟨hi', hold⟩ := List.getElem?_eq_some_iff.1 (hget i hi (by omega))
  obtain ⟨hj', hold'⟩ := List.getElem?_eq_some_iff.1 (hget j (by omega) hj)
  have hlt := List.pairwise_iff_getElem.1 hrest _ _ hi' hj' (by omega)
  rwa [hold, hold'] at hlt

/-- What the sparse solver answers besides: the orders start with the pivots of its search, in the
order in which it chose them, and leave the other rows and columns in theirs. -/
structure ReadsPivots (solver : MarkowitzSolver α) (a : SparseMatrix α) (hints : AnalysisHints)
    (an : Analysis MarkowitzStructure (SparseLu α)) : Prop where
  size_diagonal : an.basis.numeric.diagonal.size = an.rank
  pivots_eq : solver.pivots a hints =
    (List.range an.rank).map fun k => (an.rowPerm.old k, an.colPerm.old k)
  chosen : ∀ k, k < an.rank → ∃ c, solver.choose a hints (solver.active a hints k) = some c ∧
    (c.row, c.col) = (an.rowPerm.old k, an.colPerm.old k)
  nodup_rows : ((solver.pivots a hints).map (·.1)).Nodup
  nodup_cols : ((solver.pivots a hints).map (·.2)).Nodup
  rows_ascending : ∀ i j, an.rank ≤ i → i < j → j < a.rows → an.rowPerm.old i < an.rowPerm.old j
  cols_ascending : ∀ i j, an.rank ≤ i → i < j → j < a.cols → an.colPerm.old i < an.colPerm.old j

variable {solver : MarkowitzSolver α} {a : SparseMatrix α} {hints : AnalysisHints}

/-- The orders of a sparse analysis start with its pivots. -/
theorem readsPivots {an : Analysis MarkowitzStructure (SparseLu α)}
    (h : solver.analyze a hints = .ok an) : ReadsPivots solver a hints an := by
  have hfits := analyze_fits h
  obtain ⟨-, hrows, hcols⟩ : _ ∧ ((solver.pivots a hints).map (·.1)).Nodup ∧
      ((solver.pivots a hints).map (·.2)).Nodup :=
    (ActiveMatrix.storedPivots_pivots (ActiveMatrix.ofSparse_aligned a)).distinct
      (ActiveMatrix.ofSparse_aligned a)
  obtain ⟨-, rowPerm, colPerm, factors, hrow, hcol, hfactors, rfl⟩ := analyze_eq_ok_iff.1 h
  have hpivot (k : Nat) (hk : k < (solver.pivots a hints).length) :
      (solver.pivots a hints)[k]? = some (rowPerm.old k, colPerm.old k) := by
    have hget := List.getElem?_eq_getElem hk
    have hp : ((solver.pivots a hints).map (·.1))[k]? = some (solver.pivots a hints)[k].1 := by
      rw [List.getElem?_map, hget, Option.map_some]
    have hq : ((solver.pivots a hints).map (·.2))[k]? = some (solver.pivots a hints)[k].2 := by
      rw [List.getElem?_map, hget, Option.map_some]
    rw [hget, old_of_orderPermutation hrow hp, old_of_orderPermutation hcol hq]
  refine ⟨hfits.hasDim.factorsDim_eq, List.ext_getElem? fun k => ?_, fun k hk => ?_, hrows, hcols,
    fun i j hi hij hj => ?_, fun i j hi hij hj => ?_⟩
  · dsimp only
    rw [List.getElem?_map]
    by_cases hk : k < (solver.pivots a hints).length
    · rw [hpivot k hk, List.getElem?_range hk, Option.map_some]
    · rw [List.getElem?_eq_none (Nat.not_lt.1 hk), List.getElem?_eq_none, Option.map_none]
      rw [List.length_range]
      exact Nat.not_lt.1 hk
  · exact choose_active (hpivot k hk)
  · refine old_lt_old_of_orderPermutation hrow ?_ hij (hfits.size_rowPerm.symm ▸ hj)
    rw [List.length_map]
    exact hi
  · refine old_lt_old_of_orderPermutation hcol ?_ hij (hfits.size_colPerm.symm ▸ hj)
    rw [List.length_map]
    exact hi

/-- An analysis complains of too few pivots, or of a pivot of the leading block. -/
theorem raises_analyze : RaisesOnly (fun f => ∀ e, f = .error e →
    (e = .singularBasis (solver.pivots a hints).length hints.requiredRank ∧
      (solver.pivots a hints).length < hints.requiredRank) ∨ ∃ k v, e = .numericallySingular k v)
    (solver.analyze a hints) := by
  rw [analyze]
  change RaisesOnly _ (if (solver.pivots a hints).length < hints.requiredRank then _ else _)
  split
  · rename_i hlt
    refine raisesOnly_error ?_
    rintro e ⟨⟩
    exact .inl ⟨rfl, hlt⟩
  · refine (raisesOnly_ofChecked (by rintro f e ⟨⟩) _).bind fun rowPerm => ?_
    refine (raisesOnly_ofChecked (by rintro f e ⟨⟩) _).bind fun colPerm => ?_
    refine (raisesOnly_ofExcept ?_).bind fun _ => raisesOnly_ok _
    rintro e he _ ⟨⟩
    exact .inr (SparseLu.raises_factor _ _ e he)

/-- A lack of rank is reported with the number of pivots that the search found. -/
theorem singular_analyze {rank required : Nat}
    (h : solver.analyze a hints = Attempt.fail (.singularBasis rank required)) :
    rank = (solver.pivots a hints).length ∧ rank < required ∧ required = hints.requiredRank := by
  obtain ⟨heq, hlt⟩ | ⟨k, v, heq⟩ := raises_analyze _ h _ rfl
  · cases heq
    exact ⟨rfl, hlt, rfl⟩
  · cases heq

end MarkowitzSolver

/-- A rank that does not suffice is reported with the required one. -/
theorem ChosenSolver.singular_analyze {solver : ChosenSolver α} {a : SparseMatrix α}
    {hints : AnalysisHints} {rank required : Nat}
    (h : solver.analyze a hints = Attempt.fail (.singularBasis rank required)) :
    rank < required ∧ required = hints.requiredRank := by
  cases solver with
  | dense s => exact (DenseSolver.singular_analyze (map_eq_error_iff.1 h)).2
  | markowitz s => exact (MarkowitzSolver.singular_analyze (map_eq_error_iff.1 h)).2

/-- In every arithmetic and for all matrices, tolerances and hints the solvers of the library answer
an analysis by a well-formed result, by a rank below the required one or by another error. The
orders of the dense solver come from the exchanges of its steps, those of the sparse solver from its
pivots. -/
theorem analyses_well_formed {α : Type} [Scalar α] :
    (∀ solver : DenseSolver α, AnswersWellFormed solver ∧
      ∀ a hints an, solver.analyze a hints = .ok an →
        DenseSolver.ReadsExchanges an a.rows a.cols) ∧
    (∀ solver : MarkowitzSolver α, AnswersWellFormed solver ∧
      ∀ a hints an, solver.analyze a hints = .ok an → solver.ReadsPivots a hints an) ∧
    ∀ solver : ChosenSolver α, AnswersWellFormed solver := by
  refine ⟨fun solver => ⟨?_, fun a hints an => DenseSolver.readsExchanges⟩,
    fun solver => ⟨?_, fun a hints an => MarkowitzSolver.readsPivots⟩, fun solver => ?_⟩
  · exact answersWellFormed fun _ _ _ _ h => (DenseSolver.singular_analyze h).2
  · exact answersWellFormed fun _ _ _ _ h => (MarkowitzSolver.singular_analyze h).2
  · exact answersWellFormed fun _ _ _ _ h => ChosenSolver.singular_analyze h

/-- With the last row preferred the sample gradients have their rows reversed, and their rank of two
is too low if three is required. -/
theorem analyses_well_formed_sample :
    let solver := MarkowitzSolver.ofSettings (sampleSettings .markowitz)
    let hints : AnalysisHints := ⟨2, some #[false, false, true], 0⟩
    (∃ an, solver.analyze sampleGradients hints = .ok an ∧ an.rowPerm.olds = #[2, 1, 0] ∧
      an.rank = 2 ∧ an.WellFormed sampleGradients hints ∧
      solver.ReadsPivots sampleGradients hints an) ∧
    solver.analyze sampleGradients (.ofRank 3) = Attempt.fail (.singularBasis 2 3) ∧
    2 < 3 ∧ 3 = (AnalysisHints.ofRank 3).requiredRank := by
  intro solver hints
  obtain ⟨hanswers, hreads⟩ := (@analyses_well_formed Rat _).2.1 solver
  have hfound : (solver.analyze sampleGradients hints).map (fun an => (an.rowPerm.olds, an.rank)) =
      .ok (#[2, 1, 0], 2) := by decide +kernel
  have hlacks : (solver.analyze sampleGradients (.ofRank 3)).map (fun an => an.rank) =
      Attempt.fail (.singularBasis 2 3) := by decide +kernel
  obtain ⟨an, han, hparts⟩ := map_eq_ok_iff.1 hfound
  obtain ⟨hrows, hrank⟩ := Prod.mk.inj hparts
  have hfails := map_eq_error_iff.1 hlacks
  exact ⟨⟨an, han, hrows, hrank, hanswers.wellFormed _ _ an han, hreads _ _ an han⟩, hfails,
    hanswers.singular _ _ 2 3 hfails⟩

end ReducedSpace
