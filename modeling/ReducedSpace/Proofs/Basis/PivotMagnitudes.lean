import Mathlib
import ReducedSpace.Proofs.Basis.CompletePivoting
import ReducedSpace.Proofs.Basis.SearchFactors

/-!
# How small a pivot can be

The sparse search compares every candidate with the rank tolerance, so each diagonal entry of `U` is
above it. Complete pivoting compares only the largest remaining entry with the tolerance and then
accepts every entry within the threshold of it. Its pivots are above the tolerance unless a preferred
row was given precedence to a larger entry; with one they may be smaller by the threshold.
-/

namespace ReducedSpace

variable {K : Type} [ExactScalar K]

namespace PivotedMatrix

/-- An entry of the diagonal with the row that it came from. -/
def diagonalPivot (s : PivotedMatrix K) (t : ℕ) : K × ℕ := (s.matrix.entry t t, s.rowPerm.old t)

section Pivot

variable {s : PivotedMatrix K} {k p q : ℕ}

/-- The row of the pivot and the rows above it are exchanged, but not changed otherwise. -/
theorem entry_pivot (h : (p, q) ∈ remaining s.matrix k) {i j : ℕ} (hi : i ≤ k)
    (hj : j < s.matrix.cols) :
    (s.pivot k p q).matrix.entry i j =
      s.matrix.entry (Permutation.exchange k p i) (Permutation.exchange k q j) := by
  obtain ⟨⟨hkp, hp⟩, hkq, hq⟩ := mem_remaining_iff.1 h
  have hkr : k < s.matrix.rows := Nat.lt_of_le_of_lt hkp hp
  have hkc : k < s.matrix.cols := Nat.lt_of_le_of_lt hkq hq
  have heliminate := DenseMatrix.entry_eliminate ((s.matrix.swapRows k p).swapCols k q) k
    (Nat.lt_of_le_of_lt hi hkr) hj
  rw [if_pos (.inl hi), DenseMatrix.entry_swapCols (s.matrix.swapRows k p) hkc hq,
    DenseMatrix.entry_swapRows s.matrix hkr hp] at heliminate
  exact heliminate

/-- The pivot of a step is the chosen entry. -/
theorem entry_pivot_self (h : (p, q) ∈ remaining s.matrix k) :
    (s.pivot k p q).matrix.entry k k = s.matrix.entry p q := by
  obtain ⟨-, hkq, hq⟩ := mem_remaining_iff.1 h
  rw [entry_pivot h (Nat.le_refl k) (Nat.lt_of_le_of_lt hkq hq)]
  unfold Permutation.exchange
  rw [if_pos rfl, if_pos rfl]

/-- A step keeps the diagonal above it and puts its pivot on the diagonal. -/
theorem diagonalPivot_pivot (h : (p, q) ∈ remaining s.matrix k)
    (hsize : s.rowPerm.size = s.matrix.rows) {t : ℕ} (ht : t ≤ k) :
    (s.pivot k p q).diagonalPivot t =
      if t = k then (s.matrix.entry p q, s.rowPerm.old p) else s.diagonalPivot t := by
  obtain ⟨⟨hkp, hp⟩, hkq, hq⟩ := mem_remaining_iff.1 h
  dsimp only at hkp hp hkq hq
  have hold : (s.pivot k p q).rowPerm.old t = s.rowPerm.old (Permutation.exchange k p t) :=
    s.rowPerm.old_swap (by omega) (by omega) t
  rw [diagonalPivot]
  rw [diagonalPivot, hold]
  split
  · rename_i htk
    subst htk
    rw [entry_pivot_self h]
    unfold Permutation.exchange
    rw [if_pos rfl]
  · have hlt : t < k := by omega
    rw [entry_pivot h ht (by omega), Permutation.exchange_of_lt hkp hlt,
      Permutation.exchange_of_lt hkq hlt]

end Pivot

/-- A pivot is above `low`, and above the tolerance unless its row is preferred to others. -/
structure LargeEnough (hints : AnalysisHints) (n : ℕ) (low absTol : K) (pivot : K × ℕ) :
    Prop where
  low_lt : low < |pivot.1|
  tol_lt : hints.isPreferred pivot.2 = false ∨ hints.Indifferent n → absTol < |pivot.1|

variable {s t : PivotedMatrix K} {a : SparseMatrix K} {hints : AnalysisHints} {u absTol : K} {k : ℕ}

/-- A chosen entry is large enough for a pivot. -/
theorem Chooses.largeEnough {p q : ℕ} (h : s.Chooses hints u absTol k p q) (hs : s.Tracks a k)
    (hu : 0 < u) (hu' : u ≤ 1) :
    LargeEnough hints a.rows (u * absTol) absTol (s.matrix.entry p q, s.rowPerm.old p) where
  low_lt := lt_of_lt_of_le (mul_lt_mul_of_pos_left h.above hu) h.bound_le
  tol_lt hpreferred := by
    refine lt_of_lt_of_le h.above (h.largest_le hu' ?_)
    rw [hs.rows_eq]
    exact hpreferred.imp_right fun hindifferent => ⟨hs.size_rowPerm, hindifferent⟩

/-- One more step adds one more pivot that is large enough. -/
theorem Tracks.step_largeEnough (hs : s.Tracks a k) (hu : 0 < u) (hu' : u ≤ 1) (htol : 0 ≤ absTol)
    (h : ∀ i, i < k → LargeEnough hints a.rows (u * absTol) absTol (s.diagonalPivot i))
    (hstep : s.step hints u absTol k = some t) :
    ∀ i, i < k + 1 → LargeEnough hints a.rows (u * absTol) absTol (t.diagonalPivot i) := by
  obtain ⟨p, q, hchoice, rfl⟩ := exists_chooses htol hstep
  intro i hi
  rw [diagonalPivot_pivot hchoice.mem (hs.size_rowPerm.trans hs.rows_eq.symm)
    (Nat.le_of_lt_succ hi)]
  split
  · exact hchoice.largeEnough hs hu hu'
  · exact h i (by omega)

/-- All pivots of an elimination are large enough. -/
theorem Tracks.run_largeEnough {steps : ℕ} (hs : s.Tracks a k) (hu : 0 < u) (hu' : u ≤ 1)
    (htol : 0 ≤ absTol)
    (h : ∀ i, i < k → LargeEnough hints a.rows (u * absTol) absTol (s.diagonalPivot i)) :
    ∀ i, i < (PivotedMatrix.run hints u absTol steps k s).1 →
      LargeEnough hints a.rows (u * absTol) absTol
        ((PivotedMatrix.run hints u absTol steps k s).2.diagonalPivot i) := by
  induction steps generalizing k s with
  | zero => exact h
  | succ steps ih =>
    rw [PivotedMatrix.run]
    split
    · exact h
    · rename_i t hstep
      exact ih (hs.step hu htol hstep).2.2 (hs.step_largeEnough hu hu' htol h hstep)

end PivotedMatrix

/-- The diagonal of `U` in the factors of an analysis with complete pivoting. -/
theorem DenseSolver.diagonal_analyze {solver : DenseSolver K} {a : SparseMatrix K}
    {hints : AnalysisHints} {an : Analysis DenseStructure (DenseLu K)}
    (han : solver.analyze a hints = .ok an) :
    an.rank = (solver.elimination a hints).1 ∧ ∀ t, t < an.rank →
      (an.basis.numeric.packed.entry t t, an.rowPerm.old t) =
        (solver.elimination a hints).2.diagonalPivot t := by
  rw [analyze_eq] at han
  split at han
  · cases han
  · cases han
    refine ⟨rfl, fun t ht => ?_⟩
    have hentry : ((solver.elimination a hints).2.matrix.leading (solver.elimination a hints).1
        (solver.elimination a hints).1).entry t t =
          (solver.elimination a hints).2.matrix.entry t t := by
      rw [DenseMatrix.leading]
      rw [DenseMatrix.entry_ofFn, if_pos ⟨ht, ht⟩]
    rw [PivotedMatrix.diagonalPivot, ← hentry]

/-- Every pivot of a sparse analysis is above the rank tolerance, whatever the threshold, the width
of the search, the hints and the factors. A pivot of complete pivoting is above the tolerance, too,
unless its row is preferred to others; in any case it is above the multiple of the tolerance that
the threshold of the attempt takes. -/
theorem pivots_above_tolerance :
    (∀ (solver : MarkowitzSolver K) (a : SparseMatrix K) (hints : AnalysisHints)
      (an : Analysis MarkowitzStructure (SparseLu K)), solver.analyze a hints = .ok an →
        ∀ t, t < an.rank → solver.rankTol * a.maxAbs < |an.basis.numeric.diagonal.getD t 0|) ∧
    ∀ (solver : DenseSolver K) (a : SparseMatrix K) (hints : AnalysisHints)
      (an : Analysis DenseStructure (DenseLu K)),
      PivotTolerances solver.pivotThreshold solver.rankTol → solver.analyze a hints = .ok an →
        ∀ t, t < an.rank →
          thresholdForAttempt solver.pivotThreshold hints.attempt * (solver.rankTol * a.maxAbs) <
            |an.basis.numeric.packed.entry t t| ∧
          (hints.isPreferred (an.rowPerm.old t) = false ∨ hints.Indifferent a.rows →
            solver.rankTol * a.maxAbs < |an.basis.numeric.packed.entry t t|) := by
  refine ⟨fun solver a hints an han t ht => ?_, fun solver a hints an h han t ht => ?_⟩
  · obtain ⟨-, rowPerm, colPerm, factors, hrow, hcol, hfactors, rfl⟩ :=
      MarkowitzSolver.analyze_eq_ok_iff.1 han
    have hget := List.getElem?_eq_getElem ht
    rw [(MarkowitzSolver.recordsSearch_of_factor hrow hcol hfactors).diagonal_eq hget]
    exact MarkowitzSolver.lt_abs_pivot hget
  · obtain ⟨hrank, hdiagonal⟩ := DenseSolver.diagonal_analyze han
    have hlarge : PivotedMatrix.LargeEnough hints a.rows
        (thresholdForAttempt solver.pivotThreshold hints.attempt * (solver.rankTol * a.maxAbs))
        (solver.rankTol * a.maxAbs) ((solver.elimination a hints).2.diagonalPivot t) :=
      (PivotedMatrix.tracks_start a).run_largeEnough
        (thresholdForAttempt_pos h.threshold_pos hints.attempt)
        (thresholdForAttempt_le_one h.threshold_le_one hints.attempt)
        (mul_nonneg h.rankTol_nonneg (maxAbs_nonneg a))
        (fun i hi => absurd hi (Nat.not_lt_zero i)) t (hrank ▸ ht)
    rw [← hdiagonal t ht] at hlarge
    exact ⟨hlarge.low_lt, hlarge.tol_lt⟩

/-- One column in which the lower entry is exactly the tolerance of `tolerantSolver`. -/
def columnSample : SparseMatrix Rat := .ofEntries 2 1 fun i _ => #[4, 1][i]?

/-- A solver whose rank tolerance is larger than its threshold. -/
def tolerantSolver : DenseSolver Rat := ⟨1 / 8, 1 / 4, 0⟩

theorem tolerantSolver_tolerances :
    PivotTolerances tolerantSolver.pivotThreshold tolerantSolver.rankTol :=
  ⟨by decide +kernel, by decide +kernel, by decide +kernel⟩

/-- The three pivots of a sparse analysis are above the tolerance. So is the pivot of a dense one if
no row is preferred; if the lower row is, its pivot is above an eighth of the tolerance. -/
theorem pivots_above_tolerance_sample :
    (∃ an, MarkowitzSolver.cancellingSolver.analyze MarkowitzSolver.cancellingSample (.ofRank 3) =
        .ok an ∧ an.rank = 3 ∧ ∀ t, t < 3 → 8 / 100 < |an.basis.numeric.diagonal.getD t 0|) ∧
      (∃ an, tolerantSolver.analyze columnSample (.ofRank 1) = .ok an ∧ an.rank = 1 ∧
        1 < |an.basis.numeric.packed.entry 0 0|) ∧
      ∃ an, tolerantSolver.analyze columnSample ⟨1, some #[false, true], 0⟩ = .ok an ∧
        an.rank = 1 ∧ 1 / 8 < |an.basis.numeric.packed.entry 0 0| := by
  refine ⟨?_, ?_, ?_⟩
  · have hanalyze : ∃ an, MarkowitzSolver.cancellingSolver.analyze MarkowitzSolver.cancellingSample
        (.ofRank 3) = .ok an ∧ an.rank = (MarkowitzSolver.cancellingSolver.pivots
          MarkowitzSolver.cancellingSample (.ofRank 3)).length :=
      MarkowitzSolver.exists_analyze (by decide +kernel) (by decide +kernel)
    obtain ⟨an, han, hrank⟩ := hanalyze
    have hrank : an.rank = 3 := hrank.trans (by decide +kernel)
    refine ⟨an, han, hrank, fun t ht => lt_of_eq_of_lt ?_
      (pivots_above_tolerance.1 _ _ _ an han t (hrank.symm ▸ ht))⟩
    decide +kernel
  · obtain ⟨an, han, hrank⟩ := tolerantSolver.exists_analyze columnSample (.ofRank 1)
      (by decide +kernel)
    have hrank : an.rank = 1 := hrank.trans (by decide +kernel)
    have habove := (pivots_above_tolerance.2 _ _ _ an tolerantSolver_tolerances han 0
      (hrank.symm ▸ Nat.one_pos)).2 (.inl rfl)
    exact ⟨an, han, hrank, lt_of_eq_of_lt (by decide +kernel) habove⟩
  · obtain ⟨an, han, hrank⟩ := tolerantSolver.exists_analyze columnSample
      ⟨1, some #[false, true], 0⟩ (by decide +kernel)
    have hrank : an.rank = 1 := hrank.trans (by decide +kernel)
    have habove := (pivots_above_tolerance.2 _ _ _ an tolerantSolver_tolerances han 0
      (hrank.symm ▸ Nat.one_pos)).1
    exact ⟨an, han, hrank, lt_of_eq_of_lt (by decide +kernel) habove⟩

/-- The preferred row puts an entry on the diagonal that is not above the tolerance, although a
larger one is left. -/
theorem preferred_pivot_within_tolerance :
    PivotTolerances tolerantSolver.pivotThreshold tolerantSolver.rankTol ∧
      ∃ an, tolerantSolver.analyze columnSample ⟨1, some #[false, true], 0⟩ = .ok an ∧
        0 < an.rank ∧ ¬tolerantSolver.rankTol * columnSample.maxAbs <
          |an.basis.numeric.packed.entry 0 0| := by
  refine ⟨tolerantSolver_tolerances, ?_⟩
  rw [DenseSolver.analyze_eq, if_neg (by decide +kernel)]
  refine ⟨_, rfl, ?_, ?_⟩
  · decide +kernel
  · decide +kernel

end ReducedSpace
