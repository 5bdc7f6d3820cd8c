import Mathlib
import ReducedSpace.Proofs.Basis.Answers
import ReducedSpace.Proofs.Basis.PivotChoice
import ReducedSpace.Proofs.Dense.Lu

/-!
# Complete pivoting in exact arithmetic

The dense analysis eliminates along the diagonal of the matrix that its orders reorder. Each pivot
is nonzero because it is not below a positive multiple of a positive largest magnitude, and with a
threshold of at most one the search finds a pivot as long as an entry above the tolerance is left.
-/

namespace ReducedSpace

open Elimination

variable {K : Type} [ExactScalar K]

namespace PivotedMatrix

/-- The state packs `k` steps of the elimination of a matrix, reordered by its permutations. -/
structure Tracks (s : PivotedMatrix K) (a : SparseMatrix K) (k : ℕ) : Prop where
  rows_eq : s.matrix.rows = a.rows
  cols_eq : s.matrix.cols = a.cols
  size_rowPerm : s.rowPerm.size = a.rows
  size_colPerm : s.colPerm.size = a.cols
  eliminated : s.matrix.Eliminated
    (fun i j => a.entry (s.rowPerm.old i) (s.colPerm.old j)) k

/-- Before the first step the working copy is the matrix. -/
theorem tracks_start (a : SparseMatrix K) : (start a.toDense).Tracks a 0 where
  rows_eq := rfl
  cols_eq := rfl
  size_rowPerm := Permutation.size_identity _
  size_colPerm := Permutation.size_identity _
  eliminated := by
    have h := a.toDense.eliminated_zero
    have hentry : a.toDense.entry = fun i j => a.entry ((start a.toDense).rowPerm.old i)
        ((start a.toDense).colPerm.old j) := by
      funext i j
      rw [a.entry_toDense]
      simp [start]
    rw [← hentry]
    exact h

section Step

variable {s t : PivotedMatrix K} {a : SparseMatrix K} {hints : AnalysisHints} {u absTol : K}
  {k : ℕ}

/-- A step that finds a pivot eliminates with it. -/
theorem Tracks.step (h : s.Tracks a k) (hu : 0 < u) (htol : 0 ≤ absTol)
    (hstep : s.step hints u absTol k = some t) :
    k < a.rows ∧ k < a.cols ∧ t.Tracks a (k + 1) := by
  obtain ⟨p, q, hchoice, rfl⟩ := exists_chooses htol hstep
  obtain ⟨⟨hkp, hp⟩, hkq, hq⟩ := mem_remaining_iff.1 hchoice.mem
  dsimp only at hkp hp hkq hq
  have htop : 0 < largest s.matrix k := lt_of_le_of_lt htol hchoice.above
  have hne : s.matrix.entry p q ≠ 0 :=
    abs_pos.1 (lt_of_lt_of_le (mul_pos hu htop) hchoice.bound_le)
  have hkr : k < s.matrix.rows := Nat.lt_of_le_of_lt hkp hp
  have hkc : k < s.matrix.cols := Nat.lt_of_le_of_lt hkq hq
  have hswap := (h.eliminated.swapRows hkp hp).swapCols hkq hq
  have hrowPerm : ∀ i, (s.rowPerm.swap k p).old i =
      s.rowPerm.old (Permutation.exchange k p i) :=
    s.rowPerm.old_swap (by rw [h.size_rowPerm, ← h.rows_eq]; exact hkr)
      (by rw [h.size_rowPerm, ← h.rows_eq]; exact hp)
  have hcolPerm : ∀ j, (s.colPerm.swap k q).old j =
      s.colPerm.old (Permutation.exchange k q j) :=
    s.colPerm.old_swap (by rw [h.size_colPerm, ← h.cols_eq]; exact hkc)
      (by rw [h.size_colPerm, ← h.cols_eq]; exact hq)
  have hpivot : natural (fun i j => a.entry (s.rowPerm.old (Permutation.exchange k p i))
      (s.colPerm.old (Permutation.exchange k q j))) k k k ≠ 0 := by
    have hkk := hswap.rest_eq k k hkr hkc (Nat.le_refl k) (Nat.le_refl k)
    rw [← hkk, DenseMatrix.entry_swapCols (s.matrix.swapRows k p) hkc hq,
      DenseMatrix.entry_swapRows s.matrix hkr hp]
    unfold Permutation.exchange
    rw [if_pos rfl, if_pos rfl]
    exact hne
  have helim := hswap.eliminate hkr hkc hpivot
  refine ⟨h.rows_eq ▸ hkr, h.cols_eq ▸ hkc, h.rows_eq, h.cols_eq, ?_, ?_, ?_⟩
  · exact (Permutation.size_swap _ _ _).trans h.size_rowPerm
  · exact (Permutation.size_swap _ _ _).trans h.size_colPerm
  · simp only [pivot, hrowPerm, hcolPerm]
    exact helim

/-- Without a step all remaining entries are at most the tolerance. -/
theorem Tracks.abs_le_of_step_eq_none (h : s.Tracks a k) (hu : u ≤ 1) (htol : 0 ≤ absTol)
    (hstep : s.step hints u absTol k = none) {i j : ℕ} (hki : k ≤ i) (hi : i < a.rows)
    (hkj : k ≤ j) (hj : j < a.cols) :
    |natural (fun i j => a.entry (s.rowPerm.old i) (s.colPerm.old j)) k i j| ≤ absTol := by
  have hi' : i < s.matrix.rows := h.rows_eq.symm ▸ hi
  have hj' : j < s.matrix.cols := h.cols_eq.symm ▸ hj
  have hmem : (i, j) ∈ remaining s.matrix k := mem_remaining_iff.2 ⟨⟨hki, hi'⟩, hkj, hj'⟩
  rw [← h.eliminated.rest_eq i j hi' hj' hki hkj]
  exact (abs_le_largest hmem).trans ((step_eq_none_iff hu htol).1 hstep)

/-- The elimination runs until no entry above the tolerance is left. -/
theorem Tracks.run {steps : ℕ} (h : s.Tracks a k) (hu : 0 < u) (htol : 0 ≤ absTol)
    (hsteps : k + steps = min a.rows a.cols) {r : ℕ}
    (hrun : PivotedMatrix.run hints u absTol steps k s = (r, t)) :
    r ≤ min a.rows a.cols ∧ t.Tracks a r ∧
      (u ≤ 1 → ∀ i j, r ≤ i → i < a.rows → r ≤ j → j < a.cols →
        |natural (fun i j => a.entry (t.rowPerm.old i) (t.colPerm.old j)) r i j| ≤ absTol) := by
  induction steps generalizing k s with
  | zero =>
    cases hrun
    refine ⟨by omega, h, fun _ i j hri hi hrj hj => ?_⟩
    omega
  | succ steps ih =>
    rw [PivotedMatrix.run] at hrun
    split at hrun
    · rename_i hstep
      cases hrun
      exact ⟨by omega, h, fun hu i j hri hi hrj hj =>
        h.abs_le_of_step_eq_none hu htol hstep hri hi hrj hj⟩
    · rename_i s' hstep
      obtain ⟨-, -, hs'⟩ := h.step hu htol hstep
      exact ih hs' (by omega) hrun

end Step

end PivotedMatrix

namespace DenseSolver

/-- The solver has tolerances in their documented ranges. -/
def Admissible (solver : DenseSolver K) : Prop :=
  Tolerances solver.pivotThreshold solver.rankTol solver.refactorTol

/-- The threshold is in its documented range, and no pivot is too small for an analysis. -/
def Untolerant (solver : DenseSolver K) : Prop :=
  0 < solver.pivotThreshold ∧ solver.pivotThreshold ≤ 1 ∧ solver.rankTol = 0

/-- Tolerances of zero are in range. -/
theorem Untolerant.pivotTolerances {solver : DenseSolver K} (h : solver.Untolerant) :
    PivotTolerances solver.pivotThreshold solver.rankTol := ⟨h.1, h.2.1, h.2.2.ge⟩

variable {solver : DenseSolver K} {a : SparseMatrix K} {hints : AnalysisHints}

/-- What is left when the elimination stops is within the tolerance. -/
theorem elimination_spec (h : PivotTolerances solver.pivotThreshold solver.rankTol)
    (a : SparseMatrix K) (hints : AnalysisHints) :
    (solver.elimination a hints).1 ≤ min a.rows a.cols ∧
      (solver.elimination a hints).2.Tracks a (solver.elimination a hints).1 ∧
      ∀ i j, (solver.elimination a hints).1 ≤ i → i < a.rows →
        (solver.elimination a hints).1 ≤ j → j < a.cols →
          |natural (fun i j => a.entry ((solver.elimination a hints).2.rowPerm.old i)
            ((solver.elimination a hints).2.colPerm.old j)) (solver.elimination a hints).1 i j| ≤
            solver.rankTol * a.maxAbs := by
  have hrun : PivotedMatrix.run hints (thresholdForAttempt solver.pivotThreshold hints.attempt)
      (solver.rankTol * a.maxAbs) (min a.rows a.cols) 0 (.start a.toDense) =
        ((solver.elimination a hints).1, (solver.elimination a hints).2) := rfl
  obtain ⟨hle, htracks, hrest⟩ := (PivotedMatrix.tracks_start a).run
    (thresholdForAttempt_pos h.threshold_pos hints.attempt)
    (mul_nonneg h.rankTol_nonneg (maxAbs_nonneg a)) (Nat.zero_add _) hrun
  exact ⟨hle, htracks, hrest (thresholdForAttempt_le_one h.threshold_le_one hints.attempt)⟩

omit [ExactScalar K] in
private theorem exchanges_range (packed : DenseMatrix K) (r : ℕ) :
    (DenseLu.mk packed (Array.range r)).exchanges = [] := by
  rw [DenseLu.exchanges]
  rw [List.filter_eq_nil_iff]
  intro e he
  obtain ⟨⟨p, k⟩, hmem, rfl⟩ := List.mem_map.1 he
  have hget := List.mem_zipIdx_iff_getElem?.1 hmem
  dsimp only at hget
  rw [Array.toList_range, List.getElem?_range] at hget
  · cases hget
    simp
  · obtain ⟨hlt, -⟩ := List.getElem?_eq_some_iff.1 hget
    simpa using hlt

/-- The factors of an analysis are those of the block that its orders lead to. -/
theorem factorsOf_analyze (h : PivotTolerances solver.pivotThreshold solver.rankTol)
    {an : Analysis DenseStructure (DenseLu K)} (han : solver.analyze a hints = .ok an) :
    an.basis.numeric.FactorsOf an.rank
      fun i j => a.entry (an.rowPerm.old i) (an.colPerm.old j) := by
  obtain ⟨hle, htracks, -⟩ := elimination_spec h a hints
  have hrows := htracks.rows_eq
  have hcols := htracks.cols_eq
  rw [analyze_eq] at han
  split at han
  · cases han
  · cases han
    generalize solver.elimination a hints = e at *
    obtain ⟨r, t⟩ := e
    dsimp only at *
    have hentry : ∀ i j, i < r → j < r → (t.matrix.leading r r).entry i j = t.matrix.entry i j := by
      intro i j hi hj
      rw [DenseMatrix.leading]
      rw [DenseMatrix.entry_ofFn, if_pos ⟨hi, hj⟩]
    have hpacked := htracks.eliminated
    refine ⟨rfl, rfl, ?_, ?_⟩
    · intro e he
      rw [exchanges_range] at he
      cases he
    · rw [exchanges_range]
      refine ⟨hpacked.pivots, fun i j hi hj hjr hji => ?_, fun i j hi hj hir hij => ?_,
        fun i j hi _ hri _ => absurd hi (Nat.not_lt.2 hri)⟩
      · have hi : i < r := hi
        rw [hentry i j hi hjr]
        exact hpacked.lower_eq i j (by omega) (by omega) hjr hji
      · have hj : j < r := hj
        rw [hentry i j hir hj]
        exact hpacked.upper_eq i j (by omega) (by omega) hir hij

/-- Without a rank tolerance the elimination finds the rank. -/
theorem elimination_rank (h : PivotTolerances solver.pivotThreshold solver.rankTol)
    (htol : solver.rankTol = 0) (a : SparseMatrix K) (hints : AnalysisHints) :
    (solver.elimination a hints).1 = (block a.rows a.cols a.entry).rank := by
  obtain ⟨hle, htracks, hrest⟩ := elimination_spec h a hints
  generalize solver.elimination a hints = e at *
  obtain ⟨r, t⟩ := e
  dsimp only at *
  have hrow := htracks.size_rowPerm
  have hcol := htracks.size_colPerm
  refine (htracks.eliminated.pivots.rank_eq (by omega) (by omega) (fun i hi => ?_)
    (fun j hj => ?_) (fun i hi => ?_) (fun j hj => ?_) fun i j hri hi hrj hj => ?_).symm
  · rw [← hrow] at hi ⊢
    exact t.rowPerm.old_lt_iff.2 hi
  · rw [← hcol] at hj ⊢
    exact t.colPerm.old_lt_iff.2 hj
  · rw [← hrow] at hi ⊢
    exact ⟨t.rowPerm.new i, t.rowPerm.new_lt_iff.2 hi, t.rowPerm.old_new i⟩
  · rw [← hcol] at hj ⊢
    exact ⟨t.colPerm.new j, t.colPerm.new_lt_iff.2 hj, t.colPerm.old_new j⟩
  · have := hrest i j hri hi hrj hj
    rw [htol, zero_mul] at this
    exact abs_eq_zero.1 (le_antisymm this (abs_nonneg _))

end DenseSolver

end ReducedSpace
