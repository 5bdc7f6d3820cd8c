import Mathlib
import ReducedSpace.Proofs.Basis.PivotMagnitudes

/-!
# Thresholds of complete pivoting

A larger threshold narrows the choice of the dense search to larger entries. As long as the pivots
are largest entries anyway it changes nothing. Only a preferred row can bring a smaller entry into
play, and then only a rank tolerance can make the rank depend on it: without a tolerance every
elimination ends with the rank of the matrix.
-/

namespace ReducedSpace

variable {K : Type} [ExactScalar K]

namespace PivotedMatrix

/-- Every pivot of an elimination is one of the largest entries that are left. -/
def TakesLargest (hints : AnalysisHints) (u absTol : K) : (steps k : ℕ) → PivotedMatrix K → Prop
  | 0, _, _ => True
  | steps + 1, k, s => ∀ t, s.step hints u absTol k = some t →
      |t.matrix.entry k k| = largest s.matrix k ∧ TakesLargest hints u absTol steps (k + 1) t

variable {s t : PivotedMatrix K} {a : SparseMatrix K} {hints : AnalysisHints} {u v absTol : K}
  {k : ℕ}

/-- A step that takes a largest entry takes the same one with every larger threshold. -/
theorem step_of_le (huv : u ≤ v) (hv : v ≤ 1) (htol : 0 ≤ absTol)
    (hstep : s.step hints u absTol k = some t)
    (hlargest : |t.matrix.entry k k| = largest s.matrix k) :
    s.step hints v absTol k = some t := by
  have habove := lt_largest_of_step hstep
  have htop := largest_nonneg s.matrix k
  rw [step_eq_of_lt htol habove] at hstep ⊢
  obtain ⟨best, hbest, rfl⟩ := Option.map_eq_some_iff.1 hstep
  obtain ⟨⟨e, he, rfl⟩, -, -⟩ := (bestOf_spec s hints _ _).1 best hbest
  have hmagnitude : (s.candidate hints e).magnitude = largest s.matrix k := by
    rw [← hlargest]
    exact congrArg abs (entry_pivot_self he).symm
  rw [bestOf_of_le (mul_le_mul_of_nonneg_right huv htop) hbest, Option.map_some]
  rw [hmagnitude]
  exact mul_le_of_le_one_left htop hv

/-- An elimination that takes largest entries is the same with every larger threshold. -/
theorem run_of_le {steps : ℕ} (huv : u ≤ v) (hv : v ≤ 1) (htol : 0 ≤ absTol)
    (h : TakesLargest hints u absTol steps k s) :
    run hints v absTol steps k s = run hints u absTol steps k s := by
  induction steps generalizing k s with
  | zero => rfl
  | succ steps ih =>
    rw [run, run]
    cases hstep : s.step hints u absTol k with
    | none =>
      have hle := (step_eq_none_iff (huv.trans hv) htol).1 hstep
      rw [step_eq_none_of_le hle]
    | some t =>
      obtain ⟨hlargest, hrest⟩ := h t hstep
      rw [step_of_le huv hv htol hstep hlargest]
      exact ih hrest

/-- Where no row is preferred to another, the pivots are largest entries. -/
theorem Tracks.takesLargest {steps : ℕ} (hs : s.Tracks a k) (hu : 0 < u) (hu' : u ≤ 1)
    (htol : 0 ≤ absTol) (hindifferent : hints.Indifferent a.rows) :
    TakesLargest hints u absTol steps k s := by
  induction steps generalizing k s with
  | zero => exact trivial
  | succ steps ih =>
    intro t hstep
    refine ⟨?_, ih (hs.step hu htol hstep).2.2⟩
    obtain ⟨p, q, hchoice, rfl⟩ := exists_chooses htol hstep
    rw [entry_pivot_self hchoice.mem]
    refine le_antisymm (abs_le_largest hchoice.mem) (hchoice.largest_le hu' (.inr ?_))
    rw [hs.rows_eq]
    exact ⟨hs.size_rowPerm, hindifferent⟩

/-- Of the hints an elimination reads which rows are preferred, and nothing else. -/
theorem run_congr {hints' : AnalysisHints} (h : hints'.preferredRows = hints.preferredRows)
    (steps : ℕ) (k : ℕ) (s : PivotedMatrix K) :
    run hints' u absTol steps k s = run hints u absTol steps k s := by
  have hpreferred : ∀ i, hints'.isPreferred i = hints.isPreferred i := fun i => by
    unfold AnalysisHints.isPreferred
    rw [h]
  have hstep : ∀ (k : ℕ) (s : PivotedMatrix K),
      s.step hints' u absTol k = s.step hints u absTol k := by
    intro k s
    unfold step bestPivot
    simp only [hpreferred]
  induction steps generalizing k s with
  | zero => rfl
  | succ steps ih => simp only [run, hstep, ih]

end PivotedMatrix

namespace DenseSolver

/-- The elimination that an analysis with the threshold `u` runs. -/
def eliminationAt (solver : DenseSolver K) (a : SparseMatrix K) (preferred : Option (Array Bool))
    (u : K) : ℕ × PivotedMatrix K :=
  PivotedMatrix.run ⟨0, preferred, 0⟩ u (solver.rankTol * a.maxAbs) (min a.rows a.cols) 0
    (.start a.toDense)

/-- A larger threshold than `u` leaves the rank as it is: there is no tolerance, no row is preferred
to another, or no preferred row was given precedence to a larger entry. -/
def RankSettled (solver : DenseSolver K) (a : SparseMatrix K) (preferred : Option (Array Bool))
    (u : K) : Prop :=
  solver.rankTol = 0 ∨ AnalysisHints.Indifferent ⟨0, preferred, 0⟩ a.rows ∨
    PivotedMatrix.TakesLargest ⟨0, preferred, 0⟩ u (solver.rankTol * a.maxAbs)
      (min a.rows a.cols) 0 (.start a.toDense)

variable {solver : DenseSolver K} {a : SparseMatrix K} {preferred : Option (Array Bool)}

theorem elimination_eq (solver : DenseSolver K) (a : SparseMatrix K) (hints : AnalysisHints) :
    solver.elimination a hints = solver.eliminationAt a hints.preferredRows
      (thresholdForAttempt solver.pivotThreshold hints.attempt) := by
  have hpreferred : (⟨0, hints.preferredRows, 0⟩ : AnalysisHints).preferredRows =
      hints.preferredRows := rfl
  exact (PivotedMatrix.run_congr hpreferred _ _ _).symm

/-- Where the rank is settled, larger thresholds find the same rank. -/
theorem RankSettled.rank_eq {u v : K} (h : solver.RankSettled a preferred u) (hu : 0 < u)
    (huv : u ≤ v) (hv : v ≤ 1) (htol : 0 ≤ solver.rankTol) :
    (solver.eliminationAt a preferred v).1 = (solver.eliminationAt a preferred u).1 := by
  have habsTol : 0 ≤ solver.rankTol * a.maxAbs := mul_nonneg htol (maxAbs_nonneg a)
  rcases h with hzero | hindifferent | hlargest
  · -- without a tolerance both eliminations count the rank of the matrix
    have hrank {u : K} (hu : 0 < u) (hu' : u ≤ 1) :
        (solver.eliminationAt a preferred u).1 = (Elimination.block a.rows a.cols a.entry).rank := by
      let strict : DenseSolver K := { solver with pivotThreshold := u }
      have hstrict : PivotTolerances strict.pivotThreshold strict.rankTol := ⟨hu, hu', htol⟩
      exact elimination_rank hstrict hzero a ⟨0, preferred, 0⟩
    exact (hrank (hu.trans_le huv) hv).trans (hrank hu (huv.trans hv)).symm
  · refine congrArg Prod.fst (PivotedMatrix.run_of_le huv hv habsTol ?_)
    exact (PivotedMatrix.tracks_start a).takesLargest hu (huv.trans hv) habsTol hindifferent
  · exact congrArg Prod.fst (PivotedMatrix.run_of_le huv hv habsTol hlargest)

/-- An analysis fails exactly for lack of rank. -/
theorem analyze_eq_error_iff {hints : AnalysisHints} {e : SolverError K} :
    solver.analyze a hints = .error e ↔
      (solver.elimination a hints).1 < hints.requiredRank ∧
        e = .singularBasis (solver.elimination a hints).1 hints.requiredRank := by
  rw [analyze_eq]
  split
  · rename_i hlt
    exact ⟨fun h => ⟨hlt, (Except.error.inj h).symm⟩, fun h => congrArg Except.error h.2.symm⟩
  · rename_i hle
    exact ⟨fun h => (nomatch h), fun h => absurd h.1 hle⟩

/-- The answer of an analysis without its factors. -/
theorem map_rank_analyze (solver : DenseSolver K) (a : SparseMatrix K) (hints : AnalysisHints) :
    (solver.analyze a hints).map (fun an => an.rank) =
      if (solver.elimination a hints).1 < hints.requiredRank then
        .error (.singularBasis (solver.elimination a hints).1 hints.requiredRank)
      else .ok (solver.elimination a hints).1 := by
  rw [analyze_eq]
  split
  · rfl
  · rfl

section Retries

variable (h : solver.RankSettled a preferred solver.pivotThreshold)
  (htol : PivotTolerances solver.pivotThreshold solver.rankTol)

include h htol

/-- Where the rank is settled by the first attempt, stricter solvers and retries find it, too. -/
theorem RankSettled.rank_elimination {v : K} (huv : solver.pivotThreshold ≤ v) (hv : v ≤ 1)
    (required : ℕ) {attempt : ℕ} (hattempt : attempt < 2 ^ 31) :
    (DenseSolver.elimination { solver with pivotThreshold := v } a
        ⟨required, preferred, attempt⟩).1 =
      (solver.elimination a ⟨required, preferred, 0⟩).1 := by
  rw [elimination_eq, elimination_eq]
  refine h.rank_eq htol.threshold_pos (huv.trans ?_) (thresholdForAttempt_le_one hv attempt)
    htol.rankTol_nonneg
  exact le_thresholdForAttempt (htol.threshold_pos.trans_le huv) hv hattempt

/-- Where the rank is settled by the first attempt, so are the answers of stricter solvers and
retries. -/
theorem RankSettled.map_rank_eq {v : K} (huv : solver.pivotThreshold ≤ v) (hv : v ≤ 1)
    (required : ℕ) {attempt : ℕ} (hattempt : attempt < 2 ^ 31) :
    (DenseSolver.analyze { solver with pivotThreshold := v } a
        ⟨required, preferred, attempt⟩).map (fun an => an.rank) =
      (solver.analyze a ⟨required, preferred, 0⟩).map fun an => an.rank := by
  rw [map_rank_analyze, map_rank_analyze, h.rank_elimination htol huv hv required hattempt]

/-- Where the rank is settled by the first attempt, its failure is that of all retries. -/
theorem RankSettled.analyze_eq_error {required : ℕ} {e : SolverError K}
    (hfails : solver.analyze a ⟨required, preferred, 0⟩ = .error e)
    {attempt : ℕ} (hattempt : attempt < 2 ^ 31) :
    solver.analyze a ⟨required, preferred, attempt⟩ = .error e := by
  have hrank := h.rank_elimination htol le_rfl htol.threshold_le_one required hattempt
  rw [analyze_eq_error_iff] at hfails ⊢
  rw [hrank]
  exact hfails

end Retries

end DenseSolver

end ReducedSpace
