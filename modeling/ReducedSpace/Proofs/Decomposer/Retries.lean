import Mathlib
import ReducedSpace.Proofs.Basis.Thresholds
import ReducedSpace.Proofs.Decomposer.Selection

/-!
# Retries with the dense solver

The dense solver promises that a stricter threshold cannot find another rank, so a selection by it
analyzes only once. Where the rank is settled by the first attempt this is sound: all further
attempts would end as the first one did. With a rank tolerance and a preferred row that is given
precedence to a larger entry it is not: the retry can find a rank that the first attempt misses.
-/

namespace ReducedSpace.Decomposer

variable {K : Type} [ExactScalar K]

/-- The rows that a dual estimate prefers: those of its nonzero entries. -/
def preferredRows (nu : Option (Array K)) : Option (Array Bool) :=
  nu.map fun nu => nu.map fun v => !Scalar.isZero v

/-- A failed analysis leaves the dense solver as it was. -/
theorem analyze_eq_fail {solver : DenseSolver K} {gc : SparseMatrix K} {hints : AnalysisHints}
    {e : SolverError K} (h : solver.analyze gc hints = .error e) :
    DirectSolver.analyze solver gc hints = (Attempt.fail e, solver) := by
  refine Prod.ext ?_ rfl
  show Attempt.ofExcept (solver.analyze gc hints) = _
  rw [h]
  rfl

/-- A selection by the dense solver is its first attempt. -/
theorem selectBasis_eq_first {s : Decomposer (DenseSolver K) K DenseStructure (DenseLu K)}
    {nu : Option (Array K)} {gc : SparseMatrix K} (hcheck : s.checkSelection nu gc = .ok ()) :
    s.selectBasis nu gc =
      selectFrom (preferredRows nu) gc 1 0 (.singularBasis 0 s.requiredRank) s := by
  rw [selectBasis, hcheck]
  rfl

/-- Where the rank is settled, a selection by the dense solver ends as with all its attempts. -/
theorem selectBasis_eq_of_settled
    {s : Decomposer (DenseSolver K) K DenseStructure (DenseLu K)} {nu : Option (Array K)}
    {gc : SparseMatrix K}
    (h : s.solver.RankSettled gc (preferredRows nu) s.solver.pivotThreshold)
    (htol : PivotTolerances s.solver.pivotThreshold s.solver.rankTol)
    (hpos : s.settings.maxSelectAttempts ≠ 0) (hmax : s.settings.maxSelectAttempts ≤ 2 ^ 31)
    (hcheck : s.checkSelection nu gc = .ok ()) :
    s.selectBasis nu gc = selectFrom (preferredRows nu) gc s.settings.maxSelectAttempts 0
      (.singularBasis 0 s.requiredRank) s := by
  rw [selectBasis_eq_first hcheck]
  obtain ⟨left, hleft⟩ := Nat.exists_eq_succ_of_ne_zero hpos
  cases hanalyze : s.solver.analyze gc ⟨s.requiredRank, preferredRows nu, 0⟩ with
  | ok an =>
    have hanswer : DirectSolver.analyze s.solver gc ⟨s.requiredRank, preferredRows nu, 0⟩ =
        (.ok an, s.solver) := Prod.ext (Attempt.ofExcept_eq_ok_iff.2 hanalyze) rfl
    rw [hleft, selectFrom, selectFrom]
    dsimp only
    rw [hanswer]
  | error e =>
    obtain ⟨-, rfl⟩ := DenseSolver.analyze_eq_error_iff.1 hanalyze
    have hfails (i : ℕ) (hi : i < 2 ^ 31) := analyze_eq_fail (h.analyze_eq_error htol hanalyze hi)
    rw [selectFrom_of_fails (fun i _ hi => hfails i (by omega)) (.inl Nat.one_ne_zero),
      selectFrom_of_fails (fun i _ hi => hfails i (by omega)) (.inl hpos)]

/-- Retries of the dense solver that cannot find anything new. If the rank is settled at the base
threshold, larger thresholds and later attempts answer with the same rank, a failure of the first
attempt is that of every later one, and a selection that analyzes only once answers and leaves
behind what it would with all its attempts. -/
theorem retries_find_nothing_new (solver : DenseSolver K)
    (htol : PivotTolerances solver.pivotThreshold solver.rankTol) (a : SparseMatrix K)
    (preferred : Option (Array Bool))
    (h : solver.RankSettled a preferred solver.pivotThreshold) :
    (∀ v, solver.pivotThreshold ≤ v → v ≤ 1 → ∀ required attempt, attempt < 2 ^ 31 →
      (DenseSolver.analyze { solver with pivotThreshold := v } a
          ⟨required, preferred, attempt⟩).map (fun an => an.rank) =
        (solver.analyze a ⟨required, preferred, 0⟩).map fun an => an.rank) ∧
    (∀ required e, solver.analyze a ⟨required, preferred, 0⟩ = .error e →
      ∀ attempt, attempt < 2 ^ 31 →
        solver.analyze a ⟨required, preferred, attempt⟩ = .error e) ∧
    ∀ (s : Decomposer (DenseSolver K) K DenseStructure (DenseLu K)) (nu : Option (Array K)),
      s.solver = solver → preferredRows nu = preferred → s.settings.maxSelectAttempts ≠ 0 →
        s.settings.maxSelectAttempts ≤ 2 ^ 31 → s.checkSelection nu a = .ok () →
          s.selectBasis nu a = selectFrom preferred a s.settings.maxSelectAttempts 0
            (.singularBasis 0 s.requiredRank) s := by
  refine ⟨fun v huv hv required attempt hattempt => ?_, fun required e hfails attempt => ?_, ?_⟩
  · exact h.map_rank_eq htol huv hv required hattempt
  · exact h.analyze_eq_error htol hfails
  · rintro s nu rfl rfl hpos hmax hcheck
    exact selectBasis_eq_of_settled h htol hpos hmax hcheck

/-- Two equations in three variables. Which entry of the first column becomes a pivot decides whether
anything above the tolerance of `tolerantSolver` is left. -/
def retrySample : SparseMatrix Rat :=
  .ofEntries 3 2 fun i j => ((#[#[4, 1], #[2, 1], #[2, 2]] : Array (Array Rat)).getD i #[])[j]?

/-- A system for `retrySample` that needs both equations and tries twice. -/
def retrySystem : Decomposer (DenseSolver Rat) Rat DenseStructure (DenseLu Rat) where
  solver := tolerantSolver
  settings := { sampleSettings .dense with
    pivotThreshold := 1 / 8
    rankTol := 1 / 4
    allowUndecomposed := false
    maxSelectAttempts := 2 }
  n := 3
  m := 2
  current := none
  generation := 0

/-- Without a dual estimate the sample system finds both equations, at either threshold, and a third
one that is not there is not found by a retry either. -/
theorem retries_find_nothing_new_sample :
    (tolerantSolver.analyze retrySample ⟨2, none, 0⟩).map (fun an => an.rank) = .ok 2 ∧
      (DenseSolver.analyze { tolerantSolver with pivotThreshold := 1 } retrySample
        ⟨2, none, 1⟩).map (fun an => an.rank) = .ok 2 ∧
      tolerantSolver.analyze retrySample ⟨3, none, 0⟩ = .error (.singularBasis 2 3) ∧
      tolerantSolver.analyze retrySample ⟨3, none, 1⟩ = .error (.singularBasis 2 3) ∧
      retrySystem.selectBasis none retrySample =
        selectFrom none retrySample 2 0 (.singularBasis 0 2) retrySystem := by
  have hsettled : tolerantSolver.RankSettled retrySample none tolerantSolver.pivotThreshold :=
    .inr (.inl fun _ _ _ _ => rfl)
  have hrank : (tolerantSolver.elimination retrySample ⟨2, none, 0⟩).1 = 2 := by decide +kernel
  have hfinds : (tolerantSolver.analyze retrySample ⟨2, none, 0⟩).map (fun an => an.rank) =
      .ok 2 := by
    rw [DenseSolver.map_rank_analyze, hrank]
    rfl
  have hfails : tolerantSolver.analyze retrySample ⟨3, none, 0⟩ = .error (.singularBasis 2 3) := by
    refine DenseSolver.analyze_eq_error_iff.2 ⟨by decide +kernel, ?_⟩
    exact congrArg (SolverError.singularBasis · 3) hrank.symm
  obtain ⟨hranks, hrepeats, hselects⟩ :=
    retries_find_nothing_new tolerantSolver tolerantSolver_tolerances retrySample none hsettled
  refine ⟨hfinds, ?_, hfails, hrepeats 3 _ hfails 1 (by norm_num), ?_⟩
  · exact (hranks 1 tolerantSolver_tolerances.threshold_le_one le_rfl 2 1 (by norm_num)).trans hfinds
  · exact hselects retrySystem none rfl rfl (by decide) (by decide) (by decide +kernel)

/-- If the second row is preferred, the first attempt takes its smaller entry and finds rank one,
where the second attempt finds rank two. A selection that analyzes only once fails, but succeeds
with all its attempts. -/
theorem retry_finds_missed_equation :
    let preferred := some #[false, true, false]
    tolerantSolver.analyze retrySample ⟨2, preferred, 0⟩ = .error (.singularBasis 1 2) ∧
      (∃ an, tolerantSolver.analyze retrySample ⟨2, preferred, 1⟩ = .ok an ∧ an.rank = 2) ∧
      (retrySystem.selectBasis (some #[0, 1, 0]) retrySample).1 =
        Attempt.fail (.singularBasis 1 2) ∧
      ∃ dec, (selectFrom preferred retrySample retrySystem.settings.maxSelectAttempts 0
        (.singularBasis 0 2) retrySystem).1 = .ok dec := by
  intro preferred
  have hrank : (tolerantSolver.elimination retrySample ⟨2, preferred, 0⟩).1 = 1 := by
    decide +kernel
  have hretry : (tolerantSolver.elimination retrySample ⟨2, preferred, 1⟩).1 = 2 := by
    decide +kernel
  have hfails : tolerantSolver.analyze retrySample ⟨2, preferred, 0⟩ =
      .error (.singularBasis 1 2) := by
    refine DenseSolver.analyze_eq_error_iff.2 ⟨hrank.trans_lt Nat.one_lt_two, ?_⟩
    rw [hrank]
  have hselect : (selectFrom preferred retrySample 2 0 (.singularBasis 0 2)
      retrySystem).1.isOk = true := by decide +kernel
  refine ⟨hfails, ?_, ?_, ?_⟩
  · obtain ⟨an, han, hfound⟩ := tolerantSolver.exists_analyze retrySample ⟨2, preferred, 1⟩
      hretry.ge
    exact ⟨an, han, hfound.trans hretry⟩
  · have hrows : preferredRows (some (#[0, 1, 0] : Array ℚ)) = preferred := by decide +kernel
    rw [selectBasis_eq_first (by decide +kernel), hrows,
      selectFrom_of_fails (fun i _ hi => ?_) (.inl Nat.one_ne_zero)]
    · rfl
    · obtain rfl : i = 0 := by omega
      exact analyze_eq_fail hfails
  · cases hdec : (selectFrom preferred retrySample 2 0 (.singularBasis 0 2) retrySystem).1 with
    | error e =>
      rw [hdec] at hselect
      cases hselect
    | ok dec => exact ⟨dec, hdec⟩

end ReducedSpace.Decomposer
