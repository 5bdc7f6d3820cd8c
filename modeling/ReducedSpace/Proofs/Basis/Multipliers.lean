import Mathlib
import ReducedSpace.Proofs.Basis.CompletePivoting
import ReducedSpace.Proofs.Basis.SearchFactors
import ReducedSpace.Proofs.Basis.Triangular
import ReducedSpace.Proofs.Dense.Packed

/-!
# How large a multiplier can be

Threshold pivoting refuses a pivot that is too small for the entries it has to cancel, so no entry
of `L` exceeds the inverse of the threshold. The sparse search compares a pivot with its column, and
the factorization of the leading block repeats the multipliers of the search. Complete pivoting
compares with all remaining entries and keeps the multipliers below the diagonal, where exchanges
move them along with their rows. Partial pivoting takes a largest entry of the column, as if the
threshold were one.
-/

namespace ReducedSpace

variable {K : Type} [ExactScalar K]

/-- A quotient is at most a bound if its numerator is at most that multiple of its denominator. -/
theorem abs_div_le_of_abs_le_mul {x y bound : K} (hbound : 0 ≤ bound) (h : |x| ≤ bound * |y|) :
    |x / y| ≤ bound := by
  rw [abs_div]
  exact div_le_of_le_mul₀ (abs_nonneg y) hbound h

namespace DenseMatrix

/-- The multipliers of the first `k` steps are at most `bound`. -/
def MultipliersWithin (w : DenseMatrix K) (k : ℕ) (bound : K) : Prop :=
  ∀ i j, i < w.rows → j < w.cols → j < k → j < i → |w.entry i j| ≤ bound

variable {w : DenseMatrix K} {k p q : ℕ} {bound : K}

/-- Before the first step there are no multipliers. -/
theorem multipliersWithin_zero (w : DenseMatrix K) (bound : K) : w.MultipliersWithin 0 bound :=
  fun _ j _ _ hj _ => absurd hj (Nat.not_lt_zero j)

/-- Multipliers move along when later rows are exchanged. -/
theorem MultipliersWithin.swapRows (h : w.MultipliersWithin k bound) (hkp : k ≤ p)
    (hp : p < w.rows) : (w.swapRows k p).MultipliersWithin k bound := by
  have hk : k < w.rows := Nat.lt_of_le_of_lt hkp hp
  intro i j hi hj hjk hji
  rw [entry_swapRows w hk hp]
  refine h _ j (Permutation.exchange_lt hk hp hi) hj hjk ?_
  by_cases hik : i < k
  · rw [Permutation.exchange_of_lt hkp hik]
    exact hji
  · exact Nat.lt_of_lt_of_le hjk ((Permutation.le_exchange_iff hkp).2 (Nat.not_lt.1 hik))

/-- Multipliers stay in place when later columns are exchanged. -/
theorem MultipliersWithin.swapCols (h : w.MultipliersWithin k bound) (hkq : k ≤ q)
    (hq : q < w.cols) : (w.swapCols k q).MultipliersWithin k bound := by
  intro i j hi hj hjk hji
  rw [entry_swapCols w (Nat.lt_of_le_of_lt hkq hq) hq, Permutation.exchange_of_lt hkq hjk]
  exact h i j hi hj hjk hji

/-- A step of elimination adds the multipliers of its pivot. -/
theorem MultipliersWithin.eliminate (h : w.MultipliersWithin k bound) (hbound : 0 ≤ bound)
    (hpivot : ∀ i, k < i → i < w.rows → |w.entry i k| ≤ bound * |w.entry k k|) :
    (w.eliminate k).MultipliersWithin (k + 1) bound := by
  intro i j hi hj hjk hji
  rw [entry_eliminate w k hi hj]
  rcases Nat.lt_succ_iff_lt_or_eq.1 hjk with hlt | rfl
  · rw [if_pos (.inr hlt)]
    exact h i j hi hj hlt hji
  · rw [if_neg (by omega), if_pos rfl]
    exact abs_div_le_of_abs_le_mul hbound (hpivot i hji hi)

end DenseMatrix

namespace DenseLu

variable {f : DenseLu K} {bound : K}

/-- The multipliers are the entries of `L` below its unit diagonal. -/
theorem abs_lowerEntry_le (h : f.packed.MultipliersWithin f.dim bound) (hbound : 1 ≤ bound)
    (i t : ℕ) : |f.lowerEntry i t| ≤ bound := by
  have hnonneg : 0 ≤ bound := zero_le_one.trans hbound
  rw [lowerEntry]
  split_ifs with hit hti
  · rwa [abs_one]
  · by_cases hin : i < f.packed.rows ∧ t < f.packed.cols
    · exact h i t hin.1 hin.2 (hti.trans hin.1) hti
    · have hzero : f.packed.entry i t = 0 := if_neg hin
      rwa [hzero, abs_zero]
  · rwa [abs_zero]

/-- Partial pivoting divides by a largest entry of the column. -/
theorem multipliersWithin_step {w : DenseMatrix K} {k : ℕ} (h : w.MultipliersWithin k 1)
    (hk : k < w.rows) : ((w.swapRows k (pivotRow w k).1).eliminate k).MultipliersWithin (k + 1) 1 := by
  obtain ⟨hle, hp, hmagnitude⟩ := pivotRow_spec w hk
  refine (h.swapRows hle hp).eliminate zero_le_one fun i hki hi => ?_
  have hpivot : Permutation.exchange k (pivotRow w k).1 k = (pivotRow w k).1 := if_pos rfl
  rw [DenseMatrix.entry_swapRows w hk hp, DenseMatrix.entry_swapRows w hk hp, hpivot, one_mul,
    ← hmagnitude]
  exact abs_le_pivotRow w ((Permutation.le_exchange_iff hle).2 hki.le)
    (Permutation.exchange_lt hk hp hi)

/-- Row exchanges bound the multipliers by one. -/
theorem multipliersWithin_factorFrom {tol : K} (steps k : ℕ) (w : DenseMatrix K)
    (swaps : Array ℕ) (hsteps : k + steps = w.rows) (hw : w.MultipliersWithin k 1)
    (hf : factorFrom tol steps k w swaps = .ok f) : f.packed.MultipliersWithin f.dim 1 := by
  induction steps generalizing k w swaps with
  | zero =>
    cases hf
    have hdim : k = w.rows := hsteps
    rw [hdim] at hw
    exact hw
  | succ steps ih =>
    rw [factorFrom] at hf
    dsimp only at hf
    split at hf
    · have hk : k < w.rows := by omega
      have hrest : k + 1 + steps = w.rows := by omega
      exact ih (k + 1) ((w.swapRows k (pivotRow w k).1).eliminate k) _ hrest
        (multipliersWithin_step hw hk) hf
    · cases hf

end DenseLu

namespace PivotedMatrix

variable {s t : PivotedMatrix K} {hints : AnalysisHints} {u absTol : K} {k : ℕ}

/-- Complete pivoting divides by an entry within the threshold of the largest one. -/
theorem multipliersWithin_step (hu : 0 < u) (htol : 0 ≤ absTol)
    (h : s.matrix.MultipliersWithin k (1 / u)) (hstep : s.step hints u absTol k = some t) :
    t.matrix.MultipliersWithin (k + 1) (1 / u) := by
  obtain ⟨p, q, hchoice, rfl⟩ := exists_chooses htol hstep
  obtain ⟨⟨hkp, hp⟩, hkq, hq⟩ := mem_remaining_iff.1 hchoice.mem
  dsimp only at hkp hp hkq hq
  have hkr : k < s.matrix.rows := Nat.lt_of_le_of_lt hkp hp
  have hkc : k < s.matrix.cols := Nat.lt_of_le_of_lt hkq hq
  have hentry (i : ℕ) : ((s.matrix.swapRows k p).swapCols k q).entry i k =
      s.matrix.entry (Permutation.exchange k p i) q := by
    rw [DenseMatrix.entry_swapCols (s.matrix.swapRows k p) hkc hq,
      DenseMatrix.entry_swapRows s.matrix hkr hp]
    congr 1
    exact if_pos rfl
  refine ((h.swapRows hkp hp).swapCols hkq hq).eliminate (one_div_pos.2 hu).le fun i hki hi => ?_
  have hpivot : Permutation.exchange k p k = p := if_pos rfl
  have hmem : (Permutation.exchange k p i, q) ∈ remaining s.matrix k :=
    mem_remaining_iff.2 ⟨⟨(Permutation.le_exchange_iff hkp).2 hki.le,
      Permutation.exchange_lt hkr hp hi⟩, hkq, hq⟩
  rw [hentry, hentry, hpivot, one_div_mul_eq_div, le_div_iff₀' hu]
  exact (mul_le_mul_of_nonneg_left (abs_le_largest hmem) hu.le).trans hchoice.bound_le

/-- The threshold of the attempt bounds them by its reciprocal. -/
theorem multipliersWithin_run (hu : 0 < u) (htol : 0 ≤ absTol) {steps : ℕ}
    (h : s.matrix.MultipliersWithin k (1 / u)) :
    (run hints u absTol steps k s).2.matrix.MultipliersWithin (run hints u absTol steps k s).1
      (1 / u) := by
  induction steps generalizing k s with
  | zero => exact h
  | succ steps ih =>
    rw [run]
    cases hstep : s.step hints u absTol k with
    | none => exact h
    | some t => exact ih (multipliersWithin_step hu htol h hstep)

end PivotedMatrix

/-- The leading block of the factors keeps the multipliers. -/
theorem DenseSolver.multipliersWithin_analyze {solver : DenseSolver K} {a : SparseMatrix K}
    {hints : AnalysisHints} {an : Analysis DenseStructure (DenseLu K)}
    (h : PivotTolerances solver.pivotThreshold solver.rankTol)
    (han : solver.analyze a hints = .ok an) :
    an.basis.numeric.packed.MultipliersWithin an.basis.numeric.dim
      (1 / thresholdForAttempt solver.pivotThreshold hints.attempt) := by
  have hrun : (solver.elimination a hints).2.matrix.MultipliersWithin
      (solver.elimination a hints).1 _ :=
    PivotedMatrix.multipliersWithin_run (thresholdForAttempt_pos h.threshold_pos hints.attempt)
      (mul_nonneg h.rankTol_nonneg (maxAbs_nonneg a)) (DenseMatrix.multipliersWithin_zero _ _)
  obtain ⟨hle, htracks, -⟩ := elimination_spec h a hints
  have hrows := htracks.rows_eq
  have hcols := htracks.cols_eq
  rw [analyze_eq] at han
  split at han
  · cases han
  · cases han
    intro i j hi hj hjr hji
    dsimp only [DenseMatrix.leading, DenseMatrix.rows_ofFn, DenseMatrix.cols_ofFn] at hi hj ⊢
    rw [DenseMatrix.entry_ofFn, if_pos ⟨hi, hj⟩]
    exact hrun i j (by omega) (by omega) hj hji

namespace MarkowitzSolver

variable {solver : MarkowitzSolver K} {a : SparseMatrix K} {hints : AnalysisHints}

/-- The search divides by a pivot within the threshold of the largest entry of its column. -/
theorem abs_multiplier?_le (hu : 0 < solver.pivotThreshold) {k i : ℕ} {e : ℕ × ℕ} {v : K}
    (he : (solver.pivots a hints)[k]? = some e)
    (hv : (solver.active a hints k).multiplier? e.1 e.2 i = some v) :
    |v| ≤ 1 / thresholdForAttempt solver.pivotThreshold hints.attempt := by
  have hthreshold := thresholdForAttempt_pos hu hints.attempt
  obtain ⟨c, hc, rfl⟩ := choose_active he
  obtain ⟨-, -, hlarge, -⟩ := ActiveMatrix.acceptable_of_choosePivot hc
  rw [Scalar.lt_eq_false_iff, Scalar.abs_eq] at hlarge
  obtain ⟨x, hx, rfl⟩ := Option.map_eq_some_iff.1 hv
  have hvalue : (solver.active a hints k).value i c.col = x := by
    rw [ActiveMatrix.value]
    rw [hx, Option.getD_some]
  refine abs_div_le_of_abs_le_mul (one_div_pos.2 hthreshold).le ?_
  rw [one_div_mul_eq_div, le_div_iff₀' hthreshold, ← hvalue]
  exact (mul_le_mul_of_nonneg_left (ActiveMatrix.abs_value_le_columnMax (active_aligned k) i c.col)
    hthreshold.le).trans hlarge

end MarkowitzSolver

/-- What the factors of a sparse analysis store below the diagonal are multipliers of its search. -/
theorem MarkowitzSolver.RecordsSearch.abs_lowerEntry_le {solver : MarkowitzSolver K}
    {a : SparseMatrix K} {hints : AnalysisHints} {f : SparseLu K}
    (h : solver.RecordsSearch a hints f) (hu : 0 < solver.pivotThreshold)
    (hu' : solver.pivotThreshold ≤ 1) (i t : ℕ) :
    |f.lowerEntry i t| ≤ 1 / thresholdForAttempt solver.pivotThreshold hints.attempt := by
  have hthreshold := thresholdForAttempt_pos hu hints.attempt
  rw [SparseLu.lowerEntry, SparseVec.value]
  split_ifs with hit
  · rw [abs_one, le_div_iff₀ hthreshold, one_mul]
    exact thresholdForAttempt_le_one hu' hints.attempt
  · cases hv : (f.lowerCol t).find? i with
    | none => simpa using hthreshold.le
    | some v =>
      have ht : t < (solver.pivots a hints).length := by
        by_contra hout
        have hempty : f.lowerCol t = .empty := by
          rw [SparseLu.lowerCol, Array.getD_eq_getD_getElem?, Array.getElem?_eq_none, Option.getD_none]
          rw [h.size_lowerCols]
          exact Nat.not_lt.1 hout
        rw [hempty] at hv
        cases hv
      have he := List.getElem?_eq_getElem ht
      rw [h.lowerCol_eq he] at hv
      split_ifs at hv
      obtain ⟨d, -, hd⟩ := Option.bind_eq_some_iff.1 hv
      exact abs_multiplier?_le hu he hd

/-- In exact arithmetic no entry of `L` in the factors of an analysis exceeds the inverse of the
threshold that the attempt takes, whatever the width of the search, the preferred rows and the
number of the attempt. No entry of `L` in dense factors with partial pivoting exceeds one. -/
theorem multipliers_bounded :
    (∀ (solver : MarkowitzSolver K) (a : SparseMatrix K) (hints : AnalysisHints)
      (an : Analysis MarkowitzStructure (SparseLu K)),
      PivotTolerances solver.pivotThreshold solver.rankTol → solver.analyze a hints = .ok an →
        ∀ i t, |an.basis.numeric.lowerEntry i t| ≤
          1 / thresholdForAttempt solver.pivotThreshold hints.attempt) ∧
    (∀ (solver : DenseSolver K) (a : SparseMatrix K) (hints : AnalysisHints)
      (an : Analysis DenseStructure (DenseLu K)),
      PivotTolerances solver.pivotThreshold solver.rankTol → solver.analyze a hints = .ok an →
        ∀ i t, |an.basis.numeric.lowerEntry i t| ≤
          1 / thresholdForAttempt solver.pivotThreshold hints.attempt) ∧
    ∀ (a : DenseMatrix K) (tol : K) (f : DenseLu K), DenseLu.factor a tol = .ok f →
      ∀ i t, |f.lowerEntry i t| ≤ 1 := by
  refine ⟨fun solver a hints an h han => ?_, fun solver a hints an h han => ?_,
    fun a tol f hf => ?_⟩
  · obtain ⟨-, rowPerm, colPerm, factors, hrow, hcol, hfactors, rfl⟩ :=
      MarkowitzSolver.analyze_eq_ok_iff.1 han
    exact (MarkowitzSolver.recordsSearch_of_factor hrow hcol hfactors).abs_lowerEntry_le
      h.threshold_pos h.threshold_le_one
  · refine DenseLu.abs_lowerEntry_le (DenseSolver.multipliersWithin_analyze h han) ?_
    rw [le_div_iff₀ (thresholdForAttempt_pos h.threshold_pos hints.attempt), one_mul]
    exact thresholdForAttempt_le_one h.threshold_le_one hints.attempt
  · rw [DenseLu.factor] at hf
    split at hf
    · exact DenseLu.abs_lowerEntry_le (DenseLu.multipliersWithin_factorFrom a.rows 0 a #[]
        (Nat.zero_add _) (a.multipliersWithin_zero 1) hf) le_rfl
    · cases hf

/-- A matrix whose lower row is small in the first column. -/
def steepSample : SparseMatrix Rat :=
  .ofEntries 2 2 fun i j =>
    ((#[#[some 4, some 1], #[some 1, some 1]] : Array (Array (Option Rat))).getD i #[]).getD j none

/-- A solver with a generous threshold. -/
def steepSolver : DenseSolver Rat := ⟨1 / 8, 0, 0⟩

/-- On the second attempt the threshold of the sparse solver is one. The dense solver gives precedence
to the lower row and divides by a small pivot, and partial pivoting divides by the large one. -/
theorem multipliers_bounded_sample :
    (∃ an, MarkowitzSolver.cancellingSolver.analyze MarkowitzSolver.cancellingSample ⟨3, none, 1⟩ =
        .ok an ∧ ∀ i t, |an.basis.numeric.lowerEntry i t| ≤ 1) ∧
      (∃ an, steepSolver.analyze steepSample ⟨2, some #[false, true], 0⟩ = .ok an ∧
        an.basis.numeric.lowerEntry 1 0 = 4 ∧ ∀ i t, |an.basis.numeric.lowerEntry i t| ≤ 8) ∧
      ∃ f, DenseLu.factor steepSample.toDense 0 = .ok f ∧ f.lowerEntry 1 0 = 1 / 4 ∧
        ∀ i t, |f.lowerEntry i t| ≤ 1 := by
  refine ⟨?_, ?_, ?_⟩
  · have hanalyze : ∃ an, MarkowitzSolver.cancellingSolver.analyze MarkowitzSolver.cancellingSample
        ⟨3, none, 1⟩ = .ok an ∧ an.rank = (MarkowitzSolver.cancellingSolver.pivots
          MarkowitzSolver.cancellingSample ⟨3, none, 1⟩).length :=
      MarkowitzSolver.exists_analyze (by decide +kernel) (by decide +kernel)
    obtain ⟨an, han, -⟩ := hanalyze
    refine ⟨an, han, fun i t => (multipliers_bounded.1 _ _ _ an ?_ han i t).trans ?_⟩
    · exact ⟨by decide +kernel, by decide +kernel, by decide +kernel⟩
    · decide +kernel
  · have han := steepSolver.analyze_eq steepSample ⟨2, some #[false, true], 0⟩
    rw [if_neg (by decide +kernel)] at han
    refine ⟨_, han, by decide +kernel, fun i t =>
      (multipliers_bounded.2.1 _ _ _ _ ?_ han i t).trans ?_⟩
    · exact ⟨by decide +kernel, by decide +kernel, by decide +kernel⟩
    · decide +kernel
  · have hfactor : (DenseLu.factor steepSample.toDense 0).map (fun f => f.lowerEntry 1 0) =
        .ok (1 / 4) := by decide +kernel
    obtain ⟨f, hf, hentry⟩ := map_eq_ok_iff.1 hfactor
    exact ⟨f, hf, hentry, multipliers_bounded.2.2 _ _ f hf⟩

end ReducedSpace
