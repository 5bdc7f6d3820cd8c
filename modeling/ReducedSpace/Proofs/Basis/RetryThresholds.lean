import Mathlib
import ReducedSpace.Proofs.Basis.ActiveElimination

/-!
# Thresholds of retries

The threshold of a retry is the base value times a power of ten, capped at one. A larger threshold
only takes candidates away, so the search of a later attempt chooses among the candidates of an
earlier one. The exponent is the number of the attempt as a signed number of 32 bits, so all of this
holds below `2 ^ 31` attempts; the next one has the smallest exponent of all.
-/

namespace ReducedSpace

variable {K : Type} [ExactScalar K]

section Thresholds

variable {u : K} {a b attempt : ℕ}

/-- Integer powers are those of the field. -/
theorem Scalar.pow_eq (base : K) (k : ℤ) : Scalar.pow base k = base ^ k := by
  cases k with
  | ofNat k =>
    show Scalar.powAux base 1 k = _
    rw [Scalar.powAux_eq, one_mul, Int.ofNat_eq_natCast, zpow_natCast]
  | negSucc k =>
    show 1 / Scalar.powAux base 1 (k + 1) = _
    rw [Scalar.powAux_eq, one_mul, zpow_negSucc, one_div]

/-- The first attempt is no exception if the base threshold is at most one. -/
theorem thresholdForAttempt_eq (hu : u ≤ 1) (attempt : ℕ) :
    thresholdForAttempt u attempt = min (u * 10 ^ signed32 attempt) 1 := by
  rw [thresholdForAttempt]
  split
  · rename_i hfirst
    rw [hfirst, signed32_of_lt (by norm_num), Nat.cast_zero, zpow_zero, mul_one, min_eq_left hu]
  · rw [Scalar.pow_eq, Scalar.ofNat_eq, Nat.cast_ofNat]
    rfl

/-- The threshold grows with the signed number of the attempt. -/
theorem thresholdForAttempt_le (hu : 0 < u) (hu' : u ≤ 1) (h : signed32 a ≤ signed32 b) :
    thresholdForAttempt u a ≤ thresholdForAttempt u b := by
  have hten : (1 : K) ≤ 10 := by norm_num
  rw [thresholdForAttempt_eq hu', thresholdForAttempt_eq hu']
  exact min_le_min_right 1 (mul_le_mul_of_nonneg_left (zpow_le_zpow_right₀ hten h) hu.le)

/-- An attempt is laxer than the first one exactly if its signed number is negative. -/
theorem le_thresholdForAttempt_iff (hu : 0 < u) (hu' : u ≤ 1) :
    u ≤ thresholdForAttempt u attempt ↔ 0 ≤ signed32 attempt := by
  have hten : (1 : K) < 10 := by norm_num
  rw [thresholdForAttempt_eq hu', le_min_iff, and_iff_left hu', le_mul_iff_one_le_right hu,
    one_le_zpow_iff_right₀ hten]

end Thresholds

namespace ActiveMatrix

variable {s : ActiveMatrix K} {u v absTol : K} {hints hints' : AnalysisHints}

theorem columnMax_nonneg (s : ActiveMatrix K) (j : ℕ) : 0 ≤ s.columnMax j := le_foldl_max _ _ 0

/-- A larger threshold leaves some of the candidates of a column, as they are and in their order. -/
theorem candidates_sublist (huv : u ≤ v) (h : hints'.preferredRows = hints.preferredRows) (j : ℕ) :
    (s.candidates v absTol hints' j).Sublist (s.candidates u absTol hints j) := by
  have hpreferred : hints'.isPreferred = hints.isPreferred := by
    funext i
    rw [AnalysisHints.isPreferred, AnalysisHints.isPreferred, h]
  have hbound : u * s.columnMax j ≤ v * s.columnMax j :=
    mul_le_mul_of_nonneg_right huv (s.columnMax_nonneg j)
  rw [candidates, candidates, hpreferred]
  refine List.Sublist.map _ (List.monotone_filter_right _ fun i hi => ?_)
  rw [Bool.not_eq_true', Bool.or_eq_false_iff, Scalar.lt_eq_false_iff] at hi ⊢
  exact ⟨hbound.trans hi.1, hi.2⟩

end ActiveMatrix

/-- Attempt `b` is at least as strict as attempt `a`: on any active matrix and in every column its
candidates are among those of attempt `a`. -/
structure NoLaxer (u : K) (a b : ℕ) : Prop where
  threshold_le : thresholdForAttempt u a ≤ thresholdForAttempt u b
  candidates_sublist : ∀ (s : ActiveMatrix K) (absTol : K) (required : ℕ)
    (preferred : Option (Array Bool)) (j : ℕ),
    (s.candidates (thresholdForAttempt u b) absTol ⟨required, preferred, b⟩ j).Sublist
      (s.candidates (thresholdForAttempt u a) absTol ⟨required, preferred, a⟩ j)

theorem noLaxer {u : K} (hu : 0 < u) (hu' : u ≤ 1) {a b : ℕ} (h : signed32 a ≤ signed32 b) :
    NoLaxer u a b where
  threshold_le := thresholdForAttempt_le hu hu' h
  candidates_sublist _ _ _ _ j :=
    ActiveMatrix.candidates_sublist (thresholdForAttempt_le hu hu' h) rfl j

/-- Up to the largest signed number of 32 bits later attempts are never laxer, and none is laxer than
the base threshold. In general the signed number of an attempt decides: it is the exponent, a larger
one is at least as strict, and an attempt is laxer than the base threshold exactly if it is
negative. -/
theorem thresholds_of_retries {u : K} (hu : 0 < u) (hu' : u ≤ 1) :
    (∀ a b, a ≤ b → b < 2 ^ 31 →
      u ≤ thresholdForAttempt u a ∧ thresholdForAttempt u b ≤ 1 ∧ NoLaxer u a b) ∧
    (∀ a b, signed32 a ≤ signed32 b → NoLaxer u a b) ∧
    ∀ attempt, thresholdForAttempt u attempt = min (u * 10 ^ signed32 attempt) 1 ∧
      (u ≤ thresholdForAttempt u attempt ↔ 0 ≤ signed32 attempt) := by
  refine ⟨fun a b hab hb => ?_, fun a b => noLaxer hu hu', fun attempt => ?_⟩
  · have hsigned : signed32 a ≤ signed32 b := by
      rw [signed32_of_lt hb, signed32_of_lt (hab.trans_lt hb)]
      exact Int.ofNat_le.2 hab
    exact ⟨le_thresholdForAttempt hu hu' (hab.trans_lt hb), thresholdForAttempt_le_one hu' b,
      noLaxer hu hu' hsigned⟩
  · exact ⟨thresholdForAttempt_eq hu' attempt, le_thresholdForAttempt_iff hu hu'⟩

/-- One column with entries of three magnitudes. -/
def magnitudeSample : ActiveMatrix ℚ :=
  .ofSparse (.ofEntries 3 1 fun i _ => #[1, 1 / 5, 1 / 1000][i]?)

/-- At the base threshold two rows of the sample are candidates, on the second attempt one of them
is left, and on the last attempt before the signed number turns negative no other one has joined. -/
theorem thresholds_of_retries_sample :
    let rowsAt (attempt : ℕ) : List ℕ :=
      (magnitudeSample.candidates (thresholdForAttempt (1 / 10) attempt) 0 ⟨1, none, attempt⟩ 0).map
        fun c => c.row
    rowsAt 0 = [0, 1] ∧ rowsAt 1 = [0] ∧ (rowsAt (2 ^ 31 - 1)).Sublist [0] ∧
      NoLaxer (1 / 10 : ℚ) 1 (2 ^ 31 - 1) := by
  intro rowsAt
  obtain ⟨hnumbers, -, -⟩ := thresholds_of_retries (u := (1 / 10 : ℚ)) (by norm_num) (by norm_num)
  have hone : rowsAt 1 = [0] := by decide +kernel
  obtain ⟨-, -, hlast⟩ := hnumbers 1 (2 ^ 31 - 1) (by norm_num) (by norm_num)
  refine ⟨by decide +kernel, hone, ?_, hlast⟩
  rw [← hone]
  exact (hlast.candidates_sublist magnitudeSample 0 1 none 0).map _

/-- One attempt later the threshold falls below the base value, and the smallest entry of the sample
becomes acceptable, which it was not before. -/
theorem retry_overflows :
    (2 ^ 31 - 1 ≤ 2 ^ 31 ∧ 2 ^ 31 < 2 ^ 64) ∧
      ¬(1 / 10 : ℚ) ≤ thresholdForAttempt (1 / 10) (2 ^ 31) ∧
      ¬thresholdForAttempt (1 / 10 : ℚ) (2 ^ 31 - 1) ≤ thresholdForAttempt (1 / 10) (2 ^ 31) ∧
      magnitudeSample.Acceptable (thresholdForAttempt (1 / 10) (2 ^ 31)) 0 2 0 ∧
      ¬magnitudeSample.Acceptable (thresholdForAttempt (1 / 10) (2 ^ 31 - 1)) 0 2 0 := by
  have hbase : (1 / 10 : ℚ) ≤ thresholdForAttempt (1 / 10) (2 ^ 31 - 1) :=
    le_thresholdForAttempt (by norm_num) (by norm_num) (by norm_num)
  have hsigned : signed32 (2 ^ 31) ≤ -2 := by decide +kernel
  have htiny : thresholdForAttempt (1 / 10 : ℚ) (2 ^ 31) ≤ 1 / 1000 :=
    calc thresholdForAttempt (1 / 10 : ℚ) (2 ^ 31)
        = min (1 / 10 * 10 ^ signed32 (2 ^ 31)) 1 := thresholdForAttempt_eq (by norm_num) _
      _ ≤ 1 / 10 * 10 ^ signed32 (2 ^ 31) := min_le_left _ _
      _ ≤ 1 / 10 * 10 ^ (-2 : ℤ) :=
        mul_le_mul_of_nonneg_left (zpow_le_zpow_right₀ (by norm_num) hsigned) (by norm_num)
      _ = 1 / 1000 := by norm_num
  have hlaxer : thresholdForAttempt (1 / 10 : ℚ) (2 ^ 31) < 1 / 10 := htiny.trans_lt (by norm_num)
  have hcolumn : magnitudeSample.columnMax 0 = 1 := by decide +kernel
  have hvalue : magnitudeSample.value 2 0 = 1 / 1000 := by decide +kernel
  refine ⟨by norm_num, hlaxer.not_ge, (hlaxer.trans_le hbase).not_ge, ?_, fun hacceptable => ?_⟩
  · refine ⟨by decide +kernel, Scalar.lt_eq_false_iff.2 ?_, by decide +kernel⟩
    rw [hcolumn, mul_one, hvalue]
    exact htiny.trans (le_abs_self _)
  · have hle := Scalar.lt_eq_false_iff.1 hacceptable.2.1
    rw [hcolumn, mul_one, hvalue] at hle
    exact absurd (hbase.trans hle) (by decide +kernel)

end ReducedSpace
