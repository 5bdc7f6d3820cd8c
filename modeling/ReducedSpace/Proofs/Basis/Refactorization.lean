import Mathlib
import ReducedSpace.Proofs.Basis.Exactness
import ReducedSpace.Proofs.Exact.Minors

/-!
# When a refactorization succeeds

A refactorization does not search. The sparse solver takes the diagonal as it comes, so in exact
arithmetic and without a tolerance it stops at the first leading minor that vanishes. The dense
solver exchanges rows and stops at the first column that depends on those before it. A block that is
nonsingular can therefore be refused by the one solver and be factored by the other. A block of
another size than the structure is refused by both.
-/

namespace ReducedSpace

open Elimination

variable {K : Type} [ExactScalar K]

/-- An answer that is a success under one condition, and otherwise the failure in the step that
another condition singles out. -/
structure SettledBy {B : Type} (answer : Except (SolverError K) B) (Regular : Prop)
    (Stops : ℕ → Prop) : Prop where
  ok_iff : (∃ b, answer = .ok b) ↔ Regular
  error_iff : ∀ e, answer = .error e ↔ ∃ k, Stops k ∧ e = .numericallySingular k 0

theorem settledBy_of_outcome {B : Type} {answer : Except (SolverError K) B} {Regular : Prop}
    {Stops : ℕ → Prop}
    (houtcome : ((∃ b, answer = .ok b) ∧ Regular) ∨
      ∃ k, Stops k ∧ answer = .error (.numericallySingular k 0))
    (hexclusive : Regular → ∀ k, ¬ Stops k) (hunique : ∀ k l, Stops k → Stops l → k = l) :
    SettledBy answer Regular Stops := by
  rcases houtcome with ⟨⟨b, rfl⟩, hregular⟩ | ⟨k, hk, rfl⟩
  · refine ⟨⟨fun _ => hregular, fun _ => ⟨b, rfl⟩⟩, fun e => ⟨fun h => (by cases h), ?_⟩⟩
    rintro ⟨k, hk, -⟩
    exact absurd hk (hexclusive hregular k)
  · refine ⟨⟨fun ⟨b, h⟩ => (by cases h), fun h => absurd hk (hexclusive h k)⟩, fun e => ⟨?_, ?_⟩⟩
    · intro h
      cases h
      exact ⟨k, hk, rfl⟩
    · rintro ⟨l, hl, rfl⟩
      rw [hunique k l hk hl]

/-- A success that is put into another form is settled by the same conditions. -/
theorem SettledBy.map {B C : Type} {answer : Except (SolverError K) B} {Regular : Prop}
    {Stops : ℕ → Prop} (h : SettledBy answer Regular Stops) (f : B → C) :
    SettledBy (answer.map f) Regular Stops := by
  cases answer with
  | ok b => exact ⟨⟨fun _ => h.ok_iff.1 ⟨b, rfl⟩, fun _ => ⟨f b, rfl⟩⟩, fun e =>
      ⟨fun hf => (by cases hf), fun hs => (by cases (h.error_iff e).2 hs)⟩⟩
  | error d =>
    refine ⟨⟨fun ⟨c, hc⟩ => (by cases hc), fun hr => ?_⟩, fun e => ⟨fun hf => ?_, fun hs => ?_⟩⟩
    · obtain ⟨b, hb⟩ := h.ok_iff.2 hr
      cases hb
    · cases hf
      exact (h.error_iff d).1 rfl
    · cases (h.error_iff e).2 hs
      rfl

namespace SparseLu

variable {block : SparseMatrix K}

/-- A factorization in natural order is settled by the leading minors. -/
theorem factor_settled (hsquare : block.cols = block.rows) :
    SettledBy (factor 0 block) (∀ k, k ≤ block.rows → leadingMinor block.entry k ≠ 0)
      fun k => k < block.rows ∧ FirstZeroMinor block.entry k := by
  refine settledBy_of_outcome ?_ (fun h k ⟨hk, hfirst⟩ => h (k + 1) hk hfirst.eq_zero)
    fun k l hk hl => hk.2.unique hl.2
  rcases factor_outcome (rejectsZeros_of_nonneg le_rfl block) hsquare with
    ⟨f, hf, hrecords⟩ | ⟨k, hk, hpivots, hle, herror⟩
  · exact .inl ⟨⟨f, hf⟩, naturalPivots_iff_leadingMinor_ne_zero.1 hrecords.pivots⟩
  · rw [zero_mul, abs_nonpos_iff] at hle
    rw [hle, abs_zero] at herror
    exact .inr ⟨k, ⟨hk, firstZeroMinor_iff.2 ⟨hpivots, hle⟩⟩, herror⟩

end SparseLu

namespace DenseLu

variable {a : ℕ → ℕ → K} {n k : ℕ}

/-- If all candidates for a pivot vanish, the rank does not grow with the column of the pivot. -/
theorem StopsAt.firstDependentColumn (h : StopsAt a n k 0) : FirstDependentColumn a n k := by
  obtain ⟨es, hes, hpivots, hzero⟩ := h.exists_exchanges
  have hrank : ∀ w, k ≤ w → w ≤ k + 1 → (block n w a).rank = k := by
    intro w hkw hwk
    refine hpivots.rank_eq (g := fun j => j) (Nat.le_of_lt h.lt) hkw (fun i hi => source_lt hes hi)
      (fun j hj => hj) (fun i hi => ?_) (fun j hj => ⟨j, hj, rfl⟩) fun i j hki hi hkj hj => ?_
    · exact ⟨source es.reverse i, source_lt (fun e he => hes e (List.mem_reverse.1 he)) hi,
        source_source_reverse es i⟩
    · have hj : j = k := by omega
      rw [hj]
      exact abs_nonpos_iff.1 (hzero i hki hi)
  constructor
  · exact linearIndependent_leadingColumns_iff.2 (hrank k le_rfl (Nat.le_succ k))
  · rw [linearIndependent_leadingColumns_iff, hrank (k + 1) (Nat.le_succ k) le_rfl]
    exact Nat.ne_of_lt (Nat.lt_succ_self k)

/-- A factorization with partial pivoting is settled by the columns. -/
theorem factor_settled {w : DenseMatrix K} (hsquare : w.cols = w.rows) :
    SettledBy (factor w 0) (IsUnit (block w.rows w.rows w.entry))
      fun k => k < w.rows ∧ FirstDependentColumn w.entry w.rows k := by
  have hcolumns : IsUnit (block w.rows w.rows w.entry) →
      LinearIndependent K (leadingColumns w.entry w.rows w.rows) := fun h =>
    linearIndependent_leadingColumns_iff.2 (rank_leading_columns le_rfl h)
  refine settledBy_of_outcome ?_ (fun h k ⟨hk, hfirst⟩ => hfirst.dependent
    (linearIndependent_leadingColumns_mono (hcolumns h) hk)) fun k l hk hl => hk.2.unique hl.2
  rcases factor_outcome le_rfl hsquare with
    ⟨f, hf, hfactors⟩ | ⟨k, bound, hstops, hnonneg, hle, herror⟩
  · exact .inl ⟨⟨f, hf⟩, hfactors.inverts.isUnit⟩
  · rw [le_antisymm hle hnonneg] at hstops herror
    exact .inr ⟨k, ⟨hstops.lt, hstops.firstDependentColumn⟩, herror⟩

end DenseLu

/-- In exact arithmetic and without a tolerance, a sparse refactorization succeeds exactly if all
leading minors of the block are nonzero, and otherwise reports the first one that is zero. A dense
one succeeds exactly if the block is nonsingular, and otherwise reports the first column that
depends on those before it. Both refuse a block of another size. -/
theorem refactor_answers (b : SparseMatrix K) :
    (∀ (solver : MarkowitzSolver K) (symbolic : MarkowitzStructure),
      (¬ (b.rows = symbolic.dim ∧ b.cols = symbolic.dim) → solver.refactor b symbolic =
        .error (.dimensionMismatch symbolic.dim (max b.rows b.cols))) ∧
      (b.rows = symbolic.dim → b.cols = symbolic.dim → solver.refactorTol = 0 →
        SettledBy (solver.refactor b symbolic)
          (∀ k, k ≤ symbolic.dim → leadingMinor b.entry k ≠ 0)
          fun k => k < symbolic.dim ∧ FirstZeroMinor b.entry k)) ∧
    ∀ (solver : DenseSolver K) (symbolic : DenseStructure),
      (¬ (b.rows = symbolic.dim ∧ b.cols = symbolic.dim) → solver.refactor b symbolic =
        .error (.dimensionMismatch symbolic.dim (max b.rows b.cols))) ∧
      (b.rows = symbolic.dim → b.cols = symbolic.dim → solver.refactorTol = 0 →
        SettledBy (solver.refactor b symbolic) (IsUnit (block symbolic.dim symbolic.dim b.entry))
          fun k => k < symbolic.dim ∧ FirstDependentColumn b.entry symbolic.dim k) := by
  refine ⟨fun solver symbolic => ⟨fun hsize => if_neg hsize, fun hrows hcols htol => ?_⟩,
    fun solver symbolic => ⟨fun hsize => if_neg hsize, fun hrows hcols htol => ?_⟩⟩
  · have hsettled := SparseLu.factor_settled (hcols.trans hrows.symm)
    rw [hrows] at hsettled
    rw [MarkowitzSolver.refactor, if_pos ⟨hrows, hcols⟩, htol]
    exact hsettled.map _
  · have hsettled := DenseLu.factor_settled (w := b.toDense) (hcols.trans hrows.symm)
    have hentry : b.toDense.entry = b.entry := by
      ext i j
      exact b.entry_toDense i j
    have hrows' : b.toDense.rows = symbolic.dim := hrows
    rw [hentry, hrows'] at hsettled
    rw [DenseSolver.refactor, if_pos ⟨hrows, hcols⟩, htol, zero_mul]
    exact hsettled.map _

/-- The second row starts with the double of the first one, so the second leading minor vanishes. -/
def stalledSample : SparseMatrix Rat :=
  .ofEntries 3 3 fun i j =>
    ((#[#[some 2, some 1, none], #[some 4, some 2, some 1], #[none, some 3, some 1]] :
      Array (Array (Option Rat))).getD i #[]).getD j none

theorem firstZeroMinor_stalledSample : FirstZeroMinor stalledSample.entry 1 := by
  constructor
  · intro l hl
    have hcases : l = 0 ∨ l = 1 := by omega
    rcases hcases with rfl | rfl
    · simp
    · rw [leadingMinor, Matrix.det_fin_one]
      show stalledSample.entry 0 0 ≠ 0
      decide +kernel
  · rw [leadingMinor, Matrix.det_fin_two]
    show stalledSample.entry 0 0 * stalledSample.entry 1 1 -
      stalledSample.entry 0 1 * stalledSample.entry 1 0 = 0
    decide +kernel

theorem isUnit_stalledSample : IsUnit (block 3 3 stalledSample.entry) := by
  rw [Matrix.isUnit_iff_isUnit_det, Matrix.det_fin_three, isUnit_iff_ne_zero]
  show stalledSample.entry 0 0 * stalledSample.entry 1 1 * stalledSample.entry 2 2 -
    stalledSample.entry 0 0 * stalledSample.entry 1 2 * stalledSample.entry 2 1 -
    stalledSample.entry 0 1 * stalledSample.entry 1 0 * stalledSample.entry 2 2 +
    stalledSample.entry 0 1 * stalledSample.entry 1 2 * stalledSample.entry 2 0 +
    stalledSample.entry 0 2 * stalledSample.entry 1 0 * stalledSample.entry 2 1 -
    stalledSample.entry 0 2 * stalledSample.entry 1 1 * stalledSample.entry 2 0 ≠ 0
  decide +kernel

/-- The block is nonsingular. The sparse solver stops at its second pivot, the dense one factors it,
and both refuse it in the place of a smaller block. -/
theorem refactor_answers_sample :
    stalledSample.rows = 3 ∧ stalledSample.cols = 3 ∧
      (⟨1 / 10, 0, 0, 4⟩ : MarkowitzSolver Rat).refactor stalledSample ⟨3, 7, 7⟩ =
        .error (.numericallySingular 1 0) ∧
      (∃ b, (⟨1 / 10, 0, 0⟩ : DenseSolver Rat).refactor stalledSample ⟨3⟩ = .ok b) ∧
      (⟨1 / 10, 0, 0⟩ : DenseSolver Rat).refactor stalledSample ⟨2⟩ =
        .error (.dimensionMismatch 2 3) := by
  obtain ⟨hsparse, hdense⟩ := refactor_answers stalledSample
  refine ⟨rfl, rfl, ?_, ?_, (hdense _ ⟨2⟩).1 (by decide)⟩
  · exact (((hsparse _ ⟨3, 7, 7⟩).2 rfl rfl rfl).error_iff _).2
      ⟨1, ⟨by decide, firstZeroMinor_stalledSample⟩, rfl⟩
  · exact ((hdense _ ⟨3⟩).2 rfl rfl rfl).ok_iff.2 isUnit_stalledSample

end ReducedSpace
