import Mathlib
import ReducedSpace.Proofs.Basis.CompletePivoting
import ReducedSpace.Proofs.Basis.NaturalOrder
import ReducedSpace.Proofs.Basis.Scaling

/-!
# The dense solver on a multiple of a matrix

The dense elimination keeps multipliers and remaining entries in one matrix. On a multiple the
multipliers of the columns that are done are the same, and everything else is multiplied; each step
compares multiplied entries with one another only, so it finds the same pivot and keeps this up.
-/

namespace ReducedSpace

variable {K : Type} [ExactScalar K] {c : K}

namespace DenseMatrix

/-- The multiple of a matrix that packs `k` steps of an elimination: the multipliers below the
diagonal of the first `k` columns stay as they are. -/
def scaleFrom (k : ℕ) (c : K) (a : DenseMatrix K) : DenseMatrix K :=
  ofFn a.rows a.cols fun i j => if j < k ∧ j < i then a.entry i j else c * a.entry i j

variable (a : DenseMatrix K) {k : ℕ}

@[simp] theorem rows_scaleFrom : (a.scaleFrom k c).rows = a.rows := rfl

@[simp] theorem cols_scaleFrom : (a.scaleFrom k c).cols = a.cols := rfl

/-- The multipliers of finished steps stay, and all other entries are multiplied. -/
theorem entry_scaleFrom (i j : ℕ) :
    (a.scaleFrom k c).entry i j = if j < k ∧ j < i then a.entry i j else c * a.entry i j := by
  rw [scaleFrom, entry_ofFn]
  by_cases h : i < a.rows ∧ j < a.cols
  · rw [if_pos h]
  · have hzero : a.entry i j = 0 := if_neg h
    rw [if_neg h, hzero, mul_zero, ite_self]

/-- Entries from column `k` on are multiplied. -/
theorem entry_scaleFrom_of_le {i j : ℕ} (h : k ≤ j) :
    (a.scaleFrom k c).entry i j = c * a.entry i j := by
  rw [entry_scaleFrom, if_neg fun hj => Nat.not_lt.2 h hj.1]

/-- Rows behind the finished steps may be exchanged before or after the multiplication. -/
theorem swapRows_scaleFrom {p : ℕ} (hp : k ≤ p) :
    (a.scaleFrom k c).swapRows k p = (a.swapRows k p).scaleFrom k c := by
  refine ext_entry rfl rfl fun i j (hi : i < a.rows) (hj : j < a.cols) => ?_
  have hbelow : j < k ∧ j < Permutation.exchange k p i ↔ j < k ∧ j < i := by
    unfold Permutation.exchange
    grind
  rw [entry_scaleFrom (a.swapRows k p), swapRows, swapRows, entry_ofFn, entry_ofFn,
    entry_scaleFrom]
  simp only [hbelow, rows_scaleFrom, cols_scaleFrom, hi, hj, and_self, if_true]

/-- And columns. -/
theorem swapCols_scaleFrom {q : ℕ} (hq : k ≤ q) :
    (a.scaleFrom k c).swapCols k q = (a.swapCols k q).scaleFrom k c := by
  refine ext_entry rfl rfl fun i j (hi : i < a.rows) (hj : j < a.cols) => ?_
  have hbelow : (Permutation.exchange k q j < k ∧ Permutation.exchange k q j < i) ↔
      j < k ∧ j < i := by
    unfold Permutation.exchange
    grind
  rw [entry_scaleFrom (a.swapCols k q), swapCols, swapCols, entry_ofFn, entry_ofFn,
    entry_scaleFrom]
  simp only [hbelow, rows_scaleFrom, cols_scaleFrom, hi, hj, and_self, if_true]

/-- One more step keeps one more column of multipliers: those of the new column are quotients of
multiples, so they join the kept ones. -/
theorem eliminate_scaleFrom (hc : c ≠ 0) :
    (a.scaleFrom k c).eliminate k = (a.eliminate k).scaleFrom (k + 1) c := by
  refine ext_entry rfl rfl fun i j (hi : i < a.rows) (hj : j < a.cols) => ?_
  have hl : (a.scaleFrom k c).entry i k / (a.scaleFrom k c).entry k k =
      a.entry i k / a.entry k k := by
    rw [entry_scaleFrom_of_le a (Nat.le_refl k), entry_scaleFrom_of_le a (Nat.le_refl k),
      mul_div_mul_left _ _ hc]
  rw [entry_eliminate (a.scaleFrom k c) k hi hj, hl,
    entry_scaleFrom (a.eliminate k), entry_eliminate a k hi hj]
  by_cases hdone : i ≤ k ∨ j < k
  · have hiff : j < k + 1 ∧ j < i ↔ j < k ∧ j < i := by omega
    rw [if_pos hdone, if_pos hdone, entry_scaleFrom]
    simp only [hiff]
  · rw [if_neg hdone, if_neg hdone]
    by_cases hjk : j = k
    · rw [if_pos hjk, if_pos hjk, if_pos ⟨by omega, by omega⟩]
    · have hkj : k ≤ j := by omega
      have hrest : ¬(j < k + 1 ∧ j < i) := by omega
      rw [if_neg hjk, if_neg hjk, if_neg hrest, entry_scaleFrom_of_le a hkj,
        entry_scaleFrom_of_le a hkj]
      split
      · rfl
      · ring

end DenseMatrix

/-- Before the first step everything is multiplied. -/
theorem SparseMatrix.toDense_scale (a : SparseMatrix K) :
    (a.scale c).toDense = a.toDense.scaleFrom 0 c := by
  refine DenseMatrix.ext_entry rfl rfl fun i j _ _ => ?_
  rw [DenseMatrix.entry_scaleFrom_of_le _ (Nat.zero_le j), entry_toDense, entry_toDense,
    entry_scale]

namespace PivotedMatrix

/-- The state of the elimination of a multiple after `k` steps. -/
def scaleFrom (k : ℕ) (c : K) (s : PivotedMatrix K) : PivotedMatrix K :=
  { s with matrix := s.matrix.scaleFrom k c }

variable (s : PivotedMatrix K) {k : ℕ}

/-- Remaining entries are multiplied. -/
theorem entry_scaleFrom_of_mem {e : ℕ × ℕ} (he : e ∈ remaining s.matrix k) :
    (s.matrix.scaleFrom k c).entry e.1 e.2 = c * s.matrix.entry e.1 e.2 :=
  s.matrix.entry_scaleFrom_of_le (mem_remaining_iff.1 he).2.1

/-- So is the largest remaining magnitude. -/
theorem largest_scaleFrom : largest (s.matrix.scaleFrom k c) k = |c| * largest s.matrix k := by
  refine List.foldl_rel (r := fun x y => x = |c| * y) (mul_zero _).symm fun e he x y hxy => ?_
  rw [s.entry_scaleFrom_of_mem he, Scalar.abs_mul_left, hxy]
  exact (mul_max_of_nonneg _ _ (abs_nonneg c)).symm

/-- The same entry is the best pivot. -/
theorem bestPivot_scaleFrom (hc : c ≠ 0) (hints : AnalysisHints) (bound : K) :
    (s.scaleFrom k c).bestPivot hints (|c| * bound) k =
      (s.bestPivot hints bound k).map fun b => { b with magnitude := |c| * b.magnitude } := by
  refine List.foldl_rel
    (r := fun x y : Option (DensePivot K) =>
      x = y.map fun b => { b with magnitude := |c| * b.magnitude })
    rfl fun e he x y hxy => ?_
  have hentry : (s.scaleFrom k c).matrix.entry e.1 e.2 = c * s.matrix.entry e.1 e.2 :=
    s.entry_scaleFrom_of_mem he
  have hbetter (preferred : Bool) (magnitude : K) (b : Option (DensePivot K)) :
      better preferred (|c| * magnitude)
          (b.map fun b => { b with magnitude := |c| * b.magnitude }) =
        better preferred magnitude b := by
    cases b with
    | none => rfl
    | some b =>
      simp only [better, Option.map_some, Scalar.lt_mul_left (abs_pos.2 hc)]
  dsimp only
  rw [hentry, Scalar.abs_mul_left, Scalar.lt_mul_left (abs_pos.2 hc), hxy, hbetter]
  show (if _ then _ else if better (hints.isPreferred (s.rowPerm.old e.1)) _ _ then _ else _) = _
  split
  · rfl
  · split <;> rfl

/-- A pivot step turns multiplied entries into multipliers, which are as before. -/
theorem pivot_scaleFrom (hc : c ≠ 0) {p q : ℕ} (hp : k ≤ p) (hq : k ≤ q) :
    (s.scaleFrom k c).pivot k p q = (s.pivot k p q).scaleFrom (k + 1) c := by
  rw [pivot, pivot, scaleFrom, scaleFrom]
  dsimp only
  rw [DenseMatrix.swapRows_scaleFrom _ hp, DenseMatrix.swapCols_scaleFrom _ hq,
    DenseMatrix.eliminate_scaleFrom _ hc]

/-- The step of a multiple takes the same pivot. -/
theorem step_scaleFrom (hc : c ≠ 0) (hints : AnalysisHints) (u absTol : K) :
    (s.scaleFrom k c).step hints u (|c| * absTol) k =
      (s.step hints u absTol k).map (scaleFrom (k + 1) c) := by
  have hlargest : largest (s.scaleFrom k c).matrix k = |c| * largest s.matrix k :=
    s.largest_scaleFrom
  rw [step, step, hlargest, Scalar.le_mul_left (abs_pos.2 hc),
    Scalar.isZero_mul_left (abs_pos.2 hc).ne', mul_left_comm, s.bestPivot_scaleFrom hc]
  split
  · rfl
  · cases hbest : s.bestPivot hints (u * largest s.matrix k) k with
    | none => rfl
    | some best =>
      obtain ⟨⟨hrow, -⟩, hcol, -⟩ := mem_remaining_iff.1 (mem_of_bestPivot hbest)
      exact congrArg some (s.pivot_scaleFrom hc hrow hcol)

/-- The elimination of a multiple takes the same pivots. -/
theorem run_scaleFrom (hc : c ≠ 0) (hints : AnalysisHints) (u absTol : K) (steps : ℕ) :
    run hints u (|c| * absTol) steps k (s.scaleFrom k c) =
      ((run hints u absTol steps k s).1,
        (run hints u absTol steps k s).2.scaleFrom (run hints u absTol steps k s).1 c) := by
  induction steps generalizing k s with
  | zero => rfl
  | succ steps ih =>
    rw [run, run, s.step_scaleFrom hc]
    cases s.step hints u absTol k with
    | none => rfl
    | some t => exact ih t

end PivotedMatrix

namespace DenseLu

/-- The factors of a multiple: `L` is the same, and `U` is multiplied. -/
def scale (c : K) (f : DenseLu K) : DenseLu K := { f with packed := f.packed.scaleFrom f.dim c }

variable (hc : c ≠ 0)
include hc

/-- The row exchange of a refactorization finds the same row. -/
theorem pivotRow_scaleFrom (a : DenseMatrix K) (k : ℕ) :
    pivotRow (a.scaleFrom k c) k = ((pivotRow a k).1, |c| * (pivotRow a k).2) := by
  refine List.foldl_rel (r := fun x y : ℕ × K => x = (y.1, |c| * y.2)) ?_ fun i _ x y hxy => ?_
  · rw [a.entry_scaleFrom_of_le (Nat.le_refl k), Scalar.abs_mul_left]
  · rw [a.entry_scaleFrom_of_le (Nat.le_refl k), Scalar.abs_mul_left, hxy]
    dsimp only
    rw [Scalar.lt_mul_left (abs_pos.2 hc)]
    split <;> rfl

/-- The remaining steps of a refactorization find the same swaps, or fail at the same pivot with a
multiple of its value. -/
theorem factorFrom_scaleFrom (tol : K) {steps k : ℕ} {a : DenseMatrix K}
    (hsteps : k + steps = a.rows) (swaps : Array ℕ) :
    Corresponds (fun e e' => e' = e.scale c) (fun f f' => f' = f.scale c)
      (factorFrom tol steps k a swaps)
      (factorFrom (|c| * tol) steps k (a.scaleFrom k c) swaps) := by
  induction steps generalizing k a swaps with
  | zero =>
    obtain rfl : k = a.rows := hsteps
    exact .ok rfl
  | succ steps ih =>
    have hk : k < a.rows := by omega
    have hrow := (pivotRow_spec a hk).1
    rw [factorFrom, factorFrom, pivotRow_scaleFrom hc]
    dsimp only
    rw [Scalar.lt_mul_left (abs_pos.2 hc), a.swapRows_scaleFrom hrow,
      DenseMatrix.eliminate_scaleFrom _ hc]
    split
    · have hnext : k + 1 + steps = ((a.swapRows k (pivotRow a k).1).eliminate k).rows :=
        (Nat.add_right_comm k 1 steps).trans hsteps
      exact ih hnext _
    · exact .error rfl

/-- So does the whole refactorization. -/
theorem factor_scaleFrom (a : DenseMatrix K) (tol : K) :
    Corresponds (fun e e' => e' = e.scale c) (fun f f' => f' = f.scale c) (factor a tol)
      (factor (a.scaleFrom 0 c) (|c| * tol)) := by
  rw [factor, factor, DenseMatrix.rows_scaleFrom, DenseMatrix.cols_scaleFrom]
  split
  · exact factorFrom_scaleFrom hc tol (Nat.zero_add _) #[]
  · exact .error rfl

end DenseLu

end ReducedSpace
