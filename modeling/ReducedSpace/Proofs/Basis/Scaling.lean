import Mathlib
import ReducedSpace.Proofs.Exact.Scaling
import ReducedSpace.Proofs.Outcome
import ReducedSpace.Basis.Chosen

/-!
# The sparse solver on a multiple of a matrix

Every comparison of the sparse solver is relative: tolerances are multiples of the largest entry,
candidates are compared with the largest of their column and with one another. So the elimination of
a multiple takes the same pivots as that of the matrix itself, in exact arithmetic and for every
factor that is not zero. Multipliers are quotients and stay the same, and `U` is multiplied.
-/

namespace ReducedSpace

variable {K : Type} [ExactScalar K] {c : K}

/-- A positive factor on both sides changes no comparison. -/
theorem Scalar.lt_mul_left {s : K} (hs : 0 < s) (x y : K) :
    Scalar.lt (s * x) (s * y) = Scalar.lt x y := by
  rw [Bool.eq_iff_iff, Scalar.lt_iff, Scalar.lt_iff, mul_lt_mul_iff_right₀ hs]

/-- A positive factor keeps comparisons. -/
theorem Scalar.le_mul_left {s : K} (hs : 0 < s) (x y : K) :
    Scalar.le (s * x) (s * y) = Scalar.le x y := by
  rw [Bool.eq_iff_iff, Scalar.le_iff, Scalar.le_iff, mul_le_mul_iff_right₀ hs]

/-- A factor other than zero keeps zeros and creates none. -/
theorem Scalar.isZero_mul_left (hc : c ≠ 0) (x : K) : Scalar.isZero (c * x) = Scalar.isZero x := by
  rw [Bool.eq_iff_iff, Scalar.isZero_iff, Scalar.isZero_iff, mul_eq_zero, or_iff_right hc]

/-- The magnitude of a multiple is the multiple of the magnitude. -/
theorem Scalar.abs_mul_left (x : K) : Scalar.abs (c * x) = |c| * Scalar.abs x := abs_mul c x

namespace ActiveMatrix

/-- The multiple of an active matrix. -/
def scale (c : K) (a : ActiveMatrix K) : ActiveMatrix K :=
  { a with rows := a.rows.map fun r => r.map fun v => c * v }

variable (a : ActiveMatrix K) (i j : ℕ)

/-- A row of a multiple is a multiple of the row. -/
theorem row_scale : (a.scale c).row i = (a.row i).map fun v => c * v := by
  show (a.rows.map _).getD i .empty = (a.rows.getD i .empty).map _
  rw [Array.getD_eq_getD_getElem?, Array.getD_eq_getD_getElem?, Array.getElem?_map]
  cases a.rows[i]? with
  | none => rfl
  | some r => rfl

/-- So is every value. -/
theorem value_scale : (a.scale c).value i j = c * a.value i j := by
  rw [value, value, row_scale, SparseVec.find?_map]
  cases (a.row i).find? j with
  | none => exact (mul_zero c).symm
  | some v => rfl

omit [ExactScalar K] in
private theorem ext_rows {a b : ActiveMatrix K} (hrows : a.rows = b.rows)
    (hcols : a.cols = b.cols) : a = b := by
  cases a
  cases b
  simp_all

/-- Changing a row and multiplying all of them commute. -/
private theorem modify_scale (change change' : SparseVec K → SparseVec K)
    (h : ∀ r : SparseVec K, change' (r.map fun v => c * v) = (change r).map fun v => c * v) :
    (a.scale c).rows.modify i change' =
      (a.rows.modify i change).map fun r => r.map fun v => c * v :=
  Array.modify_map (SparseVec.map fun v => c * v) change change' h a.rows i

/-- Entries may be erased before or after the multiplication. -/
theorem erase_scale : (a.scale c).erase i j = (a.erase i j).scale c :=
  ext_rows (a.modify_scale i (·.erase j) (·.erase j) fun r => r.erase_map _ j) rfl

/-- And blanked. -/
theorem blank_scale : (a.scale c).blank i j = (a.blank i j).scale c :=
  ext_rows (a.modify_scale i (·.erase j) (·.erase j) fun r => r.erase_map _ j) rfl

/-- A multiplied value is inserted into the multiple. -/
theorem insert_scale (v : K) : (a.scale c).insert i j (c * v) = (a.insert i j v).scale c :=
  ext_rows
    (a.modify_scale i (·.insert j v) (·.insert j (c * v)) fun r => r.insert_map (c * ·) j v) rfl

/-- Rows may be cleared before or after the multiplication. -/
theorem clearRow_scale : (a.scale c).clearRow i = (a.clearRow i).scale c := by
  rw [clearRow, clearRow, row_scale, SparseVec.indices_map]
  exact List.foldl_hom (scale c) fun a j => a.erase_scale i j

/-- What is not zero stays stored. -/
private theorem nonzero_scale (hc : c ≠ 0) (v : Option K) :
    (v.map fun v => c * v).filter (fun v => !Scalar.isZero v) =
      (v.filter fun v => !Scalar.isZero v).map fun v => c * v := by
  cases v with
  | none => rfl
  | some v =>
    rw [Option.map_some, Option.filter_some, Option.filter_some, Scalar.isZero_mul_left hc]
    split <;> rfl

/-- The working copy of a multiple is the multiple of the working copy. -/
theorem ofSparse_scale (hc : c ≠ 0) (a : SparseMatrix K) :
    ofSparse (a.scale c) = (ofSparse a).scale c := by
  refine ext_rows ?_ ?_
  · simp only [ofSparse, scale, map_tabulate, nonzero_scale hc, SparseVec.map_ofFn,
      SparseMatrix.find?_scale, SparseMatrix.rows_scale, SparseMatrix.cols_scale]
  · simp only [ofSparse, scale, nonzero_scale hc, Option.map_map, SparseMatrix.find?_scale,
      SparseMatrix.rows_scale, SparseMatrix.cols_scale]

section Elimination

variable (hc : c ≠ 0)
include hc

/-- A multiplied value is stored in the multiple, and the same values are dropped as zeros. -/
theorem store_scale (v : K) : (a.scale c).store i j (c * v) = (a.store i j v).scale c := by
  rw [store, store, Scalar.isZero_mul_left hc, erase_scale, insert_scale]
  split <;> rfl

/-- The multiplier is the same, and the row loses the same multiple of the pivot row. -/
theorem eliminateRow_scale (pivotRow : SparseVec K) (pivot : K) (q : ℕ) :
    eliminateRow (pivotRow.map fun v => c * v) (c * pivot) q (a.scale c) i =
      (eliminateRow pivotRow pivot q a i).scale c := by
  rw [eliminateRow, eliminateRow, value_scale, mul_div_mul_left _ _ hc, erase_scale]
  split
  · rfl
  · show (pivotRow.entries.map _).foldl _ _ = _
    rw [List.foldl_map]
    refine List.foldl_hom (scale c) fun a e => ?_
    split
    · rfl
    · rw [value_scale, mul_left_comm, ← mul_sub, a.store_scale i e.1 hc]

/-- A step of the elimination commutes with the multiplication, as its multipliers are quotients. -/
theorem eliminate_scale (p q : ℕ) : (a.scale c).eliminate p q = (a.eliminate p q).scale c := by
  rw [eliminate, eliminate, row_scale, value_scale, clearRow_scale]
  exact List.foldl_hom (scale c) fun a i => a.eliminateRow_scale i hc _ _ q

end Elimination

end ActiveMatrix

namespace PivotCandidate

/-- The same entry with a multiple of its magnitude. -/
def scale (s : K) (d : PivotCandidate K) : PivotCandidate K :=
  { d with magnitude := s * d.magnitude }

variable {s : K} (hs : 0 < s)
include hs

/-- Candidates with multiplied magnitudes compare as before. -/
theorem beats_scale (d best : PivotCandidate K) :
    (d.scale s).beats (best.scale s) = d.beats best := by
  have hlt : Scalar.lt (best.scale s).magnitude (d.scale s).magnitude =
      Scalar.lt best.magnitude d.magnitude := Scalar.lt_mul_left hs _ _
  rw [beats, beats, hlt]
  rfl

/-- So the same one of two candidates is kept. -/
theorem improve_scale (best : Option (PivotCandidate K)) (d : PivotCandidate K) :
    improve (best.map (scale s)) (d.scale s) = (improve best d).map (scale s) := by
  cases best with
  | none => rfl
  | some b =>
    simp only [improve, Option.map_some, beats_scale hs]
    split <;> rfl

end PivotCandidate

namespace ActiveMatrix

variable (a : ActiveMatrix K)

/-- The largest magnitude of a column is multiplied. -/
theorem columnMax_scale (j : ℕ) : (a.scale c).columnMax j = |c| * a.columnMax j := by
  rw [columnMax, columnMax]
  conv_lhs => rw [← mul_zero |c|]
  refine List.foldl_hom (|c| * ·) fun x i => ?_
  rw [value_scale, Scalar.abs_mul_left]
  exact (mul_max_of_nonneg _ _ (abs_nonneg c)).symm

section Search

variable (hc : c ≠ 0) (u absTol : K) (hints : AnalysisHints)
include hc

/-- The same entries are candidates, with multiples of their magnitudes. -/
theorem candidates_scale (j : ℕ) :
    (a.scale c).candidates u (|c| * absTol) hints j =
      (a.candidates u absTol hints j).map (.scale |c|) := by
  have hacceptable (i : ℕ) :
      (!(Scalar.lt (|c| * Scalar.abs (a.value i j)) (u * (|c| * a.columnMax j)) ||
        Scalar.le (|c| * Scalar.abs (a.value i j)) (|c| * absTol))) =
      !(Scalar.lt (Scalar.abs (a.value i j)) (u * a.columnMax j) ||
        Scalar.le (Scalar.abs (a.value i j)) absTol) := by
    rw [mul_left_comm, Scalar.lt_mul_left (abs_pos.2 hc), Scalar.le_mul_left (abs_pos.2 hc)]
  have hcolumn : (a.scale c).column j = a.column j := rfl
  simp only [candidates, columnMax_scale, value_scale, Scalar.abs_mul_left, hacceptable, hcolumn,
    row_scale, SparseVec.size_map, List.map_map]
  rfl

/-- A scan of a multiple stops at the same column with the same candidate. -/
theorem scan_scale (order : List ℕ) (limit : ℕ) (best : Option (PivotCandidate K)) :
    (a.scale c).scan u (|c| * absTol) hints order limit (best.map (.scale |c|)) =
      (a.scan u absTol hints order limit best).map (.scale |c|) := by
  induction order generalizing limit best with
  | nil => rfl
  | cons j rest ih =>
    rw [scan, scan, columnMax_scale, Scalar.le_mul_left (abs_pos.2 hc), candidates_scale a hc]
    cases a.candidates u absTol hints j with
    | nil =>
      rw [List.map_nil]
      simp only [ih]
      split <;> rfl
    | cons d ds =>
      have himprove : ((d :: ds).map (.scale |c|)).foldl PivotCandidate.improve
          (best.map (.scale |c|)) =
            ((d :: ds).foldl PivotCandidate.improve best).map (.scale |c|) := by
        rw [List.foldl_map]
        exact List.foldl_hom _ fun best d => PivotCandidate.improve_scale (abs_pos.2 hc) best d
      rw [List.map_cons] at himprove ⊢
      simp only [himprove, ih]
      split
      · rfl
      · split <;> rfl

/-- A limited search of a multiple finds the same pivot. -/
theorem search_scale (limit : ℕ) :
    (a.scale c).search u (|c| * absTol) hints limit =
      (a.search u absTol hints limit).map (.scale |c|) := by
  have horder : (a.scale c).scanOrder = a.scanOrder := by
    simp only [scanOrder, scale, Array.size_map]
  rw [search, search, horder]
  exact a.scan_scale hc u absTol hints _ limit none

/-- And so does the search with all its attempts. -/
theorem choosePivot_scale (limit : ℕ) :
    (a.scale c).choosePivot u (|c| * absTol) hints limit =
      (a.choosePivot u absTol hints limit).map (.scale |c|) := by
  rw [choosePivot, choosePivot, a.search_scale hc, a.search_scale hc]
  cases a.search u absTol hints limit with
  | none => rfl
  | some d => rfl

/-- The elimination of a multiple takes the same pivots. -/
theorem pivots_scale (limit steps : ℕ) :
    pivots u (|c| * absTol) hints limit steps (a.scale c) =
      pivots u absTol hints limit steps a := by
  induction steps generalizing a with
  | zero => rfl
  | succ steps ih =>
    rw [pivots, pivots, a.choosePivot_scale hc]
    cases a.choosePivot u absTol hints limit with
    | none => rfl
    | some d =>
      show (d.row, d.col) :: pivots _ _ _ _ _ ((a.scale c).eliminate d.row d.col) = _
      rw [eliminate_scale a hc, ih]

end Search

end ActiveMatrix

/-- The error for a multiple of a matrix: the size of a vanishing pivot is multiplied. -/
def SolverError.scale (c : K) : SolverError K → SolverError K
  | .numericallySingular pivot value => .numericallySingular pivot (|c| * value)
  | e => e

namespace SparseLu

/-- The factors of a multiple: `L` is the same, and `U` is multiplied. -/
def scale (c : K) (f : SparseLu K) : SparseLu K where
  lowerCols := f.lowerCols
  upperRows := f.upperRows.map fun r => r.map fun v => c * v
  diagonal := f.diagonal.map fun v => c * v

variable (f : SparseLu K)

/-- A multiplied row of `U` and its pivot are appended to the multiplied factors. -/
theorem push_scale (lower upper : SparseVec K) (pivot : K) :
    (f.scale c).push lower (upper.map fun v => c * v) (c * pivot) =
      (f.push lower upper pivot).scale c := by
  simp only [push, scale, Array.map_push]

/-- The factors of a multiple store as many values. -/
theorem storedCount_scale : (f.scale c).storedCount = f.storedCount := by
  have hupper : (f.scale c).upperRows.foldl (fun n v => n + v.size) 0 =
      f.upperRows.foldl (fun n v => n + v.size) 0 := by
    show (f.upperRows.map _).foldl _ 0 = _
    rw [Array.foldl_map]
    simp only [SparseVec.size_map]
  have hdim : (f.scale c).dim = f.dim := Array.size_map
  rw [storedCount, storedCount, hdim]
  exact congrArg (f.dim + f.lowerCols.foldl (fun n v => n + v.size) 0 + ·) hupper

section Elimination

variable (hc : c ≠ 0)
include hc

/-- A multiplied value updates the multiple. -/
theorem update_scale (a : ActiveMatrix K) (i j : ℕ) (v : K) :
    update (a.scale c) i j (c * v) = (update a i j v).scale c := by
  rw [update, update, Scalar.isZero_mul_left hc, a.blank_scale, a.insert_scale]
  split <;> rfl

/-- Eliminating a row of a multiple records the same multiplier. -/
theorem eliminateRow_scale (upper : SparseVec K) (pivot : K) (k : ℕ)
    (s : ActiveMatrix K × SparseVec K) (i : ℕ) :
    eliminateRow (upper.map fun v => c * v) (c * pivot) k (s.1.scale c, s.2) i =
      ((eliminateRow upper pivot k s i).1.scale c, (eliminateRow upper pivot k s i).2) := by
  obtain ⟨a, lower⟩ := s
  have hfold (l : K) (a : ActiveMatrix K) :
      (upper.map fun v => c * v).entries.foldl
          (fun a e => update a i e.1 (a.value i e.1 - l * e.2)) (a.scale c) =
        (upper.entries.foldl (fun a e => update a i e.1 (a.value i e.1 - l * e.2)) a).scale c := by
    show (upper.entries.map _).foldl _ _ = _
    rw [List.foldl_map]
    refine List.foldl_hom (ActiveMatrix.scale c) fun a e => ?_
    rw [ActiveMatrix.value_scale, mul_left_comm, ← mul_sub, update_scale hc]
  simp only [eliminateRow, ActiveMatrix.value_scale, mul_div_mul_left _ _ hc,
    ActiveMatrix.blank_scale, hfold]
  split <;> rfl

/-- The same holds for any number of rows. -/
theorem foldl_eliminateRow_scale (upper : SparseVec K) (pivot : K) (k : ℕ)
    (s : ActiveMatrix K × SparseVec K) (l : List ℕ) :
    l.foldl (eliminateRow (upper.map fun v => c * v) (c * pivot) k) (s.1.scale c, s.2) =
      ((l.foldl (eliminateRow upper pivot k) s).1.scale c,
        (l.foldl (eliminateRow upper pivot k) s).2) :=
  List.foldl_hom (fun s : ActiveMatrix K × SparseVec K => (s.1.scale c, s.2))
    fun s i => eliminateRow_scale hc upper pivot k s i

/-- The factorization of a multiple fails at the same pivot, or has the multiple of the factors. -/
theorem factorFrom_scale (tol : K) (steps k : ℕ) (a : ActiveMatrix K) (f : SparseLu K) :
    Corresponds (fun e e' => e' = e.scale c) (fun f f' => f' = f.scale c)
      (factorFrom tol steps k a f) (factorFrom (|c| * tol) steps k (a.scale c) (f.scale c)) := by
  induction steps generalizing k a f with
  | zero => exact .ok rfl
  | succ steps ih =>
    have hbelow (l : List ℕ) (upper : SparseVec K) (pivot : K) :=
      foldl_eliminateRow_scale hc upper pivot k (a, .empty) l
    rw [factorFrom, factorFrom]
    simp only [ActiveMatrix.value_scale, ActiveMatrix.row_scale, SparseVec.erase_map,
      Scalar.abs_mul_left, Scalar.lt_mul_left (abs_pos.2 hc)]
    split
    · have hcolumn : (a.scale c).column k = a.column k := rfl
      rw [hcolumn, hbelow, push_scale]
      exact ih _ _ _
    · exact .error rfl

/-- The factors of a multiple are those of the block with `U` multiplied, and it fails at the same
pivot with a multiple of its value. -/
theorem factor_scale (refactorTol : K) (block : SparseMatrix K) :
    Corresponds (fun e e' => e' = e.scale c) (fun f f' => f' = f.scale c)
      (factor refactorTol block) (factor refactorTol (block.scale c)) := by
  have hempty : (empty : SparseLu K).scale c = empty := by simp [scale, empty]
  have hfrom :=
    factorFrom_scale hc (refactorTol * block.maxAbs) block.rows 0 (.ofSparse block) empty
  rw [hempty] at hfrom
  rwa [factor, factor, SparseMatrix.maxAbs_scale, ActiveMatrix.ofSparse_scale hc, mul_left_comm]

end Elimination

end SparseLu

end ReducedSpace
