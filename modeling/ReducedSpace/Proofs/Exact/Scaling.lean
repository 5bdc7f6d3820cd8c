import Mathlib
import ReducedSpace.Proofs.Exact.Norm
import ReducedSpace.Proofs.Exact.Product

/-!
# Multiples of vectors and matrices

A multiple of a sparse matrix has the same pattern, and its values are multiplied. Blocks and
transposes of a multiple are multiples, and so are products; the largest magnitude is multiplied by
the magnitude of the factor.
-/

namespace ReducedSpace

open Finset

/-- Changing all values commutes with changing one of them. -/
theorem Array.modify_map {β γ : Type} (f : β → γ) (g : β → β) (g' : γ → γ)
    (h : ∀ b, g' (f b) = f (g b)) (xs : Array β) (i : ℕ) :
    (xs.map f).modify i g' = (xs.modify i g).map f := by
  apply Array.ext_getElem?
  intro k
  rw [Array.getElem?_modify, Array.getElem?_map, Array.getElem?_map, Array.getElem?_modify]
  split
  · cases xs[k]? with
    | none => rfl
    | some b => exact congrArg some (h b)
  · rfl

namespace SparseVec

variable {β γ : Type} (f : β → γ) (v : SparseVec β)

/-- The vector with every stored value replaced. -/
def map : SparseVec γ where
  entries := v.entries.map fun e => (e.1, f e.2)
  sorted := List.pairwise_map.2 v.sorted

@[simp] theorem find?_map (i : ℕ) : (v.map f).find? i = (v.find? i).map f := by
  show lookup i (v.entries.map fun e => (e.1, f e.2)) = (lookup i v.entries).map f
  induction v.entries with
  | nil => rfl
  | cons e rest ih =>
    rw [List.map_cons, lookup, lookup]
    split
    · rfl
    · exact ih

/-- Replacing values keeps the positions. -/
@[simp] theorem indices_map : (v.map f).indices = v.indices := List.map_map

@[simp] theorem size_map : (v.map f).size = v.size := List.length_map _

/-- An entry may be erased before or after the values are replaced. -/
theorem erase_map (i : ℕ) : (v.map f).erase i = (v.erase i).map f := by
  refine ext_find? fun j => ?_
  rw [find?_erase, find?_map, find?_map, find?_erase]
  split <;> rfl

/-- An entry may be inserted before or after the values are replaced, as its image then. -/
theorem insert_map (i : ℕ) (w : β) : (v.map f).insert i (f w) = (v.insert i w).map f := by
  refine ext_find? fun j => ?_
  rw [find?_insert, find?_map, find?_map, find?_insert]
  split <;> rfl

/-- The values of a vector that is built by a rule are replaced in the rule. -/
theorem map_ofFn (n : ℕ) (g : ℕ → Option β) : (ofFn n g).map f = ofFn n fun i => (g i).map f := by
  refine ext_find? fun j => ?_
  rw [find?_map, find?_ofFn, find?_ofFn]
  split <;> rfl

end SparseVec

variable {K : Type} [ExactScalar K]

section Vectors

/-- The multiple of a vector. -/
def Vec.scale (c : K) (x : Array K) : Array K := x.map fun v => c * v

variable {s : K}

/-- A multiple has the same length. -/
theorem Vec.size_scale (x : Array K) : (Vec.scale s x).size = x.size := Array.size_map

/-- Its entries are multiplied. -/
theorem Vec.getD_scale (x : Array K) (i : ℕ) : (Vec.scale s x).getD i 0 = s * x.getD i 0 := by
  rw [Vec.scale, Array.getD_eq_getD_getElem?, Array.getD_eq_getD_getElem?, Array.getElem?_map]
  cases x[i]? with
  | none => exact (mul_zero s).symm
  | some v => rfl

/-- The negative of a multiple is the multiple of the negative. -/
theorem Vec.neg_scale (x : Array K) : Vec.neg (Vec.scale s x) = Vec.scale s (Vec.neg x) := by
  rw [Vec.neg, Vec.neg, Vec.scale, Vec.scale, Array.map_map, Array.map_map]
  simp only [Function.comp_def, mul_neg]

/-- The difference of multiples is the multiple of the difference. -/
theorem Vec.sub_scale (x y : Array K) :
    Vec.sub (Vec.scale s x) (Vec.scale s y) = Vec.scale s (Vec.sub x y) := by
  refine ext_getD (by simp [Vec.size_scale]) fun i hi => ?_
  rw [Vec.size_sub, Vec.size_scale] at hi
  rw [Vec.getD_scale, Vec.sub, Vec.sub, getD_tabulate, getD_tabulate, Vec.size_scale,
    Vec.size_scale, if_pos hi, if_pos hi, Vec.getD_scale, Vec.getD_scale]
  split
  · rw [mul_sub]
  · rfl

/-- A sweep by steps that multiply as their argument does. -/
theorem Vec.sweep_scale {step : ℕ → Array K → K}
    (hstep : ∀ k x, step k (Vec.scale s x) = s * step k x) (order : List ℕ) (x : Array K) :
    Vec.sweep order step (Vec.scale s x) = Vec.scale s (Vec.sweep order step x) := by
  refine List.foldl_hom (Vec.scale s) fun x k => ?_
  rw [hstep]
  exact (Array.map_setIfInBounds).symm

/-- The product of a multiple of a matrix is a multiple of its product. -/
theorem product_scale_left (rows cols : ℕ) (a : ℕ → ℕ → K) (x : Array K) :
    product rows cols (fun i j => s * a i j) x = Vec.scale s (product rows cols a x) := by
  refine ext_getD (by simp [Vec.size_scale]) fun i hi => ?_
  rw [size_product] at hi
  rw [Vec.getD_scale, getD_product hi, getD_product hi, mul_sum]
  exact sum_congr rfl fun j _ => mul_assoc _ _ _

/-- So is the product with a multiple of a vector. -/
theorem product_scale_right (rows cols : ℕ) (a : ℕ → ℕ → K) (x : Array K) :
    product rows cols a (Vec.scale s x) = Vec.scale s (product rows cols a x) := by
  refine ext_getD (by simp [Vec.size_scale]) fun i hi => ?_
  rw [size_product] at hi
  rw [Vec.getD_scale, getD_product hi, getD_product hi, mul_sum]
  refine sum_congr rfl fun j _ => ?_
  rw [Vec.getD_scale, mul_left_comm]

end Vectors

namespace SparseMatrix

/-- The multiple of a matrix, with the same stored entries. -/
def scale (c : K) (a : SparseMatrix K) : SparseMatrix K where
  rows := a.rows
  cols := a.cols
  columns := a.columns.map fun v => v.map fun w => c * w
  size_columns := by rw [Array.size_map, a.size_columns]
  index_lt v hv e he := by
    obtain ⟨w, hw, rfl⟩ := Array.mem_map.1 hv
    obtain ⟨e', he', rfl⟩ := List.mem_map.1 he
    exact a.index_lt w hw e' he'

variable {c : K} (a : SparseMatrix K)

@[simp] theorem rows_scale : (a.scale c).rows = a.rows := rfl

@[simp] theorem cols_scale : (a.scale c).cols = a.cols := rfl

/-- The columns of a multiple are multiples. -/
theorem column_scale (j : ℕ) : (a.scale c).column j = (a.column j).map fun v => c * v := by
  show (a.columns.map _).getD j .empty = (a.columns.getD j .empty).map _
  rw [Array.getD_eq_getD_getElem?, Array.getD_eq_getD_getElem?, Array.getElem?_map]
  cases a.columns[j]? with
  | none => rfl
  | some v => rfl

/-- A multiple stores the multiplied values at the same positions. -/
@[simp] theorem find?_scale (i j : ℕ) :
    (a.scale c).find? i j = (a.find? i j).map fun v => c * v := by
  rw [find?, column_scale]
  exact SparseVec.find?_map _ _ _

/-- The entries of a multiple are multiples, the zeros included. -/
theorem entry_scale (i j : ℕ) : (a.scale c).entry i j = c * a.entry i j := by
  rw [entry, entry, find?_scale]
  cases a.find? i j with
  | none => exact (mul_zero c).symm
  | some v => rfl

/-- The triplets of a multiple come in the same order. -/
theorem toTriplets_scale :
    (a.scale c).toTriplets = a.toTriplets.map fun t => (t.1, t.2.1, c * t.2.2) := by
  rw [toTriplets, toTriplets, cols_scale, List.map_flatMap]
  congr 1
  funext j
  rw [column_scale, List.map_map]
  exact List.map_map

/-- The largest magnitude is multiplied by the magnitude of the factor. -/
theorem maxAbs_scale : (a.scale c).maxAbs = |c| * a.maxAbs := by
  rw [maxAbs_eq_foldl, maxAbs_eq_foldl, toTriplets_scale, List.foldl_map]
  conv_lhs => rw [← mul_zero |c|]
  refine List.foldl_hom _ fun x t => ?_
  show max (|c| * x) |c * t.2.2| = |c| * max x |t.2.2|
  rw [abs_mul, mul_max_of_nonneg _ _ (abs_nonneg c)]

/-- The transpose of a multiple is the multiple of the transpose. -/
theorem transpose_scale : (a.scale c).transpose = a.transpose.scale c :=
  ext_find? rfl rfl fun i j => by rw [find?_transpose, find?_scale, find?_scale, find?_transpose]

/-- A block of a multiple is the multiple of the block. -/
theorem submatrix_scale (rows cols : Array ℕ) :
    (a.scale c).submatrix rows cols = (a.submatrix rows cols).scale c := by
  refine ext_find? rfl rfl fun i j => ?_
  rw [find?_scale, submatrix, submatrix, find?_ofEntries, find?_ofEntries]
  simp only [find?_scale]
  split
  · split
    · cases rows[i]? with
      | none => rfl
      | some r =>
        cases cols[j]? with
        | none => rfl
        | some k => rfl
    · rfl
  · rfl

/-- A multiple stores as many values. -/
theorem storedCount_scale : (a.scale c).storedCount = a.storedCount := by
  show (a.columns.map _).foldl _ 0 = _
  rw [Array.foldl_map]
  simp only [SparseVec.size_map]
  rfl

end SparseMatrix

end ReducedSpace
