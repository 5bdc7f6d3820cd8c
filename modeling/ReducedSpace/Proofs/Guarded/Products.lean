import ReducedSpace.Operator
import ReducedSpace.Proofs.Guarded.Access

/-!
# Products with guarded accesses

The entries of a sparse matrix lie inside it, and a loop over the columns of a dense matrix stays
inside it. Once the lengths of the vectors are checked, the products therefore read and change
entries of these vectors only, whatever the matrix is.
-/

namespace ReducedSpace

namespace Guarded

variable {α : Type} [Scalar α]

/-- Adds multiples of entries of `x` to entries of `y`, one stored entry of a matrix after the
other. -/
def accumulate (target source : Nat × Nat × α → Nat) (triplets : List (Nat × Nat × α)) (alpha : α)
    (x y : Array α) : Checked (Array α) :=
  if Scalar.isZero alpha then .ok y
  else triplets.foldlM
    (fun y t => do
      let v ← read x (source t)
      change y (target t) fun s => s + alpha * t.2.2 * v) y

/-- The vector `alpha * A * x + beta * y`. -/
def mulAdd (a : SparseMatrix α) (x y : Array α) (alpha beta : α) : Checked (Array α) := do
  Checked.sameLength a.cols x.size
  Checked.sameLength a.rows y.size
  accumulate (fun t => t.1) (fun t => t.2.1) a.toTriplets alpha x (SparseMatrix.scaled beta y)

/-- The vector `alpha * Aᵀ * x + beta * y`. -/
def mulAddTranspose (a : SparseMatrix α) (x y : Array α) (alpha beta : α) : Checked (Array α) := do
  Checked.sameLength a.rows x.size
  Checked.sameLength a.cols y.size
  accumulate (fun t => t.2.1) (fun t => t.1) a.toTriplets alpha x (SparseMatrix.scaled beta y)

/-- The column at an index, which must be inside the matrix. -/
def column (a : DenseMatrix α) (j : Nat) : Checked (Array α) :=
  if j < a.cols then .ok (a.column j) else .error .index

/-- Adds the multiple `x` of column `j` to a vector, unless `x` is zero. -/
def addColumn (a : DenseMatrix α) (x : Array α) (y : Array α) (j : Nat) : Checked (Array α) := do
  let xj ← read x j
  if Scalar.isZero xj then return y
  else return Vec.add y ((← column a j).map fun v => v * xj)

/-- The product of a dense matrix with a vector, in a buffer of length `k`. -/
def mulVecDense (a : DenseMatrix α) (k : Nat) (x : Array α) : Checked (Array α) := do
  Checked.sameLength a.cols x.size
  Checked.sameLength a.rows k
  (List.range x.size).foldlM (addColumn a x) (Vec.zero k)

/-- The product of column `j` with a vector, as far as both of them go. -/
def columnProduct (a : DenseMatrix α) (x : Array α) (j : Nat) : Checked α := do
  let v ← column a j
  return (v.zip x).foldl (fun s e => s + e.1 * e.2) (-0)

/-- The product of the transpose of a dense matrix with a vector, in a buffer of length `k`. -/
def mulVecTransposeDense (a : DenseMatrix α) (k : Nat) (x : Array α) : Checked (Array α) := do
  Checked.sameLength a.rows x.size
  Checked.sameLength a.cols k
  let entries ← (List.range k).mapM (columnProduct a x)
  return entries.toArray

omit [Scalar α] in
private theorem lt_of_mem_toTriplets {a : SparseMatrix α} {t : Nat × Nat × α}
    (ht : t ∈ a.toTriplets) : t.1 < a.rows ∧ t.2.1 < a.cols :=
  SparseMatrix.lt_of_find?_eq_some (SparseMatrix.mem_toTriplets_iff.1 ht)

private theorem accumulate_eq {target source : Nat × Nat × α → Nat}
    {triplets : List (Nat × Nat × α)} (alpha : α) {x y : Array α}
    (hsource : ∀ t ∈ triplets, source t < x.size)
    (htarget : ∀ t ∈ triplets, target t < y.size) :
    accumulate target source triplets alpha x y =
      .ok (if Scalar.isZero alpha then y else triplets.foldl
        (fun y t => y.modify (target t) fun s => s + alpha * t.2.2 * x.getD (source t) 0) y) := by
  rw [accumulate]
  split
  · rfl
  · refine foldlM_eq_ok (P := fun z => z.size = y.size) rfl fun z hz t ht => ⟨?_, ?_⟩
    · rw [read_eq_ok (hsource t ht) 0, ok_bind]
      exact change_eq_ok (hz.symm ▸ htarget t ht) _
    · rw [Array.size_modify]
      exact hz

/-- Behind the check of the lengths every access of a combined product is in range. -/
theorem mulAdd_eq (a : SparseMatrix α) (x y : Array α) (alpha beta : α) :
    mulAdd a x y alpha beta = a.mulAdd x y alpha beta := by
  refine sameLength_bind fun hx => sameLength_bind fun hy => ?_
  have hsize : (SparseMatrix.scaled beta y).size = a.rows := by
    rw [SparseMatrix.size_scaled, hy]
  refine (accumulate_eq alpha (fun t ht => ?_) fun t ht => ?_).trans rfl
  · exact hx ▸ (lt_of_mem_toTriplets ht).2
  · exact hsize.symm ▸ (lt_of_mem_toTriplets ht).1

/-- And of a transposed one. -/
theorem mulAddTranspose_eq (a : SparseMatrix α) (x y : Array α) (alpha beta : α) :
    mulAddTranspose a x y alpha beta = a.mulAddTranspose x y alpha beta := by
  refine sameLength_bind fun hx => sameLength_bind fun hy => ?_
  have hsize : (SparseMatrix.scaled beta y).size = a.cols := by
    rw [SparseMatrix.size_scaled, hy]
  refine (accumulate_eq alpha (fun t ht => ?_) fun t ht => ?_).trans rfl
  · exact hx ▸ (lt_of_mem_toTriplets ht).1
  · exact hsize.symm ▸ (lt_of_mem_toTriplets ht).2

/-- The product in the middle of its sum: the columns before column `t` are added. -/
private def partialProduct (a : DenseMatrix α) (x : Array α) (t : Nat) : Array α :=
  tabulate a.rows fun i => (List.range t).foldl
    (fun s j => let xj := x.getD j 0; if Scalar.isZero xj then s else s + a.entry i j * xj) 0

private theorem addColumn_eq {a : DenseMatrix α} {x : Array α} {t : Nat} (ht : t < a.cols)
    (hx : x.size = a.cols) :
    addColumn a x (partialProduct a x t) t = .ok (partialProduct a x (t + 1)) := by
  have hcolumn : column a t = .ok (a.column t) := if_pos ht
  rw [addColumn]
  rw [read_eq_ok (hx.symm ▸ ht) 0, ok_bind]
  unfold partialProduct
  simp only [List.range_succ, List.foldl_append, List.foldl_cons, List.foldl_nil]
  split
  · rfl
  · rw [hcolumn, ok_bind, DenseMatrix.column, map_tabulate, Vec.add, size_tabulate, size_tabulate]
    refine congrArg Except.ok (tabulate_congr fun i hi => ?_)
    rw [if_pos hi, getD_tabulate, getD_tabulate, if_pos hi, if_pos hi]

/-- A product whose buffer is as long as its answer. -/
theorem mulVecDense_eq (a : DenseMatrix α) (x : Array α) : mulVecDense a a.rows x = a.mulVec x := by
  refine sameLength_bind fun hx => ?_
  rw [Checked.sameLength_self, ok_bind]
  have hlast : partialProduct a x x.size = tabulate a.rows fun i => a.mulVecEntry x i := by
    rw [← hx]
    rfl
  exact foldlM_range_eq_ok (partialProduct a x) rfl hlast fun t ht =>
    addColumn_eq (hx.symm ▸ ht) hx.symm

private theorem columnProduct_eq {a : DenseMatrix α} {x : Array α} {j : Nat} (hj : j < a.cols)
    (hx : x.size = a.rows) : columnProduct a x j = .ok (a.mulVecTransposeEntry x j) := by
  have hcolumn : column a j = .ok (a.column j) := if_pos hj
  have hzip : ((a.column j).zip x).toList =
      (List.range a.rows).map fun i => (a.entry i j, x.getD i 0) := by
    have hlist : x.toList = (List.range a.rows).map fun i => x.getD i 0 := by
      rw [← toList_tabulate, ← hx, tabulate_getD]
    rw [Array.toList_zip, DenseMatrix.column, toList_tabulate, hlist, List.zip_map']
  rw [columnProduct]
  rw [hcolumn, ok_bind, ← Array.foldl_toList, hzip, List.foldl_map]
  rfl

/-- The same holds of the transposed product of a dense matrix. -/
theorem mulVecTransposeDense_eq (a : DenseMatrix α) (x : Array α) :
    mulVecTransposeDense a a.cols x = a.mulVecTranspose x := by
  refine sameLength_bind fun hx => ?_
  have hentries := mapM_eq_ok (l := List.range a.cols) fun j hj =>
    columnProduct_eq (List.mem_range.1 hj) hx.symm
  rw [Checked.sameLength_self, ok_bind, hentries, ok_bind]
  refine congrArg Except.ok (Array.toList_inj.1 ?_)
  rw [toList_tabulate]

end Guarded

end ReducedSpace
