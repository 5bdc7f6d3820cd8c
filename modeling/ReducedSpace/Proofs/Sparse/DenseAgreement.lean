import ReducedSpace.Proofs.Exact.Adjoint
import ReducedSpace.Proofs.Exact.Lengths
import ReducedSpace.Proofs.Sparse.Composition

/-!
# Sparse matrices agree with dense ones

A sparse matrix multiplies, transposes and selects by loops over its stored entries. In exact
arithmetic its products are those of the dense matrix with the same values, for any factors and for
vectors of any length. The transposed matrix, the dense one and a selection store what their
description by entries says, in any arithmetic; a selection of a selection takes the composed lists
at once.
-/

namespace ReducedSpace

open Finset

section Products

variable {K : Type} [ExactScalar K]

/-- The vector `alpha * A * x + beta * y` in a given orientation of `A`, from the product with
`x`. -/
def LinearOperator.mulAddIn (op : LinearOperator K) (o : Orientation) (x y : Array K)
    (alpha beta : K) : Checked (Array K) := do
  let p ← op.applyIn o x
  Checked.sameLength (op.rowsIn o) y.size
  return combination alpha beta p y

namespace LinearOperator.Represents

variable {op : LinearOperator K} {rows cols : ℕ} {a : ℕ → ℕ → K} {x y : Array K}

/-- A combined product of an operator for vectors of the right sizes. -/
theorem mulAddIn_eq (h : op.Represents rows cols a) (o : Orientation) (hx : x.size = op.colsIn o)
    (hy : y.size = op.rowsIn o) (alpha beta : K) : op.mulAddIn o x y alpha beta =
      .ok (combination alpha beta (product (op.rowsIn o) (op.colsIn o) (o.entries a) x) y) := by
  rw [mulAddIn, h.applyIn_eq_product o hx, hy, Checked.sameLength_self]
  rfl

/-- An operator that checks lengths refuses all others. -/
theorem mulAddIn_of_size_ne (h : op.Represents rows cols a) (hchecks : op.ChecksLength)
    (o : Orientation) (hsize : ¬(x.size = op.colsIn o ∧ y.size = op.rowsIn o)) (alpha beta : K) :
    op.mulAddIn o x y alpha beta = .error .length := by
  by_cases hx : x.size = op.colsIn o
  · rw [mulAddIn, h.applyIn_eq_product o hx, Checked.sameLength_of_ne fun hy => hsize ⟨hx, hy⟩]
    rfl
  · have hrefused : op.applyIn o x = .error .length := by
      cases o with
      | plain => exact hchecks.apply_eq x hx
      | transposed => exact hchecks.applyTranspose_eq x hx
    rw [mulAddIn, hrefused]
    rfl

end LinearOperator.Represents

namespace SparseMatrix

/-- The vector `alpha * A * x + beta * y` in a given orientation of `A`. -/
def mulAddIn (a : SparseMatrix K) (o : Orientation) (x y : Array K) (alpha beta : K) :
    Checked (Array K) :=
  match o with
  | .plain => a.mulAdd x y alpha beta
  | .transposed => a.mulAddTranspose x y alpha beta

/-- In either orientation the products with a sparse matrix are those with its dense values, and
those with the transposed matrix in the other orientation. Vectors of another length are refused in
the same way. -/
structure MultipliesAsDense (a : SparseMatrix K) : Prop where
  mulAdd_eq : ∀ (x y : Array K) (alpha beta : K), x.size = a.cols → y.size = a.rows →
    a.mulAdd x y alpha beta = .ok (tabulate a.rows fun i =>
      alpha * ∑ j ∈ range a.cols, a.toDense.entry i j * x.getD j 0 + beta * y.getD i 0)
  mulAddTranspose_eq : ∀ (x y : Array K) (alpha beta : K), x.size = a.rows → y.size = a.cols →
    a.mulAddTranspose x y alpha beta = .ok (tabulate a.cols fun j =>
      alpha * ∑ i ∈ range a.rows, a.toDense.entry i j * x.getD i 0 + beta * y.getD j 0)
  mulAddIn_toDense : ∀ (o : Orientation) (x y : Array K) (alpha beta : K),
    a.mulAddIn o x y alpha beta = a.toDense.toOperator.mulAddIn o x y alpha beta
  mulAddIn_transpose : ∀ (o : Orientation) (x y : Array K) (alpha beta : K),
    a.mulAddIn o x y alpha beta = a.transpose.mulAddIn o.flip x y alpha beta
  toOperator_eq : a.toOperator = a.toDense.toOperator

variable {a : SparseMatrix K} {x y : Array K}

private theorem tabulate_eq_combination (rows cols : ℕ) (a : ℕ → ℕ → K) (x y : Array K)
    (alpha beta : K) : tabulate rows (fun i =>
      beta * y.getD i 0 + alpha * ∑ j ∈ range cols, a i j * x.getD j 0) =
      combination alpha beta (product rows cols a x) y := by
  refine ext_getD (by simp) fun i hi => ?_
  rw [size_tabulate] at hi
  rw [getD_tabulate, if_pos hi, getD_combination _ _ _ _ (by rwa [size_product]),
    getD_product hi, add_comm]

/-- The combined product of a sparse matrix, shortcuts for zeros included. -/
theorem mulAddIn_eq (a : SparseMatrix K) (o : Orientation) (hx : x.size = a.toOperator.colsIn o)
    (hy : y.size = a.toOperator.rowsIn o) (alpha beta : K) : a.mulAddIn o x y alpha beta =
      .ok (combination alpha beta
        (product (a.toOperator.rowsIn o) (a.toOperator.colsIn o) (o.entries a.entry) x) y) := by
  cases o with
  | plain =>
    exact (SparseMatrix.mulAdd_eq a hx hy alpha beta).trans
      (congrArg Except.ok (tabulate_eq_combination _ _ _ _ _ _ _))
  | transposed =>
    exact (SparseMatrix.mulAddTranspose_eq a hx hy alpha beta).trans
      (congrArg Except.ok (tabulate_eq_combination _ _ _ _ _ _ _))

/-- It refuses the same vectors. -/
theorem mulAddIn_of_size_ne (a : SparseMatrix K) (o : Orientation)
    (h : ¬(x.size = a.toOperator.colsIn o ∧ y.size = a.toOperator.rowsIn o)) (alpha beta : K) :
    a.mulAddIn o x y alpha beta = .error .length := by
  cases o with
  | plain => exact a.mulAdd_of_size_ne h alpha beta
  | transposed => exact a.mulAddTranspose_of_size_ne h alpha beta

/-- The operator of a sparse matrix is that of its dense values. -/
theorem toOperator_toDense (a : SparseMatrix K) : a.toOperator = a.toDense.toOperator := by
  have hdense : a.toDense.toOperator.Represents a.rows a.cols a.entry :=
    a.toDense.represents.congr fun i j _ _ => a.entry_toDense i j
  exact a.represents.operator_ext hdense a.checksLength a.toDense.checksLength

/-- So it is the product of the dense copy. -/
theorem mulAddIn_toDense (a : SparseMatrix K) (o : Orientation) (x y : Array K) (alpha beta : K) :
    a.mulAddIn o x y alpha beta = a.toDense.toOperator.mulAddIn o x y alpha beta := by
  rw [← toOperator_toDense]
  by_cases hsize : x.size = a.toOperator.colsIn o ∧ y.size = a.toOperator.rowsIn o
  · rw [a.mulAddIn_eq o hsize.1 hsize.2, a.represents.mulAddIn_eq o hsize.1 hsize.2]
  · rw [a.mulAddIn_of_size_ne o hsize, a.represents.mulAddIn_of_size_ne a.checksLength o hsize]

/-- And that of the transpose in the other orientation. -/
theorem mulAddIn_transpose (a : SparseMatrix K) (o : Orientation) (x y : Array K)
    (alpha beta : K) :
    a.mulAddIn o x y alpha beta = a.transpose.mulAddIn o.flip x y alpha beta := by
  have htranspose (i j : ℕ) : a.transpose.entry i j = a.entry j i :=
    congrArg (Option.getD · 0) (a.find?_transpose i j)
  have hentry : o.flip.entries a.transpose.entry = o.entries a.entry := by
    funext i j
    cases o with
    | plain => exact htranspose j i
    | transposed => exact htranspose i j
  have hrows : a.transpose.toOperator.rowsIn o.flip = a.toOperator.rowsIn o := by cases o <;> rfl
  have hcols : a.transpose.toOperator.colsIn o.flip = a.toOperator.colsIn o := by cases o <;> rfl
  by_cases hsize : x.size = a.toOperator.colsIn o ∧ y.size = a.toOperator.rowsIn o
  · obtain ⟨hx, hy⟩ := hsize
    rw [a.mulAddIn_eq o hx hy, a.transpose.mulAddIn_eq o.flip (hx.trans hcols.symm)
      (hy.trans hrows.symm), hentry, hrows, hcols]
  · rw [a.mulAddIn_of_size_ne o hsize,
      a.transpose.mulAddIn_of_size_ne o.flip (by rwa [hrows, hcols])]

/-- All products of a sparse matrix agree with the dense ones. -/
theorem multipliesAsDense (a : SparseMatrix K) : a.MultipliesAsDense where
  mulAdd_eq x y alpha beta hx hy := by
    rw [SparseMatrix.mulAdd_eq a hx hy]
    simp only [entry_toDense, add_comm (beta * _)]
  mulAddTranspose_eq x y alpha beta hx hy := by
    rw [SparseMatrix.mulAddTranspose_eq a hx hy]
    simp only [entry_toDense, add_comm (beta * _)]
  mulAddIn_toDense := a.mulAddIn_toDense
  mulAddIn_transpose := a.mulAddIn_transpose
  toOperator_eq := a.toOperator_toDense

end SparseMatrix

end Products

section Loops

variable {α : Type}

namespace SparseMatrix

/-- The transposed matrix as a program builds it, from the triplets with their indices
exchanged. -/
def transposeByTriplets [Add α] (a : SparseMatrix α) : Checked (SparseMatrix α) :=
  ofTriplets a.cols a.rows (a.toTriplets.map fun t => (t.2.1, t.1, t.2.2))

/-- Building the transpose from exchanged triplets gives the transpose. -/
theorem transposeByTriplets_eq [Add α] (a : SparseMatrix α) :
    a.transposeByTriplets = .ok a.transpose := by
  have hswapped : ((a.toTriplets.map fun t => (t.2.1, t.1, t.2.2)).map position).Nodup := by
    have hswap := a.nodup_position_toTriplets.map Prod.swap_injective
    rw [List.map_map] at hswap ⊢
    exact hswap
  refine ofTriplets_eq_ok (a := a.transpose) (perm_toTriplets_iff.2 ⟨hswapped, fun t => ?_⟩)
  rw [find?_transpose, List.mem_map]
  constructor
  · rintro ⟨t, ht, rfl⟩
    exact mem_toTriplets_iff.1 ht
  · intro ht
    exact ⟨(t.2.1, t.1, t.2.2), mem_toTriplets_iff.2 ht, rfl⟩

end SparseMatrix

variable [Scalar α]

/-- Adds a value to the entry at a position. -/
def DenseMatrix.addEntry (d : DenseMatrix α) (i j : Nat) (v : α) : DenseMatrix α :=
  .ofFn d.rows d.cols fun i' j' => if i' = i ∧ j' = j then d.entry i j + v else d.entry i' j'

/-- Adding an entry changes it only. -/
theorem DenseMatrix.entry_addEntry (d : DenseMatrix α) (t : Nat × Nat × α) {i j : Nat}
    (hi : i < d.rows) (hj : j < d.cols) : (d.addEntry t.1 t.2.1 t.2.2).entry i j =
      if SparseMatrix.position t = (i, j) then d.entry i j + t.2.2 else d.entry i j := by
  rw [addEntry, entry_ofFn, if_pos ⟨hi, hj⟩]
  by_cases h : SparseMatrix.position t = (i, j)
  · obtain ⟨rfl, rfl⟩ := Prod.mk.inj h
    rw [if_pos ⟨rfl, rfl⟩, if_pos h]
  · rw [if_neg fun h' => h (Prod.ext h'.1.symm h'.2.symm), if_neg h]

namespace SparseMatrix

/-- The dense matrix as a program fills it, adding the stored entries to zeros. -/
def toDenseByTriplets (a : SparseMatrix α) : DenseMatrix α :=
  a.toTriplets.foldl (fun d t => d.addEntry t.1 t.2.1 t.2.2) (.zero a.rows a.cols)

/-- An entry for which no triplet is listed keeps its value. -/
theorem entry_foldl_addEntry {triplets : List (Nat × Nat × α)} {d : DenseMatrix α} {i j : Nat}
    (hi : i < d.rows) (hj : j < d.cols) (h : ∀ t ∈ triplets, position t ≠ (i, j)) :
    (triplets.foldl (fun d t => d.addEntry t.1 t.2.1 t.2.2) d).entry i j = d.entry i j := by
  induction triplets generalizing d with
  | nil => rfl
  | cons t triplets ih =>
    obtain ⟨ht, h⟩ := List.forall_mem_cons.1 h
    have hstep := ih (d := d.addEntry t.1 t.2.1 t.2.2) hi hj h
    rw [List.foldl_cons, hstep, d.entry_addEntry t hi hj, if_neg ht]

/-- An entry for which one triplet is listed gains its value. -/
theorem entry_foldl_addEntry_of_mem {triplets : List (Nat × Nat × α)} {d : DenseMatrix α}
    {i j : Nat} {v : α} (hi : i < d.rows) (hj : j < d.cols)
    (hnodup : (triplets.map position).Nodup) (hv : (i, j, v) ∈ triplets) :
    (triplets.foldl (fun d t => d.addEntry t.1 t.2.1 t.2.2) d).entry i j = d.entry i j + v := by
  induction triplets generalizing d with
  | nil => cases hv
  | cons t triplets ih =>
    obtain ⟨ht, hnodup⟩ := List.nodup_cons.1 hnodup
    rw [List.foldl_cons]
    rcases List.mem_cons.1 hv with rfl | hv
    · have hother : ∀ t ∈ triplets, position t ≠ (i, j) := fun t' ht' hposition =>
        ht (List.mem_map.2 ⟨t', ht', hposition⟩)
      have hrest := entry_foldl_addEntry (d := d.addEntry i j v) hi hj hother
      exact hrest.trans ((d.entry_addEntry (i, j, v) hi hj).trans (if_pos rfl))
    · have hne : position t ≠ (i, j) := fun hposition =>
        ht (hposition ▸ List.mem_map.2 ⟨_, hv, rfl⟩)
      have hrest := ih (d := d.addEntry t.1 t.2.1 t.2.2) hi hj hnodup hv
      rw [hrest, d.entry_addEntry t hi hj, if_neg hne]

/-- The dense copy that adds one triplet after the other has the right size. -/
theorem size_toDenseByTriplets (a : SparseMatrix α) :
    a.toDenseByTriplets.rows = a.rows ∧ a.toDenseByTriplets.cols = a.cols := by
  refine List.foldlRecOn (motive := fun d : DenseMatrix α => d.rows = a.rows ∧ d.cols = a.cols)
    _ _ ⟨rfl, rfl⟩ fun d hd t _ => hd

/-- At most one triplet is added to an entry. -/
theorem toDenseByTriplets_eq (a : SparseMatrix α) : a.toDenseByTriplets = a.toDense := by
  obtain ⟨hrows, hcols⟩ := a.size_toDenseByTriplets
  refine DenseMatrix.ext_entry hrows hcols fun i j hi hj => ?_
  have hi : i < a.rows := Nat.lt_of_lt_of_eq hi hrows
  have hj : j < a.cols := Nat.lt_of_lt_of_eq hj hcols
  have hzero : (DenseMatrix.zero a.rows a.cols : DenseMatrix α).entry i j = 0 := by
    rw [DenseMatrix.zero, DenseMatrix.entry_ofFn, if_pos ⟨hi, hj⟩]
  rw [toDense, DenseMatrix.entry_ofFn, if_pos ⟨hi, hj⟩, toDenseByTriplets]
  cases hv : a.find? i j with
  | none =>
    refine (entry_foldl_addEntry hi hj fun t ht hposition => ?_).trans hzero
    obtain ⟨rfl, rfl⟩ := Prod.mk.inj hposition
    exact Option.some_ne_none t.2.2 ((mem_toTriplets_iff.1 ht).symm.trans hv)
  | some v =>
    have hmem : (i, j, v) ∈ a.toTriplets := mem_toTriplets_iff.2 hv
    rw [entry_foldl_addEntry_of_mem hi hj a.nodup_position_toTriplets hmem, hzero]

/-- The dense copy of the transpose is the transpose of the dense copy. -/
theorem toDense_transpose (a : SparseMatrix α) : a.transpose.toDense = a.toDense.transpose := by
  refine DenseMatrix.ext_entry rfl rfl fun i j hi hj => ?_
  have hi : i < a.cols := hi
  have hj : j < a.rows := hj
  rw [DenseMatrix.entry_transpose, toDense, toDense, DenseMatrix.entry_ofFn,
    DenseMatrix.entry_ofFn, if_pos ⟨hi, hj⟩, if_pos ⟨hj, hi⟩, find?_transpose]

end SparseMatrix

end Loops

/-- Sparse matrices multiply as dense ones and as their transposes do, and the loops over their
entries give the dense and the transposed matrix. A selection stores what is listed last, and after a
selection without repetitions a second one takes the composed lists. -/
theorem sparse_agrees_with_dense (α K : Type) [Scalar α] [ExactScalar K] :
    (∀ a : SparseMatrix K, a.MultipliesAsDense) ∧
    (∀ a : SparseMatrix α, a.toDenseByTriplets = a.toDense ∧
      a.transposeByTriplets = .ok a.transpose ∧ a.transpose.toDense = a.toDense.transpose) ∧
    (∀ (a : SparseMatrix α) (rows cols : Array Nat), (∀ r ∈ rows, r < a.rows) →
      (∀ c ∈ cols, c < a.cols) → ∃ b, a.select rows cols = .ok b ∧ a.Selects rows cols b ∧
        ∀ free, rows.size ≤ free → cols.size ≤ free →
          a.selectByTables free rows cols = .ok b) ∧
    ∀ (a : SparseMatrix α) (rows cols rows' cols' : Array Nat), rows.toList.Nodup →
      cols.toList.Nodup → (∀ r ∈ rows, r < a.rows) → (∀ c ∈ cols, c < a.cols) →
      (∀ i ∈ rows', i < rows.size) → (∀ j ∈ cols', j < cols.size) →
      ∃ c, (a.select rows cols >>= fun b => b.select rows' cols') = .ok c ∧
        a.select (rows'.map fun i => rows.getD i 0) (cols'.map fun j => cols.getD j 0) =
          .ok c := by
  refine ⟨fun a => a.multipliesAsDense, fun a => ⟨a.toDenseByTriplets_eq, a.transposeByTriplets_eq,
    a.toDense_transpose⟩, fun a rows cols hrows hcols => ?_, fun a _ _ _ _ => a.select_select⟩
  have hselect : a.select rows cols = .ok (a.submatrix rows cols) :=
    SparseMatrix.select_eq_ok_iff.2 ⟨hrows, hcols, rfl⟩
  refine ⟨_, hselect, a.selects_submatrix rows cols, fun free hfree hfree' => ?_⟩
  rw [← hselect, SparseMatrix.select_eq_selectByTables hselect hfree hfree']

/-- The selection repeats a row and stores it at its last position only; an explicit zero is an
entry. -/
theorem sparse_agrees_with_dense_sample :
    let a : SparseMatrix ℚ := .ofEntries 3 2 fun i j =>
      [((0, 0), 1), ((0, 1), 2), ((2, 0), 0), ((2, 1), 3)].lookup (i, j)
    a.mulAdd #[1, 2] #[1, 1, 1] 2 3 = .ok #[13, 3, 15] ∧
      a.toDense.toOperator.mulAddIn .plain #[1, 2] #[1, 1, 1] 2 3 = .ok #[13, 3, 15] ∧
      a.transpose.mulAddTranspose #[1, 2] #[1, 1, 1] 2 3 = .ok #[13, 3, 15] ∧
      a.transpose.toDense = a.toDense.transpose ∧
      (∃ b, a.select #[2, 0, 2] #[1, 0] = .ok b ∧ a.Selects #[2, 0, 2] #[1, 0] b ∧
        b.toTriplets = [(1, 0, 2), (2, 0, 3), (1, 1, 1), (2, 1, 0)]) ∧
      ∃ c, (a.select #[2, 0] #[1, 0] >>= fun b => b.select #[1, 1] #[0]) = .ok c ∧
        a.select #[0, 0] #[1] = .ok c := by
  intro a
  obtain ⟨hproducts, hloops, hselect, hcomposed⟩ := sparse_agrees_with_dense ℚ ℚ
  have hmulAdd : a.mulAdd #[1, 2] #[1, 1, 1] 2 3 = .ok #[13, 3, 15] := by decide +kernel
  obtain ⟨b, hb, hselects, -⟩ := hselect a #[2, 0, 2] #[1, 0] (by decide) (by decide)
  have htriplets : (a.select #[2, 0, 2] #[1, 0]).map SparseMatrix.toTriplets =
      .ok [(1, 0, 2), (2, 0, 3), (1, 1, 1), (2, 1, 0)] := by decide +kernel
  rw [hb] at htriplets
  obtain ⟨c, hc, hc'⟩ := hcomposed a #[2, 0] #[1, 0] #[1, 1] #[0] (by decide) (by decide)
    (by decide) (by decide) (by decide) (by decide)
  have hrows : (#[1, 1].map fun i => #[2, 0].getD i 0) = #[0, 0] := by simp
  have hcols : (#[0].map fun j => #[1, 0].getD j 0) = #[1] := by simp
  rw [hrows, hcols] at hc'
  exact ⟨hmulAdd, ((hproducts a).mulAddIn_toDense .plain _ _ _ _).symm.trans hmulAdd,
    ((hproducts a).mulAddIn_transpose .plain _ _ _ _).symm.trans hmulAdd, (hloops a).2.2,
    ⟨b, hb, hselects, Except.ok.inj htriplets⟩, c, hc, hc'⟩

end ReducedSpace
