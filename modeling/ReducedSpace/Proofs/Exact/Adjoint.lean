import ReducedSpace.Proofs.Exact.Product
import ReducedSpace.Proofs.Outcome

/-!
# Linearity and adjoints

The two products of an operator are separate programs. If both are the products of one matrix, then
each is linear, they are adjoint to each other, and tabulating them gives that matrix and its
transpose. `Linear` collects what follows; whatever an operator is built from, it is enough to show
which matrix it represents.
-/

namespace ReducedSpace

open Finset

variable {K : Type} [ExactScalar K]

section Vectors

/-- The inner product of two vectors of the same length. -/
def dot (x y : Array K) : K := ∑ i ∈ range x.size, x.getD i 0 * y.getD i 0

/-- The vector `s x + t y`, for two vectors of the same length. -/
def combination (s t : K) (x y : Array K) : Array K :=
  tabulate x.size fun i => s * x.getD i 0 + t * y.getD i 0

@[simp] theorem size_combination (s t : K) (x y : Array K) :
    (combination s t x y).size = x.size := size_tabulate _ _

/-- An entry of a combination of two vectors. -/
theorem getD_combination (s t : K) (x y : Array K) {i : ℕ} (hi : i < x.size) :
    (combination s t x y).getD i 0 = s * x.getD i 0 + t * y.getD i 0 := by
  rw [combination]
  rw [getD_tabulate, if_pos hi]

variable {rows cols : ℕ} (a : ℕ → ℕ → K)

/-- Products are linear. -/
theorem product_combination (s t : K) {x : Array K} (y : Array K) (hx : x.size = cols) :
    product rows cols a (combination s t x y) =
      combination s t (product rows cols a x) (product rows cols a y) := by
  refine ext_getD (by simp) fun i hi => ?_
  rw [size_product] at hi
  rw [getD_combination _ _ _ _ (by rw [size_product]; exact hi), getD_product hi, getD_product hi,
    getD_product hi, mul_sum, mul_sum, ← sum_add_distrib]
  refine sum_congr rfl fun j hj => ?_
  rw [getD_combination _ _ _ _ (hx ▸ mem_range.1 hj)]
  ring

/-- The product with the transpose is the adjoint of the product. -/
theorem dot_product {x : Array K} (w : Array K) (hx : x.size = cols) :
    dot (product rows cols a x) w = dot x (product cols rows (fun i j => a j i) w) := by
  unfold dot
  rw [size_product, hx]
  have hleft : ∀ i ∈ range rows, (product rows cols a x).getD i 0 * w.getD i 0 =
      ∑ j ∈ range cols, a i j * x.getD j 0 * w.getD i 0 := by
    intro i hi
    rw [getD_product (mem_range.1 hi), sum_mul]
  have hright : ∀ j ∈ range cols,
      x.getD j 0 * (product cols rows (fun i j => a j i) w).getD j 0 =
        ∑ i ∈ range rows, a i j * x.getD j 0 * w.getD i 0 := by
    intro j hj
    rw [getD_product (mem_range.1 hj), mul_sum]
    refine sum_congr rfl fun i _ => ?_
    ring
  rw [sum_congr rfl hleft, sum_congr rfl hright, sum_comm]

/-- The product with a unit vector is a column. -/
theorem product_unit {j : ℕ} (hj : j < cols) :
    product rows cols a (Vec.unit cols j) = tabulate rows fun i => a i j := by
  refine ext_getD (by simp) fun i hi => ?_
  rw [size_product] at hi
  have hterm : ∀ k ∈ range cols, a i k * (Vec.unit cols j : Array K).getD k 0 =
      if k = j then a i k else 0 := by
    intro k hk
    rw [Vec.unit]
    rw [getD_tabulate, if_pos (mem_range.1 hk), mul_ite, mul_one, mul_zero]
  rw [getD_product hi, getD_tabulate, if_pos hi, sum_congr rfl hterm, sum_ite_eq',
    if_pos (mem_range.2 hj)]

end Vectors

section Dense

theorem DenseMatrix.transpose_ofFn (r c : ℕ) (f : ℕ → ℕ → K) :
    (DenseMatrix.ofFn r c f).transpose = .ofFn c r fun i j => f j i := by
  refine DenseMatrix.ext_entry rfl rfl fun i j hi hj => ?_
  have hi : i < c := hi
  have hj : j < r := hj
  rw [DenseMatrix.entry_transpose, DenseMatrix.entry_ofFn, DenseMatrix.entry_ofFn, if_pos ⟨hj, hi⟩,
    if_pos ⟨hi, hj⟩]

theorem DenseMatrix.mulVec_ofFn (r c : ℕ) (f : ℕ → ℕ → K) {x : Array K} (hx : x.size = c) :
    (DenseMatrix.ofFn r c f).mulVec x = .ok (product r c f x) := by
  refine ((DenseMatrix.ofFn r c f).represents.apply_eq x hx).trans (congrArg Except.ok ?_)
  refine product_congr (fun i j hi hj => ?_) fun _ _ => rfl
  exact (DenseMatrix.entry_ofFn _ _ _ _ _).trans (if_pos ⟨hi, hj⟩)

end Dense

/-- A permutation is a matrix with a one in every row and every column. -/
theorem Permutation.represents (p : Permutation) :
    (p.toOperator : LinearOperator K).Represents p.size p.size
      fun i j => if p.old i = j then 1 else 0 where
  rows_eq := rfl
  cols_eq := rfl
  apply_eq x hx := by
    show (Checked.require (decide (p.size ≤ x.size)) .index >>= fun _ => pure (p.gather x)) = _
    rw [Checked.require_decide hx.ge]
    refine congrArg Except.ok (ext_getD (by simp) fun i hi => ?_)
    rw [size_gather] at hi
    rw [getD_gather, if_pos hi, getD_product hi]
    simp only [ite_mul, one_mul, zero_mul]
    rw [sum_ite_eq, if_pos (mem_range.2 (p.old_lt_iff.2 hi))]
  applyTranspose_eq x hx := by
    show (Checked.require (decide (p.size ≤ x.size)) .index >>= fun _ => pure (p.scatter x)) = _
    rw [Checked.require_decide hx.ge]
    refine congrArg Except.ok (ext_getD (by simp) fun j hj => ?_)
    rw [size_scatter] at hj
    have hcond : ∀ i, (p.old i = j) = (i = p.new j) := by
      intro i
      rw [eq_iff_iff]
      constructor
      · rintro rfl
        exact (p.new_old i).symm
      · rintro rfl
        exact p.old_new j
    rw [getD_scatter, if_pos hj, getD_product hj]
    simp only [hcond, ite_mul, one_mul, zero_mul]
    rw [sum_ite_eq', if_pos (mem_range.2 (p.new_lt_iff.2 hj))]

namespace LinearOperator

variable {op : LinearOperator K} {rows cols : ℕ} {a : ℕ → ℕ → K}

/-- In either orientation an operator multiplies every vector of the right length, linearly; the
two products are adjoint to each other; and its matrices in the two orientations are transposes of
each other that multiply as the operator does. -/
structure Linear (op : LinearOperator K) : Prop where
  total : ∀ o (x : Array K), x.size = op.colsIn o →
    ∃ y, op.applyIn o x = .ok y ∧ y.size = op.rowsIn o
  linear : ∀ o (s t : K) (x y u v : Array K), x.size = op.colsIn o → y.size = op.colsIn o →
    op.applyIn o x = .ok u → op.applyIn o y = .ok v →
      op.applyIn o (combination s t x y) = .ok (combination s t u v)
  adjoint : ∀ x w u v : Array K, x.size = op.cols → w.size = op.rows →
    op.apply x = .ok u → op.applyTranspose w = .ok v → dot u w = dot x v
  materialized : ∃ a, op.materialize .plain = .ok a ∧ op.materialize .transposed = .ok a.transpose ∧
    (a.rows = op.rows ∧ a.cols = op.cols) ∧
    (∀ x : Array K, x.size = op.cols → a.mulVec x = op.apply x) ∧
    ∀ w : Array K, w.size = op.rows → a.transpose.mulVec w = op.applyTranspose w

/-- Tabulating the products gives the matrix. -/
theorem Represents.materialize_eq (h : op.Represents rows cols a) (o : Orientation) :
    op.materialize o = .ok (.ofFn (op.rowsIn o) (op.colsIn o) (o.entries a)) := by
  have hcolumn : ∀ j ∈ List.range (op.colsIn o), op.applyIn o (Vec.unit (op.colsIn o) j) =
      .ok (tabulate (op.rowsIn o) fun i => o.entries a i j) := by
    intro j hj
    rw [h.applyIn_eq_product o (Vec.size_unit _ _), product_unit _ (List.mem_range.1 hj)]
  rw [materialize]
  rw [mapM_eq_ok hcolumn]
  exact congrArg Except.ok (DenseMatrix.ofColumns_tabulate _ _ _)

/-- An operator that represents a matrix has all these properties. -/
theorem Represents.linear (h : op.Represents rows cols a) : op.Linear where
  total o x hx := ⟨_, h.applyIn_eq_product o hx, size_product _ _ _ _⟩
  linear o s t x y u v hx hy hu hv := by
    rw [h.applyIn_eq_product o hx] at hu
    rw [h.applyIn_eq_product o hy] at hv
    obtain rfl := Except.ok.inj hu
    obtain rfl := Except.ok.inj hv
    rw [h.applyIn_eq_product o ((size_combination s t x y).trans hx),
      product_combination _ s t y hx]
  adjoint x w u v hx hw hu hv := by
    rw [h.apply_eq x (hx.trans h.cols_eq)] at hu
    rw [h.applyTranspose_eq w (hw.trans h.rows_eq)] at hv
    obtain rfl := Except.ok.inj hu
    obtain rfl := Except.ok.inj hv
    exact dot_product a w (hx.trans h.cols_eq)
  materialized := by
    have hplain := h.materialize_eq .plain
    have htransposed := h.materialize_eq .transposed
    have htranspose := DenseMatrix.transpose_ofFn op.rows op.cols a
    refine ⟨.ofFn op.rows op.cols a, hplain, ?_, ⟨rfl, rfl⟩, fun x hx => ?_, fun w hw => ?_⟩
    · rw [htranspose]
      exact htransposed
    · rw [DenseMatrix.mulVec_ofFn _ _ _ hx]
      exact (h.applyIn_eq_product .plain hx).symm
    · rw [htranspose, DenseMatrix.mulVec_ofFn _ _ _ hw]
      exact (h.applyIn_eq_product .transposed hw).symm

end LinearOperator

end ReducedSpace
