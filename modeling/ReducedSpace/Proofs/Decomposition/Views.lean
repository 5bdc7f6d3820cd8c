import ReducedSpace.Proofs.Exact.Product
import ReducedSpace.Proofs.Outcome
import ReducedSpace.Decomposition.Views

/-!
# The views as matrices

Each operator view of a decomposition multiplies with a matrix whose entries are read off the
matrices that the view is built from, in both orientations. The lemmas here are about one view each
and about any sensitivity matrix.
-/

namespace ReducedSpace

open Finset

variable {K : Type} [ExactScalar K]

section Vectors

/-- An entry of two vectors put together. -/
theorem getD_append (x y : Array K) (i : ℕ) :
    (x ++ y).getD i 0 = if i < x.size then x.getD i 0 else y.getD (i - x.size) 0 := by
  rw [Array.getD_eq_getD_getElem?, Array.getElem?_append, Array.getD_eq_getD_getElem?,
    Array.getD_eq_getD_getElem?]
  split
  · rfl
  · rfl

/-- An entry of the leading part. -/
theorem getD_take (x : Array K) (n i : ℕ) :
    (Vec.take x n).getD i 0 = if i < n then x.getD i 0 else 0 := by
  rw [Vec.take]
  rw [Array.getD_eq_getD_getElem?, Array.getElem?_extract, Array.getD_eq_getD_getElem?]
  by_cases hi : i < n
  · by_cases hx : i < x.size
    · rw [if_pos (by omega), if_pos hi, Nat.zero_add]
    · rw [if_neg (by omega), if_pos hi, Array.getElem?_eq_none (Nat.not_lt.1 hx)]
  · rw [if_neg (by omega), if_neg hi]
    rfl

/-- An entry of what is left of it. -/
theorem getD_drop (x : Array K) (n i : ℕ) : (Vec.drop x n).getD i 0 = x.getD (n + i) 0 := by
  rw [Vec.drop]
  rw [Array.getD_eq_getD_getElem?, Array.getElem?_extract, Array.getD_eq_getD_getElem?]
  split
  · rfl
  · rw [Array.getElem?_eq_none (by omega)]

theorem getD_neg (x : Array K) (i : ℕ) : (Vec.neg x).getD i 0 = -x.getD i 0 := by
  rw [Vec.neg]
  rw [Array.getD_eq_getD_getElem?, Array.getElem?_map, Array.getD_eq_getD_getElem?]
  cases x[i]? with
  | none => exact neg_zero.symm
  | some v => rfl

end Vectors

section Operators

variable {op : LinearOperator K} {r c : ℕ} {a : ℕ → ℕ → K}

/-- The matrix `[D; I]` for a matrix `D` with `r` rows. -/
def stackedIdentity (r : ℕ) (d : ℕ → ℕ → K) (i j : ℕ) : K :=
  if i < r then d i j else if i = r + j then 1 else 0

/-- The matrix `[I; 0]`. -/
def leadingIdentity (i j : ℕ) : K := if i = j then 1 else 0

/-- The matrix `[I; -Dᵀ]` for a matrix `D` with `r` rows. -/
def identityStacked (r : ℕ) (d : ℕ → ℕ → K) (i j : ℕ) : K :=
  if i < r then if i = j then 1 else 0 else -d j (i - r)

/-- The matrix `Y` of either kind, for a matrix `D` with `r` rows. -/
def rangeEntries (kind : RangeBasis) (r : ℕ) (d : ℕ → ℕ → K) : ℕ → ℕ → K :=
  match kind with
  | .coordinate => leadingIdentity
  | .orthogonal => identityStacked r d

section Stacked

variable {n : ℕ} (d : ℕ → ℕ → K)

/-- A row of `[D; I]` is a row of `D` or picks an entry. -/
theorem sum_stackedIdentity_mul (w : ℕ → K) {i : ℕ} (hi : i < r + c) :
    ∑ j ∈ range c, stackedIdentity r d i j * w j =
      if i < r then ∑ j ∈ range c, d i j * w j else w (i - r) := by
  unfold stackedIdentity
  split
  · rfl
  · have hcond : ∀ j, (i = r + j) = (j = i - r) := by
      intro j
      rw [eq_iff_iff]
      omega
    simp only [hcond, ite_mul, one_mul, zero_mul]
    rw [sum_ite_eq', if_pos (mem_range.2 (by omega))]

/-- A column of `[D; I]`. -/
theorem sum_mul_stackedIdentity (hn : r + c = n) (f : ℕ → K) {j : ℕ} (hj : j < c) :
    ∑ i ∈ range n, f i * stackedIdentity r d i j = ∑ i ∈ range r, f i * d i j + f (r + j) := by
  have hbelow : ∀ k, ¬r + k < r := fun k => by omega
  subst hn
  rw [sum_range_add]
  unfold stackedIdentity
  congr 1
  · refine sum_congr rfl fun i hi => ?_
    rw [if_pos (mem_range.1 hi)]
  · simp only [hbelow, if_false, Nat.add_left_cancel_iff, mul_ite, mul_one, mul_zero]
    rw [sum_ite_eq', if_pos (mem_range.2 hj)]

/-- A column of `[I; -Dᵀ]`. -/
theorem sum_mul_identityStacked (hn : r + c = n) (f : ℕ → K) {j : ℕ} (hj : j < r) :
    ∑ i ∈ range n, f i * identityStacked r d i j =
      f j - ∑ l ∈ range c, f (r + l) * d j l := by
  have hbelow : ∀ k, ¬r + k < r := fun k => by omega
  subst hn
  rw [sum_range_add, sub_eq_add_neg, ← sum_neg_distrib]
  unfold identityStacked
  congr 1
  · have hterm : ∀ i ∈ range r, (f i * if i < r then if i = j then 1 else 0 else -d j (i - r)) =
        if i = j then f i else 0 := by
      intro i hi
      rw [if_pos (mem_range.1 hi), mul_ite, mul_one, mul_zero]
    rw [sum_congr rfl hterm, sum_ite_eq', if_pos (mem_range.2 hj)]
  · simp only [hbelow, if_false, Nat.add_sub_cancel_left, mul_neg]

/-- The columns of `[I; -Dᵀ]` are orthogonal to those of `[D; I]`. -/
theorem sum_identityStacked_mul_stackedIdentity (hn : r + c = n) {j l : ℕ} (hj : j < r)
    (hl : l < c) : ∑ i ∈ range n, identityStacked r d i j * stackedIdentity r d i l = 0 := by
  have hterm : ∀ i ∈ range r, identityStacked r d i j * d i l = if i = j then d i l else 0 := by
    intro i hi
    rw [identityStacked]
    rw [if_pos (mem_range.1 hi), ite_mul, one_mul, zero_mul]
  have hbelow : identityStacked r d (r + l) j = -d j l := by
    rw [identityStacked]
    rw [if_neg (by omega), Nat.add_sub_cancel_left]
  rw [sum_mul_stackedIdentity d hn _ hl, sum_congr rfl hterm, hbelow, sum_ite_eq',
    if_pos (mem_range.2 hj), add_neg_cancel]

end Stacked

/-- `Z` stacks `D` on the identity. -/
theorem nullSpace_represents (h : op.Represents r c a) :
    (nullSpace op).Represents (r + c) c (stackedIdentity r a) where
  rows_eq := by
    show op.rows + op.cols = r + c
    rw [h.rows_eq, h.cols_eq]
  cols_eq := h.cols_eq
  apply_eq x hx := by
    show (op.apply x >>= fun dep => pure (dep ++ x)) = _
    rw [h.apply_eq x hx]
    refine congrArg Except.ok (ext_getD (by simp [hx]) fun i hi => ?_)
    rw [Array.size_append, size_product, hx] at hi
    rw [getD_append, size_product, getD_product hi, sum_stackedIdentity_mul a _ hi]
    by_cases hir : i < r
    · rw [if_pos hir, if_pos hir, getD_product hir]
    · rw [if_neg hir, if_neg hir]
  applyTranspose_eq x hx := by
    have hle : op.rows ≤ x.size := by
      rw [h.rows_eq, hx]
      exact Nat.le_add_right r c
    have htake : (Vec.take x op.rows).size = r := by
      rw [Vec.size_take, h.rows_eq, hx]
      omega
    show (Checked.require (decide (op.rows ≤ x.size)) .index >>= fun _ =>
      op.applyTranspose (Vec.take x op.rows) >>= fun y => pure (Vec.add y (Vec.drop x op.rows))) = _
    rw [Checked.require_decide hle]
    show (op.applyTranspose (Vec.take x op.rows) >>= fun y =>
      pure (Vec.add y (Vec.drop x op.rows))) = _
    rw [h.applyTranspose_eq _ htake, h.rows_eq]
    refine congrArg Except.ok (ext_getD (by simp) fun j hj => ?_)
    rw [Vec.size_add, size_product] at hj
    rw [Vec.getD_add (by rw [size_product, Vec.size_drop, hx]; omega), size_product, if_pos hj,
      getD_product hj, getD_product hj, getD_drop,
      sum_congr rfl fun i _ => mul_comm (stackedIdentity r a i j) (x.getD i 0),
      sum_mul_stackedIdentity a rfl _ hj]
    refine congrArg (· + _) (sum_congr rfl fun i hi => ?_)
    rw [getD_take, if_pos (mem_range.1 hi), mul_comm]

/-- The coordinate `Y` stacks the identity on zeros. -/
theorem coordinateRange_represents {n r : ℕ} (hr : r ≤ n) :
    (coordinateRange n r : LinearOperator K).Represents n r leadingIdentity where
  rows_eq := rfl
  cols_eq := rfl
  apply_eq x hx := by
    show (Checked.sameLength r x.size >>= fun _ => pure (x ++ Vec.zero (n - r))) = _
    rw [hx, Checked.sameLength_self]
    refine congrArg Except.ok (ext_getD (by simp [hx, hr]) fun i hi => ?_)
    rw [Array.size_append, Vec.size_zero, hx] at hi
    rw [getD_append, hx, getD_product (by omega), Vec.getD_zero]
    unfold leadingIdentity
    simp only [ite_mul, one_mul, zero_mul]
    rw [sum_ite_eq]
    simp only [mem_range]
  applyTranspose_eq x hx := by
    have hle : r ≤ x.size := hx.symm ▸ hr
    show (Checked.require (decide (r ≤ x.size)) .index >>= fun _ => pure (Vec.take x r)) = _
    rw [Checked.require_decide hle]
    refine congrArg Except.ok (ext_getD (by simp [hx, hr]) fun j hj => ?_)
    rw [Vec.size_take, hx] at hj
    rw [getD_take, if_pos (by omega), getD_product (by omega)]
    unfold leadingIdentity
    simp only [ite_mul, one_mul, zero_mul]
    rw [sum_ite_eq', if_pos (mem_range.2 (by omega))]

/-- The orthogonal `Y` stacks the identity on `-Dᵀ`. -/
theorem orthogonalRange_represents (d : DenseMatrix K) :
    (orthogonalRange d).Represents (d.rows + d.cols) d.rows (identityStacked d.rows d.entry) where
  rows_eq := rfl
  cols_eq := rfl
  apply_eq x hx := by
    show (d.mulVecTranspose x >>= fun indep => pure (x ++ Vec.neg indep)) = _
    have hd : d.mulVecTranspose x = _ := d.represents.applyTranspose_eq x hx
    rw [hd]
    refine congrArg Except.ok (ext_getD (by simp [hx]) fun i hi => ?_)
    rw [Array.size_append, Vec.size_neg, size_product, hx] at hi
    rw [getD_append, hx, getD_product hi, getD_neg]
    unfold identityStacked
    by_cases hir : i < d.rows
    · simp only [if_pos hir, ite_mul, one_mul, zero_mul]
      rw [sum_ite_eq, if_pos (mem_range.2 hir)]
    · simp only [if_neg hir]
      rw [getD_product (by omega), ← sum_neg_distrib]
      exact sum_congr rfl fun k _ => (neg_mul _ _).symm
  applyTranspose_eq x hx := by
    have hle : d.rows ≤ x.size := hx.symm ▸ Nat.le_add_right _ _
    have hdrop : (Vec.drop x d.rows).size = d.cols := by
      rw [Vec.size_drop, hx]
      omega
    show (Checked.require (decide (d.rows ≤ x.size)) .index >>= fun _ =>
      d.mulVec (Vec.drop x d.rows) >>= fun dx => pure (Vec.sub (Vec.take x d.rows) dx)) = _
    rw [Checked.require_decide hle]
    show (d.mulVec (Vec.drop x d.rows) >>= fun dx =>
      pure (Vec.sub (Vec.take x d.rows) dx)) = _
    have hd : d.mulVec (Vec.drop x d.rows) = _ := d.represents.apply_eq _ hdrop
    rw [hd]
    have htake : (Vec.take x d.rows).size = d.rows := by
      rw [Vec.size_take, hx]
      omega
    refine congrArg Except.ok (ext_getD (by simp [hx]) fun j hj => ?_)
    rw [Vec.size_sub, htake] at hj
    rw [Vec.getD_sub (by rw [size_product, htake]), htake, if_pos hj, getD_take, if_pos hj,
      getD_product hj, getD_product hj,
      sum_congr rfl fun i _ => mul_comm (identityStacked d.rows d.entry i j) (x.getD i 0),
      sum_mul_identityStacked d.entry rfl _ hj]
    refine congrArg (_ - ·) (sum_congr rfl fun k _ => ?_)
    rw [getD_drop, mul_comm]

/-- A product of the transpose of some gradients with a basis multiplies with the product of their
matrices. -/
theorem projected_represents {gradients : SparseMatrix K} (h : op.Represents gradients.rows c a) :
    (projected gradients op).Represents gradients.cols c fun i j =>
      ∑ k ∈ range gradients.rows, gradients.entry k i * a k j where
  rows_eq := rfl
  cols_eq := h.cols_eq
  apply_eq x hx := by
    show (op.apply x >>= gradients.mulVecTranspose 1) = _
    rw [h.apply_eq x hx]
    have hg : gradients.mulVecTranspose 1 (product gradients.rows c a x) = _ :=
      gradients.represents.applyTranspose_eq _ (size_product _ _ _ _)
    exact hg.trans (congrArg Except.ok (product_product _ _ _ _ _ _))
  applyTranspose_eq x hx := by
    show (gradients.mulVec 1 x >>= op.applyTranspose) = _
    have hg : gradients.mulVec 1 x = _ := gradients.represents.apply_eq x hx
    rw [hg]
    have ha := h.applyTranspose_eq _ (size_product gradients.rows gradients.cols gradients.entry x)
    refine ha.trans (congrArg Except.ok ?_)
    rw [product_product]
    refine product_congr (fun i j _ _ => ?_) fun _ _ => rfl
    exact sum_congr rfl fun k _ => mul_comm _ _

end Operators

end ReducedSpace
