import Mathlib
import ReducedSpace.Proofs.Decomposition.Parts
import ReducedSpace.Proofs.Decomposition.Views
import ReducedSpace.Proofs.Exact.Inverse
import ReducedSpace.Proofs.Exact.Norm
import ReducedSpace.Proofs.Sparse.Submatrix

/-!
# The identities of a decomposition

With factors that solve with the basis block, the views of a decomposition are the matrices that
they stand for: `C D + N = 0`, the columns of `Z` span the null space of the decomposed gradients,
and `Y` completes it with the nonsingular `R`. Nothing depends on how the sensitivity matrix is held
or on the kind of the range space.
-/

namespace ReducedSpace

open Finset Elimination

variable {K : Type} [ExactScalar K]

/-- The gradients with their rows and columns in the order of a partition. -/
def Partition.reordered (p : Partition) (gc : SparseMatrix K) (i j : ℕ) : K :=
  gc.entry (p.varPerm.old i) (p.equPerm.old j)

namespace Decomposition

variable {S N : Type} [Factorization S N K]

/-- What the identities rest on: the parts come from gradients of the right size, and the factors
solve with their basis block. -/
structure Derived (dec : Decomposition K S N) (gc : SparseMatrix K) (settings : Settings K) :
    Prop where
  rows_eq : gc.rows = dec.partition.n
  cols_eq : gc.cols = dec.partition.m
  built : dec.BuiltFrom dec.partition dec.basis gc settings dec.generation
  inverts : Inverts dec.basis.solve dec.rank (dec.partition.reordered gc)

/-- The views as matrices and the identities between them. The gradients `G` are those of the last
successful call in the order of the partition; `C` and `N` are the transposes of their blocks. -/
structure Identities (dec : Decomposition K S N) (gc : SparseMatrix K)
    (d z y r uy uz : ℕ → ℕ → K) : Prop where
  c_represents : dec.c.Represents dec.rank dec.rank fun i j => dec.partition.reordered gc j i
  n_represents : dec.nonbasis.toOperator.Represents dec.rank (dec.partition.n - dec.rank)
    fun i j => dec.partition.reordered gc (dec.rank + j) i
  d_represents : dec.d.Represents dec.rank (dec.partition.n - dec.rank) d
  z_represents : dec.z.Represents dec.partition.n (dec.partition.n - dec.rank) z
  y_represents : dec.y.Represents dec.partition.n dec.rank y
  r_represents : dec.r.Represents dec.rank dec.rank r
  uy_represents : dec.rank < dec.partition.m → ∃ op, dec.uy? = some op ∧
    op.Represents (dec.partition.m - dec.rank) dec.rank uy
  uz_represents : dec.rank < dec.partition.m → ∃ op, dec.uz? = some op ∧
    op.Represents (dec.partition.m - dec.rank) (dec.partition.n - dec.rank) uz
  nonsingular : IsUnit (block dec.rank dec.rank fun i j => dec.partition.reordered gc j i)
  c_mul_d : (block dec.rank dec.rank fun i j => dec.partition.reordered gc j i) *
      block dec.rank (dec.partition.n - dec.rank) d +
    (block dec.rank (dec.partition.n - dec.rank) fun i j =>
      dec.partition.reordered gc (dec.rank + j) i) = 0
  gradients_mul_z : (block dec.rank dec.partition.n fun i j => dec.partition.reordered gc j i) *
    block dec.partition.n (dec.partition.n - dec.rank) z = 0
  gradients_mul_y : (block dec.rank dec.partition.n fun i j => dec.partition.reordered gc j i) *
    block dec.partition.n dec.rank y = block dec.rank dec.rank r
  undecomposed_mul_y : (block (dec.partition.m - dec.rank) dec.partition.n fun i j =>
      dec.partition.reordered gc j (dec.rank + i)) * block dec.partition.n dec.rank y =
    block (dec.partition.m - dec.rank) dec.rank uy
  undecomposed_mul_z : (block (dec.partition.m - dec.rank) dec.partition.n fun i j =>
      dec.partition.reordered gc j (dec.rank + i)) *
      block dec.partition.n (dec.partition.n - dec.rank) z =
    block (dec.partition.m - dec.rank) (dec.partition.n - dec.rank) uz

variable {dec : Decomposition K S N} {gc : SparseMatrix K} {settings : Settings K}

/-- What is built from gradients of the right size and factors of their basis block is derived. -/
theorem BuiltFrom.derived {partition : Partition} {basis : BasisMatrix S N} {generation : ℕ}
    (h : dec.BuiltFrom partition basis gc settings generation) (hrows : gc.rows = partition.n)
    (hcols : gc.cols = partition.m)
    (hinverts : Inverts basis.solve partition.rank (partition.reordered gc)) :
    dec.Derived gc settings := by
  obtain rfl := h.partition_eq
  obtain rfl := h.generation_eq
  obtain rfl := h.basis_eq
  exact ⟨hrows, hcols, h, hinverts⟩

section Blocks

private theorem entry_eq_of_find? {a b : SparseMatrix K} {i j i' j' : ℕ}
    (h : a.find? i j = b.find? i' j') : a.entry i j = b.entry i' j' :=
  congrArg (fun v => v.getD 0) h

/-- The basis block has the leading entries of the rearranged gradients. -/
theorem Derived.basisBlock_represents (h : dec.Derived gc settings) :
    dec.basisBlock.toOperator.Represents dec.rank dec.rank (dec.partition.reordered gc) := by
  obtain ⟨hrows, hcols, hfind⟩ := Partition.basisBlock_spec h.built.basisBlock_eq
  have hrep := dec.basisBlock.represents
  rw [hrows, hcols] at hrep
  exact hrep.congr fun i j hi hj => entry_eq_of_find? (hfind i j hi hj)

/-- The factors have the dimension of the rank. -/
theorem Derived.dim_eq (h : dec.Derived gc settings) : dec.basis.dim = dec.rank := h.built.dim_eq

/-- `C` is the transposed basis block. -/
theorem Derived.c_represents (h : dec.Derived gc settings) :
    dec.c.Represents dec.rank dec.rank fun i j => dec.partition.reordered gc j i where
  rows_eq := h.dim_eq
  cols_eq := h.dim_eq
  apply_eq x hx := h.basisBlock_represents.applyTranspose_eq x hx
  applyTranspose_eq x hx := h.basisBlock_represents.apply_eq x hx

/-- `N` has a row for each decomposed equation and a column for each independent variable. -/
theorem Derived.size_nonbasis (h : dec.Derived gc settings) :
    dec.nonbasis.rows = dec.rank ∧ dec.nonbasis.cols = dec.partition.n - dec.rank :=
  h.built.size_nonbasis

/-- Its entries are the transposed entries behind the basis block. -/
theorem Derived.entry_nonbasis (h : dec.Derived gc settings) {i j : ℕ} (hi : i < dec.rank)
    (hj : j < dec.partition.n - dec.rank) :
    dec.nonbasis.entry i j = dec.partition.reordered gc (dec.rank + j) i := by
  obtain ⟨block, hblock, hn⟩ := h.built.nonbasis_eq
  obtain ⟨-, -, hfind⟩ := Partition.nonbasisBlock_spec hblock
  refine entry_eq_of_find? ?_
  rw [hn, SparseMatrix.find?_transpose]
  exact hfind j i hj hi

/-- So its products are those with these entries. -/
theorem Derived.n_represents (h : dec.Derived gc settings) :
    dec.nonbasis.toOperator.Represents dec.rank (dec.partition.n - dec.rank) fun i j =>
      dec.partition.reordered gc (dec.rank + j) i := by
  have hrep := dec.nonbasis.represents
  rw [h.size_nonbasis.1, h.size_nonbasis.2] at hrep
  exact hrep.congr fun i j hi hj => h.entry_nonbasis hi hj

end Blocks

section Sensitivity

/-- The entries of `-C⁻¹ N`, from the inverse of the matrix whose transpose is `C`. -/
def sensitivityEntries (r : ℕ) (inverse n : ℕ → ℕ → K) (i j : ℕ) : K :=
  -∑ k ∈ range r, inverse k i * n k j

/-- A column of `D` is the product with the inverse, also if all entries are zero. -/
theorem sensitivityColumn_eq {basis : BasisMatrix S N} {n : SparseMatrix K}
    {inverse : ℕ → ℕ → K} (hsolve : ∀ y : Array K, y.size = n.rows →
      basis.solve .transposed y = .ok (product n.rows n.rows (fun i k => inverse k i) y)) (j : ℕ) :
    sensitivityColumn basis n j =
      .ok (tabulate n.rows fun i => sensitivityEntries n.rows inverse n.entry i j) := by
  unfold sensitivityColumn
  dsimp only
  split
  · rename_i hzero
    have hnorm := normInf_eq_zero_iff.1 (Scalar.isZero_iff.1 hzero)
    refine congrArg Except.ok (ext_getD (by simp) fun i hi => ?_)
    rw [Vec.size_zero] at hi
    rw [Vec.getD_zero, getD_tabulate, if_pos hi]
    rw [sensitivityEntries]
    rw [sum_eq_zero, neg_zero]
    intro k hk
    have hk := mem_range.1 hk
    have hentry := hnorm k (by rw [size_tabulate]; exact hk)
    rw [getD_tabulate, if_pos hk] at hentry
    rw [hentry, mul_zero]
  · rw [hsolve _ (size_tabulate _ _)]
    refine congrArg Except.ok (ext_getD (by simp) fun i hi => ?_)
    rw [Vec.size_neg, size_product] at hi
    rw [getD_neg, getD_product hi, getD_tabulate, if_pos hi]
    rw [sensitivityEntries]
    refine congrArg Neg.neg (sum_congr rfl fun k hk => ?_)
    rw [getD_tabulate, if_pos (mem_range.1 hk)]

/-- If the solves multiply by an inverse, the formed matrix is `-C⁻¹ N`. -/
theorem formSensitivity_eq {basis : BasisMatrix S N} {n : SparseMatrix K}
    {inverse : ℕ → ℕ → K} (hsolve : ∀ y : Array K, y.size = n.rows →
      basis.solve .transposed y = .ok (product n.rows n.rows (fun i k => inverse k i) y)) :
    formSensitivity basis n =
      .ok (.ofFn n.rows n.cols (sensitivityEntries n.rows inverse n.entry)) := by
  rw [formSensitivity]
  rw [mapM_eq_ok fun j _ => sensitivityColumn_eq hsolve j]
  exact congrArg Except.ok (DenseMatrix.ofColumns_tabulate _ _ _)

/-- Under the same condition the product by solves has the same entries. -/
theorem implicitSensitivity_represents {c : InverseOperator K} {n : SparseMatrix K}
    {inverse : ℕ → ℕ → K}
    (hsolve : ∀ y : Array K, y.size = n.rows →
      c.solve y = .ok (product n.rows n.rows (fun i k => inverse k i) y))
    (hsolve' : ∀ y : Array K, y.size = n.rows →
      c.solveTranspose y = .ok (product n.rows n.rows inverse y)) :
    (implicitSensitivity c n).Represents n.rows n.cols
      (sensitivityEntries n.rows inverse n.entry) where
  rows_eq := rfl
  cols_eq := rfl
  apply_eq x hx := by
    show (n.mulVec (-1) x >>= c.solve) = _
    rw [n.mulVec_eq (-1) hx]
    refine (hsolve _ (size_product _ _ _ _)).trans (congrArg Except.ok ?_)
    rw [product_product]
    refine product_congr (fun i j _ _ => ?_) fun _ _ => rfl
    rw [sensitivityEntries]
    rw [← sum_neg_distrib]
    refine sum_congr rfl fun k _ => ?_
    ring
  applyTranspose_eq x hx := by
    show (c.solveTranspose x >>= n.mulVecTranspose (-1)) = _
    rw [hsolve' x hx]
    refine (n.mulVecTranspose_eq (-1) (size_product _ _ _ _)).trans (congrArg Except.ok ?_)
    rw [product_product]
    refine product_congr (fun j i _ _ => ?_) fun _ _ => rfl
    rw [sensitivityEntries]
    rw [← sum_neg_distrib]
    refine sum_congr rfl fun k _ => ?_
    ring

/-- With the factors of a nonsingular matrix both forms of the sensitivity are `-C⁻¹ N`. -/
theorem exists_sensitivityEntries {basis : BasisMatrix S N} {n : SparseMatrix K} {w : ℕ → ℕ → K}
    (h : Inverts basis.solve n.rows w) :
    ∃ inverse, InversePair n.rows w inverse ∧
      formSensitivity basis n =
        .ok (.ofFn n.rows n.cols (sensitivityEntries n.rows inverse n.entry)) ∧
      (implicitSensitivity ⟨basis.dim, basis.solve .transposed, basis.solve .plain⟩ n).Represents
        n.rows n.cols (sensitivityEntries n.rows inverse n.entry) := by
  obtain ⟨inverse, hpair, hsolve⟩ := h.exists_inverse
  have hplain : ∀ y : Array K, y.size = n.rows → basis.solve .transposed y =
      .ok (product n.rows n.rows (fun i k => inverse k i) y) := hsolve .transposed
  exact ⟨inverse, hpair, formSensitivity_eq hplain,
    implicitSensitivity_represents hplain (hsolve .plain)⟩

/-- A sensitivity matrix, with the form in which it is held. -/
structure HasSensitivity (dec : Decomposition K S N) (gc : SparseMatrix K) (d : ℕ → ℕ → K) :
    Prop where
  represents : dec.d.Represents dec.rank (dec.partition.n - dec.rank) d
  c_mul_d : ∀ i j, i < dec.rank → j < dec.partition.n - dec.rank →
    ∑ k ∈ range dec.rank, dec.partition.reordered gc k i * d k j =
      -dec.partition.reordered gc (dec.rank + j) i
  formed : ∀ a, dec.formed? = some a →
    a = .ofFn dec.rank (dec.partition.n - dec.rank) d

/-- The product of a matrix with `-C⁻¹ N`, where the inverse belongs to its transpose. -/
theorem sum_mul_sensitivityEntries {r : ℕ} {a inverse : ℕ → ℕ → K} (h : InversePair r a inverse)
    (n : ℕ → ℕ → K) {i : ℕ} (hi : i < r) (j : ℕ) :
    ∑ k ∈ range r, a k i * sensitivityEntries r inverse n k j = -n i j := by
  have hsum : ∀ k ∈ range r, a k i * sensitivityEntries r inverse n k j =
      -∑ l ∈ range r, inverse l k * a k i * n l j := by
    intro k _
    rw [sensitivityEntries, mul_neg, mul_sum]
    refine congrArg Neg.neg (sum_congr rfl fun l _ => ?_)
    ring
  have hdelta : ∀ l ∈ range r, ∑ k ∈ range r, inverse l k * a k i * n l j =
      if l = i then n l j else 0 := by
    intro l hl
    rw [← sum_mul, h.mul_eq' l i (mem_range.1 hl) hi, ite_mul, one_mul, zero_mul]
  rw [sum_congr rfl hsum, sum_neg_distrib, sum_comm, sum_congr rfl hdelta, sum_ite_eq',
    if_pos (mem_range.2 hi)]

/-- However the sensitivity matrix is held, it is `-C⁻¹ N`. -/
theorem Derived.exists_sensitivity (h : dec.Derived gc settings) :
    ∃ d, dec.HasSensitivity gc d := by
  obtain ⟨hrows, hcols⟩ := h.size_nonbasis
  have hinverts := h.inverts
  rw [← hrows] at hinverts
  obtain ⟨inverse, hpair, hformed, himplicit⟩ := exists_sensitivityEntries hinverts
  rw [hrows] at hpair
  rw [hrows, hcols] at hformed himplicit
  have hstored := storeSensitivity_cases hformed h.built.sensitivity_eq
  refine ⟨sensitivityEntries dec.rank inverse dec.nonbasis.entry, ?_, fun i j hi hj => ?_, ?_⟩
  · have hdense := DenseMatrix.represents_ofFn dec.rank (dec.partition.n - dec.rank)
      (sensitivityEntries dec.rank inverse dec.nonbasis.entry)
    rw [Decomposition.d, formed?]
    rcases hstored with hs | hs | ⟨gram, hs⟩
    · rw [hs]
      exact himplicit
    · rw [hs]
      exact hdense
    · rw [hs]
      exact hdense
  · rw [sum_mul_sensitivityEntries hpair dec.nonbasis.entry hi j, h.entry_nonbasis hi hj]
  · intro a ha
    rw [formed?] at ha
    rcases hstored with hs | hs | ⟨gram, hs⟩
    · rw [hs] at ha
      cases ha
    · rw [hs] at ha
      cases ha
      rfl
    · rw [hs] at ha
      cases ha
      rfl

end Sensitivity

section Range

/-- The matrix `I + D Dᵀ` for a matrix `D` with `c` columns. -/
def gramEntries (c : ℕ) (d : ℕ → ℕ → K) (i j : ℕ) : K :=
  (if i = j then 1 else 0) + ∑ l ∈ range c, d i l * d j l

/-- The matrix `I + D Dᵀ` is symmetric. -/
theorem gramEntries_symm (c : ℕ) (d : ℕ → ℕ → K) (i j : ℕ) :
    gramEntries c d i j = gramEntries c d j i := by
  unfold gramEntries
  rw [sum_congr rfl fun l _ => mul_comm (d i l) (d j l)]
  simp only [eq_comm]

/-- It depends on the entries of `D` in range only. -/
theorem gramEntries_ofFn {r c : ℕ} (d : ℕ → ℕ → K) {i j : ℕ} (hi : i < r) (hj : j < r) :
    gramEntries c (DenseMatrix.ofFn r c d).entry i j = gramEntries c d i j := by
  unfold gramEntries
  refine congrArg (_ + ·) (sum_congr rfl fun l hl => ?_)
  have hl := mem_range.1 hl
  rw [DenseMatrix.entry_ofFn, DenseMatrix.entry_ofFn, if_pos ⟨hi, hl⟩, if_pos ⟨hj, hl⟩]

/-- The product with `I + D Dᵀ`, by way of the product with `Dᵀ`. -/
theorem sum_gramEntries_mul {r i : ℕ} (hi : i < r) (c : ℕ) (d : ℕ → ℕ → K) (x : ℕ → K) :
    ∑ j ∈ range r, gramEntries c d i j * x j =
      x i + ∑ l ∈ range c, d i l * ∑ j ∈ range r, d j l * x j := by
  unfold gramEntries
  simp only [add_mul, sum_add_distrib, ite_mul, one_mul, zero_mul, sum_mul, mul_sum]
  rw [sum_ite_eq, if_pos (mem_range.2 hi), sum_comm]
  simp only [mul_assoc]

/-- Applying the stored form of `I + D Dᵀ` multiplies by it. -/
theorem apply_woodbury (r c : ℕ) (d : ℕ → ℕ → K) (gram : Option (Cholesky K)) {x : Array K}
    (hx : x.size = r) :
    (⟨.ofFn r c d, gram⟩ : Woodbury K).apply x = .ok (product r r (gramEntries c d) x) := by
  rw [Woodbury.apply]
  rw [DenseMatrix.rows_ofFn, hx, Checked.sameLength_self]
  refine congrArg Except.ok (ext_getD (by simp [hx]) fun i hi => ?_)
  rw [Vec.size_add, hx] at hi
  have hchained : (DenseMatrix.ofFn r c d).mulVecChained
      ((DenseMatrix.ofFn r c d).transpose.mulVecChained x) =
        product r c d (product c r (fun l j => d j l) x) := by
    rw [DenseMatrix.mulVecChained_ofFn, DenseMatrix.mulVecChained_transpose_ofFn]
  rw [hchained, Vec.getD_add (by rw [size_product, hx]), hx, if_pos hi, getD_product hi,
    getD_product hi, sum_gramEntries_mul hi]
  refine congrArg (_ + ·) (sum_congr rfl fun l hl => ?_)
  rw [getD_product (mem_range.1 hl)]

omit [ExactScalar K] [Factorization S N K] in
/-- Dependent and independent variables together are all variables. -/
theorem rank_add_sub (dec : Decomposition K S N) :
    dec.rank + (dec.partition.n - dec.rank) = dec.partition.n :=
  Nat.add_sub_of_le dec.partition.rank_le_n

variable {d : ℕ → ℕ → K}

/-- The columns of `[D; I]` are in the null space of the decomposed gradients. -/
theorem HasSensitivity.sum_mul_nullSpace (hd : dec.HasSensitivity gc d) {i j : ℕ}
    (hi : i < dec.rank) (hj : j < dec.partition.n - dec.rank) :
    ∑ k ∈ range dec.partition.n, dec.partition.reordered gc k i * stackedIdentity dec.rank d k j =
      0 := by
  rw [sum_mul_stackedIdentity d dec.rank_add_sub _ hj, hd.c_mul_d i j hi hj, neg_add_cancel]

private theorem HasSensitivity.sum_mul_gramEntries (hd : dec.HasSensitivity gc d) {i j : ℕ}
    (hi : i < dec.rank) (hj : j < dec.rank) :
    ∑ k ∈ range dec.rank, dec.partition.reordered gc k i *
        gramEntries (dec.partition.n - dec.rank) d k j =
      dec.partition.reordered gc j i -
        ∑ l ∈ range (dec.partition.n - dec.rank),
          dec.partition.reordered gc (dec.rank + l) i * d j l := by
  unfold gramEntries
  simp only [mul_add, sum_add_distrib, mul_ite, mul_one, mul_zero, mul_sum]
  rw [sum_ite_eq', if_pos (mem_range.2 hj), sum_comm, sub_eq_add_neg, ← sum_neg_distrib]
  congr 1
  refine sum_congr rfl fun l hl => ?_
  rw [← neg_mul, ← hd.c_mul_d i l hi (mem_range.1 hl), sum_mul]
  exact sum_congr rfl fun k _ => (mul_assoc _ _ _).symm

/-- For the orthogonal kind, `Gc(:, decomposed)ᵀ Y` is `C (I + D Dᵀ)`. -/
theorem HasSensitivity.sum_mul_rangeEntries_orthogonal (hd : dec.HasSensitivity gc d) {i j : ℕ}
    (hi : i < dec.rank) (hj : j < dec.rank) :
    ∑ k ∈ range dec.partition.n,
        dec.partition.reordered gc k i * rangeEntries .orthogonal dec.rank d k j =
      ∑ k ∈ range dec.rank, dec.partition.reordered gc k i *
        gramEntries (dec.partition.n - dec.rank) d k j :=
  (sum_mul_identityStacked d dec.rank_add_sub _ hj).trans (hd.sum_mul_gramEntries hi hj).symm

omit [Factorization S N K] in
/-- For the coordinate kind, `Gc(:, decomposed)ᵀ Y` is `C`. -/
theorem sum_mul_rangeEntries_coordinate (dec : Decomposition K S N) (gc : SparseMatrix K)
    (d : ℕ → ℕ → K) {i j : ℕ} (hj : j < dec.rank) :
    ∑ k ∈ range dec.partition.n,
        dec.partition.reordered gc k i * rangeEntries .coordinate dec.rank d k j =
      dec.partition.reordered gc j i := by
  have hr : dec.rank ≤ dec.partition.n := dec.partition.rank_le_n
  unfold rangeEntries leadingIdentity
  simp only [mul_ite, mul_one, mul_zero]
  rw [sum_ite_eq', if_pos (mem_range.2 (by omega))]

omit [ExactScalar K] [Factorization S N K] in
/-- A decomposition of the orthogonal kind stores `D` with factors. -/
theorem sensitivity_of_kind (h : dec.kind = .orthogonal) :
    ∃ a gram, dec.sensitivity = .orthogonal a gram := by
  unfold kind at h
  split at h
  · rename_i a gram hs
    exact ⟨a, gram, hs⟩
  · cases h

/-- The matrix `Y` of the orthogonal kind holds the matrix `D` that was formed. -/
theorem HasSensitivity.views_of_orthogonal (hd : dec.HasSensitivity gc d)
    (h : dec.kind = .orthogonal) :
    ∃ gram, dec.sensitivity =
        .orthogonal (.ofFn dec.rank (dec.partition.n - dec.rank) d) gram ∧
      dec.y = orthogonalRange (.ofFn dec.rank (dec.partition.n - dec.rank) d) ∧
      dec.woodbury? = some ⟨.ofFn dec.rank (dec.partition.n - dec.rank) d, gram⟩ := by
  obtain ⟨a, gram, hs⟩ := sensitivity_of_kind h
  have ha := hd.formed a (by unfold formed?; rw [hs])
  subst ha
  unfold Decomposition.y woodbury?
  rw [hs]
  exact ⟨gram, rfl, rfl, rfl⟩

/-- `Y` stacks the identity on zeros or on `-Dᵀ`. -/
theorem HasSensitivity.y_represents (hd : dec.HasSensitivity gc d) :
    dec.y.Represents dec.partition.n dec.rank (rangeEntries dec.kind dec.rank d) := by
  cases hkind : dec.kind with
  | coordinate =>
    rw [(views_of_coordinate hkind).1]
    exact coordinateRange_represents dec.partition.rank_le_n
  | orthogonal =>
    obtain ⟨gram, -, hy, -⟩ := hd.views_of_orthogonal hkind
    have hrep := orthogonalRange_represents
      (DenseMatrix.ofFn dec.rank (dec.partition.n - dec.rank) d)
    rw [DenseMatrix.rows_ofFn, DenseMatrix.cols_ofFn, dec.rank_add_sub] at hrep
    rw [hy]
    refine hrep.congr fun i j hi hj => ?_
    unfold rangeEntries identityStacked
    dsimp only
    split
    · rfl
    · rw [DenseMatrix.entry_ofFn, if_pos ⟨hj, by omega⟩]

/-- Whatever the kind of the range space, `R` is `Gc(:, decomposed)ᵀ Y`. -/
theorem HasSensitivity.r_represents (hd : dec.HasSensitivity gc d) (h : dec.Derived gc settings) :
    dec.r.Represents dec.rank dec.rank fun i j => ∑ k ∈ range dec.partition.n,
      dec.partition.reordered gc k i * rangeEntries dec.kind dec.rank d k j := by
  cases hkind : dec.kind with
  | coordinate =>
    rw [Decomposition.r]
    rw [(views_of_coordinate hkind).2]
    exact h.c_represents.congr fun i j _ hj => (sum_mul_rangeEntries_coordinate dec gc d hj).symm
  | orthogonal =>
    obtain ⟨gram, -, -, hw⟩ := hd.views_of_orthogonal hkind
    have hrep : dec.r.Represents dec.rank dec.rank fun i j => ∑ k ∈ range dec.rank,
        dec.partition.reordered gc k i * gramEntries (dec.partition.n - dec.rank) d k j := by
      rw [Decomposition.r]
      rw [hw]
      refine ⟨h.dim_eq, h.dim_eq, fun x hx => ?_, fun x hx => ?_⟩
      · show (Woodbury.apply _ x >>= dec.c.apply) = _
        rw [apply_woodbury _ _ _ _ hx]
        refine (h.c_represents.apply_eq _ (size_product _ _ _ _)).trans ?_
        exact congrArg Except.ok (product_product _ _ _ _ _ _)
      · show (dec.c.applyTranspose x >>= Woodbury.apply _) = _
        rw [h.c_represents.applyTranspose_eq x hx]
        refine (apply_woodbury _ _ _ _ (size_product _ _ _ _)).trans ?_
        refine congrArg Except.ok ((product_product _ _ _ _ _ _).trans ?_)
        refine product_congr (fun i j _ _ => sum_congr rfl fun k _ => ?_) fun _ _ => rfl
        rw [mul_comm, gramEntries_symm]
    exact hrep.congr fun i j hi hj => (hd.sum_mul_rangeEntries_orthogonal hi hj).symm

/-- `Z` stacks `D` on the identity. -/
theorem HasSensitivity.z_represents (hd : dec.HasSensitivity gc d) :
    dec.z.Represents dec.partition.n (dec.partition.n - dec.rank) (stackedIdentity dec.rank d) := by
  have hz := nullSpace_represents hd.represents
  rwa [dec.rank_add_sub] at hz

/-- The undecomposed gradients project a basis to their product with it. -/
theorem Derived.projected_represents (h : dec.Derived gc settings) (hlt : dec.rank < dec.partition.m)
    {op : LinearOperator K} {c : ℕ} {a : ℕ → ℕ → K} (hop : op.Represents dec.partition.n c a) :
    ∃ gu, dec.undecomposed = some gu ∧ (projected gu op).Represents (dec.partition.m - dec.rank) c
      fun i j => ∑ k ∈ range dec.partition.n,
        dec.partition.reordered gc k (dec.rank + i) * a k j := by
  obtain ⟨gu, hblock, hgu⟩ := h.built.undecomposed_some hlt
  obtain ⟨hrows, hcols, hfind⟩ := Partition.undecomposedBlock_spec hblock
  refine ⟨gu, hgu, ?_⟩
  rw [← hrows] at hop
  have hprojected := ReducedSpace.projected_represents hop
  rw [hcols, hrows] at hprojected
  refine hprojected.congr fun i j hi _ => sum_congr rfl fun k hk => ?_
  have hentry : gu.entry k i = dec.partition.reordered gc k (dec.rank + i) :=
    entry_eq_of_find? (hfind k i (mem_range.1 hk) hi)
  rw [hentry]

/-- The operator `Uy`, if there are undecomposed equations. -/
theorem HasSensitivity.uy_represents (hd : dec.HasSensitivity gc d) (h : dec.Derived gc settings)
    (hlt : dec.rank < dec.partition.m) : ∃ op, dec.uy? = some op ∧
      op.Represents (dec.partition.m - dec.rank) dec.rank fun i j => ∑ k ∈ range dec.partition.n,
        dec.partition.reordered gc k (dec.rank + i) * rangeEntries dec.kind dec.rank d k j := by
  obtain ⟨gu, hgu, hrep⟩ := h.projected_represents hlt hd.y_represents
  refine ⟨projected gu dec.y, ?_, hrep⟩
  rw [uy?]
  rw [hgu, Option.map_some]

/-- The operator `Uz`, if there are undecomposed equations. -/
theorem HasSensitivity.uz_represents (hd : dec.HasSensitivity gc d) (h : dec.Derived gc settings)
    (hlt : dec.rank < dec.partition.m) : ∃ op, dec.uz? = some op ∧
      op.Represents (dec.partition.m - dec.rank) (dec.partition.n - dec.rank) fun i j =>
        ∑ k ∈ range dec.partition.n,
          dec.partition.reordered gc k (dec.rank + i) * stackedIdentity dec.rank d k j := by
  obtain ⟨gu, hgu, hrep⟩ := h.projected_represents hlt hd.z_represents
  refine ⟨projected gu dec.z, ?_, hrep⟩
  rw [uz?]
  rw [hgu, Option.map_some]

end Range

/-- The views of a decomposition are matrices that satisfy the identities. -/
theorem Derived.exists_identities (h : dec.Derived gc settings) :
    ∃ d z y r uy uz, dec.Identities gc d z y r uy uz := by
  obtain ⟨d, hd⟩ := h.exists_sensitivity
  refine ⟨d, stackedIdentity dec.rank d, rangeEntries dec.kind dec.rank d, _, _, _,
    h.c_represents, h.n_represents, hd.represents, hd.z_represents, hd.y_represents,
    hd.r_represents h, hd.uy_represents h, hd.uz_represents h, isUnit_block_transpose
    h.inverts.isUnit, ?_, ?_, block_mul _ _ _ _ _, block_mul _ _ _ _ _, block_mul _ _ _ _ _⟩
  · rw [block_mul, block_add]
    refine block_eq_zero fun i j hi hj => ?_
    rw [hd.c_mul_d i j hi hj, neg_add_cancel]
  · rw [block_mul]
    exact block_eq_zero fun i j hi hj => hd.sum_mul_nullSpace hi hj

end Decomposition

end ReducedSpace
