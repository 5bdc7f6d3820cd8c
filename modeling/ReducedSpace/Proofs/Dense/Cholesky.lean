import ReducedSpace.Proofs.Exact.Factors
import ReducedSpace.Proofs.Exact.Product
import ReducedSpace.Dense.Cholesky

/-!
# Cholesky factors in exact arithmetic

The factorization of a symmetric matrix is its elimination along the diagonal, with each pivot split
into two equal factors. Elimination keeps a matrix symmetric, and it keeps its quadratic form
positive on what is left; so the pivots of a positive definite matrix are positive and the
factorization cannot fail. The matrix `I + Dᵀ D` is positive definite for every `D`.
-/

namespace ReducedSpace

open Finset Elimination

variable {K : Type} [ExactScalar K]

section Positive

/-- The quadratic form of a matrix. -/
def quadraticForm (n : ℕ) (a : ℕ → ℕ → K) (x : ℕ → K) : K :=
  ∑ i ∈ range n, ∑ j ∈ range n, x i * a i j * x j

/-- The quadratic form is positive on the vectors that start with `k` zeros and are not zero. -/
def PositiveFrom (n k : ℕ) (a : ℕ → ℕ → K) : Prop :=
  ∀ x : ℕ → K, (∀ i, i < k → x i = 0) → (∃ i, k ≤ i ∧ i < n ∧ x i ≠ 0) → 0 < quadraticForm n a x

variable {n k : ℕ} {a : ℕ → ℕ → K}

/-- The next pivot of a positive matrix is positive. -/
theorem PositiveFrom.diagonal_pos (h : PositiveFrom n k a) (hk : k < n) : 0 < a k k := by
  have hform : quadraticForm n a (fun i => if i = k then 1 else 0) = a k k := by
    rw [quadraticForm]
    simp only [ite_mul, one_mul, zero_mul, mul_ite, mul_one, mul_zero]
    have hinner : ∀ i ∈ range n, (∑ j ∈ range n, if j = k then if i = k then a i j else 0 else 0) =
        if i = k then a k k else 0 := by
      intro i _
      rw [sum_ite_eq', if_pos (mem_range.2 hk)]
      by_cases hi : i = k
      · rw [if_pos hi, if_pos hi, hi]
      · rw [if_neg hi, if_neg hi]
    rw [sum_congr rfl hinner, sum_ite_eq', if_pos (mem_range.2 hk)]
  rw [← hform]
  exact h _ (fun i hi => if_neg (Nat.ne_of_lt hi)) ⟨k, Nat.le_refl k, hk, by simp⟩

/-- Eliminating a diagonal pivot keeps the symmetry. -/
theorem schur_symmetric (h : ∀ i j, a i j = a j i) (k i j : ℕ) :
    schur a k k i j = schur a k k j i := by
  unfold schur
  rw [h i j, h i k, h k j]
  ring

/-- The form of a Schur complement is that of the matrix at a vector that differs in the pivot. -/
theorem quadraticForm_schur (hsymm : ∀ i j, a i j = a j i) (hk : k < n) (hpivot : a k k ≠ 0)
    (x : ℕ → K) :
    quadraticForm n (schur a k k) x =
      quadraticForm n a fun i =>
        x i + if i = k then -(∑ j ∈ range n, a k j * x j) / a k k else 0 := by
  let m := ∑ j ∈ range n, a k j * x j
  let c := -m / a k k
  have hcol : ∀ y : ℕ → K, ∑ i ∈ range n, y i * a i k = ∑ j ∈ range n, a k j * y j := by
    intro y
    refine sum_congr rfl fun i _ => ?_
    rw [hsymm i k, mul_comm]
  have hschur : quadraticForm n (schur a k k) x = quadraticForm n a x - m * m / a k k := by
    have hsum : m * m / a k k =
        ∑ i ∈ range n, ∑ j ∈ range n, x i * (a i k / a k k * a k j) * x j := by
      have hleft : m * m / a k k = (∑ i ∈ range n, x i * a i k / a k k) * m := by
        rw [← sum_div, hcol x, div_mul_eq_mul_div]
      rw [hleft, sum_mul_sum]
      refine sum_congr rfl fun i _ => sum_congr rfl fun j _ => ?_
      ring
    rw [hsum]
    unfold quadraticForm
    rw [← sum_sub_distrib]
    refine sum_congr rfl fun i _ => ?_
    rw [← sum_sub_distrib]
    refine sum_congr rfl fun j _ => ?_
    rw [schur]
    ring
  have hshift : quadraticForm n a (fun i => x i + if i = k then c else 0) =
      quadraticForm n a x + 2 * c * m + c * c * a k k := by
    unfold quadraticForm
    have hrow : ∀ i, ∑ j ∈ range n, (x i + if i = k then c else 0) * a i j *
        (x j + if j = k then c else 0) =
          ∑ j ∈ range n, x i * a i j * x j + x i * a i k * c +
            (if i = k then c * m else 0) + if i = k then c * a k k * c else 0 := by
      intro i
      simp only [mul_add, sum_add_distrib, mul_ite, mul_zero]
      rw [sum_ite_eq', if_pos (mem_range.2 hk)]
      by_cases hi : i = k
      · subst hi
        simp only [if_true]
        have hm : ∑ j ∈ range n, (x i + c) * a i j * x j =
            ∑ j ∈ range n, x i * a i j * x j + c * m := by
          rw [mul_sum, ← sum_add_distrib]
          refine sum_congr rfl fun j _ => ?_
          ring
        rw [hm]
        ring
      · simp only [if_neg hi, add_zero]
    simp only [hrow, sum_add_distrib]
    rw [sum_ite_eq', if_pos (mem_range.2 hk), sum_ite_eq', if_pos (mem_range.2 hk), ← sum_mul,
      hcol x]
    ring
  rw [hschur]
  refine Eq.trans ?_ hshift.symm
  have hc : c * a k k = -m := div_mul_cancel₀ _ hpivot
  have hm : m * m / a k k = -(c * m) := by
    rw [← neg_eq_iff_eq_neg.2 hc]
    field_simp
  linear_combination -hm - c * hc

/-- Elimination with the first remaining entry of the diagonal keeps the form positive. -/
theorem PositiveFrom.schur (h : PositiveFrom n k a) (hsymm : ∀ i j, a i j = a j i) (hk : k < n) :
    PositiveFrom n (k + 1) (schur a k k) := by
  rintro x hzero ⟨i, hki, hi, hne⟩
  rw [quadraticForm_schur hsymm hk (h.diagonal_pos hk).ne']
  refine h _ (fun j hj => ?_) ⟨i, by omega, hi, ?_⟩
  · rw [hzero j (by omega), if_neg (by omega), add_zero]
  · rw [if_neg (by omega), add_zero]
    exact hne

/-- So do any number of them. -/
theorem natural_symmetric (hsymm : ∀ i j, a i j = a j i) (k i j : ℕ) :
    natural a k i j = natural a k j i := by
  induction k generalizing i j with
  | zero => exact hsymm i j
  | succ k ih => exact schur_symmetric ih k i j

/-- The pivots of a positive definite matrix are positive. -/
theorem natural_diagonal_pos (hsymm : ∀ i j, a i j = a j i) (h : PositiveFrom n 0 a) (hk : k < n) :
    0 < natural a k k k := by
  have hfrom : ∀ k, k ≤ n → PositiveFrom n k (natural a k) := by
    intro k hk
    induction k with
    | zero => exact h
    | succ k ih => exact (ih (by omega)).schur (natural_symmetric hsymm k) (by omega)
  exact (hfrom k (by omega)).diagonal_pos hk

end Positive

namespace Cholesky

variable {s lower : DenseMatrix K} {n j : ℕ}

/-- The first `j` columns of the factor are those of the elimination, scaled by the roots of the
pivots. -/
structure Columns (s lower : DenseMatrix K) (n j : ℕ) : Prop where
  rows_eq : lower.rows = n
  cols_eq : lower.cols = n
  entry_mul_root : ∀ i k, k < j → k ≤ i → i < n →
    lower.entry i k * ExactScalar.root (natural s.entry k k k) = natural s.entry k i k

/-- What remains of a column is what the elimination leaves of it. -/
theorem remaining_eq [ExactRoots K] (hsymm : ∀ i j, s.entry i j = s.entry j i)
    (hpos : ∀ k, k < n → 0 < natural s.entry k k k) (h : Columns s lower n j) {i : ℕ}
    (hji : j ≤ i) (hi : i < n) : remaining s lower j i = natural s.entry j i j := by
  have hfold : remaining s lower j i =
      s.entry i j + ∑ k ∈ range j, -(lower.entry j k * lower.entry i k) := by
    rw [remaining]
    rw [← foldl_add_range]
    congr 1
    funext v k
    ring
  have hterm : ∀ k ∈ range j, lower.entry j k * lower.entry i k =
      Elimination.lower s.entry i k * upper s.entry k j := by
    intro k hk
    have hk := mem_range.1 hk
    have hd := hpos k (by omega)
    have hroot : ExactScalar.root (natural s.entry k k k) *
        ExactScalar.root (natural s.entry k k k) = natural s.entry k k k :=
      ExactRoots.mul_self_root hd
    have hj := h.entry_mul_root j k hk (by omega) (by omega)
    have hi := h.entry_mul_root i k hk (by omega) hi
    rw [Elimination.lower, upper]
    rw [natural_symmetric hsymm k k j, div_mul_eq_mul_div, eq_div_iff hd.ne', ← hi, ← hj]
    linear_combination -(lower.entry j k * lower.entry i k) * hroot
  have hsum := sum_factors_add_natural s.entry j i j
  rw [hfold, sum_neg_distrib, sum_congr rfl hterm]
  linear_combination -hsum

/-- A column with a positive pivot extends the factor. -/
theorem Columns.addColumn [ExactRoots K] (hsymm : ∀ i j, s.entry i j = s.entry j i)
    (hrows : s.rows = n) (hpos : ∀ k, k < n → 0 < natural s.entry k k k)
    (h : Columns s lower n j) (hj : j < n) :
    ∃ next, Cholesky.addColumn s lower j = some next ∧ Columns s next n (j + 1) := by
  have hremaining : ∀ i, j ≤ i → i < n → remaining s lower j i = natural s.entry j i j :=
    fun i hji hi => remaining_eq hsymm hpos h hji hi
  have hcolumn : ∀ i, i < n → (tabulate s.rows fun i =>
      if i < j then 0 else remaining s lower j i).getD i 0 =
        if i < j then 0 else remaining s lower j i := by
    intro i hi
    rw [getD_tabulate, if_pos (hrows.symm ▸ hi)]
  have hd : (tabulate s.rows fun i => if i < j then 0 else remaining s lower j i).getD j 0 =
      natural s.entry j j j := by
    rw [hcolumn j hj, if_neg (Nat.lt_irrefl j), hremaining j (Nat.le_refl j) hj]
  have hroot : ExactScalar.root (natural s.entry j j j) *
      ExactScalar.root (natural s.entry j j j) = natural s.entry j j j :=
    ExactRoots.mul_self_root (hpos j hj)
  have hne : ExactScalar.root (natural s.entry j j j) ≠ 0 := by
    intro hzero
    rw [hzero, zero_mul] at hroot
    exact (hpos j hj).ne hroot
  rw [Cholesky.addColumn]
  dsimp only
  rw [hd, if_pos (Scalar.lt_iff.2 (hpos j hj))]
  refine ⟨_, rfl, hrows, hrows, fun i k hk hki hi => ?_⟩
  rw [DenseMatrix.entry_ofFn, if_pos ⟨by omega, by omega⟩]
  by_cases hkj : k = j
  · subst hkj
    rw [if_neg (by simp), if_neg (by omega)]
    by_cases hik : i = k
    · subst hik
      rw [if_pos rfl]
      exact hroot
    · rw [if_neg hik, hcolumn i hi, if_neg (by omega), hremaining i hki hi]
      exact div_mul_cancel₀ _ hne
  · rw [if_pos hkj]
    exact h.entry_mul_root i k (by omega) hki hi

/-- The factorization of a positive definite matrix succeeds. -/
theorem exists_factor [ExactRoots K] (hsymm : ∀ i j, s.entry i j = s.entry j i)
    (h : PositiveFrom s.rows 0 s.entry) :
    ∃ c, factor? s = some c ∧ Columns s c.lower s.rows s.rows := by
  have hpos : ∀ k, k < s.rows → 0 < natural s.entry k k k := fun k hk =>
    natural_diagonal_pos hsymm h hk
  have hprefix : ∀ j, j ≤ s.rows → ∃ lower, (List.range j).foldlM (Cholesky.addColumn s)
      (.zero s.rows s.rows) = some lower ∧ Columns s lower s.rows j := by
    intro j hj
    induction j with
    | zero => exact ⟨_, rfl, rfl, rfl, fun i k hk => absurd hk (Nat.not_lt_zero k)⟩
    | succ j ih =>
      obtain ⟨lower, hlower, hcolumns⟩ := ih (by omega)
      obtain ⟨next, hnext, hcolumns'⟩ := hcolumns.addColumn hsymm rfl hpos (by omega)
      refine ⟨next, ?_, hcolumns'⟩
      rw [List.range_succ, List.foldlM_append, hlower]
      show ([j].foldlM (Cholesky.addColumn s) lower) = _
      rw [List.foldlM_cons, hnext]
      rfl
  obtain ⟨lower, hlower, hcolumns⟩ := hprefix s.rows (Nat.le_refl _)
  refine ⟨⟨lower⟩, ?_, hcolumns⟩
  rw [factor?]
  rw [hlower, Option.map_some]

end Cholesky

section Gram

/-- The matrix `I + Dᵀ D`, from the entries of `D`. -/
theorem entry_gram (d : DenseMatrix K) {i j : ℕ} (hi : i < d.cols) (hj : j < d.cols) :
    (d.transpose.mul d).addIdentity.entry i j =
      (∑ l ∈ range d.rows, d.entry l i * d.entry l j) + if i = j then 1 else 0 := by
  have hmul : (d.transpose.mul d).entry i j = ∑ l ∈ range d.rows, d.entry l i * d.entry l j := by
    rw [DenseMatrix.entry_mul _ _ hi hj]
    refine sum_congr rfl fun l _ => ?_
    rw [DenseMatrix.entry_transpose]
  rw [DenseMatrix.addIdentity]
  rw [DenseMatrix.entry_ofFn, if_pos ⟨hi, hj⟩, hmul]
  by_cases hij : i = j
  · rw [if_pos hij, if_pos hij]
  · rw [if_neg hij, if_neg hij, add_zero]

/-- The matrix `I + Dᵀ D` is symmetric. -/
theorem gram_symmetric (d : DenseMatrix K) (i j : ℕ) :
    (d.transpose.mul d).addIdentity.entry i j = (d.transpose.mul d).addIdentity.entry j i := by
  by_cases h : i < d.cols ∧ j < d.cols
  · rw [entry_gram d h.1 h.2, entry_gram d h.2 h.1]
    congr 1
    · exact sum_congr rfl fun l _ => mul_comm _ _
    · simp only [eq_comm]
  · have hij : ¬(i < (d.transpose.mul d).rows ∧ j < (d.transpose.mul d).cols) := h
    have hji : ¬(j < (d.transpose.mul d).rows ∧ i < (d.transpose.mul d).cols) :=
      fun h' => h h'.symm
    rw [DenseMatrix.addIdentity]
    rw [DenseMatrix.entry_ofFn, DenseMatrix.entry_ofFn, if_neg hij, if_neg hji]

/-- The matrix `I + Dᵀ D` is positive definite. -/
theorem gram_positive (d : DenseMatrix K) :
    PositiveFrom d.cols 0 (d.transpose.mul d).addIdentity.entry := by
  rintro x - ⟨i, -, hi, hne⟩
  have hform : quadraticForm d.cols (d.transpose.mul d).addIdentity.entry x =
      ∑ l ∈ range d.rows, (∑ i ∈ range d.cols, d.entry l i * x i) ^ 2 +
        ∑ i ∈ range d.cols, x i ^ 2 := by
    rw [quadraticForm]
    have hterm : ∀ i ∈ range d.cols, ∀ j ∈ range d.cols,
        x i * (d.transpose.mul d).addIdentity.entry i j * x j =
          ∑ l ∈ range d.rows, d.entry l i * x i * (d.entry l j * x j) +
            if i = j then x i * x j else 0 := by
      intro i hi j hj
      rw [entry_gram d (mem_range.1 hi) (mem_range.1 hj), mul_add, add_mul, mul_sum, sum_mul]
      congr 1
      · refine sum_congr rfl fun l _ => ?_
        ring
      · rw [mul_ite, mul_one, mul_zero, ite_mul, zero_mul]
    rw [sum_congr rfl fun i hi => sum_congr rfl (hterm i hi)]
    simp only [sum_add_distrib]
    congr 1
    · have hcomm : ∀ i ∈ range d.cols, ∑ j ∈ range d.cols, ∑ l ∈ range d.rows,
          d.entry l i * x i * (d.entry l j * x j) =
            ∑ l ∈ range d.rows, ∑ j ∈ range d.cols, d.entry l i * x i * (d.entry l j * x j) :=
        fun i _ => sum_comm
      rw [sum_congr rfl hcomm, sum_comm]
      refine sum_congr rfl fun l _ => ?_
      rw [pow_two, sum_mul_sum]
    · refine sum_congr rfl fun i hi => ?_
      rw [sum_ite_eq, if_pos hi, pow_two]
  rw [hform]
  have hsquares : 0 < ∑ i ∈ range d.cols, x i ^ 2 :=
    sum_pos' (fun i _ => sq_nonneg (x i)) ⟨i, mem_range.2 hi, by positivity⟩
  exact add_pos_of_nonneg_of_pos (sum_nonneg fun l _ => sq_nonneg _) hsquares

/-- The orthogonal kind can always be formed. -/
theorem exists_factor_gram [ExactRoots K] (d : DenseMatrix K) :
    ∃ c, Cholesky.factor? (d.transpose.mul d).addIdentity = some c := by
  obtain ⟨c, hc, -⟩ := Cholesky.exists_factor (gram_symmetric d) (gram_positive d)
  exact ⟨c, hc⟩

end Gram

end ReducedSpace
