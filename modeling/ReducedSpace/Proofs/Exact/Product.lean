import ReducedSpace.Proofs.Exact.Scalar
import ReducedSpace.Operator
import ReducedSpace.Dense.Product

/-!
# Products as sums

In exact arithmetic the order of a summation and the terms that it leaves out do not matter, so
every product of the library is the same sum. `product` is that sum for a matrix given by its
entries, and `Represents` says of an operator that its two products are those of a matrix.
-/

namespace ReducedSpace

open Finset

variable {K : Type} [ExactScalar K]

/-- Vectors of equal length with equal entries are equal. -/
theorem ext_getD {x y : Array K} (hs : x.size = y.size)
    (h : ∀ i, i < x.size → x.getD i 0 = y.getD i 0) : x = y := by
  apply Array.ext hs
  intro i hx hy
  have := h i hx
  simpa [hx, hy] using this

/-- The product of a matrix with a vector, from the entries of the matrix. -/
def product (rows cols : ℕ) (a : ℕ → ℕ → K) (x : Array K) : Array K :=
  tabulate rows fun i => ∑ j ∈ range cols, a i j * x.getD j 0

@[simp] theorem size_product (rows cols : ℕ) (a : ℕ → ℕ → K) (x : Array K) :
    (product rows cols a x).size = rows := size_tabulate _ _

/-- An entry of a product is the scalar product with a row. -/
theorem getD_product {rows cols : ℕ} {a : ℕ → ℕ → K} {x : Array K} {i : ℕ} (hi : i < rows) :
    (product rows cols a x).getD i 0 = ∑ j ∈ range cols, a i j * x.getD j 0 := by
  rw [product]
  rw [getD_tabulate, if_pos hi]

/-- A product depends on the entries inside the matrix only. -/
theorem product_congr {rows cols : ℕ} {a b : ℕ → ℕ → K} {x y : Array K}
    (hab : ∀ i j, i < rows → j < cols → a i j = b i j)
    (hxy : ∀ j, j < cols → x.getD j 0 = y.getD j 0) :
    product rows cols a x = product rows cols b y := by
  refine ext_getD (by simp) fun i hi => ?_
  rw [size_product] at hi
  rw [getD_product hi, getD_product hi]
  refine sum_congr rfl fun j hj => ?_
  have hj := mem_range.1 hj
  rw [hab i j hi hj, hxy j hj]

/-- A product with a product is a product with the product of the matrices. -/
theorem product_product (l m n : ℕ) (a b : ℕ → ℕ → K) (x : Array K) :
    product l m a (product m n b x) =
      product l n (fun i j => ∑ k ∈ range m, a i k * b k j) x := by
  refine ext_getD (by simp) fun i hi => ?_
  rw [size_product] at hi
  rw [getD_product hi, getD_product hi]
  have hinner : ∀ k ∈ range m, a i k * (product m n b x).getD k 0 =
      ∑ j ∈ range n, a i k * b k j * x.getD j 0 := by
    intro k hk
    rw [getD_product (mem_range.1 hk), mul_sum]
    exact sum_congr rfl fun j _ => (mul_assoc _ _ _).symm
  rw [sum_congr rfl hinner, sum_comm]
  exact sum_congr rfl fun j _ => (sum_mul _ _ _).symm

/-- The products of an operator are those of a matrix. -/
structure LinearOperator.Represents (op : LinearOperator K) (rows cols : ℕ) (a : ℕ → ℕ → K) :
    Prop where
  rows_eq : op.rows = rows
  cols_eq : op.cols = cols
  apply_eq : ∀ x : Array K, x.size = cols → op.apply x = .ok (product rows cols a x)
  applyTranspose_eq : ∀ x : Array K, x.size = rows →
    op.applyTranspose x = .ok (product cols rows (fun i j => a j i) x)

/-- Only the entries inside the matrix count. -/
theorem LinearOperator.Represents.congr {op : LinearOperator K} {rows cols : ℕ} {a b : ℕ → ℕ → K}
    (h : op.Represents rows cols a) (hab : ∀ i j, i < rows → j < cols → a i j = b i j) :
    op.Represents rows cols b where
  rows_eq := h.rows_eq
  cols_eq := h.cols_eq
  apply_eq x hx := by
    rw [h.apply_eq x hx]
    exact congrArg Except.ok (product_congr hab fun _ _ => rfl)
  applyTranspose_eq x hx := by
    rw [h.applyTranspose_eq x hx]
    exact congrArg Except.ok (product_congr (fun i j hi hj => hab j i hj hi) fun _ _ => rfl)

/-- The entries of a matrix in a given orientation. -/
def Orientation.entries (o : Orientation) (a : ℕ → ℕ → K) : ℕ → ℕ → K :=
  match o with
  | plain => a
  | transposed => fun i j => a j i

/-- The products of an operator in either orientation, for a square matrix. -/
theorem LinearOperator.Represents.applyIn_eq {op : LinearOperator K} {r : ℕ} {a : ℕ → ℕ → K}
    (h : op.Represents r r a) (o : Orientation) {x : Array K} (hx : x.size = r) :
    op.applyIn o x = .ok (product r r (o.entries a) x) := by
  cases o with
  | plain => exact h.apply_eq x hx
  | transposed => exact h.applyTranspose_eq x hx

/-- The products of an operator in either orientation. -/
theorem LinearOperator.Represents.applyIn_eq_product {op : LinearOperator K} {rows cols : ℕ}
    {a : ℕ → ℕ → K} (h : op.Represents rows cols a) (o : Orientation) {x : Array K}
    (hx : x.size = op.colsIn o) :
    op.applyIn o x = .ok (product (op.rowsIn o) (op.colsIn o) (o.entries a) x) := by
  cases o with
  | plain =>
    have hx : x.size = cols := hx.trans h.cols_eq
    show op.apply x = .ok (product op.rows op.cols a x)
    rw [h.apply_eq x hx, h.rows_eq, h.cols_eq]
  | transposed =>
    have hx : x.size = rows := hx.trans h.rows_eq
    show op.applyTranspose x = .ok (product op.cols op.rows (fun i j => a j i) x)
    rw [h.applyTranspose_eq x hx, h.rows_eq, h.cols_eq]

/-- The solutions are those with a square matrix, in either orientation. -/
def Inverts (solve : Orientation → Array K → Checked (Array K)) (r : ℕ) (a : ℕ → ℕ → K) : Prop :=
  ∀ (o : Orientation) (b : Array K), b.size = r →
    ∃ x, solve o b = .ok x ∧ x.size = r ∧ product r r (o.entries a) x = b

/-- Only the entries inside the matrix count. -/
theorem Inverts.congr {solve : Orientation → Array K → Checked (Array K)} {r : ℕ}
    {a b : ℕ → ℕ → K} (h : Inverts solve r a) (hab : ∀ i j, i < r → j < r → a i j = b i j) :
    Inverts solve r b := by
  intro o y hy
  obtain ⟨x, hx, hsize, hproduct⟩ := h o y hy
  refine ⟨x, hx, hsize, ?_⟩
  rw [← hproduct]
  refine product_congr (fun i j hi hj => ?_) fun _ _ => rfl
  cases o with
  | plain => exact (hab i j hi hj).symm
  | transposed => exact (hab j i hj hi).symm

section Sums

/-- A chained sum is the sum of its products. -/
theorem chainedSum_eq (n : ℕ) (f g : ℕ → K) : chainedSum n f g = ∑ k ∈ range n, f k * g k := by
  have hfold : ∀ (n : ℕ) (s : K),
      (List.range n).foldl (fun s k => f (k + 1) * g (k + 1) + s) s =
        s + ∑ k ∈ range n, f (k + 1) * g (k + 1) := by
    intro n s
    rw [← foldl_add_range]
    congr 1
    funext s k
    exact add_comm _ _
  cases n with
  | zero => rfl
  | succ n =>
    show (List.range n).foldl _ (f 0 * g 0) = _
    rw [hfold, sum_range_succ', add_comm]

/-- One lane of a blocked sum adds every eighth product. -/
theorem laneSum_eq (blocks : ℕ) (f g : ℕ → K) (q : ℕ) :
    laneSum blocks f g q = ∑ b ∈ range blocks, f (8 * b + q) * g (8 * b + q) := by
  rw [laneSum]
  rw [foldl_add_range (fun b => f (8 * b + q) * g (8 * b + q)), zero_add]

/-- The lanes together run over the whole blocks. -/
theorem sum_laneSum (blocks : ℕ) (f g : ℕ → K) :
    ∑ q ∈ range 8, laneSum blocks f g q = ∑ k ∈ range (8 * blocks), f k * g k := by
  simp only [laneSum_eq]
  rw [sum_comm]
  induction blocks with
  | zero => rfl
  | succ blocks ih => rw [sum_range_succ, ih, Nat.mul_succ, sum_range_add]

/-- A blocked sum is the sum of its products. -/
theorem blockedSum_eq (n : ℕ) (f g : ℕ → K) : blockedSum n f g = ∑ k ∈ range n, f k * g k := by
  have hlanes : (List.range 4).foldl (fun s q => s + (laneSum (n / 8) f g q +
      laneSum (n / 8) f g (q + 4))) 0 = ∑ k ∈ range (8 * (n / 8)), f k * g k := by
    rw [foldl_add_range (fun q => laneSum (n / 8) f g q + laneSum (n / 8) f g (q + 4)), zero_add,
      sum_add_distrib, ← sum_laneSum, show 8 = 4 + 4 from rfl, sum_range_add]
    simp only [Nat.add_comm]
  have hrest : range n = range (8 * (n / 8) + n % 8) := by rw [Nat.div_add_mod]
  rw [blockedSum]
  rw [hlanes, List.range'_eq_map_range, List.foldl_map,
    foldl_add_range (fun k => f (8 * (n / 8) + k) * g (8 * (n / 8) + k)), hrest, sum_range_add]

end Sums

section Sparse

/-- The value of a sparse vector at an index, zero where nothing is stored. -/
def SparseVec.value (v : SparseVec K) (i : ℕ) : K := (v.find? i).getD 0

private theorem sum_lookup {l : List (ℕ × K)} (hl : l.Pairwise fun a b => a.1 < b.1) {n : ℕ}
    (hn : ∀ e ∈ l, e.1 < n) (f : ℕ → K) :
    (l.map fun e => e.2 * f e.1).sum =
      ∑ i ∈ range n, (SparseVec.lookup i l).getD 0 * f i := by
  induction l with
  | nil => simp [SparseVec.lookup]
  | cons e l ih =>
    obtain ⟨hlt, htail⟩ := List.pairwise_cons.1 hl
    have hnone : SparseVec.lookup e.1 l = none := SparseVec.lookup_eq_none_of_lt hlt
    have hterm : ∀ i ∈ range n, (SparseVec.lookup i (e :: l)).getD 0 * f i =
        (if i = e.1 then e.2 * f e.1 else 0) + (SparseVec.lookup i l).getD 0 * f i := by
      intro i _
      rw [SparseVec.lookup]
      by_cases hi : i = e.1
      · subst hi
        simp [hnone]
      · have hi' : ¬e.1 = i := fun h => hi h.symm
        simp [hi, hi']
    rw [List.map_cons, List.sum_cons, ih htail fun e' he' => hn e' (List.mem_cons_of_mem _ he'),
      sum_congr rfl hterm, sum_add_distrib, sum_ite_eq',
      if_pos (mem_range.2 (hn e List.mem_cons_self))]

/-- A sum over the stored entries is the sum over all indices. -/
theorem SparseVec.sum_entries (v : SparseVec K) {n : ℕ} (hn : ∀ e ∈ v.entries, e.1 < n)
    (f : ℕ → K) :
    (v.entries.map fun e => e.2 * f e.1).sum = ∑ i ∈ range n, v.value i * f i :=
  sum_lookup v.sorted hn f

/-- Adding values at listed positions adds to each entry the values listed for it. -/
theorem getD_foldl_modify {β : Type} (l : List β) (position : β → ℕ) (g : β → K) (y : Array K)
    {i : ℕ} (hi : i < y.size) :
    (l.foldl (fun y t => y.modify (position t) fun s => s + g t) y).getD i 0 =
      y.getD i 0 + (l.map fun t => if position t = i then g t else 0).sum := by
  induction l generalizing y with
  | nil => simp
  | cons t l ih =>
    have hstep : (y.modify (position t) fun s => s + g t).getD i 0 =
        y.getD i 0 + if position t = i then g t else 0 := by
      rw [Array.getD_eq_getD_getElem?, Array.getElem?_modify, Array.getD_eq_getD_getElem?]
      by_cases h : position t = i <;> simp [h, hi]
    rw [List.foldl_cons, ih _ (by simpa using hi), hstep, List.map_cons, List.sum_cons, add_assoc]

namespace SparseMatrix

/-- The value at a position outside the matrix is zero. -/
theorem entry_eq_zero {a : SparseMatrix K} {i j : ℕ} (h : ¬(i < a.rows ∧ j < a.cols)) :
    a.entry i j = 0 := by
  rw [entry]
  cases hv : a.find? i j with
  | none => rfl
  | some v => exact absurd (lt_of_find?_eq_some hv) h

/-- The dense copy has the entries of the sparse matrix. -/
theorem entry_toDense (a : SparseMatrix K) (i j : ℕ) : a.toDense.entry i j = a.entry i j := by
  rw [toDense]
  rw [DenseMatrix.entry_ofFn]
  by_cases h : i < a.rows ∧ j < a.cols
  · rw [if_pos h]
    rw [entry]
    cases a.find? i j with
    | none => rfl
    | some v => exact zero_add v
  · rw [if_neg h, entry_eq_zero h]

private theorem sum_toTriplets (a : SparseMatrix K) (f : ℕ → ℕ → K) :
    (a.toTriplets.map fun t => t.2.2 * f t.1 t.2.1).sum =
      ∑ j ∈ range a.cols, ∑ i ∈ range a.rows, a.entry i j * f i j := by
  have hcolumn : ∀ j, ∀ e ∈ (a.column j).entries, e.1 < a.rows := by
    intro j e he
    have hfind : a.find? e.1 j = some e.2 := (SparseVec.mem_entries_iff _ _ _).1 he
    exact (lt_of_find?_eq_some hfind).1
  rw [toTriplets]
  induction a.cols with
  | zero => rfl
  | succ n ih =>
    rw [List.range_succ, List.flatMap_append, List.map_append, List.sum_append, ih, sum_range_succ,
      List.flatMap_singleton, List.map_map]
    congr 1
    exact (a.column n).sum_entries (hcolumn n) fun i => f i n

/-- The accumulated product adds a multiple of the scalar product to every entry. -/
theorem getD_accumulate (a : SparseMatrix K) (alpha : K) (x : Array K) {y : Array K}
    (hy : y.size = a.rows) {i : ℕ} (hi : i < a.rows) :
    (a.accumulate alpha x y).getD i 0 =
      y.getD i 0 + alpha * ∑ j ∈ range a.cols, a.entry i j * x.getD j 0 := by
  rw [accumulate]
  split
  · rename_i hzero
    rw [Scalar.isZero_iff.1 hzero, zero_mul, add_zero]
  · rw [getD_foldl_modify _ _ (fun t : ℕ × ℕ × K => alpha * t.2.2 * x.getD t.2.1 0) y (hy ▸ hi)]
    congr 1
    have hterm : ∀ t : ℕ × ℕ × K, (if t.1 = i then alpha * t.2.2 * x.getD t.2.1 0 else 0) =
        t.2.2 * if t.1 = i then alpha * x.getD t.2.1 0 else 0 := by
      intro t
      split <;> ring
    simp only [hterm]
    rw [a.sum_toTriplets fun i' j => if i' = i then alpha * x.getD j 0 else 0, mul_sum]
    refine sum_congr rfl fun j _ => ?_
    rw [sum_congr rfl fun i' _ => mul_ite _ _ _ _]
    simp only [mul_zero]
    rw [sum_ite_eq', if_pos (mem_range.2 hi)]
    ring

/-- So does the transposed one, with the columns. -/
theorem getD_accumulateTranspose (a : SparseMatrix K) (alpha : K) (x : Array K) {y : Array K}
    (hy : y.size = a.cols) {j : ℕ} (hj : j < a.cols) :
    (a.accumulateTranspose alpha x y).getD j 0 =
      y.getD j 0 + alpha * ∑ i ∈ range a.rows, a.entry i j * x.getD i 0 := by
  rw [accumulateTranspose]
  split
  · rename_i hzero
    rw [Scalar.isZero_iff.1 hzero, zero_mul, add_zero]
  · rw [getD_foldl_modify _ _ (fun t : ℕ × ℕ × K => alpha * t.2.2 * x.getD t.1 0) y (hy ▸ hj)]
    congr 1
    have hterm : ∀ t : ℕ × ℕ × K, (if t.2.1 = j then alpha * t.2.2 * x.getD t.1 0 else 0) =
        t.2.2 * if t.2.1 = j then alpha * x.getD t.1 0 else 0 := by
      intro t
      split <;> ring
    simp only [hterm]
    rw [a.sum_toTriplets fun i j' => if j' = j then alpha * x.getD i 0 else 0]
    have hcol : ∀ j' ∈ range a.cols,
        (∑ i ∈ range a.rows, a.entry i j' * if j' = j then alpha * x.getD i 0 else 0) =
          if j' = j then alpha * ∑ i ∈ range a.rows, a.entry i j * x.getD i 0 else 0 := by
      intro j' _
      by_cases h : j' = j
      · subst h
        rw [if_pos rfl, mul_sum]
        refine sum_congr rfl fun i _ => ?_
        rw [if_pos rfl]
        ring
      · simp [h]
    rw [sum_congr rfl hcol, sum_ite_eq', if_pos (mem_range.2 hj)]

/-- Scaling by zero writes zeros, which in exact arithmetic is a multiple like any other. -/
theorem getD_scaled (beta : K) (y : Array K) {i : ℕ} (hi : i < y.size) :
    (scaled beta y).getD i 0 = beta * y.getD i 0 := by
  rw [scaled]
  split
  · rename_i hzero
    rw [Vec.getD_zero, Scalar.isZero_iff.1 hzero, zero_mul]
  · split
    · rename_i hone
      rw [Scalar.eq_iff.1 hone, one_mul]
    · simp [hi, mul_comm]

/-- The general product adds multiples of the product and of the given vector. -/
theorem mulAdd_eq (a : SparseMatrix K) {x y : Array K} (hx : x.size = a.cols)
    (hy : y.size = a.rows) (alpha beta : K) :
    a.mulAdd x y alpha beta = .ok (tabulate a.rows fun i =>
      beta * y.getD i 0 + alpha * ∑ j ∈ range a.cols, a.entry i j * x.getD j 0) := by
  rw [mulAdd_eq_ok hx hy]
  refine congrArg Except.ok (ext_getD ?_ fun i hi => ?_)
  · rw [size_accumulate, size_scaled, hy, size_tabulate]
  · rw [size_accumulate, size_scaled, hy] at hi
    have hs : (scaled beta y).size = a.rows := (size_scaled beta y).trans hy
    rw [getD_accumulate a alpha x hs hi, getD_scaled beta y (hy ▸ hi), getD_tabulate, if_pos hi]

/-- The combined transposed product of vectors of the right sizes. -/
theorem mulAddTranspose_eq (a : SparseMatrix K) {x y : Array K} (hx : x.size = a.rows)
    (hy : y.size = a.cols) (alpha beta : K) :
    a.mulAddTranspose x y alpha beta = .ok (tabulate a.cols fun j =>
      beta * y.getD j 0 + alpha * ∑ i ∈ range a.rows, a.entry i j * x.getD i 0) := by
  rw [mulAddTranspose_eq_ok hx hy]
  refine congrArg Except.ok (ext_getD ?_ fun j hj => ?_)
  · rw [size_accumulateTranspose, size_scaled, hy, size_tabulate]
  · rw [size_accumulateTranspose, size_scaled, hy] at hj
    have hs : (scaled beta y).size = a.cols := (size_scaled beta y).trans hy
    rw [getD_accumulateTranspose a alpha x hs hj, getD_scaled beta y (hy ▸ hj), getD_tabulate,
      if_pos hj]

/-- Without a vector to add to, it is the product with the multiplied entries. -/
theorem mulVec_eq (a : SparseMatrix K) (alpha : K) {x : Array K} (hx : x.size = a.cols) :
    a.mulVec alpha x = .ok (product a.rows a.cols (fun i j => alpha * a.entry i j) x) := by
  rw [mulVec]
  rw [mulAdd_eq a hx (Vec.size_zero _)]
  refine congrArg Except.ok (ext_getD (by simp) fun i hi => ?_)
  rw [size_tabulate] at hi
  rw [getD_product hi, getD_tabulate, if_pos hi, zero_mul, zero_add, mul_sum]
  exact sum_congr rfl fun j _ => (mul_assoc _ _ _).symm

/-- In the other orientation as well. -/
theorem mulVecTranspose_eq (a : SparseMatrix K) (alpha : K) {x : Array K} (hx : x.size = a.rows) :
    a.mulVecTranspose alpha x =
      .ok (product a.cols a.rows (fun j i => alpha * a.entry i j) x) := by
  rw [mulVecTranspose]
  rw [mulAddTranspose_eq a hx (Vec.size_zero _)]
  refine congrArg Except.ok (ext_getD (by simp) fun j hj => ?_)
  rw [size_tabulate] at hj
  rw [getD_product hj, getD_tabulate, if_pos hj, zero_mul, zero_add, mul_sum]
  exact sum_congr rfl fun i _ => (mul_assoc _ _ _).symm

/-- A sparse matrix as an operator multiplies by its values. -/
theorem represents (a : SparseMatrix K) : a.toOperator.Represents a.rows a.cols a.entry where
  rows_eq := rfl
  cols_eq := rfl
  apply_eq x hx := by
    show a.mulVec 1 x = _
    simp only [mulVec_eq a 1 hx, one_mul]
  applyTranspose_eq x hx := by
    show a.mulVecTranspose 1 x = _
    simp only [mulVecTranspose_eq a 1 hx, one_mul]

end SparseMatrix

end Sparse

section Dense

namespace DenseMatrix

/-- The blocked sum of a dense product is the scalar product. -/
theorem mulVecEntry_eq (a : DenseMatrix K) (x : Array K) (i : ℕ) :
    a.mulVecEntry x i = ∑ j ∈ range a.cols, a.entry i j * x.getD j 0 := by
  have hterm : (fun (s : K) j => let xj := x.getD j 0
      if Scalar.isZero xj then s else s + a.entry i j * xj) =
        fun s j => s + a.entry i j * x.getD j 0 := by
    funext s j
    dsimp only
    split
    · rename_i hzero
      rw [Scalar.isZero_iff.1 hzero, mul_zero, add_zero]
    · rfl
  rw [mulVecEntry]
  rw [hterm, foldl_add_range, zero_add]

/-- So is the transposed one. -/
theorem mulVecTransposeEntry_eq (a : DenseMatrix K) (x : Array K) (j : ℕ) :
    a.mulVecTransposeEntry x j = ∑ i ∈ range a.rows, a.entry i j * x.getD i 0 := by
  rw [mulVecTransposeEntry]
  rw [foldl_add_range, neg_zero, zero_add]

/-- A dense matrix as an operator multiplies by its entries. -/
theorem represents (a : DenseMatrix K) : a.toOperator.Represents a.rows a.cols a.entry where
  rows_eq := rfl
  cols_eq := rfl
  apply_eq x hx := by
    show a.mulVec x = _
    rw [mulVec]
    rw [hx, Checked.sameLength_self]
    refine congrArg Except.ok (ext_getD (by simp) fun i hi => ?_)
    rw [size_tabulate] at hi
    rw [getD_tabulate, if_pos hi, mulVecEntry_eq, getD_product hi]
  applyTranspose_eq x hx := by
    show a.mulVecTranspose x = _
    rw [mulVecTranspose]
    rw [hx, Checked.sameLength_self]
    refine congrArg Except.ok (ext_getD (by simp) fun j hj => ?_)
    rw [size_tabulate] at hj
    rw [getD_tabulate, if_pos hj, mulVecTransposeEntry_eq, getD_product hj]

/-- A matrix that tabulates entries multiplies by them. -/
theorem represents_ofFn (r c : ℕ) (a : ℕ → ℕ → K) :
    (ofFn r c a).toOperator.Represents r c a := by
  refine (ofFn r c a).represents.congr fun i j hi hj => ?_
  rw [entry_ofFn, if_pos ⟨hi, hj⟩]

/-- The chained product is the product with the entries. -/
theorem mulVecChained_eq (a : DenseMatrix K) (x : Array K) :
    a.mulVecChained x = product a.rows a.cols a.entry x := by
  rw [mulVecChained, product]
  congr 1
  funext i
  exact chainedSum_eq _ _ _

/-- For a matrix that is given by its entries. -/
theorem mulVecChained_ofFn (r c : ℕ) (a : ℕ → ℕ → K) (x : Array K) :
    (ofFn r c a).mulVecChained x = product r c a x := by
  rw [mulVecChained_eq]
  refine product_congr (fun i j hi hj => ?_) fun _ _ => rfl
  rw [entry_ofFn, if_pos ⟨hi, hj⟩]

/-- And for its transpose. -/
theorem mulVecChained_transpose_ofFn (r c : ℕ) (a : ℕ → ℕ → K) (x : Array K) :
    (ofFn r c a).transpose.mulVecChained x = product c r (fun j i => a i j) x := by
  rw [mulVecChained_eq]
  refine product_congr (fun j i hj hi => ?_) fun _ _ => rfl
  rw [entry_transpose, entry_ofFn, if_pos ⟨hi, hj⟩]

/-- A matrix built from tabulated columns is the table of its entries. -/
theorem ofColumns_tabulate (r c : ℕ) (f : ℕ → ℕ → K) :
    ofColumns r ((List.range c).map fun j => tabulate r fun i => f i j).toArray = ofFn r c f := by
  refine ext_entry rfl (by simp [ofColumns]) fun i j hi hj => ?_
  have hj : j < c := by simpa [ofColumns] using hj
  have hi : i < r := hi
  have hcolumn : (((List.range c).map fun j => tabulate r fun i => f i j).toArray).getD j #[] =
      tabulate r fun i => f i j := by
    simp [hj]
  rw [ofColumns]
  rw [entry_ofFn, entry_ofFn, if_pos ⟨hi, by simpa using hj⟩, if_pos ⟨hi, hj⟩, hcolumn,
    getD_tabulate, if_pos hi]

/-- An entry of a product of two matrices. -/
theorem entry_mul (a b : DenseMatrix K) {i j : ℕ} (hi : i < a.rows) (hj : j < b.cols) :
    (a.mul b).entry i j = ∑ k ∈ range a.cols, a.entry i k * b.entry k j := by
  rw [mul]
  rw [entry_ofFn, if_pos ⟨hi, hj⟩, chainedSum_eq]

end DenseMatrix

end Dense

end ReducedSpace
