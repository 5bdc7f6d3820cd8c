import ReducedSpace.Sparse.Matrix

/-!
# Dense matrices

A dense matrix is the row-by-row table of its entries. It is built with `ofFn` and read with
`entry`, which is zero outside the matrix, so every operation is described by one equation on
entries.
-/

namespace ReducedSpace

/-- The position of an entry in the row-by-row table is inside the table. -/
theorem flat_lt {rows cols i j : Nat} (hi : i < rows) (hj : j < cols) :
    i * cols + j < rows * cols := by
  have : (i + 1) * cols ≤ rows * cols := Nat.mul_le_mul_right _ hi
  rw [Nat.succ_mul] at this
  omega

/-- A matrix that stores all its entries, row by row. -/
structure DenseMatrix (α : Type) where
  rows : Nat
  cols : Nat
  data : Array α
  size_data : data.size = rows * cols

namespace DenseMatrix

variable {α : Type}

/-- The matrix of the given size with the entries `f i j`. -/
def ofFn (rows cols : Nat) (f : Nat → Nat → α) : DenseMatrix α where
  rows := rows
  cols := cols
  data := tabulate (rows * cols) fun k => f (k / cols) (k % cols)
  size_data := by simp

@[simp] theorem rows_ofFn (rows cols : Nat) (f : Nat → Nat → α) : (ofFn rows cols f).rows = rows :=
  rfl

@[simp] theorem cols_ofFn (rows cols : Nat) (f : Nat → Nat → α) : (ofFn rows cols f).cols = cols :=
  rfl

variable [Scalar α]

/-- The entry at a position, zero outside the matrix. -/
def entry (a : DenseMatrix α) (i j : Nat) : α :=
  if i < a.rows ∧ j < a.cols then a.data.getD (i * a.cols + j) 0 else 0

@[simp] theorem entry_ofFn (rows cols : Nat) (f : Nat → Nat → α) (i j : Nat) :
    (ofFn rows cols f).entry i j = if i < rows ∧ j < cols then f i j else 0 := by
  show (if i < rows ∧ j < cols then
    (tabulate (rows * cols) fun k => f (k / cols) (k % cols)).getD (i * cols + j) 0 else 0) = _
  by_cases h : i < rows ∧ j < cols
  · have hpos : 0 < cols := by omega
    rw [if_pos h, if_pos h, getD_tabulate, if_pos (flat_lt h.1 h.2), Nat.mul_comm i cols,
      Nat.mul_add_div hpos, Nat.mul_add_mod, Nat.div_eq_of_lt h.2, Nat.mod_eq_of_lt h.2,
      Nat.add_zero]
  · rw [if_neg h, if_neg h]

/-- A matrix is determined by its size and its entries. -/
theorem ext_entry {a b : DenseMatrix α} (hr : a.rows = b.rows) (hc : a.cols = b.cols)
    (h : ∀ i j, i < a.rows → j < a.cols → a.entry i j = b.entry i j) : a = b := by
  have hs : a.data.size = b.data.size := by rw [a.size_data, b.size_data, hr, hc]
  have hd : a.data = b.data := by
    apply Array.ext hs
    intro k ha hb
    have hk : k < a.rows * a.cols := a.size_data ▸ ha
    have hpos : 0 < a.cols := by
      rcases Nat.eq_zero_or_pos a.cols with h0 | h0
      · rw [h0] at hk
        omega
      · exact h0
    have hi : k / a.cols < a.rows := Nat.div_lt_of_lt_mul (Nat.mul_comm _ _ ▸ hk)
    have hj : k % a.cols < a.cols := Nat.mod_lt _ hpos
    have := h _ _ hi hj
    unfold entry at this
    rw [← hr, ← hc, if_pos ⟨hi, hj⟩, if_pos ⟨hi, hj⟩, Nat.div_add_mod'] at this
    simpa [ha, hb] using this
  cases a
  cases b
  simp_all

/-- A matrix is the table of its entries. -/
theorem ofFn_entry (a : DenseMatrix α) : ofFn a.rows a.cols a.entry = a :=
  ext_entry rfl rfl fun i j hi hj => by
    rw [entry_ofFn]
    exact if_pos ⟨hi, hj⟩

/-- The matrix of the given size whose entries are all zero. -/
def zero (rows cols : Nat) : DenseMatrix α := ofFn rows cols fun _ _ => 0

/-- The transposed matrix. -/
def transpose (a : DenseMatrix α) : DenseMatrix α := ofFn a.cols a.rows fun i j => a.entry j i

@[simp] theorem entry_transpose (a : DenseMatrix α) (i j : Nat) :
    a.transpose.entry i j = a.entry j i := by
  rw [transpose]
  rw [entry_ofFn]
  split
  · rfl
  · rename_i h
    rw [entry]
    rw [if_neg fun h' => h h'.symm]

/-- The column at an index. -/
def column (a : DenseMatrix α) (j : Nat) : Array α := tabulate a.rows fun i => a.entry i j

/-- The leading block of the given size. -/
def leading (a : DenseMatrix α) (rows cols : Nat) : DenseMatrix α := ofFn rows cols a.entry

/-- The matrix with rows `k` and `p` exchanged. -/
def swapRows (a : DenseMatrix α) (k p : Nat) : DenseMatrix α :=
  ofFn a.rows a.cols fun i j => a.entry (Permutation.exchange k p i) j

/-- An entry after an exchange of rows is found in the other row. -/
theorem entry_swapRows (a : DenseMatrix α) {k p : Nat} (hk : k < a.rows) (hp : p < a.rows)
    (i j : Nat) : (a.swapRows k p).entry i j = a.entry (Permutation.exchange k p i) j := by
  have hi : Permutation.exchange k p i < a.rows ↔ i < a.rows := by
    rw [Permutation.exchange]
    grind
  rw [swapRows]
  rw [entry_ofFn]
  split
  · rfl
  · rw [entry]
    rw [if_neg (by rw [hi]; assumption)]

/-- The matrix with columns `k` and `q` exchanged. -/
def swapCols (a : DenseMatrix α) (k q : Nat) : DenseMatrix α :=
  ofFn a.rows a.cols fun i j => a.entry i (Permutation.exchange k q j)

/-- After an exchange of columns it is found in the other column. -/
theorem entry_swapCols (a : DenseMatrix α) {k q : Nat} (hk : k < a.cols) (hq : q < a.cols)
    (i j : Nat) : (a.swapCols k q).entry i j = a.entry i (Permutation.exchange k q j) := by
  have hj : Permutation.exchange k q j < a.cols ↔ j < a.cols := by
    rw [Permutation.exchange]
    grind
  rw [swapCols]
  rw [entry_ofFn]
  split
  · rfl
  · rw [entry]
    rw [if_neg (by rw [hj]; assumption)]

/-- The matrix with the given columns, all of length `rows`. -/
def ofColumns (rows : Nat) (columns : Array (Array α)) : DenseMatrix α :=
  ofFn rows columns.size fun i j => (columns.getD j #[]).getD i 0

/-- The largest magnitude of an entry as a comparison finds it: the first entry starts, and an entry
replaces the candidate unless the candidate is at least as large. -/
def maxAbs (a : DenseMatrix α) : α :=
  let magnitudes := (List.range a.cols).flatMap fun j =>
    (List.range a.rows).map fun i => Scalar.abs (a.entry i j)
  match magnitudes with
  | [] => 0
  | first :: rest => rest.foldl (fun acc v => if Scalar.le v acc then acc else v) first

/-- One step of elimination below the pivot `(k, k)`: the multipliers replace the column of the
pivot, and each row loses its multiple of the pivot row. A row with multiplier zero stays as it
is. -/
def eliminate (a : DenseMatrix α) (k : Nat) : DenseMatrix α :=
  let multipliers := tabulate a.rows fun i => a.entry i k / a.entry k k
  ofFn a.rows a.cols fun i j =>
    let l := multipliers.getD i 0
    if i ≤ k ∨ j < k then a.entry i j
    else if j = k then l
    else if Scalar.isZero l then a.entry i j
    else a.entry i j - l * a.entry k j

/-- What one step of elimination leaves at each position of the matrix. -/
theorem entry_eliminate (a : DenseMatrix α) (k : Nat) {i j : Nat} (hi : i < a.rows)
    (hj : j < a.cols) :
    (a.eliminate k).entry i j =
      if i ≤ k ∨ j < k then a.entry i j
      else if j = k then a.entry i k / a.entry k k
      else if Scalar.isZero (a.entry i k / a.entry k k) then a.entry i j
      else a.entry i j - a.entry i k / a.entry k k * a.entry k j := by
  rw [eliminate]
  simp only [entry_ofFn, hi, hj, and_self, if_true, getD_tabulate]

end DenseMatrix

namespace SparseMatrix

variable {α : Type} [Scalar α]

/-- The value at a position; positions that store nothing hold zero. -/
def entry (a : SparseMatrix α) (i j : Nat) : α := (a.find? i j).getD 0

/-- The dense matrix with the same values. A stored value is added to zero, so a stored negative
zero becomes zero. -/
def toDense (a : SparseMatrix α) : DenseMatrix α :=
  .ofFn a.rows a.cols fun i j => match a.find? i j with
    | none => 0
    | some v => 0 + v

/-- The sparse matrix that stores the nonzero entries of a dense one. -/
def ofDense (d : DenseMatrix α) : SparseMatrix α :=
  ofEntries d.rows d.cols fun i j =>
    let v := d.entry i j
    if Scalar.isZero v then none else some v

end SparseMatrix

end ReducedSpace
