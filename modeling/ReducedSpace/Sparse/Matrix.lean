import ReducedSpace.Sparse.Vector
import ReducedSpace.Permutation

/-!
# Sparse matrices

A sparse matrix holds one sparse vector per column. The stored entries of a position are unique, the
row indices are in range, and both facts are part of the type. A stored value may be zero, and a
matrix is determined by its size and by what `find?` answers at every position.

Most operations are `ofEntries` applied to the rule that says which value is stored where. Building
from triplets is the exception: it adds up the values listed for one position, in their order.
-/

namespace ReducedSpace

/-- A matrix that stores some of its entries, by columns. -/
structure SparseMatrix (α : Type) where
  rows : Nat
  cols : Nat
  columns : Array (SparseVec α)
  size_columns : columns.size = cols
  index_lt : ∀ v ∈ columns, ∀ e ∈ v.entries, e.1 < rows

namespace SparseMatrix

variable {α : Type}

/-- A column; a column out of range stores nothing. -/
def column (a : SparseMatrix α) (j : Nat) : SparseVec α := a.columns.getD j .empty

/-- The value stored at a position. -/
def find? (a : SparseMatrix α) (i j : Nat) : Option α := (a.column j).find? i

/-- The number of stored entries. -/
def storedCount (a : SparseMatrix α) : Nat := a.columns.foldl (fun n v => n + v.size) 0

/-- The stored entries as `(row, column, value)`, column by column with ascending rows. -/
def toTriplets (a : SparseMatrix α) : List (Nat × Nat × α) :=
  (List.range a.cols).flatMap fun j => (a.column j).entries.map fun e => (e.1, j, e.2)

/-- The matrix that stores at each position what `f` gives. -/
def ofEntries (rows cols : Nat) (f : Nat → Nat → Option α) : SparseMatrix α where
  rows := rows
  cols := cols
  columns := tabulate cols fun j => .ofFn rows fun i => f i j
  size_columns := by simp
  index_lt v hv e he := by
    rw [tabulate] at hv
    simp only [Array.mem_ofFn] at hv
    obtain ⟨_, rfl⟩ := hv
    simp only [SparseVec.ofFn, List.mem_filterMap, List.mem_range, Option.map_eq_some_iff] at he
    obtain ⟨_, hi, _, _, rfl⟩ := he
    exact hi

@[simp] theorem rows_ofEntries (rows cols : Nat) (f : Nat → Nat → Option α) :
    (ofEntries rows cols f).rows = rows := rfl

@[simp] theorem cols_ofEntries (rows cols : Nat) (f : Nat → Nat → Option α) :
    (ofEntries rows cols f).cols = cols := rfl

/-- A matrix that is built by a rule stores what the rule says, in range. -/
@[simp] theorem find?_ofEntries (rows cols : Nat) (f : Nat → Nat → Option α) (i j : Nat) :
    (ofEntries rows cols f).find? i j = if i < rows ∧ j < cols then f i j else none := by
  rw [find?, column]
  show ((tabulate cols fun j => SparseVec.ofFn rows fun i => f i j).getD j .empty).find? i = _
  rw [getD_tabulate]
  by_cases hj : j < cols <;> simp [hj]

/-- A matrix is determined by its size and its stored entries. -/
theorem ext_find? {a b : SparseMatrix α} (hr : a.rows = b.rows) (hc : a.cols = b.cols)
    (h : ∀ i j, a.find? i j = b.find? i j) : a = b := by
  have hcol : ∀ j, a.column j = b.column j := fun j => SparseVec.ext_find? fun i => h i j
  have hs : a.columns.size = b.columns.size := by rw [a.size_columns, b.size_columns, hc]
  have hcols : a.columns = b.columns := by
    apply Array.ext hs
    intro j ha hb
    have := hcol j
    unfold column at this
    simpa [ha, hb] using this
  cases a
  cases b
  simp_all

/-- Nothing is stored outside the matrix. -/
theorem lt_of_find?_eq_some {a : SparseMatrix α} {i j : Nat} {v : α} (h : a.find? i j = some v) :
    i < a.rows ∧ j < a.cols := by
  rw [find?, column] at h
  by_cases hj : j < a.columns.size
  · rw [Array.getD_eq_getD_getElem?] at h
    simp only [hj, getElem?_pos, Option.getD_some] at h
    exact ⟨a.index_lt _ (Array.getElem_mem hj) (i, v) ((SparseVec.mem_entries_iff _ _ _).2 h),
      a.size_columns ▸ hj⟩
  · rw [Array.getD_eq_getD_getElem?] at h
    simp [hj] at h

/-- The triplets are the stored entries. -/
theorem mem_toTriplets_iff {a : SparseMatrix α} {t : Nat × Nat × α} :
    t ∈ a.toTriplets ↔ a.find? t.1 t.2.1 = some t.2.2 := by
  rw [toTriplets, List.mem_flatMap]
  constructor
  · rintro ⟨j, -, hj⟩
    obtain ⟨e, he, rfl⟩ := List.mem_map.1 hj
    exact (SparseVec.mem_entries_iff _ _ _).1 he
  · intro h
    refine ⟨t.2.1, List.mem_range.2 (lt_of_find?_eq_some h).2, ?_⟩
    exact List.mem_map.2 ⟨(t.1, t.2.2), (SparseVec.mem_entries_iff _ _ _).2 h, rfl⟩

/-- The matrix of the given size that stores nothing. -/
def empty (rows cols : Nat) : SparseMatrix α := ofEntries rows cols fun _ _ => none

/-- Adds a value to the entry at a position; the first value of a position is stored as it is. -/
def addEntry [Add α] (a : SparseMatrix α) (i j : Nat) (v : α) : SparseMatrix α :=
  if hi : i < a.rows then
    { a with
      columns := a.columns.modify j fun c => c.alter i fun
        | none => v
        | some w => w + v
      size_columns := by simp [a.size_columns]
      index_lt := fun c hc e he => by
        obtain ⟨k, hk, rfl⟩ := Array.mem_iff_getElem.1 hc
        have hk' : k < a.columns.size := by simpa using hk
        rw [Array.getElem_modify] at he
        split at he
        · rcases SparseVec.index_mem_upsert he with h | ⟨e', he', h⟩
          · exact h ▸ hi
          · exact h ▸ a.index_lt _ (Array.getElem_mem hk') e' he'
        · exact a.index_lt _ (Array.getElem_mem hk') e he }
  else a

@[simp] theorem find?_empty (rows cols i j : Nat) :
    (empty rows cols : SparseMatrix α).find? i j = none := by
  simp [empty]

@[simp] theorem rows_addEntry [Add α] (a : SparseMatrix α) (i j : Nat) (v : α) :
    (a.addEntry i j v).rows = a.rows := by
  rw [addEntry]
  split <;> rfl

@[simp] theorem cols_addEntry [Add α] (a : SparseMatrix α) (i j : Nat) (v : α) :
    (a.addEntry i j v).cols = a.cols := by
  rw [addEntry]
  split <;> rfl

/-- Adding to an entry leaves the others as they are. -/
theorem find?_addEntry [Add α] {a : SparseMatrix α} {i j : Nat} (hi : i < a.rows) (hj : j < a.cols)
    (v : α) (i' j' : Nat) :
    (a.addEntry i j v).find? i' j' =
      if i' = i ∧ j' = j then
        some (match a.find? i j with
          | none => v
          | some w => w + v)
      else a.find? i' j' := by
  have hjs : j < a.columns.size := a.size_columns.symm ▸ hj
  unfold addEntry find? column
  rw [dif_pos hi]
  show ((a.columns.modify j _).getD j' .empty).find? i' = _
  rw [Array.getD_eq_getD_getElem?, Array.getElem?_modify]
  by_cases hj' : j = j'
  · subst hj'
    by_cases hi' : i' = i <;> simp [hjs, hi']
  · have : ¬ j' = j := fun h => hj' h.symm
    simp [hj', this]

/-- The matrix with the listed entries; values of one position are added up in their order. Every
position must be inside the matrix. -/
def ofTriplets [Add α] (rows cols : Nat) (triplets : List (Nat × Nat × α)) :
    Checked (SparseMatrix α) :=
  if triplets.all fun t => decide (t.1 < rows) && decide (t.2.1 < cols) then
    .ok (triplets.foldl (fun a t => a.addEntry t.1 t.2.1 t.2.2) (empty rows cols))
  else .error .index

/-- The identity matrix. -/
def identity [One α] (n : Nat) : SparseMatrix α :=
  ofEntries n n fun i j => if i = j then some 1 else none

/-- The transposed matrix, stored zeros included. -/
def transpose (a : SparseMatrix α) : SparseMatrix α :=
  ofEntries a.cols a.rows fun i j => a.find? j i

@[simp] theorem rows_transpose (a : SparseMatrix α) : a.transpose.rows = a.cols := rfl

@[simp] theorem cols_transpose (a : SparseMatrix α) : a.transpose.cols = a.rows := rfl

/-- The transpose stores the values at the exchanged positions. -/
@[simp] theorem find?_transpose (a : SparseMatrix α) (i j : Nat) :
    a.transpose.find? i j = a.find? j i := by
  rw [transpose]
  rw [find?_ofEntries]
  split
  · rfl
  · rename_i h
    cases hv : a.find? j i with
    | none => rfl
    | some v =>
      have := lt_of_find?_eq_some hv
      exact absurd ⟨this.2, this.1⟩ h

/-- The rows reordered: row `i` of the result is row `old i` of `a`. -/
def reorderRows (p : Permutation) (a : SparseMatrix α) : SparseMatrix α :=
  ofEntries a.rows a.cols fun i j => a.find? (p.old i) j

/-- The columns reordered: column `j` of the result is column `old j` of `a`. -/
def reorderCols (p : Permutation) (a : SparseMatrix α) : SparseMatrix α :=
  ofEntries a.rows a.cols fun i j => a.find? i (p.old j)

/-- Reorders the rows by a permutation of them. -/
def permuteRows (p : Permutation) (a : SparseMatrix α) : Checked (SparseMatrix α) := do
  Checked.sameLength p.size a.rows
  return a.reorderRows p

/-- Reorders the columns by a permutation of them. -/
def permuteCols (p : Permutation) (a : SparseMatrix α) : Checked (SparseMatrix α) := do
  Checked.sameLength p.size a.cols
  return a.reorderCols p

/-- Whether position `k` is the last one at which a list holds its value. -/
def isLastOccurrence (indices : Array Nat) (k : Nat) : Bool :=
  match indices[k]? with
  | none => false
  | some i => (List.range indices.size).all fun k' => decide (k' ≤ k) || indices[k']? != some i

/-- The submatrix of the listed rows and columns, in the listed order. Of an index that is listed
twice only the last position is filled. -/
def submatrix (a : SparseMatrix α) (rows cols : Array Nat) : SparseMatrix α :=
  let lastRows := tabulate rows.size (isLastOccurrence rows)
  let lastCols := tabulate cols.size (isLastOccurrence cols)
  ofEntries rows.size cols.size fun i j =>
    if lastRows.getD i false && lastCols.getD j false then
      (rows[i]?).bind fun r => (cols[j]?).bind fun c => a.find? r c
    else none

/-- The submatrix of the listed rows and columns, which must be inside the matrix. -/
def select (a : SparseMatrix α) (rows cols : Array Nat) : Checked (SparseMatrix α) :=
  if rows.all (fun i => decide (i < a.rows)) && cols.all (fun j => decide (j < a.cols)) then
    .ok (a.submatrix rows cols)
  else .error .index

/-- A selection succeeds exactly when all its indices are in range. -/
theorem select_eq_ok_iff {a b : SparseMatrix α} {rows cols : Array Nat} :
    a.select rows cols = .ok b ↔
      (∀ i ∈ rows, i < a.rows) ∧ (∀ j ∈ cols, j < a.cols) ∧ a.submatrix rows cols = b := by
  rw [select]
  simp only [Bool.and_eq_true, Array.all_eq_true_iff_forall_mem, decide_eq_true_eq]
  split
  · rename_i h
    rw [Except.ok.injEq]
    exact ⟨fun hb => ⟨h.1, h.2, hb⟩, fun hb => hb.2.2⟩
  · rename_i h
    constructor
    · intro h'
      cases h'
    · exact fun h' => absurd ⟨h'.1, h'.2.1⟩ h

section Magnitude

variable [Scalar α]

/-- The largest magnitude of a stored entry, zero if nothing is stored. Entries that are a NaN do
not count. -/
def maxAbs (a : SparseMatrix α) : α :=
  a.columns.foldl
    (fun acc c => c.entries.foldl (fun acc e => Scalar.max acc (Scalar.abs e.2)) acc) 0

end Magnitude

end SparseMatrix

end ReducedSpace
