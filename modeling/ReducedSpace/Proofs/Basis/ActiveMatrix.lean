import ReducedSpace.Basis.ActiveMatrix

/-!
# The pattern of an active matrix

The rows of an active matrix hold values and the columns hold the pattern. `Covered` says that every
value is in the pattern, which all that elimination does keeps. `Aligned` says that the pattern
holds nothing else, which the pivot search keeps as well. Neither asks anything of the arithmetic.

The lookup lemmas describe each operation by what is found afterwards at every position.
-/

namespace ReducedSpace

namespace SparseVec

variable {β : Type}

/-- A position is contained if a value is stored there. -/
theorem contains_iff {v : SparseVec β} {i : Nat} : v.contains i = true ↔ ∃ w, v.find? i = some w :=
  Option.isSome_iff_exists

/-- Nothing is found at a position that is not contained. -/
theorem find?_eq_none_of_not_contains {v : SparseVec β} {i : Nat} (h : v.contains i = false) :
    v.find? i = none := by
  simpa [contains] using h

@[simp] theorem contains_empty (i : Nat) : (empty : SparseVec β).contains i = false := rfl

/-- An erased position is gone and the others stay. -/
@[simp] theorem contains_erase (v : SparseVec β) (i j : Nat) :
    (v.erase i).contains j = (j != i && v.contains j) := by
  by_cases h : j = i <;> simp [contains, h]

/-- An inserted position is there from then on, and the others stay. -/
@[simp] theorem contains_insert (v : SparseVec β) (i j : Nat) (w : β) :
    (v.insert i w).contains j = (j == i || v.contains j) := by
  by_cases h : j = i <;> simp [contains, h]

@[simp] theorem erase_empty (i : Nat) : (empty : SparseVec β).erase i = empty := rfl

/-- The indices of a vector are the positions it contains. -/
theorem mem_indices_iff {v : SparseVec β} {i : Nat} : i ∈ v.indices ↔ v.contains i = true := by
  rw [contains_iff]
  simp only [indices, List.mem_map, Prod.exists, exists_and_right, exists_eq_right,
    mem_entries_iff]

/-- No index is listed twice. -/
theorem length_indices (v : SparseVec β) : v.indices.length = v.size := List.length_map _

/-- Each position is listed once. -/
theorem nodup_indices (v : SparseVec β) : v.indices.Nodup := by
  refine List.Pairwise.map _ (fun a b (h : a.1 < b.1) => ?_) v.sorted
  exact Nat.ne_of_lt h

end SparseVec

namespace IndexSet

/-- A set contains what is added to it and what it contained before. -/
@[simp] theorem contains_add (s : IndexSet) (i j : Nat) :
    SparseVec.contains (s.add i) j = (j == i || SparseVec.contains s j) :=
  SparseVec.contains_insert s i j ()

end IndexSet

namespace ActiveMatrix

variable {α : Type}

section Lookup

/-- An active matrix is determined by its size, its rows and its columns. -/
theorem ext_lookup {a b : ActiveMatrix α} (hr : a.rows.size = b.rows.size)
    (hc : a.cols.size = b.cols.size) (hrow : ∀ i, a.row i = b.row i)
    (hcol : ∀ j, a.column j = b.column j) : a = b := by
  have hrows : a.rows = b.rows := by
    refine Array.ext hr fun i ha hb => ?_
    have := hrow i
    unfold row at this
    simpa [ha, hb] using this
  have hcols : a.cols = b.cols := by
    refine Array.ext hc fun j ha hb => ?_
    have := hcol j
    unfold column at this
    simpa [ha, hb] using this
  cases a
  cases b
  simp_all

/-- Erasing an entry changes its row only. -/
theorem row_erase (a : ActiveMatrix α) (i j i' : Nat) :
    (a.erase i j).row i' = if i' = i then (a.row i).erase j else a.row i' := by
  unfold erase row
  rw [getD_modify]
  by_cases hi : i < a.rows.size <;> grind [SparseVec.erase_empty]

/-- Erasing an entry takes its row out of its column. -/
theorem column_erase (a : ActiveMatrix α) (i j j' : Nat) :
    (a.erase i j).column j' = if j' = j then (a.column j).erase i else a.column j' := by
  unfold erase column
  rw [getD_modify]
  by_cases hj : j < a.cols.size <;> grind [SparseVec.erase_empty]

/-- Inserting an entry changes its row only. -/
theorem row_insert {a : ActiveMatrix α} {i : Nat} (hi : i < a.rows.size) (j : Nat) (v : α)
    (i' : Nat) :
    (a.insert i j v).row i' = if i' = i then (a.row i).insert j v else a.row i' := by
  unfold insert row
  rw [getD_modify]
  simp [hi]

/-- Inserting an entry adds its row to the pattern of its column. -/
theorem column_insert {a : ActiveMatrix α} {j : Nat} (hj : j < a.cols.size) (i : Nat) (v : α)
    (j' : Nat) :
    (a.insert i j v).column j' =
      if j' = j then IndexSet.add (a.column j) i else a.column j' := by
  unfold insert column
  rw [getD_modify]
  simp [hj]

/-- Blanking an entry erases it from its row. -/
theorem row_blank (a : ActiveMatrix α) (i j i' : Nat) :
    (a.blank i j).row i' = if i' = i then (a.row i).erase j else a.row i' :=
  row_erase a i j i'

/-- The pattern of its column keeps it, to be cleared with the column. -/
@[simp] theorem column_blank (a : ActiveMatrix α) (i j j' : Nat) :
    (a.blank i j).column j' = a.column j' := rfl

@[simp] theorem size_rows_erase (a : ActiveMatrix α) (i j : Nat) :
    (a.erase i j).rows.size = a.rows.size := by
  simp [erase]

@[simp] theorem size_cols_erase (a : ActiveMatrix α) (i j : Nat) :
    (a.erase i j).cols.size = a.cols.size := by
  simp [erase]

@[simp] theorem size_rows_insert (a : ActiveMatrix α) (i j : Nat) (v : α) :
    (a.insert i j v).rows.size = a.rows.size := by
  simp [insert]

@[simp] theorem size_cols_insert (a : ActiveMatrix α) (i j : Nat) (v : α) :
    (a.insert i j v).cols.size = a.cols.size := by
  simp [insert]

@[simp] theorem size_rows_blank (a : ActiveMatrix α) (i j : Nat) :
    (a.blank i j).rows.size = a.rows.size := by
  simp [blank]

@[simp] theorem size_cols_blank (a : ActiveMatrix α) (i j : Nat) :
    (a.blank i j).cols.size = a.cols.size := rfl

end Lookup

/-- The matrix has `m` rows and `n` columns, its values are inside it, and each is in the pattern
of its column. -/
structure Covered (a : ActiveMatrix α) (m n : Nat) : Prop where
  size_rows : a.rows.size = m
  size_cols : a.cols.size = n
  col_lt : ∀ {i j}, (a.row i).contains j = true → j < n
  row_lt : ∀ {i j}, (a.column j).contains i = true → i < m
  covered : ∀ {i j}, (a.row i).contains j = true → (a.column j).contains i = true

/-- Moreover the pattern of a column names only rows that have a value there. -/
structure Aligned (a : ActiveMatrix α) (m n : Nat) : Prop extends Covered a m n where
  aligned : ∀ {i j}, (a.column j).contains i = true → (a.row i).contains j = true

section Operations

variable {a : ActiveMatrix α} {m n : Nat}

/-- Erasing an entry on both sides leaves rows and patterns that cover each other. -/
theorem Covered.erase (h : a.Covered m n) (i j : Nat) : (a.erase i j).Covered m n where
  size_rows := by simp [h.size_rows]
  size_cols := by simp [h.size_cols]
  col_lt := by
    intro i' j' hc
    have := @h.col_lt i' j'
    rw [row_erase] at hc
    grind [SparseVec.contains_erase]
  row_lt := by
    intro i' j' hc
    have := @h.row_lt i' j'
    rw [column_erase] at hc
    grind [SparseVec.contains_erase]
  covered := by
    intro i' j' hc
    have := @h.covered i' j'
    rw [row_erase] at hc
    rw [column_erase]
    grind [SparseVec.contains_erase]

/-- And in range. -/
theorem Aligned.erase (h : a.Aligned m n) (i j : Nat) : (a.erase i j).Aligned m n where
  toCovered := h.toCovered.erase i j
  aligned := by
    intro i' j' hc
    have := @h.aligned i' j'
    rw [column_erase] at hc
    rw [row_erase]
    grind [SparseVec.contains_erase]

/-- Inserting an entry on both sides leaves rows and patterns that cover each other. -/
theorem Covered.insert (h : a.Covered m n) {i j : Nat} (hi : i < m) (hj : j < n) (v : α) :
    (a.insert i j v).Covered m n := by
  have hi' : i < a.rows.size := h.size_rows.symm ▸ hi
  have hj' : j < a.cols.size := h.size_cols.symm ▸ hj
  refine ⟨by simp [h.size_rows], by simp [h.size_cols], ?_, ?_, ?_⟩
  · intro i' j' hc
    have := @h.col_lt i' j'
    rw [row_insert hi'] at hc
    grind [SparseVec.contains_insert]
  · intro i' j' hc
    have := @h.row_lt i' j'
    rw [column_insert hj'] at hc
    grind [IndexSet.contains_add]
  · intro i' j' hc
    have := @h.covered i' j'
    rw [row_insert hi'] at hc
    rw [column_insert hj']
    grind [SparseVec.contains_insert, IndexSet.contains_add]

/-- And in range, if the entry is. -/
theorem Aligned.insert (h : a.Aligned m n) {i j : Nat} (hi : i < m) (hj : j < n) (v : α) :
    (a.insert i j v).Aligned m n where
  toCovered := h.toCovered.insert hi hj v
  aligned := by
    have hi' : i < a.rows.size := h.size_rows.symm ▸ hi
    have hj' : j < a.cols.size := h.size_cols.symm ▸ hj
    intro i' j' hc
    have := @h.aligned i' j'
    rw [column_insert hj'] at hc
    rw [row_insert hi']
    grind [SparseVec.contains_insert, IndexSet.contains_add]

/-- A blanked entry is missing in its row, so every row is still covered by the patterns. -/
theorem Covered.blank (h : a.Covered m n) (i j : Nat) : (a.blank i j).Covered m n where
  size_rows := by simp [h.size_rows]
  size_cols := h.size_cols
  col_lt := by
    intro i' j' hc
    have := @h.col_lt i' j'
    rw [row_blank] at hc
    grind [SparseVec.contains_erase]
  row_lt := h.row_lt
  covered := by
    intro i' j' hc
    have := @h.covered i' j'
    rw [row_blank] at hc
    rw [column_blank]
    grind [SparseVec.contains_erase]

/-- Clearing a row erases one entry after the other. -/
theorem Aligned.clearRow (h : a.Aligned m n) (i : Nat) : (a.clearRow i).Aligned m n := by
  rw [ActiveMatrix.clearRow]
  refine List.foldlRecOn (motive := (Aligned · m n)) _ _ h fun b hb j _ => ?_
  exact hb.erase i j

end Operations

section Elimination

variable [Scalar α] {a : ActiveMatrix α} {m n : Nat}

/-- What is kept of a computed value: nothing if it is zero. -/
def nonzero (v : α) : Option α := if Scalar.isZero v then none else some v

/-- The rows of the active matrix of a sparse matrix hold its nonzero entries. -/
theorem find?_row_ofSparse (a : SparseMatrix α) (i j : Nat) :
    ((ofSparse a).row i).find? j = (a.find? i j).filter fun v => !Scalar.isZero v := by
  have hnone : ¬(i < a.rows ∧ j < a.cols) → a.find? i j = none := fun h =>
    Option.eq_none_iff_forall_ne_some.2 fun v hv => h (SparseMatrix.lt_of_find?_eq_some hv)
  rw [ofSparse, row]
  dsimp only
  rw [getD_tabulate]
  by_cases hi : i < a.rows <;> by_cases hj : j < a.cols <;> simp [hi, hj, hnone]

/-- Its columns hold the pattern of the rows. -/
theorem find?_column_ofSparse (a : SparseMatrix α) (i j : Nat) :
    ((ofSparse a).column j).find? i = (((ofSparse a).row i).find? j).map fun _ => () := by
  have hnone : ¬(i < a.rows ∧ j < a.cols) → a.find? i j = none := fun h =>
    Option.eq_none_iff_forall_ne_some.2 fun v hv => h (SparseMatrix.lt_of_find?_eq_some hv)
  rw [find?_row_ofSparse, ofSparse, column]
  dsimp only
  rw [getD_tabulate]
  by_cases hi : i < a.rows <;> by_cases hj : j < a.cols <;> simp [hi, hj, hnone]

/-- The working copy of a matrix starts with rows and patterns of the same entries. -/
theorem ofSparse_aligned (a : SparseMatrix α) : (ofSparse a).Aligned a.rows a.cols := by
  have hcontains : ∀ i j, ((ofSparse a).column j).contains i = ((ofSparse a).row i).contains j := by
    intro i j
    simp [SparseVec.contains, find?_column_ofSparse]
  have hlt : ∀ i j, ((ofSparse a).row i).contains j = true → i < a.rows ∧ j < a.cols := by
    intro i j h
    obtain ⟨w, hw⟩ := SparseVec.contains_iff.1 h
    rw [find?_row_ofSparse] at hw
    exact SparseMatrix.lt_of_find?_eq_some (Option.filter_eq_some_iff.1 hw).1
  refine ⟨⟨by simp [ofSparse], by simp [ofSparse], ?_, ?_, ?_⟩, ?_⟩
  · intro i j h
    exact (hlt i j h).2
  · intro i j h
    exact (hlt i j (hcontains i j ▸ h)).1
  · intro i j h
    rw [hcontains]
    exact h
  · intro i j h
    rw [← hcontains]
    exact h

/-- Storing a value inserts or erases one entry. -/
theorem Aligned.store (h : a.Aligned m n) {i j : Nat} (hi : i < m) (hj : j < n) (v : α) :
    (a.store i j v).Aligned m n := by
  rw [ActiveMatrix.store]
  split
  · exact h.erase i j
  · exact h.insert hi hj v

/-- Subtracting a multiple of the pivot row stores values in columns of that row only. -/
theorem Aligned.eliminateRow (h : a.Aligned m n) {pivotRow : SparseVec α}
    (hrow : ∀ j, pivotRow.contains j = true → j < n) (pivot : α) (q : Nat) {i : Nat} (hi : i < m) :
    (ActiveMatrix.eliminateRow pivotRow pivot q a i).Aligned m n := by
  unfold ActiveMatrix.eliminateRow
  dsimp only
  have h' := h.erase i q
  split
  · exact h'
  · refine List.foldlRecOn (motive := (Aligned · m n)) _ _ h' fun b hb e he => ?_
    have hj : e.1 < n := hrow e.1 (SparseVec.mem_indices_iff.1 (List.mem_map_of_mem he))
    split
    · exact hb
    · exact hb.store hi hj _

/-- Elimination with any pivot keeps values and pattern in step. -/
theorem Aligned.eliminate (h : a.Aligned m n) (p q : Nat) : (a.eliminate p q).Aligned m n := by
  unfold ActiveMatrix.eliminate
  dsimp only
  have hrow : ∀ j, (a.row p).contains j = true → j < n := fun j hj => h.col_lt hj
  refine List.foldlRecOn (motive := (Aligned · m n)) _ _ (h.clearRow p) fun b hb i hi => ?_
  have hc := SparseVec.mem_indices_iff.1 hi
  rw [SparseVec.contains_erase, Bool.and_eq_true] at hc
  exact hb.eliminateRow hrow _ q (h.row_lt hc.2)

end Elimination

end ActiveMatrix

end ReducedSpace
