import ReducedSpace.Proofs.Sparse.DenseAgreement
import ReducedSpace.Proofs.Guarded.Permutation

/-!
# Selections with guarded accesses

A selection inverts its lists of rows and columns, looks up every stored entry of the matrix in both
tables and adds what they move to a matrix of the size of the lists. Each index that is listed needs
a place in its table, and each entry that is added a place in the new matrix. A selection that
demands its indices in range before it starts has all of these.
-/

namespace ReducedSpace.Guarded

variable {α : Type} [Scalar α]

/-- Adds a value to the entry at a position, which must be inside the matrix. -/
def addEntry (a : SparseMatrix α) (i j : Nat) (v : α) : Checked (SparseMatrix α) :=
  if i < a.rows ∧ j < a.cols then .ok (a.addEntry i j v) else .error .index

/-- The matrix with the listed entries, added one after the other. -/
def ofTriplets (rows cols : Nat) (triplets : List (Nat × Nat × α)) : Checked (SparseMatrix α) :=
  triplets.foldlM (fun a t => addEntry a t.1 t.2.1 t.2.2) (.empty rows cols)

/-- A triplet moved by the tables of two lists, unless one of them does not list its index. -/
def relocate (free : Nat) (rowTable colTable : Array Nat) (t : Nat × Nat × α) :
    Checked (Option (Nat × Nat × α)) := do
  let i ← read rowTable t.1
  let j ← read colTable t.2.1
  return if i = free ∨ j = free then none else some (i, j, t.2.2)

/-- The submatrix of the listed rows and columns. -/
def select (a : SparseMatrix α) (rows cols : Array Nat) : Checked (SparseMatrix α) := do
  let free := max rows.size cols.size
  let rowTable ← invert free a.rows rows
  let colTable ← invert free a.cols cols
  let moved ← a.toTriplets.mapM (relocate free rowTable colTable)
  ofTriplets rows.size cols.size (moved.filterMap id)

/-- The transposed matrix, from the triplets with their indices exchanged. -/
def transpose (a : SparseMatrix α) : Checked (SparseMatrix α) :=
  ofTriplets a.cols a.rows (a.toTriplets.map fun t => (t.2.1, t.1, t.2.2))

/-- Triplets that are accepted as a whole are added one after the other. -/
theorem ofTriplets_eq {rows cols : Nat} {triplets : List (Nat × Nat × α)} {a : SparseMatrix α}
    (h : SparseMatrix.ofTriplets rows cols triplets = .ok a) :
    ofTriplets rows cols triplets = .ok a := by
  rw [SparseMatrix.ofTriplets] at h
  split at h
  · rename_i hall
    obtain rfl := Except.ok.inj h
    refine foldlM_eq_ok (P := fun a : SparseMatrix α => a.rows = rows ∧ a.cols = cols) ⟨rfl, rfl⟩
      fun a ha t ht => ⟨?_, ?_⟩
    · obtain ⟨hi, hj⟩ : t.1 < rows ∧ t.2.1 < cols := by
        simpa using List.all_eq_true.1 hall t ht
      exact if_pos ⟨ha.1.symm ▸ hi, ha.2.symm ▸ hj⟩
    · rw [SparseMatrix.rows_addEntry, SparseMatrix.cols_addEntry]
      exact ha
  · cases h

omit [Scalar α] in
/-- The tables have a place for the indices of every stored entry. -/
private theorem relocate_eq {a : SparseMatrix α} {free : Nat} {rows cols : Array Nat}
    (hrows : rows.size ≤ free) (hcols : cols.size ≤ free) {t : Nat × Nat × α}
    (ht : t ∈ a.toTriplets) :
    relocate free (SparseMatrix.lastPositions free a.rows rows)
        (SparseMatrix.lastPositions free a.cols cols) t =
      .ok (SparseMatrix.relocate (SparseMatrix.listedAt free a.rows rows)
        (SparseMatrix.listedAt free a.cols cols) t) := by
  obtain ⟨hi, hj⟩ := SparseMatrix.lt_of_find?_eq_some (SparseMatrix.mem_toTriplets_iff.1 ht)
  have hread {size i : Nat} {indices : Array Nat} (hfree : indices.size ≤ free) (hi : i < size) :
      read (SparseMatrix.lastPositions free size indices) i =
        .ok ((SparseMatrix.lastPositions free size indices).getD i free) :=
    read_eq_ok ((SparseMatrix.showsLast_lastPositions hfree).size_eq.symm ▸ hi) free
  rw [relocate]
  rw [hread hrows hi, ok_bind, hread hcols hj, ok_bind]
  unfold SparseMatrix.relocate SparseMatrix.listedAt SparseMatrix.placeIn
  refine congrArg Except.ok ?_
  split <;> split <;> simp_all

/-- A selection that is accepted as a whole is made entry by entry. -/
theorem select_eq {a b : SparseMatrix α} {rows cols : Array Nat} (h : a.select rows cols = .ok b) :
    select a rows cols = .ok b := by
  obtain ⟨hrows, hcols, -⟩ := SparseMatrix.select_eq_ok_iff.1 h
  have hfree : rows.size ≤ max rows.size cols.size := Nat.le_max_left _ _
  have hfree' : cols.size ≤ max rows.size cols.size := Nat.le_max_right _ _
  have hmoved := mapM_eq_ok (l := a.toTriplets) fun t ht => relocate_eq hfree hfree' ht
  have htables := SparseMatrix.select_eq_selectByTables h hfree hfree'
  rw [select]
  rw [invert_eq _ hrows, ok_bind, invert_eq _ hcols, ok_bind, hmoved, ok_bind, List.filterMap_map]
  exact ofTriplets_eq (htables.symm.trans h)

/-- The transpose is made entry by entry. -/
theorem transpose_eq (a : SparseMatrix α) : transpose a = .ok a.transpose :=
  ofTriplets_eq a.transposeByTriplets_eq

end ReducedSpace.Guarded
