import ReducedSpace.Proofs.Guarded.Access
import ReducedSpace.Proofs.Basis.ActiveMatrix

/-!
# The active matrix with guarded accesses

Reading a value touches a row, and storing or forgetting one touches a row and a column. The matrix
is filled with the nonzero entries of a sparse matrix, which lie inside it. As long as values and
pattern are in step, elimination touches rows and columns of the matrix only: the rows that it
visits come from the pattern of the pivot column, and the columns from the pivot row.
-/

namespace ReducedSpace.Guarded

open ActiveMatrix (Covered Aligned)

variable {α : Type}

section Positions

/-- Forgets the value at a position. -/
def erase (a : ActiveMatrix α) (i j : Nat) : Checked (ActiveMatrix α) := do
  let rows ← change a.rows i fun r => r.erase j
  let cols ← change a.cols j fun c => c.erase i
  return ⟨rows, cols⟩

/-- Stores a value at a position. -/
def insert (a : ActiveMatrix α) (i j : Nat) (v : α) : Checked (ActiveMatrix α) := do
  let rows ← change a.rows i fun r => r.insert j v
  let cols ← change a.cols j fun c => c.add i
  return ⟨rows, cols⟩

/-- Forgets the value at a position but keeps the row in the pattern of the column. -/
def blank (a : ActiveMatrix α) (i j : Nat) : Checked (ActiveMatrix α) := do
  let rows ← change a.rows i fun r => r.erase j
  return { a with rows := rows }

/-- Forgets a whole row. -/
def clearRow (a : ActiveMatrix α) (i : Nat) : Checked (ActiveMatrix α) := do
  let row ← read a.rows i
  row.indices.foldlM (fun a j => erase a i j) a

variable {a : ActiveMatrix α} {m n i j : Nat}

/-- An entry inside the matrix can be erased. -/
theorem erase_eq (hi : i < a.rows.size) (hj : j < a.cols.size) :
    erase a i j = .ok (a.erase i j) := by
  rw [erase]
  rw [change_eq_ok hi, change_eq_ok hj]
  rfl

/-- And inserted. -/
theorem insert_eq (hi : i < a.rows.size) (hj : j < a.cols.size) (v : α) :
    insert a i j v = .ok (a.insert i j v) := by
  rw [insert]
  rw [change_eq_ok hi, change_eq_ok hj]
  rfl

/-- And blanked. -/
theorem blank_eq (hi : i < a.rows.size) (j : Nat) : blank a i j = .ok (a.blank i j) := by
  rw [blank]
  rw [change_eq_ok hi]
  rfl

/-- A row is cleared by visiting its own columns. -/
theorem clearRow_eq (h : a.Covered m n) (hi : i < m) : clearRow a i = .ok (a.clearRow i) := by
  rw [clearRow]
  rw [read_eq_ok (h.size_rows.symm ▸ hi) .empty]
  refine foldlM_eq_ok (P := (Covered · m n)) h fun b hb j hj => ⟨?_, hb.erase i j⟩
  have hj : j < n := h.col_lt (SparseVec.mem_indices_iff.1 hj)
  exact erase_eq (hb.size_rows.symm ▸ hi) (hb.size_cols.symm ▸ hj)

end Positions

section Entries

variable [Scalar α]

/-- Stores an entry of a sparse matrix unless it is zero. -/
def enter (b : ActiveMatrix α) (t : Nat × Nat × α) : Checked (ActiveMatrix α) :=
  if Scalar.isZero t.2.2 then .ok b else insert b t.1 t.2.1 t.2.2

/-- The nonzero entries of a matrix, stored one after the other. -/
def ofSparse (a : SparseMatrix α) : Checked (ActiveMatrix α) :=
  a.toTriplets.foldlM enter ⟨Array.replicate a.rows .empty, Array.replicate a.cols .empty⟩

/-- The active matrix holds the nonzero ones among some entries of a sparse matrix. -/
private structure Holds (b : ActiveMatrix α) (a : SparseMatrix α) (entries : List (Nat × Nat × α)) :
    Prop where
  size_rows : b.rows.size = a.rows
  size_cols : b.cols.size = a.cols
  row_iff : ∀ i j v, (b.row i).find? j = some v ↔ (i, j, v) ∈ entries ∧ Scalar.isZero v = false
  column_iff : ∀ i j, (b.column j).contains i = true ↔ (b.row i).contains j = true

variable {a : SparseMatrix α} {b : ActiveMatrix α} {entries : List (Nat × Nat × α)}

/-- An entry that follows other entries of the matrix stands at a position of its own. -/
private theorem enter_eq_ok (h : Holds b a entries) {t : Nat × Nat × α}
    (hentries : ∀ t' ∈ entries, t' ∈ a.toTriplets) (ht : t ∈ a.toTriplets) :
    ∃ c, enter b t = .ok c ∧ Holds c a (entries ++ [t]) := by
  obtain ⟨i, j, v⟩ := t
  have hfind := SparseMatrix.mem_toTriplets_iff.1 ht
  obtain ⟨hi, hj⟩ := SparseMatrix.lt_of_find?_eq_some hfind
  have hsame : ∀ w, (i, j, w) ∈ entries → w = v := by
    intro w hw
    have := SparseMatrix.mem_toTriplets_iff.1 (hentries _ hw)
    exact Option.some.inj (this.symm.trans hfind)
  rw [enter]
  by_cases hzero : Scalar.isZero v = true
  · rw [if_pos hzero]
    refine ⟨b, rfl, h.size_rows, h.size_cols, fun i' j' w => ?_, h.column_iff⟩
    rw [h.row_iff, List.mem_append, List.mem_singleton]
    grind
  · have hi : i < b.rows.size := h.size_rows.symm ▸ hi
    have hj : j < b.cols.size := h.size_cols.symm ▸ hj
    rw [if_neg hzero]
    refine ⟨_, insert_eq hi hj v, by simp [h.size_rows], by simp [h.size_cols], ?_, ?_⟩
    · intro i' j' w
      have := h.row_iff i' j' w
      rw [ActiveMatrix.row_insert hi, List.mem_append, List.mem_singleton]
      grind [SparseVec.find?_insert]
    · intro i' j'
      have := h.column_iff i' j'
      rw [ActiveMatrix.row_insert hi, ActiveMatrix.column_insert hj]
      grind [SparseVec.contains_insert, IndexSet.contains_add]

private theorem enter_foldlM (h : Holds b a entries) (rest : List (Nat × Nat × α))
    (hentries : ∀ t ∈ entries ++ rest, t ∈ a.toTriplets) :
    ∃ c, rest.foldlM enter b = .ok c ∧ Holds c a (entries ++ rest) := by
  induction rest generalizing b entries with
  | nil => exact ⟨b, rfl, (List.append_nil entries).symm ▸ h⟩
  | cons t rest ih =>
    obtain ⟨c, hc, hholds⟩ := enter_eq_ok h (t := t)
      (fun t' ht' => hentries t' (List.mem_append_left _ ht'))
      (hentries t (List.mem_append_right _ List.mem_cons_self))
    rw [List.append_cons] at hentries ⊢
    rw [List.foldlM_cons, hc]
    exact ih hholds hentries

/-- Entering all entries forms the active matrix. -/
theorem ofSparse_eq (a : SparseMatrix α) : ofSparse a = .ok (.ofSparse a) := by
  have hstart : Holds (⟨Array.replicate a.rows .empty, Array.replicate a.cols .empty⟩ :
      ActiveMatrix α) a [] := by
    have hempty {β : Type} (k i : Nat) :
        (Array.replicate k (SparseVec.empty : SparseVec β)).getD i .empty = .empty := by
      rw [Array.getD_eq_getD_getElem?, Array.getElem?_replicate]
      split <;> rfl
    refine ⟨by simp, by simp, fun i j v => ?_, fun i j => ?_⟩
    · rw [ActiveMatrix.row]
      simp [hempty]
    · rw [ActiveMatrix.row, ActiveMatrix.column]
      simp [hempty]
  obtain ⟨b, hb, h⟩ := enter_foldlM hstart a.toTriplets fun t ht => ht
  have haligned := ActiveMatrix.ofSparse_aligned a
  have hrow (i : Nat) : b.row i = (ActiveMatrix.ofSparse a).row i := by
    refine SparseVec.ext_find? fun j => Option.ext fun v => ?_
    rw [h.row_iff, ActiveMatrix.find?_row_ofSparse, Option.filter_eq_some_iff, List.nil_append,
      SparseMatrix.mem_toTriplets_iff, Bool.not_eq_true']
  have hcolumn (j : Nat) : b.column j = (ActiveMatrix.ofSparse a).column j := by
    refine SparseVec.ext_find? fun i => Option.ext fun _ => ?_
    have hcontains := h.column_iff i j
    rw [SparseVec.contains_iff, SparseVec.contains_iff] at hcontains
    rw [ActiveMatrix.find?_column_ofSparse, ← hrow, Option.map_eq_some_iff]
    constructor
    · intro hi
      obtain ⟨w, hw⟩ := hcontains.1 ⟨_, hi⟩
      exact ⟨w, hw, rfl⟩
    · rintro ⟨w, hw, -⟩
      exact (hcontains.2 ⟨w, hw⟩).choose_spec
  refine hb.trans (congrArg Except.ok (ActiveMatrix.ext_lookup ?_ ?_ hrow hcolumn))
  · rw [h.size_rows, haligned.size_rows]
  · rw [h.size_cols, haligned.size_cols]

end Entries

section Elimination

variable [Scalar α]

/-- The value at a position, zero if there is none. -/
def value (a : ActiveMatrix α) (i j : Nat) : Checked α := do
  let row ← read a.rows i
  return (row.find? j).getD 0

/-- Stores a value, or forgets the position if the value is zero. -/
def store (a : ActiveMatrix α) (i j : Nat) (v : α) : Checked (ActiveMatrix α) :=
  if Scalar.isZero v then erase a i j else insert a i j v

/-- Subtracts the multiple `l` of one entry of the pivot row; that of the pivot is passed over. -/
def subtractEntry (l : α) (q i : Nat) (a : ActiveMatrix α) (e : Nat × α) :
    Checked (ActiveMatrix α) := do
  if e.1 = q then return a
  else store a i e.1 ((← value a i e.1) - l * e.2)

/-- Subtracts from row `i` the multiple of the pivot row that cancels its value in column `q`. -/
def eliminateRow (pivotRow : SparseVec α) (pivot : α) (q : Nat) (a : ActiveMatrix α) (i : Nat) :
    Checked (ActiveMatrix α) := do
  let l := (← value a i q) / pivot
  let a ← erase a i q
  if Scalar.isZero l then return a
  else pivotRow.entries.foldlM (subtractEntry l q i) a

/-- Eliminates with the pivot at `(p, q)`. -/
def eliminate (a : ActiveMatrix α) (p q : Nat) : Checked (ActiveMatrix α) := do
  let pivotRow ← read a.rows p
  let pivot ← value a p q
  let column ← read a.cols q
  let a ← clearRow a p
  (column.erase p).indices.foldlM (eliminateRow pivotRow pivot q) a

variable {a : ActiveMatrix α} {m n i j : Nat}

/-- And read. -/
theorem value_eq (hi : i < a.rows.size) (j : Nat) : value a i j = .ok (a.value i j) := by
  rw [value]
  rw [read_eq_ok hi .empty]
  rfl

/-- And stored. -/
theorem store_eq (hi : i < a.rows.size) (hj : j < a.cols.size) (v : α) :
    store a i j v = .ok (a.store i j v) := by
  rw [store, ActiveMatrix.store]
  split
  · exact erase_eq hi hj
  · exact insert_eq hi hj v

/-- The elimination of a row visits the columns of the pivot row. -/
theorem eliminateRow_eq (h : a.Aligned m n) {pivotRow : SparseVec α}
    (hrow : ∀ j, pivotRow.contains j = true → j < n) (pivot : α) {q : Nat} (hq : q < n)
    (hi : i < m) :
    eliminateRow pivotRow pivot q a i = .ok (ActiveMatrix.eliminateRow pivotRow pivot q a i) := by
  have hsize : i < a.rows.size := h.size_rows.symm ▸ hi
  rw [eliminateRow, ActiveMatrix.eliminateRow]
  rw [value_eq hsize, erase_eq hsize (h.size_cols.symm ▸ hq)]
  dsimp only [bind, Except.bind]
  split
  · rfl
  · refine foldlM_eq_ok (P := (Aligned · m n)) (h.erase i q) fun b hb e he => ?_
    have hj : e.1 < n := hrow e.1 (SparseVec.mem_indices_iff.1 (List.mem_map_of_mem he))
    have hib : i < b.rows.size := hb.size_rows.symm ▸ hi
    rw [subtractEntry]
    split
    · exact ⟨rfl, hb⟩
    · rw [value_eq hib]
      exact ⟨store_eq hib (hb.size_cols.symm ▸ hj) _, hb.store hi hj _⟩

/-- Elimination visits the rows that the pattern of the pivot column names. -/
theorem eliminate_eq (h : a.Aligned m n) {p q : Nat} (hp : p < m) (hq : q < n) :
    eliminate a p q = .ok (a.eliminate p q) := by
  have hpsize : p < a.rows.size := h.size_rows.symm ▸ hp
  rw [eliminate, ActiveMatrix.eliminate]
  rw [read_eq_ok hpsize .empty, value_eq hpsize, read_eq_ok (h.size_cols.symm ▸ hq) .empty,
    clearRow_eq h.toCovered hp]
  refine foldlM_eq_ok (P := (Aligned · m n)) (h.clearRow p) fun b hb i hi => ?_
  have hc := SparseVec.mem_indices_iff.1 hi
  rw [SparseVec.contains_erase, Bool.and_eq_true] at hc
  have him : i < m := h.row_lt hc.2
  have hrow : ∀ j, (a.row p).contains j = true → j < n := fun j hj => h.col_lt hj
  exact ⟨eliminateRow_eq hb hrow _ hq him, hb.eliminateRow hrow _ q him⟩

end Elimination

end ReducedSpace.Guarded
