import ReducedSpace.Proofs.Basis.PivotOrders
import ReducedSpace.Proofs.Guarded.ActiveMatrix

/-!
# Pivot search with guarded accesses

Besides reading entries, the search takes one off the number of entries of a column and of a row.
Columns without entries are not scanned, and a row that the pattern of a column names has a value,
so neither count is zero. What the search finds is eliminated; the pattern stays in step, and so the
whole choice of pivots keeps to the matrix.
-/

namespace ReducedSpace

theorem SparseVec.size_pos_of_contains {β : Type} {v : SparseVec β} {i : Nat}
    (h : v.contains i = true) : 0 < v.size := by
  have hmem := SparseVec.mem_indices_iff.2 h
  rw [SparseVec.indices] at hmem
  have := List.length_pos_of_mem hmem
  rwa [List.length_map] at this

namespace Guarded

open ActiveMatrix (Aligned)

variable {α : Type} [Scalar α]

/-- The columns that are not empty, by their number of entries and then by index. -/
def scanOrder (a : ActiveMatrix α) : Checked (List Nat) := do
  let counts ← (List.range a.cols.size).mapM fun j => do return (← read a.cols j).size
  return (List.range' 1 a.rows.size).flatMap fun count =>
    (counts.zipIdx.filter fun e => e.1 == count).map fun e => e.2

/-- The largest magnitude in a column. -/
def columnMax (a : ActiveMatrix α) (j : Nat) : Checked α := do
  let column ← read a.cols j
  column.indices.foldlM (fun acc i => do return Scalar.max acc (Scalar.abs (← value a i j))) 0

/-- The candidate in a row, if its entry is large enough; `top` is the largest magnitude in the
column and `colCost` the number of its other entries. -/
def candidate? (a : ActiveMatrix α) (u absTol top : α) (hints : AnalysisHints) (j colCost i : Nat) :
    Checked (Option (PivotCandidate α)) := do
  let magnitude := Scalar.abs (← value a i j)
  if Scalar.lt magnitude (u * top) || Scalar.le magnitude absTol then return none
  else
    let row ← read a.rows i
    let rowCost ← minus row.size 1
    return some {
      row := i
      col := j
      preferred := hints.isPreferred i
      cost := rowCost * colCost
      magnitude := magnitude }

/-- The candidates of a column. -/
def candidates (a : ActiveMatrix α) (u absTol : α) (hints : AnalysisHints) (j : Nat) :
    Checked (List (PivotCandidate α)) := do
  let top ← columnMax a j
  let column ← read a.cols j
  let colCost ← minus column.size 1
  let found ← column.indices.mapM (candidate? a u absTol top hints j colCost)
  return found.filterMap id

/-- Scans columns until `limit` of them had candidates. -/
def scan (a : ActiveMatrix α) (u absTol : α) (hints : AnalysisHints) :
    (order : List Nat) → (limit : Nat) → Option (PivotCandidate α) →
      Checked (Option (PivotCandidate α))
  | [], _, best => .ok best
  | j :: rest, limit, best => do
    if Scalar.le (← columnMax a j) absTol then scan a u absTol hints rest limit best
    else match ← candidates a u absTol hints j with
      | [] => scan a u absTol hints rest limit best
      | cs =>
        let best := cs.foldl PivotCandidate.improve best
        if limit ≤ 1 then return best else scan a u absTol hints rest (limit - 1) best

/-- The pivot of a limited search, or of a search of all columns if that finds none. -/
def choosePivot (a : ActiveMatrix α) (u absTol : α) (hints : AnalysisHints) (limit : Nat) :
    Checked (Option (PivotCandidate α)) := do
  let order ← scanOrder a
  match ← scan a u absTol hints order limit none with
  | some c => return some c
  | none => scan a u absTol hints order a.cols.size none

/-- Chooses and eliminates at most `steps` pivots. -/
def pivots (u absTol : α) (hints : AnalysisHints) (limit : Nat) :
    (steps : Nat) → ActiveMatrix α → Checked (List (Nat × Nat))
  | 0, _ => .ok []
  | steps + 1, a => do
    match ← choosePivot a u absTol hints limit with
    | none => return []
    | some c =>
      let a ← eliminate a c.row c.col
      let later ← pivots u absTol hints limit steps a
      return (c.row, c.col) :: later

variable {a : ActiveMatrix α} {m n j : Nat} {u absTol : α} {hints : AnalysisHints}

omit [Scalar α] in
/-- Every column of the matrix is counted. -/
theorem scanOrder_eq (a : ActiveMatrix α) : scanOrder a = .ok a.scanOrder := by
  have hcounts := mapM_eq_ok (l := List.range a.cols.size)
    (f := fun j => (do return (← read a.cols j).size : Checked Nat))
    (g := fun j => (a.column j).size) fun j hj => by
      rw [read_eq_ok (List.mem_range.1 hj) .empty]
      rfl
  have hzip : ((List.range a.cols.size).map fun j => (a.column j).size).zipIdx =
      (List.range a.cols.size).map fun j => ((a.column j).size, j) := by
    refine List.ext_getElem? fun j => ?_
    rw [List.getElem?_zipIdx, List.getElem?_map, List.getElem?_map]
    by_cases hj : j < a.cols.size <;> simp [hj]
  rw [scanOrder]
  rw [hcounts, ok_bind, hzip]
  refine congrArg Except.ok (congrArg (List.flatMap · _) (funext fun count => ?_))
  rw [List.filter_map, List.map_map, Array.size_map]
  refine (List.map_id _).trans (List.filter_congr fun j hj => ?_)
  have hj : j < a.cols.size := List.mem_range.1 hj
  simp [ActiveMatrix.column, hj]

/-- The largest magnitude of a column is read from rows of its pattern. -/
theorem columnMax_eq (h : a.Aligned m n) (hj : j < n) : columnMax a j = .ok (a.columnMax j) := by
  rw [columnMax]
  rw [read_eq_ok (h.size_cols.symm ▸ hj) .empty]
  refine foldlM_eq_ok_of_forall (fun acc i hi => ?_) 0
  have hi : i < m := h.row_lt (SparseVec.mem_indices_iff.1 hi)
  rw [value_eq (h.size_rows.symm ▸ hi)]
  rfl

/-- A row in the pattern of a column has a value, so one can be taken off its count. -/
private theorem candidate?_eq (h : a.Aligned m n) {i : Nat} (hi : (a.column j).contains i = true)
    (u absTol top : α) (hints : AnalysisHints) (colCost : Nat) :
    candidate? a u absTol top hints j colCost i =
      .ok (if !(Scalar.lt (Scalar.abs (a.value i j)) (u * top)
          || Scalar.le (Scalar.abs (a.value i j)) absTol) then
        some ⟨i, j, hints.isPreferred i, ((a.row i).size - 1) * colCost, Scalar.abs (a.value i j)⟩
      else none) := by
  have hsize : i < a.rows.size := h.size_rows.symm ▸ h.row_lt hi
  have hpos : 0 < (a.row i).size := SparseVec.size_pos_of_contains (h.aligned hi)
  rw [candidate?, value_eq hsize, read_eq_ok hsize .empty]
  dsimp only [bind, Except.bind]
  cases Scalar.lt (Scalar.abs (a.value i j)) (u * top)
      || Scalar.le (Scalar.abs (a.value i j)) absTol with
  | true => rfl
  | false =>
    rw [if_neg (by simp), if_pos (by simp)]
    show (minus (a.row i).size 1 >>= _) = _
    rw [minus_eq_ok hpos]
    rfl

/-- A column in the scan order has an entry, so its counts can be reduced by one. -/
theorem candidates_eq (h : a.Aligned m n) (hj : j < n) (hpos : 0 < (a.column j).size) :
    candidates a u absTol hints j = .ok (a.candidates u absTol hints j) := by
  have hfound (colCost : Nat) :=
    mapM_eq_ok (l := (a.column j).indices) fun i hi =>
      candidate?_eq h (SparseVec.mem_indices_iff.1 hi) u absTol (a.columnMax j) hints colCost
  have hread : read a.cols j = .ok (a.column j) := read_eq_ok (h.size_cols.symm ▸ hj) .empty
  rw [candidates]
  refine bind_eq_ok_iff.2 ⟨_, columnMax_eq h hj, bind_eq_ok_iff.2 ⟨_, hread, ?_⟩⟩
  refine bind_eq_ok_iff.2 ⟨_, minus_eq_ok hpos, bind_eq_ok_iff.2 ⟨_, hfound _, ?_⟩⟩
  refine congrArg Except.ok ?_
  rw [ActiveMatrix.candidates, List.filterMap_map]
  induction (a.column j).indices with
  | nil => rfl
  | cons i is ih => grind

/-- A scan visits such columns only. -/
theorem scan_eq (h : a.Aligned m n) {order : List Nat}
    (horder : ∀ j ∈ order, j < n ∧ 0 < (a.column j).size) (limit : Nat)
    (best : Option (PivotCandidate α)) :
    scan a u absTol hints order limit best = .ok (a.scan u absTol hints order limit best) := by
  induction order generalizing limit best with
  | nil => rfl
  | cons j order ih =>
    obtain ⟨⟨hj, hpos⟩, horder⟩ := List.forall_mem_cons.1 horder
    rw [scan, ActiveMatrix.scan]
    rw [columnMax_eq h hj, candidates_eq h hj hpos]
    dsimp only [bind, Except.bind]
    split
    · exact ih horder _ _
    · cases a.candidates u absTol hints j with
      | nil => exact ih horder _ _
      | cons c cs =>
        dsimp only
        split
        · rfl
        · exact ih horder _ _

/-- So every access of a pivot search is in range. -/
theorem choosePivot_eq (h : a.Aligned m n) (limit : Nat) :
    choosePivot a u absTol hints limit = .ok (a.choosePivot u absTol hints limit) := by
  have horder : ∀ j ∈ a.scanOrder, j < n ∧ 0 < (a.column j).size := by
    intro j hj
    obtain ⟨hj, hpos, -⟩ := ActiveMatrix.mem_scanOrder_iff.1 hj
    exact ⟨h.size_cols ▸ hj, hpos⟩
  rw [choosePivot, ActiveMatrix.choosePivot]
  rw [scanOrder_eq, ok_bind, scan_eq h horder, scan_eq h horder]
  unfold ActiveMatrix.search
  dsimp only [bind, Except.bind]
  cases a.scan u absTol hints a.scanOrder limit none with
  | none => rfl
  | some c => rfl

/-- Choosing and eliminating all pivots keeps to the matrix. -/
theorem pivots_eq (h : a.Aligned m n) (limit steps : Nat) :
    pivots u absTol hints limit steps a =
      .ok (ActiveMatrix.pivots u absTol hints limit steps a) := by
  induction steps generalizing a with
  | zero => rfl
  | succ steps ih =>
    rw [pivots, ActiveMatrix.pivots]
    rw [choosePivot_eq h limit]
    dsimp only [bind, Except.bind]
    cases hchosen : a.choosePivot u absTol hints limit with
    | none => rfl
    | some c =>
      obtain ⟨hscan, hacc⟩ := ActiveMatrix.acceptable_of_choosePivot hchosen
      have hcol : c.col < n := h.size_cols ▸ (ActiveMatrix.mem_scanOrder_iff.1 hscan).1
      dsimp only
      rw [eliminate_eq h (h.row_lt hacc.1) hcol]
      dsimp only
      rw [ih (h.eliminate c.row c.col)]
      rfl

end Guarded

end ReducedSpace
