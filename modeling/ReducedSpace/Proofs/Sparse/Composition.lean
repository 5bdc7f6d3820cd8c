import ReducedSpace.Proofs.Sparse.Selection

/-!
# Selections of selections

A selection stores an entry at the last positions of its row and its column. If no row and no column
is listed twice, every position is a last one, and a second selection reaches what it lists: it
could have taken the rows and columns that its lists name in the first ones at once.
-/

namespace ReducedSpace.SparseMatrix

variable {α : Type} {a b : SparseMatrix α} {rows cols rows' cols' : Array Nat}

/-- A selection of listed rows and columns: position `(i, j)` stores what the matrix stores in row
`rows[i]` and column `cols[j]` if both are listed there for the last time, and nothing otherwise. -/
structure Selects (a : SparseMatrix α) (rows cols : Array Nat) (b : SparseMatrix α) : Prop where
  rows_eq : b.rows = rows.size
  cols_eq : b.cols = cols.size
  stored : ∀ i j r c, LastBelow rows rows.size r i → LastBelow cols cols.size c j →
    b.find? i j = a.find? r c
  absent : ∀ i j, ¬((∃ r, LastBelow rows rows.size r i) ∧ ∃ c, LastBelow cols cols.size c j) →
    b.find? i j = none

theorem selects_submatrix (a : SparseMatrix α) (rows cols : Array Nat) :
    a.Selects rows cols (a.submatrix rows cols) where
  rows_eq := rfl
  cols_eq := rfl
  stored i j r c hr hc := by
    refine Option.ext fun v => ?_
    rw [find?_submatrix_eq_some_iff]
    constructor
    · rintro ⟨r', c', hr', hc', hv⟩
      obtain rfl := Option.some.inj (hr.listed.symm.trans hr'.listed)
      obtain rfl := Option.some.inj (hc.listed.symm.trans hc'.listed)
      exact hv
    · exact fun hv => ⟨r, c, hr, hc, hv⟩
  absent i j h := by
    refine Option.eq_none_iff_forall_ne_some.2 fun v hv => h ?_
    obtain ⟨r, c, hr, hc, -⟩ := find?_submatrix_eq_some_iff.1 hv
    exact ⟨⟨r, hr⟩, c, hc⟩

/-- The indices of one list at the positions of another. -/
def listedIn (indices positions : Array Nat) : Array Nat := positions.map fun k => indices.getD k 0

theorem getElem?_listedIn {indices positions : Array Nat} {i k : Nat}
    (hin : ∀ k ∈ positions, k < indices.size) : (listedIn indices positions)[k]? = some i ↔
      ∃ i', positions[k]? = some i' ∧ indices[i']? = some i := by
  rw [listedIn, Array.getElem?_map, Option.map_eq_some_iff]
  refine exists_congr fun i' => and_congr_right fun hi' => ?_
  have hlt : i' < indices.size := hin i' (Array.mem_of_getElem? hi')
  simp [hlt]

/-- In a list of positions of a list without repetitions the last occurrences are those of the
positions. -/
theorem lastBelow_listedIn_iff {indices positions : Array Nat} {i k : Nat}
    (hnodup : indices.toList.Nodup) (hin : ∀ k ∈ positions, k < indices.size) :
    LastBelow (listedIn indices positions) (listedIn indices positions).size i k ↔
      ∃ i', LastBelow positions positions.size i' k ∧ LastBelow indices indices.size i i' := by
  have hunique : ∀ {k k' i : Nat}, indices[k]? = some i → indices[k']? = some i → k = k' := by
    intro k k' i hk hk'
    rw [← Array.getElem?_toList] at hk hk'
    exact (List.getElem?_inj (List.getElem?_eq_some_iff.1 hk).1 hnodup).1 (hk.trans hk'.symm)
  have hsize : (listedIn indices positions).size = positions.size := Array.size_map
  rw [hsize]
  constructor
  · rintro ⟨hk, hlisted, hlater⟩
    obtain ⟨i', hi', hi⟩ := (getElem?_listedIn hin).1 hlisted
    refine ⟨i', ⟨hk, hi', fun k' hlt hk' heq => ?_⟩,
      ⟨(Array.getElem?_eq_some_iff.1 hi).1, hi, fun k' hlt _ heq => ?_⟩⟩
    · exact hlater k' hlt hk' ((getElem?_listedIn hin).2 ⟨i', heq, hi⟩)
    · exact Nat.ne_of_lt hlt (hunique hi heq)
  · rintro ⟨i', ⟨hk, hi', hlater⟩, ⟨-, hi, -⟩⟩
    refine ⟨hk, (getElem?_listedIn hin).2 ⟨i', hi', hi⟩, fun k' hlt hk' heq => ?_⟩
    obtain ⟨i'', hi'', hlisted⟩ := (getElem?_listedIn hin).1 heq
    obtain rfl := hunique hi hlisted
    exact hlater k' hlt hk' hi''

/-- Of a matrix of rows and columns listed once each, a submatrix takes the composed lists. -/
theorem submatrix_submatrix (a : SparseMatrix α) (hrows : rows.toList.Nodup)
    (hcols : cols.toList.Nodup) (hrows' : ∀ i ∈ rows', i < rows.size)
    (hcols' : ∀ j ∈ cols', j < cols.size) :
    (a.submatrix rows cols).submatrix rows' cols' =
      a.submatrix (listedIn rows rows') (listedIn cols cols') := by
  refine ext_find? Array.size_map.symm Array.size_map.symm fun i j => Option.ext fun v => ?_
  simp only [find?_submatrix_eq_some_iff, lastBelow_listedIn_iff hrows hrows',
    lastBelow_listedIn_iff hcols hcols']
  constructor
  · rintro ⟨i', j', hi', hj', r, c, hr, hc, hv⟩
    exact ⟨r, c, ⟨i', hi', hr⟩, ⟨j', hj', hc⟩, hv⟩
  · rintro ⟨r, c, ⟨i', hi', hr⟩, ⟨j', hj', hc⟩, hv⟩
    exact ⟨i', j', hi', hj', r, c, hr, hc, hv⟩

theorem mem_listedIn {indices positions : Array Nat} (hin : ∀ k ∈ positions, k < indices.size)
    {i : Nat} (hi : i ∈ listedIn indices positions) : i ∈ indices := by
  obtain ⟨k, hk⟩ := Array.getElem?_of_mem hi
  obtain ⟨i', -, hlisted⟩ := (getElem?_listedIn hin).1 hk
  exact Array.mem_of_getElem? hlisted

theorem select_select (a : SparseMatrix α) (hrows : rows.toList.Nodup) (hcols : cols.toList.Nodup)
    (hin : ∀ r ∈ rows, r < a.rows) (hin' : ∀ c ∈ cols, c < a.cols)
    (hrows' : ∀ i ∈ rows', i < rows.size) (hcols' : ∀ j ∈ cols', j < cols.size) :
    ∃ c, (a.select rows cols >>= fun b => b.select rows' cols') = .ok c ∧
      a.select (listedIn rows rows') (listedIn cols cols') = .ok c :=
  ⟨_, bind_eq_ok_iff.2 ⟨_, select_eq_ok_iff.2 ⟨hin, hin', rfl⟩,
    select_eq_ok_iff.2 ⟨hrows', hcols', submatrix_submatrix a hrows hcols hrows' hcols'⟩⟩,
    select_eq_ok_iff.2 ⟨fun _ hr => hin _ (mem_listedIn hrows' hr),
      fun _ hc => hin' _ (mem_listedIn hcols' hc), rfl⟩⟩

end ReducedSpace.SparseMatrix
