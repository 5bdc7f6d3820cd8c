import ReducedSpace.Proofs.Sparse.Submatrix
import ReducedSpace.Proofs.Sparse.Triplets

/-!
# Selections entry by entry

A program that selects a submatrix inverts the lists of rows and columns first: a table says at
which position an index is listed, and holds a mark where it is not. Every stored entry is then
moved by the two tables, or dropped. A reordering moves all entries by the tables of positions of
its permutation. The loops are stated here on the triplets, and they build the submatrix and the
reordered matrix that the library describes by their entries.
-/

namespace ReducedSpace.SparseMatrix

/-- The table of the positions at which the indices below `size` are listed. Later positions
overwrite earlier ones, and `free` marks an index that is not listed. -/
def lastPositions (free size : Nat) (indices : Array Nat) : Array Nat :=
  (List.range indices.size).foldl
    (fun table k => table.setIfInBounds (indices.getD k 0) k) (Array.replicate size free)

/-- The position that a table has for an index. -/
def placeIn (free : Nat) (table : Array Nat) (i : Nat) : Option Nat :=
  if table.getD i free = free then none else some (table.getD i free)

section Positions

variable {free size k i bound : Nat} {indices table : Array Nat}

/-- A table that shows the last of the positions below `bound` at which an index is listed. -/
structure ShowsLast (free size : Nat) (indices : Array Nat) (bound : Nat) (table : Array Nat) :
    Prop where
  size_eq : table.size = size
  placeIn_iff : ∀ i k, i < size →
    (placeIn free table i = some k ↔ LastBelow indices bound i k)

/-- The next position overwrites the entry of its index, and concerns no other index. -/
theorem ShowsLast.setIfInBounds (h : ShowsLast free size indices k table) (hk : k < indices.size)
    (hfree : k < free) : ShowsLast free size indices (k + 1)
      (table.setIfInBounds (indices.getD k 0) k) := by
  have hlisted : indices[k]? = some (indices.getD k 0) := by simp [hk]
  generalize indices.getD k 0 = index at hlisted ⊢
  refine ⟨by rw [Array.size_setIfInBounds, h.size_eq], fun i k' hi => ?_⟩
  by_cases hik : index = i
  · have hplace : placeIn free (table.setIfInBounds index k) i = some k := by
      have hget : (table.setIfInBounds index k).getD i free = k := by
        rw [hik, Array.getD_eq_getD_getElem?, Array.getElem?_setIfInBounds_self,
          if_pos (h.size_eq.symm ▸ hi), Option.getD_some]
      rw [placeIn, hget, if_neg (Nat.ne_of_lt hfree)]
    have hlast : LastBelow indices (k + 1) i k :=
      ⟨Nat.lt_succ_self k, hik ▸ hlisted, fun k' hlt hbound => by omega⟩
    rw [hplace, Option.some.injEq]
    exact ⟨fun heq => heq ▸ hlast, fun h' => hlast.unique h'⟩
  · have hget : (table.setIfInBounds index k).getD i free = table.getD i free := by
      rw [Array.getD_eq_getD_getElem?, Array.getD_eq_getD_getElem?,
        Array.getElem?_setIfInBounds_ne hik]
    have hne : indices[k]? ≠ some i := fun heq => hik (Option.some.inj (hlisted.symm.trans heq))
    rw [show placeIn free (table.setIfInBounds index k) i = placeIn free table i by
      rw [placeIn, placeIn, hget], h.placeIn_iff i k' hi]
    constructor
    · intro h'
      refine ⟨Nat.lt_succ_of_lt h'.lt_bound, h'.listed, fun k'' hlt hbound => ?_⟩
      obtain hbound | rfl := Nat.lt_succ_iff_lt_or_eq.1 hbound
      · exact h'.not_later k'' hlt hbound
      · exact hne
    · intro h'
      have hlt : k' < k := by
        obtain hlt | rfl := Nat.lt_succ_iff_lt_or_eq.1 h'.lt_bound
        · exact hlt
        · exact absurd h'.listed hne
      exact ⟨hlt, h'.listed, fun k'' hlt hbound => h'.not_later k'' hlt (Nat.lt_succ_of_lt hbound)⟩

/-- The loop over a list shows the last position of every index. -/
theorem showsLast_lastPositions (hfree : indices.size ≤ free) :
    ShowsLast free size indices indices.size (lastPositions free size indices) := by
  have hprefix (k : Nat) (hk : k ≤ indices.size) : ShowsLast free size indices k
      ((List.range k).foldl (fun table k => table.setIfInBounds (indices.getD k 0) k)
        (Array.replicate size free)) := by
    induction k with
    | zero =>
      refine ⟨Array.size_replicate, fun i k hi => ?_⟩
      have hget : (Array.replicate size free).getD i free = free := by
        rw [Array.getD_eq_getD_getElem?, Array.getElem?_replicate, if_pos hi, Option.getD_some]
      rw [List.range_zero, List.foldl_nil, placeIn, if_pos hget]
      exact ⟨fun h => (Option.some_ne_none k h.symm).elim,
        fun h => absurd h.lt_bound (Nat.not_lt_zero k)⟩
    | succ k ih =>
      rw [List.range_succ, List.foldl_append, List.foldl_cons, List.foldl_nil]
      exact (ih (by omega)).setIfInBounds (by omega) (by omega)
  exact hprefix indices.size (Nat.le_refl _)

end Positions

variable {α : Type}

section Loops

variable {free : Nat}

/-- Where the loop over a list of indices below `size` sends an index. -/
def listedAt (free size : Nat) (indices : Array Nat) : Nat → Option Nat :=
  placeIn free (lastPositions free size indices)

/-- The inverse table of a list holds the last position of each index. -/
theorem listedAt_eq_some_iff {size : Nat} {indices : Array Nat} (hfree : indices.size ≤ free)
    {i : Nat} (hi : i < size) {k : Nat} :
    listedAt free size indices i = some k ↔ LastBelow indices indices.size i k :=
  (showsLast_lastPositions hfree).placeIn_iff i k hi

/-- An index outside the table is not listed. -/
theorem lt_of_listedAt {size : Nat} {indices : Array Nat} (hfree : indices.size ≤ free) {i k : Nat}
    (h : listedAt free size indices i = some k) : i < size := by
  by_contra hi
  have hsize : (lastPositions free size indices).size = size :=
    (showsLast_lastPositions hfree).size_eq
  rw [listedAt, placeIn, Array.getD_eq_getD_getElem?,
    Array.getElem?_eq_none (hsize.symm ▸ Nat.not_lt.1 hi), Option.getD_none, if_pos rfl] at h
  cases h

/-- So no two indices are at one position. -/
theorem separates_listedAt {size : Nat} {indices : Array Nat} (hfree : indices.size ≤ free) :
    Separates (listedAt free size indices) := by
  intro i i' k h h'
  have hlast := (listedAt_eq_some_iff hfree (lt_of_listedAt hfree h)).1 h
  have hlast' := (listedAt_eq_some_iff hfree (lt_of_listedAt hfree h')).1 h'
  exact Option.some.inj (hlast.listed.symm.trans hlast'.listed)

/-- The entries that the loops of a selection move are those of the submatrix. -/
theorem relocated_perm_submatrix (a : SparseMatrix α) {rows cols : Array Nat}
    (hrows : rows.size ≤ free) (hcols : cols.size ≤ free) :
    (a.relocated (listedAt free a.rows rows) (listedAt free a.cols cols)).Perm
      (a.submatrix rows cols).toTriplets := by
  refine relocated_perm (separates_listedAt hrows) (separates_listedAt hcols) fun i j v => ?_
  rw [find?_submatrix_eq_some_iff]
  constructor
  · rintro ⟨i', j', hi, hj, hv⟩
    obtain ⟨hi', hj'⟩ := lt_of_find?_eq_some hv
    exact ⟨i', j', (listedAt_eq_some_iff hrows hi').2 hi, (listedAt_eq_some_iff hcols hj').2 hj, hv⟩
  · rintro ⟨i', j', hi, hj, hv⟩
    obtain ⟨hi', hj'⟩ := lt_of_find?_eq_some hv
    exact ⟨i', j', (listedAt_eq_some_iff hrows hi').1 hi, (listedAt_eq_some_iff hcols hj').1 hj, hv⟩

/-- A selection as a program makes it: the lists are inverted first, and the entries that both
tables move are listed as triplets. -/
def selectByTables [Add α] (free : Nat) (a : SparseMatrix α) (rows cols : Array Nat) :
    Checked (SparseMatrix α) :=
  ofTriplets rows.size cols.size
    (a.relocated (listedAt free a.rows rows) (listedAt free a.cols cols))

/-- A selection that succeeds is the one through tables, if the mark for an index that is not listed
is no position of either list. -/
theorem select_eq_selectByTables [Add α] {a b : SparseMatrix α} {rows cols : Array Nat}
    (h : a.select rows cols = .ok b) (hrows : rows.size ≤ free) (hcols : cols.size ≤ free) :
    a.select rows cols = a.selectByTables free rows cols := by
  obtain ⟨-, -, rfl⟩ := select_eq_ok_iff.1 h
  rw [h]
  exact (ofTriplets_eq_ok (a.relocated_perm_submatrix hrows hcols)).symm

end Loops

section Reordering

variable {p q : Permutation}

/-- Reordered rows are found at their old positions. -/
theorem find?_reorderRows {a : SparseMatrix α} (hp : p.size = a.rows) (i j : Nat) :
    (a.reorderRows p).find? i j = a.find? (p.old i) j := by
  rw [reorderRows, find?_ofEntries]
  split
  · rfl
  · rename_i hout
    cases hv : a.find? (p.old i) j with
    | none => rfl
    | some v =>
      obtain ⟨hi, hj⟩ := lt_of_find?_eq_some hv
      exact absurd ⟨hp ▸ p.old_lt_iff.1 (hp.symm ▸ hi), hj⟩ hout

/-- And reordered columns. -/
theorem find?_reorderCols {a : SparseMatrix α} (hq : q.size = a.cols) (i j : Nat) :
    (a.reorderCols q).find? i j = a.find? i (q.old j) := by
  rw [reorderCols, find?_ofEntries]
  split
  · rfl
  · rename_i hout
    cases hv : a.find? i (q.old j) with
    | none => rfl
    | some v =>
      obtain ⟨hi, hj⟩ := lt_of_find?_eq_some hv
      exact absurd ⟨hi, hq ▸ q.old_lt_iff.1 (hq.symm ▸ hj)⟩ hout

/-- The entries of a reordered matrix are those of the matrix, each at its new position. -/
theorem map_perm_reorder (a : SparseMatrix α) (hp : p.size = a.rows) (hq : q.size = a.cols) :
    (a.toTriplets.map fun t => (p.new t.1, q.new t.2.1, t.2.2)).Perm
      ((a.reorderRows p).reorderCols q).toTriplets := by
  have hq' : q.size = (a.reorderRows p).cols := hq
  refine map_perm_toTriplets p.old_new p.new_old q.old_new q.new_old fun i j => ?_
  rw [find?_reorderCols hq', find?_reorderRows hp]

/-- The rows and columns that two whole tables list are the reordered rows and columns. -/
theorem submatrix_olds_eq_reorder (a : SparseMatrix α) (hp : p.size = a.rows)
    (hq : q.size = a.cols) :
    a.submatrix p.olds q.olds = (a.reorderRows p).reorderCols q := by
  have hrow : p.olds = p.olds.extract 0 p.size := Array.extract_size.symm
  have hcol : q.olds = q.olds.extract 0 q.size := Array.extract_size.symm
  refine ext_find? hp hq fun i j => ?_
  rw [hrow, hcol, a.find?_submatrix_extract (Nat.le_refl _) (Nat.le_refl _), reorderCols,
    find?_ofEntries, find?_reorderRows hp, Nat.zero_add, Nat.zero_add, hp, hq]
  rfl

/-- Rows are permuted by a permutation of their number. -/
theorem permuteRows_eq_ok (a : SparseMatrix α) (hp : p.size = a.rows) :
    a.permuteRows p = .ok (a.reorderRows p) := by
  rw [permuteRows, hp, Checked.sameLength_self]
  rfl

/-- And columns. -/
theorem permuteCols_eq_ok (a : SparseMatrix α) (hq : q.size = a.cols) :
    a.permuteCols q = .ok (a.reorderCols q) := by
  rw [permuteCols, hq, Checked.sameLength_self]
  rfl

/-- A matrix can be permuted by orders of all its rows and columns. -/
theorem permute_eq_ok (a : SparseMatrix α) (hp : p.size = a.rows) (hq : q.size = a.cols) :
    (a.permuteRows p >>= permuteCols q) = .ok ((a.reorderRows p).reorderCols q) := by
  rw [a.permuteRows_eq_ok hp]
  exact (a.reorderRows p).permuteCols_eq_ok hq

/-- A reordering of the rows as a program makes it: every triplet is moved by the stored table of
the new positions. -/
def permuteRowsByTable [Add α] (p : Permutation) (a : SparseMatrix α) : Checked (SparseMatrix α) :=
  ofTriplets a.rows a.cols (a.toTriplets.map fun t => (p.new t.1, t.2.1, t.2.2))

/-- A reordering of the columns by the stored table of the new positions. -/
def permuteColsByTable [Add α] (q : Permutation) (a : SparseMatrix α) : Checked (SparseMatrix α) :=
  ofTriplets a.rows a.cols (a.toTriplets.map fun t => (t.1, q.new t.2.1, t.2.2))

/-- Reordering by the inverse table permutes the rows. -/
theorem permuteRows_eq_permuteRowsByTable [Add α] (a : SparseMatrix α) (hp : p.size = a.rows) :
    a.permuteRows p = a.permuteRowsByTable p := by
  have hmoved : (a.toTriplets.map fun t => (p.new t.1, t.2.1, t.2.2)).Perm
      (a.reorderRows p).toTriplets :=
    map_perm_toTriplets p.old_new p.new_old (fun _ => rfl) (fun _ => rfl) (find?_reorderRows hp)
  rw [a.permuteRows_eq_ok hp]
  exact (ofTriplets_eq_ok hmoved).symm

/-- And the columns. -/
theorem permuteCols_eq_permuteColsByTable [Add α] (a : SparseMatrix α) (hq : q.size = a.cols) :
    a.permuteCols q = a.permuteColsByTable q := by
  have hmoved : (a.toTriplets.map fun t => (t.1, q.new t.2.1, t.2.2)).Perm
      (a.reorderCols q).toTriplets :=
    map_perm_toTriplets (fun _ => rfl) (fun _ => rfl) q.old_new q.new_old (find?_reorderCols hq)
  rw [a.permuteCols_eq_ok hq]
  exact (ofTriplets_eq_ok hmoved).symm

end Reordering

end ReducedSpace.SparseMatrix
