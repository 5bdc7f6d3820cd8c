import Mathlib
import ReducedSpace.Proofs.Basis.PivotOrders
import ReducedSpace.Proofs.Basis.StoredValues
import ReducedSpace.Proofs.Exact.Elimination
import ReducedSpace.Proofs.Exact.Norm

/-!
# Sparse elimination in exact arithmetic

Stored or not, every position of an active matrix has a value, and eliminating a pivot replaces the
values by their Schur complement, fill-in and cancellation included. The pivots of a search are
therefore pivots of the matrix, and what they leave is at most the tolerance when the search ends
before its last step.
-/

namespace ReducedSpace.ActiveMatrix

open Elimination

variable {K : Type} [ExactScalar K]

section Values

/-- An erased entry counts as zero. -/
theorem value_erase (a : ActiveMatrix K) (i j i' j' : ℕ) :
    (a.erase i j).value i' j' = if i' = i ∧ j' = j then 0 else a.value i' j' := by
  unfold value
  rw [row_erase]
  by_cases hi : i' = i
  · subst hi
    by_cases hj : j' = j <;> simp [hj]
  · simp [hi]

/-- So does a blanked one. -/
theorem value_blank (a : ActiveMatrix K) (i j i' j' : ℕ) :
    (a.blank i j).value i' j' = if i' = i ∧ j' = j then 0 else a.value i' j' :=
  value_erase a i j i' j'

/-- An inserted entry has the new value. -/
theorem value_insert {a : ActiveMatrix K} {i : ℕ} (hi : i < a.rows.size) (j : ℕ) (v : K)
    (i' j' : ℕ) :
    (a.insert i j v).value i' j' = if i' = i ∧ j' = j then v else a.value i' j' := by
  unfold value
  rw [row_insert hi]
  by_cases hi' : i' = i
  · subst hi'
    by_cases hj : j' = j <;> simp [hj]
  · simp [hi']

/-- The working copy has the entries of the matrix. -/
theorem value_ofSparse (a : SparseMatrix K) (i j : ℕ) : (ofSparse a).value i j = a.entry i j := by
  have hrow : ((ofSparse a).row i).find? j =
      if i < a.rows ∧ j < a.cols then (a.find? i j).filter fun v => !Scalar.isZero v
      else none := by
    rw [ofSparse, row]
    dsimp only
    rw [getD_tabulate]
    by_cases hi : i < a.rows <;> simp [hi]
  rw [value]
  rw [hrow]
  by_cases hin : i < a.rows ∧ j < a.cols
  · rw [if_pos hin]
    rw [SparseMatrix.entry]
    cases a.find? i j with
    | none => rfl
    | some v =>
      by_cases hv : v = 0
      · simp [hv, Option.filter]
      · have : Scalar.isZero v = false := Scalar.isZero_eq_false_iff.2 hv
        simp [Option.filter, this]
  · rw [if_neg hin, SparseMatrix.entry_eq_zero hin]
    rfl

/-- A value that is not zero is stored. -/
theorem contains_of_value_ne_zero {a : ActiveMatrix K} {i j : ℕ} (h : a.value i j ≠ 0) :
    (a.row i).contains j = true := by
  by_contra hc
  apply h
  rw [value]
  rw [SparseVec.find?_eq_none_of_not_contains (by simpa using hc)]
  rfl

/-- A matrix that stores no zero stores the values that are not zero. -/
theorem ZeroFree.contains_iff {a : ActiveMatrix K} (h : a.ZeroFree) (i j : ℕ) :
    (a.row i).contains j = true ↔ a.value i j ≠ 0 := by
  refine ⟨fun hc => ?_, contains_of_value_ne_zero⟩
  obtain ⟨v, hv⟩ := SparseVec.contains_iff.1 hc
  rw [value, hv]
  exact Scalar.isZero_eq_false_iff.1 (h i j v hv)

/-- An operation that stores a value at a position and nothing else; a zero may be forgotten. -/
structure Puts (put : ActiveMatrix K → ℕ → ℕ → K → ActiveMatrix K) : Prop where
  size_rows : ∀ a i j v, (put a i j v).rows.size = a.rows.size
  value_eq : ∀ {a : ActiveMatrix K} {i : ℕ}, i < a.rows.size → ∀ j v i' j',
    (put a i j v).value i' j' = if i' = i ∧ j' = j then v else a.value i' j'

/-- Storing overwrites one value. -/
theorem puts_store : Puts (store : ActiveMatrix K → ℕ → ℕ → K → ActiveMatrix K) where
  size_rows a i j v := by
    rw [store]
    split <;> simp
  value_eq hi j v i' j' := by
    rw [store]
    split
    · rename_i hzero
      rw [value_erase, Scalar.isZero_iff.1 hzero]
    · exact value_insert hi j v i' j'

/-- Subtracting a multiple of the listed entries from a row. -/
theorem value_foldl_put {put : ActiveMatrix K → ℕ → ℕ → K → ActiveMatrix K} (hput : Puts put)
    {i : ℕ} (l : K) {es : List (ℕ × K)} (hes : es.Pairwise fun a b => a.1 < b.1)
    {a : ActiveMatrix K} (hi : i < a.rows.size) (i' j : ℕ) :
    (es.foldl (fun a e => put a i e.1 (a.value i e.1 - l * e.2)) a).value i' j =
      if i' = i then a.value i j - l * (SparseVec.lookup j es).getD 0 else a.value i' j := by
  induction es generalizing a with
  | nil =>
    by_cases hii : i' = i
    · subst hii
      simp [SparseVec.lookup]
    · simp [hii]
  | cons e es ih =>
    obtain ⟨hlt, htail⟩ := List.pairwise_cons.1 hes
    have hi' : i < (put a i e.1 (a.value i e.1 - l * e.2)).rows.size := by
      rw [hput.size_rows]
      exact hi
    have hnone : SparseVec.lookup e.1 es = none := SparseVec.lookup_eq_none_of_lt hlt
    rw [List.foldl_cons, ih htail hi', hput.value_eq hi, hput.value_eq hi, SparseVec.lookup]
    by_cases hii : i' = i
    · subst hii
      by_cases hj : j = e.1
      · subst hj
        simp [hnone]
      · have hj' : ¬e.1 = j := fun h => hj h.symm
        simp [hj, hj']
    · simp [hii]

/-- Subtracting a multiple of a row keeps the number of rows. -/
theorem size_rows_foldl_put {put : ActiveMatrix K → ℕ → ℕ → K → ActiveMatrix K} (hput : Puts put)
    (i : ℕ) (l : K) (es : List (ℕ × K)) (a : ActiveMatrix K) :
    (es.foldl (fun a e => put a i e.1 (a.value i e.1 - l * e.2)) a).rows.size = a.rows.size := by
  induction es generalizing a with
  | nil => rfl
  | cons e es ih => rw [List.foldl_cons, ih, hput.size_rows]

end Values

section Step

variable {a : ActiveMatrix K} {p q : ℕ}

private theorem eliminateRow_eq (pivotRow : SparseVec K) (pivot : K) (q : ℕ) (a : ActiveMatrix K)
    (i : ℕ) :
    eliminateRow pivotRow pivot q a i =
      if Scalar.isZero (a.value i q / pivot) then a.erase i q
      else (pivotRow.erase q).entries.foldl
        (fun b e => b.store i e.1 (b.value i e.1 - a.value i q / pivot * e.2)) (a.erase i q) := by
  rw [eliminateRow, SparseVec.erase, SparseVec.filter]
  dsimp only
  rw [List.foldl_filter]
  congr 2
  funext b e
  by_cases he : e.1 = q <;> simp [he]

private theorem size_rows_eliminateRow (pivotRow : SparseVec K) (pivot : K) (q : ℕ)
    (a : ActiveMatrix K) (i : ℕ) :
    (eliminateRow pivotRow pivot q a i).rows.size = a.rows.size := by
  rw [eliminateRow_eq]
  split
  · exact size_rows_erase a i q
  · rw [size_rows_foldl_put puts_store, size_rows_erase]

/-- Eliminating a row subtracts a multiple of the pivot row from it. -/
theorem value_eliminateRow (pivotRow : SparseVec K) (pivot : K) (q : ℕ) {i : ℕ}
    (hi : i < a.rows.size) (i' j : ℕ) :
    (eliminateRow pivotRow pivot q a i).value i' j =
      if i' = i then
        if j = q then 0 else a.value i j - a.value i q / pivot * pivotRow.value j
      else a.value i' j := by
  have hi' : i < (a.erase i q).rows.size := by
    rw [size_rows_erase]
    exact hi
  have hlookup : (SparseVec.lookup j (pivotRow.erase q).entries).getD 0 =
      if j = q then 0 else pivotRow.value j := by
    have hfind : SparseVec.lookup j (pivotRow.erase q).entries =
        if j = q then none else pivotRow.find? j := SparseVec.find?_erase pivotRow q j
    rw [hfind]
    split
    · rfl
    · rfl
  rw [eliminateRow_eq]
  split
  · rename_i hzero
    rw [value_erase, Scalar.isZero_iff.1 hzero]
    by_cases hii : i' = i <;> by_cases hj : j = q <;> simp [hii, hj]
  · rw [value_foldl_put puts_store _ (pivotRow.erase q).sorted hi', value_erase, value_erase,
      hlookup]
    by_cases hii : i' = i <;> by_cases hj : j = q <;> simp [hii, hj]

private theorem value_eliminateRows (pivotRow : SparseVec K) (pivot : K) (q : ℕ) {is : List ℕ}
    (hnodup : is.Nodup) {a : ActiveMatrix K} (his : ∀ i ∈ is, i < a.rows.size) (i' j : ℕ) :
    (is.foldl (eliminateRow pivotRow pivot q) a).value i' j =
      if i' ∈ is then
        if j = q then 0 else a.value i' j - a.value i' q / pivot * pivotRow.value j
      else a.value i' j := by
  induction is generalizing a with
  | nil => simp
  | cons i is ih =>
    obtain ⟨hnot, hnodup⟩ := List.nodup_cons.1 hnodup
    obtain ⟨hi, his⟩ := List.forall_mem_cons.1 his
    have his' : ∀ i' ∈ is, i' < (eliminateRow pivotRow pivot q a i).rows.size := by
      intro i' hi'
      rw [size_rows_eliminateRow]
      exact his i' hi'
    rw [List.foldl_cons, ih hnodup his']
    simp only [value_eliminateRow pivotRow pivot q hi]
    by_cases hii : i' = i
    · subst hii
      simp [hnot]
    · simp [hii]

/-- A cleared row is zero. -/
theorem value_clearRow (a : ActiveMatrix K) (i i' j : ℕ) :
    (a.clearRow i).value i' j = if i' = i then 0 else a.value i' j := by
  have hfold : ∀ (js : List ℕ) (b : ActiveMatrix K),
      (js.foldl (fun b j => b.erase i j) b).value i' j =
        if i' = i ∧ j ∈ js then 0 else b.value i' j := by
    intro js
    induction js with
    | nil => simp
    | cons k js ih =>
      intro b
      rw [List.foldl_cons, ih, value_erase]
      by_cases hi : i' = i <;> by_cases hjk : j = k <;> simp [hi, hjk]
  rw [clearRow]
  rw [hfold]
  by_cases hi : i' = i
  · subst hi
    by_cases hj : j ∈ (a.row i').indices
    · simp [hj]
    · have hzero : a.value i' j = 0 := by
        by_contra hne
        exact hj (SparseVec.mem_indices_iff.2 (contains_of_value_ne_zero hne))
      simp [hj, hzero]
  · simp [hi]

omit [ExactScalar K] in
private theorem size_rows_clearRow (a : ActiveMatrix K) (i : ℕ) :
    (a.clearRow i).rows.size = a.rows.size := by
  rw [clearRow]
  refine List.foldlRecOn (motive := fun b : ActiveMatrix K => b.rows.size = a.rows.size) _ _ rfl
    fun b hb j _ => ?_
  rw [size_rows_erase]
  exact hb

/-- Elimination with a nonzero pivot leaves the Schur complement. -/
theorem value_eliminate {m n : ℕ} (h : a.Aligned m n) (hpivot : a.value p q ≠ 0) :
    (a.eliminate p q).value = schur a.value p q := by
  have hrows : ∀ i ∈ SparseVec.indices ((a.column q).erase p), i < (a.clearRow p).rows.size := by
    intro i hi
    have hc := SparseVec.mem_indices_iff.1 hi
    rw [SparseVec.contains_erase, Bool.and_eq_true] at hc
    rw [size_rows_clearRow, h.size_rows]
    exact h.row_lt hc.2
  funext i j
  unfold eliminate
  dsimp only
  rw [value_eliminateRows _ _ _ (SparseVec.nodup_indices _) hrows, value_clearRow, value_clearRow]
  by_cases hip : i = p
  · subst hip
    have hnot : i ∉ SparseVec.indices ((a.column q).erase i) := by
      rw [SparseVec.mem_indices_iff, SparseVec.contains_erase]
      simp
    rw [if_neg hnot, if_pos rfl, schur_pivot_row hpivot]
  · rw [if_neg hip, if_neg hip]
    by_cases hmem : i ∈ SparseVec.indices ((a.column q).erase p)
    · rw [if_pos hmem]
      by_cases hj : j = q
      · rw [if_pos hj, hj, schur_pivot_col hpivot]
      · rw [if_neg hj]
        rfl
    · have hzero : a.value i q = 0 := by
        by_contra hne
        apply hmem
        rw [SparseVec.mem_indices_iff, SparseVec.contains_erase, Bool.and_eq_true]
        exact ⟨by simpa using hip, h.covered (contains_of_value_ne_zero hne)⟩
      rw [if_neg hmem]
      rw [schur]
      rw [hzero, zero_div, zero_mul, sub_zero]

end Step

section Search

variable {a : ActiveMatrix K} {m n : ℕ} {u absTol : K} {hints : AnalysisHints} {limit : ℕ}

/-- A pivot that is found is not zero, since no zero is stored. -/
theorem value_ne_zero_of_choosePivot (ha : a.Aligned m n) (hz : a.ZeroFree)
    {c : PivotCandidate K} (h : a.choosePivot u absTol hints limit = some c) :
    a.value c.row c.col ≠ 0 :=
  (hz.contains_iff _ _).1 (ha.aligned (acceptable_of_choosePivot h).2.1)

/-- No value of a column is above its largest magnitude. -/
theorem abs_value_le_columnMax (ha : a.Aligned m n) (i j : ℕ) : |a.value i j| ≤ a.columnMax j := by
  by_cases hzero : a.value i j = 0
  · rw [hzero, abs_zero]
    exact le_foldl_max _ _ 0
  · have hcol : (a.column j).contains i = true := ha.covered (contains_of_value_ne_zero hzero)
    exact abs_le_foldl_max (f := fun i => a.value i j) (SparseVec.mem_indices_iff.2 hcol) 0

/-- Without a pivot no value is above the tolerance. -/
theorem abs_value_le_of_choosePivot (ha : a.Aligned m n) (hu : u ≤ 1) (htol : 0 ≤ absTol)
    (h : a.choosePivot u absTol hints limit = none) (i j : ℕ) : |a.value i j| ≤ absTol := by
  by_contra hlt
  have hlt := not_le.1 hlt
  have hne : a.value i j ≠ 0 := abs_pos.1 (lt_of_le_of_lt htol hlt)
  have hcol : (a.column j).contains i = true := ha.covered (contains_of_value_ne_zero hne)
  have hmem : i ∈ (a.column j).indices := SparseVec.mem_indices_iff.2 hcol
  have hscan : j ∈ a.scanOrder := by
    rw [mem_scanOrder_iff, ha.size_cols, ha.size_rows]
    refine ⟨ha.col_lt (contains_of_value_ne_zero hne), ?_, ?_⟩
    · have hpos := List.length_pos_of_mem hmem
      rwa [SparseVec.indices, List.length_map] at hpos
    · have hsub : (a.column j).indices ⊆ List.range m := by
        intro i' hi'
        exact List.mem_range.2 (ha.row_lt (SparseVec.mem_indices_iff.1 hi'))
      have hle := ((SparseVec.nodup_indices _).subperm hsub).length_le
      rwa [SparseVec.indices, List.length_map, List.length_range] at hle
  have hpos : absTol < a.columnMax j := lt_of_lt_of_le hlt (abs_value_le_columnMax ha i j)
  rcases foldl_max_attained (a.column j).indices (fun i => a.value i j) 0 with hzero | ⟨k, hk, hval⟩
  · have : a.columnMax j = 0 := hzero
    rw [this] at hpos
    exact absurd htol (not_le.2 hpos)
  · have hval : a.columnMax j = |a.value k j| := hval
    refine not_acceptable_of_choosePivot h hscan (Scalar.le_eq_false_iff.2 hpos)
      ⟨SparseVec.mem_indices_iff.1 hk, ?_, ?_⟩
    · rw [Scalar.lt_eq_false_iff, Scalar.abs_eq, ← hval]
      exact mul_le_of_le_one_left (htol.trans hpos.le) hu
    · rw [Scalar.le_eq_false_iff, Scalar.abs_eq, ← hval]
      exact hpos

/-- Stored positions are pivots of the matrix: what is stored is not zero. -/
theorem StoredPivots.pivots {es : List (ℕ × ℕ)} (hes : a.StoredPivots es) (ha : a.Aligned m n)
    (hz : a.ZeroFree) : Pivots a.value es := by
  induction es generalizing a with
  | nil => exact trivial
  | cons e es ih =>
    obtain ⟨hstored, hlater⟩ := hes
    have hpivot : a.value e.1 e.2 ≠ 0 := (hz.contains_iff _ _).1 hstored
    have hrest := ih hlater (ha.eliminate e.1 e.2) (hz.eliminate e.1 e.2)
    rw [value_eliminate ha hpivot] at hrest
    exact ⟨hpivot, hrest⟩

/-- Fewer pivots than steps leave nothing above the tolerance. -/
theorem abs_residual_pivots_le {steps : ℕ} (ha : a.Aligned m n) (hz : a.ZeroFree) (hu : u ≤ 1)
    (htol : 0 ≤ absTol) (hlen : (pivots u absTol hints limit steps a).length < steps) (i j : ℕ) :
    |residual a.value (pivots u absTol hints limit steps a) i j| ≤ absTol := by
  induction steps generalizing a with
  | zero => exact absurd hlen (Nat.not_lt_zero _)
  | succ steps ih =>
    rw [pivots] at hlen ⊢
    split at hlen
    · rename_i hnone
      exact abs_value_le_of_choosePivot ha hu htol hnone i j
    · rename_i c hc
      have hpivot := value_ne_zero_of_choosePivot ha hz hc
      have hrest := ih (ha.eliminate c.row c.col) (hz.eliminate c.row c.col)
        (Nat.lt_of_succ_lt_succ hlen)
      rw [value_eliminate ha hpivot] at hrest
      exact hrest

end Search

end ReducedSpace.ActiveMatrix
