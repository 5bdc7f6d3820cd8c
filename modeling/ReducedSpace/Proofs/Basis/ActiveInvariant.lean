import Mathlib
import ReducedSpace.Proofs.Basis.SearchSteps
import ReducedSpace.Proofs.Exact.SchurComplement

/-!
# What an active matrix holds

The rows and the columns of an active matrix are edited apart, yet they hold the same pattern after
any eliminations and in any arithmetic, and the rows and columns that were eliminated are never
filled again. So a count is at least one wherever it enters the cost of a candidate. In exact
arithmetic the values are the Schur complement of the block of the eliminated pivots, none of the
stored ones is zero, and the counts are its numbers of nonzero entries.
-/

namespace ReducedSpace

namespace SparseVec

variable {β : Type}

/-- A vector is empty if it contains no position. -/
theorem eq_empty_iff {v : SparseVec β} : v = empty ↔ ∀ i, v.contains i = false := by
  constructor
  · rintro rfl i
    exact contains_empty i
  · intro h
    exact ext_find? fun i => find?_eq_none_of_not_contains (h i)

/-- A vector with an entry has one entry more than some number. -/
theorem exists_size_eq {v : SparseVec β} {i : Nat} (h : v.contains i = true) :
    ∃ k, v.size = k + 1 := by
  have hpos : 0 < v.indices.length := List.length_pos_of_mem (mem_indices_iff.2 h)
  rw [length_indices] at hpos
  exact ⟨v.size - 1, by omega⟩

/-- The entries are counted by their indices. -/
theorem size_eq_card {v : SparseVec β} {s : Finset Nat}
    (h : ∀ i, i ∈ s ↔ v.contains i = true) : v.size = s.card := by
  have hs : v.indices.toFinset = s := by
    ext i
    rw [List.mem_toFinset, mem_indices_iff, h]
  rw [← hs, List.toFinset_card_of_nodup v.nodup_indices, length_indices]

end SparseVec

namespace ActiveMatrix

open Elimination

section Pattern

variable {α : Type} [Scalar α] {a s : ActiveMatrix α} {m n : ℕ} {es : List (ℕ × ℕ)}

/-- A value stands in a row and a column that were not eliminated and had values before. -/
theorem contains_eliminateAll (h : a.Aligned m n) {i j : ℕ}
    (hc : ((a.eliminateAll es).row i).contains j = true) :
    (∀ e ∈ es, i ≠ e.1 ∧ j ≠ e.2) ∧ (∃ j', (a.row i).contains j' = true) ∧
      ∃ i', (a.row i').contains j = true := by
  induction es generalizing a with
  | nil => exact ⟨by simp, ⟨j, hc⟩, ⟨i, hc⟩⟩
  | cons e es ih =>
    obtain ⟨hlater, ⟨j', hj'⟩, ⟨i', hi'⟩⟩ := ih (h.eliminate e.1 e.2) hc
    obtain ⟨hrow, -, hrowBefore, -⟩ := contains_eliminate h hj'
    obtain ⟨-, hcol, -, hcolBefore⟩ := contains_eliminate h hi'
    exact ⟨List.forall_mem_cons.2 ⟨⟨hrow, hcol⟩, hlater⟩, hrowBefore, hcolBefore⟩

/-- Rows and columns hold one pattern, which leaves the eliminated rows and columns out. -/
structure InStep (s : ActiveMatrix α) (m n : ℕ) (es : List (ℕ × ℕ)) : Prop where
  contains_iff : ∀ i j, (s.row i).contains j = true ↔ (s.column j).contains i = true
  lt_of_contains : ∀ i j, (s.row i).contains j = true → i < m ∧ j < n
  row_eq_empty : ∀ e ∈ es, s.row e.1 = .empty
  column_eq_empty : ∀ e ∈ es, s.column e.2 = .empty
  /-- The row and the column of a candidate count it, so no cost is taken from an empty one. -/
  cost_eq : ∀ u absTol hints j, ∀ c ∈ s.candidates u absTol hints j, ∃ r k,
    (s.row c.row).size = r + 1 ∧ (s.column c.col).size = k + 1 ∧ c.cost = r * k

omit [Scalar α] in
/-- In an aligned matrix a row has a value where the pattern of the column names the row. -/
theorem Aligned.contains_iff (h : s.Aligned m n) (i j : ℕ) :
    (s.row i).contains j = true ↔ (s.column j).contains i = true :=
  ⟨h.covered, h.aligned⟩

/-- The cost of a candidate is the product of what its row and its column hold beside it. -/
theorem Aligned.cost_eq (h : s.Aligned m n) {u absTol : α} {hints : AnalysisHints} {j : ℕ}
    {c : PivotCandidate α} (hc : c ∈ s.candidates u absTol hints j) : ∃ r k,
    (s.row c.row).size = r + 1 ∧ (s.column c.col).size = k + 1 ∧ c.cost = r * k := by
  have hcol : (s.column j).contains c.row = true :=
    (exists_mem_candidates_iff.1 ⟨c, hc, rfl⟩).1
  obtain ⟨r, hr⟩ := SparseVec.exists_size_eq (h.aligned hcol)
  obtain ⟨k, hk⟩ := SparseVec.exists_size_eq hcol
  have hcost : c.cost = ((s.row c.row).size - 1) * ((s.column j).size - 1) := by
    rw [candidates] at hc
    obtain ⟨i, -, rfl⟩ := List.mem_map.1 hc
    rfl
  rw [col_eq_of_mem_candidates hc]
  exact ⟨r, k, hr, hk, by rw [hcost, hr, hk]; rfl⟩

/-- So rows and patterns mirror each other after any pivots. -/
theorem Aligned.inStep_eliminateAll (h : a.Aligned m n) (es : List (ℕ × ℕ)) :
    (a.eliminateAll es).InStep m n es := by
  have hs := h.eliminateAll es
  refine ⟨hs.contains_iff, fun i j hc => ⟨hs.row_lt (hs.covered hc), hs.col_lt hc⟩,
    fun e he => SparseVec.eq_empty_iff.2 fun j => ?_,
    fun e he => SparseVec.eq_empty_iff.2 fun i => ?_, fun _ _ _ _ _ hc => hs.cost_eq hc⟩
  · refine Bool.eq_false_iff.2 fun hc => ?_
    exact ((contains_eliminateAll h hc).1 e he).1 rfl
  · refine Bool.eq_false_iff.2 fun hc => ?_
    exact ((contains_eliminateAll h (hs.aligned hc)).1 e he).2 rfl

end Pattern

section Exact

variable {K : Type} [ExactScalar K] {a s : ActiveMatrix K} {m n : ℕ} {es : List (ℕ × ℕ)}

/-- The number of entries of row `i` in the first `n` columns that are not zero. -/
def rowCount (b : ℕ → ℕ → K) (n i : ℕ) : ℕ := ((Finset.range n).filter fun j => b i j ≠ 0).card

/-- The number of entries of column `j` in the first `m` rows that are not zero. -/
def colCount (b : ℕ → ℕ → K) (m j : ℕ) : ℕ := ((Finset.range m).filter fun i => b i j ≠ 0).card

/-- An active matrix that holds the Schur complement of the block of the eliminated pivots. -/
structure HoldsComplement (s : ActiveMatrix K) (a : SparseMatrix K) (es : List (ℕ × ℕ)) :
    Prop where
  nonsingular : IsUnit (pivotBlock a.entry es)
  ne_zero : ∀ i j w, (s.row i).find? j = some w → w ≠ 0
  value_eq : ∀ i j, s.value i j = pivotComplement a.entry es i j
  size_row_eq : ∀ i, (s.row i).size = rowCount (pivotComplement a.entry es) a.cols i
  size_column_eq : ∀ j, (s.column j).size = colCount (pivotComplement a.entry es) a.rows j
  /-- The cost of a candidate is the product of the numbers of other nonzero entries. -/
  cost_eq : ∀ u absTol hints j, ∀ c ∈ s.candidates u absTol hints j, ∃ r k,
    rowCount (pivotComplement a.entry es) a.cols c.row = r + 1 ∧
      colCount (pivotComplement a.entry es) a.rows c.col = k + 1 ∧ c.cost = r * k

/-- Without stored zeros, the size of a row counts its values. -/
theorem size_row_eq (hs : s.Aligned m n) (hz : s.ZeroFree) (i : ℕ) :
    (s.row i).size = rowCount s.value n i := by
  refine SparseVec.size_eq_card fun j => ?_
  rw [Finset.mem_filter, Finset.mem_range, hz.contains_iff]
  exact and_iff_right_of_imp fun h => hs.col_lt ((hz.contains_iff i j).2 h)

/-- And the size of a pattern those of the column. -/
theorem size_column_eq (hs : s.Aligned m n) (hz : s.ZeroFree) (j : ℕ) :
    (s.column j).size = colCount s.value m j := by
  refine SparseVec.size_eq_card fun i => ?_
  rw [Finset.mem_filter, Finset.mem_range, ← hs.contains_iff, hz.contains_iff]
  exact and_iff_right_of_imp fun h => hs.row_lt (hs.covered ((hz.contains_iff i j).2 h))

/-- After stored pivots the matrix holds the Schur complement, and no stored zero. -/
theorem holdsComplement {a : SparseMatrix K} (h : (ofSparse a).StoredPivots es) :
    ((ofSparse a).eliminateAll es).HoldsComplement a es := by
  have ha := ofSparse_aligned a
  have hs := ha.eliminateAll es
  have hz := (zeroFree_ofSparse a).eliminateAll es
  have hpivots : Pivots a.entry es := by
    rw [← MarkowitzSolver.value_ofSparse_eq]
    exact h.pivots ha (zeroFree_ofSparse a)
  have hvalue : ((ofSparse a).eliminateAll es).value = pivotComplement a.entry es := by
    rw [value_eliminateAll ha (h.pivots ha (zeroFree_ofSparse a)),
      MarkowitzSolver.value_ofSparse_eq]
    funext i j
    exact hpivots.residual_eq_pivotComplement i j
  have hrow (i : ℕ) := hvalue ▸ size_row_eq hs hz i
  have hcol (j : ℕ) := hvalue ▸ size_column_eq hs hz j
  refine ⟨hpivots.isUnit_pivotBlock, fun i j w hw => Scalar.isZero_eq_false_iff.1 (hz i j w hw),
    fun i j => congrFun (congrFun hvalue i) j, hrow, hcol, fun u absTol hints j c hc => ?_⟩
  rw [← hrow, ← hcol]
  exact hs.cost_eq hc

end Exact

end ActiveMatrix

open ActiveMatrix in
/-- Rows and columns of an active matrix stay in step over any eliminations in any arithmetic, and
every search of a solver is a sequence of eliminations at stored positions. Over such a sequence in
exact arithmetic the active matrix holds the Schur complement of the eliminated block, and its
counts and costs are those of the complement. -/
theorem active_matrix_invariant (α K : Type) [Scalar α] [ExactScalar K] :
    (∀ (a : SparseMatrix α) (es : List (ℕ × ℕ)),
      ((ofSparse a).eliminateAll es).InStep a.rows a.cols es) ∧
    (∀ (solver : MarkowitzSolver α) (a : SparseMatrix α) (hints : AnalysisHints),
      (ofSparse a).StoredPivots (solver.pivots a hints)) ∧
    ∀ (a : SparseMatrix K) (es : List (ℕ × ℕ)), (ofSparse a).StoredPivots es →
      ((ofSparse a).eliminateAll es).HoldsComplement a es :=
  ⟨fun a es => (ofSparse_aligned a).inStep_eliminateAll es,
    fun _ a _ => storedPivots_pivots (ofSparse_aligned a), fun _ _ => holdsComplement⟩

/-- Two rows that agree in their first two columns, and a third one. -/
def fillSample : SparseMatrix ℚ :=
  .ofEntries 3 3 fun i j => [((0, 0), 2), ((0, 1), 1), ((0, 2), 3), ((1, 0), 4), ((1, 1), 2),
    ((2, 1), 3), ((2, 2), 5)].lookup (i, j)

open ActiveMatrix in
/-- The first pivot of the sample cancels an entry of the second row and fills in another, which is
alone in its row then and costs nothing. -/
theorem active_matrix_invariant_sample :
    let s := (ofSparse fillSample).eliminateAll [(0, 0)]
    (ofSparse fillSample).StoredPivots [(0, 0), (1, 2)] ∧
      s.rows.map (fun r => r.entries) = #[[], [(2, -6)], [(1, 3), (2, 5)]] ∧
      s.cols.map SparseVec.indices = #[[], [2], [1, 2]] ∧
      (s.candidates (1 / 2) 0 ⟨3, none, 0⟩ 2).map (fun c => c.cost) = [0, 1] ∧
      s.InStep 3 3 [(0, 0)] ∧ s.HoldsComplement fillSample [(0, 0)] ∧
      (s.eliminate 1 2).HoldsComplement fillSample [(0, 0), (1, 2)] := by
  intro s
  obtain ⟨hinStep, -, hholds⟩ := active_matrix_invariant ℚ ℚ
  have hfirst : ((ofSparse fillSample).row 0).contains 0 = true := by decide +kernel
  have hsecond : (s.row 1).contains 2 = true := by decide +kernel
  exact ⟨⟨hfirst, hsecond, trivial⟩, by decide +kernel, by decide +kernel, by decide +kernel,
    hinStep fillSample _, hholds fillSample [(0, 0)] ⟨hfirst, trivial⟩,
    hholds fillSample [(0, 0), (1, 2)] ⟨hfirst, hsecond, trivial⟩⟩

end ReducedSpace
