import ReducedSpace.Proofs.Permutation
import ReducedSpace.Proofs.Basis.ActiveMatrix
import ReducedSpace.Basis.Markowitz

/-!
# What a pivot search can answer

A search answers a candidate of some column, and it answers nothing only if no column has a
candidate. Both hold for every limit, every preference and every arithmetic, so the order of the
scan and the comparison of candidates play no further part. The positions of the pivots stay inside
the matrix, and they complete to orders of all rows and of all columns.
-/

namespace ReducedSpace

namespace PivotCandidate

variable {α : Type} [Scalar α]

private theorem improve_ne_none (best : Option (PivotCandidate α)) (c : PivotCandidate α) :
    improve best c ≠ none := by
  cases best with
  | none => simp [improve]
  | some b => by_cases h : c.beats b = true <;> simp [improve, h]

private theorem improve_eq_some {best : Option (PivotCandidate α)} {c d : PivotCandidate α}
    (h : improve best c = some d) : best = some d ∨ c = d := by
  cases best with
  | none => exact .inr (Option.some.inj h)
  | some b =>
    unfold improve at h
    dsimp only at h
    split at h
    · exact .inr (Option.some.inj h)
    · exact .inl h

private theorem foldl_improve_eq_some {cs : List (PivotCandidate α)}
    {best : Option (PivotCandidate α)} {d : PivotCandidate α}
    (h : cs.foldl improve best = some d) : best = some d ∨ d ∈ cs := by
  induction cs generalizing best with
  | nil => exact .inl h
  | cons c cs ih =>
    rcases ih h with hbest | hmem
    · rcases improve_eq_some hbest with hbest | rfl
      · exact .inl hbest
      · exact .inr List.mem_cons_self
    · exact .inr (List.mem_cons_of_mem _ hmem)

private theorem foldl_improve_ne_none {cs : List (PivotCandidate α)}
    {best : Option (PivotCandidate α)} (h : best ≠ none ∨ cs ≠ []) :
    cs.foldl improve best ≠ none := by
  induction cs generalizing best with
  | nil => exact h.resolve_right fun hne => hne rfl
  | cons c cs ih => exact ih (.inl (improve_ne_none best c))

end PivotCandidate

namespace ActiveMatrix

variable {α : Type} [Scalar α] {a : ActiveMatrix α} {u absTol : α} {hints : AnalysisHints}

omit [Scalar α] in
theorem getD_sizes (j : Nat) : (a.cols.map SparseVec.size).getD j 0 = (a.column j).size := by
  rw [column]
  by_cases hj : j < a.cols.size
  · simp [hj]
  · simp [hj, SparseVec.size, SparseVec.empty]

omit [Scalar α] in
/-- The scan visits the columns that have an entry and no more entries than there are rows. -/
theorem mem_scanOrder_iff {j : Nat} :
    j ∈ a.scanOrder ↔
      j < a.cols.size ∧ 1 ≤ (a.column j).size ∧ (a.column j).size ≤ a.rows.size := by
  rw [scanOrder]
  simp only [List.mem_flatMap, List.mem_range'_1, List.mem_filter, List.mem_range, Array.size_map,
    beq_iff_eq, getD_sizes]
  constructor
  · rintro ⟨count, hrange, hj, rfl⟩
    exact ⟨hj, hrange.1, by omega⟩
  · rintro ⟨hj, hpos, hle⟩
    exact ⟨_, ⟨hpos, by omega⟩, hj, rfl⟩

/-- Whether a row is acceptable as the pivot row of a column. -/
def Acceptable (a : ActiveMatrix α) (u absTol : α) (i j : Nat) : Prop :=
  (a.column j).contains i = true ∧
    Scalar.lt (Scalar.abs (a.value i j)) (u * a.columnMax j) = false ∧
    Scalar.le (Scalar.abs (a.value i j)) absTol = false

/-- A row has a candidate in a column if its entry there is acceptable. -/
theorem exists_mem_candidates_iff {i j : Nat} :
    (∃ c ∈ a.candidates u absTol hints j, c.row = i) ↔ a.Acceptable u absTol i j := by
  rw [candidates, Acceptable]
  simp only [List.mem_map, List.mem_filter, Bool.not_eq_true', Bool.or_eq_false_iff,
    SparseVec.mem_indices_iff]
  constructor
  · rintro ⟨_, ⟨i', h, rfl⟩, rfl⟩
    exact h
  · intro h
    exact ⟨_, ⟨i, h, rfl⟩, rfl⟩

/-- The candidates of a column are in that column. -/
theorem col_eq_of_mem_candidates {c : PivotCandidate α} {j : Nat}
    (h : c ∈ a.candidates u absTol hints j) : c.col = j := by
  rw [candidates] at h
  simp only [List.mem_map] at h
  obtain ⟨i, _, rfl⟩ := h
  rfl

private theorem scan_eq_some {order : List Nat} {limit : Nat} {best : Option (PivotCandidate α)}
    {c : PivotCandidate α} (h : a.scan u absTol hints order limit best = some c) :
    best = some c ∨ ∃ j ∈ order, c ∈ a.candidates u absTol hints j := by
  induction order generalizing limit best with
  | nil => exact .inl h
  | cons j order ih =>
    have hrest {limit : Nat} {best : Option (PivotCandidate α)}
        (h : a.scan u absTol hints order limit best = some c) :
        best = some c ∨ ∃ j' ∈ j :: order, c ∈ a.candidates u absTol hints j' := by
      rcases ih h with hbest | ⟨j', hj', hc⟩
      · exact .inl hbest
      · exact .inr ⟨j', List.mem_cons_of_mem _ hj', hc⟩
    have hhere (h : (a.candidates u absTol hints j).foldl PivotCandidate.improve best = some c) :
        best = some c ∨ ∃ j' ∈ j :: order, c ∈ a.candidates u absTol hints j' := by
      rcases PivotCandidate.foldl_improve_eq_some h with hbest | hc
      · exact .inl hbest
      · exact .inr ⟨j, List.mem_cons_self, hc⟩
    rw [scan] at h
    split at h
    · exact hrest h
    · split at h
      · exact hrest h
      · dsimp only at h
        split at h
        · exact hhere h
        · rcases hrest h with hbest | hmem
          · exact hhere hbest
          · exact .inr hmem

private theorem scan_eq_none {order : List Nat} {limit : Nat} {best : Option (PivotCandidate α)}
    (h : a.scan u absTol hints order limit best = none) :
    best = none ∧ ∀ j ∈ order,
      Scalar.le (a.columnMax j) absTol = true ∨ a.candidates u absTol hints j = [] := by
  induction order generalizing limit best with
  | nil => exact ⟨h, by simp⟩
  | cons j order ih =>
    rw [scan] at h
    split at h
    · rename_i hle
      obtain ⟨hbest, hall⟩ := ih h
      exact ⟨hbest, List.forall_mem_cons.2 ⟨.inl hle, hall⟩⟩
    · split at h
      · rename_i hnil
        obtain ⟨hbest, hall⟩ := ih h
        exact ⟨hbest, List.forall_mem_cons.2 ⟨.inr hnil, hall⟩⟩
      · rename_i hcons
        have hne : (a.candidates u absTol hints j).foldl PivotCandidate.improve best ≠ none :=
          PivotCandidate.foldl_improve_ne_none (.inr hcons)
        dsimp only at h
        split at h
        · exact absurd h hne
        · exact absurd (ih h).1 hne

private theorem scan_eq_none_of_forall {order : List Nat} {limit : Nat}
    (h : ∀ j ∈ order,
      Scalar.le (a.columnMax j) absTol = true ∨ a.candidates u absTol hints j = []) :
    a.scan u absTol hints order limit none = none := by
  induction order with
  | nil => rfl
  | cons j order ih =>
    obtain ⟨hj, hrest⟩ := List.forall_mem_cons.1 h
    rw [scan]
    split
    · exact ih hrest
    · rename_i hle
      rw [hj.resolve_left hle]
      exact ih hrest

/-- A search finds nothing exactly if every column that it may visit is covered by the tolerance or
has no candidate. The limit counts columns with candidates only, so it plays no part. -/
theorem search_eq_none_iff {limit : Nat} : a.search u absTol hints limit = none ↔
    ∀ j ∈ a.scanOrder,
      Scalar.le (a.columnMax j) absTol = true ∨ a.candidates u absTol hints j = [] :=
  ⟨fun h => (scan_eq_none h).2, scan_eq_none_of_forall⟩

/-- Whether a search finds a pivot does not depend on its limit. -/
theorem isSome_search (limit limit' : Nat) :
    (a.search u absTol hints limit).isSome = (a.search u absTol hints limit').isSome := by
  rw [Bool.eq_iff_iff, Option.isSome_iff_ne_none, Option.isSome_iff_ne_none, ne_eq, ne_eq,
    search_eq_none_iff, search_eq_none_iff]

/-- Where a limited search finds nothing, the search of all columns finds nothing, either. -/
theorem choosePivot_eq_search (limit : Nat) :
    a.choosePivot u absTol hints limit = a.search u absTol hints limit := by
  rw [choosePivot]
  cases hsearch : a.search u absTol hints limit with
  | none => exact search_eq_none_iff.2 (search_eq_none_iff.1 hsearch)
  | some c => rfl

/-- A pivot is acceptable in a column that the scan visits. -/
theorem acceptable_of_choosePivot {limit : Nat} {c : PivotCandidate α}
    (h : a.choosePivot u absTol hints limit = some c) :
    c.col ∈ a.scanOrder ∧ a.Acceptable u absTol c.row c.col := by
  have hsearch {limit : Nat} (h : a.search u absTol hints limit = some c) :
      ∃ j ∈ a.scanOrder, c ∈ a.candidates u absTol hints j := by
    rcases scan_eq_some h with hnone | hmem
    · cases hnone
    · exact hmem
  rw [choosePivot] at h
  obtain ⟨j, hj, hc⟩ : ∃ j ∈ a.scanOrder, c ∈ a.candidates u absTol hints j := by
    rcases Option.or_eq_some_iff.1 h with h | ⟨-, h⟩
    · exact hsearch h
    · exact hsearch h
  rw [col_eq_of_mem_candidates hc]
  exact ⟨hj, exists_mem_candidates_iff.1 ⟨c, hc, rfl⟩⟩

/-- Without a pivot no column has an acceptable entry and a largest magnitude that the tolerance
does not cover. -/
theorem not_acceptable_of_choosePivot {limit : Nat}
    (h : a.choosePivot u absTol hints limit = none) {i j : Nat} (hj : j ∈ a.scanOrder)
    (hle : Scalar.le (a.columnMax j) absTol = false) : ¬a.Acceptable u absTol i j := by
  intro hacc
  obtain ⟨c, hc, -⟩ : ∃ c ∈ a.candidates u absTol hints j, c.row = i :=
    exists_mem_candidates_iff.2 hacc
  rw [choosePivot] at h
  have hsearch := (Option.or_eq_none_iff.1 h).1
  rcases (scan_eq_none hsearch).2 j hj with hcol | hnil
  · exact absurd (hle.symm.trans hcol) (by simp)
  · exact absurd (hnil ▸ hc) (by simp)

/-- A search finds at most one pivot in each step. -/
theorem length_pivots_le (limit steps : Nat) (a : ActiveMatrix α) :
    (pivots u absTol hints limit steps a).length ≤ steps := by
  induction steps generalizing a with
  | zero => exact Nat.le_refl 0
  | succ steps ih =>
    rw [pivots]
    split
    · exact Nat.zero_le _
    · exact Nat.succ_le_succ (ih _)

/-- Pivots are positions of the matrix. -/
theorem pivots_lt {m n limit steps : Nat} {a : ActiveMatrix α} (h : a.Aligned m n) :
    ∀ e ∈ pivots u absTol hints limit steps a, e.1 < m ∧ e.2 < n := by
  induction steps generalizing a with
  | zero =>
    intro e he
    cases he
  | succ steps ih =>
    rw [pivots]
    split
    · intro e he
      cases he
    · rename_i c hc
      obtain ⟨hscan, hacc⟩ := acceptable_of_choosePivot hc
      have hcol : c.col < n := h.size_cols ▸ (mem_scanOrder_iff.1 hscan).1
      exact List.forall_mem_cons.2 ⟨⟨h.row_lt hacc.1, hcol⟩, ih (h.eliminate c.row c.col)⟩

end ActiveMatrix

namespace MarkowitzSolver

variable {order : List Nat} {n : Nat}

/-- An order is completed to a permutation if the completed list is one. -/
theorem orderPermutation_eq_ok_iff {p : Permutation} :
    orderPermutation order n = .ok p ↔ p.olds = completeOrder order n := by
  rw [← Permutation.ofMap?_eq_some_iff]
  rw [orderPermutation]
  cases h : Permutation.ofMap? (completeOrder order n) with
  | none =>
    constructor
    · intro h'
      cases h'
    · intro h'
      cases h'
  | some q => simp

private theorem mem_completeOrder_iff (hlt : ∀ i ∈ order, i < n) {i : Nat} :
    i ∈ (completeOrder order n).toList ↔ i < n := by
  rw [completeOrder]
  simp only [List.mem_append, List.mem_filter, List.mem_range, List.contains_eq_mem,
    Bool.not_eq_true', decide_eq_false_iff_not]
  constructor
  · rintro (h | h)
    · exact hlt i h
    · exact h.1
  · intro h
    by_cases hmem : i ∈ order
    · exact .inl hmem
    · exact .inr ⟨h, hmem⟩

/-- Completing an order of indices below `n` never changes their number: a completed order that is
a permutation is one of `n` indices. -/
theorem size_of_orderPermutation (hlt : ∀ i ∈ order, i < n) {p : Permutation}
    (h : orderPermutation order n = .ok p) : p.size = n := by
  have holds := orderPermutation_eq_ok_iff.1 h
  have hperm : (completeOrder order n).toList.Perm (List.range p.size) := holds ▸ p.olds_perm
  have hmem : ∀ i, i < p.size ↔ i < n := by
    intro i
    rw [← mem_completeOrder_iff hlt, hperm.mem_iff, List.mem_range]
  have hp := hmem p.size
  have hn := hmem n
  omega

/-- Distinct indices below `n` complete to a permutation of `n` indices that starts with them. -/
theorem exists_orderPermutation (hnodup : order.Nodup) (hlt : ∀ i ∈ order, i < n) :
    ∃ p, orderPermutation order n = .ok p := by
  have hall : (completeOrder order n).toList.Nodup := by
    rw [completeOrder]
    refine List.nodup_append.2 ⟨hnodup, List.nodup_range.filter _, ?_⟩
    rintro i hi j hj rfl
    simp [hi] at hj
  have hperm : (completeOrder order n).toList.Perm (List.range n) := by
    refine (List.perm_ext_iff_of_nodup hall List.nodup_range).2 fun i => ?_
    rw [mem_completeOrder_iff hlt, List.mem_range]
  have hsize : (completeOrder order n).size = n := by simpa using hperm.length_eq
  obtain ⟨p, hp⟩ := Permutation.exists_olds_eq_iff.2
    ⟨hall, fun j hj => hsize.symm ▸ (mem_completeOrder_iff hlt).1 hj⟩
  exact ⟨p, orderPermutation_eq_ok_iff.2 hp⟩

/-- The leading positions of the completed order are the listed indices. -/
theorem extract_olds_of_orderPermutation {p : Permutation}
    (h : orderPermutation order n = .ok p) :
    p.olds.extract 0 order.length = order.toArray := by
  rw [orderPermutation_eq_ok_iff.1 h]
  simp [completeOrder]

end MarkowitzSolver

end ReducedSpace
