import ReducedSpace.Proofs.Basis.Answers

/-!
# The orders of the pivots

Elimination leaves the row and the column of its pivot empty, and it stores a value only where the
row and the column had one before. An empty row or column therefore stays empty, no two pivots share
one, and the pivots complete to an order of all rows and of all columns. The arithmetic plays no
part.
-/

namespace ReducedSpace

namespace ActiveMatrix

variable {α : Type} {a : ActiveMatrix α} {m n p q : Nat}

/-- Erasing a position removes its value and no other. -/
private theorem contains_row_erase {i j j' : Nat} (h : ((a.erase p j').row i).contains j = true) :
    (a.row i).contains j = true ∧ ¬(i = p ∧ j = j') := by
  rw [row_erase] at h
  by_cases hi : i = p
  · subst hi
    rw [if_pos rfl, SparseVec.contains_erase, Bool.and_eq_true, bne_iff_ne] at h
    exact ⟨h.2, fun hj => h.1 hj.2⟩
  · rw [if_neg hi] at h
    exact ⟨h, fun hj => hi hj.1⟩

private theorem contains_foldl_erase {p : Nat} {js : List Nat} {i j : Nat}
    (h : ((js.foldl (fun b j => b.erase p j) a).row i).contains j = true) :
    (a.row i).contains j = true ∧ ¬(i = p ∧ j ∈ js) := by
  induction js generalizing a with
  | nil => exact ⟨h, by simp⟩
  | cons j' js ih =>
    obtain ⟨hc, hne⟩ := ih h
    obtain ⟨hc, hne'⟩ := contains_row_erase hc
    refine ⟨hc, fun hj => ?_⟩
    rcases List.mem_cons.1 hj.2 with rfl | hmem
    · exact hne' ⟨hj.1, rfl⟩
    · exact hne ⟨hj.1, hmem⟩

/-- Clearing a row removes its values and no others. -/
theorem contains_clearRow {i j : Nat} (h : ((a.clearRow p).row i).contains j = true) :
    (a.row i).contains j = true ∧ i ≠ p := by
  obtain ⟨hc, hne⟩ := contains_foldl_erase h
  refine ⟨hc, ?_⟩
  rintro rfl
  exact hne ⟨rfl, SparseVec.mem_indices_iff.2 hc⟩

variable [Scalar α]

private theorem contains_store {i : Nat} (hi : i < a.rows.size) {j : Nat} {v : α} {i' j' : Nat}
    (h : ((a.store i j v).row i').contains j' = true) :
    (a.row i').contains j' = true ∨ i' = i ∧ j' = j := by
  rw [store] at h
  split at h
  · rw [row_erase] at h
    by_cases hi' : i' = i
    · subst hi'
      rw [if_pos rfl, SparseVec.contains_erase, Bool.and_eq_true] at h
      exact .inl h.2
    · rw [if_neg hi'] at h
      exact .inl h
  · rw [row_insert hi] at h
    by_cases hi' : i' = i
    · subst hi'
      rw [if_pos rfl, SparseVec.contains_insert, Bool.or_eq_true, beq_iff_eq] at h
      exact h.symm.imp id fun hj => ⟨rfl, hj⟩
    · rw [if_neg hi'] at h
      exact .inl h

/-- The elimination of a row stores values in columns of the pivot row other than the pivot's. -/
private theorem contains_eliminateRow (h : a.Aligned m n) {pivotRow : SparseVec α}
    (hrow : ∀ j, pivotRow.contains j = true → j < n) {pivot : α} {i : Nat} (hi : i < m) {i' j : Nat}
    (hc : ((eliminateRow pivotRow pivot q a i).row i').contains j = true) :
    ((a.row i').contains j = true ∧ ¬(i' = i ∧ j = q)) ∨
      (i' = i ∧ j ≠ q ∧ pivotRow.contains j = true) := by
  have hold : ∀ i' j, ((a.erase i q).row i').contains j = true →
      (a.row i').contains j = true ∧ ¬(i' = i ∧ j = q) :=
    fun i' j => contains_row_erase
  unfold eliminateRow at hc
  dsimp only at hc
  split at hc
  · exact .inl (hold _ _ hc)
  · refine (List.foldlRecOn
      (motive := fun b : ActiveMatrix α => b.Aligned m n ∧ ∀ i' j,
        (b.row i').contains j = true → ((a.row i').contains j = true ∧ ¬(i' = i ∧ j = q)) ∨
          (i' = i ∧ j ≠ q ∧ pivotRow.contains j = true))
      _ _ ⟨h.erase i q, fun i' j hc => .inl (hold i' j hc)⟩ ?_).2 i' j hc
    rintro b ⟨hb, hfrom⟩ e he
    have hmem : pivotRow.contains e.1 = true := SparseVec.mem_indices_iff.1 (List.mem_map_of_mem he)
    split
    · exact ⟨hb, hfrom⟩
    · rename_i hne
      refine ⟨hb.store hi (hrow _ hmem) _, fun i' j hc => ?_⟩
      rcases contains_store (hb.size_rows.symm ▸ hi) hc with hc | ⟨rfl, rfl⟩
      · exact hfrom i' j hc
      · exact .inr ⟨rfl, hne, hmem⟩

private theorem contains_eliminateRows (h : a.Aligned m n) {pivotRow : SparseVec α}
    (hrow : ∀ j, pivotRow.contains j = true → j < n) {pivot : α} {is : List Nat}
    (his : ∀ i ∈ is, i < m) {i' j : Nat}
    (hc : ((is.foldl (eliminateRow pivotRow pivot q) a).row i').contains j = true) :
    ((a.row i').contains j = true ∧ ¬(i' ∈ is ∧ j = q)) ∨
      (i' ∈ is ∧ j ≠ q ∧ pivotRow.contains j = true) := by
  induction is generalizing a with
  | nil => exact .inl ⟨hc, by simp⟩
  | cons i is ih =>
    obtain ⟨hi, his⟩ := List.forall_mem_cons.1 his
    rcases ih (h.eliminateRow hrow pivot q hi) his hc with ⟨hc, hne⟩ | ⟨hmem, hj⟩
    · rcases contains_eliminateRow h hrow hi hc with ⟨hc, hne'⟩ | ⟨rfl, hj⟩
      · refine .inl ⟨hc, fun hq => ?_⟩
        rcases List.mem_cons.1 hq.1 with rfl | hmem
        · exact hne' ⟨rfl, hq.2⟩
        · exact hne ⟨hmem, hq.2⟩
      · exact .inr ⟨List.mem_cons_self, hj⟩
    · exact .inr ⟨List.mem_cons_of_mem _ hmem, hj⟩

/-- After an elimination there are values outside the row and the column of the pivot only, and each
stands in a row and a column that had a value before. -/
theorem contains_eliminate (h : a.Aligned m n) {i j : Nat}
    (hc : ((a.eliminate p q).row i).contains j = true) :
    i ≠ p ∧ j ≠ q ∧ (∃ j', (a.row i).contains j' = true) ∧ ∃ i', (a.row i').contains j = true := by
  have hrow : ∀ j, (a.row p).contains j = true → j < n := fun j hj => h.col_lt hj
  have hmem : ∀ i, i ∈ ((a.column q).erase p).indices ↔
      i ≠ p ∧ (a.column q).contains i = true := by
    intro i
    rw [SparseVec.mem_indices_iff, SparseVec.contains_erase, Bool.and_eq_true, bne_iff_ne]
  have his : ∀ i ∈ ((a.column q).erase p).indices, i < m := fun i hi => h.row_lt ((hmem i).1 hi).2
  rcases contains_eliminateRows (h.clearRow p) hrow his hc with ⟨hc, hne⟩ | ⟨hi, hj, hpivot⟩
  · obtain ⟨hold, hp⟩ := contains_clearRow hc
    refine ⟨hp, ?_, ⟨j, hold⟩, ⟨i, hold⟩⟩
    rintro rfl
    exact hne ⟨(hmem i).2 ⟨hp, h.covered hold⟩, rfl⟩
  · obtain ⟨hp, hq⟩ := (hmem i).1 hi
    exact ⟨hp, hj, ⟨q, h.aligned hq⟩, ⟨p, hpivot⟩⟩

/-- Each of the listed pivots stands at a stored position when its turn comes. -/
def StoredPivots (a : ActiveMatrix α) : List (Nat × Nat) → Prop
  | [] => True
  | e :: es => (a.row e.1).contains e.2 = true ∧ StoredPivots (a.eliminate e.1 e.2) es

/-- The pivots of a search stand at stored positions. -/
theorem storedPivots_pivots {u absTol : α} {hints : AnalysisHints} {limit steps : Nat}
    (h : a.Aligned m n) : a.StoredPivots (pivots u absTol hints limit steps a) := by
  induction steps generalizing a with
  | zero => exact trivial
  | succ steps ih =>
    rw [pivots]
    split
    · exact trivial
    · rename_i c hchosen
      exact ⟨h.aligned (acceptable_of_choosePivot hchosen).2.1, ih (h.eliminate c.row c.col)⟩

/-- Every pivot stands in a row and a column that have a value at the start, and no two pivots share
a row or a column. -/
theorem StoredPivots.distinct {es : List (Nat × Nat)} (hes : a.StoredPivots es)
    (h : a.Aligned m n) :
    (∀ e ∈ es, (∃ j, (a.row e.1).contains j = true) ∧ ∃ i, (a.row i).contains e.2 = true) ∧
      (es.map (·.1)).Nodup ∧ (es.map (·.2)).Nodup := by
  induction es generalizing a with
  | nil => exact ⟨fun e he => absurd he List.not_mem_nil, .nil, .nil⟩
  | cons c es ih =>
    obtain ⟨hpivot, hes⟩ := hes
    obtain ⟨hlater, hrows, hcols⟩ := ih hes (h.eliminate c.1 c.2)
    have hbefore : ∀ e ∈ es, e.1 ≠ c.1 ∧ e.2 ≠ c.2 ∧ (∃ j, (a.row e.1).contains j = true) ∧
        ∃ i, (a.row i).contains e.2 = true := by
      intro e he
      obtain ⟨⟨j, hj⟩, ⟨i, hi⟩⟩ := hlater e he
      obtain ⟨hp, -, hrow, -⟩ := contains_eliminate h hj
      obtain ⟨-, hq, -, hcol⟩ := contains_eliminate h hi
      exact ⟨hp, hq, hrow, hcol⟩
    refine ⟨List.forall_mem_cons.2 ⟨⟨⟨_, hpivot⟩, ⟨_, hpivot⟩⟩, fun e he => (hbefore e he).2.2⟩,
      List.nodup_cons.2 ⟨fun hmem => ?_, hrows⟩, List.nodup_cons.2 ⟨fun hmem => ?_, hcols⟩⟩
    · obtain ⟨e, he, hrow⟩ := List.mem_map.1 hmem
      exact (hbefore e he).1 hrow
    · obtain ⟨e, he, hcol⟩ := List.mem_map.1 hmem
      exact (hbefore e he).2.1 hcol

end ActiveMatrix

namespace MarkowitzSolver

variable {α : Type} [Scalar α]

/-- The pivots of an analysis complete to an order of the rows and to an order of the columns. -/
theorem exists_orders (solver : MarkowitzSolver α) (a : SparseMatrix α) (hints : AnalysisHints) :
    ∃ rowPerm colPerm,
      orderPermutation ((solver.pivots a hints).map (·.1)) a.rows = .ok rowPerm ∧
      orderPermutation ((solver.pivots a hints).map (·.2)) a.cols = .ok colPerm := by
  obtain ⟨hlt, hlt'⟩ := order_lt solver a hints
  obtain ⟨-, hrows, hcols⟩ : _ ∧ ((solver.pivots a hints).map (·.1)).Nodup ∧
      ((solver.pivots a hints).map (·.2)).Nodup :=
    (ActiveMatrix.storedPivots_pivots (ActiveMatrix.ofSparse_aligned a)).distinct
      (ActiveMatrix.ofSparse_aligned a)
  obtain ⟨rowPerm, hrow⟩ := exists_orderPermutation hrows hlt
  obtain ⟨colPerm, hcol⟩ := exists_orderPermutation hcols hlt'
  exact ⟨rowPerm, colPerm, hrow, hcol⟩

end MarkowitzSolver

end ReducedSpace
