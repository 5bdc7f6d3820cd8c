import ReducedSpace.Proofs.Basis.ActiveMatrix
import ReducedSpace.Basis.SparseLu

/-!
# The shape of sparse factors

The rows of a block are taken in order, but the pattern of a column may still name rows whose value
is gone. What carries the shape of the factors is that the pattern names every row with a value, and
that no value is left in the columns before the row that is taken next. Neither depends on the
arithmetic: the columns of `L` and the rows of `U` always stand after the diagonal.
-/

namespace ReducedSpace.SparseLu

section Pattern

variable {α : Type} [Scalar α]

/-- An update inside the matrix keeps it covered. -/
theorem covered_update {a : ActiveMatrix α} {m n : Nat} (h : a.Covered m n) {i j : Nat} (hi : i < m)
    (hj : j < n) (v : α) : (update a i j v).Covered m n := by
  rw [update]
  split
  · exact h.blank i j
  · exact h.insert hi hj v

/-- An update stores nothing elsewhere. -/
theorem contains_update {a : ActiveMatrix α} {i : Nat} (hi : i < a.rows.size) (j : Nat) (v : α)
    {i' j' : Nat} (h : ((update a i j v).row i').contains j' = true) :
    (a.row i').contains j' = true ∨ i' = i ∧ j' = j := by
  rw [update] at h
  split at h
  · rw [ActiveMatrix.row_blank] at h
    by_cases hi' : i' = i
    · subst hi'
      rw [if_pos rfl, SparseVec.contains_erase, Bool.and_eq_true] at h
      exact .inl h.2
    · rw [if_neg hi'] at h
      exact .inl h
  · rw [ActiveMatrix.row_insert hi] at h
    by_cases hi' : i' = i
    · subst hi'
      rw [if_pos rfl, SparseVec.contains_insert, Bool.or_eq_true, beq_iff_eq] at h
      exact h.symm.imp id fun hj => ⟨rfl, hj⟩
    · rw [if_neg hi'] at h
      exact .inl h

/-- The elimination of a row keeps the pattern and stores only in columns of the pivot row. -/
theorem covered_eliminateRow {upper : SparseVec α} {a : ActiveMatrix α} {m n : Nat}
    (h : a.Covered m n) (hupper : ∀ j, upper.contains j = true → j < n) (pivot : α) (k : Nat)
    (lower : SparseVec α) {i : Nat} (hi : i < m) :
    (eliminateRow upper pivot k (a, lower) i).1.Covered m n ∧
      ∀ i' j, ((eliminateRow upper pivot k (a, lower) i).1.row i').contains j = true →
        ((a.row i').contains j = true ∧ ¬(i' = i ∧ j = k)) ∨
          (i' = i ∧ upper.contains j = true) := by
  have hblank : (a.blank i k).Covered m n := h.blank i k
  have hold : ∀ i' j, ((a.blank i k).row i').contains j = true →
      (a.row i').contains j = true ∧ ¬(i' = i ∧ j = k) := by
    intro i' j hc
    rw [ActiveMatrix.row_blank] at hc
    by_cases hi' : i' = i
    · subst hi'
      rw [if_pos rfl, SparseVec.contains_erase, Bool.and_eq_true, bne_iff_ne] at hc
      exact ⟨hc.2, fun hj => hc.1 hj.2⟩
    · rw [if_neg hi'] at hc
      exact ⟨hc, fun hj => hi' hj.1⟩
  unfold eliminateRow
  dsimp only
  split
  · exact ⟨hblank, fun i' j hc => .inl (hold i' j hc)⟩
  · refine List.foldlRecOn
      (motive := fun b : ActiveMatrix α => b.Covered m n ∧ ∀ i' j, (b.row i').contains j = true →
        ((a.row i').contains j = true ∧ ¬(i' = i ∧ j = k)) ∨ (i' = i ∧ upper.contains j = true))
      _ _ ⟨hblank, fun i' j hc => .inl (hold i' j hc)⟩ ?_
    rintro b ⟨hb, hfrom⟩ e he
    have hmem : upper.contains e.1 = true := SparseVec.mem_indices_iff.1 (List.mem_map_of_mem he)
    refine ⟨covered_update hb hi (hupper e.1 hmem) _, fun i' j hc => ?_⟩
    rcases contains_update (hb.size_rows.symm ▸ hi) e.1 _ hc with hc | ⟨rfl, rfl⟩
    · exact hfrom i' j hc
    · exact .inr ⟨rfl, hmem⟩

/-- So does the elimination of several rows. -/
theorem covered_eliminateRows {upper : SparseVec α} {a : ActiveMatrix α} {m n : Nat}
    (h : a.Covered m n) (hupper : ∀ j, upper.contains j = true → j < n) (pivot : α) (k : Nat)
    (lower : SparseVec α) {is : List Nat} (his : ∀ i ∈ is, i < m) :
    (is.foldl (eliminateRow upper pivot k) (a, lower)).1.Covered m n ∧
      ∀ i' j, ((is.foldl (eliminateRow upper pivot k) (a, lower)).1.row i').contains j = true →
        ((a.row i').contains j = true ∧ ¬(i' ∈ is ∧ j = k)) ∨
          (i' ∈ is ∧ upper.contains j = true) := by
  induction is generalizing a lower with
  | nil => exact ⟨h, fun i' j hc => .inl ⟨hc, by simp⟩⟩
  | cons i is ih =>
    obtain ⟨hi, his⟩ := List.forall_mem_cons.1 his
    obtain ⟨hcov, hfrom⟩ := covered_eliminateRow h hupper pivot k lower hi
    obtain ⟨hcov', hfrom'⟩ := ih hcov (eliminateRow upper pivot k (a, lower) i).2 his
    refine ⟨hcov', fun i' j hc => ?_⟩
    rcases hfrom' i' j hc with ⟨hc, hne⟩ | ⟨hmem, hu⟩
    · rcases hfrom i' j hc with ⟨hc, hne'⟩ | ⟨rfl, hu⟩
      · refine .inl ⟨hc, fun hj => ?_⟩
        rcases List.mem_cons.1 hj.1 with rfl | hmem
        · exact hne' ⟨rfl, hj.2⟩
        · exact hne ⟨hmem, hj.2⟩
      · exact .inr ⟨List.mem_cons_self, hu⟩
    · exact .inr ⟨List.mem_cons_of_mem _ hmem, hu⟩

/-- A column of multipliers has entries in the eliminated rows only. -/
theorem contains_lower_eliminateRows {upper : SparseVec α} {pivot : α} {k : Nat} (is : List Nat)
    {s : ActiveMatrix α × SparseVec α} {i' : Nat}
    (h : (is.foldl (eliminateRow upper pivot k) s).2.contains i' = true) :
    s.2.contains i' = true ∨ i' ∈ is := by
  induction is generalizing s with
  | nil => exact .inl h
  | cons i is ih =>
    rcases ih h with hc | hmem
    · unfold eliminateRow at hc
      dsimp only at hc
      split at hc
      · exact .inl hc
      · rw [SparseVec.contains_insert, Bool.or_eq_true, beq_iff_eq] at hc
        rcases hc with rfl | hc
        · exact .inr List.mem_cons_self
        · exact .inl hc
    · exact .inr (List.mem_cons_of_mem _ hmem)

end Pattern

section Shape

variable {α : Type} {k r : Nat}

/-- Factors of the first `k` steps of the elimination of an `r × r` block: the entries of a column
of `L` and of a row of `U` stand after the diagonal. -/
structure Triangular (f : SparseLu α) (k r : Nat) : Prop where
  size_lowerCols : f.lowerCols.size = k
  size_upperRows : f.upperRows.size = k
  size_diagonal : f.diagonal.size = k
  lower_lt : ∀ t i, (f.lowerCol t).contains i = true → t < i ∧ i < r
  upper_lt : ∀ t j, (f.upperRow t).contains j = true → t < j ∧ j < r

/-- What the first `k` steps leave: the patterns cover the rows, and the rows from `k` on have no
entry before column `k`. -/
structure LeftFrom (a : ActiveMatrix α) (k r : Nat) : Prop where
  covered : a.Covered r r
  le_col : ∀ i j, k ≤ i → (a.row i).contains j = true → k ≤ j

/-- Before the first step there are no factors. -/
theorem triangular_empty (r : Nat) : (empty : SparseLu α).Triangular 0 r where
  size_lowerCols := rfl
  size_upperRows := rfl
  size_diagonal := rfl
  lower_lt t i h := by simp [lowerCol, empty] at h
  upper_lt t j h := by simp [upperRow, empty] at h

/-- An appended column is the last one. -/
theorem Triangular.lowerCol_push {f : SparseLu α} (h : f.Triangular k r)
    (lower upper : SparseVec α) (pivot : α) (t : Nat) :
    (f.push lower upper pivot).lowerCol t = if t = k then lower else f.lowerCol t :=
  h.size_lowerCols ▸ getD_push f.lowerCols lower t .empty

/-- And so is an appended row. -/
theorem Triangular.upperRow_push {f : SparseLu α} (h : f.Triangular k r)
    (lower upper : SparseVec α) (pivot : α) (t : Nat) :
    (f.push lower upper pivot).upperRow t = if t = k then upper else f.upperRow t :=
  h.size_upperRows ▸ getD_push f.upperRows upper t .empty

/-- A column and a row behind their pivot may be appended. -/
theorem Triangular.push {f : SparseLu α} (h : f.Triangular k r) {lower upper : SparseVec α}
    (hlower : ∀ i, lower.contains i = true → k < i ∧ i < r)
    (hupper : ∀ j, upper.contains j = true → k < j ∧ j < r) (pivot : α) :
    (f.push lower upper pivot).Triangular (k + 1) r where
  size_lowerCols := by simp [SparseLu.push, h.size_lowerCols]
  size_upperRows := by simp [SparseLu.push, h.size_upperRows]
  size_diagonal := by simp [SparseLu.push, h.size_diagonal]
  lower_lt t i hi := by
    rw [h.lowerCol_push] at hi
    split at hi
    · rename_i ht
      exact ht ▸ hlower i hi
    · exact h.lower_lt t i hi
  upper_lt t j hj := by
    rw [h.upperRow_push] at hj
    split at hj
    · rename_i ht
      exact ht ▸ hupper j hj
    · exact h.upper_lt t j hj

variable [Scalar α] {a : ActiveMatrix α}

/-- Before the first step the whole block is left. -/
theorem leftFrom_ofSparse {block : SparseMatrix α} (hsquare : block.cols = block.rows) :
    LeftFrom (.ofSparse block) 0 block.rows where
  covered := by
    have h := (ActiveMatrix.ofSparse_aligned block).toCovered
    rwa [hsquare] at h
  le_col _ _ _ _ := Nat.zero_le _

omit [Scalar α] in
/-- The pivot row has entries after the diagonal only. -/
theorem LeftFrom.upper_lt (h : LeftFrom a k r) {j : Nat}
    (hj : ((a.row k).erase k).contains j = true) : k < j ∧ j < r := by
  rw [SparseVec.contains_erase, Bool.and_eq_true, bne_iff_ne] at hj
  have hle := h.le_col k j (Nat.le_refl k) hj.2
  exact ⟨by omega, h.covered.col_lt hj.2⟩

omit [Scalar α] in
/-- The rows to eliminate are those of the pattern below the pivot. -/
theorem LeftFrom.mem_below_iff (h : LeftFrom a k r) {i : Nat} :
    i ∈ ((a.column k).indices.filter fun i => decide (k < i)) ↔
      (a.column k).contains i = true ∧ k < i ∧ i < r := by
  rw [List.mem_filter, SparseVec.mem_indices_iff, decide_eq_true_eq]
  exact ⟨fun hi => ⟨hi.1, hi.2, h.covered.row_lt hi.1⟩, fun hi => ⟨hi.1, hi.2.1⟩⟩

/-- A step empties the column of its pivot: a row with a value there is named by the pattern, and
what it loses is the pivot row, which stands after the diagonal. -/
theorem LeftFrom.step (h : LeftFrom a k r) (pivot : α) :
    let below := (a.column k).indices.filter fun i => decide (k < i)
    let next := below.foldl (eliminateRow ((a.row k).erase k) pivot k) (a, .empty)
    LeftFrom next.1 (k + 1) r ∧ ∀ i, next.2.contains i = true → k < i ∧ i < r := by
  intro below next
  have hbelow : ∀ i ∈ below, i < r := fun i hi => (h.mem_below_iff.1 hi).2.2
  obtain ⟨hcovered, hfrom⟩ :=
    covered_eliminateRows h.covered (fun j hj => (h.upper_lt hj).2) pivot k .empty hbelow
  refine ⟨⟨hcovered, fun i j hi hj => ?_⟩, fun i hi => ?_⟩
  · rcases hfrom i j hj with ⟨hbefore, hne⟩ | ⟨-, hupper⟩
    · have hle := h.le_col i j (by omega) hbefore
      have hcolumn : j ≠ k := by
        rintro rfl
        have hcontains := h.covered.covered hbefore
        exact hne ⟨h.mem_below_iff.2 ⟨hcontains, by omega, h.covered.row_lt hcontains⟩, rfl⟩
      omega
    · exact (h.upper_lt hupper).1
  · rcases contains_lower_eliminateRows below hi with hnone | hmem
    · simp at hnone
    · exact (h.mem_below_iff.1 hmem).2

/-- The remaining steps keep the shape. -/
theorem triangular_factorFrom {tol : α} {steps : Nat} {f g : SparseLu α} (h : LeftFrom a k r)
    (hf : f.Triangular k r) (hg : factorFrom tol steps k a f = .ok g) :
    g.Triangular (k + steps) r := by
  induction steps generalizing k a f with
  | zero =>
    cases hg
    exact hf
  | succ steps ih =>
    obtain ⟨hnext, hlower⟩ := h.step (a.value k k)
    rw [factorFrom] at hg
    dsimp only at hg
    split at hg
    · rw [Nat.add_comm steps 1, ← Nat.add_assoc]
      exact ih hnext (hf.push hlower (fun j hj => h.upper_lt hj) _) hg
    · cases hg

/-- The factors of a square block are triangular in any arithmetic. -/
theorem triangular_factor {refactorTol : α} {block : SparseMatrix α} {f : SparseLu α}
    (hsquare : block.cols = block.rows) (hf : factor refactorTol block = .ok f) :
    f.Triangular block.rows block.rows := by
  have h := triangular_factorFrom (leftFrom_ofSparse hsquare) (triangular_empty block.rows) hf
  rwa [Nat.zero_add] at h

end Shape

end ReducedSpace.SparseLu
