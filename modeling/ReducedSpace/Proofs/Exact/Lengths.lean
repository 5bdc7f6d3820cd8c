import ReducedSpace.Proofs.Exact.Product

/-!
# Operators that check lengths

The stored matrices refuse vectors of another length, and all in the same way. An operator of this
kind is therefore known by its products with the vectors that it accepts: two of them that multiply
with the same matrix are equal.
-/

namespace ReducedSpace

section Lengths

variable {α : Type} [Scalar α]

/-- An operator that refuses every vector of another length. -/
structure LinearOperator.ChecksLength (op : LinearOperator α) : Prop where
  apply_eq : ∀ x : Array α, x.size ≠ op.cols → op.apply x = .error .length
  applyTranspose_eq : ∀ x : Array α, x.size ≠ op.rows → op.applyTranspose x = .error .length

theorem Checked.sameLength_of_ne {expected actual : Nat} (h : actual ≠ expected) :
    sameLength expected actual = .error .length := by
  simp [sameLength, Ne.symm h]

/-- Products of dense matrices check the length of the vector. -/
theorem DenseMatrix.checksLength (a : DenseMatrix α) : a.toOperator.ChecksLength where
  apply_eq x hx := by
    have hx : x.size ≠ a.cols := hx
    show a.mulVec x = _
    rw [mulVec, Checked.sameLength_of_ne hx]
    rfl
  applyTranspose_eq x hx := by
    have hx : x.size ≠ a.rows := hx
    show a.mulVecTranspose x = _
    rw [mulVecTranspose, Checked.sameLength_of_ne hx]
    rfl

/-- Products refuse vectors of other lengths. -/
theorem SparseMatrix.mulAdd_of_size_ne (a : SparseMatrix α) {x y : Array α}
    (h : ¬(x.size = a.cols ∧ y.size = a.rows)) (alpha beta : α) :
    a.mulAdd x y alpha beta = .error .length := by
  by_cases hx : x.size = a.cols
  · rw [mulAdd, hx, Checked.sameLength_self, Checked.sameLength_of_ne fun hy => h ⟨hx, hy⟩]
    rfl
  · rw [mulAdd, Checked.sameLength_of_ne hx]
    rfl

/-- A transposed product refuses vectors of other lengths. -/
theorem SparseMatrix.mulAddTranspose_of_size_ne (a : SparseMatrix α) {x y : Array α}
    (h : ¬(x.size = a.rows ∧ y.size = a.cols)) (alpha beta : α) :
    a.mulAddTranspose x y alpha beta = .error .length := by
  by_cases hx : x.size = a.rows
  · rw [mulAddTranspose, hx, Checked.sameLength_self,
      Checked.sameLength_of_ne fun hy => h ⟨hx, hy⟩]
    rfl
  · rw [mulAddTranspose, Checked.sameLength_of_ne hx]
    rfl

/-- A sparse matrix checks the length of its argument as a dense one does. -/
theorem SparseMatrix.checksLength (a : SparseMatrix α) : a.toOperator.ChecksLength where
  apply_eq _ hx := a.mulAdd_of_size_ne (fun h => hx h.1) 1 0
  applyTranspose_eq _ hx := a.mulAddTranspose_of_size_ne (fun h => hx h.1) 1 0

end Lengths

/-- Operators that multiply with the same matrix and refuse all other vectors are equal. -/
theorem LinearOperator.Represents.operator_ext {K : Type} [ExactScalar K]
    {op op' : LinearOperator K} {rows cols : ℕ} {a : ℕ → ℕ → K}
    (h : op.Represents rows cols a) (h' : op'.Represents rows cols a)
    (hchecks : op.ChecksLength) (hchecks' : op'.ChecksLength) : op = op' := by
  have hrows : op.rows = op'.rows := h.rows_eq.trans h'.rows_eq.symm
  have hcols : op.cols = op'.cols := h.cols_eq.trans h'.cols_eq.symm
  have happly : op.apply = op'.apply := by
    funext x
    by_cases hx : x.size = op.cols
    · rw [h.apply_eq x (hx.trans h.cols_eq), h'.apply_eq x (hx.trans h.cols_eq)]
    · rw [hchecks.apply_eq x hx, hchecks'.apply_eq x (hcols ▸ hx)]
  have happlyTranspose : op.applyTranspose = op'.applyTranspose := by
    funext x
    by_cases hx : x.size = op.rows
    · rw [h.applyTranspose_eq x (hx.trans h.rows_eq), h'.applyTranspose_eq x (hx.trans h.rows_eq)]
    · rw [hchecks.applyTranspose_eq x hx, hchecks'.applyTranspose_eq x (hrows ▸ hx)]
  obtain ⟨rows₁, cols₁, apply₁, applyTranspose₁⟩ := op
  obtain ⟨rows₂, cols₂, apply₂, applyTranspose₂⟩ := op'
  simp only [LinearOperator.mk.injEq]
  exact ⟨hrows, hcols, happly, happlyTranspose⟩

end ReducedSpace
