import Mathlib
import ReducedSpace.Proofs.Exact.Norm
import ReducedSpace.Proofs.Machine.NeutralZero
import ReducedSpace.Proofs.Basis.ActiveMatrix
import ReducedSpace.Basis.Chosen

/-!
# Stored zeros

A matrix may store a zero or leave it out, and its dense values do not tell. Neither do the solvers:
the sparse one starts from the nonzero entries, the dense one from the dense values, and a stored
zero is never the only largest magnitude. The analysis of the sparse solver counts the stored
entries of the leading block, which is all that differs, and a refactorization does not read the
count.
-/

namespace ReducedSpace

namespace SparseVec

variable {β : Type}

/-- Filtering drops what it finds and does not keep. -/
theorem find?_filter (v : SparseVec β) (keep : ℕ × β → Bool) (i : ℕ) :
    (v.filter keep).find? i = (v.find? i).filter fun w => keep (i, w) := by
  apply Option.ext
  intro w
  rw [← mem_entries_iff, Option.filter_eq_some_iff, ← mem_entries_iff]
  exact List.mem_filter

end SparseVec

namespace SparseMatrix

variable {α : Type} [Scalar α]

/-- The dense value of what is stored at a position. -/
def denseValue : Option α → α
  | none => 0
  | some v => 0 + v

/-- Matrices of the same size with the same dense values. -/
structure SameValues (a a' : SparseMatrix α) : Prop where
  rows_eq : a.rows = a'.rows
  cols_eq : a.cols = a'.cols
  value_eq : ∀ i j, denseValue (a.find? i j) = denseValue (a'.find? i j)

/-- Every matrix has its own values. -/
theorem SameValues.refl (a : SparseMatrix α) : a.SameValues a := ⟨rfl, rfl, fun _ _ => rfl⟩

variable {a a' : SparseMatrix α}

/-- The dense copy fills in zeros for what is not stored. -/
theorem toDense_eq (a : SparseMatrix α) :
    a.toDense = .ofFn a.rows a.cols fun i j => denseValue (a.find? i j) := rfl

omit [Scalar α] in
/-- Nothing is stored out of range. -/
theorem find?_eq_none (a : SparseMatrix α) {i j : ℕ} (h : ¬(i < a.rows ∧ j < a.cols)) :
    a.find? i j = none := by
  rw [Option.eq_none_iff_forall_ne_some]
  exact fun v hv => h (lt_of_find?_eq_some hv)

/-- The dense values are what two matrices have in common. -/
theorem toDense_eq_iff : a.toDense = a'.toDense ↔ a.SameValues a' := by
  rw [toDense_eq, toDense_eq]
  constructor
  · intro h
    have hrows : a.rows = a'.rows := congrArg DenseMatrix.rows h
    have hcols : a.cols = a'.cols := congrArg DenseMatrix.cols h
    refine ⟨hrows, hcols, fun i j => ?_⟩
    by_cases hij : i < a.rows ∧ j < a.cols
    · have hentry := congrArg (fun d : DenseMatrix α => d.entry i j) h
      simp only [DenseMatrix.entry_ofFn] at hentry
      rwa [if_pos hij, if_pos (hrows ▸ hcols ▸ hij)] at hentry
    · rw [a.find?_eq_none hij, a'.find?_eq_none (hrows ▸ hcols ▸ hij)]
  · intro h
    rw [h.rows_eq, h.cols_eq]
    congr 1
    funext i j
    exact h.value_eq i j

/-- Blocks of matrices with the same values have the same values. -/
theorem SameValues.submatrix (h : a.SameValues a') (rows cols : Array ℕ) :
    (a.submatrix rows cols).SameValues (a'.submatrix rows cols) where
  rows_eq := rfl
  cols_eq := rfl
  value_eq i j := by
    unfold SparseMatrix.submatrix
    rw [find?_ofEntries, find?_ofEntries]
    split
    · split
      · cases rows[i]? with
        | none => rfl
        | some r =>
          cases cols[j]? with
          | none => rfl
          | some c => exact h.value_eq r c
      · rfl
    · rfl

variable [NeutralZero α]

/-- The nonzero value at a position, if there is one, can be read off the dense value. -/
theorem filter_nonzero_eq {x y : Option α} (h : denseValue x = denseValue y) :
    x.filter (fun v => !Scalar.isZero v) = y.filter fun v => !Scalar.isZero v := by
  have hzero (z : Option α) : Scalar.isZero (denseValue z) = true ↔
      z.filter (fun v => !Scalar.isZero v) = none := by
    cases z with
    | none => simp [denseValue, NeutralZero.isZero_zero]
    | some v =>
      cases hv : Scalar.isZero v with
      | true => simp [denseValue, hv, NeutralZero.isZero_zero_add hv]
      | false => simp [denseValue, hv, NeutralZero.zero_add hv]
  have hnonzero (z : Option α) {v : α} (hz : z.filter (fun v => !Scalar.isZero v) = some v) :
      denseValue z = v := by
    obtain ⟨rfl, hv⟩ := Option.filter_eq_some_iff.1 hz
    exact NeutralZero.zero_add (by simpa using hv)
  cases hx : x.filter (fun v => !Scalar.isZero v) with
  | none => exact ((hzero y).1 (h ▸ (hzero x).2 hx)).symm
  | some v =>
    cases hy : y.filter (fun v => !Scalar.isZero v) with
    | none =>
      have hx' := (hzero x).1 (h ▸ (hzero y).2 hy)
      rw [hx] at hx'
      cases hx'
    | some w => rw [← hnonzero x hx, h, hnonzero y hy]

/-- Such matrices store the same values that are not zero. -/
theorem SameValues.find?_nonzero (h : a.SameValues a') (i j : ℕ) :
    (a.find? i j).filter (fun v => !Scalar.isZero v) =
      (a'.find? i j).filter fun v => !Scalar.isZero v :=
  filter_nonzero_eq (h.value_eq i j)

/-- The sparse elimination starts from the nonzero entries. -/
theorem SameValues.ofSparse_eq (h : a.SameValues a') :
    ActiveMatrix.ofSparse a = ActiveMatrix.ofSparse a' := by
  unfold ActiveMatrix.ofSparse
  rw [h.rows_eq, h.cols_eq]
  simp only [h.find?_nonzero]

/-- The stored entries that are not zero, in the order of the triplets. -/
theorem SameValues.nonzero_eq (h : a.SameValues a') :
    a.toTriplets.filter (fun t => !Scalar.isZero t.2.2) =
      a'.toTriplets.filter fun t => !Scalar.isZero t.2.2 := by
  have hcolumn (j : ℕ) : (a.column j).filter (fun e => !Scalar.isZero e.2) =
      (a'.column j).filter fun e => !Scalar.isZero e.2 := by
    refine SparseVec.ext_find? fun i => ?_
    rw [SparseVec.find?_filter, SparseVec.find?_filter]
    exact h.find?_nonzero i j
  have hentries (j : ℕ) := congrArg SparseVec.entries (hcolumn j)
  simp only [SparseVec.filter] at hentries
  rw [toTriplets, toTriplets, h.cols_eq, List.filter_flatMap, List.filter_flatMap]
  congr 1
  funext j
  rw [List.filter_map, List.filter_map]
  exact congrArg _ (hentries j)

/-- Zeros have no part in the largest magnitude. -/
theorem foldl_max_nonzero {β : Type} (f : β → α) (l : List β) {x : α}
    (hx : Scalar.le 0 x = true) :
    l.foldl (fun acc e => Scalar.max acc (Scalar.abs (f e))) x =
      (l.filter fun e => !Scalar.isZero (f e)).foldl
        (fun acc e => Scalar.max acc (Scalar.abs (f e))) x := by
  induction l generalizing x with
  | nil => rfl
  | cons e l ih =>
    rw [List.foldl_cons]
    cases he : Scalar.isZero (f e) with
    | true =>
      rw [List.filter_cons_of_neg (by simp [he]), NeutralZero.max_abs hx he]
      exact ih hx
    | false =>
      rw [List.filter_cons_of_pos (by simp [he]), List.foldl_cons]
      exact ih (NeutralZero.zero_le_max hx _)

/-- Their largest magnitudes are equal. -/
theorem SameValues.maxAbs_eq (h : a.SameValues a') : a.maxAbs = a'.maxAbs := by
  rw [maxAbs_eq_foldl, maxAbs_eq_foldl,
    foldl_max_nonzero (fun t : ℕ × ℕ × α => t.2.2) _ NeutralZero.zero_le_zero,
    foldl_max_nonzero (fun t : ℕ × ℕ × α => t.2.2) a'.toTriplets NeutralZero.zero_le_zero,
    h.nonzero_eq]

/-- And so are their sparse factors. -/
theorem SameValues.factor_eq (h : a.SameValues a') (refactorTol : α) :
    SparseLu.factor refactorTol a = SparseLu.factor refactorTol a' := by
  rw [SparseLu.factor, SparseLu.factor, h.maxAbs_eq, h.ofSparse_eq, h.rows_eq]

end SparseMatrix

end ReducedSpace
