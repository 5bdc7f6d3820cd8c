import ReducedSpace.Proofs.Machine.Order
import ReducedSpace.Proofs.Outcome
import ReducedSpace.Decomposition.SelfTest

/-!
# The verdict of the self-test

The verdict looks at the worst residual only, and a NaN counts as worse than any number. As the
worst residual is kept through one comparison after the other, it passes exactly if all residuals
do. Nothing else about the arithmetic is used than that numbers can be compared.
-/

namespace ReducedSpace

variable {α : Type} [Scalar α]

namespace SelfTest

/-- A residual passes if it is a number that does not exceed the tolerance. -/
def Passes (tol residual : α) : Prop :=
  Scalar.isNaN residual = false ∧ Scalar.lt tol residual = false

/-- The worse one of two named residuals. -/
def worse (best e : String × α) : String × α :=
  if Scalar.isNaN e.2 || Scalar.lt best.2 e.2 then e else best

theorem worst_eq_foldl (t : SelfTest α) : t.worst = t.named.foldl worse ("C*D + N", 0) := rfl

variable [ComparableScalar α] {tol : α}

/-- A number that is at most the tolerance passes, and nothing else does. -/
theorem passes_iff_le (htol : Scalar.isNaN tol = false) {residual : α} :
    Passes tol residual ↔ Scalar.le residual tol = true := by
  rw [ComparableScalar.le_iff]
  exact and_congr_right fun _ => (and_iff_right htol).symm

/-- The worse one passes if both do. -/
theorem passes_worse (best e : String × α) :
    Passes tol (worse best e).2 ↔ Passes tol best.2 ∧ Passes tol e.2 := by
  rw [worse]
  by_cases hnan : Scalar.isNaN e.2 = true
  · rw [hnan, Bool.true_or, if_pos rfl]
    constructor
    · rintro ⟨hnumber, -⟩
      rw [hnan] at hnumber
      cases hnumber
    · exact And.right
  · have hnumber : Scalar.isNaN e.2 = false := Bool.eq_false_iff.2 hnan
    rw [hnumber, Bool.false_or]
    by_cases hlt : Scalar.lt best.2 e.2 = true
    · rw [if_pos hlt]
      refine ⟨fun he => ⟨⟨(ComparableScalar.isNaN_of_lt hlt).1, ?_⟩, he⟩, And.right⟩
      refine Bool.eq_false_iff.2 fun hexceeds => ?_
      exact Bool.eq_false_iff.1 he.2 (OrderedScalar.lt_trans hexceeds hlt)
    · rw [if_neg hlt]
      refine ⟨fun hbest => ⟨hbest, hnumber, Bool.eq_false_iff.2 fun hexceeds => ?_⟩, And.left⟩
      rcases ComparableScalar.lt_or_lt hexceeds hbest.1 with hbelow | habove
      · exact Bool.eq_false_iff.1 hbest.2 hbelow
      · exact hlt habove

/-- The worst one passes if all do. -/
theorem passes_foldl_worse (residuals : List (String × α)) (best : String × α) :
    Passes tol (residuals.foldl worse best).2 ↔
      Passes tol best.2 ∧ ∀ e ∈ residuals, Passes tol e.2 := by
  induction residuals generalizing best with
  | nil => simp
  | cons e residuals ih => rw [List.foldl_cons, ih, passes_worse, List.forall_mem_cons, and_assoc]

/-- The search for the worst residual starts at zero, so the tolerance must not be below zero. -/
theorem passes_worst (t : SelfTest α) :
    Passes tol t.worst.2 ↔ Scalar.lt tol 0 = false ∧ ∀ e ∈ t.named, Passes tol e.2 := by
  rw [worst_eq_foldl, passes_foldl_worse]
  exact and_congr_left fun _ => and_iff_right ComparableScalar.isNaN_zero

end SelfTest

namespace Decomposition

variable [ComparableScalar α] {S N : Type} [Factorization S N α] {dec : Decomposition α S N}
  {gc : SparseMatrix α} {tol : α} {t : SelfTest α}

/-- The test succeeds exactly if its residuals can be computed and all of them pass, for a tolerance
that is not below zero. -/
theorem verify_eq_ok_iff : dec.verify gc tol = .ok t ↔
    dec.selfTest gc = .ok t ∧ Scalar.lt tol 0 = false ∧ ∀ e ∈ t.named, SelfTest.Passes tol e.2 := by
  rw [verify, bind_eq_ok_iff, ← SelfTest.passes_worst]
  constructor
  · rintro ⟨t', ht, h⟩
    dsimp only at h
    split at h
    · cases h
    · rename_i hpasses
      cases h
      simpa [SelfTest.Passes] using And.intro ht hpasses
  · rintro ⟨ht, hnumber, hle⟩
    refine ⟨t, ht, ?_⟩
    dsimp only
    rw [hnumber, hle]
    rfl

/-- For a tolerance that is not negative, every residual must be a number that is at most that. -/
theorem verify_eq_ok_iff_le (htol : Scalar.le 0 tol = true) : dec.verify gc tol = .ok t ↔
    dec.selfTest gc = .ok t ∧
      ∀ e ∈ t.named, Scalar.isNaN e.2 = false ∧ Scalar.le e.2 tol = true := by
  obtain ⟨-, hnumber, hlt⟩ := ComparableScalar.le_iff.1 htol
  rw [verify_eq_ok_iff, and_iff_right hlt]
  refine and_congr_right fun _ => forall₂_congr fun e _ => ?_
  rw [SelfTest.passes_iff_le hnumber]
  exact (and_iff_right_of_imp fun h => (ComparableScalar.le_iff.1 h).1).symm

end Decomposition

end ReducedSpace
