import Mathlib
import ReducedSpace.Proofs.Exact.Scalar
import ReducedSpace.Proofs.Machine.Order

/-!
# Neutral zeros

Scalars where adding a number to zero gives the number, up to the sign of a zero, and where zeros
have no part in the largest magnitude. Exact scalars are instances, and so are the machine numbers,
whose sum with zero needs no rounding.
-/

namespace ReducedSpace

/-- Adding a number to zero changes nothing but the sign of a zero, and zeros have no part in the
largest magnitude. -/
class NeutralZero (α : Type) [Scalar α] : Prop where
  isZero_zero : Scalar.isZero (0 : α) = true
  zero_add : ∀ {v : α}, Scalar.isZero v = false → 0 + v = v
  isZero_zero_add : ∀ {v : α}, Scalar.isZero v = true → Scalar.isZero (0 + v) = true
  zero_le_zero : Scalar.le (0 : α) 0 = true
  zero_le_max : ∀ {x : α}, Scalar.le 0 x = true → ∀ v : α,
    Scalar.le 0 (Scalar.max x (Scalar.abs v)) = true
  max_abs : ∀ {x v : α}, Scalar.le 0 x = true → Scalar.isZero v = true →
    Scalar.max x (Scalar.abs v) = x

instance {K : Type} [ExactScalar K] : NeutralZero K where
  isZero_zero := by simp
  zero_add _ := zero_add _
  isZero_zero_add hv := by simpa using hv
  zero_le_zero := by simp
  zero_le_max hx v := by
    rw [Scalar.le_iff] at hx ⊢
    exact hx.trans (le_max_left _ _)
  max_abs {x v} hx hv := by
    have hv : v = 0 := by simpa using hv
    rw [hv]
    show max x |0| = x
    rw [abs_zero, max_eq_left (Scalar.le_iff.1 hx)]

namespace Machine

open Float.Model Float.Model.UnpackedFloat

variable {x v : Float}

theorem value_zero : value 0 = .zero .positive := by
  have hzero : (0 : Float) = .ofModel (.pack (.zero .positive)) := by decide +kernel
  rw [hzero]
  exact unpack_pack_zero .positive

theorem isZero_iff : Scalar.isZero x = true ↔ ∃ s, value x = .zero s := by
  show UnpackedFloat.beq (value x) (value 0) = true ↔ _
  rw [UnpackedFloat.beq_iff_ne_notANumber_and_eq, value_zero]
  constructor
  · rintro ⟨-, -, h | ⟨h, -⟩ | ⟨h, -⟩⟩ <;> exact ⟨_, h⟩
  · rintro ⟨s | s, h⟩ <;> simp [h]

theorem zero_add_eq (v : Float) :
    0 + v = .ofModel (.pack (UnpackedFloat.add .binary64 (.zero .positive) (value v))) := by
  rw [← value_zero]
  rfl

theorem zero_add_of_not_zero (hv : Scalar.isZero v = false) : 0 + v = v := by
  have hadd : UnpackedFloat.add .binary64 (.zero .positive) (value v) = value v := by
    cases h : value v with
    | zero s =>
      rw [isZero_iff.2 ⟨s, h⟩] at hv
      cases hv
    | _ => rfl
  rw [zero_add_eq, hadd, ofModel_pack_value]

theorem zero_add_of_zero (hv : Scalar.isZero v = true) : 0 + v = 0 := by
  obtain ⟨s, hs⟩ := isZero_iff.1 hv
  rw [zero_add_eq, hs, ← ofModel_pack_value 0, value_zero]
  cases s <;> rfl

/-- The larger operand is not below the first one, which is a number. -/
theorem zero_le_max (hx : Scalar.le 0 x = true) (v : Float) :
    Scalar.le 0 (Scalar.max x v) = true := by
  obtain ⟨-, hnumber, hle⟩ := ComparableScalar.le_iff.1 hx
  rw [max_eq, hnumber, if_neg Bool.false_ne_true]
  split
  · exact hx
  · split
    · rename_i hv hlt
      refine ComparableScalar.le_iff.2 ⟨SpecialValues.isNaN_zero, by simpa using hv, ?_⟩
      rw [Bool.eq_false_iff]
      intro hneg
      have hx0 := OrderedScalar.lt_trans (decide_eq_true hlt) hneg
      rw [hle] at hx0
      cases hx0
    · exact hx

theorem max_abs_of_zero (hx : Scalar.le 0 x = true) (hv : Scalar.isZero v = true) :
    Scalar.max x (Scalar.abs v) = x := by
  obtain ⟨-, hnumber, hle⟩ := ComparableScalar.le_iff.1 hx
  obtain ⟨s, hs⟩ := isZero_iff.1 hv
  have habs : Scalar.abs v = 0 := value_inj (by rw [value_abs, hs, value_zero]; rfl)
  have hlt : ¬x < 0 := of_decide_eq_false hle
  rw [max_eq, habs, hnumber, if_neg Bool.false_ne_true, if_neg hlt, ite_self]

instance : NeutralZero Float where
  isZero_zero := by decide +kernel
  zero_add := zero_add_of_not_zero
  isZero_zero_add {v} hv := by
    show Scalar.isZero ((0 : Float) + v) = true
    rw [zero_add_of_zero hv]
    decide +kernel
  zero_le_zero := by decide +kernel
  zero_le_max hx v := zero_le_max hx (Scalar.abs v)
  max_abs := max_abs_of_zero

end Machine

end ReducedSpace
