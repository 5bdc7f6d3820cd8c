import Mathlib
import ReducedSpace.Proofs.Exact.Scalar
import ReducedSpace.Proofs.Machine.SpecialValues

/-!
# The order of the scalars

Comparisons of scalars are Boolean operations without laws. Those that are a strict order in the
usual sense form a class of their own, and so do those where all numbers can be compared: the exact
scalars are instances, and so are the machine numbers, where a NaN stands in no relation to anything.
-/

namespace ReducedSpace

/-- Strictly less is irreflexive and transitive. -/
class OrderedScalar (α : Type) [Scalar α] : Prop where
  lt_irrefl : ∀ x : α, Scalar.lt x x = false
  lt_trans : ∀ {x y z : α}, Scalar.lt x y = true → Scalar.lt y z = true → Scalar.lt x z = true

instance {K : Type} [ExactScalar K] : OrderedScalar K where
  lt_irrefl x := Scalar.lt_eq_false_iff.2 (le_refl x)
  lt_trans h₁ h₂ := Scalar.lt_iff.2 ((Scalar.lt_iff.1 h₁).trans (Scalar.lt_iff.1 h₂))

/-- Any two numbers can be compared, and a NaN stands in no relation to anything. -/
class ComparableScalar (α : Type) [Scalar α] : Prop extends OrderedScalar α where
  isNaN_zero : Scalar.isNaN (0 : α) = false
  isNaN_of_lt : ∀ {x y : α}, Scalar.lt x y = true →
    Scalar.isNaN x = false ∧ Scalar.isNaN y = false
  lt_or_lt : ∀ {x y z : α}, Scalar.lt x y = true → Scalar.isNaN z = false →
    Scalar.lt x z = true ∨ Scalar.lt z y = true
  le_iff : ∀ {x y : α}, Scalar.le x y = true ↔
    Scalar.isNaN x = false ∧ Scalar.isNaN y = false ∧ Scalar.lt y x = false

instance {K : Type} [ExactScalar K] : ComparableScalar K where
  isNaN_zero := rfl
  isNaN_of_lt _ := ⟨rfl, rfl⟩
  lt_or_lt {x y z} h _ := by
    simp only [Scalar.lt_iff] at h ⊢
    exact (lt_or_ge x z).imp_right fun hz => hz.trans_lt h
  le_iff := by simp

namespace Machine

open Float.Model

/-- The place of a number in the order: by sign and finiteness first, then by exponent and mantissa,
which count backwards for negative numbers. A NaN has no place. -/
def place : UnpackedFloat → Option (ℤ ×ₗ ℤ ×ₗ ℤ)
  | .notANumber => none
  | .infinity .negative => some (toLex (-2, toLex (0, 0)))
  | .finite .negative m e _ => some (toLex (-1, toLex (-e, -m)))
  | .zero _ => some (toLex (0, toLex (0, 0)))
  | .finite .positive m e _ => some (toLex (1, toLex (e, m)))
  | .infinity .positive => some (toLex (2, toLex (0, 0)))

/-- Exponents decide before mantissas. -/
theorem compare_then_lt_iff (e₁ e₂ : ℤ) (m₁ m₂ : ℕ) :
    (compare e₁ e₂).then (compare m₁ m₂) = .lt ↔ e₁ < e₂ ∨ e₁ = e₂ ∧ m₁ < m₂ := by
  rw [Ordering.then_eq_lt, compare_lt_iff_lt, compare_eq_iff_eq, compare_lt_iff_lt]

theorem compare_then_gt_iff (e₁ e₂ : ℤ) (m₁ m₂ : ℕ) :
    (compare e₁ e₂).then (compare m₁ m₂) = .gt ↔ e₂ < e₁ ∨ e₁ = e₂ ∧ m₂ < m₁ := by
  rw [Ordering.then_eq_gt, compare_gt_iff_gt, compare_eq_iff_eq, compare_gt_iff_gt]

theorem isGE_compare_then_iff (e₁ e₂ : ℤ) (m₁ m₂ : ℕ) :
    ((compare e₁ e₂).then (compare m₁ m₂)).isGE = true ↔ e₂ < e₁ ∨ e₁ = e₂ ∧ m₂ ≤ m₁ := by
  rw [← Ordering.isLE_swap, Ordering.swap_then, ← Int.compare_swap e₂ e₁, ← Nat.compare_swap m₂ m₁,
    Ordering.swap_swap, Ordering.swap_swap, isLE_compare_then, eq_comm]

theorem compare_negative_positive :
    compare UnpackedFloat.Sign.negative UnpackedFloat.Sign.positive = .lt := rfl

theorem compare_positive_negative :
    compare UnpackedFloat.Sign.positive UnpackedFloat.Sign.negative = .gt := rfl

theorem compare_sign_self (s : UnpackedFloat.Sign) : compare s s = .eq := by cases s <;> rfl

/-- A number is less than another one if both have a place and the places are in this order. -/
theorem lt_iff_place (u v : UnpackedFloat) :
    u.lt v = true ↔ ∃ a b, place u = some a ∧ place v = some b ∧ a < b := by
  rcases u with (_ | _) | _ | _ | ⟨_ | _, m₁, e₁, _⟩ <;>
    rcases v with (_ | _) | _ | _ | ⟨_ | _, m₂, e₂, _⟩ <;>
      simp [place, UnpackedFloat.lt, UnpackedFloat.compare, Prod.Lex.toLex_lt_toLex,
        compare_then_lt_iff, compare_then_gt_iff, compare_negative_positive]

/-- The same for a number that is not above another one. -/
theorem le_iff_place (u v : UnpackedFloat) :
    u.le v = true ↔ ∃ a b, place u = some a ∧ place v = some b ∧ a ≤ b := by
  rcases u with (_ | _) | _ | _ | ⟨_ | _, m₁, e₁, _⟩ <;>
    rcases v with (_ | _) | _ | _ | ⟨_ | _, m₂, e₂, _⟩ <;>
      simp [place, UnpackedFloat.le, UnpackedFloat.compare, Prod.Lex.toLex_le_toLex,
        isLE_compare_then, isGE_compare_then_iff, compare_negative_positive,
        compare_positive_negative, compare_sign_self]

/-- Only a NaN has no place. -/
theorem isNaN_eq_false_iff {x : Float} :
    Scalar.isNaN x = false ↔ ∃ a, place (value x) = some a := by
  rw [← Bool.not_eq_true, isNaN_iff]
  rcases value x with (_ | _) | _ | _ | ⟨_ | _, _⟩ <;> simp [place]

instance : OrderedScalar Float where
  lt_irrefl x := by
    rw [lt_eq, Bool.eq_false_iff, Ne, lt_iff_place]
    rintro ⟨a, b, ha, hb, hlt⟩
    rw [ha] at hb
    exact hlt.ne (Option.some.inj hb)
  lt_trans {x y z} hxy hyz := by
    rw [lt_eq, lt_iff_place] at hxy hyz ⊢
    obtain ⟨a, b, ha, hb, hab⟩ := hxy
    obtain ⟨b', c, hb', hc, hbc⟩ := hyz
    rw [hb] at hb'
    obtain rfl := Option.some.inj hb'
    exact ⟨a, c, ha, hc, hab.trans hbc⟩

instance : ComparableScalar Float where
  isNaN_zero := SpecialValues.isNaN_zero
  isNaN_of_lt {x y} h := by
    rw [lt_eq, lt_iff_place] at h
    obtain ⟨a, b, ha, hb, -⟩ := h
    exact ⟨isNaN_eq_false_iff.2 ⟨a, ha⟩, isNaN_eq_false_iff.2 ⟨b, hb⟩⟩
  lt_or_lt {x y z} h hz := by
    obtain ⟨c, hc⟩ := isNaN_eq_false_iff.1 hz
    rw [lt_eq, lt_iff_place] at h
    obtain ⟨a, b, ha, hb, hab⟩ := h
    rw [lt_eq, lt_eq, lt_iff_place, lt_iff_place]
    exact (lt_or_ge a c).imp (fun hac => ⟨a, c, ha, hc, hac⟩)
      fun hca => ⟨c, b, hc, hb, hca.trans_lt hab⟩
  le_iff {x y} := by
    rw [isNaN_eq_false_iff, isNaN_eq_false_iff, le_eq, le_iff_place, lt_eq, ← Bool.not_eq_true,
      lt_iff_place]
    constructor
    · rintro ⟨a, b, ha, hb, hab⟩
      refine ⟨⟨a, ha⟩, ⟨b, hb⟩, ?_⟩
      rintro ⟨b', a', hb', ha', hlt⟩
      obtain rfl := Option.some.inj (ha.symm.trans ha')
      obtain rfl := Option.some.inj (hb.symm.trans hb')
      exact hab.not_gt hlt
    · rintro ⟨⟨a, ha⟩, ⟨b, hb⟩, hnot⟩
      exact ⟨a, b, ha, hb, not_lt.1 fun hlt => hnot ⟨b, a, hb, ha, hlt⟩⟩

end Machine

end ReducedSpace
