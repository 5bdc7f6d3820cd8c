import ReducedSpace.Proofs.Machine.Rounding

/-!
# NaN, infinity and positive numbers

The laws of the values that are not finite: a NaN spreads through arithmetic, but a largest value
skips it, and an infinite magnitude is the largest value of all and stays infinite or becomes a NaN
in every quotient. With them come the few facts about positive numbers that a quotient by a norm
rests on. The machine numbers obey these laws.
-/

namespace ReducedSpace

/-- The laws of a NaN and of infinite values, and which sums and products are positive. -/
class SpecialValues (α : Type) [Scalar α] : Prop where
  isNaN_nan : Scalar.isNaN (Scalar.nan : α) = true
  isNaN_zero : Scalar.isNaN (0 : α) = false
  isNaN_abs : ∀ x : α, Scalar.isNaN (Scalar.abs x) = Scalar.isNaN x
  isNaN_add : ∀ {x y : α}, Scalar.isNaN x = true ∨ Scalar.isNaN y = true →
    Scalar.isNaN (x + y) = true
  isNaN_mul : ∀ {x y : α}, Scalar.isNaN x = true ∨ Scalar.isNaN y = true →
    Scalar.isNaN (x * y) = true
  max_of_isNaN : ∀ {x y : α}, Scalar.isNaN x = false → Scalar.isNaN y = true → Scalar.max x y = x
  max_choice : ∀ x y : α, Scalar.max x y = x ∨ Scalar.max x y = y
  abs_zero : Scalar.abs (0 : α) = 0
  abs_of_infinite : ∀ {x : α}, Scalar.isFinite x = false → Scalar.isNaN x = false →
    Scalar.abs x = Scalar.infinity
  infinity_max : ∀ x : α, Scalar.max Scalar.infinity x = Scalar.infinity
  max_infinity : ∀ {x : α}, Scalar.isNaN x = false →
    Scalar.max (Scalar.abs x) Scalar.infinity = Scalar.infinity
  isFinite_infinity_div : ∀ x : α, Scalar.isFinite (Scalar.infinity / x) = false
  isFinite_zero : Scalar.isFinite (0 : α) = true
  isZero_zero : Scalar.isZero (0 : α) = true
  isZero_one : Scalar.isZero (1 : α) = false
  zero_lt_zero : Scalar.lt (0 : α) 0 = false
  zero_lt_minPositive : Scalar.lt (0 : α) Scalar.minPositive = true
  abs_add_pos : ∀ {x y : α}, Scalar.isNaN x = false → Scalar.lt 0 y = true →
    Scalar.lt 0 (Scalar.abs x + y) = true
  one_le_one_add_abs : ∀ {x : α}, Scalar.isNaN x = false → Scalar.le 1 (1 + Scalar.abs x) = true
  mul_pos_of_one_le : ∀ {x y : α}, Scalar.le 1 x = true → Scalar.le 1 y = true →
    Scalar.lt 0 (x * y) = true
  zero_div : ∀ {x : α}, Scalar.lt 0 x = true → 0 / x = 0

namespace Machine

open Float.Model Float.Model.UnpackedFloat

section NaN

/-- A machine number is a NaN if it unpacks to none of the numbers. -/
theorem isNaN_iff {x : Float} : Scalar.isNaN x = true ↔ value x = .notANumber := by
  show (value x).isNaN = true ↔ _
  cases value x <;> simp [UnpackedFloat.isNaN]

/-- And a NaN packs to a NaN. -/
theorem isNaN_of_pack (u : UnpackedFloat) (h : u = .notANumber) :
    Scalar.isNaN (Float.ofModel (.pack u)) = true := by
  rw [h]
  rfl

/-- A NaN on the right of a sum wins. -/
theorem add_notANumber (u : UnpackedFloat) :
    UnpackedFloat.add .binary64 u .notANumber = .notANumber := by cases u <;> rfl

/-- And on the right of a product. -/
theorem mul_notANumber (u : UnpackedFloat) :
    UnpackedFloat.mul .binary64 u .notANumber = .notANumber := by cases u <;> rfl

end NaN

section Magnitude

variable {x y : Float}

/-- Magnitudes need no rounding. -/
theorem value_abs (x : Float) : value (Scalar.abs x) = (value x).abs := by
  show UnpackedFloat.unpack .binary64 (UnpackedFloat.pack .binary64 (value x).abs) = _
  cases h : value x with
  | notANumber => rfl
  | infinity s => exact unpack_pack_infinity .positive
  | zero s => exact unpack_pack_zero .positive
  | finite s m e hm =>
    obtain ⟨hrounded, hle⟩ := rounded_of_value h
    exact (unpack_pack .positive hm hrounded).trans (if_pos hle)

/-- A value above zero. -/
def IsPositive : UnpackedFloat → Prop
  | .infinity .positive => True
  | .finite .positive _ _ _ => True
  | _ => False

/-- A value that is not below one, for a rounded mantissa and exponent. -/
def IsAtLeastOne : UnpackedFloat → Prop
  | .infinity .positive => True
  | .finite .positive m e _ => 2 ^ 52 ≤ m ∧ -52 ≤ e
  | _ => False

/-- A positive number is infinite or has a finite magnitude. -/
theorem IsPositive.cases {u : UnpackedFloat} (h : IsPositive u) :
    u = .infinity .positive ∨ ∃ m e hm, u = .finite .positive m e hm := by
  rcases u with (_ | _) | _ | _ | ⟨_ | _, m, e, hm⟩ <;> try contradiction
  · exact .inl rfl
  · exact .inr ⟨m, e, hm, rfl⟩

/-- A number of at least one is infinite or has a significand of full length and an exponent to
match. -/
theorem IsAtLeastOne.cases {u : UnpackedFloat} (h : IsAtLeastOne u) :
    u = .infinity .positive ∨
      ∃ m e hm, u = .finite .positive m e hm ∧ 2 ^ 52 ≤ m ∧ -52 ≤ e := by
  rcases u with (_ | _) | _ | _ | ⟨_ | _, m, e, hm⟩ <;> try contradiction
  · exact .inl rfl
  · exact .inr ⟨m, e, hm, rfl, h⟩

/-- Exponents decide before mantissas. -/
theorem isLE_compare_then (e₁ e₂ : Int) (m₁ m₂ : Nat) :
    ((compare e₁ e₂).then (compare m₁ m₂)).isLE = true ↔ e₁ < e₂ ∨ e₁ = e₂ ∧ m₁ ≤ m₂ := by
  rw [Ordering.isLE_then_iff_or, Int.compare_eq_lt, Int.compare_eq_eq, Nat.isLE_compare]

/-- The comparison with zero decides positivity. -/
theorem zero_lt_iff : Scalar.lt 0 x = true ↔ IsPositive (value x) := by
  have hzero : value 0 = .zero .positive := rfl
  rw [lt_eq, hzero]
  rcases value x with (_ | _) | _ | _ | ⟨_ | _, _⟩ <;>
    simp [UnpackedFloat.lt, UnpackedFloat.compare, IsPositive]

/-- The comparison with one decides the bound by one. -/
theorem one_le_iff : Scalar.le 1 x = true ↔ IsAtLeastOne (value x) := by
  have hone : value 1 = .finite .positive (2 ^ 52) (-52) (by decide) := rfl
  rw [le_eq, hone]
  cases h : value x with
  | notANumber => simp [UnpackedFloat.le, UnpackedFloat.compare, IsAtLeastOne]
  | infinity s => cases s <;> simp [UnpackedFloat.le, UnpackedFloat.compare, IsAtLeastOne]
  | zero s => simp [UnpackedFloat.le, UnpackedFloat.compare, IsAtLeastOne]
  | finite s m e hm =>
    obtain ⟨hrounded, -⟩ := rounded_of_value h
    cases s with
    | negative => simp [UnpackedFloat.le, UnpackedFloat.compare, IsAtLeastOne]
    | positive =>
      have hfull := hrounded.full
      show ((compare (-52) e).then (compare (2 ^ 52) m)).isLE = true ↔ 2 ^ 52 ≤ m ∧ -52 ≤ e
      rw [isLE_compare_then]
      omega

end Magnitude

section Positive

/-- A rounded positive number is positive, even if it overflows. -/
theorem isPositive_unpack_pack {m : Nat} {e : Int} (hm : 0 < m) (h : Rounded m e) :
    IsPositive (UnpackedFloat.unpack .binary64
      (UnpackedFloat.pack .binary64 (.finite .positive m e hm))) := by
  rw [unpack_pack .positive hm h]
  split <;> trivial

/-- The infinity is positive, also after a round through its bits. -/
theorem isPositive_infinity : IsPositive (UnpackedFloat.unpack .binary64
    (UnpackedFloat.pack .binary64 (.infinity .positive))) := by
  rw [unpack_pack_infinity]
  trivial

/-- A magnitude is not negative. -/
theorem abs_cases {u : UnpackedFloat} (h : u ≠ .notANumber) :
    u.abs = .infinity .positive ∨ u.abs = .zero .positive ∨
      ∃ s m e hm, u = .finite s m e hm ∧ u.abs = .finite .positive m e hm := by
  cases u with
  | notANumber => contradiction
  | infinity s => exact .inl rfl
  | zero s => exact .inr (.inl rfl)
  | finite s m e hm => exact .inr (.inr ⟨s, m, e, hm, rfl, rfl⟩)

/-- The sum of two positive numbers is their exact sum, rounded. -/
theorem add_positive {m₁ m₂ : Nat} {e₁ e₂ : Int} (h₁ : 0 < m₁) (h₂ : 0 < m₂) :
    UnpackedFloat.add .binary64 (.finite .positive m₁ e₁ h₁) (.finite .positive m₂ e₂ h₂) =
      round .binary64 .positive
        (m₁ <<< (e₁ - min e₁ e₂).toNat + m₂ <<< (e₂ - min e₁ e₂).toNat) (min e₁ e₂) := by
  let m : Nat := m₁ <<< (e₁ - min e₁ e₂).toNat + m₂ <<< (e₂ - min e₁ e₂).toNat
  have hm : 0 < m := Nat.add_pos_left (log2_shiftLeft h₁ _).1 _
  have hsign : compare (m : Int) 0 = .gt := Int.compare_eq_gt.2 (by omega)
  show normalize .binary64 (m : Int) (min e₁ e₂) .positive = round .binary64 .positive m _
  rw [UnpackedFloat.normalize, hsign]
  rfl

/-- A positive number stays positive when a magnitude is added. -/
theorem isPositive_abs_add {x y : Float} (hx : Scalar.isNaN x = false)
    (hy : IsPositive (value y)) : IsPositive (value (Scalar.abs x + y)) := by
  have hnumber : value x ≠ .notANumber := by
    rw [Ne, ← isNaN_iff, hx]
    exact Bool.false_ne_true
  show IsPositive (UnpackedFloat.unpack .binary64 (UnpackedFloat.pack .binary64
    (UnpackedFloat.add .binary64 (value (Scalar.abs x)) (value y))))
  rw [value_abs]
  rcases hy.cases with hval | ⟨m₂, e₂, h₂, hval⟩ <;> rw [hval]
  · rcases abs_cases hnumber with h | h | ⟨_, _, _, _, _, h⟩ <;> rw [h] <;>
      exact isPositive_infinity
  · obtain ⟨hrounded₂, -⟩ := rounded_of_value hval
    rcases abs_cases hnumber with h | h | ⟨s, m₁, e₁, h₁, hx, h⟩ <;> rw [h]
    · exact isPositive_infinity
    · exact isPositive_unpack_pack h₂ hrounded₂
    · obtain ⟨hrounded₁, -⟩ := rounded_of_value hx
      have hleast₁ := hrounded₁.least
      have hleast₂ := hrounded₂.least
      obtain ⟨m, e, hm, hresult, hrounded, -⟩ := exists_round .positive
        (Nat.add_pos_left (log2_shiftLeft h₁ (e₁ - min e₁ e₂).toNat).1
          (m₂ <<< (e₂ - min e₁ e₂).toNat)) (e := min e₁ e₂) (by omega)
      rw [add_positive, hresult]
      exact isPositive_unpack_pack hm hrounded

/-- One and a magnitude are at least one. -/
theorem isAtLeastOne_one_add_abs {x : Float} (hx : Scalar.isNaN x = false) :
    IsAtLeastOne (value (1 + Scalar.abs x)) := by
  have hnumber : value x ≠ .notANumber := by
    rw [Ne, ← isNaN_iff, hx]
    exact Bool.false_ne_true
  have hone : value 1 = .finite .positive (2 ^ 52) (-52) (by decide) := rfl
  show IsAtLeastOne (UnpackedFloat.unpack .binary64 (UnpackedFloat.pack .binary64
    (UnpackedFloat.add .binary64 (value 1) (value (Scalar.abs x)))))
  rw [value_abs, hone]
  rcases abs_cases hnumber with h | h | ⟨s, m₂, e₂, h₂, hx, h⟩ <;> rw [h]
  · trivial
  · exact ⟨Nat.le_refl _, Int.le_refl _⟩
  · obtain ⟨hrounded₂, -⟩ := rounded_of_value hx
    have hleast₂ := hrounded₂.least
    let k : Nat := (-52 - min (-52) e₂).toNat
    let sum : Nat := (2 ^ 52) <<< k + m₂ <<< (e₂ - min (-52) e₂).toNat
    obtain ⟨hpos, hlog⟩ := log2_shiftLeft (m := 2 ^ 52) (by decide) k
    have hsum : 0 < sum := Nat.add_pos_left hpos _
    have hlead : 52 + k ≤ sum.log2 := by
      have hone : (2 ^ 52 : Nat).log2 = 52 := Nat.log2_two_pow
      rw [hone] at hlog
      rw [← hlog, Nat.le_log2 (Nat.ne_of_gt hsum)]
      exact Nat.le_trans (Nat.log2_self_le (Nat.ne_of_gt hpos)) (Nat.le_add_right _ _)
    obtain ⟨m, e, hm, hresult, hrounded, hlow⟩ :=
      exists_round .positive hsum (e := min (-52) e₂) (by omega)
    rw [add_positive, hresult, unpack_pack .positive hm hrounded]
    split
    · have hfull := hrounded.full
      have hshort := (Nat.log2_lt (Nat.ne_of_gt hm)).2 hrounded.lt
      exact ⟨by omega, by omega⟩
    · trivial

/-- A product of two numbers that are at least one is positive. -/
theorem isPositive_mul {x y : Float} (hx : IsAtLeastOne (value x))
    (hy : IsAtLeastOne (value y)) : IsPositive (value (x * y)) := by
  show IsPositive (UnpackedFloat.unpack .binary64 (UnpackedFloat.pack .binary64
    (UnpackedFloat.mul .binary64 (value x) (value y))))
  rcases hx.cases with hvx | ⟨m₁, e₁, h₁, hvx, hfull₁, hexp₁⟩ <;>
    rcases hy.cases with hvy | ⟨m₂, e₂, h₂, hvy, hfull₂, hexp₂⟩ <;> rw [hvx, hvy]
  · exact isPositive_infinity
  · exact isPositive_infinity
  · exact isPositive_infinity
  · have hpos : 0 < m₁ * m₂ := Nat.mul_pos h₁ h₂
    have hprod : 2 ^ (52 + 52) ≤ m₁ * m₂ := by
      rw [Nat.pow_add]
      exact Nat.mul_le_mul hfull₁ hfull₂
    have hlong := (Nat.le_log2 (Nat.ne_of_gt hpos)).2 hprod
    obtain ⟨m, e, hm, hresult, hrounded, -⟩ := exists_roundWithAccuracy .positive hpos
      (e := e₁ + e₂) (by omega) (by omega) .exact
    show IsPositive (UnpackedFloat.unpack .binary64 (UnpackedFloat.pack .binary64
      (roundWithAccuracy .binary64 .positive (m₁ * m₂) (e₁ + e₂) .exact)))
    rw [hresult]
    exact isPositive_unpack_pack hm hrounded

end Positive

section Largest

variable {x y : Float}

/-- A maximum skips a NaN on either side. -/
theorem max_eq (x y : Float) : Scalar.max x y = if Scalar.isNaN x = true then y
    else if Scalar.isNaN y = true then x else if x < y then y else x := rfl

/-- An infinite magnitude is infinity itself. -/
theorem abs_eq_infinity {s : Sign} (h : value x = .infinity s) :
    Scalar.abs x = Scalar.infinity := by
  have hinfinity : (Scalar.infinity : Float) = .ofModel (.pack (.infinity .positive)) := by
    decide +kernel
  show Float.ofModel (.pack (value x).abs) = _
  rw [h, hinfinity]
  rfl

/-- Nothing exceeds the infinity. -/
theorem not_infinity_lt (x : Float) : ¬Scalar.infinity < x := by
  have hlt : Scalar.lt Scalar.infinity x = false := by
    rw [lt_eq]
    show (UnpackedFloat.infinity .positive).lt (value x) = false
    rcases value x with (_ | _) | _ | _ | _ <;> rfl
  exact of_decide_eq_false hlt

/-- So it is the maximum of itself and anything. -/
theorem infinity_max (x : Float) : Scalar.max Scalar.infinity x = Scalar.infinity := by
  have hnumber : ¬Scalar.isNaN (Scalar.infinity : Float) = true := by decide +kernel
  rw [max_eq, if_neg hnumber, if_neg (not_infinity_lt x)]
  exact ite_self _

/-- Finite magnitudes are below it. -/
theorem abs_lt_infinity (hx : Scalar.isFinite x = true) : Scalar.abs x < Scalar.infinity := by
  have hlt : Scalar.lt (Scalar.abs x) Scalar.infinity = true := by
    have hfinite : (value x).isFinite = true := hx
    rw [lt_eq, value_abs]
    show (value x).abs.lt (.infinity .positive) = true
    cases h : value x <;> rw [h] at hfinite <;> first | rfl | cases hfinite
  exact of_decide_eq_true hlt

/-- What is neither finite nor a NaN is an infinity. -/
theorem value_of_infinite (hfinite : Scalar.isFinite x = false) (hx : Scalar.isNaN x = false) :
    ∃ s, value x = .infinity s := by
  have hfinite : (value x).isFinite = false := hfinite
  have hx : (value x).isNaN = false := hx
  cases h : value x with
  | infinity s => exact ⟨s, rfl⟩
  | notANumber => rw [h] at hx; cases hx
  | zero s => rw [h] at hfinite; cases hfinite
  | finite s m e hm => rw [h] at hfinite; cases hfinite

/-- An infinite value divided by anything is infinite or a NaN. -/
theorem infinity_div_cases (u : UnpackedFloat) :
    UnpackedFloat.div .binary64 (.infinity .positive) u = .notANumber ∨
      ∃ s, UnpackedFloat.div .binary64 (.infinity .positive) u = .infinity s := by
  cases u with
  | infinity s => exact .inl rfl
  | notANumber => exact .inl rfl
  | zero s => exact .inr ⟨_, rfl⟩
  | finite s m e hm => exact .inr ⟨_, rfl⟩

end Largest

/-- The magnitude of a NaN is a NaN, and no other is. -/
theorem isNaN_abs (x : Float) : Scalar.isNaN (Scalar.abs x) = Scalar.isNaN x := by
  rw [Bool.eq_iff_iff, isNaN_iff, isNaN_iff, value_abs]
  cases value x <;> simp [UnpackedFloat.abs]

instance : SpecialValues Float where
  isNaN_nan := by decide +kernel
  isNaN_zero := by decide +kernel
  isNaN_abs := isNaN_abs
  isNaN_add {x y} h := by
    refine isNaN_of_pack (UnpackedFloat.add .binary64 (value x) (value y)) ?_
    rcases h with h | h
    · rw [isNaN_iff.1 h]
      rfl
    · rw [isNaN_iff.1 h, add_notANumber]
  isNaN_mul {x y} h := by
    refine isNaN_of_pack (UnpackedFloat.mul .binary64 (value x) (value y)) ?_
    rcases h with h | h
    · rw [isNaN_iff.1 h]
      rfl
    · rw [isNaN_iff.1 h, mul_notANumber]
  max_of_isNaN {x y} hx hy := by
    rw [max_eq, hx, hy]
    rfl
  max_choice x y := by
    rw [max_eq]
    split
    · exact .inr rfl
    split
    · exact .inl rfl
    split
    · exact .inr rfl
    · exact .inl rfl
  abs_zero := by decide +kernel
  abs_of_infinite hfinite hx := by
    obtain ⟨s, hs⟩ := value_of_infinite hfinite hx
    exact abs_eq_infinity hs
  infinity_max := infinity_max
  max_infinity {x} hx := by
    cases hfinite : Scalar.isFinite x with
    | false =>
      obtain ⟨s, hs⟩ := value_of_infinite hfinite hx
      rw [abs_eq_infinity hs]
      exact infinity_max _
    | true =>
      have hnumber : ¬Scalar.isNaN (Scalar.infinity : Float) = true := by decide +kernel
      have habs : ¬Scalar.isNaN (Scalar.abs x) = true := by
        rw [isNaN_abs, hx]
        exact Bool.false_ne_true
      rw [max_eq, if_neg habs, if_neg hnumber, if_pos (abs_lt_infinity hfinite)]
  isFinite_infinity_div x := by
    show (UnpackedFloat.unpack .binary64 (UnpackedFloat.pack .binary64
      (UnpackedFloat.div .binary64 (.infinity .positive) (value x)))).isFinite = false
    rcases infinity_div_cases (value x) with h | ⟨s, h⟩ <;> rw [h]
    · rfl
    · rw [unpack_pack_infinity]
      rfl
  isFinite_zero := by decide +kernel
  isZero_zero := by decide +kernel
  isZero_one := by decide +kernel
  zero_lt_zero := by decide +kernel
  zero_lt_minPositive := by decide +kernel
  abs_add_pos hx hy := zero_lt_iff.2 (isPositive_abs_add hx (zero_lt_iff.1 hy))
  one_le_one_add_abs hx := one_le_iff.2 (isAtLeastOne_one_add_abs hx)
  mul_pos_of_one_le hx hy := zero_lt_iff.2 (isPositive_mul (one_le_iff.1 hx) (one_le_iff.1 hy))
  zero_div {x} h := by
    have hzero : (0 : Float) = .ofModel (.pack (.zero .positive)) := by decide +kernel
    show Float.ofModel (.pack (UnpackedFloat.div .binary64 (.zero .positive) (value x))) = 0
    rcases (zero_lt_iff.1 h).cases with hx | ⟨m, e, hm, hx⟩ <;> rw [hx, hzero] <;> rfl

end Machine

end ReducedSpace
