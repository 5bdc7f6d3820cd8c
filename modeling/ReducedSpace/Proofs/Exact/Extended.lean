import ReducedSpace.Proofs.Exact.Scalar

/-!
# Exact scalars with values that are not finite

An ordered field has neither infinities nor a NaN, so statements about measures that are not finite
need more values. The extended scalars add them: finite values are computed with exactly, and the
other ones follow the rules of binary arithmetic. A NaN spreads and stands in no relation to
anything, the infinities are the ends of the order, and a quotient by zero is infinite.
-/

namespace ReducedSpace

/-- A value of an ordered field, an infinity of either sign, or a NaN. -/
inductive Extended (K : Type) where
  | finite (x : K)
  | infinite (negative : Bool)
  | nan
  deriving DecidableEq

namespace Extended

variable {K : Type} [ExactScalar K]

/-- Whether the sign of a value is negative; zero and a NaN count as positive. -/
def isNegative : Extended K → Bool
  | finite x => decide (x < 0)
  | infinite negative => negative
  | nan => false

/-- Infinities of opposite signs have no sum. -/
def add : Extended K → Extended K → Extended K
  | finite x, finite y => finite (x + y)
  | finite _, infinite s => infinite s
  | infinite s, finite _ => infinite s
  | infinite s, infinite t => if s = t then infinite s else nan
  | _, _ => nan

/-- The value with the other sign. -/
def neg : Extended K → Extended K
  | finite x => finite (-x)
  | infinite s => infinite (!s)
  | nan => nan

/-- An infinity and zero have no product. -/
def mul : Extended K → Extended K → Extended K
  | finite x, finite y => finite (x * y)
  | finite x, infinite s => if x = 0 then nan else infinite (decide (x < 0) ^^ s)
  | infinite s, finite y => if y = 0 then nan else infinite (s ^^ decide (y < 0))
  | infinite s, infinite t => infinite (s ^^ t)
  | _, _ => nan

/-- Zeros have no quotient, nor have infinities. Any other quotient by zero is infinite. -/
def div : Extended K → Extended K → Extended K
  | finite x, finite y =>
    if y ≠ 0 then finite (x / y) else if x = 0 then nan else infinite (decide (x < 0))
  | finite _, infinite _ => finite 0
  | infinite s, finite y => infinite (s ^^ decide (y < 0))
  | _, _ => nan

/-- Strictly less; a NaN is neither less nor greater than anything. -/
def lt : Extended K → Extended K → Bool
  | finite x, finite y => decide (x < y)
  | finite _, infinite s => !s
  | infinite s, finite _ => s
  | infinite s, infinite t => s && !t
  | _, _ => false

/-- Numerically equal; a NaN equals nothing. -/
def eq : Extended K → Extended K → Bool
  | finite x, finite y => decide (x = y)
  | infinite s, infinite t => s == t
  | _, _ => false

/-- The magnitude. -/
def abs (x : Extended K) : Extended K := if x.isNegative then neg x else x

/-- Whether the value is a NaN. -/
def isNaN : Extended K → Bool
  | nan => true
  | _ => false

/-- The larger value; a NaN is ignored. -/
def max (x y : Extended K) : Extended K :=
  if x.isNaN then y else if y.isNaN then x else if lt x y then y else x

/-- The smaller value; a NaN is ignored. -/
def min (x y : Extended K) : Extended K :=
  if x.isNaN then y else if y.isNaN then x else if lt y x then y else x

/-- The square root; negative values have none. -/
def sqrt (x : Extended K) : Extended K :=
  if x.isNegative then nan
  else match x with
    | finite x => finite (ExactScalar.root x)
    | x => x

/-- Exact arithmetic with infinities and a NaN, and with the constants of binary64. -/
instance : Scalar (Extended K) where
  zero := finite 0
  one := finite 1
  add := add
  sub x y := add x (neg y)
  mul := mul
  div := div
  neg := neg
  ofNat n := finite n
  lt := lt
  le x y := lt x y || eq x y
  eq := eq
  abs := abs
  max := max
  min := min
  sqrt := sqrt
  isNaN := isNaN
  isFinite
    | finite _ => true
    | _ => false
  infinity := infinite false
  nan := nan
  epsilon := finite (1 / Nat.cast (2 ^ 52))
  minPositive := finite (1 / Nat.cast (2 ^ 1022))

section Order

variable {x y z : Extended K} {a b : K}

@[simp] theorem zero_eq : (0 : Extended K) = finite 0 := rfl

@[simp] theorem lt_finite : Scalar.lt (finite a) (finite b) = true ↔ a < b := decide_eq_true_iff

@[simp] theorem lt_infinite (a : K) (s : Bool) :
    Scalar.lt (finite a) (infinite s) = !s := rfl

@[simp] theorem le_finite : Scalar.le (finite a) (finite b) = true ↔ a ≤ b := by
  show (decide (a < b) || decide (a = b)) = true ↔ a ≤ b
  rw [Bool.or_eq_true, decide_eq_true_iff, decide_eq_true_iff, le_iff_lt_or_eq]

@[simp] theorem isZero_finite : Scalar.isZero (finite a) = true ↔ a = 0 := decide_eq_true_iff

theorem finite_div (a : K) (hb : b ≠ 0) : finite a / finite b = finite (a / b) := if_pos hb

theorem isFinite_iff : Scalar.isFinite x = true ↔ ∃ a, x = finite a := by
  cases x with
  | finite a => exact ⟨fun _ => ⟨a, rfl⟩, fun _ => rfl⟩
  | infinite s => exact ⟨fun h => (Bool.false_ne_true h).elim, fun ⟨_, h⟩ => by cases h⟩
  | nan => exact ⟨fun h => (Bool.false_ne_true h).elim, fun ⟨_, h⟩ => by cases h⟩

/-- A positive value is a positive number or infinite. -/
theorem pos_iff : Scalar.lt 0 x = true ↔ x = infinite false ∨ ∃ a, 0 < a ∧ x = finite a := by
  cases x with
  | finite a => simp
  | infinite s => cases s <;> simp
  | nan => exact ⟨fun h => (Bool.false_ne_true h).elim, by simp⟩

/-- What is not below a positive value is infinite, or both are positive numbers. -/
theorem cases_of_pos_of_le (hx : Scalar.lt 0 x = true) (h : Scalar.le x y = true) :
    y = infinite false ∨ ∃ a b, 0 < a ∧ a ≤ b ∧ x = finite a ∧ y = finite b := by
  rcases pos_iff.1 hx with rfl | ⟨a, ha, rfl⟩
  · cases y with
    | finite b => cases h
    | infinite s =>
      cases s with
      | false => exact .inl rfl
      | true => cases h
    | nan => cases h
  · cases y with
    | finite b => exact .inr ⟨a, b, ha, le_finite.1 h, rfl, rfl⟩
    | infinite s =>
      cases s with
      | false => exact .inl rfl
      | true => cases h
    | nan => cases h

/-- What is below a number is below every larger one. -/
theorem lt_of_lt_of_le (h : Scalar.lt x (finite a) = true) (hab : a ≤ b) :
    Scalar.lt x (finite b) = true := by
  cases x with
  | finite c => exact lt_finite.2 ((lt_finite.1 h).trans_le hab)
  | infinite s => exact h
  | nan => exact h

/-- The smaller of a value and a number grows with the value. -/
theorem smaller_le_smaller (hx : Scalar.lt 0 x = true) (h : Scalar.le x y = true) (c : K) :
    Scalar.le (if Scalar.lt (finite c) x = true then finite c else x)
      (if Scalar.lt (finite c) y = true then finite c else y) = true := by
  rcases cases_of_pos_of_le hx h with rfl | ⟨a, b, -, hab, rfl, rfl⟩
  · rw [lt_infinite, if_pos Bool.not_false]
    split
    · exact le_finite.2 (le_refl c)
    · rename_i hge
      rcases pos_iff.1 hx with rfl | ⟨a, -, rfl⟩
      · exact absurd rfl hge
      · exact le_finite.2 (not_lt.1 (mt lt_finite.2 hge))
  · split
    · split
      · exact le_finite.2 (le_refl c)
      · exact le_finite.2 ((lt_finite.1 ‹_›).le.trans hab)
    · rename_i hge
      split
      · exact le_finite.2 (not_lt.1 (mt lt_finite.2 hge))
      · exact le_finite.2 hab

end Order

end Extended

end ReducedSpace
