/-!
# Scalars

Every algorithm of the library is written once, over an arbitrary `Scalar`. The machine instance
is `Float`; an exact instance over an ordered field reads the same definitions as mathematics. The
class lists operations only and states no law, so a statement over all scalars also covers NaN,
infinities and rounding.

Comparisons are Boolean operations of the scalar and not propositions: a comparison with a NaN is
false, and no order relation is assumed.
-/

namespace ReducedSpace

/-- Arithmetic, comparisons and constants of the numbers that matrices are made of. -/
class Scalar (α : Type) extends Zero α, One α, Add α, Sub α, Mul α, Div α, Neg α where
  /-- The scalar of a natural number. -/
  ofNat : Nat → α
  /-- Strictly less; false as soon as an operand is a NaN. -/
  lt : α → α → Bool
  /-- Less or equal; false as soon as an operand is a NaN. -/
  le : α → α → Bool
  /-- Numerically equal; false as soon as an operand is a NaN, true of the two zeros. -/
  eq : α → α → Bool
  /-- Magnitude. -/
  abs : α → α
  /-- The larger operand; an operand that is a NaN is ignored. -/
  max : α → α → α
  /-- The smaller operand; an operand that is a NaN is ignored. -/
  min : α → α → α
  /-- Square root. -/
  sqrt : α → α
  /-- Whether the value is not a number. -/
  isNaN : α → Bool
  /-- Whether the value is neither infinite nor a NaN. -/
  isFinite : α → Bool
  /-- Positive infinity. -/
  infinity : α
  /-- A value that is not a number. -/
  nan : α
  /-- Distance from one to the next larger number. -/
  epsilon : α
  /-- The smallest positive number of full precision. -/
  minPositive : α

namespace Scalar

variable {α : Type} [Scalar α]

/-- Whether the value compares equal to zero. -/
def isZero (x : α) : Bool := eq x 0

/-- One half. -/
def half : α := 1 / ofNat 2

/-- Powers by repeated squaring: `acc` gathers the factors of the binary digits of `k`. -/
def powAux (base acc : α) (k : Nat) : α :=
  if h : k = 0 then acc
  else
    let acc := if k % 2 = 1 then acc * base else acc
    powAux (base * base) acc (k / 2)
  termination_by k
  decreasing_by omega

/-- `base` to an integer power; a negative power is the reciprocal of the positive one. -/
def pow (base : α) : Int → α
  | .ofNat k => powAux base 1 k
  | .negSucc k => 1 / powAux base 1 (k + 1)

end Scalar

/-- Binary64 arithmetic. The extrema skip a NaN operand, which `Max Float` does not. -/
instance : Scalar Float where
  zero := 0.0
  one := 1.0
  ofNat := Float.ofNat
  lt a b := decide (a < b)
  le a b := decide (a ≤ b)
  eq a b := a == b
  abs := Float.abs
  max a b := if a.isNaN then b else if b.isNaN then a else if a < b then b else a
  min a b := if a.isNaN then b else if b.isNaN then a else if b < a then b else a
  sqrt := Float.sqrt
  isNaN := Float.isNaN
  isFinite := Float.isFinite
  infinity := 1.0 / 0.0
  nan := 0.0 / 0.0
  epsilon := Float.ofBits 0x3CB0000000000000
  minPositive := Float.ofBits 0x0010000000000000

end ReducedSpace
