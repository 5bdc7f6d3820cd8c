/-!
# The value of a binary64 number

A finite number is `± m · 2 ^ q` with naturals `m` and an integer `q`. The modules on decimal text
work on that pair in exact natural arithmetic: a positive rational is kept as a numerator over a
denominator, and powers of ten move to the side where they are whole.
-/

namespace ReducedSpace.Decimal

/-- What a binary64 number stands for. -/
inductive Binary64 where
  /-- Not a number. -/
  | nan
  /-- An infinity with its sign. -/
  | infinite (negative : Bool)
  /-- The number `± m · 2 ^ q`; `narrowBelow` tells that the next number below lies at half the
  distance of the next one above. -/
  | finite (negative : Bool) (m : Nat) (q : Int) (narrowBelow : Bool)
  deriving DecidableEq, Repr

/-- Reads sign, exponent and fraction off the bit pattern. -/
def Binary64.ofBits (bits : Nat) : Binary64 :=
  let negative := decide (Nat.pow 2 63 ≤ bits)
  let exponent : Nat := bits / Nat.pow 2 52 % Nat.pow 2 11
  let fraction : Nat := bits % Nat.pow 2 52
  if exponent = Nat.pow 2 11 - 1 then
    if fraction = 0 then .infinite negative else .nan
  else if exponent = 0 then .finite negative fraction (-1074) false
  else
    .finite negative (Nat.pow 2 52 + fraction) ((exponent : Int) - 1075)
      (decide (fraction = 0 ∧ 1 < exponent))

/-- What a machine number stands for. -/
def Binary64.ofFloat (x : Float) : Binary64 := .ofBits x.toBits.toNat

/-- A positive rational as numerator and denominator. -/
structure Ratio where
  /-- The numerator. -/
  num : Nat
  /-- The denominator. -/
  den : Nat
  deriving DecidableEq, Repr

namespace Ratio

/-- `m · 2 ^ q`. -/
def ofDyadic (m : Nat) : Int → Ratio
  | .ofNat k => ⟨m * Nat.pow 2 k, 1⟩
  | .negSucc k => ⟨m, Nat.pow 2 (k + 1)⟩

/-- `c · 10 ^ s`. -/
def ofDecimal (c : Nat) : Int → Ratio
  | .ofNat k => ⟨c * Nat.pow 10 k, 1⟩
  | .negSucc k => ⟨c, Nat.pow 10 (k + 1)⟩

/-- Strictly less, by cross multiplication. -/
def lt (a b : Ratio) : Bool := decide (a.num * b.den < b.num * a.den)

/-- Less or equal, by cross multiplication. -/
def le (a b : Ratio) : Bool := decide (a.num * b.den ≤ b.num * a.den)

/-- The value divided by a power of ten. -/
def scaleDown (a : Ratio) : Int → Ratio
  | .ofNat k => ⟨a.num, a.den * Nat.pow 10 k⟩
  | .negSucc k => ⟨a.num * Nat.pow 10 (k + 1), a.den⟩

/-- The number of decimal digits of a natural, one for zero. -/
def digitCount (n : Nat) : Nat := (Nat.toDigits 10 n).length

/-- The exponent `e` with `10 ^ e ≤ a < 10 ^ (e + 1)`. -/
def decade (a : Ratio) : Int :=
  if a.den ≤ a.num then (digitCount (a.num / a.den) : Int) - 1
  else
    let d := digitCount (a.den / a.num)
    if a.num * Nat.pow 10 (d - 1) = a.den then -((d : Int) - 1) else -(d : Int)

end Ratio

/-- The decimal number `coefficient · 10 ^ exponent`. -/
structure Scaled where
  /-- The digits, read as one natural. -/
  coefficient : Nat
  /-- The power of ten of the last digit. -/
  exponent : Int
  deriving DecidableEq, Repr

end ReducedSpace.Decimal
