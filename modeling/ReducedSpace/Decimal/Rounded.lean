import ReducedSpace.Decimal.Binary64

/-!
# Decimal with a given number of digits

The exact binary value rounded to a fixed number of significant digits. A value half way between two
such decimals goes to the one whose last digit is even.
-/

namespace ReducedSpace.Decimal

/-- The quotient of two naturals rounded to the nearest natural, a tie to the even one. -/
def divNearestEven (num den : Nat) : Nat :=
  let c := num / den
  let twice := 2 * (num % den)
  if twice < den then c
  else if twice = den then c + c % 2
  else c + 1

/-- `m · 2 ^ q` rounded to `digits` significant digits, for positive `m` and `digits`. -/
def rounded (digits : Nat) (m : Nat) (q : Int) : Scaled :=
  let value := Ratio.ofDyadic m q
  let s := value.decade - digits + 1
  let v := value.scaleDown s
  let c := divNearestEven v.num v.den
  if c = Nat.pow 10 digits then ⟨Nat.pow 10 (digits - 1), s + 1⟩ else ⟨c, s⟩

end ReducedSpace.Decimal
