import ReducedSpace.Decimal.Binary64

/-!
# Shortest decimal

The decimal with the fewest digits among those that read back as a given binary64 number, and the
nearest of these; of two equally near ones the larger. A decimal reads back when it lies between the
midpoints towards the neighbouring numbers, midpoints included exactly when `m` is even.

With `n` digits only the two grid points around the value can be candidates, and seventeen digits
always suffice, so `1, 2, …, 17` are tried in turn.
-/

namespace ReducedSpace.Decimal

/-- The reals that round to one binary64 number. -/
structure RoundingInterval where
  /-- Midpoint towards the next number below. -/
  lower : Ratio
  /-- Midpoint towards the next number above. -/
  upper : Ratio
  /-- Whether the midpoints belong to the interval. -/
  closed : Bool

/-- The interval around `m · 2 ^ q`. -/
def RoundingInterval.around (m : Nat) (q : Int) (narrowBelow : Bool) : RoundingInterval where
  lower := .ofDyadic (4 * m - if narrowBelow then 1 else 2) (q - 2)
  upper := .ofDyadic (4 * m + 2) (q - 2)
  closed := decide (m % 2 = 0)

/-- Whether a value rounds to the number of the interval. -/
def RoundingInterval.contains (i : RoundingInterval) (a : Ratio) : Bool :=
  if i.closed then i.lower.le a && a.le i.upper else i.lower.lt a && a.lt i.upper

/-- The better of the two grid points `c · 10 ^ s` and `(c + 1) · 10 ^ s` around the value that lie
in the interval. -/
def gridPoint? (value : Ratio) (interval : RoundingInterval) (s : Int) : Option Scaled :=
  let v := value.scaleDown s
  let c := v.num / v.den
  let below := interval.contains (.ofDecimal c s)
  let above := interval.contains (.ofDecimal (c + 1) s)
  let belowIsNearer := decide (2 * (v.num % v.den) < v.den)
  if below && (belowIsNearer || !above) then some ⟨c, s⟩
  else if above then some ⟨c + 1, s⟩
  else none

/-- The first grid with a hit, from `digits` digits on; `remaining` bounds the search. -/
def shortestFrom (value : Ratio) (interval : RoundingInterval) (decade : Int) :
    (remaining digits : Nat) → Scaled
  | 0, digits =>
    let v := value.scaleDown (decade - digits + 1)
    ⟨v.num / v.den, decade - digits + 1⟩
  | remaining + 1, digits =>
    match gridPoint? value interval (decade - digits + 1) with
    | some d => d
    | none => shortestFrom value interval decade remaining (digits + 1)

/-- The shortest decimal that reads back as `m · 2 ^ q`, for positive `m`. -/
def shortest (m : Nat) (q : Int) (narrowBelow : Bool) : Scaled :=
  let value := Ratio.ofDyadic m q
  shortestFrom value (.around m q narrowBelow) value.decade 17 1

end ReducedSpace.Decimal
