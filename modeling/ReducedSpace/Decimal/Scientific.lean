import ReducedSpace.Decimal.Shortest
import ReducedSpace.Decimal.Rounded

/-!
# Scientific notation

A number is written as one digit, a point and the other digits if there are any, the letter `e` and
the exponent. The exponent has a minus sign when negative and no padding; a negative zero keeps its
sign; the special values are `NaN`, `inf` and `-inf`.
-/

namespace ReducedSpace.Decimal

/-- Zeros at the end of a digit string, which do not change the digits' value as a fraction. -/
def dropTrailingZeros (digits : List Char) : List Char :=
  (digits.reverse.dropWhile (· == '0')).reverse

/-- One digit, a point before the others if there are any, and the exponent of the first digit. -/
def scientificText (digits : List Char) (exponent : Int) : String :=
  match digits with
  | [] => "0e0"
  | d :: [] => String.ofList [d] ++ "e" ++ toString exponent
  | d :: rest => String.ofList (d :: '.' :: rest) ++ "e" ++ toString exponent

/-- The text of a decimal without the zeros at its end. -/
def Scaled.shortText (d : Scaled) : String :=
  let digits := Nat.toDigits 10 d.coefficient
  scientificText (dropTrailingZeros digits) (d.exponent + digits.length - 1)

/-- The text of a decimal with all its digits. -/
def Scaled.fullText (d : Scaled) : String :=
  let digits := Nat.toDigits 10 d.coefficient
  scientificText digits (d.exponent + digits.length - 1)

/-- A sign in front of the text of a magnitude. -/
def signed (negative : Bool) (text : String) : String := if negative then "-" ++ text else text

/-- The shortest scientific notation that reads back as the number. -/
def scientific (x : Float) : String :=
  match Binary64.ofFloat x with
  | .nan => "NaN"
  | .infinite negative => signed negative "inf"
  | .finite negative 0 _ _ => signed negative "0e0"
  | .finite negative m q narrowBelow => signed negative (shortest m q narrowBelow).shortText

/-- Scientific notation with exactly three digits after the point. -/
def scientific3 (x : Float) : String :=
  match Binary64.ofFloat x with
  | .nan => "NaN"
  | .infinite negative => signed negative "inf"
  | .finite negative 0 _ _ => signed negative "0.000e0"
  | .finite negative m q _ => signed negative (rounded 4 m q).fullText

end ReducedSpace.Decimal
