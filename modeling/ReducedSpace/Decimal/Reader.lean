/-!
# Reading a decimal number

A number is an optional sign, digits with at most one point among or around them and at least one
digit in all, and optionally an exponent: `e` or `E`, an optional sign and at least one digit. After
the sign the words `inf`, `infinity` and `nan` are read too, in any case. Nothing else is a number;
in particular no blank is skipped. The result is correctly rounded, and overflow gives an infinity.
-/

namespace ReducedSpace.Decimal

/-- The natural number that a string of digits stands for. -/
def digitsValue (digits : List Char) : Nat :=
  digits.foldl (fun v c => 10 * v + (c.toNat - '0'.toNat)) 0

/-- The sign in front of a text, and the text behind it; without a sign the number is positive. -/
def splitSign : List Char → Bool × List Char
  | '+' :: rest => (false, rest)
  | '-' :: rest => (true, rest)
  | text => (false, text)

/-- The digits a text starts with, and the rest. -/
def splitDigits (text : List Char) : List Char × List Char :=
  (text.takeWhile Char.isDigit, text.dropWhile Char.isDigit)

/-- An exponent that takes up the whole text; the empty text is exponent zero. -/
def exponent? : List Char → Option Int
  | [] => some 0
  | e :: rest =>
    if e = 'e' ∨ e = 'E' then
      let (negative, rest) := splitSign rest
      let (digits, rest) := splitDigits rest
      if digits.isEmpty || !rest.isEmpty then none
      else some (if negative then -(digitsValue digits : Int) else digitsValue digits)
    else none

/-- The binary64 number nearest to `coefficient · 10 ^ exponent`. Exponents far outside the range
are decided without forming the power. -/
def nearest (coefficient : Nat) (exponent : Int) : Float :=
  let size : Int := exponent + (Nat.toDigits 10 coefficient).length
  if coefficient = 0 ∨ size < -400 then 0.0
  else if 400 < size then 1.0 / 0.0
  else match exponent with
    | .ofNat k => Float.ofScientific coefficient false k
    | .negSucc k => Float.ofScientific coefficient true (k + 1)

/-- A number without its sign. -/
def magnitude? (text : List Char) : Option Float :=
  let word := text.map Char.toLower
  if word = "inf".toList ∨ word = "infinity".toList then some (1.0 / 0.0)
  else if word = "nan".toList then some (0.0 / 0.0)
  else
    let (whole, rest) := splitDigits text
    let (fraction, rest) := match rest with
      | '.' :: rest => splitDigits rest
      | rest => ([], rest)
    if whole.isEmpty && fraction.isEmpty then none
    else
      (exponent? rest).map fun e => nearest (digitsValue (whole ++ fraction)) (e - fraction.length)

/-- Reads a number that takes up the whole text. -/
def read? (text : String) : Option Float :=
  let (negative, rest) := splitSign text.toList
  (magnitude? rest).map fun x => if negative then -x else x

end ReducedSpace.Decimal
