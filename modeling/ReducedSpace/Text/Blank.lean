/-!
# Blank characters

The characters with the Unicode property White_Space, and the text without those at its two ends.
-/

namespace ReducedSpace.Text

/-- The 25 characters with the property White_Space. -/
def isBlank (c : Char) : Bool :=
  let n := c.toNat
  (0x0009 ≤ n && n ≤ 0x000D) || n = 0x0020 || n = 0x0085 || n = 0x00A0 || n = 0x1680
    || (0x2000 ≤ n && n ≤ 0x200A) || n = 0x2028 || n = 0x2029 || n = 0x202F || n = 0x205F
    || n = 0x3000

/-- The text without the blanks at its beginning and end. -/
def trim (s : String) : String :=
  let start := s.toList.dropWhile isBlank
  String.ofList (start.reverse.dropWhile isBlank).reverse

/-- The trimmed text in lower case, as option words are compared. Only ASCII letters have case. -/
def word (s : String) : String := String.ofList ((trim s).toList.map Char.toLower)

end ReducedSpace.Text
