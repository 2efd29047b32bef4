/-! Blanks: the white space of every script, and the removal of blanks from the ends of a text. -/

namespace Bytelift.Text

def isBlank (c : Char) : Bool :=
  let n := c.toNat
  (9 ≤ n && n ≤ 13) || (28 ≤ n && n ≤ 32) || n == 0x85 || n == 0xa0 || n == 0x1680 ||
    (0x2000 ≤ n && n ≤ 0x200a) || n == 0x2028 || n == 0x2029 || n == 0x202f || n == 0x205f ||
    n == 0x3000

def trimEnd (p : Char → Bool) (s : List Char) : List Char :=
  (s.reverse.dropWhile p).reverse

def trimBoth (p : Char → Bool) (s : List Char) : List Char :=
  trimEnd p (s.dropWhile p)

def strip (s : String) : String := String.ofList (trimBoth isBlank s.toList)

/-- A text without the quotes at its ends, however many there are. -/
def stripQuotes (s : String) : String := String.ofList (trimBoth (· == '"') s.toList)

end Bytelift.Text
