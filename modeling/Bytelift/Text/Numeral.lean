import Bytelift.Text.Blank
import Bytelift.Text.Digit

/-! Reading whole numbers: blanks around, one sign, decimal digits of any script, and single
underscores between digits. A numeral of more digits than `digitLimit` is refused. -/

namespace Bytelift.Text

/-- Blanks that may surround a numeral. The separators U+001C to U+001F are no such blanks. -/
def isNumeralBlank (c : Char) : Bool :=
  isBlank c && !(28 ≤ c.toNat && c.toNat ≤ 31)

def digitLimit : Nat := 4300

def readDigits (value : Nat) : List Char → Option Nat
  | [] => some value
  | '_' :: c :: cs => (digitValue? c).bind fun d => readDigits (value * 10 + d) cs
  | c :: cs => (digitValue? c).bind fun d => readDigits (value * 10 + d) cs

def readNat? (s : List Char) : Option Nat :=
  if (s.filter (· != '_')).length > digitLimit then none
  else match s with
    | [] => none
    | c :: cs => (digitValue? c).bind fun d => readDigits d cs

def readSigned? : List Char → Option Int
  | '+' :: s => (readNat? s).map Int.ofNat
  | '-' :: s => (readNat? s).map fun n => -Int.ofNat n
  | s => (readNat? s).map Int.ofNat

def readInt? (s : String) : Option Int := readSigned? (trimBoth isNumeralBlank s.toList)

end Bytelift.Text
