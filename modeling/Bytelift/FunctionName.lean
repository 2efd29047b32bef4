import Bytelift.Text.Blank
import Bytelift.Text.Digit
import Bytelift.Text.Scan
import Bytelift.Text.Word

/-! Names of functions in a text. A name is `func_`, a label, and the address the function was read from.
Names stand between word boundaries; a dollar sign belongs to a label but is no word character, so a name
may end before one. -/

namespace Bytelift.FunctionName

open Text

def isLabelChar (c : Char) : Bool :=
  ('a' ≤ c && c ≤ 'z') || ('A' ≤ c && c ≤ 'Z') || ('0' ≤ c && c ≤ '9') || c == '_' || c == '$'

def lead : List Char := "func_".toList

/-- What follows the lead of a name, if a name may start here. -/
def afterLead? (before : Option Char) (s : List Char) : Option (List Char) :=
  if isBoundary before s.head? then after? lead s else none

def address? (s : List Char) : Option (List Char × List Char) :=
  (after? "_0x".toList s).bind fun rest =>
    let hex := rest.takeWhile isHexDigit
    let rest := rest.dropWhile isHexDigit
    if hex.isEmpty || rest.head?.any isWordChar then none
    else some ("_0x".toList ++ hex, rest)

/-- The longest label that an address follows, the address, and what is left. -/
def labelAndAddress? : List Char → Option (List Char × List Char × List Char)
  | [] => none
  | c :: cs =>
    if isLabelChar c then
      match labelAndAddress? cs with
      | some (label, address, rest) => some (c :: label, address, rest)
      | none => (address? cs).map fun (address, rest) => ([c], address, rest)
    else none

/-- A full name: the whole of it, and its label. -/
def fullName : Recogniser (String × String) := fun before s =>
  (afterLead? before s).bind fun rest =>
    (labelAndAddress? rest).map fun (label, address, rest) =>
      ((String.ofList (lead ++ label ++ address), String.ofList label), rest)

def labelToBoundary? : List Char → Option (List Char × List Char)
  | [] => none
  | c :: cs =>
    if isLabelChar c then
      match labelToBoundary? cs with
      | some (label, rest) => some (c :: label, rest)
      | none => if isBoundary (some c) cs.head? then some ([c], cs) else none
    else none

def mention : Recogniser String := fun before s =>
  (afterLead? before s).bind fun rest =>
    (labelToBoundary? rest).map fun (label, rest) => (String.ofList (lead ++ label), rest)

/-- A name that is called: an opening bracket follows, with or without blanks. -/
def called : Recogniser String := fun before s =>
  (afterLead? before s).bind fun rest =>
    let label := rest.takeWhile isLabelChar
    match label.isEmpty, (rest.dropWhile isLabelChar).dropWhile isBlank with
    | false, '(' :: rest => some (String.ofList (lead ++ label), rest)
    | _, _ => none

end Bytelift.FunctionName
