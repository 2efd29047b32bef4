import Bytelift.Text.Numeral
import Bytelift.Text.Scan
import Bytelift.Text.Word

/-! The tokens of the pseudocode: places that hold values (the accumulator, registers, arguments, cases)
and references to scopes. -/

namespace Bytelift.Substitution

open Text

def digits? (s : List Char) : Option (List Char × List Char) :=
  match s.takeWhile isDecimal with
  | [] => none
  | ds => some (ds, s.dropWhile isDecimal)

def numbered? (lead : String) (s : List Char) : Option (List Char × List Char) :=
  (after? lead.toList s).bind fun rest =>
    (digits? rest).map fun (ds, rest) => (lead.toList ++ ds, rest)

def register? (s : List Char) : Option (List Char × List Char) :=
  numbered? "r" s <|> numbered? "a" s

def place? (s : List Char) : Option (List Char × List Char) :=
  (after? "ACCU".toList s).map ("ACCU".toList, ·) <|> numbered? "CASE_" s <|> register? s

def place : Recogniser String := fun _ s =>
  (place? s).map fun (name, rest) => (String.ofList name, rest)

def assignment? (line : String) : Option (String × String) :=
  (place? line.toList).bind fun (name, rest) =>
    (after? " = ".toList rest).map fun value => (String.ofList name, String.ofList value)

def scopeReference : Recogniser String := fun _ s =>
  (after? "Scope[".toList s).bind fun rest =>
    match rest.takeWhile (· != ']'), rest.dropWhile (· != ']') with
    | [], _ => none
    | name, _ :: rest => some (String.ofList name, rest)
    | _, [] => none

def bracketed? (s : List Char) : Option (List Char × List Char) :=
  (after? ['['] s).bind fun rest =>
    (digits? rest).bind fun (ds, rest) => (after? [']'] rest).map (ds, ·)

/-- The context that a value names, if it is a context and nothing else. -/
def contextNumber? (value : String) : Option String :=
  (after? "Scope".toList value.toList).bind fun rest =>
    (bracketed? rest).bind fun (ds, rest) =>
      if rest = [] || rest = ['\n'] then some (String.ofList ds) else none

def poolReference : Recogniser String := fun _ s =>
  (after? "ConstPool".toList s).bind fun rest =>
    (bracketed? rest).map fun (ds, rest) => (String.ofList ds, rest)

/-- Whether the value holds a call: an opening bracket right after a word or an index. -/
def holdsCall : List Char → Bool
  | c :: '(' :: cs => isWordChar c || c == ']' || holdsCall ('(' :: cs)
  | _ :: cs => holdsCall cs
  | [] => false

def constantOpenings : List String :=
  ["Scope", "ConstPool", "<", "true", "false", "Undefined", "Null", "null"]

def opensWithNumber (s : List Char) : Bool :=
  match s with
  | '+' :: c :: _ => isDecimal c
  | '-' :: c :: _ => isDecimal c
  | c :: _ => isDecimal c
  | [] => false

def skipBrackets (s : List Char) : List Char := s.dropWhile (· == '(')

/-- Whether the value opens with a constant, behind any number of brackets. -/
def opensWithConstant (value : List Char) : Bool :=
  let s := skipBrackets value
  constantOpenings.any (fun lead => (after? lead.toList s).isSome) || opensWithNumber s

/-- Whether the value opens with a property of a register that the constant pool names. -/
def opensWithProperty (value : List Char) : Bool :=
  ((register? value).bind fun (_, rest) =>
    (after? ['['] rest).bind fun rest =>
      let s := skipBrackets rest
      ((after? "ConstPoolLiteral".toList s).bind bracketed?) <|>
        ((after? "ConstPool".toList s).bind bracketed?)).isSome

/-- Whether a value may stand for the place it is assigned to. The accumulator and the cases always take
theirs; a register takes it unless it is called for, and only if it looks constant. -/
def isConstant (name value : String) : Bool :=
  if opensWith name "ACCU" || opensWith name "CASE_" then true
  else if holdsCall value.toList then false
  else opensWithConstant value.toList || opensWithProperty value.toList

/-- Whether a register occurs in a value, not as the start of a longer number. -/
def occursIn (name : List Char) : List Char → Bool
  | [] => name.isEmpty
  | c :: cs =>
    (match after? name (c :: cs) with
      | some [] => true
      | some (d :: _) => !isDigitLike d
      | none => false) || occursIn name cs

end Bytelift.Substitution
