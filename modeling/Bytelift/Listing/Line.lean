import Bytelift.CodeLine
import Bytelift.Instruction.Operand
import Bytelift.Substitution.Token
import Bytelift.Text.Format

/-! The lines of a listing, one by one. How a text is fitted to a format is left to a matcher. -/

namespace Bytelift.Listing

open Text Instruction

def number (text : List Char) : Except Fault Int := Instruction.number (String.ofList text)

/-! ## Counts, addresses and handlers -/

section Gaps

variable (fit : Matcher)

def firstGap (format : Format) (line : String) : Except Fault String :=
  match fit format line with
  | some (gap :: _) => .ok gap
  | _ => .error (.malformedCount line)

def countAfter (opening line : String) : Except Fault Int := do
  Instruction.number (← firstGap fit ⟨opening, [""]⟩ line)

def parameterCount (line : String) : Except Fault Int := countAfter fit "Parameter count " line

def registerCount (line : String) : Except Fault Int := countAfter fit "Register count " line

def length (line : String) : Except Fault Int := countAfter fit "- length:" line

def address (line : String) : Except Fault String := firstGap fit ⟨"", [": [", "] in ", ""]⟩ line

def handler (line : String) : Except Fault (Int × Int × Int) := do
  match fit ⟨"(", [",", ")  -> ", " (", ""]⟩ line with
  | some [first, last, target, _] =>
    let target ← Instruction.number target
    return (target, ← Instruction.number first, ← Instruction.number last)
  | _ => throw (.malformedHandler line)

end Gaps

/-! ## Instructions -/

/-- The rest of a line, which may have a line feed at its end and none elsewhere. -/
def restOfLine? (s : List Char) : Option (List Char) :=
  let text := s.takeWhile (· != '\n')
  if text.isEmpty || (s.dropWhile (· != '\n')).length > 1 then none else some text

/-- The text of an instruction without the spaces before it; if it is all spaces, the last of them. -/
def instructionText? (s : List Char) : Option (List Char) :=
  let text := s.dropWhile (· == ' ')
  restOfLine? text <|> (if s.length > text.length then restOfLine? (' ' :: text) else none)

/-- As many bytes in hexadecimal as leave some text after them, and this text. -/
def opcodeAndText? : List Char → Option (List Char × List Char)
  | a :: b :: ' ' :: rest =>
    if isHexDigit a && isHexDigit b then
      match opcodeAndText? rest with
      | some (opcode, text) => some (a :: b :: ' ' :: opcode, text)
      | none => (instructionText? rest).map fun text => ([a, b, ' '], text)
    else none
  | _ => none

def instructionParts? (s : List Char) : Option (List Char × List Char × List Char) :=
  match s.takeWhile (· != '@'), s.dropWhile (· != '@') with
  | _ :: _, _ :: ' ' :: rest =>
    (Substitution.digits? (rest.dropWhile (· == ' '))).bind fun (offset, rest) =>
      (after? " : ".toList rest).bind fun rest =>
        (opcodeAndText? rest).map fun (opcode, text) => (offset, opcode, text)
  | _, _ => none

def instruction (line : String) : Except Fault CodeLine := do
  match instructionParts? line.toList with
  | none => throw (.malformedBytecode line)
  | some (offset, opcode, text) =>
    let offset ← number offset
    return { offset := .number offset, opcode := String.ofList opcode,
             instruction := String.ofList text }

/-! ## Constants -/

/-- A constant: a value, or something that the lines after it spell out. -/
inductive Constant where
  | value (text : String)
  | function (label : String)
  | array
  | object
  deriving DecidableEq, Repr

def Constant.ofDescription (s : String) : Constant :=
  if opensWith s "<String" then
    let raw := pastFirst s "#"
    .value (quoteConstant (if closesWith raw ">" then dropLast raw else raw))
  else if opensWith s "<SharedFunctionInfo" then
    .function (if has s " " then
      String.ofList (trimEnd (fun c => c == '>' || c == ' ') (pastFirst s " ").toList) else "")
  else if opensWith s "<ArrayBoilerplateDescription" || opensWith s "<FixedArray" then .array
  else if opensWith s "<ObjectBoilerplateDescription" then .object
  else if opensWith s "<Odd Oddball" then .value "null"
  else .value (pastFirst (String.ofList (trimEnd (· == '>') s.toList)) " ")

/-- The last index of a run of equal entries, and what follows it. -/
def lastIndex? (s : List Char) : Option (List Char × List Char) :=
  (Substitution.digits? s).bind fun (first, rest) =>
    match rest with
    | '-' :: more => Substitution.digits? more
    | _ => some (first, rest)

def text? (s : List Char) : Option (List Char) :=
  match s.takeWhile (· != '\n') with
  | [] => none
  | text => some text

/-- The description after an address, if there is one. -/
def description? (s : List Char) : Option (List Char) :=
  (after? "0x".toList s).bind fun rest =>
    match rest.takeWhile isHexDigit, rest.dropWhile isHexDigit with
    | _ :: _, c :: rest => if isBlank c then text? rest else none
    | _, _ => none

def constantParts? (s : List Char) : Option (List Char × Constant) :=
  (lastIndex? s).bind fun (index, rest) =>
    match rest with
    | ':' :: c :: rest =>
      if isBlank c then
        match description? rest with
        | some text => some (index, .ofDescription (String.ofList text))
        | none => (text? rest).map fun text => (index, .value (String.ofList text))
      else none
    | _ => none

/-- The index after the entry, and the constant. -/
def constant (line : String) : Except Fault (Int × Constant) := do
  match constantParts? line.toList with
  | none => throw (.malformedConstant line)
  | some (index, constant) => return ((← number index) + 1, constant)

end Bytelift.Listing
