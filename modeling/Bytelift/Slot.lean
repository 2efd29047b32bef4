import Bytelift.Assignment
import Bytelift.Function

/-! Slots of contexts. A slot that is assigned once in the whole program, and to a plain word, holds that
word wherever it is read, so the word is put in for it. Each round of replacements takes opening brackets
out of the lines and brings none in, so the brackets bound the rounds. -/

namespace Bytelift

open Text Substitution

/-- A slot by its context and its index, as they are written. -/
structure Slot where
  context : String
  index : String
  deriving DecidableEq, Repr

namespace Slot

def write (slot : Slot) : String := "Scope[" ++ slot.context ++ "][" ++ slot.index ++ "]"

def read? (s : List Char) : Option (Slot × List Char) :=
  (after? "Scope".toList s).bind fun rest =>
    (bracketed? rest).bind fun (context, rest) =>
      (bracketed? rest).map fun (index, rest) =>
        (⟨String.ofList context, String.ofList index⟩, rest)

def reference : Recogniser Slot := fun _ s =>
  match read? s with
  | some (_, '[' :: _) => none
  | found => found

/-- The slot that a line assigns, and the value without blanks that it takes. -/
def assigned? (line : String) : Option (Slot × String) :=
  (read? (strip line).toList).bind fun (slot, rest) =>
    (after? " = ".toList rest).bind fun value =>
      if value.isEmpty || value.any isBlank then none else some (slot, String.ofList value)

def isVoid (value : String) : Bool := value == "null" || value == "undefined"

def isWord (s : List Char) : Bool :=
  !s.isEmpty && s.all fun c => isWordChar c || c == '#' || c == '$'

def isQuotedWord (s : List Char) : Bool :=
  match s with
  | '"' :: rest => rest.getLast? == some '"' && isWord rest.dropLast
  | _ => false

def isPlace (s : List Char) : Bool :=
  s == "ACCU".toList || (register? s).any fun (_, rest) => rest.isEmpty

/-- Whether a value may be put in for the slot that it is assigned to. -/
def isPlain (value : String) : Bool :=
  (isWord value.toList || isQuotedWord value.toList) && !isPlace value.toList

/-- The values of the slots. A slot that is assigned again, or to what may not be put in, has none. -/
abbrev Values := Table Slot (Option String)

def record (values : Values) (line : CodeLine) : Values :=
  match assigned? line.text with
  | none => values
  | some (slot, value) =>
    if isVoid value then values
    else values.put slot (if values.contains slot || !isPlain value then none else some value)

def hideVoid (line : CodeLine) : CodeLine :=
  if (assigned? line.text).any fun (_, value) => isVoid value then { line with visible := false }
  else line

def valuesOf (functions : Functions) : Values :=
  (functions.values.flatMap Function.lines).foldl record {}

def putIn (values : Values) (s : List Char) : List Char :=
  substitute reference (fun slot => (((values.get? slot).join).getD slot.write).toList) s

/-- The text with values put in for slots, but not for those on the left of an assignment. -/
def propagate (values : Values) (text : String) : String :=
  match Assignment.cut? text.toList with
  | some (left, right) => String.ofList (left ++ '=' :: putIn values right)
  | none => String.ofList (putIn values text.toList)

def propagateLine (values : Values) (line : CodeLine) : CodeLine :=
  { hideVoid line with text := propagate values line.text }

def propagateFunction (values : Values) (f : Function) : Function :=
  { f with code := f.code.map (·.map (propagateLine values)) }

structure Round where
  values : Values
  changes : List (String × String)

def changesIn (values : Values) (functions : Functions) : List (String × String) :=
  (functions.values.flatMap Function.lines).filterMap fun line =>
    let text := propagate values line.text
    if text = line.text then none else some (line.text, text)

def round (functions : Functions) : Round × Functions :=
  let values := valuesOf functions
  (⟨values, changesIn values functions⟩, functions.mapValues (propagateFunction values))

def rounds : Nat → Functions → List Round × Functions
  | 0, functions => ([], functions)
  | bound + 1, functions =>
    let (first, functions) := round functions
    if first.changes.isEmpty then ([first], functions)
    else
      let (rest, functions) := rounds bound functions
      (first :: rest, functions)

def bracketCount (functions : Functions) : Nat :=
  ((functions.values.flatMap Function.lines).flatMap fun line => line.text.toList).count '['

def allRounds (functions : Functions) : List Round × Functions :=
  rounds (bracketCount functions + 1) functions

def changeCount (rounds : List Round) : Nat := (rounds.flatMap (·.changes)).length

/-- What a round reports: nothing, its changes, or the values as well. -/
def Round.report (verbosity : Int) (r : Round) : List String :=
  (if verbosity > 1 then
    r.values.entries.filterMap fun (slot, value) => value.map fun v => slot.write ++ " = " ++ v
  else []) ++
  (if verbosity > 0 then
    r.changes.map fun (before, after) => s!"[G] Replaced:\n\t{before}\n\t{after}"
  else []) ++
  (if verbosity ≠ 0 && !r.changes.isEmpty then [s!"[G] Replaced count: {r.changes.length}"] else [])

end Slot

/-- Puts values in for slots until nothing changes, and says how often a line changed. -/
def settleSlots {σ : Type} [HasConsole σ] (verbosity : Int) (functions : Functions) :
    Run σ (Nat × Functions) := do
  let (rounds, functions) := Slot.allRounds functions
  sayAll (rounds.flatMap (Slot.Round.report verbosity))
  return (Slot.changeCount rounds, functions)

/-- Puts values in for slots, and says whether any line changed. -/
def propagateSlots {σ : Type} [HasConsole σ] (verbosity : Int) (functions : Functions) :
    Run σ (Bool × Functions) := do
  let (count, functions) ← settleSlots verbosity functions
  if count ≠ 0 && verbosity ≠ 0 then say "Replace global scope done."
  return (count != 0, functions)

end Bytelift
