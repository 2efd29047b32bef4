import Bytelift.Slot

/-! Functions as they are displayed on the console. -/

namespace Bytelift.Functions

open Text

structure Details where
  hidden : Bool := false
  numbers : Bool := true
  constants : Bool := false
  notes : Bool := false
  deriving DecidableEq, Repr

/-- A note as it is displayed on its own: a text without quotes. -/
def displayNote : Note → String
  | .text s => s
  | note => note.display

def displayPool : Option (List String) → String
  | none => "None"
  | some pool => "[" ++ ", ".intercalate (pool.map quoteDisplay) ++ "]"

def displayLine (details : Details) (number position : Nat) (line : CodeLine) : String :=
  if !details.numbers then line.text
  else
    let note := if details.notes && !line.note.isVoid then " # " ++ displayNote line.note else ""
    let place := if number = position then s!"{number}|" else s!"{number}|{position}|"
    place ++ line.text ++ note

/-- The lines of a function, numbered as they are displayed; a line that stands elsewhere in the code also
tells its position there. -/
def displayCode (details : Details) (f : Function) : List String :=
  let shown := f.lines.zipIdx.filter fun (line, _) =>
    !line.text.isEmpty && (details.hidden || line.visible)
  shown.zipIdx.map fun ((line, position), i) => displayLine details (i + 1) position line

def displayFunction (details : Details) (key : String) (f : Function) : List String :=
  ["###", "# " ++ key, "# Declarer: " ++ f.declarer.getD "None"] ++
    (if f.note.isVoid then [] else ["Metadata: " ++ displayNote f.note]) ++
    (if details.constants then ["# Const Pool", displayPool f.pool] else []) ++
    ["# Code"] ++ displayCode details f

def display {σ : Type} [HasConsole σ] (functions : Functions) (details : Details) : Run σ Unit :=
  sayAll (functions.entries.flatMap fun (key, f) => displayFunction details key f)

end Bytelift.Functions
