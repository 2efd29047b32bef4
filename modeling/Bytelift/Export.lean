import Bytelift.Archive
import Bytelift.Files

/-! Writing functions to files, as a text of chosen columns, as an archive, or both. -/

namespace Bytelift

open Text

inductive OutputForm where
  | instructions
  | rendered
  | pseudocode
  | archive
  | other (label : String)
  deriving DecidableEq, Repr

namespace OutputForm

def label : OutputForm → String
  | .instructions => "v8_opcode"
  | .rendered => "translated"
  | .pseudocode => "decompiled"
  | .archive => "serialized"
  | .other label => label

def named : List OutputForm := [.instructions, .rendered, .pseudocode, .archive]

def ofLabel (label : String) : OutputForm :=
  (named.find? fun form => form.label = label).getD (.other label)

def columns (forms : List OutputForm) : Function.Columns :=
  { instruction := forms.contains .instructions, rendered := forms.contains .rendered,
    text := forms.contains .pseudocode }

end OutputForm

namespace Export

def extension? (path : String) : Option String :=
  (cutAtLast? path '.').map fun (_, ext) => "." ++ ext

def withExtension (path ext : String) : String :=
  let ext := if opensWith ext "." then ext else "." ++ ext
  match cutAtLast? path '.' with
  | some (base, _) => base ++ ext
  | none => path ++ ext

def archiveExtension : String := ".pkl"

def textExtension : String := ".txt"

def archivePath (path : String) : String := withExtension path archiveExtension

/-- A text is never written under the extension of an archive. -/
def textPath (path : String) : String :=
  if extension? path = some archiveExtension then withExtension path textExtension else path

/-- Which functions are written. A list that is missing or empty leaves out none. -/
structure Selection where
  included : Option (List String) := none
  excluded : Option (List String) := none

def Selection.admits (selection : Selection) (key : String) (f : Function) : Bool :=
  f.visible &&
    selection.excluded.all (fun names => names.isEmpty || !names.contains key) &&
    selection.included.all (fun names => names.isEmpty || names.contains key)

/-- Appends the functions to a file one by one; those before a fault are written. -/
def appendAll (place : Place) (columns : Function.Columns) (text : String) :
    List Function → WorkM Unit
  | [] => return
  | f :: rest => do
    let written ← Run.ofExcept (f.write columns)
    modify fun s => { s with files := s.files.put place (.text (text ++ written)) }
    appendAll place columns (text ++ written) rest

/-- Writes the text of the functions, the one that was read last first. -/
def writeText (path : String) (functions : Functions) (forms : List OutputForm)
    (selection : Selection) : WorkM Unit := do
  let place ← Run.ofExcept ((← get).files.writable path)
  modify fun s => { s with files := s.files.put place (.text "") }
  say s!"Exporting to file {path}"
  appendAll place (OutputForm.columns forms) ""
    ((functions.entries.reverse.filter fun (key, f) => selection.admits key f).map (·.2))

def writeArchive (path : String) (functions : Functions) : WorkM Unit := do
  say s!"Serializing to file: {path}"
  let files ← Run.ofExcept ((← get).files.write path (Archive.encode functions))
  modify fun s => { s with files }

/-- Writes the functions in all forms asked for. An archive holds all functions; it is the only file if it
is the only form. -/
def run (path : String) (functions : Functions) (forms : List OutputForm) (selection : Selection) :
    WorkM Unit := do
  if forms.contains .archive then
    writeArchive (archivePath path) functions
    if forms.length = 1 then return
  writeText (textPath path) functions forms selection

end Export

end Bytelift
