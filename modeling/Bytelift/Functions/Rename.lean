import Bytelift.Slot

/-! Renaming functions: their keys, their declarers, and the mentions in the pseudocode. -/

namespace Bytelift.Functions

open Text

abbrev Names := Table String String

def Names.of (names : Names) (name : String) : String := (names.get? name).getD name

/-- The functions under their new keys. Where two come under one key, the later holds it. -/
def underNames (functions : Functions) (names : Names) : Functions :=
  Table.ofList (functions.entries.map fun (key, f) =>
    let f := { f with declarer := f.declarer.map names.of }
    match names.get? key with
    | some new => (new, { f with name := new })
    | none => (key, f))

def renameText (names : Names) (text : String) : String :=
  String.ofList (substitute FunctionName.fullName (fun (full, _) => (names.of full).toList)
    text.toList)

def renameLine (names : Names) (line : CodeLine) : CodeLine :=
  if line.shows then { line with text := renameText names line.text } else line

def renamedTexts (names : Names) (functions : Functions) : List (String × String) :=
  (functions.values.flatMap Function.lines).filterMap fun line =>
    let text := (renameLine names line).text
    if text = line.text then none else some (line.text, text)

/-- Renames functions everywhere, and says how many got a new key. -/
def rename {σ : Type} [HasConsole σ] (functions : Functions) (names : Names) (verbosity : Int) :
    Run σ (Nat × Functions) := do
  let count := (functions.keys.filter names.contains).length
  let functions := underNames functions names
  if verbosity ≠ 0 then
    say s!"Renamed functions: {count}"
    sayAll ((renamedTexts names functions).map fun (before, after) =>
      "REPL: " ++ strip before ++ " -> " ++ strip after)
  return (count, functions.mapValues fun f =>
    { f with code := f.code.map (·.map (renameLine names)) })

end Bytelift.Functions
