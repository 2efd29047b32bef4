import Bytelift.CodeLine
import Bytelift.Context
import Bytelift.Position
import Bytelift.Substitution.Token

/-! Registers and scopes. Scopes of nested blocks share registers, so registers are numbered and a scope
binds names to the numbers. -/

namespace Bytelift.Substitution

structure Register where
  value : String
  overwritten : Bool := false
  /-- The lines that wrote the register, the first one first. -/
  writtenAt : List Int
  deriving DecidableEq, Repr, Inhabited

inductive Binding where
  | context (number : Int)
  | register (number : Nat)
  deriving DecidableEq, Repr

abbrev Scope := Table String Binding

def contextName : String := "current_context"

structure Sheet where
  code : List CodeLine
  pool : Option (List String) := some []
  index : Int := 0
  indent : Int := 0
  registers : List Register := []
  contexts : Contexts := {}
  console : Console := {}

abbrev SheetM := Run Sheet

instance : HasConsole Sheet := ⟨Sheet.console, fun s c => { s with console := c }⟩

instance : HasContexts Sheet := ⟨Sheet.contexts, fun s c => { s with contexts := c }⟩

namespace Scope

def setContext (scope : Scope) (number : Int) : Scope := scope.put contextName (.context number)

end Scope

namespace Sheet

def register (sheet : Sheet) (i : Nat) : Register := (sheet.registers[i]?).getD default

def addRegister (sheet : Sheet) (r : Register) : Nat × Sheet :=
  (sheet.registers.length, { sheet with registers := sheet.registers ++ [r] })

end Sheet

namespace SheetM

def register (i : Nat) : SheetM Register := return (← get).register i

def changeRegister (i : Nat) (f : Register → Register) : SheetM Unit :=
  modify fun s => { s with registers := s.registers.modify i f }

def addRegister (r : Register) : SheetM Nat := fun sheet =>
  let (i, sheet) := sheet.addRegister r
  .ok i sheet

def lineAt (position : Int) : SheetM CodeLine := do
  Run.need (.noSuchLine position) (at? (← get).code position)

def changeLine (position : Int) (f : CodeLine → CodeLine) : SheetM Unit := do
  let code ← Run.need (.noSuchLine position) (changeAt? (← get).code position f)
  modify fun s => { s with code }

def setVisible (position : Int) (visible : Bool) : SheetM Unit :=
  changeLine position fun line => { line with visible }

def currentContext (scope : Scope) : SheetM Int :=
  match scope.get? contextName with
  | some (.context number) => return number
  | some (.register _) => throw (.notARegister contextName)
  | none => throw .noContext

def registerOf (name : String) (binding : Binding) : SheetM Nat :=
  match binding with
  | .register i => return i
  | .context _ => throw (.notARegister name)

def number (text : String) : SheetM Int := Run.need (.unreadableNumber text) (Text.readInt? text)

def contextOf? (value : String) : SheetM (Option Int) :=
  match contextNumber? value with
  | none => return none
  | some ds => return some (← number ds)

/-- The registers of a loop's scope. The loop may write any of them again, so none has a value; a register
that holds a context keeps it. -/
def loopBindings : List (String × Binding) → SheetM (List (String × Binding))
  | [] => return []
  | (_, .context _) :: rest => loopBindings rest
  | (name, .register i) :: rest => do
    let r ← register i
    let binding ← match ← contextOf? r.value with
      | some _ => pure (.register i)
      | none => do
        let first ← Run.need .neverWritten r.writtenAt.head?
        pure (.register (← addRegister { value := "", overwritten := true, writtenAt := [first] }))
    return (name, binding) :: (← loopBindings rest)

def loopScope (outer : Scope) : SheetM Scope := do
  let scope : Scope := ⟨← loopBindings outer.entries⟩
  return scope.setContext (← currentContext outer)

/-- Carries the writes of a loop's scope over to the registers outside it. -/
def closeLoop (outer : Scope) : List (String × Binding) → SheetM Unit
  | [] => return
  | (_, .context _) :: rest => closeLoop outer rest
  | (name, .register i) :: rest => do
    let r ← register i
    if r.overwritten && r.writtenAt.length > 1 then
      match outer.get? name with
      | none => pure ()
      | some binding =>
        let o ← registerOf name binding
        if !(← register o).overwritten then
          let later := r.writtenAt.drop 1
          changeRegister o fun q =>
            { q with overwritten := true, writtenAt := q.writtenAt ++ later }
    closeLoop outer rest

end SheetM

end Bytelift.Substitution
