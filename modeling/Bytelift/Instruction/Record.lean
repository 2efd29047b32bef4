import Bytelift.CodeLine
import Bytelift.Console
import Bytelift.Instruction.CaseTable
import Bytelift.Instruction.Form

/-! Rendering the instructions of a function one after the other. Each becomes a statement; a jump or a
switch is also recorded in the jump tables. A jump back is a loop, whatever instruction makes it. -/

namespace Bytelift.Instruction

structure Recorder where
  tables : JumpTables Jump := {}
  console : Console := {}

instance : HasConsole Recorder := ⟨Recorder.console, fun s c => { s with console := c }⟩

/-- Files a jump under its start, which no other jump of the kind may have. -/
def fileJump (kind : JumpKind) (start stop : Offset) : Run Recorder Unit := do
  match (← get).tables.get? kind with
  | none => throw (.noTable kind.label)
  | some table =>
    if table.contains start then throw (.occupied kind.label start)
    else modify fun s => { s with tables := s.tables.put kind start { kind, start, stop } }

def recordJump (offset : Offset) (kind : JumpKind) (operands : List String) : Run Recorder Unit := do
  let target : Offset := .number (← Run.ofExcept (jumpTarget operands))
  if ← Run.need .noOrder (target.lt? offset) then fileJump .loop target offset
  else fileJump kind offset target

def fileArms (tables : JumpTables Jump) (arms : List Jump) : JumpTables Jump :=
  arms.foldl (fun tables arm => tables.put .arm arm.start arm) tables

def recordSwitch (offset : Offset) (operands : List String) : Run Recorder Unit := do
  let cases ← Run.ofExcept (caseTable operands)
  let arms ← Run.ofExcept (switchArms offset cases)
  modify fun s => { s with tables := fileArms s.tables arms }

/-- The statement of one instruction. An operator that no form is known for is shown as a comment, if the
answer to a prompt about it is not empty. -/
def render (offset : Offset) (operator : String) (operands : List String) :
    Run Recorder String :=
  match form? operator with
  | some (.statement parts) => Run.ofExcept (renderParts operands parts)
  | some (.jump kind text) => do
    recordJump offset kind operands
    return text
  | some .cases => do
    recordSwitch offset operands
    return ""
  | some .intrinsic => Run.ofExcept (intrinsicCall operands)
  | none => do
    let answer ← ask s!"Operator {operator} was not found in table"
    return if answer.isEmpty then "" else s!"//{operator})"

def renderLine (line : CodeLine) : Run Recorder CodeLine := do
  let (operator, operands) := parts line.instruction
  return { line with rendered := ← render line.offset operator operands }

def renderLines : List CodeLine → Run Recorder (List CodeLine)
  | [] => return []
  | line :: lines => do
    let line ← renderLine line
    return line :: (← renderLines lines)

/-- Guarded ranges, by the offset of their handler. -/
abbrev Handlers := Table Int (Int × Int)

/-- The tables before the first instruction: a jump from the start of each guarded range to its
handler. -/
def guardTables (handlers : Handlers) : JumpTables Jump :=
  handlers.entries.foldl (fun tables (handler, first, _) =>
    tables.put .guarded (.number first)
      { kind := .guarded, start := .number first, stop := .number handler }) {}

end Bytelift.Instruction
