import Bytelift.CodeLine
import Bytelift.Console
import Bytelift.Jump
import Bytelift.Text.Scan

/-! Code under structuring. The braces and keywords of the statements are written into the rendered texts
of the lines, found by their offsets. Two tables may share a jump, so jumps are numbered and the tables
hold the numbers; a jump that has been dealt with is done, and leaves the table of its kind. -/

namespace Bytelift

structure Flow where
  name : String
  code : List CodeLine
  /-- The offsets of the code, each once, in the order of their first lines. -/
  offsets : List Offset
  jumps : List Jump
  tables : JumpTables Nat
  console : Console := {}

abbrev FlowM := Run Flow

instance : HasConsole Flow := ⟨Flow.console, fun s c => { s with console := c }⟩

namespace JumpTables

/-- Numbers what is filed, table after table, from a first number on. -/
def numberFrom {α : Type} (first : Nat) (t : JumpTables α) : JumpTables Nat :=
  (t.toList.foldl (fun (acc : Nat × JumpTables Nat) (kind, table) =>
    (acc.1 + table.size, acc.2.set kind ⟨(table.keys.zipIdx acc.1)⟩)) (first, {})).2

end JumpTables

namespace Flow

def ofTables (name : String) (code : List CodeLine) (tables : JumpTables Jump)
    (console : Console) : Flow where
  name := name
  code := code
  offsets := (code.map (·.offset)).eraseDups
  jumps := tables.all
  tables := tables.numberFrom 0
  console := console

/-- Adds a jump that no table holds, and gives its number. -/
def addJump (flow : Flow) (jump : Jump) : Nat × Flow :=
  (flow.jumps.length, { flow with jumps := flow.jumps ++ [jump] })

def jump (flow : Flow) (i : Nat) : Jump := (flow.jumps[i]?).getD default

/-- The offset a number of lines further on, or back for a negative number. -/
def neighbour (flow : Flow) (offset : Offset) (distance : Int) : Except Fault Offset :=
  match flow.offsets.findIdx? (· = offset) with
  | none => .error (.unknownOffset offset)
  | some i =>
    let k : Int := i + distance
    if 0 ≤ k then
      match flow.offsets[k.toNat]? with
      | some neighbour => .ok neighbour
      | none => .error (.outOfReach k offset)
    else .error (.outOfReach k offset)

/-- The line at an offset: the last one, if there are several. -/
def lineAt? (flow : Flow) (offset : Offset) : Option CodeLine :=
  (flow.code.filter (·.offset = offset)).getLast?

/-- Changes the rendered text of the last line at an offset. -/
def reviseLast (offset : Offset) (f : String → String) : List CodeLine → Option (List CodeLine)
  | [] => none
  | line :: lines =>
    match reviseLast offset f lines with
    | some changed => some (line :: changed)
    | none =>
      if line.offset = offset then
        some ({ line with rendered := f line.rendered } :: lines)
      else none

end Flow

namespace FlowM

def jump (i : Nat) : FlowM Jump := return (← get).jump i

def neighbour (offset : Offset) (distance : Int) : FlowM Offset := do
  Run.ofExcept ((← get).neighbour offset distance)

def settled {α : Type} : Option α → FlowM α := Run.need .noOrder

def textAt (offset : Offset) : FlowM String := do
  match (← get).lineAt? offset with
  | some line => return line.rendered
  | none => throw (.noLineAt offset)

def revise (offset : Offset) (f : String → String) : FlowM Unit := do
  match Flow.reviseLast offset f (← get).code with
  | some code => modify fun s => { s with code }
  | none => throw (.noLineAt offset)

def append (offset : Offset) (text : String) : FlowM Unit := revise offset (· ++ text)

def prepend (offset : Offset) (text : String) : FlowM Unit := revise offset (text ++ ·)

def setStop (i : Nat) (stop : Offset) : FlowM Unit :=
  modify fun s => { s with jumps := s.jumps.modify i fun j => { j with stop } }

/-- Marks a jump as done and takes whatever starts where it does out of the table of its kind. -/
def retire (i : Nat) : FlowM Unit := do
  let j ← jump i
  modify fun s => { s with jumps := s.jumps.modify i fun j => { j with done := true } }
  match (← get).tables.get? j.kind with
  | some table => modify fun s => { s with tables := s.tables.set j.kind (table.erase j.start) }
  | none => throw (.unfiledKind j.kind.label)

def testAt? (offset : Offset) : FlowM (Option Nat) := return (← get).tables.tests.get? offset

def skipAt? (offset : Offset) : FlowM (Option Nat) := return (← get).tables.skips.get? offset

def openTests : FlowM (List Nat) := return (← get).tables.tests.values

def openSkips : FlowM (List Nat) := return (← get).tables.skips.values

end FlowM

end Bytelift
