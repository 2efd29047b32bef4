import Bytelift.Flow.Test
import Bytelift.Instruction.Record

/-! Laying out a function. The jumps are dealt with from the first to the last, an outer one before those
inside it that start with it; then the texts are split into lines of their own. -/

namespace Bytelift

open Text

namespace FlowM

/-- A jump goes to the line before its target, so that a block ends with its last line. A jump to itself is
done already. Loops and arms stay as they are. -/
def drawBack : List Nat → FlowM Unit
  | [] => return
  | i :: rest => do
    let j ← jump i
    if j.start = j.stop then retire i
    else if j.kind ≠ .loop && j.kind ≠ .arm then setStop i (← neighbour j.stop (-1))
    drawBack rest

/-- What a jump is sorted by. A text counts for the number it spells. -/
def sortKey (j : Jump) : Except Fault (Int × Int) := do
  let start ← need j.start
  let stop ← need j.stop
  return (start, stop)
where
  need : Offset → Except Fault Int
    | .number n =>
      match Binary64.nearestWhole? n with
      | some key => .ok key
      | none => .error (.oversizedOffset n)
    | .text s =>
      match (readInt? s).bind Binary64.nearestWhole? with
      | some key => .ok key
      | none => .error (.unsortable (.text s))

def sortKeys (flow : Flow) : List Nat → Except Fault (List ((Int × Int) × Nat))
  | [] => .ok []
  | i :: rest => do
    let key ← sortKey (flow.jump i)
    return (key, i) :: (← sortKeys flow rest)

/-- All jumps, drawn back, in the order of their starts and then of their stops. -/
def gather : FlowM (List Nat) := do
  let all := (← get).tables.all
  drawBack all
  let keyed ← Run.ofExcept (sortKeys (← get) all)
  return (keyed.mergeSort fun a b =>
    a.1.1 < b.1.1 || (a.1.1 = b.1.1 && a.1.2 ≤ b.1.2)).map (·.2)

/-- Retires whatever starts at an offset, in each table in turn. -/
def retireAt (offset : Offset) : List JumpKind → FlowM Unit
  | [] => return
  | kind :: kinds => do
    match ((← get).tables.get? kind).bind (·.get? offset) with
    | some i => retire i
    | none => pure ()
    retireAt offset kinds

/-- Clears the lines from one offset to another, and retires the jumps that start after the first. Each
step goes one line on, so the number of offsets bounds the steps. -/
def clearLines : Nat → Offset → Offset → FlowM Unit
  | 0, _, _ => throw .endless
  | bound + 1, offset, stop => do
    revise offset fun _ => ""
    if offset ≠ stop then
      let next ← neighbour offset 1
      retireAt next JumpKind.filed
      clearLines bound next stop

def clearReceivers : List Nat → FlowM Unit
  | [] => return
  | i :: rest => do
    let j ← jump i
    clearLines ((← get).offsets.length + 1) j.start j.stop
    retire i
    clearReceivers rest

/-- Takes out the code that closes an iterator: it has no counterpart in the source. -/
def dropReceivers : FlowM Unit := do clearReceivers (← get).tables.receivers.values

def displayJump (j : Jump) : String :=
  let arm := match j.arm with
    | none => ""
    | some arm => ", 'case_line': " ++ quoteDisplay arm.labels ++ s!", 'last_case_start': {arm.lastStart.display}"
  "\x7b'type': " ++ quoteDisplay j.kind.label ++ s!", 'start': {j.start.display}, 'end': {j.stop.display}, 'done': " ++
    (if j.done then "True" else "False") ++ arm ++ "\x7d"

def handleJump (i : Nat) : FlowM Unit := do
  let j ← jump i
  if j.done then return
  match j.kind with
  | .loop => let _ ← wrapLoop i
  | .guarded => let _ ← wrapGuarded i
  | .arm => let _ ← handleArm i
  | .test => handleTest i
  | .skip => let _ ← isIdle i
  | _ =>
    let name := (← get).name
    say s!"unsupported logic for jump type {displayJump j} if function {name}"

def handleJumps : List Nat → FlowM Unit
  | [] => return
  | i :: rest => do
    handleJump i
    handleJumps rest

end FlowM

/-- The line with the first line of its text, and an added line for each further one that is not empty. -/
def CodeLine.unfold (line : CodeLine) : List CodeLine :=
  match split line.rendered "\n" with
  | [] => [line]
  | first :: more =>
    { line with rendered := first } :: (more.filter (· ≠ "")).map CodeLine.added

/-- The code in one pair of braces, each line holding one line of text. -/
def unfoldCode (code : List CodeLine) : List CodeLine :=
  CodeLine.added "\x7b" :: (code.flatMap CodeLine.unfold ++ [CodeLine.added "\x7d"])

namespace FlowM

def unfoldLines : FlowM Unit := modify fun s => { s with code := unfoldCode s.code }

def layOut : FlowM Unit := do
  let jumps ← gather
  dropReceivers
  handleJumps jumps
  unfoldLines

end FlowM

open Instruction in
def liftCode (name : String) (code : List CodeLine) (handlers : Handlers) :
    Run Console (List CodeLine) := fun console =>
  match renderLines code { tables := guardTables handlers, console } with
  | .error fault recorder => .error fault recorder.console
  | .ok rendered recorder =>
    match FlowM.layOut (Flow.ofTables name rendered recorder.tables recorder.console) with
    | .error fault flow => .error fault flow.console
    | .ok _ flow => .ok flow.code flow.console

end Bytelift
