import Bytelift.Fault
import Bytelift.Text.Numeral
import Bytelift.Text.Scan

/-! The operands of an instruction and what the pseudocode makes of them. -/

namespace Bytelift.Instruction

open Text

/-- The operator and the operands of an instruction. The operator ends at the first blank, and what it
has after a dot is its width, which the pseudocode does not show. -/
def parts (instruction : String) : String × List String :=
  match cutAt? instruction " " with
  | some (operator, rest) => ((split operator ".").headD "", split rest ", ")
  | none => ((split instruction ".").headD "", [])

def operandAt (operands : List String) (i : Nat) : Except Fault String :=
  match operands[i]? with
  | some text => .ok text
  | none => .error .missingOperand

def number (text : String) : Except Fault Int :=
  match readInt? text with
  | some n => .ok n
  | none => .error (.unreadableNumber text)

def interval (first last : Int) : List Int :=
  (List.range (last + 1 - first).toNat).map fun (i : Nat) => first + i

/-- The registers of a range such as `r3-r5`. A range that names the receiver is the receiver alone. -/
def registerRange (range : String) : Except Fault (List String) :=
  match split range "-" with
  | first :: last :: _ => do
    let first := dropFirst first
    let last := dropFirst last
    if has first "this" || has last "this" then return ["<this>"]
    let low ← number first
    let high ← number last
    return (interval low high).map fun i => s!"r{i}"
  | _ => .error (.openRange range)

def commas (texts : List String) : String := ", ".intercalate texts

def typeText (code : String) : String :=
  match code with
  | "#0" => "number"
  | "#1" => "string"
  | "#2" => "symbol"
  | "#3" => "boolean"
  | "#4" => "bigint"
  | "#5" => "undefined"
  | "#6" => "function"
  | "#7" => "object"
  | _ => code

/-- The scope that a context slot is looked up in: a register or the current context, and the number of
steps out of it. -/
def scopeName (operands : List String) : Except Fault String := do
  let context ← operandAt operands 0
  let depth := inner (← operandAt operands 2)
  return (if has context "<context>" then "CURRENT" else context) ++ "-" ++ depth

/-- A call of one of the engine's own functions. Entering an async function says nothing; its result is
the last of the registers. -/
def intrinsicCall (operands : List String) : Except Fault String := do
  let name := inner (← operandAt operands 0)
  if has name "_AsyncFunctionEnter" then return ""
  let registers ← registerRange (← operandAt operands 1)
  if has name "_AsyncFunctionResolve" || has name "_AsyncFunctionReject" then
    return s!"ACCU = {commas (registers.drop 1)}"
  if has name "_AsyncFunctionAwait" then
    return s!"ACCU = await {commas (registers.drop 1)}"
  return s!"ACCU = {name}({commas registers})"

/-- Where a jump goes: the number before the closing bracket of its last operand. -/
def jumpTarget (operands : List String) : Except Fault Int :=
  match operands.getLast? with
  | some last => number (dropLast ((split last " ").getLastD ""))
  | none => .error .missingOperand

end Bytelift.Instruction
