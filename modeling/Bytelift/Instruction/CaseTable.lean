import Bytelift.Instruction.Operand
import Bytelift.Jump
import Bytelift.Literal.Template

/-! The case table of a switch: what each case goes to, written as a literal. A case that is listed twice
keeps its first place and label and its last target. -/

namespace Bytelift.Instruction

open Text

structure Case where
  label : String
  target : Offset
  deriving DecidableEq, Repr, Inhabited

abbrev CaseTable := Table String Case

/-- The offset that a case goes to. A target that is neither an integer nor a text is refused here; other numbers
and truth values, which could be put in order as well, stand for no offset. -/
def targetOf : Literal → Except Fault Offset
  | .integer n => .ok n
  | .text s => .ok (.text s)
  | _ => .error .strangeTarget

/-- Labels and targets, by what tells the cases apart. -/
def labelled (entries : List (Literal × Literal)) : Table String (String × Literal) :=
  entries.foldl (fun table (key, target) =>
    let label := ((table.get? key.identity).map (·.1)).getD key.label
    table.put key.identity (label, target)) {}

def casesOf : List (String × String × Literal) → Except Fault (List (String × Case))
  | [] => .ok []
  | (key, label, target) :: entries => do
    let target ← targetOf target
    return (key, ⟨label, target⟩) :: (← casesOf entries)

/-- The text of the case table. It starts at the first brace; operands without a brace offer only their
last character. The marks before the targets are left out. -/
def caseText (operands : List String) : List Char :=
  let text := (",".intercalate operands).toList
  let text :=
    match cut? ['\x7b'] text with
    | some (before, _) => text.drop before.length
    | none => text.drop (text.length - 1)
  text.filter (· != '@')

def caseTable (operands : List String) : Except Fault CaseTable := do
  match ← (← Literal.Expression.read (caseText operands)).value with
  | .table entries => return ⟨← casesOf (labelled entries).entries⟩
  | _ => throw .notCases

def caseLabel (label : String) : String := "case (" ++ label ++ "):\n"

/-- The arms of a switch in the order of their offsets. The first starts at the switch itself and carries
its header; each stops where the next starts, and the last at -1. -/
def armChain (last start : Offset) (labels : String) : List Case → List Jump
  | [] => [{ kind := .arm, start, stop := .number (-1), arm := some ⟨labels, last⟩ }]
  | case :: rest =>
    if case.target = start then armChain last start (labels ++ caseLabel case.label) rest
    else
      { kind := .arm, start, stop := case.target, arm := some ⟨labels, last⟩ } ::
        armChain last case.target (caseLabel case.label) rest

def switchHeader : String := "switch (ACCU)\ndefault:\n"

def switchArms (offset : Offset) (cases : CaseTable) : Except Fault (List Jump) :=
  match Offset.sortBy? Case.target cases.values with
  | none => .error .noOrder
  | some sorted =>
    match sorted.getLast? with
    | none => .error .noCases
    | some last => .ok (armChain last.target offset switchHeader sorted)

end Bytelift.Instruction
