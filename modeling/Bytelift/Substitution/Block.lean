import Bytelift.Substitution.Line

/-! Substitution through nested blocks. A block starts from the scope around it; what it writes to the
registers of that scope is carried back when it closes. -/

namespace Bytelift.Substitution

open Text

inductive BlockKind where
  | function
  | guarded
  | handler
  | loop
  | case
  | conditional
  | alternative
  | unknown
  deriving DecidableEq, Repr

/-- The keywords that tell the kind of a block; the first that occurs decides. -/
def blockKeywords : List (String × BlockKind) :=
  [("try", .guarded), ("catch", .handler), ("while", .loop), ("switch", .case), ("case", .case),
    ("if", .conditional), ("else", .alternative)]

def kindOfHeader (header : String) : BlockKind :=
  ((blockKeywords.find? fun (keyword, _) => has header keyword).map (·.2)).getD .unknown

/-- The kind of the block that opens at a position, told by the text of the line before it. -/
def blockKind (texts : List String) (position : Int) : Except Fault BlockKind :=
  if position = 0 then .ok .function
  else match at? texts (position - 1) with
    | some header => .ok (kindOfHeader header)
    | none => .error (.noSuchLine (position - 1))

namespace SheetM

def shiftIndent (levels : Int) : SheetM Unit :=
  modify fun s => { s with indent := s.indent + levels }

/-- A block of alternatives that does not end by leaving hands its context on. -/
def settleContext (kind : BlockKind) (scope outer : Scope) : SheetM Scope := do
  let last := strip (← lineAt ((← get).index - 1)).text
  if kind = .alternative && !(["return", "break", "continue"].any (opensWith last)) then
    match scope.get? contextName with
    | some context => return outer.put contextName context
    | none => return outer.erase contextName
  else return outer

def recordWrites (outer : Scope) : List (String × Int) → SheetM Unit
  | [] => return
  | (name, position) :: rest => do
    match outer.get? name with
    | none => throw (.notARegister name)
    | some binding =>
      let o ← registerOf name binding
      changeRegister o fun r => { r with writtenAt := r.writtenAt ++ [position] }
    recordWrites outer rest

def enterBlock (kind : BlockKind) (outer : Scope) : SheetM Scope := do
  let scope ← if kind = .loop then loopScope outer else pure outer
  setText "\x7b"
  shiftIndent 1
  return scope

/-- Closes a block, and gives the scope around it as the block leaves it. -/
def leaveBlock (kind : BlockKind) (outer scope : Scope) (writes : Writes) : SheetM Scope := do
  shiftIndent (-1)
  setText "\x7d"
  if kind = .loop then closeLoop outer scope.entries
  recordWrites outer writes.entries
  if outer.get? contextName = scope.get? contextName then return outer
  else settleContext kind scope outer

/-- A block around lines that are given as an action on the two scopes. -/
def withinBlock (lines : Scope → Scope → SheetM (Scope × Writes)) (outer : Scope) :
    SheetM Scope := do
  let sheet ← get
  let kind ← Run.ofExcept (blockKind (sheet.code.map (·.text)) sheet.index)
  let scope ← enterBlock kind outer
  let (scope, writes) ← lines outer scope
  leaveBlock kind outer scope writes

/-- The lines up to the closing brace. Each step reads a line, so the lines left bound the steps. -/
def substituteLines : Nat → Scope → Scope → Writes → SheetM (Scope × Writes)
  | 0, _, _, _ => throw .endless
  | bound + 1, outer, scope, writes => do
    let line ← nextLine
    if line = "\x7d" then return (scope, writes)
    else if line = "\x7b" then
      let _ ← withinBlock (fun outer scope => substituteLines bound outer scope {})
        (outer.merge scope)
      substituteLines bound outer scope writes
    else
      let (text, scope, writes) ← substituteLine line scope outer writes
      setText text
      substituteLines bound outer scope writes

def substituteBlock (outer : Scope) : SheetM Scope := do
  let sheet ← get
  let bound := (sheet.code.length - sheet.index).toNat + 1
  withinBlock (fun outer scope => substituteLines bound outer scope {}) outer

def substituteAll (name : String) (declarer : Option String) : SheetM Unit := do
  let context ← startContext name declarer
  let _ ← substituteBlock (Scope.setContext {} context)
  let sheet ← get
  let last : Int := (sheet.code.length : Int) - 1
  if sheet.index ≠ last then
    say s!"Warning! failed to decompile {name} stopped after {sheet.index}/{last}"

end SheetM

end Bytelift.Substitution
