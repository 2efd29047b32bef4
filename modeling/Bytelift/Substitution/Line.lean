import Bytelift.Substitution.Register

/-! Substitution in one line. Each place that a line reads is replaced by the value it holds, if that value
still stands; the line that wrote it is then hidden, its value being where it is used. -/

namespace Bytelift.Substitution.SheetM

open Text

def nextLine : SheetM String := do
  modify fun s => { s with index := s.index + 1 }
  let sheet ← get
  if sheet.code.length ≤ sheet.index then
    say "Error decompiling \x7bself.sfi.name\x7d, no more lines."
  return (← lineAt sheet.index).rendered

/-- The text of a line at a depth of nesting; an empty line stays empty. -/
def indented (depth : Int) (text : String) : String :=
  if text.isEmpty then "" else String.ofList (List.replicate depth.toNat '\t') ++ text

def setText (text : String) : SheetM Unit := do
  let sheet ← get
  changeLine sheet.index fun line => { line with text := indented sheet.indent text }

/-- Enters or leaves a context. What the accumulator holds afterwards names the context outside the one
entered, or the one left for. -/
def changeContext (line : String) (scope : Scope) : SheetM (String × Scope) := do
  let current ← currentContext scope
  if has line "PushContext" then
    let (entered, contexts) := (← get).contexts.enter current
    modify fun s => { s with contexts }
    return ("ACCU = Scope[CURRENT-1]", scope.setContext entered)
  else
    return ("ACCU = Scope[CURRENT]", scope.setContext ((← get).contexts.outward current 1))

/-- Hands the current context to the function that a line creates. -/
def captureContext (line : String) (scope : Scope) : SheetM String := do
  match (hits poolReference line.toList).head? with
  | none => say s!"Error: ConstPool index not found in line: {line}"
  | some ds =>
    let index ← number ds
    let pool ← Run.need .noPool (← get).pool
    match pool[index.toNat]? with
    | some name =>
      let current ← currentContext scope
      modify fun s => { s with contexts := s.contexts.setFunction name current }
    | none => say s!"Error: ConstPool idx {index} out of range. {pool.length}"
  return replace line " new func " " "

/-- The context that a name in a scope stands for, if it is bound to a register that holds one. -/
def heldContext? (scope : Scope) (name : String) : SheetM (Option Int) := do
  match scope.get? name with
  | none => return none
  | some binding => contextOf? (← register (← registerOf name binding)).value

/-- The context that a name stands for: the one a register holds, in the scope or else outside it, or the
current one. -/
def namedContext (scope outer : Scope) (name : String) : SheetM Int := do
  let current ← currentContext scope
  match ← heldContext? scope name with
  | some context => return context
  | none => return (← heldContext? outer name).getD current

/-- The number of the scope that a reference stands for: the current context, or one some steps out of the
context that a name stands for. -/
def resolveScope (scope outer : Scope) (reference : String) : SheetM (List Char) := do
  if reference = "CURRENT" then
    let current ← currentContext scope
    return s!"Scope[{current}]".toList
  else match split reference "-" with
    | [name, steps] =>
      let base ← namedContext scope outer name
      let steps ← number steps
      let context := (← get).contexts.outward base steps.toNat
      return s!"Scope[{context}]".toList
    | _ => throw (.malformedScope reference)

def resolveScopes (line : String) (scope outer : Scope) : SheetM String :=
  return String.ofList (← substituteM scopeReference (resolveScope scope outer) line.toList)

def showAll : List Int → SheetM Unit
  | [] => return
  | position :: rest => do
    setVisible position true
    showAll rest

/-- What stands for a place where it is read. A place that was overwritten stands for itself, and all lines
that wrote it show. -/
def readPlace (scope : Scope) (name : String) : SheetM (List Char) := do
  match scope.get? name with
  | none => return name.toList
  | some binding =>
    let r ← register (← registerOf name binding)
    if r.overwritten then
      showAll r.writtenAt
      return name.toList
    else
      setVisible (← Run.need .neverWritten r.writtenAt.head?) false
      return r.value.toList

def readPlaces (line : String) (scope : Scope) : SheetM String :=
  return String.ofList (← substituteM place (readPlace scope) line.toList)

/-- The lines that wrote registers of the outer scope, by register. -/
abbrev Writes := Table String Int

/-- Marks as overwritten each register whose value reads a place. -/
def overwriteReaders (name : String) : List (String × Binding) → SheetM Unit
  | [] => return
  | (_, .context _) :: rest => overwriteReaders name rest
  | (_, .register i) :: rest => do
    if occursIn name.toList (← register i).value.toList then
      changeRegister i fun r => { r with overwritten := true }
    overwriteReaders name rest

/-- Notes that a line writes a place, if that is a register of the outer scope. -/
def noteWrite (name : String) (outer : Scope) (writes : Writes) : SheetM Writes := do
  match outer.get? name with
  | none => return writes
  | some binding =>
    let o ← registerOf name binding
    changeRegister o fun r => { r with overwritten := true }
    return writes.put name (← get).index

/-- A place takes a value. The value is kept in the scope if it may stand for the place. -/
def assign (name value : String) (scope outer : Scope) (writes : Writes) :
    SheetM (Scope × Writes) := do
  let scope := scope.erase name
  let writes ← noteWrite name outer writes
  overwriteReaders name scope.entries
  if isConstant name value then
    let i ← addRegister { value, writtenAt := [(← get).index] }
    return (scope.put name (.register i), writes)
  else return (scope, writes)

/-- The register and the value of a line that stores a value in a register. -/
def store? (line : String) : Option (String × String) :=
  (register? line.toList).bind fun (name, rest) =>
    (after? " = ".toList rest).bind fun value =>
      if value.isEmpty || value.contains '\n' then none
      else some (String.ofList name, String.ofList value)

/-- The register that a value was last stored in, among the lines before a number of lines; the search
goes back to the last load of the accumulator that shows. -/
def findStore (value : String) : Nat → SheetM (Option String)
  | 0 => return none
  | n + 1 => do
    let line ← lineAt n
    if !line.shows then findStore value n
    else
      let text := strip line.text
      match store? text with
      | some (name, stored) =>
        if stored = value then return some name
        else findStore value n
      | none =>
        if opensWith text "ACCU = " then return none else findStore value n

/-- Returns the register that the accumulator was stored in, rather than its value once more. -/
def returnStored? (line : String) (scope : Scope) : SheetM (Option String) := do
  if strip line ≠ "return ACCU" then return none
  match scope.get? "ACCU" with
  | none => return none
  | some (.context number) =>
    if number = 0 then return none else throw (.notARegister "ACCU")
  | some (.register i) =>
    let r ← register i
    if r.overwritten then return none
    let stored ← findStore r.value (← get).index.toNat
    return stored.map ("return " ++ ·)

/-- The text of a line with its contexts resolved, once it has entered or left one. -/
def resolveLine (line : String) (scope outer : Scope) : SheetM (String × Scope) := do
  let (line, scope) ←
    if has line "PopContext" || has line "PushContext" then changeContext line scope
    else pure (line, scope)
  let line ← if has line "new func" then captureContext line scope else pure line
  return (← resolveScopes line scope outer, scope)

/-- The text of a line with values put in, and what the line does to the scope. -/
def readLine (line : String) (scope outer : Scope) (writes : Writes) :
    SheetM (String × Scope × Writes) := do
  match assignment? line with
  | none =>
    match ← returnStored? line scope with
    | some text => return (text, scope, writes)
    | none => return (← readPlaces line scope, scope, writes)
  | some (name, value) =>
    let value ← readPlaces value scope
    let (scope, writes) ← assign name value scope outer writes
    return (name ++ " = " ++ value, scope, writes)

/-- The text of a line with contexts resolved and values put in, and what the line does to the scope. -/
def substituteLine (line : String) (scope outer : Scope) (writes : Writes) :
    SheetM (String × Scope × Writes) := do
  let (line, scope) ← resolveLine line scope outer
  readLine line scope outer writes

end Bytelift.Substitution.SheetM
