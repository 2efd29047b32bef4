import Bytelift.Flow.Layout
import Bytelift.Globals
import Bytelift.Substitution.Block

/-! Functions, and how one is decompiled: its instructions are rendered and structured, values are put in
for the places that hold them, and constants for the references to the pool. -/

namespace Bytelift

open Text Instruction Substitution

/-- A listing gives the count as a number; other tools may give it as a text. -/
inductive ParameterCount where
  | number (n : Int)
  | text (s : String)
  deriving DecidableEq, Repr

structure Function where
  name : String
  declarer : Option String := none
  parameters : Option ParameterCount := none
  registers : Option Int := none
  pool : Option (List String) := none
  handlers : Option Handlers := none
  code : Option (List CodeLine) := none
  visible : Bool := true
  note : Note := .none
  deriving Repr, Inhabited

/-- Functions by their names, in the order in which they were read. -/
abbrev Functions := Table String Function

/-- What decompiling functions one after the other builds up. -/
structure Desk where
  globals : Globals := {}
  contexts : Contexts := {}
  console : Console := {}

instance : HasConsole Desk := ⟨Desk.console, fun s c => { s with console := c }⟩

instance : HasContexts Desk := ⟨Desk.contexts, fun s c => { s with contexts := c }⟩

namespace Function

def isComplete (f : Function) : Bool :=
  f.parameters.isSome && f.registers.isSome && f.pool.isSome && f.handlers.isSome && f.code.isSome

def lines (f : Function) : List CodeLine := f.code.getD []

def needCode (f : Function) : Except Fault (List CodeLine) :=
  match f.code with
  | some code => .ok code
  | none => .error .noCode

def parameterCount (f : Function) : Except Fault Int :=
  match f.parameters with
  | some (.number n) => .ok n
  | some (.text s) => number s
  | none => .error .noParameterCount

def header (f : Function) : Except Fault String := do
  let count ← f.parameterCount
  let parameters := (List.range (count - 1).toNat).map fun i => s!"a{i}"
  return "function " ++ f.name ++ "(" ++ commas parameters ++ ")"

/-! ## Constants -/

/-- A reference to the pool that keeps the quotes of a constant, by its index. -/
def literalReference : Recogniser String := fun _ s =>
  (after? "ConstPoolLiteral".toList s).bind fun rest =>
    (bracketed? rest).map fun (ds, rest) => (String.ofList ds, rest)

/-- A reference to the pool: whether it keeps the quotes, and its text and index. -/
def anyReference : Recogniser (Bool × String) := fun before s =>
  ((literalReference before s).map fun (ds, rest) => ((true, ds), rest)) <|>
    ((poolReference before s).map fun (ds, rest) => ((false, ds), rest))

def constant? (f : Function) (index : Int) : Option String := f.pool.bind (·[index.toNat]?)

/-- Takes up the globals from the first line that declares some. -/
def declareGlobals (f : Function) (g : Globals) : List CodeLine → Except Fault (Bool × Globals)
  | [] => .ok (false, g)
  | line :: lines =>
    if !has line.text "DeclareGlobals(" then declareGlobals f g lines
    else match (hits literalReference (strip line.text).toList).head? with
      | none => declareGlobals f g lines
      | some ds => do
        match f.constant? (← number ds) with
        | none => declareGlobals f g lines
        | some declaration =>
          match g.declare declaration with
          | (true, g) => return (true, g)
          | (false, g) => declareGlobals f g lines

def takeUpGlobals (f : Function) (g : Globals) : Except Fault (Bool × Globals) := do
  f.declareGlobals g (← f.needCode)

/-- What is put in for a reference: the constant itself, or its global name, or the constant without its
quotes. A reference past the pool stays as it is. -/
def constantText (f : Function) (g : Globals) (reference : Bool × String) :
    Except Fault (List Char) := do
  let (literal, ds) := reference
  match f.constant? (← number ds) with
  | none => return ((if literal then "ConstPoolLiteral[" else "ConstPool[") ++ ds ++ "]").toList
  | some constant =>
    if literal then return constant.toList
    else return ((g.resolve constant).getD (stripQuotes constant)).toList

def putConstantsIn (f : Function) (g : Globals) (line : CodeLine) : Except Fault CodeLine := do
  if has line.text "ConstPool" then
    let text ← substituteM anyReference (f.constantText g) line.text.toList
    return { line with text := String.ofList text }
  else return line

def putConstantsInAll (f : Function) (g : Globals) : List CodeLine → Except Fault (List CodeLine)
  | [] => .ok []
  | line :: lines => do
    let line ← f.putConstantsIn g line
    return line :: (← putConstantsInAll f g lines)

def putConstants (f : Function) (g : Globals) : Except Fault Function := do
  let code ← f.putConstantsInAll g (← f.needCode)
  return { f with code := some code }

/-! ## Decompiling -/

def lift (f : Function) : Run Console Function := do
  let handlers ← Run.need .noHandlers f.handlers
  let code ← Run.need .noCode f.code
  return { f with code := some (← liftCode f.name code handlers) }

def substitute (f : Function) : Run Desk Function := fun desk =>
  match f.code with
  | none => .error .noCode desk
  | some code =>
    let sheet : Sheet :=
      { code, pool := f.pool, contexts := desk.contexts, console := desk.console }
    match SheetM.substituteAll f.name f.declarer sheet with
    | .ok _ sheet => .ok { f with code := some sheet.code }
        { desk with contexts := sheet.contexts, console := sheet.console }
    | .error fault sheet => .error fault
        { desk with contexts := sheet.contexts, console := sheet.console }

def decompile (f : Function) : Run Desk Function := do
  let f ← Run.on Desk.console (fun desk console => { desk with console }) f.lift
  let f ← f.substitute
  let (_, globals) ← Run.ofExcept (f.takeUpGlobals (← get).globals)
  modify fun desk => { desk with globals }
  Run.ofExcept (f.putConstants (← get).globals)

/-! ## Text -/

structure Columns where
  instruction : Bool := false
  rendered : Bool := false
  text : Bool := true
  deriving DecidableEq, Repr

/-- A line as it is written out; one that shows nothing is left out if only the pseudocode is wanted. -/
def writeLine (columns : Columns) (line : CodeLine) : String :=
  if !line.shows && !columns.instruction && !columns.rendered then ""
  else
    let written :=
      (if columns.instruction then padRight 6 line.offset.plain ++ padRight 50 line.instruction else "") ++
      (if columns.rendered then padRight 60 line.rendered else "") ++
      (if columns.text && line.visible then line.text else "")
    if written.isEmpty then "" else written ++ "\n"

def write (f : Function) (columns : Columns) : Except Fault String := do
  let header ← f.header
  let code ← f.needCode
  return header ++ "\n" ++ String.join (code.map (writeLine columns))

end Function

def decompileEach : List String → Functions → Run Desk Functions
  | [], functions => return functions
  | name :: names, functions => do
    match functions.get? name with
    | none => throw (.unknownFunction name)
    | some f => decompileEach names (functions.put name (← f.decompile))

/-- Decompiles all functions, the one that was read last first: a function comes before those it
declares. -/
def decompileAll (functions : Functions) : Run Desk Functions := do
  say s!"Decompiling {functions.size} functions."
  decompileEach functions.keys.reverse functions

end Bytelift
