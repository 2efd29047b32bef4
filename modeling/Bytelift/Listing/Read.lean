import Bytelift.Listing.Feed
import Bytelift.Listing.Line

/-! Reading a listing. A function lists its constants, among them the functions, arrays and objects that it
creates, and each of these is spelled out right after the line that names it. What is done with a function
that was read is left to the caller. -/

namespace Bytelift.Listing

open Text Instruction

namespace FeedM

/-- Reads an entry of a constant pool for a declaring function: the index after it, and its text. -/
abbrev Entry := Option String → FeedM (Int × String)

variable (fit : Matcher)

/-! ## Entries -/

/-- The entries from an index on. One that was read for a run of indices fills them all; no entry is read
at an index that its predecessor does not lead to. -/
def fill (entry : FeedM (Int × String)) : Nat → Int → Int → String → FeedM (List String)
  | 0, _, _, _ => return []
  | left + 1, index, nextIndex, text => do
    if nextIndex ≠ index then
      return text :: (← fill entry left (index + 1) nextIndex text)
    else
      let (nextIndex, text) ← entry
      return text :: (← fill entry left (index + 1) nextIndex text)

def entries (entry : FeedM (Int × String)) : FeedM (List String) := do
  let header ← lineSuchThat (has · "- length:") .endOfListing
  let count ← Run.ofExcept (length fit header)
  if count = 0 then return []
  let _ ← lineSuchThat (opensWith · "0") .noEntries
  setAgain true
  fill entry count.toNat 0 0 ""

def expectStart (what : String) : FeedM Unit := do
  let line ← line .endOfListing
  if !has line "Start " then throw (.expectedStart line what)

def skipToEnd : FeedM Unit := do
  let _ ← lineSuchThat (has · "End ") .endOfListing

def array (entry : FeedM (Int × String)) : FeedM String := do
  expectStart "Array"
  let items ← entries fit entry
  skipToEnd
  if (← next) ≠ some ">" then setAgain true
  return "[" ++ commas items ++ "]"

/-- Keys and values by turns; a key without a value is dropped. -/
def fields : List String → List String
  | key :: value :: rest => (key ++ ": " ++ value) :: fields rest
  | _ => []

def object (entry : FeedM (Int × String)) : FeedM String := do
  expectStart "Object"
  let items ← entries fit entry
  skipToEnd
  return "\x7b" ++ commas (fields (items.drop 1)) ++ "\x7d"

def constantPool (entry : FeedM (Int × String)) (line : String) : FeedM (List String) :=
  if has line "size = 0" then return [] else entries fit entry

/-! ## Functions -/

def handlersFrom : Nat → Handlers → FeedM Handlers
  | 0, _ => throw .endless
  | bound + 1, handlers => do
    let line ← line .endOfListing
    if has line " -> " then
      let (target, range) ← Run.ofExcept (handler fit line)
      handlersFrom bound (handlers.put target range)
    else
      setAgain true
      return handlers

def handlerTable (line : String) : FeedM Handlers := do
  if has line "size = 0" then return {}
  let _ ← next
  handlersFrom fit (← get).bound {}

def instructionsFrom : Nat → String → FeedM (List CodeLine)
  | 0, _ => throw .endless
  | bound + 1, current => do
    if has current " @ " then
      let first ← Run.ofExcept (instruction current)
      return first :: (← instructionsFrom bound (← line .endOfListing))
    else
      setAgain true
      return []

def instructions (first : String) : FeedM (List CodeLine) := do
  instructionsFrom ((← get).bound + 1) first

def functionName (label address : String) : String :=
  "func_" ++ (if label.isEmpty then "unknown" else label) ++ "_" ++ address

/-- Takes up what a line of a function tells; other lines are passed over. -/
def functionLine (entry : Entry) (label : String) (f : Function) (line : String) :
    FeedM Function := do
  if has line "Parameter count" then
    let count ← Run.ofExcept (parameterCount fit line)
    return { f with parameters := some (.number count) }
  else if has line "Register count" then
    let count ← Run.ofExcept (registerCount fit line)
    return { f with registers := some count }
  else if has line "Constant pool" then
    let pool ← constantPool fit (entry (some f.name)) line
    return { f with pool := some pool }
  else if has line "Handler Table" then
    let handlers ← handlerTable fit line
    return { f with handlers := some handlers }
  else if has line "@    0 : " then
    let code ← instructions line
    return { f with code := some code }
  else if has line "[SharedFunctionInfo]" || has line "[BytecodeArray]" then
    let address ← Run.ofExcept (address fit line)
    return { f with name := functionName label address }
  else return f

def functionLines (entry : Entry) (label : String) : Nat → Function → FeedM Function
  | 0, _ => throw .endless
  | bound + 1, f => do
    match ← next with
    | none => return f
    | some line =>
      if line = "End SharedFunctionInfo" then return f
      else functionLines entry label bound (← functionLine fit entry label f line)

def register (f : Function) : FeedM Unit :=
  modify fun s =>
    { s with catalogue := { s.catalogue with functions := s.catalogue.functions.put f.name f } }

section Functions

variable (file : Function → FeedM Unit)

/-- Reads a function and files it, complete or not; its name is the result. -/
def function (entry : Entry) (label : String) (declarer : Option String) : FeedM String := do
  let f ← functionLines fit entry label (← get).bound { name := "func_unknown", declarer }
  file f
  if f.isComplete then return f.name else throw (.incompleteFunction f.name)

/-- An entry, and all that it contains. Each level of nesting reads a line, so the lines bound the
levels. -/
def entryWithin : Nat → Entry
  | 0, _ => throw .endless
  | bound + 1, declarer => do
    let (nextIndex, constant) ← Run.ofExcept (constant (← line .noConstant))
    match constant with
    | .value text => return (nextIndex, text)
    | .function label => return (nextIndex, ← function fit file (entryWithin bound) label declarer)
    | .array => return (nextIndex, ← array fit (entryWithin bound declarer))
    | .object => return (nextIndex, ← object fit (entryWithin bound declarer))

def entry : Entry := fun declarer => do
  entryWithin fit file (← get).bound declarer

def seekStart : Nat → FeedM Unit
  | 0 => throw .endless
  | bound + 1 => do
    if (← next) = some "Start SharedFunctionInfo" then return
    seekStart bound

/-- Reads a whole listing: its first function, and with it all others. -/
def listing : FeedM Unit := do
  seekStart ((← get).bound + 1)
  let _ ← function fit file (entry fit file) "start" none

end Functions

end FeedM

/-- Reads a listing into the catalogue; what was read before a fault stays there. -/
def read (fit : Matcher) (text : String) : Run Catalogue Unit := fun catalogue =>
  match FeedM.listing fit FeedM.register (.ofText catalogue text) with
  | .ok _ feed => .ok () feed.catalogue
  | .error fault feed => .error fault feed.catalogue

end Bytelift.Listing
