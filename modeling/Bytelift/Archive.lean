import Bytelift.Function

/-! Archives: functions as one text from which they can be read back. Every value is a sequence of tokens,
each token is written behind its length, and so no character needs an escape. -/

namespace Bytelift.Archive

/-- Takes a value off the front of the tokens. -/
abbrev Reader (α : Type) := List String → Option (α × List String)

def readText : Reader String
  | [] => none
  | token :: rest => some (token, rest)

def writeInt (n : Int) : List String := [toString n]

def readInt : Reader Int
  | [] => none
  | token :: rest => token.toInt?.map (·, rest)

def writeBool (b : Bool) : List String := [if b then "1" else "0"]

def readBool : Reader Bool
  | "1" :: rest => some (true, rest)
  | "0" :: rest => some (false, rest)
  | _ => none

def writeOption {α : Type} (write : α → List String) : Option α → List String
  | none => ["0"]
  | some a => "1" :: write a

def readOption {α : Type} (read : Reader α) : Reader (Option α)
  | "0" :: rest => some (none, rest)
  | "1" :: rest => (read rest).map fun (a, rest) => (some a, rest)
  | _ => none

def writeList {α : Type} (write : α → List String) (items : List α) : List String :=
  toString items.length :: items.flatMap write

def readItems {α : Type} (read : Reader α) : Nat → Reader (List α)
  | 0, tokens => some ([], tokens)
  | n + 1, tokens => do
    let (a, tokens) ← read tokens
    let (items, tokens) ← readItems read n tokens
    return (a :: items, tokens)

def readList {α : Type} (read : Reader α) : Reader (List α)
  | [] => none
  | count :: rest => count.toNat?.bind fun n => readItems read n rest

mutual

def writeNote : Note → List String
  | .none => ["none"]
  | .flag b => "flag" :: writeBool b
  | .number n => "number" :: writeInt n
  | .text s => ["text", s]
  | .list items => "list" :: toString items.length :: writeNotes items
  | .record fields => "record" :: toString fields.length :: writeFields fields

def writeNotes : List Note → List String
  | [] => []
  | note :: rest => writeNote note ++ writeNotes rest

def writeFields : List (String × Note) → List String
  | [] => []
  | (key, note) :: rest => key :: (writeNote note ++ writeFields rest)

end

def readField (read : Reader Note) : Reader (String × Note)
  | [] => none
  | key :: rest => (read rest).map fun (note, rest) => ((key, note), rest)

/-- Each level of nesting takes a token, so the tokens bound the levels. -/
def readNoteWithin : Nat → Reader Note
  | 0, _ => none
  | bound + 1, tokens =>
    match tokens with
    | "none" :: rest => some (.none, rest)
    | "flag" :: rest => (readBool rest).map fun (b, rest) => (.flag b, rest)
    | "number" :: rest => (readInt rest).map fun (n, rest) => (.number n, rest)
    | "text" :: s :: rest => some (.text s, rest)
    | "list" :: rest =>
      (readList (readNoteWithin bound) rest).map fun (items, rest) => (.list items, rest)
    | "record" :: rest =>
      (readList (readField (readNoteWithin bound)) rest).map fun (fields, rest) =>
        (.record fields, rest)
    | _ => none

def readNote : Reader Note := fun tokens => readNoteWithin tokens.length tokens

def writeOffset : Offset → List String
  | .number n => "number" :: writeInt n
  | .text s => ["text", s]

def readOffset : Reader Offset
  | "number" :: tokens => (readInt tokens).map fun (n, tokens) => (.number n, tokens)
  | "text" :: s :: tokens => some (.text s, tokens)
  | _ => none

def writeLine (line : CodeLine) : List String :=
  writeOffset line.offset ++ [line.opcode, line.instruction, line.rendered, line.text] ++
    writeBool line.visible ++ writeNote line.note

def readLine : Reader CodeLine := fun tokens => do
  let (offset, tokens) ← readOffset tokens
  let (opcode, tokens) ← readText tokens
  let (instruction, tokens) ← readText tokens
  let (rendered, tokens) ← readText tokens
  let (text, tokens) ← readText tokens
  let (visible, tokens) ← readBool tokens
  let (note, tokens) ← readNote tokens
  return ({ offset, opcode, instruction, rendered, text, visible, note }, tokens)

def writeCount : ParameterCount → List String
  | .number n => "number" :: writeInt n
  | .text s => ["text", s]

def readCount : Reader ParameterCount
  | "number" :: rest => (readInt rest).map fun (n, rest) => (.number n, rest)
  | "text" :: s :: rest => some (.text s, rest)
  | _ => none

def writeHandler (handler : Int × Int × Int) : List String :=
  writeInt handler.1 ++ writeInt handler.2.1 ++ writeInt handler.2.2

def readHandler : Reader (Int × Int × Int) := fun tokens => do
  let (target, tokens) ← readInt tokens
  let (first, tokens) ← readInt tokens
  let (last, tokens) ← readInt tokens
  return ((target, first, last), tokens)

def writeFunction (f : Function) : List String :=
  f.name :: (writeOption (fun s => [s]) f.declarer ++ writeOption writeCount f.parameters ++
    writeOption writeInt f.registers ++ writeOption (writeList fun s => [s]) f.pool ++
    writeOption (fun table => writeList writeHandler table.entries) f.handlers ++
    writeOption (writeList writeLine) f.code ++ writeBool f.visible ++ writeNote f.note)

def readFunction : Reader Function := fun tokens => do
  let (name, tokens) ← readText tokens
  let (declarer, tokens) ← readOption readText tokens
  let (parameters, tokens) ← readOption readCount tokens
  let (registers, tokens) ← readOption readInt tokens
  let (pool, tokens) ← readOption (readList readText) tokens
  let (handlers, tokens) ← readOption (readList readHandler) tokens
  let (code, tokens) ← readOption (readList readLine) tokens
  let (visible, tokens) ← readBool tokens
  let (note, tokens) ← readNote tokens
  return ({ name, declarer, parameters, registers, pool, handlers := handlers.map Table.mk, code,
            visible, note }, tokens)

/-! ## Tokens as a text -/

def pack (tokens : List String) : String :=
  String.join (tokens.map fun token => s!"{token.length}:{token}")

def unpackWithin : Nat → List Char → Option (List String)
  | _, [] => some []
  | 0, _ => none
  | bound + 1, s =>
    match (String.ofList (s.takeWhile (· != ':'))).toNat?, s.dropWhile (· != ':') with
    | some n, _ :: rest =>
      if rest.length < n then none
      else (unpackWithin bound (rest.drop n)).map (String.ofList (rest.take n) :: ·)
    | _, _ => none

def unpack (s : String) : Option (List String) := unpackWithin s.length s.toList

def writeEntry (entry : String × Function) : List String := entry.1 :: writeFunction entry.2

def readEntry : Reader (String × Function) := fun tokens => do
  let (key, tokens) ← readText tokens
  let (f, tokens) ← readFunction tokens
  return ((key, f), tokens)

def mark : String := "functions"

def encode (functions : Functions) : String :=
  pack (mark :: writeList writeEntry functions.entries)

def decode? (s : String) : Option Functions := do
  match ← unpack s with
  | first :: tokens =>
    if first = mark then
      let (entries, rest) ← readList readEntry tokens
      if rest.isEmpty then return ⟨entries⟩ else failure
    else failure
  | [] => failure

end Bytelift.Archive
