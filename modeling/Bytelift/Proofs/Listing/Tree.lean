import Bytelift.Listing.Read
import Bytelift.Proofs.Text.Numeral

/-! Listings as they are written out: a function, and in its pool the arrays, objects and functions that it
creates, to any depth. The parts of a line carry what makes the line readable: hexadecimal digits, texts
without line breaks, numbers that can be read back. How many entries a list has is not known to its parts,
so that these numbers can be read back is asked of a tree as a whole, through its `sizes`. -/

namespace Bytelift.Listing

open Text
open Instruction (commas)

/-! ## Texts within a line -/

def Unbroken (s : String) : Prop := ∀ c ∈ s.toList, c ≠ '\n' ∧ c ≠ '\r'

def Opens (s : String) : Prop := ∃ c ∈ s.toList.head?, isBlank c = false

def Closes (s : String) : Prop := ∃ c ∈ s.toList.getLast?, isBlank c = false

instance (s : String) : Decidable (Unbroken s) := List.decidableBAll _ _

instance (s : String) : Decidable (Opens s) := s.toList.head?.decidableExistsMem

instance (s : String) : Decidable (Closes s) := s.toList.getLast?.decidableExistsMem

/-- A text that is handed out as it is written: one line, with no blanks around it. -/
structure IsLine (s : String) : Prop where
  unbroken : Unbroken s
  opens : Opens s
  closes : Closes s

structure Inline where
  text : String
  unbroken : Unbroken text

structure Number where
  value : Nat
  short : Short value

structure Address where
  digits : List Char
  nonempty : digits ≠ []
  hexadecimal : ∀ c ∈ digits, isHexDigit c = true

def Address.text (a : Address) : String := String.ofList ('0' :: 'x' :: a.digits)

/-! ## Code -/

structure Byte where
  high : Char
  low : Char
  hexadecimal : isHexDigit high = true ∧ isHexDigit low = true

def Byte.chars (b : Byte) : List Char := [b.high, b.low, ' ']

/-- Whether a text would be taken for one more byte and something after it. -/
def opensWithByte : List Char → Bool
  | a :: b :: ' ' :: _ => isHexDigit a && isHexDigit b
  | _ => false

structure Operation where
  address : Address
  offset : Number
  bytes : List Byte
  nonempty : bytes ≠ []
  text : String
  isLine : IsLine text
  wordy : opensWithByte text.toList = false

def column (n : Nat) : String :=
  String.ofList (List.replicate (4 - (toString n).length) ' ') ++ toString n

def Operation.opcode (o : Operation) : String := String.ofList (o.bytes.flatMap Byte.chars)

def Operation.line (o : Operation) : String :=
  o.address.text ++ " @ " ++ column o.offset.value ++ " : " ++ o.opcode ++ o.text

def Operation.codeLine (o : Operation) : CodeLine :=
  { offset := .number o.offset.value, opcode := o.opcode, instruction := o.text }

/-! ## Handlers -/

structure Handler where
  first : Number
  last : Number
  target : Number
  note : String
  isLine : IsLine note

def Handler.line (h : Handler) : String :=
  "(" ++ column h.first.value ++ "," ++ column h.last.value ++ ")  -> " ++ (" " ++ column h.target.value) ++
    " (" ++ h.note

def Handler.entry (h : Handler) : Int × Int × Int := (h.target.value, h.first.value, h.last.value)

def handlerLines (handlers : List Handler) : List String :=
  if handlers.isEmpty then [] else "from   to       hdlr (prediction,   data)" :: handlers.map Handler.line

/-! ## Functions -/

/-- The texts by which a line of a function is told from the others, whatever else it holds. -/
def leadingMarks : List String := ["Parameter count", "Register count", "Constant pool", "Handler Table"]

/-- A line that tells nothing. -/
structure Remark where
  text : String
  isLine : IsLine text
  silent : ∀ mark ∈ leadingMarks ++ ["@    0 : ", "[SharedFunctionInfo]", "[BytecodeArray]", " @ "],
    has text mark = false
  inner : text ≠ "End SharedFunctionInfo"

/-- A function without its pool. Its first instruction stands in a line that is looked at as a line of the
function, and as a line of the handler table if there is one. -/
structure Frame where
  address : Address
  parameters : Number
  registers : Number
  handlers : List Handler
  distinct : (handlers.map (·.target.value)).Nodup
  start : Operation
  atZero : start.offset.value = 0
  unmarked : ∀ mark ∈ leadingMarks, has start.text mark = false
  noHandler : handlers ≠ [] → has (" " ++ start.text) " -> " = false
  rest : List Operation
  remarks : List Remark

namespace Frame

def name (f : Frame) (label : String) : String := "func_" ++ label ++ "_" ++ f.address.text

def code (f : Frame) : List Operation := f.start :: f.rest

def poolLines (size : Nat) (entries : List String) : List String :=
  if size = 0 then [] else ("- length: " ++ toString size) :: entries

/-- The lines of a function after its first, given those of its pool. -/
def body (f : Frame) (size : Nat) (entries : List String) : List String :=
  [f.address.text ++ ": [SharedFunctionInfo] in OldSpace",
    "Parameter count " ++ toString f.parameters.value,
    "Register count " ++ toString f.registers.value,
    "Constant pool (size = " ++ toString size ++ ")"] ++
  (poolLines size entries ++ ["Handler Table (size = " ++ toString f.handlers.length ++ ")"] ++
    handlerLines f.handlers ++ f.code.map Operation.line ++ f.remarks.map Remark.text ++
    ["End SharedFunctionInfo"])

def function (f : Frame) (label : String) (declarer : Option String) (pool : List String) : Function :=
  { name := f.name label, declarer, parameters := some (.number f.parameters.value),
    registers := some f.registers.value, pool := some pool,
    handlers := some ⟨f.handlers.map Handler.entry⟩, code := some (f.code.map Operation.codeLine) }

end Frame

/-! ## Entries -/

/-- A constant without an address. -/
structure Bare where
  text : String
  unbroken : Unbroken text
  closes : Closes text
  plain : opensWith text "0x" = false

/-- The name of a function, as far as it has one. -/
structure Label where
  text : String
  unbroken : Unbroken text
  nonempty : text ≠ ""
  ending : ∀ c ∈ text.toList.getLast?, c ≠ '>' ∧ c ≠ ' '

inductive ArrayKind where
  | fixed
  | boilerplate

def ArrayKind.name : ArrayKind → String
  | .fixed => "FixedArray"
  | .boilerplate => "ArrayBoilerplateDescription"

/-- What an entry holds. A list gives each entry with the number of times that it is repeated at the
indices after its own. -/
inductive Item where
  | bare (text : Bare)
  | string (address : Address) (text : Inline)
  | oddball (address : Address) (kind : Inline)
  | array (address : Address) (kind : ArrayKind) (entries : List (Nat × Item)) (closed : Bool)
  | object (address : Address) (entries : List (Nat × Item))
  | function (address : Address) (label : Label) (frame : Frame) (pool : List (Nat × Item))

def size (entries : List (Nat × Item)) : Nat := (entries.map fun e => e.1 + 1).sum

@[simp] theorem size_cons (e : Nat × Item) (rest : List (Nat × Item)) : size (e :: rest) = e.1 + 1 + size rest := rfl

/-- The fields of an object, by the index: a key and its value after the entry that comes first. -/
def fieldTexts (texts : List String) : List String :=
  (List.range ((texts.length - 1) / 2)).map fun i =>
    texts.getD (2 * i + 1) "" ++ ": " ++ texts.getD (2 * i + 2) ""

mutual

def Item.text : Item → String
  | .bare text => text.text
  | .string _ text => quoteConstant text.text
  | .oddball _ _ => "null"
  | .array _ _ entries _ => "[" ++ commas (texts entries) ++ "]"
  | .object _ entries => "\x7b" ++ commas (fieldTexts (texts entries)) ++ "\x7d"
  | .function _ label frame _ => frame.name label.text

def texts : List (Nat × Item) → List String
  | [] => []
  | (extra, item) :: rest => List.replicate (extra + 1) item.text ++ texts rest

end

/-- Something that is kept at an address. -/
def kept (address : Address) (what : String) : String := address.text ++ " " ++ what

def Item.description : Item → String
  | .bare text => text.text
  | .string address text =>
    kept address ("<String[" ++ toString text.text.length ++ "]: " ++ "#" ++ (text.text ++ ">"))
  | .oddball address kind => kept address ("<Odd Oddball: " ++ kind.text ++ ">")
  | .array address kind entries _ => kept address ("<" ++ kind.name ++ "[" ++ toString (size entries) ++ "]>")
  | .object address entries =>
    kept address ("<ObjectBoilerplateDescription[" ++ toString (size entries) ++ "]>")
  | .function address label _ _ => kept address ("<SharedFunctionInfo" ++ " " ++ (label.text ++ ">"))

def indexText (i extra : Nat) : String :=
  if extra = 0 then toString i else toString i ++ "-" ++ toString (i + extra)

def entryLine (i extra : Nat) (item : Item) : String := indexText i extra ++ ": " ++ item.description

/-- The lines of an array or an object, given those of its entries. -/
def spelledOut (what : String) (size : Nat) (entries : List String) : List String :=
  ("Start " ++ what) :: ("- length: " ++ toString size) :: (entries ++ ["End " ++ what])

mutual

def Item.lines : Item → List String
  | .bare _ | .string _ _ | .oddball _ _ => []
  | .array _ kind entries closed =>
    spelledOut kind.name (size entries) (entryLines 0 entries) ++ if closed then [">"] else []
  | .object _ entries => spelledOut "ObjectBoilerplateDescription" (size entries) (entryLines 0 entries)
  | .function _ _ frame pool =>
    "Start SharedFunctionInfo" :: frame.body (size pool) (entryLines 0 pool)

def entryLines : Nat → List (Nat × Item) → List String
  | _, [] => []
  | i, (extra, item) :: rest =>
    entryLine i extra item :: (item.lines ++ entryLines (i + extra + 1) rest)

end

mutual

/-- The functions of an entry: each after those in its pool. -/
def Item.functions (declarer : String) : Item → List Function
  | .bare _ | .string _ _ | .oddball _ _ => []
  | .array _ _ entries _ | .object _ entries => functionsOf declarer entries
  | .function _ label frame pool =>
    functionsOf (frame.name label.text) pool ++ [frame.function label.text (some declarer) (texts pool)]

def functionsOf (declarer : String) : List (Nat × Item) → List Function
  | [] => []
  | (_, item) :: rest => item.functions declarer ++ functionsOf declarer rest

end

mutual

def Item.sizes : Item → List Nat
  | .bare _ | .string _ _ | .oddball _ _ => []
  | .array _ _ entries _ | .object _ entries | .function _ _ _ entries => size entries :: sizesOf entries

def sizesOf : List (Nat × Item) → List Nat
  | [] => []
  | (_, item) :: rest => item.sizes ++ sizesOf rest

end

/-! ## Trees -/

structure Tree where
  frame : Frame
  pool : List (Nat × Item)

namespace Tree

def lines (t : Tree) : List String :=
  "Start SharedFunctionInfo" :: t.frame.body (size t.pool) (entryLines 0 t.pool)

def text (t : Tree) : String := String.join (t.lines.map (· ++ "\n"))

def functions (t : Tree) : List Function :=
  functionsOf (t.frame.name "start") t.pool ++ [t.frame.function "start" none (texts t.pool)]

def sizes (t : Tree) : List Nat := size t.pool :: sizesOf t.pool

end Tree

end Bytelift.Listing
