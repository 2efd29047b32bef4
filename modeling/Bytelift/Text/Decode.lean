/-! Text from bytes. A byte that begins no valid UTF-8 sequence is passed over by the lenient reader and
refused by the strict one; both recurse on the bytes, counting down those of a sequence already read.
Lines end at a line feed, a carriage return, or the two in that order. -/

namespace Bytelift.Text

/-- The character at the head of the bytes and the number of bytes it takes, if they begin a valid
sequence: shortest form, no surrogate, within the code space. -/
def headChar? : List UInt8 → Option (Char × Nat)
  | [] => none
  | b :: rest =>
    let lead := b.toNat
    let tail (i : Nat) : Option Nat :=
      (rest[i]?).bind fun t => if 0x80 ≤ t.toNat && t.toNat < 0xc0 then some (t.toNat - 0x80) else none
    if lead < 0x80 then some (Char.ofNat lead, 1)
    else if lead < 0xc2 then none
    else if lead < 0xe0 then do
      let x ← tail 0
      return (Char.ofNat ((lead - 0xc0) * 64 + x), 2)
    else if lead < 0xf0 then do
      let x ← tail 0
      let y ← tail 1
      let code := (lead - 0xe0) * 4096 + x * 64 + y
      if code < 0x800 || (0xd800 ≤ code && code < 0xe000) then none else some (Char.ofNat code, 3)
    else if lead < 0xf5 then do
      let x ← tail 0
      let y ← tail 1
      let z ← tail 2
      let code := (lead - 0xf0) * 262144 + x * 4096 + y * 64 + z
      if code < 0x10000 || 0x110000 ≤ code then none else some (Char.ofNat code, 4)
    else none

/-- The second argument counts the bytes still covered by the last character. A byte that belongs to no
character is given as `none`. -/
def decodeFrom : Nat → List UInt8 → List (Option Char)
  | _, [] => []
  | covered + 1, _ :: bs => decodeFrom covered bs
  | 0, b :: bs =>
    match headChar? (b :: bs) with
    | some (c, n) => some c :: decodeFrom (n - 1) bs
    | none => none :: decodeFrom 0 bs

def decodeLenient (bytes : List UInt8) : String :=
  String.ofList ((decodeFrom 0 bytes).filterMap id)

def decodeStrict? (bytes : List UInt8) : Option String :=
  ((decodeFrom 0 bytes).mapM id).map String.ofList

def lineChars : List Char → List (List Char)
  | [] => [[]]
  | '\r' :: '\n' :: cs => [] :: lineChars cs
  | c :: cs =>
    if c == '\n' || c == '\r' then [] :: lineChars cs
    else match lineChars cs with
      | line :: lines => (c :: line) :: lines
      | [] => [[c]]

def lines (s : String) : List String := (lineChars s.toList).map String.ofList

end Bytelift.Text
