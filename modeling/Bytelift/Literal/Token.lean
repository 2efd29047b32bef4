import Bytelift.Literal.Basic
import Bytelift.Text.Name
import Bytelift.Text.Numeral
import Bytelift.Text.Scan

/-! Tokens of an expression. A line goes on over line ends within brackets and after a backslash, and a
comment runs to the end of its line. -/

namespace Bytelift.Literal

open Text

inductive Token where
  | number (value : Literal)
  | text (s : String)
  | octets (codes : List Nat)
  /-- A text with expressions in it, unread; in a raw one a backslash is a character like any other. -/
  | template (raw : Bool) (body : List Char)
  | name (s : String)
  | keyword (s : String)
  | mark (s : String)
  deriving Repr, Inhabited

namespace Token

def keywords : List String :=
  ["False", "None", "True", "and", "as", "assert", "async", "await", "break", "class", "continue",
   "def", "del", "elif", "else", "except", "finally", "for", "from", "global", "if", "import", "in",
   "is", "lambda", "nonlocal", "not", "or", "pass", "raise", "return", "try", "while", "with", "yield"]

/-- Longer marks first: of several that fit, the longest is taken. -/
def marks : List String :=
  ["...", "**=", "//=", ">>=", "<<=", "!=", "%=", "&=", "**", "*=", "+=", "-=", "->", "//", "/=", ":=",
   "<<", "<=", "<>", "==", ">=", ">>", "^=", "|=", "%", "&", "(", ")", "*", "+", ",", "-", ".", "/",
   ":", ";", "<", "=", ">", "[", "]", "^", "\x7b", "|", "\x7d", "~"]

/-! ## Numbers -/

def isDecimalDigit (c : Char) : Bool := '0' ≤ c && c ≤ '9'

/-- Digits with single underscores between them; after an underscore there must be a digit. -/
def digitRun? (isDigit : Char → Bool) : List Char → Option (List Char × List Char)
  | [] => some ([], [])
  | ['_'] => none
  | '_' :: c :: rest =>
    if isDigit c then (digitRun? isDigit rest).map fun (digits, rest) => (c :: digits, rest) else none
  | c :: rest =>
    if isDigit c then (digitRun? isDigit rest).map fun (digits, rest) => (c :: digits, rest)
    else some ([], c :: rest)

/-- A word character or one beyond ASCII: whatever could go on a name. -/
def isWordLike (c : Char) : Bool := 128 ≤ c.toNat || isWordChar c

def afterNumber : List String := ["and", "else", "for", "if", "in", "is", "not", "or"]

def endsNumber (rest : List Char) : Bool :=
  afterNumber.any (fun word => (after? word.toList rest).isSome) || !rest.head?.any isWordLike

def hexValue (c : Char) : Nat :=
  if '0' ≤ c && c ≤ '9' then c.toNat - '0'.toNat
  else if 'a' ≤ c && c ≤ 'f' then c.toNat - 'a'.toNat + 10
  else c.toNat - 'A'.toNat + 10

def valueIn (base : Nat) (digits : List Char) : Nat :=
  digits.foldl (fun value c => value * base + hexValue c) 0

def based? (base : Nat) (isDigit : Char → Bool) (s : List Char) : Option (Token × List Char) := do
  let (digits, rest) ← digitRun? isDigit s
  if digits.isEmpty || rest.head?.any isDecimalDigit || !endsNumber rest then none
  else some (.number (.integer (valueIn base digits)), rest)

/-- The exponent of a number, if there is one: its spelling, and what follows. -/
def exponent? : List Char → Option (List Char × List Char)
  | [] => some ([], [])
  | e :: rest =>
    if e != 'e' && e != 'E' then some ([], e :: rest)
    else
      let sign := (rest.take 1).filter fun c => c == '+' || c == '-'
      let digits := rest.drop sign.length
      if digits.head?.any isDecimalDigit then
        (digitRun? isDecimalDigit digits).map fun (digits, rest) => (e :: sign ++ digits, rest)
      else if sign.isEmpty then some ([], e :: rest)
      else none

def fraction? : List Char → Option (List Char × List Char)
  | '.' :: rest =>
    if rest.head?.any isDecimalDigit then
      (digitRun? isDecimalDigit rest).map fun (digits, rest) => ('.' :: digits, rest)
    else some (['.'], rest)
  | rest => some ([], rest)

/-- The number that digits, a fraction with its point and an exponent with its letter spell. -/
def realValue (whole fraction exponent : List Char) : Binary64 :=
  let exponent := exponent.drop 1
  let size : Int := valueIn 10 (exponent.filter isDecimalDigit)
  .ofDecimal (valueIn 10 (whole ++ fraction.drop 1))
    ((if exponent.head? = some '-' then -size else size) - (fraction.drop 1).length)

/-- A decimal number. A whole number other than zero has no leading zeros, unless it is imaginary. -/
def decimal? (s : List Char) : Option (Token × List Char) := do
  let (whole, rest) ← digitRun? isDecimalDigit s
  let (fraction, rest) ← fraction? rest
  let (exponent, rest) ← exponent? rest
  let isImaginary := rest.head?.any fun c => c == 'j' || c == 'J'
  let rest := if isImaginary then rest.drop 1 else rest
  if !endsNumber rest then none
  else if isImaginary then
    some (.number (.complex zero (realValue whole fraction exponent)), rest)
  else if !fraction.isEmpty || !exponent.isEmpty then
    some (.number (.real (realValue whole fraction exponent)), rest)
  else if whole.head? = some '0' && whole.any (· != '0') then none
  else do
    let n ← readNat? whole
    some (.number (.integer n), rest)

def number? : List Char → Option (Token × List Char)
  | '0' :: b :: rest =>
    if b == 'x' || b == 'X' then based? 16 isHexDigit rest
    else if b == 'o' || b == 'O' then based? 8 (fun c => '0' ≤ c && c ≤ '7') rest
    else if b == 'b' || b == 'B' then based? 2 (fun c => c == '0' || c == '1') rest
    else decimal? ('0' :: b :: rest)
  | s => decimal? s

/-! ## Texts -/

/-- What stands up to the closing quotes, its escapes unread. A single quote closes on the same line. -/
def body? (quote : Char) (long : Bool) : List Char → Option (List Char × List Char)
  | [] => none
  | ['\\'] => none
  | '\\' :: c :: rest => (body? quote long rest).map fun (body, rest) => ('\\' :: c :: body, rest)
  | c :: rest =>
    if c == quote && !long then some ([], rest)
    else if c == quote && rest.take 2 == [quote, quote] then some ([], rest.drop 2)
    else if c == '\n' && !long then none
    else (body? quote long rest).map fun (body, rest) => (c :: body, rest)

def simpleEscape? (c : Char) : Option Nat :=
  match c with
  | '\\' | '\x27' | '"' => some c.toNat
  | 'a' => some 7
  | 'b' => some 8
  | 't' => some 9
  | 'n' => some 10
  | 'v' => some 11
  | 'f' => some 12
  | 'r' => some 13
  | _ => none

def hexWidth? (wide : Bool) (c : Char) : Option Nat :=
  if c == 'x' then some 2
  else if wide && c == 'u' then some 4
  else if wide && c == 'U' then some 8
  else none

/-- The characters of a text, or of octets, whose escapes are narrower. An escape that is not known
stands for itself; one that is cut short, or names a character, cannot be read. -/
def unescape? (wide : Bool) : Nat → List Char → Option (List Nat)
  | 0, _ => none
  | _, [] => some []
  | bound + 1, '\\' :: c :: rest =>
    if c == '\n' then unescape? wide bound rest
    else if let some code := simpleEscape? c then (unescape? wide bound rest).map (code :: ·)
    else if let some width := hexWidth? wide c then
      let digits := rest.take width
      let code := valueIn 16 digits
      if digits.length = width && digits.all isHexDigit && code < 0x110000 then
        (unescape? wide bound (rest.drop width)).map (code :: ·)
      else none
    else if wide && c == 'N' then none
    else
      let digits := ((c :: rest).take 3).takeWhile fun c => '0' ≤ c && c ≤ '7'
      if digits.isEmpty then (unescape? wide bound (c :: rest)).map ('\\'.toNat :: ·)
      else
        let code := valueIn 8 digits
        (unescape? wide bound ((c :: rest).drop digits.length)).map
          ((if wide then code else code % 256) :: ·)
  | bound + 1, c :: rest => (unescape? wide bound rest).map (c.toNat :: ·)

def quoteLetters : List String := ["", "r", "b", "u", "f", "br", "rb", "fr", "rf"]

def quoteStart? (s : List Char) : Option (List Char × Char × List Char) :=
  let letters := s.takeWhile Char.isAlpha
  match s.drop letters.length with
  | [] => none
  | quote :: rest =>
    let letters := letters.map Char.toLower
    if (quote == '"' || quote == '\x27') && quoteLetters.contains (String.ofList letters) then
      some (letters, quote, rest)
    else none

def quoted? (letters : List Char) (quote : Char) (s : List Char) : Option (Token × List Char) := do
  let long := s.take 2 == [quote, quote]
  let (body, rest) ← body? quote long (if long then s.drop 2 else s)
  if letters.contains 'f' then some (.template (letters.contains 'r') body, rest)
  else if letters.contains 'b' then
    if body.any (128 ≤ ·.toNat) then none
    else
      let codes ←
        if letters.contains 'r' then some (body.map Char.toNat) else unescape? false (body.length + 1) body
      some (.octets codes, rest)
  else
    let codes ←
      if letters.contains 'r' then some (body.map Char.toNat) else unescape? true (body.length + 1) body
    some (.text (String.ofList (codes.map Char.ofNat)), rest)

/-! ## All tokens -/

def word? (s : List Char) : Option (Token × List Char) :=
  let word := s.takeWhile isWordLike
  let text := String.ofList word
  if keywords.contains text then some (.keyword text, s.drop word.length)
  else if isName word then some (.name text, s.drop word.length)
  else none

def mark? (s : List Char) : Option (Token × List Char) :=
  marks.findSome? fun m => (after? m.toList s).map fun rest => (.mark m, rest)

def startsNumber : List Char → Bool
  | '.' :: d :: _ => isDecimalDigit d
  | d :: _ => isDecimalDigit d
  | [] => false

def read? (s : List Char) : Option (Token × List Char) :=
  if startsNumber s then number? s
  else match quoteStart? s with
    | some (letters, quote, rest) => quoted? letters quote rest
    | none => if s.head?.any isWordLike then word? s else mark? s

def nestingLimit : Nat := 200

def depthAfter? (depth : Nat) : Token → Option Nat
  | .mark m =>
    if m == "(" || m == "[" || m == "\x7b" then
      if depth < nestingLimit then some (depth + 1) else none
    else if m == ")" || m == "]" || m == "\x7d" then some (depth - 1)
    else some depth
  | _ => some depth

/-- The tokens of the first line, and the lines after it. -/
def lineWithin : Nat → Nat → List Char → Option (List Token × List Char)
  | 0, _, _ => none
  | _, _, [] => some ([], [])
  | bound + 1, depth, c :: rest =>
    if c == ' ' || c == '\t' || c == '\x0c' then lineWithin bound depth rest
    else if c == '\n' then
      if depth = 0 then some ([], rest) else lineWithin bound depth rest
    else if c == '#' then lineWithin bound depth (rest.dropWhile (· != '\n'))
    else if c == '\\' then
      match rest with
      | '\n' :: c :: rest => lineWithin bound depth (c :: rest)
      | _ => none
    else do
      let (token, rest) ← read? (c :: rest)
      let depth ← depthAfter? depth token
      let (tokens, after) ← lineWithin bound depth rest
      some (token :: tokens, after)

def line? (s : List Char) : Option (List Token × List Char) := lineWithin (s.length + 1) 0 s

inductive Further where
  | nothing
  | code
  | indentedCode
  deriving DecidableEq, Repr

/-- Comments and lines of blanks are nothing, unless the text ends after blanks. The margin is how far the
current line is indented so far; a form feed takes it back, but not what was held at a joined line end. -/
def furtherWithin : Nat → Nat → Nat → List Char → Further
  | 0, _, _, _ => .nothing
  | _, held, margin, [] => if held = 0 && margin = 0 then .nothing else .indentedCode
  | bound + 1, held, margin, c :: rest =>
    if c == ' ' || c == '\t' then furtherWithin bound held (margin + 1) rest
    else if c == '\x0c' then furtherWithin bound held 0 rest
    else if c == '\n' then furtherWithin bound 0 0 rest
    else if c == '#' then furtherWithin bound 0 0 (rest.dropWhile (· != '\n'))
    else if c == '\\' then
      match rest with
      | '\n' :: c :: rest => furtherWithin bound (if held = 0 then margin else held) margin (c :: rest)
      | _ => .code
    else if held = 0 && margin = 0 then .code
    else .indentedCode

def further (s : List Char) : Further := furtherWithin (s.length + 1) 0 0 s

end Token

end Bytelift.Literal
