import Bytelift.Text.Printable

/-! Quoted forms of a text. A string constant is quoted in ASCII alone, every other character being
written as UTF-16 units. A display keeps whatever can be printed and prefers single quotes. -/

namespace Bytelift.Text

def hexDigit (n : Nat) : Char :=
  Char.ofNat (if n < 10 then '0'.toNat + n else 'a'.toNat + (n - 10))

def hexDigits : Nat → Nat → List Char
  | 0, _ => []
  | width + 1, n => hexDigits width (n / 16) ++ [hexDigit (n % 16)]

def unitEscape (n : Nat) : List Char := '\\' :: 'u' :: hexDigits 4 n

def constantChar (c : Char) : List Char :=
  match c with
  | '"' => ['\\', '"']
  | '\\' => ['\\', '\\']
  | '\n' => ['\\', 'n']
  | '\r' => ['\\', 'r']
  | '\t' => ['\\', 't']
  | '\x08' => ['\\', 'b']
  | '\x0c' => ['\\', 'f']
  | c =>
    let n := c.toNat
    if 0x20 ≤ n && n ≤ 0x7e then [c]
    else if n < 0x10000 then unitEscape n
    else unitEscape (0xd800 + (n - 0x10000) / 0x400) ++ unitEscape (0xdc00 + (n - 0x10000) % 0x400)

def quoteConstant (s : String) : String :=
  String.ofList ('"' :: (s.toList.flatMap constantChar ++ ['"']))

def displayChar (quote c : Char) : List Char :=
  if c == quote || c == '\\' then ['\\', c]
  else match c with
    | '\n' => ['\\', 'n']
    | '\r' => ['\\', 'r']
    | '\t' => ['\\', 't']
    | c =>
      let n := c.toNat
      if isPrintable c then [c]
      else if n < 0x100 then '\\' :: 'x' :: hexDigits 2 n
      else if n < 0x10000 then unitEscape n
      else '\\' :: 'U' :: hexDigits 8 n

/-- A text as it is displayed inside lists and records: in single quotes, unless it holds one and no
double quote. -/
def quoteDisplay (s : String) : String :=
  let quote := if s.toList.contains '\x27' && !s.toList.contains '"' then '"' else '\x27'
  String.ofList (quote :: (s.toList.flatMap (displayChar quote) ++ [quote]))

end Bytelift.Text
