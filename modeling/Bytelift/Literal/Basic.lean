import Bytelift.Binary64
import Bytelift.Text.Quoted

/-! Values that can be written down: numbers, texts, truth values, and collections of them. Only what
never changes can be the key of a table; two keys are the same if they are equal, and a truth value equals
the number it counts for. -/

namespace Bytelift

inductive Literal where
  | integer (n : Int)
  | real (x : Binary64)
  | complex (x y : Binary64)
  | truth (value : Bool)
  | nothing
  | dots
  | text (s : String)
  | octets (codes : List Nat)
  | tuple (items : List Literal)
  /-- A list or a set, which can change. -/
  | collection
  | table (entries : List (Literal × Literal))
  deriving Repr, Inhabited

namespace Literal

def octetChar (quote : Char) (code : Nat) : List Char :=
  let c := Char.ofNat code
  if c == quote || c == '\\' then ['\\', c]
  else match c with
    | '\n' => ['\\', 'n']
    | '\r' => ['\\', 'r']
    | '\t' => ['\\', 't']
    | c => if 0x20 ≤ code && code < 0x7f then [c] else '\\' :: 'x' :: Text.hexDigits 2 code

def quoteOctets (codes : List Nat) : String :=
  let quote := if codes.contains '\x27'.toNat && !codes.contains '"'.toNat then '"' else '\x27'
  String.ofList ('b' :: quote :: (codes.flatMap (octetChar quote) ++ [quote]))

/-- A number with an imaginary part. A real part of zero is left out. -/
def displayComplex (x y : Binary64) : String :=
  if x.isZero && !x.negative then y.write "" ++ "j"
  else "(" ++ x.write "" ++ (if y.negative then "" else "+") ++ y.write "" ++ "j)"

mutual

/-- As it is shown among other values. An integer is shown however many digits it has. -/
def display : Literal → String
  | .integer n => toString n
  | .real x => x.write ".0"
  | .complex x y => displayComplex x y
  | .truth value => if value then "True" else "False"
  | .nothing => "None"
  | .dots => "Ellipsis"
  | .text s => Text.quoteDisplay s
  | .octets codes => quoteOctets codes
  | .tuple [item] => "(" ++ display item ++ ",)"
  | .tuple items => "(" ++ ", ".intercalate (displays items) ++ ")"
  | .collection | .table _ => ""

def displays : List Literal → List String
  | [] => []
  | item :: items => display item :: displays items

end

/-- As it stands in a text: only among other values is a text quoted. -/
def label : Literal → String
  | .text s => s
  | key => display key

/-- A whole number that is no integer, as an integer. -/
def wholePart (x : Binary64) : Literal :=
  match x.whole? with
  | some n => .integer n
  | none => .real x

mutual

/-- The same for equal keys: whole numbers and truth values are integers. -/
def canonical : Literal → Literal
  | .truth value => .integer (if value then 1 else 0)
  | .real x => wholePart x
  | .complex x y => if y.isZero then wholePart x else .complex x y
  | .tuple items => .tuple (canonicals items)
  | key => key

def canonicals : List Literal → List Literal
  | [] => []
  | item :: items => canonical item :: canonicals items

end

def identity (key : Literal) : String := key.canonical.display

mutual

/-- Whether it can be a key: it never changes, and holds nothing that does. -/
def isKey : Literal → Bool
  | .tuple items => areKeys items
  | .collection | .table _ => false
  | _ => true

def areKeys : List Literal → Bool
  | [] => true
  | item :: items => isKey item && areKeys items

end

def isNumber : Literal → Bool
  | .integer _ | .real _ | .complex _ _ => true
  | _ => false

/-- The number of the opposite sign; what is no number stays as it is. -/
def negate : Literal → Literal
  | .integer n => .integer (-n)
  | .real x => .real x.negate
  | .complex x y => .complex x.negate y.negate
  | other => other

def zero : Binary64 := .ofInt 0

/-- A number and an imaginary one, put together; no other numbers are. -/
def join? (minus : Bool) : Literal → Literal → Option Literal
  | .integer n, .complex _ y => some (joined (.ofInt n) y)
  | .real x, .complex _ y => some (joined x y)
  | _, _ => none
where
  joined (x y : Binary64) : Literal :=
    .complex (if x.isZero && !minus then zero else x) (if y.isZero then zero else if minus then y.negate else y)

end Literal

end Bytelift
