import Bytelift.Fault
import Bytelift.Literal.Basic

/-! Expressions, as far as their values are concerned. Only literals, signs before numbers, and
collections of literals have a value; whatever else an expression may be, it has none. -/

namespace Bytelift.Literal

inductive Expression where
  | constant (value : Literal)
  | name (s : String)
  | tuple (items : List Expression)
  | list (items : List Expression)
  | set (items : List Expression)
  | table (entries : List Expression)
  | entry (key value : Expression)
  /-- The call that makes an empty set, which no brackets do. -/
  | emptySet
  | signed (minus : Bool) (operand : Expression)
  | sum (minus : Bool) (left right : Expression)
  /-- An item that stands for the items of a collection. -/
  | starred (operand : Expression)
  /-- A member of something, by name or by key. -/
  | member
  | other
  deriving Repr, Inhabited

namespace Expression

def number? : Expression → Option Literal
  | .constant value => if value.isNumber then some value else none
  | _ => none

def signedNumber? : Expression → Option Literal
  | .signed minus operand => (number? operand).map fun value => if minus then value.negate else value
  | e => number? e

mutual

/-- The value of an expression. The parts are taken in their order, each key with its value, and the
first that fails decides. -/
def value : Expression → Except Fault Literal
  | .constant value => .ok value
  | .tuple items => return .tuple (← values items)
  | .list items => do
    let _ ← values items
    return .collection
  | .set items => do
    keysOnly items
    return .collection
  | .table entries => return .table (← entryValues entries)
  | .emptySet => return .collection
  | .sum minus left right =>
    match signedNumber? left, number? right with
    | some left, some right =>
      match Literal.join? minus left right with
      | some value => .ok value
      | none => .error .noValue
    | _, _ => .error .noValue
  | e =>
    match signedNumber? e with
    | some value => .ok value
    | none => .error .noValue

def values : List Expression → Except Fault (List Literal)
  | [] => return []
  | item :: items => do
    let first ← value item
    return first :: (← values items)

/-- Checks that the items have values which can be told apart. -/
def keysOnly : List Expression → Except Fault Unit
  | [] => return
  | item :: items => do
    let first ← value item
    if !first.isKey then throw .changingKey
    keysOnly items

def entryValues : List Expression → Except Fault (List (Literal × Literal))
  | [] => return []
  | .entry key item :: entries => do
    let key ← value key
    let item ← value item
    if !key.isKey then throw .changingKey
    return (key, item) :: (← entryValues entries)
  | _ :: _ => throw .noValue

end

/-- Whether it can be assigned to: a name, a member, or a collection of such. -/
def isTarget : Expression → Bool
  | .name _ | .member => true
  | .starred operand => isTarget operand
  | .tuple items | .list items => areTargets items
  | _ => false
where
  areTargets : List Expression → Bool
    | [] => true
    | item :: items => isTarget item && areTargets items

end Expression

end Bytelift.Literal
