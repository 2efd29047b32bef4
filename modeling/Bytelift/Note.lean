import Bytelift.Fault

/-! Notes: free-form values that other tools attach to functions and lines. -/

namespace Bytelift

inductive Note where
  | none
  | flag (value : Bool)
  | number (value : Int)
  | text (value : String)
  | list (items : List Note)
  | record (fields : List (String × Note))
  deriving Repr, Inhabited

namespace Note

def isVoid : Note → Bool
  | .none => true
  | .flag b => !b
  | .number n => n == 0
  | .text s => s.isEmpty
  | .list items => items.isEmpty
  | .record fields => fields.isEmpty

mutual

def display : Note → String
  | .none => "None"
  | .flag b => if b then "True" else "False"
  | .number n => toString n
  | .text s => Text.quoteDisplay s
  | .list items => "[" ++ ", ".intercalate (displayItems items) ++ "]"
  | .record fields => "\x7b" ++ ", ".intercalate (displayFields fields) ++ "\x7d"

def displayItems : List Note → List String
  | [] => []
  | n :: ns => display n :: displayItems ns

def displayFields : List (String × Note) → List String
  | [] => []
  | (k, n) :: ns => (Text.quoteDisplay k ++ ": " ++ display n) :: displayFields ns

end

def setField (key : String) (value : Note) : List (String × Note) → List (String × Note)
  | [] => [(key, value)]
  | (k, n) :: rest => if k == key then (k, value) :: rest else (k, n) :: setField key value rest

/-- Notes a value under a key. A void note becomes a record first; any other note that is no record has
no keys. -/
def set (note : Note) (key : String) (value : Note) : Except Fault Note :=
  match note with
  | .record fields => .ok (.record (setField key value fields))
  | note => if note.isVoid then .ok (.record [(key, value)]) else .error .unindexedNote

def get? (note : Note) (key : String) : Option Note :=
  match note with
  | .record fields => fields.lookup key
  | _ => Option.none

/-- Drops what is noted under a key, and says whether there was anything. -/
def drop (note : Note) (key : String) : Bool × Note :=
  match note with
  | .record fields =>
    if (fields.lookup key).isSome then (true, .record (fields.filter fun f => f.1 != key))
    else (false, note)
  | _ => (false, note)

end Note

end Bytelift
