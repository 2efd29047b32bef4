import Bytelift.Function

/-! Who declares whom. Each function but a root has one declarer, so without a cycle the functions that one
declares, directly or not, form a tree, and a walk through it is bounded by the number of functions. -/

namespace Bytelift.Functions

open Text

def isRoot (f : Option Function) : Bool := f.any fun f => f.declarer.isNone

/-- The key of the first root. A key without a function ends the search. -/
def startAmong : List (String × Option Function) → Option String
  | [] => none
  | (_, none) :: _ => none
  | (key, some f) :: rest => if f.declarer.isNone then some key else startAmong rest

def start (functions : Functions) : Option String :=
  startAmong (functions.entries.map fun (key, f) => (key, some f))

def declaredBy (functions : Functions) (declarer : String) : List String :=
  functions.entries.filterMap fun (key, f) => if f.declarer = some declarer then some key else none

/-- The declared functions by declarer. A declarer without a name counts as none. -/
def declarations (functions : Functions) : Table String (List String) :=
  functions.entries.foldl (fun table (key, f) =>
    match f.declarer with
    | none => table
    | some declarer =>
      if declarer.isEmpty then table
      else table.put declarer ((table.get? declarer).getD [] ++ [key])) {}

/-- What is to be visited after a function was taken off the pile: what it declares comes first, the last
declared foremost. -/
def pile (declared : Table String (List String)) (name : String) (rest : List String) :
    List String :=
  ((declared.get? name).getD []).reverse ++ rest

/-- No fewer than the visits that a walk from the names takes if declarers form no cycle. -/
def walkBound (functions : Functions) (names : List String) : Nat :=
  names.length * (functions.size + 1)

def gather (functions : Functions) (declared : Table String (List String)) :
    Nat → List String → Functions → Except Fault Functions
  | _, [], found => .ok found
  | 0, _ :: _, _ => .error .endless
  | bound + 1, name :: rest, found =>
    match functions.get? name with
    | none => .error (.unknownFunction name)
    | some f => gather functions declared bound (pile declared name rest) (found.put name f)

/-- The named functions and all that they declare, directly or not. -/
def included (functions : Functions) (names : List String) : Except Fault Functions :=
  gather functions functions.declarations (walkBound functions names) names.reverse {}

def discard (declared : Table String (List String)) :
    Nat → List String → Nat → Functions → Except Fault (Nat × Functions)
  | _, [], count, left => .ok (count, left)
  | 0, _ :: _, _, _ => .error .endless
  | bound + 1, name :: rest, count, left =>
    discard declared bound (pile declared name rest) (count + 1) (left.erase name)

/-- The functions without the named ones and all that these declare, and how many names that were. -/
def without (functions : Functions) (names : List String) : Except Fault (Nat × Functions) :=
  discard functions.declarations (walkBound functions names) names.reverse 0 functions

/-- The functions under a name: the one of that very name, or else all whose label holds it. -/
def find (functions : Functions) (name : String) : Functions :=
  match functions.get? name with
  | some f => ⟨[(name, f)]⟩
  | none => ⟨functions.entries.filter fun (key, _) => has key ("_" ++ name ++ "_")⟩

end Bytelift.Functions
