import Bytelift.Functions.Declaration

/-! Who uses whom. A function uses another if a line of it that shows calls or mentions the other. -/

namespace Bytelift.Functions

open Text

def showsText (line : CodeLine) : Bool := line.visible && !(strip line.text).isEmpty

/-- The position of the next line, or of the line before, that shows something. -/
def nextShown (code : List CodeLine) (position : Int) (backward : Bool) : Option Nat :=
  let target := if backward then position - 1 else position + 1
  if target < 0 || (code.length : Int) ≤ target then none
  else
    let numbered := code.zipIdx
    let candidates :=
      if backward then (numbered.take (target.toNat + 1)).reverse else numbered.drop target.toNat
    (candidates.find? fun (line, _) => showsText line).map (·.2)

inductive UseKind where
  | call
  | mention
  deriving DecidableEq, Repr

def UseKind.recogniser : UseKind → Recogniser String
  | .call => FunctionName.called
  | .mention => FunctionName.mention

def isVisible (functions : Functions) (key : String) : Bool :=
  (functions.get? key).any (·.visible)

/-- The visible functions that a visible function uses, itself apart. -/
def usedBy (functions : Functions) (key : String) (kind : UseKind) : List String :=
  match functions.get? key with
  | none => []
  | some f =>
    if !f.visible then []
    else
      let names := (f.lines.filter showsText).flatMap fun line => hits kind.recogniser line.text.toList
      (names.filter fun name => name ≠ key && isVisible functions name).eraseDups

abbrev Usage := Table String (List String)

def usage (functions : Functions) (kind : UseKind) : Usage :=
  ⟨functions.entries.filterMap fun (key, f) =>
    if f.visible then some (key, usedBy functions key kind) else none⟩

namespace Usage

def uses (usage : Usage) (name : String) : List String := (usage.get? name).getD []

/-- The functions reached so far, given a pile of functions to visit with their depths. -/
def visit (usage : Usage) (barred : String → Bool) (limit : Option Int) :
    Nat → List (String × Int) → List String → List String
  | _, [], visited => visited
  | 0, _ :: _, visited => visited
  | bound + 1, (name, depth) :: rest, visited =>
    if barred name || visited.contains name || limit.any (· < depth) then
      visit usage barred limit bound rest visited
    else
      let next := if limit = some depth then [] else (usage.uses name).reverse.map (·, depth + 1)
      visit usage barred limit bound (next ++ rest) (visited ++ [name])

/-- Each function is visited once, so the pile grows once for each use. -/
def visitBound (usage : Usage) : Nat := usage.values.flatten.length + 1

/-- The functions that can be reached down to a depth, without entering a barred one. -/
def reach (usage : Usage) (barred : String → Bool) (limit : Option Int) (start : String)
    (depth : Int) : List String :=
  visit usage barred limit usage.visitBound [(start, depth)] []

end Usage

end Bytelift.Functions
