import Bytelift.Text.Quoted

/-! Where lines stand and where jumps go. An offset is a number, or a text as it was written; lines that
stand nowhere have the empty text. Numbers are ordered, and so are texts, but a number and a text stand in
no order: every comparison may come out undecided. -/

namespace Bytelift

inductive Offset where
  | number (n : Int)
  | text (s : String)
  deriving DecidableEq, Repr

namespace Offset

/-- The offset of a line that stands nowhere. -/
def blank : Offset := .text ""

instance : Inhabited Offset := ⟨.blank⟩

instance : Coe Int Offset := ⟨.number⟩

/-- As it stands in a message. -/
def plain : Offset → String
  | .number n => toString n
  | .text s => s

/-- As it is shown among other values, where a text is quoted. -/
def display : Offset → String
  | .number n => toString n
  | .text s => Text.quoteDisplay s

def lt? : Offset → Offset → Option Bool
  | .number a, .number b => some (a < b)
  | .text a, .text b => some (a < b)
  | _, _ => none

def le? (a b : Offset) : Option Bool := (b.lt? a).map (!·)

@[simp] theorem lt?_number (a b : Int) : (number a).lt? (number b) = some (decide (a < b)) := rfl

@[simp] theorem le?_number (a b : Int) : (number a).le? (number b) = some (decide (a ≤ b)) := by
  simp only [le?, lt?_number, Option.map_some]
  by_cases h : a ≤ b
  · simp [h, Int.not_lt.2 h]
  · simp [h, Int.not_le.1 h]

def isNumber : Offset → Bool
  | .number _ => true
  | .text _ => false

/-- Sorts by offsets, which must all be of one kind; equal ones keep their order. -/
def sortBy? {α : Type} (key : α → Offset) (xs : List α) : Option (List α) :=
  if xs.all (fun x => (key x).isNumber) || xs.all (fun x => !(key x).isNumber) then
    some (xs.mergeSort fun a b => ((key a).le? (key b)).getD true)
  else none

def ascending? (offsets : List Offset) : Option (List Offset) := sortBy? id offsets.eraseDups

end Offset

end Bytelift
