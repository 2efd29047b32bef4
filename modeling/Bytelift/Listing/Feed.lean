import Bytelift.Function
import Bytelift.Text.Decode

/-! The lines of a listing as they are handed out. The line handed out last comes once more if it is asked
for again; after the last line comes the end of the listing, once. The wish to see a line again outlives
the listing it was made in, and so do the functions read. -/

namespace Bytelift.Listing

open Text

/-- What reading listings one after the other builds up. -/
structure Catalogue where
  functions : Functions := {}
  /-- Whether the line handed out last is to come again. -/
  again : Bool := false

structure Feed where
  rest : List String
  /-- The line that may still come again. -/
  last : Option String := none
  ended : Bool := false
  catalogue : Catalogue := {}

abbrev FeedM := Run Feed

/-- The lines of a text that are not blank, without the blanks around them. -/
def Feed.ofText (catalogue : Catalogue) (text : String) : Feed :=
  { rest := ((Text.lines text).map strip).filter (!·.isEmpty), catalogue }

/-- More than the number of times that a line can still be handed out. -/
def Feed.bound (feed : Feed) : Nat := 2 * feed.rest.length + 3

namespace FeedM

def setAgain (again : Bool) : FeedM Unit :=
  modify fun s => { s with catalogue := { s.catalogue with again } }

def next : FeedM (Option String) := fun feed =>
  match feed.last, feed.catalogue.again, feed.rest with
  | some line, true, _ =>
    .ok (some line) { feed with last := none, catalogue := { feed.catalogue with again := false } }
  | _, _, line :: rest => .ok (some line) { feed with rest, last := some line }
  | _, _, [] =>
    if feed.ended then .error .exhausted feed
    else .ok none { feed with last := none, ended := true }

def line (fault : Fault) : FeedM String := do Run.need fault (← next)

def seek (test : String → Bool) (fault : Fault) : Nat → FeedM String
  | 0 => throw .endless
  | bound + 1 => do
    let line ← Run.need fault (← next)
    if test line then return line else seek test fault bound

def lineSuchThat (test : String → Bool) (fault : Fault) : FeedM String := do
  seek test fault (← get).bound

end FeedM

end Bytelift.Listing
