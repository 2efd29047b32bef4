/-! Character classes as run lengths: by turns how many code points are outside of a class and how many inside.
The classes decide ASCII by themselves, so text in ASCII never reaches a table. -/

namespace Bytelift.Text

/-- Whether a code point lies in one of the runs inside. -/
def inRuns (runs : List Nat) (code : Nat) : Bool := go false runs code
where
  go (inside : Bool) : List Nat → Nat → Bool
    | [], _ => false
    | run :: runs, code => if code < run then inside else go (!inside) runs (code - run)

end Bytelift.Text
