/-! Line formats: fixed texts with a gap between each two. A text fits a format as a whole, the fixed
texts matching in either letter case, and each gap taking the fewest characters it can, one at least. -/

namespace Bytelift.Text

/-- Letters that differ only in case fold to one letter, and so do the three letters beyond ASCII whose
other case is an ASCII letter. -/
def foldCase (c : Char) : Char :=
  match c.toNat with
  | 0x130 => 'i'
  | 0x131 => 'i'
  | 0x17f => 's'
  | 0x212a => 'k'
  | _ => c.toLower

/-- What follows a fixed text in either letter case. -/
def afterBlind? : List Char → List Char → Option (List Char)
  | [], s => some s
  | _ :: _, [] => none
  | p :: ps, c :: cs => if foldCase p = foldCase c then afterBlind? ps cs else none

/-- The shortest start, of one character at least, after which the rest is accepted. -/
def shortest {β : Type} (accept : List Char → Option β) : List Char → Option (List Char × β)
  | [] => none
  | c :: cs =>
    match accept cs with
    | some b => some ([c], b)
    | none => (shortest accept cs).map fun (taken, b) => (c :: taken, b)

/-- Fills the gaps of a format, given the fixed text after each of them. -/
def fillGaps : List (List Char) → List Char → Option (List (List Char))
  | [], s => if s.isEmpty then some [] else none
  | fixed :: more, s =>
    (shortest (fun rest => (afterBlind? fixed rest).bind (fillGaps more)) s).map
      fun (taken, others) => taken :: others

/-- A format: its opening text, and the fixed text after each gap. -/
structure Format where
  opening : String
  gaps : List String

/-- Finds what stands in the gaps of a text, if the text fits a format. -/
abbrev Matcher := Format → String → Option (List String)

def Format.fit? : Matcher := fun f s =>
  (afterBlind? f.opening.toList s.toList).bind fun rest =>
    (fillGaps (f.gaps.map String.toList) rest).map (·.map String.ofList)

end Bytelift.Text
