import Bytelift.Note

/-! A line of code on its way from instruction to pseudocode. -/

namespace Bytelift

structure CodeLine where
  /-- Where the instruction stands; lines that structuring adds stand nowhere. -/
  offset : Offset := .blank
  opcode : String := ""
  instruction : String := ""
  /-- The instruction as a statement over the accumulator and the registers. -/
  rendered : String := ""
  /-- The statement with the known values put in. -/
  text : String := ""
  visible : Bool := true
  note : Note := .none
  deriving Repr, Inhabited

namespace CodeLine

def added (rendered : String) : CodeLine := { rendered }

/-- Whether the line shows in the output: visible, and not blank. -/
def shows (line : CodeLine) : Bool := line.visible && !line.text.isEmpty

end CodeLine

end Bytelift
