import Bytelift.Listing.Read

/-! Reading the listing of a program, from the start and with a word on the console. -/

namespace Bytelift

def readListing {σ : Type} [HasConsole σ] (fit : Text.Matcher) (text : String) : Run σ Functions := do
  say "Parsing disassembled file."
  match Listing.read fit text {} with
  | .error fault _ => throw fault
  | .ok _ catalogue =>
    say "Parsing completed successfully."
    return catalogue.functions

end Bytelift
