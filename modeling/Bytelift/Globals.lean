import Bytelift.FunctionName
import Bytelift.Table

/-! The global names that a program declares: strings, and functions by their labels. -/

namespace Bytelift

open Text

/-- Nothing has been declared of a kind until a declaration names one. -/
structure Globals where
  strings : Option (List String) := none
  functions : Option (Table String String) := none
  deriving DecidableEq, Repr, Inhabited

namespace Globals

/-- The text up to the closing quote, and what is left. A backslash takes the next character with it. -/
def quotedRest? : List Char → Option (List Char × List Char)
  | [] => none
  | '"' :: rest => some ([], rest)
  | '\\' :: c :: rest =>
    if c = '\n' then none
    else (quotedRest? rest).map fun (text, rest) => ('\\' :: c :: text, rest)
  | c :: rest =>
    if c = '\\' then none else (quotedRest? rest).map fun (text, rest) => (c :: text, rest)

/-- A quoted text, by what stands between the quotes. -/
def quoted : Recogniser String := fun _ s =>
  (after? ['"'] s).bind fun rest =>
    (quotedRest? rest).map fun (text, rest) => (String.ofList text, rest)

/-- Adds the names that a declaration lists, and says whether it lists any. -/
def declare (g : Globals) (declaration : String) : Bool × Globals :=
  let strings := hits quoted declaration.toList
  let functions := hits FunctionName.fullName declaration.toList
  let g := if strings.isEmpty then g
    else { g with strings := some ((g.strings.getD [] ++ strings).eraseDups) }
  let g := if functions.isEmpty then g
    else { g with functions := some ((g.functions.getD {}).putAll
      (functions.map fun (full, label) => (label, full))) }
  (!strings.isEmpty || !functions.isEmpty, g)

def isFilled (g : Globals) : Bool :=
  g.strings.any (!·.isEmpty) || g.functions.any (!·.isEmpty)

def hasString (g : Globals) (text : String) : Bool :=
  g.strings.any fun strings => strings.contains text || strings.contains (stripQuotes text)

def has (g : Globals) (text : String) : Bool :=
  g.hasString text || g.functions.any (·.contains text)

def resolve (g : Globals) (constant : String) : Option String :=
  if !(opensWith constant "\"" && closesWith constant "\"") then none
  else if g.hasString constant then some ("global_" ++ stripQuotes constant)
  else g.functions.bind (·.get? (stripQuotes constant))

end Globals

end Bytelift
