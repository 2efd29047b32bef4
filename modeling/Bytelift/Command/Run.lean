import Bytelift.Command.Line
import Bytelift.Disassembler
import Bytelift.Functions.Display
import Bytelift.Listing.Session
import Bytelift.Tree

/-! The command: it reads functions from a compiled file, a listing or an archive, decompiles them, and
displays or writes them. -/

namespace Bytelift.Command

open Text

def given (option : Option String) : Option String := option.filter (!·.isEmpty)

/-- The names that a file lists, one a line. Blank lines and lines that open with a number sign do not
count; a file that is missing lists nothing. -/
def nameList (files : Files) (path : String) : Except Fault (Option (List String)) :=
  match files.readStrict path with
  | .ok text =>
    .ok (some (((Text.lines text).map strip).filter fun line =>
      !line.isEmpty && !opensWith line "#").eraseDups)
  | .error (.noSuchFile _) => .ok none
  | .error fault => .error fault

/-- The names that an option asks for, told on the console if there are any. -/
def namesGiven (title : String) (option : Option String) : WorkM (Option (List String)) := do
  match given option with
  | none => return none
  | some path =>
    let names ← Run.ofExcept (nameList (← get).files path)
    match names with
    | some (first :: rest) => say s!"{title}: {(first :: rest).length} functions"
    | _ => pure ()
    return names

def openArchive (files : Files) (path : String) : Except Fault Functions := do
  let text ← match files.readStrict path with
    | .error (.undecodable _) => throw (.notAnArchive path)
    | text => text
  match Archive.decode? text with
  | some functions => return functions
  | none => throw (if text.isEmpty then .emptyArchive path else .notAnArchive path)

def disassembly : String := "disasm.tmp"

def decompile (functions : Functions) : WorkM Functions :=
  Run.on (fun s => ({ console := s.console } : Desk)) (fun s desk => { s with console := desk.console })
    (decompileAll functions)

/-- Reads the functions, and decompiles them unless they come from an archive. -/
def load (fit : Matcher) (home : String) (options : Options) : WorkM Functions := do
  match options.inputKind with
  | .archive =>
    say s!"Reading from serialized, already decompiled input: {options.input}"
    Run.ofExcept (openArchive (← get).files options.input)
  | .listing =>
    let text ← Run.ofExcept ((← get).files.readLenient options.input)
    decompile (← readListing fit text)
  | .raw =>
    Disassembler.disassemble home options.input disassembly options.disassembler
    let text ← Run.ofExcept ((← get).files.readLenient disassembly)
    decompile (← readListing fit text)

def displayNamed (functions : Functions) (name : String) (showAll : Bool) : WorkM Unit := do
  let found := functions.find name
  if !found.contains name then
    say s!"Function {name} was not found. Found {found.size} similar names."
    sayAll found.keys
  found.display { hidden := showAll }

def usageFor (functions : Functions) : TreeKind → Option Functions.Usage
  | .declarations => none
  | .calls => some (functions.usage .call)
  | .mentions => some (functions.usage .mention)

def branchesFor (functions : Functions) (usage : Option Functions.Usage) (options : Options)
    (root : String) : WorkM (Option Branches) :=
  match usage with
  | none => Branches.ofDeclarations functions root
  | some usage => return Branches.ofUsage functions usage (some options.treeDepth) root

def layoutFor (options : Options) : Tree.Layout :=
  match options.treeKind with
  | .declarations => { limit := options.branchLimit, depth := 0, withBranches := false }
  | _ => { limit := options.branchLimit, depth := options.depth, withBranches := 1 ≤ options.depth }

/-- Writes a tree of functions. Says whether that is all there is to do. -/
def writeTree (functions : Functions) (options : Options) (excluded : Option (List String))
    (tree : String) : WorkM Bool := do
  let usage := usageFor functions options.treeKind
  match if tree = "start" then given functions.start else some tree with
  | none =>
    say "Error: tree root function not found."
    return true
  | some root =>
    match ← branchesFor functions usage options root with
    | none =>
      say s!"Error: could not build tree from root '{root}'."
      return true
    | some branches =>
      match given options.output with
      | none => return false
      | some directory =>
        Tree.save functions usage root (layoutFor options) branches directory options.forms excluded
        say "Done."
        return true

def execute (fit : Matcher) (home : String) (options : Options) : WorkM Unit := do
  if !(← get).files.isFile options.input then throw (.noInputFile options.input)
  let included ← namesGiven "Include" options.included
  let excluded ← namesGiven "Exclude" options.excluded
  let loaded ← load fit home options
  let functions ←
    if options.scope = 0 then pure loaded
    else do
      say "Propagating scope arguments..."
      let (_, functions) ← propagateSlots options.verbosity loaded
      pure functions
  match given options.function with
  | some name => displayNamed functions name options.showAll
  | none =>
    let finished ← match given options.tree with
      | some tree => writeTree functions options excluded tree
      | none => pure false
    if !finished then
      match given options.output with
      | some path => Export.run path functions options.forms { included, excluded }
      | none => pure ()
      say "Done."

/-- How a command ended: its status, and what it complains of. -/
structure Outcome where
  status : Nat := 0
  complaint : String := ""
  deriving DecidableEq, Repr

/-- Carries out a command line. `fit` reads the lines of listings, `program` is the name that the command
goes by, and `home` the directory it is installed in. -/
def run (fit : Matcher) (program home : String) (arguments : List String) : WorkM Outcome := do
  match read arguments with
  | .error .help => return {}
  | .error (.misuse m) => return { status := 2, complaint := program ++ ": error: " ++ m.message }
  | .ok options =>
    execute fit home options
    return {}

end Bytelift.Command
