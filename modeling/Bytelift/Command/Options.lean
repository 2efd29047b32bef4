import Bytelift.Export

/-! The options of the command line. -/

namespace Bytelift.Command

open Text

inductive InputKind where
  | raw
  | archive
  | listing
  deriving DecidableEq, Repr

inductive TreeKind where
  | declarations
  | calls
  | mentions
  deriving DecidableEq, Repr

structure Options where
  inputKind : InputKind := .raw
  input : String := ""
  output : Option String := none
  disassembler : Option String := none
  forms : List OutputForm := [.pseudocode]
  scope : Int := 1
  tree : Option String := none
  branchLimit : Int := 1
  depth : Int := 0
  treeDepth : Int := 4
  treeKind : TreeKind := .declarations
  included : Option String := none
  excluded : Option String := none
  function : Option String := none
  showAll : Bool := false
  verbosity : Int := 0
  deriving Repr

inductive Key where
  | help
  | inputKind
  | input
  | output
  | disassembler
  | forms
  | scope
  | tree
  | branchLimit
  | depth
  | treeDepth
  | treeKind
  | included
  | excluded
  | function
  | showAll
  | verbosity
  deriving DecidableEq, Repr

namespace Key

def all : List Key :=
  [.help, .inputKind, .input, .output, .disassembler, .forms, .scope, .tree, .branchLimit, .depth,
    .treeDepth, .treeKind, .included, .excluded, .function, .showAll, .verbosity]

def names : Key → List String
  | .help => ["-h", "--help"]
  | .inputKind => ["--input_format", "-f"]
  | .input => ["--inp", "-i"]
  | .output => ["--out", "-o"]
  | .disassembler => ["--path", "-p"]
  | .forms => ["--export_format", "-e"]
  | .scope => ["--scope"]
  | .tree => ["--tree", "-t"]
  | .branchLimit => ["--inline_branch_limit", "-l"]
  | .depth => ["--inline_depth", "-d"]
  | .treeDepth => ["--split_depth"]
  | .treeKind => ["--split_mode"]
  | .included => ["--include", "-n"]
  | .excluded => ["--exclude", "-x"]
  | .function => ["--func"]
  | .showAll => ["--show_all"]
  | .verbosity => ["--verbosity", "-v"]

def title (key : Key) : String := "/".intercalate key.names

def table : List (String × Key) := all.flatMap fun key => key.names.map (·, key)

def ofName? (name : String) : Option Key := table.lookup name

end Key

inductive Arity where
  | none
  | one
  | some
  deriving DecidableEq, Repr

def Key.arity : Key → Arity
  | .help | .showAll => .none
  | .forms => .some
  | _ => .one

inductive Misuse where
  | ambiguous (argument : String) (candidates : List String)
  | argumentMissing (key : Key)
  | argumentRefused (key : Key) (argument : String)
  | notANumber (key : Key) (argument : String)
  | notAChoice (key : Key) (argument : String) (choices : List String)
  | inputMissing
  | unrecognised (arguments : List String)
  | negativeDepth
  | negativeLimit
  | shallowTree
  | depthOfDeclarations
  deriving DecidableEq, Repr

def Misuse.message : Misuse → String
  | .ambiguous argument candidates =>
    "ambiguous option: " ++ argument ++ " could match " ++ ", ".intercalate candidates
  | .argumentMissing key =>
    "argument " ++ key.title ++
      (if key.arity = .some then ": expected at least one argument" else ": expected one argument")
  | .argumentRefused key argument =>
    "argument " ++ key.title ++ ": ignored explicit argument " ++ quoteDisplay argument
  | .notANumber key argument =>
    "argument " ++ key.title ++ ": invalid int value: " ++ quoteDisplay argument
  | .notAChoice key argument choices =>
    "argument " ++ key.title ++ ": invalid choice: " ++ quoteDisplay argument ++ " (choose from " ++
      ", ".intercalate (choices.map quoteDisplay) ++ ")"
  | .inputMissing => "the following arguments are required: " ++ Key.input.title
  | .unrecognised arguments => "unrecognized arguments: " ++ " ".intercalate arguments
  | .negativeDepth => "--inline_depth must be non-negative"
  | .negativeLimit => "--inline_branch_limit must be non-negative"
  | .shallowTree => "--split_depth must be at least 1"
  | .depthOfDeclarations => "--inline_depth is only supported with --split_mode calls/references"

inductive Stop where
  | help
  | misuse (m : Misuse)
  deriving DecidableEq, Repr

/-! ## Values -/

def inputKinds : List (String × InputKind) :=
  [("raw", .raw), ("serialized", .archive), ("disassembled", .listing)]

def treeKinds : List (String × TreeKind) :=
  [("declarers", .declarations), ("calls", .calls), ("references", .mentions)]

def formChoices : List (String × OutputForm) := OutputForm.named.map fun form => (form.label, form)

def choose {α : Type} (key : Key) (choices : List (String × α)) (argument : String) :
    Except Stop α :=
  match choices.lookup argument with
  | some a => .ok a
  | none => .error (.misuse (.notAChoice key argument (choices.map (·.1))))

def chooseAll {α : Type} (key : Key) (choices : List (String × α)) :
    List String → Except Stop (List α)
  | [] => .ok []
  | argument :: rest => do
    let a ← choose key choices argument
    return a :: (← chooseAll key choices rest)

def readNumber (key : Key) (argument : String) : Except Stop Int :=
  match readInt? argument with
  | some n => .ok n
  | none => .error (.misuse (.notANumber key argument))

def setOne (key : Key) (argument : String) (options : Options) : Except Stop Options := do
  match key with
  | .inputKind => return { options with inputKind := ← choose key inputKinds argument }
  | .input => return { options with input := argument }
  | .output => return { options with output := some argument }
  | .disassembler => return { options with disassembler := some argument }
  | .scope => return { options with scope := ← readNumber key argument }
  | .tree => return { options with tree := some argument }
  | .branchLimit => return { options with branchLimit := ← readNumber key argument }
  | .depth => return { options with depth := ← readNumber key argument }
  | .treeDepth => return { options with treeDepth := ← readNumber key argument }
  | .treeKind => return { options with treeKind := ← choose key treeKinds argument }
  | .included => return { options with included := some argument }
  | .excluded => return { options with excluded := some argument }
  | .function => return { options with function := some argument }
  | .verbosity => return { options with verbosity := ← readNumber key argument }
  | .help | .forms | .showAll => return options

def set (key : Key) (arguments : List String) (options : Options) : Except Stop Options := do
  match key.arity, arguments with
  | .none, _ => if key = .help then throw .help else return { options with showAll := true }
  | .some, _ => return { options with forms := ← chooseAll key formChoices arguments }
  | .one, argument :: _ => setOne key argument options
  | .one, [] => throw (.misuse (.argumentMissing key))

end Bytelift.Command
