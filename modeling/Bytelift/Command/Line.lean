import Bytelift.Command.Options

/-! Reading a command line. First every argument is told to be an option or not, then each option takes
the arguments after it that it needs; what is left over is refused in the end. -/

namespace Bytelift.Command

open Text

/-- What is attached to the name of an option, with or without a sign `=` between. -/
structure Attached where
  bySign : Bool
  text : String
  deriving DecidableEq, Repr

inductive Word where
  | plain (text : String)
  /-- The mark after which no argument is an option. -/
  | divider
  | option (key : Key) (name : String) (attached : Option Attached)
  /-- What looks like an option but is none. -/
  | unknown (text : String)
  deriving DecidableEq, Repr

/-- Whether a text is a negative number. One line feed at its end does not matter. -/
def isNegativeNumber (s : List Char) : Bool :=
  match s with
  | '-' :: rest =>
    let rest := if rest.getLast? = some '\n' then rest.dropLast else rest
    let whole := rest.takeWhile isDecimal
    match rest.dropWhile isDecimal with
    | [] => !whole.isEmpty
    | '.' :: digits => !digits.isEmpty && digits.all isDecimal
    | _ => false
  | _ => false

/-- The options that a shortened name may stand for, with what is attached. -/
def candidates (argument : String) : List (String × Key × Option Attached) :=
  if opensWith argument "--" then
    let (name, attached) := match cutAt? argument "=" with
      | some (name, text) => (name, some ⟨true, text⟩)
      | none => (argument, none)
    Key.table.filterMap fun (full, key) =>
      if opensWith full name then some (full, key, attached) else none
  else
    let name := String.ofList (argument.toList.take 2)
    Key.table.filterMap fun (full, key) =>
      if full = name then some (full, key, some ⟨false, String.ofList (argument.toList.drop 2)⟩)
      else if opensWith full argument then some (full, key, none)
      else none

/-- An argument whose name is given in full, with or without something attached. -/
def exactWord? (argument : String) : Option Word :=
  match Key.ofName? argument with
  | some key => some (.option key argument none)
  | none =>
    (cutAt? argument "=").bind fun (name, text) =>
      (Key.ofName? name).map fun key => .option key name (some ⟨true, text⟩)

def dashedWord (argument : String) : Except Stop Word :=
  if argument = "-" then .ok (.plain argument)
  else match exactWord? argument, candidates argument with
    | some word, _ => .ok word
    | none, [(name, key, attached)] => .ok (.option key name attached)
    | none, [] =>
      if isNegativeNumber argument.toList || has argument " " then .ok (.plain argument)
      else .ok (.unknown argument)
    | none, several => .error (.misuse (.ambiguous argument (several.map (·.1))))

def words : List String → Except Stop (List Word)
  | [] => .ok []
  | argument :: rest =>
    if argument = "--" then .ok (.divider :: rest.map .plain)
    else do
      let word ← if opensWith argument "-" then dashedWord argument else .ok (.plain argument)
      return word :: (← words rest)

/-- The plain words up to the next other word, and each other word with the plain words after it. -/
def group : List Word → List String × List (Word × List String)
  | [] => ([], [])
  | .plain text :: rest =>
    let (texts, groups) := group rest
    (text :: texts, groups)
  | word :: rest =>
    let (texts, groups) := group rest
    ([], (word, texts) :: groups)

/-- The arguments that an option takes from those after it, and those it leaves. -/
def takeArguments (key : Key) (after : List String) : Except Stop (List String × List String) :=
  match key.arity, after with
  | .none, _ => .ok ([], after)
  | _, [] => .error (.misuse (.argumentMissing key))
  | .one, argument :: rest => .ok ([argument], rest)
  | .some, _ => .ok (after, [])

/-- Checks that what is attached to an option without arguments is more options of one letter, the last of
which may have arguments of its own. -/
def checkBundle (after : List String) : Key → List Char → Except Stop Unit
  | _, [] => .ok ()
  | key, c :: rest =>
    if c = '-' then .error (.misuse (.argumentRefused key (String.ofList (c :: rest))))
    else match Key.ofName? (String.ofList ['-', c]) with
      | none => .ok ()
      | some next =>
        match next.arity, rest with
        | _, [] => (takeArguments next after).map fun _ => ()
        | .none, '=' :: text => .error (.misuse (.argumentRefused next (String.ofList text)))
        | .none, _ => checkBundle after next rest
        | _, _ => .ok ()

/-- Carries out an option, and says which of the words after it are left over. -/
def apply (key : Key) (name : String) (attached : Option Attached) (after : List String)
    (options : Options) : Except Stop (Options × List String) := do
  match attached with
  | none =>
    let (taken, left) ← takeArguments key after
    return (← set key taken options, left)
  | some ⟨bySign, text⟩ =>
    if key.arity ≠ .none then return (← set key [text] options, after)
    else if bySign || opensWith name "--" || text.isEmpty then
      throw (.misuse (.argumentRefused key text))
    else
      checkBundle after key text.toList
      return (← set key [] options, after)

structure Progress where
  options : Options := {}
  inputGiven : Bool := false
  left : List String := []

def stepGroup (progress : Progress) (entry : Word × List String) : Except Stop Progress := do
  let (word, after) := entry
  match word with
  | .plain text => return { progress with left := progress.left ++ text :: after }
  | .divider => return { progress with left := progress.left ++ "--" :: after }
  | .unknown text => return { progress with left := progress.left ++ text :: after }
  | .option key name attached =>
    let (options, left) ← apply key name attached after progress.options
    return { options, inputGiven := progress.inputGiven || key == .input,
             left := progress.left ++ left }

def stepGroups : Progress → List (Word × List String) → Except Stop Progress
  | progress, [] => .ok progress
  | progress, entry :: rest => do stepGroups (← stepGroup progress entry) rest

def checkTree (options : Options) : Except Stop Unit :=
  if !options.tree.any (!·.isEmpty) then .ok ()
  else if options.depth < 0 then .error (.misuse .negativeDepth)
  else if options.branchLimit < 0 then .error (.misuse .negativeLimit)
  else if options.treeDepth < 1 then .error (.misuse .shallowTree)
  else if options.treeKind = .declarations && options.depth ≠ 0 then
    .error (.misuse .depthOfDeclarations)
  else .ok ()

def read (arguments : List String) : Except Stop Options := do
  let (first, groups) := group (← words arguments)
  let progress ← stepGroups { left := first } groups
  if !progress.inputGiven then throw (.misuse .inputMissing)
  if !progress.left.isEmpty then throw (.misuse (.unrecognised progress.left))
  checkTree progress.options
  return progress.options

end Bytelift.Command
