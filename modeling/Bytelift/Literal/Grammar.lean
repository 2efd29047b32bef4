import Bytelift.Literal.Expression
import Bytelift.Literal.Token

/-! The grammar of expressions. Every reader takes an expression off the front of the tokens. What lies
inside an expression is read by a given reader, and only after at least one token has been taken, so the
number of tokens bounds both the nesting and every repetition. -/

namespace Bytelift.Literal.Expression

open Token

inductive Level where
  /-- Everything: conditionals and functions too. -/
  | whole
  /-- No looser than a choice between alternatives. -/
  | choice
  /-- No looser than arithmetic. -/
  | arithmetic
  | attached
  deriving DecidableEq, Repr

abbrev Reader := List Token → Option (Expression × List Token)

/-- What is left after a reader; the expression itself does not matter. -/
def skip (read : Reader) (tokens : List Token) : Option (List Token) := (read tokens).map (·.2)

def expect (m : String) : List Token → Option (List Token)
  | .mark k :: rest => if k == m then some rest else none
  | _ => none

def startsClause : List Token → Bool
  | .keyword k :: _ => k == "for" || k == "async"
  | _ => false

section

variable (inner : Level → Reader)

/-- A whole expression, or one that is given a name on the way. -/
def named : Reader
  | .name _ :: .mark ":=" :: rest => (inner .whole rest).map fun (_, rest) => (.other, rest)
  | tokens => inner .whole tokens

def item : Reader
  | .mark "*" :: rest => (inner .arithmetic rest).map fun (e, rest) => (.starred e, rest)
  | tokens => named inner tokens

/-- Items up to a closing bracket; a comma may follow the last one. -/
def items (read : Reader) (closing : String) : Nat → List Token → Option (List Expression × List Token)
  | 0, _ => none
  | bound + 1, tokens =>
    match expect closing tokens with
    | some rest => some ([], rest)
    | none => do
      let (first, rest) ← read tokens
      match expect "," rest with
      | some rest => do
        let (more, rest) ← items read closing bound rest
        some (first :: more, rest)
      | none => do
        let rest ← expect closing rest
        some ([first], rest)

/-! ## Comprehensions -/

def targets : Nat → List Token → Option (List Token)
  | 0, _ => none
  | bound + 1, tokens => do
    let (target, rest) ← inner .attached ((expect "*" tokens).getD tokens)
    if !target.isTarget then none
    else match rest with
      | .keyword "in" :: rest => some rest
      | .mark "," :: .keyword "in" :: rest => some rest
      | .mark "," :: rest => targets bound rest
      | _ => none

def conditions : Nat → List Token → Option (List Token)
  | 0, _ => none
  | bound + 1, .keyword "if" :: rest => do
    let rest ← skip (inner .choice) rest
    conditions bound rest
  | _, tokens => some tokens

def clauses : Nat → List Token → Option (List Token)
  | 0, _ => none
  | bound + 1, tokens => do
    let rest ←
      match tokens with
      | .keyword "async" :: .keyword "for" :: rest => some rest
      | .keyword "for" :: rest => some rest
      | _ => none
    let rest ← targets inner bound rest
    let rest ← skip (inner .choice) rest
    let rest ← conditions inner bound rest
    if startsClause rest then clauses bound rest else some rest

def comprehension (bound : Nat) (closing : String) (tokens : List Token) :
    Option (Expression × List Token) := do
  let rest ← clauses inner bound tokens
  let rest ← expect closing rest
  some (.other, rest)

/-! ## Brackets -/

def isStarred : Expression → Bool
  | .starred _ => true
  | _ => false

/-- What follows the first item of a collection: clauses that make it a comprehension, further items,
or the closing bracket. -/
def collected (bound : Nat) (closing : String) (make : List Expression → Expression)
    (single : Expression → Option Expression) (first : Expression) (rest : List Token) :
    Option (Expression × List Token) :=
  if startsClause rest then
    if isStarred first then none else comprehension inner bound closing rest
  else match expect "," rest with
    | some rest => do
      let (more, rest) ← items (item inner) closing bound rest
      some (make (first :: more), rest)
    | none => do
      let rest ← expect closing rest
      let e ← single first
      some (e, rest)

def yielded (bound : Nat) : List Token → Option (List Token)
  | .keyword "from" :: rest => do
    let rest ← skip (inner .whole) rest
    expect ")" rest
  | tokens => (items plainItem ")" bound tokens).map (·.2)
where
  plainItem : Reader
    | .mark "*" :: rest => inner .arithmetic rest
    | tokens => inner .whole tokens

/-- After a round bracket: nothing, a single expression, or a tuple. -/
def rounded (bound : Nat) (tokens : List Token) : Option (Expression × List Token) :=
  match tokens with
  | .mark ")" :: rest => some (.tuple [], rest)
  | .keyword "yield" :: rest => (yielded inner bound rest).map (Expression.other, ·)
  | _ => do
    let (first, rest) ← item inner tokens
    collected inner bound ")" .tuple (fun e => if isStarred e then none else some e) first rest

def squared (bound : Nat) (tokens : List Token) : Option (Expression × List Token) :=
  match expect "]" tokens with
  | some rest => some (.list [], rest)
  | none => do
    let (first, rest) ← item inner tokens
    collected inner bound "]" .list (fun e => some (.list [e])) first rest

/-- An entry of a table; two stars stand before a table whose entries are taken over. -/
def tableEntry : Reader
  | .mark "**" :: rest => (inner .arithmetic rest).map fun (_, rest) => (.other, rest)
  | tokens => do
    let (key, rest) ← inner .whole tokens
    let rest ← expect ":" rest
    let (value, rest) ← inner .whole rest
    some (.entry key value, rest)

/-- After a curly bracket: a table or a set. The first expression is followed by a colon in a table. -/
def curled (bound : Nat) (tokens : List Token) : Option (Expression × List Token) :=
  match tokens with
  | .mark "\x7d" :: rest => some (.table [], rest)
  | .mark "**" :: _ => tableOf tokens
  | .mark "*" :: _ | .name _ :: .mark ":=" :: _ => do
    let (first, rest) ← item inner tokens
    setOf first rest
  | _ => do
    let (first, rest) ← inner .whole tokens
    match expect ":" rest with
    | none => setOf first rest
    | some rest => do
      let (value, rest) ← inner .whole rest
      if startsClause rest then comprehension inner bound "\x7d" rest
      else match expect "," rest with
        | some rest => do
          let (more, rest) ← items (tableEntry inner) "\x7d" bound rest
          some (.table (.entry first value :: more), rest)
        | none => do
          let rest ← expect "\x7d" rest
          some (.table [.entry first value], rest)
where
  tableOf (tokens : List Token) : Option (Expression × List Token) :=
    (items (tableEntry inner) "\x7d" bound tokens).map fun (entries, rest) => (.table entries, rest)
  setOf (first : Expression) (rest : List Token) : Option (Expression × List Token) :=
    collected inner bound "\x7d" .set (fun e => some (.set [e])) first rest

/-! ## Attachments -/

/-- What has been seen of the arguments of a call. Plain ones come first, and no items of a collection
after the entries of a table. -/
inductive ArgumentStage where
  | first
  | plain
  | named
  | entries
  deriving DecidableEq, Repr

def arguments : Nat → ArgumentStage → List Token → Option (List Token)
  | 0, _, _ => none
  | bound + 1, stage, tokens =>
    let next (stage : ArgumentStage) (rest : List Token) : Option (List Token) :=
      match expect "," rest with
      | some rest => arguments bound stage rest
      | none => expect ")" rest
    match tokens with
    | .mark ")" :: rest => some rest
    | .mark "**" :: rest => do
      let rest ← skip (inner .whole) rest
      next .entries rest
    | .mark "*" :: rest =>
      if stage = .entries then none
      else do
        let rest ← skip (inner .whole) rest
        next (if stage = .named then .named else .plain) rest
    | .name _ :: .mark "=" :: rest => do
      let rest ← skip (inner .whole) rest
      next (if stage = .entries then .entries else .named) rest
    | _ =>
      if stage = .named || stage = .entries then none
      else do
        let rest ← skip (named inner) tokens
        if stage = .first && startsClause rest then
          (comprehension inner bound ")" rest).map (·.2)
        else next .plain rest

/-- A whole expression, or nothing before a mark that goes on. -/
def bound? : List Token → Option (List Token)
  | .mark m :: rest =>
    if m == ":" || m == "," || m == "]" then some (.mark m :: rest)
    else skip (inner .whole) (.mark m :: rest)
  | tokens => skip (inner .whole) tokens

/-- A key in square brackets, or the bounds of a range and its step. -/
def key : List Token → Option (List Token)
  | .mark "*" :: rest => skip (inner .whole) rest
  | .name n :: .mark ":=" :: rest => skip (named inner) (.name n :: .mark ":=" :: rest)
  | tokens => do
    let rest ←
      match tokens with
      | .mark ":" :: _ => some tokens
      | _ => skip (inner .whole) tokens
    match expect ":" rest with
    | none => some rest
    | some rest => do
      let rest ← bound? inner rest
      match expect ":" rest with
      | none => some rest
      | some rest => bound? inner rest

def keys : Nat → List Token → Option (List Token)
  | 0, _ => none
  | bound + 1, tokens => do
    let rest ← key inner tokens
    match rest with
    | .mark "," :: .mark "]" :: rest => some rest
    | .mark "," :: rest => keys bound rest
    | _ => expect "]" rest

/-- Whatever is attached to an expression: members, keys and calls. -/
def attachments : Nat → Expression → List Token → Option (Expression × List Token)
  | 0, _, _ => none
  | bound + 1, e, tokens =>
    match tokens with
    | .mark "." :: .name _ :: rest => attachments bound .member rest
    | .mark "." :: _ => none
    | .mark "[" :: rest => do
      let rest ← keys inner bound rest
      attachments bound .member rest
    | .mark "(" :: .mark ")" :: rest =>
      match e with
      | .name "set" => attachments bound .emptySet rest
      | _ => attachments bound .other rest
    | .mark "(" :: rest => do
      let rest ← arguments inner bound .first rest
      attachments bound .other rest
    | _ => some (e, tokens)

/-! ## Functions -/

inductive ParameterStage where
  /-- Parameters by position: whether there are any, whether one has a default, and whether the mark
  after those that have no name was met. -/
  | positional (any defaulted marked : Bool)
  /-- A star that no name follows, so that a parameter must. -/
  | bareStar
  | byName
  | closed
  deriving DecidableEq, Repr

/-- The stage after a parameter with or without a default, if there may be one. -/
def ParameterStage.parameter? (defaulted : Bool) : ParameterStage → Option ParameterStage
  | .positional _ before marked =>
    if before && !defaulted then none else some (.positional true (before || defaulted) marked)
  | .bareStar | .byName => some .byName
  | .closed => none

def parameters : Nat → ParameterStage → List Token → Option (List Token)
  | 0, _, _ => none
  | bound + 1, stage, tokens =>
    let next (stage : ParameterStage) (rest : List Token) : Option (List Token) :=
      match expect "," rest with
      | some rest => parameters bound stage rest
      | none => if stage = .bareStar then none else expect ":" rest
    match tokens with
    | .mark ":" :: rest => if stage = .bareStar then none else some rest
    | .mark "/" :: rest =>
      match stage with
      | .positional true defaulted false => next (.positional true defaulted true) rest
      | _ => none
    | .mark "*" :: rest =>
      match stage, rest with
      | .positional _ _ _, .name _ :: rest => next .byName rest
      | .positional _ _ _, _ => next .bareStar rest
      | _, _ => none
    | .mark "**" :: .name _ :: rest =>
      if stage = .bareStar || stage = .closed then none else next .closed rest
    | .name _ :: .mark "=" :: rest => do
      let stage ← stage.parameter? true
      let rest ← skip (inner .whole) rest
      next stage rest
    | .name _ :: rest => do
      let stage ← stage.parameter? false
      next stage rest
    | _ => none

/-! ## Levels -/

/-- Neighbouring texts are one text. Texts and octets do not mix, and a template has no value. -/
def joinTexts (first : Token) (more : List Token) : Option Expression :=
  let all := first :: more
  if all.all isOctets then
    some (.constant (.octets (all.flatMap fun | .octets codes => codes | _ => [])))
  else if all.any isOctets then none
  else if all.any isTemplate then some .other
  else some (.constant (.text (String.join (all.map fun | .text s => s | _ => ""))))
where
  isOctets : Token → Bool
    | .octets _ => true
    | _ => false
  isTemplate : Token → Bool
    | .template _ _ => true
    | _ => false

def isText : Token → Bool
  | .text _ | .octets _ | .template _ _ => true
  | _ => false

def atom (bound : Nat) : Reader
  | [] => none
  | token :: rest =>
    match token with
    | .number value => some (.constant value, rest)
    | .name s => some (.name s, rest)
    | .keyword "True" => some (.constant (.truth true), rest)
    | .keyword "False" => some (.constant (.truth false), rest)
    | .keyword "None" => some (.constant .nothing, rest)
    | .keyword _ => none
    | .mark "..." => some (.constant .dots, rest)
    | .mark "(" => rounded inner bound rest
    | .mark "[" => squared inner bound rest
    | .mark "\x7b" => curled inner bound rest
    | .mark _ => none
    | _ => do
      let e ← joinTexts token (rest.takeWhile isText)
      some (e, rest.dropWhile isText)

def attached (bound : Nat) : Reader := fun tokens => do
  let (e, rest) ← atom inner bound tokens
  attachments inner bound e rest

def isSign : Token → Bool
  | .mark m => m == "+" || m == "-" || m == "~"
  | _ => false

/-- An operand of arithmetic. A single plus or minus belongs to a number. -/
def operand (bound : Nat) : Reader := fun tokens =>
  let signs := tokens.takeWhile isSign
  match tokens.dropWhile isSign with
  | .keyword "await" :: rest => (attached inner bound rest).map fun (_, rest) => (.other, rest)
  | rest => do
    let (e, rest) ← attached inner bound rest
    match signs with
    | [] => some (e, rest)
    | [.mark "+"] => some (.signed false e, rest)
    | [.mark "-"] => some (.signed true e, rest)
    | _ => some (.other, rest)

/-- Operands with operators between them: the first, and each further one after its operator. -/
def chain (read : Reader) (operator? : List Token → Option (String × List Token)) :
    Nat → List Token → Option (Expression × List (String × Expression) × List Token)
  | 0, _ => none
  | bound + 1, tokens => do
    let (first, rest) ← read tokens
    match operator? rest with
    | none => some (first, [], rest)
    | some (operator, rest) => do
      let (second, more, rest) ← chain read operator? bound rest
      some (first, (operator, second) :: more, rest)

def arithmeticOperators : List String :=
  ["+", "-", "*", "**", "/", "//", "%", "|", "&", "^", "<<", ">>"]

def arithmeticOperator? : List Token → Option (String × List Token)
  | .mark m :: rest => if arithmeticOperators.contains m then some (m, rest) else none
  | _ => none

/-- Arithmetic has a value at most if it is one sum or difference. -/
def arithmetic (bound : Nat) : Reader := fun tokens => do
  let (first, more, rest) ← chain (operand inner bound) arithmeticOperator? bound tokens
  match more with
  | [] => some (first, rest)
  | [("+", second)] => some (.sum false first second, rest)
  | [("-", second)] => some (.sum true first second, rest)
  | _ => some (.other, rest)

def comparisonOperator? : List Token → Option (String × List Token)
  | .mark m :: rest => if ["==", "!=", "<", "<=", ">", ">="].contains m then some (m, rest) else none
  | .keyword "in" :: rest => some ("in", rest)
  | .keyword "not" :: .keyword "in" :: rest => some ("not in", rest)
  | .keyword "is" :: .keyword "not" :: rest => some ("is not", rest)
  | .keyword "is" :: rest => some ("is", rest)
  | _ => none

/-- The first expression if it stands alone, and one without a value if others follow it. -/
def alone (read : Reader) (operator? : List Token → Option (String × List Token)) (bound : Nat) : Reader :=
  fun tokens => do
    let (first, more, rest) ← chain read operator? bound tokens
    some (if more.isEmpty then first else .other, rest)

def isNot : Token → Bool
  | .keyword k => k == "not"
  | _ => false

def negation (bound : Nat) : Reader := fun tokens => do
  let (e, rest) ← alone (arithmetic inner bound) comparisonOperator? bound (tokens.dropWhile isNot)
  some (if tokens.head?.any isNot then .other else e, rest)

def junction? : List Token → Option (String × List Token)
  | .keyword k :: rest => if k == "and" || k == "or" then some (k, rest) else none
  | _ => none

def choice (bound : Nat) : Reader := alone (negation inner bound) junction? bound

def whole (bound : Nat) : Reader
  | .keyword "lambda" :: rest => do
    let rest ← parameters inner bound (.positional false false false) rest
    let rest ← skip (inner .whole) rest
    some (.other, rest)
  | tokens => do
    let (e, rest) ← choice inner bound tokens
    match rest with
    | .keyword "if" :: rest => do
      let rest ← skip (inner .choice) rest
      match rest with
      | .keyword "else" :: rest => do
        let rest ← skip (inner .whole) rest
        some (.other, rest)
      | _ => none
    | _ => some (e, rest)

def readLevel (bound : Nat) : Level → Reader
  | .whole => whole inner bound
  | .choice => choice inner bound
  | .arithmetic => arithmetic inner bound
  | .attached => attached inner bound

end

def readWithin : Nat → Level → Reader
  | 0, _ => fun _ => none
  | bound + 1, level => readLevel (readWithin bound) bound level

/-- The expression that a list of tokens spells; expressions with commas between them are a tuple. -/
def ofTokens? (tokens : List Token) : Option Expression := do
  let bound := tokens.length + 2
  let (first, rest) ← readWithin bound .whole tokens
  match expect "," rest with
  | none => if rest.isEmpty then some first else none
  | some rest => do
    let more ← further? (readWithin bound .whole) bound rest
    some (.tuple (first :: more))
where
  further? (read : Reader) : Nat → List Token → Option (List Expression)
    | 0, _ => none
    | _, [] => some []
    | bound + 1, tokens => do
      let (first, rest) ← read tokens
      match expect "," rest with
      | some rest => do
        let more ← further? read bound rest
        some (first :: more)
      | none => if rest.isEmpty then some [first] else none

end Bytelift.Literal.Expression
