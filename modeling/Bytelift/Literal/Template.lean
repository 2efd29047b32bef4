import Bytelift.Literal.Grammar

/-! Texts with expressions in them, and the reading of whole texts. An expression in a text stands in
braces, and may be followed by a sign that shows it, a way to convert it and a format, in which expressions
may stand again. Doubled braces are braces. -/

namespace Bytelift.Literal

open Text Token

namespace Template

/-- The text up to a brace that is not doubled, with its escapes unread. In a format every brace counts. -/
def plainPart (raw inFormat : Bool) : Nat → List Char → List Char × List Char
  | 0, s => ([], s)
  | _, [] => ([], [])
  | bound + 1, c :: rest =>
    let go (taken : List Char) (rest : List Char) : List Char × List Char :=
      let (plain, rest) := plainPart raw inFormat bound rest
      (taken ++ plain, rest)
    if c == '\x7b' || c == '\x7d' then
      if !inFormat && rest.head? = some c then go [c] (rest.drop 1) else ([], c :: rest)
    else if c == '\\' && !raw then
      match rest with
      | d :: more => if d == '\x7b' || d == '\x7d' then go [c] rest else go [c, d] more
      | [] => ([c], [])
    else go [c] rest

/-- Whether an expression ends at a sign: a colon, a closing brace, or an exclamation or equality sign that
is not the first half of a comparison. -/
def endsExpression (c : Char) (rest : List Char) : Bool :=
  c == ':' || c == '\x7d' || ((c == '!' || c == '=') && rest.head? != some '=')

def closes (opening closing : Char) : Bool :=
  (opening, closing) == ('(', ')') || (opening, closing) == ('[', ']') ||
    (opening, closing) == ('\x7b', '\x7d')

/-- The expression up to the sign that ends it. Quotes and brackets hide such signs; backslashes and
comments are not allowed. -/
def expressionPart? : Nat → Option (Char × Bool) → List Char → List Char →
    Option (List Char × List Char)
  | 0, _, _, _ => none
  | _, _, _, [] => none
  | bound + 1, quote, brackets, c :: rest =>
    let go (quote : Option (Char × Bool)) (brackets : List Char) (count : Nat) :=
      (expressionPart? bound quote brackets ((c :: rest).drop count)).map fun (e, after) =>
        ((c :: rest).take count ++ e, after)
    if c == '\\' then none
    else match quote with
      | some (q, long) =>
        if c != q then go quote brackets 1
        else if !long then go none brackets 1
        else if rest.take 2 == [q, q] then go none brackets 3
        else go quote brackets 1
      | none =>
        if c == '"' || c == '\x27' then
          if rest.take 2 == [c, c] then go (some (c, true)) brackets 3 else go (some (c, false)) brackets 1
        else if c == '(' || c == '[' || c == '\x7b' then
          if brackets.length < nestingLimit then go none (c :: brackets) 1 else none
        else if c == '#' then none
        else if brackets.isEmpty && endsExpression c rest then some ([], c :: rest)
        else if brackets.isEmpty && (c == '!' || c == '=' || c == '<' || c == '>') &&
            rest.head? = some '=' then go none brackets 2
        else if c == ')' || c == ']' || c == '\x7d' then
          match brackets with
          | opening :: brackets => if closes opening c then go none brackets 1 else none
          | [] => none
        else go none brackets 1

/-- The blanks that may follow the sign that shows an expression. -/
def isSpace (c : Char) : Bool := c == ' ' || ('\t' ≤ c && c ≤ '\r')

/-- What may follow an expression before its format. -/
def pastConversion? (s : List Char) : Option (List Char) :=
  let s := if s.head? = some '=' then (s.drop 1).dropWhile isSpace else s
  match s with
  | '!' :: c :: rest => if c == 's' || c == 'r' || c == 'a' then some rest else none
  | ['!'] => none
  | s => some s

/-- Checks a text to its end, or a format to the brace after it, and gives what is left. Expressions
stand in the text and in their formats, but not in formats of formats. -/
def check? (spells : List Char → Bool) (raw : Bool) : Nat → Nat → List Char → Option (List Char)
  | 0, _, _ => none
  | bound + 1, level, s => do
    let (plain, rest) := plainPart raw (level != 0) (s.length + 1) s
    if !raw && (unescape? true (plain.length + 1) plain).isNone then none
    else match rest with
      | [] => some []
      | c :: rest =>
        if c == '\x7d' then (if level = 0 then none else some (c :: rest))
        else if 2 ≤ level then none
        else do
          let (e, rest) ← expressionPart? (rest.length + 1) none [] rest
          if !spells e then none
          else do
            let rest ← pastConversion? rest
            let rest ←
              match rest with
              | [':'] => none
              | ':' :: rest => check? spells raw bound (level + 1) rest
              | rest => some rest
            match rest with
            | '\x7d' :: rest => check? spells raw bound level rest
            | _ => none

end Template

namespace Expression

/-- Whether a text in brackets spells an expression, templates in it included. -/
def spellsWithin : Nat → List Char → Bool
  | 0, _ => false
  | bound + 1, s =>
    match line? ('(' :: s ++ [')']) with
    | none => false
    | some (tokens, after) =>
      (ofTokens? tokens).isSome && further after == .nothing && templatesSpell bound tokens &&
        s.any fun c => !(c == ' ' || c == '\t' || c == '\n' || c == '\x0c')
where
  templatesSpell (bound : Nat) (tokens : List Token) : Bool :=
    tokens.all fun
      | .template raw body =>
        (Template.check? (spellsWithin bound) raw (body.length + 1) 0 body).isSome
      | _ => true

/-- Every line end is one character. -/
def unifyLineEnds : List Char → List Char
  | [] => []
  | '\r' :: '\n' :: rest => '\n' :: unifyLineEnds rest
  | '\r' :: rest => '\n' :: unifyLineEnds rest
  | c :: rest => c :: unifyLineEnds rest

def read (s : List Char) : Except Fault Expression :=
  let s := unifyLineEnds (s.dropWhile fun c => c == ' ' || c == '\t')
  match line? s with
  | none => .error .malformedExpression
  | some (tokens, after) =>
    if s.contains '\x00' || !spellsWithin.templatesSpell s.length tokens then .error .malformedExpression
    else match ofTokens? tokens with
      | none => .error .malformedExpression
      | some e =>
        match further after with
        | .nothing => .ok e
        | .code => .error .malformedExpression
        | .indentedCode => .error .indentedExpression

end Expression

end Bytelift.Literal
