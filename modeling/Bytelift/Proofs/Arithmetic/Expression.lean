import Bytelift.Proofs.Substitution.Frame
import Bytelift.Proofs.Text.Numeral

/-! Arithmetic expressions: what they mean, how they are written and how they are read. Every operation is
written in brackets, so the text of an expression tells it, and also which places it names. -/

namespace Bytelift.Arithmetic

open Text Substitution

inductive Sign where
  | add
  | sub
  | mul
  | mod
  | bitAnd
  | bitOr
  | bitXor
  deriving DecidableEq, Repr

/-- What a function keeps its values in: registers, and the arguments it was given. -/
inductive Slot where
  | register (n : Nat)
  | argument (n : Nat)
  deriving DecidableEq, Repr

inductive Place where
  | accumulator
  | slot (s : Slot)
  deriving DecidableEq, Repr

inductive Expr where
  | number (n : Int)
  | place (p : Place)
  | binary (sign : Sign) (left right : Expr)
  deriving DecidableEq, Repr

/-! ## Meaning -/

/-- What numbers and signs mean, over any kind of values. -/
structure Meaning (α : Type) where
  number : Int → α
  apply : Sign → α → α → α

abbrev Env (α : Type) := Place → Option α

namespace Expr

def value? {α : Type} (m : Meaning α) (env : Env α) : Expr → Option α
  | .number n => some (m.number n)
  | .place p => env p
  | .binary sign left right => do return m.apply sign (← left.value? m env) (← right.value? m env)

def places : Expr → List Place
  | .number _ => []
  | .place p => [p]
  | .binary _ left right => left.places ++ right.places

/-- Only the places that an expression names count. -/
theorem value?_congr {α : Type} (m : Meaning α) {env env' : Env α} {e : Expr}
    (h : ∀ p ∈ e.places, env p = env' p) : e.value? m env = e.value? m env' := by
  induction e with
  | number n => rfl
  | place p => exact h p (by simp [places])
  | binary sign left right ihl ihr =>
    rw [value?, value?, ihl fun p hp => h p (by simp [places, hp]), ihr fun p hp => h p (by simp [places, hp])]

theorem exists_value? {α : Type} (m : Meaning α) {env : Env α} {e : Expr}
    (h : ∀ p ∈ e.places, ∃ v, env p = some v) : ∃ v, e.value? m env = some v := by
  induction e with
  | number n => exact ⟨_, rfl⟩
  | place p => exact h p (by simp [places])
  | binary sign left right ihl ihr =>
    obtain ⟨l, hl⟩ := ihl fun p hp => h p (by simp [places, hp])
    obtain ⟨r, hr⟩ := ihr fun p hp => h p (by simp [places, hp])
    exact ⟨m.apply sign l r, by simp [value?, hl, hr]⟩

/-- The expression with other expressions put in for some places. -/
def put (known : Place → Option Expr) : Expr → Expr
  | .number n => .number n
  | .place p => (known p).getD (.place p)
  | .binary sign left right => .binary sign (left.put known) (right.put known)

/-- Expressions may be put in for places that have their values. -/
theorem value?_put {α : Type} (m : Meaning α) {env : Env α} {known : Place → Option Expr}
    (h : ∀ p e, known p = some e → e.value? m env = env p) (e : Expr) :
    (e.put known).value? m env = e.value? m env := by
  induction e with
  | number n => rfl
  | place p =>
    cases hp : known p with
    | none => simp [put, hp]
    | some e => simpa [put, hp, value?] using h p e hp
  | binary sign left right ihl ihr => simp [put, value?, ihl, ihr]

theorem mem_places_put {known : Place → Option Expr} {e : Expr} {q : Place} (hq : q ∈ (e.put known).places) :
    (q ∈ e.places ∧ known q = none) ∨ ∃ p ∈ e.places, ∃ e', known p = some e' ∧ q ∈ e'.places := by
  induction e with
  | number n => simp [put, places] at hq
  | place p =>
    cases hp : known p with
    | none =>
      simp only [put, hp, Option.getD_none, places, List.mem_singleton] at hq
      subst hq
      exact Or.inl ⟨by simp [places], hp⟩
    | some e =>
      simp only [put, hp, Option.getD_some] at hq
      exact Or.inr ⟨p, by simp [places], e, hp, hq⟩
  | binary sign left right ihl ihr =>
    simp only [put, places, List.mem_append] at hq ⊢
    rcases hq with hq | hq
    · rcases ihl hq with h | ⟨p, hp, h⟩
      · exact Or.inl ⟨Or.inl h.1, h.2⟩
      · exact Or.inr ⟨p, Or.inl hp, h⟩
    · rcases ihr hq with h | ⟨p, hp, h⟩
      · exact Or.inl ⟨Or.inr h.1, h.2⟩
      · exact Or.inr ⟨p, Or.inr hp, h⟩

end Expr

/-! ## Writing -/

def Sign.char : Sign → Char
  | .add => '+'
  | .sub => '-'
  | .mul => '*'
  | .mod => '%'
  | .bitAnd => '&'
  | .bitOr => '|'
  | .bitXor => '^'

def Slot.chars : Slot → List Char
  | .register n => 'r' :: (toString n).toList
  | .argument n => 'a' :: (toString n).toList

def Place.chars : Place → List Char
  | .accumulator => "ACCU".toList
  | .slot s => s.chars

def numeral (n : Int) : List Char := (toString n).toList

def Expr.chars : Expr → List Char
  | .number n => numeral n
  | .place p => p.chars
  | .binary sign left right => '(' :: (left.chars ++ (' ' :: sign.char :: ' ' :: (right.chars ++ [')'])))

def Place.text (p : Place) : String := String.ofList p.chars

def Expr.text (e : Expr) : String := String.ofList e.chars

/-! ## Reading -/

def natural? (s : List Char) : Option (Nat × List Char) :=
  match s.takeWhile Char.isDigit with
  | [] => none
  | ds => some (Nat.ofDigitChars 10 ds 0, s.dropWhile Char.isDigit)

def Place.read? : List Char → Option (Place × List Char)
  | 'r' :: s => (natural? s).map fun (n, rest) => (.slot (.register n), rest)
  | 'a' :: s => (natural? s).map fun (n, rest) => (.slot (.argument n), rest)
  | s => (after? "ACCU".toList s).map (.accumulator, ·)

def integer? : List Char → Option (Int × List Char)
  | '-' :: s => (natural? s).map fun (n, rest) => (-(n : Int), rest)
  | s => (natural? s).map fun (n, rest) => ((n : Int), rest)

def Sign.all : List Sign := [.add, .sub, .mul, .mod, .bitAnd, .bitOr, .bitXor]

def Sign.read? : List Char → Option (Sign × List Char)
  | ' ' :: c :: ' ' :: rest => (Sign.all.find? fun sign => sign.char = c).map (·, rest)
  | _ => none

/-- An expression at the head of a text, with no more brackets in one another than a bound. -/
def Expr.readWithin : Nat → List Char → Option (Expr × List Char)
  | 0, _ => none
  | bound + 1, '(' :: s => do
    let (left, s) ← readWithin bound s
    let (sign, s) ← Sign.read? s
    let (right, s) ← readWithin bound s
    let rest ← after? [')'] s
    return (.binary sign left right, rest)
  | _ + 1, s =>
    ((Place.read? s).map fun (p, rest) => (.place p, rest)) <|>
      (integer? s).map fun (n, rest) => (.number n, rest)

def Expr.read? (s : List Char) : Option Expr :=
  match readWithin (s.length + 1) s with
  | some (e, []) => some e
  | _ => none

theorem natural?_toString (n : Nat) {rest : List Char} (hr : Ends rest) :
    natural? ((toString n).toList ++ rest) = some (n, rest) := by
  have hd : ∀ c ∈ (toString n).toList, c.isDigit = true := fun c hc => isDigit_of_mem_toString hc
  have hend : ∀ c ∈ rest.head?, c.isDigit = false := by
    intro c hc
    by_contra hdigit
    have hdecimal := isDecimal_of_isDigit (by simpa using hdigit)
    rw [hr c hc] at hdecimal
    cases hdecimal
  unfold natural?
  rw [takeWhile_run hd hend, dropWhile_run hd hend]
  split
  · next he => exact absurd he (toList_toString_ne_nil n)
  · rw [toList_toString, Nat.ofDigitChars_toDigits (by omega) (by omega)]

theorem Place.read?_chars (p : Place) {rest : List Char} (hr : Ends rest) :
    Place.read? (p.chars ++ rest) = some (p, rest) := by
  cases p with
  | accumulator => rfl
  | slot s =>
    cases s <;> simp only [chars, Slot.chars, List.cons_append, read?, natural?_toString _ hr, Option.map_some]

/-- A number is written with a minus, if it is negative, and digits. -/
theorem numeral_cases (n : Int) : (∃ k : Nat, n = k ∧ numeral n = (toString k).toList) ∨
    ∃ k : Nat, n = -(k : Int) ∧ numeral n = '-' :: (toString k).toList := by
  cases n with
  | ofNat k => exact Or.inl ⟨k, rfl, rfl⟩
  | negSucc k =>
    refine Or.inr ⟨k + 1, rfl, ?_⟩
    change ("-" ++ toString (k + 1)).toList = _
    rw [String.toList_append]
    rfl

/-- A digit or a minus is the start of a number and of nothing else. -/
theorem mem_numeral {n : Int} {c : Char} (hc : c ∈ numeral n) : c.isDigit = true ∨ c = '-' := by
  rcases numeral_cases n with ⟨k, _, hk⟩ | ⟨k, _, hk⟩
  · rw [hk] at hc
    exact Or.inl (isDigit_of_mem_toString hc)
  · rw [hk, List.mem_cons] at hc
    rcases hc with rfl | hc
    · exact Or.inr rfl
    · exact Or.inl (isDigit_of_mem_toString hc)

theorem ne_of_mem_numeral {n : Int} {c d : Char} (hc : c ∈ numeral n) (hd : d.isDigit = false) (hm : d ≠ '-') :
    c ≠ d := by
  rintro rfl
  rcases mem_numeral hc with h | h
  · rw [h] at hd
    cases hd
  · exact hm h

theorem exists_cons_numeral (n : Int) : ∃ c cs, numeral n = c :: cs := by
  refine List.exists_cons_of_ne_nil ?_
  rcases numeral_cases n with ⟨k, _, hk⟩ | ⟨k, _, hk⟩
  · rw [hk]
    exact toList_toString_ne_nil k
  · simp [hk]

theorem integer?_numeral (n : Int) {rest : List Char} (hr : Ends rest) :
    integer? (numeral n ++ rest) = some (n, rest) := by
  rcases numeral_cases n with ⟨k, rfl, hk⟩ | ⟨k, rfl, hk⟩
  · rw [hk]
    unfold integer?
    split
    · next s hs =>
      obtain ⟨c, cs, hcs⟩ := List.exists_cons_of_ne_nil (toList_toString_ne_nil k)
      rw [hcs, List.cons_append, List.cons.injEq] at hs
      have hdigit : c.isDigit = true := isDigit_of_mem_toString (hcs ▸ List.mem_cons_self)
      rw [hs.1] at hdigit
      cases hdigit
    · rw [natural?_toString k hr]
      rfl
  · rw [hk, List.cons_append]
    simp only [integer?, natural?_toString k hr, Option.map_some]

theorem Place.read?_numeral (n : Int) (rest : List Char) : Place.read? (numeral n ++ rest) = none := by
  obtain ⟨c, cs, hcs⟩ := exists_cons_numeral n
  have hc : ∀ {d : Char}, d.isDigit = false → d ≠ '-' → c ≠ d := ne_of_mem_numeral (hcs ▸ List.mem_cons_self)
  rw [hcs, List.cons_append]
  unfold Place.read?
  split
  · next hs => exact absurd (List.cons.inj hs).1 (hc (by decide) (by decide))
  · next hs => exact absurd (List.cons.inj hs).1 (hc (by decide) (by decide))
  · have hne : ¬ 'A' = c := fun h => hc (by decide) (by decide) h.symm
    simp [after?, hne]

theorem Sign.read?_char (sign : Sign) (rest : List Char) :
    Sign.read? (' ' :: sign.char :: ' ' :: rest) = some (sign, rest) := by
  cases sign <;> rfl

/-- The number of operations in one another, which bounds what is needed to read the expression. -/
def Expr.depth : Expr → Nat
  | .number _ => 1
  | .place _ => 1
  | .binary _ left right => 1 + max left.depth right.depth

namespace Expr

theorem readWithin_chars (e : Expr) {bound : Nat} (hb : e.depth ≤ bound) {rest : List Char} (hr : Ends rest) :
    readWithin bound (e.chars ++ rest) = some (e, rest) := by
  induction e generalizing bound rest with
  | number n =>
    obtain ⟨bound, rfl⟩ := Nat.exists_eq_succ_of_ne_zero (Nat.ne_of_gt hb)
    obtain ⟨c, cs, hcs⟩ := exists_cons_numeral n
    have hopen : c ≠ '(' := ne_of_mem_numeral (hcs ▸ List.mem_cons_self) (by decide) (by decide)
    have hplace := Place.read?_numeral n rest
    have hinteger := integer?_numeral n hr
    rw [hcs] at hplace hinteger
    rw [chars, hcs, List.cons_append, readWithin]
    · rw [← List.cons_append, hplace, hinteger]
      rfl
    · intro s hs
      exact absurd (List.cons.inj hs).1 hopen
  | place p =>
    obtain ⟨bound, rfl⟩ := Nat.exists_eq_succ_of_ne_zero (Nat.ne_of_gt hb)
    have hplace := p.read?_chars hr
    rw [chars, readWithin]
    · rw [hplace]
      rfl
    · intro s hs
      cases p with
      | accumulator => exact absurd (List.cons.inj hs).1 (by decide)
      | slot s => cases s <;> exact absurd (List.cons.inj hs).1 (by decide)
  | binary sign left right ihl ihr =>
    rw [depth] at hb
    obtain ⟨bound, rfl⟩ := Nat.exists_eq_succ_of_ne_zero (n := bound) (by omega)
    have hspace : Ends (' ' :: sign.char :: ' ' :: (right.chars ++ (')' :: rest))) := ends_cons (by decide)
    have hclose : Ends (')' :: rest) := ends_cons (by decide)
    have hleft := ihl (by omega : left.depth ≤ bound) hspace
    have hright := ihr (by omega : right.depth ≤ bound) hclose
    simp only [chars, List.cons_append, List.append_assoc, List.nil_append, readWithin, hleft]
    simp [Sign.read?_char, hright, after?]

theorem depth_le_length (e : Expr) : e.depth ≤ e.chars.length := by
  induction e with
  | number n =>
    obtain ⟨c, cs, hcs⟩ := exists_cons_numeral n
    simp [depth, chars, hcs]
  | place p =>
    cases p with
    | accumulator => decide
    | slot s => cases s <;> simp [depth, chars, Place.chars, Slot.chars]
  | binary sign left right ihl ihr =>
    simp only [depth, chars, List.length_cons, List.length_append]
    omega

/-- An expression is what its text spells. -/
theorem read?_chars (e : Expr) : read? e.chars = some e := by
  have hread := @readWithin_chars e (e.chars.length + 1) (by have := e.depth_le_length; omega) [] ends_nil
  rw [List.append_nil] at hread
  simp only [read?, hread]

theorem text_injective {e e' : Expr} (h : e.text = e'.text) : e = e' := by
  have hchars : e.chars = e'.chars := by simpa [text] using congrArg String.toList h
  have hread := e.read?_chars
  rw [hchars, e'.read?_chars] at hread
  exact (Option.some.inj hread).symm

end Expr

theorem Place.text_injective {p q : Place} (h : p.text = q.text) : p = q := by
  have hplace : (Expr.place p).text = (Expr.place q).text := h
  exact Expr.place.inj (Expr.text_injective hplace)

/-! ## The places in a text -/

theorem register?_chars (s : Slot) {rest : List Char} (hr : Ends rest) :
    register? (s.chars ++ rest) = some (s.chars, rest) := by
  have hnumbered : ∀ (c : Char) (n : Nat), numbered? (String.ofList [c]) (c :: ((toString n).toList ++ rest)) =
      some (c :: (toString n).toList, rest) := by
    intro c n
    simp only [numbered?, String.toList_ofList, after?, if_pos, Option.bind_some, digits?_toString n hr,
      Option.map_some, List.cons_append, List.nil_append]
  cases s with
  | register n =>
    rw [register?, Slot.chars, List.cons_append, show ("r" : String) = String.ofList ['r'] from rfl, hnumbered]
    rfl
  | argument n =>
    rw [register?, Slot.chars, List.cons_append, show ("a" : String) = String.ofList ['a'] from rfl, hnumbered]
    rfl

theorem place_chars (p : Place) {rest : List Char} (hr : Ends rest) :
    place none (p.chars ++ rest) = some (p.text, rest) := by
  cases p with
  | accumulator => rfl
  | slot s =>
    have hregister := register?_chars s hr
    rw [place, place?, Place.chars, hregister]
    cases s <;> rfl

/-- The places of an expression, among the other characters of its text. -/
def Expr.pieces : Expr → List (Piece String)
  | .number n => (numeral n).map .plain
  | .place p => [.hit p.text]
  | .binary sign left right =>
    .plain '(' :: (left.pieces ++ (.plain ' ' :: .plain sign.char :: .plain ' ' :: (right.pieces ++ [.plain ')'])))

theorem Sign.char_notMem (sign : Sign) : sign.char ∉ openings := by cases sign <;> decide

theorem notMem_openings_of_isDigit {c : Char} (h : c.isDigit = true) : c ∉ openings := by
  simp only [openings, List.mem_cons, List.not_mem_nil, or_false, not_or]
  refine ⟨?_, ?_, ?_, ?_⟩ <;> (rintro rfl; revert h; decide)

theorem notMem_openings_of_mem_numeral {n : Int} {c : Char} (hc : c ∈ numeral n) : c ∉ openings := by
  rcases mem_numeral hc with h | rfl
  · exact notMem_openings_of_isDigit h
  · decide

/-- The places that are found in the text of an expression are those that it names. -/
theorem pieces_chars (e : Expr) {rest : List Char} (hr : Ends rest) :
    pieces place (e.chars ++ rest) = e.pieces ++ pieces place rest := by
  have hplain : ∀ {c : Char} (cs : List Char), c ∉ openings →
      pieces place (c :: cs) = .plain c :: pieces place cs := fun cs hc =>
    forward_place.pieces_plain (place_eq_none hc cs)
  induction e generalizing rest with
  | number n =>
    exact forward_place.pieces_append
      (fun c hc cs => place_eq_none (notMem_openings_of_mem_numeral hc) cs) rest
  | place p =>
    have hplace := place_chars p hr
    obtain ⟨c, cs, hcs⟩ : ∃ c cs, p.chars = c :: cs := by
      cases p with
      | accumulator => exact ⟨_, _, rfl⟩
      | slot s => cases s <;> exact ⟨_, _, rfl⟩
    rw [hcs, List.cons_append] at hplace
    rw [Expr.chars, hcs, List.cons_append, forward_place.pieces_hit hplace]
    rfl
  | binary sign left right ihl ihr =>
    have hspace : Ends (' ' :: sign.char :: ' ' :: (right.chars ++ (')' :: rest))) := ends_cons (by decide)
    have hclose : Ends (')' :: rest) := ends_cons (by decide)
    simp only [Expr.chars, Expr.pieces, List.cons_append, List.append_assoc, List.nil_append]
    rw [hplain _ (by decide), ihl hspace, hplain _ (by decide), hplain _ sign.char_notMem, hplain _ (by decide),
      ihr hclose, hplain _ (by decide)]

/-! ## Occurrences -/

theorem occursIn_cons {c d : Char} {name cs : List Char} (h : d ≠ c) :
    occursIn (d :: name) (c :: cs) = occursIn (d :: name) cs := by
  simp [occursIn, after?, h]

theorem occursIn_append {d : Char} {name s : List Char} (h : d ∉ s) (rest : List Char) :
    occursIn (d :: name) (s ++ rest) = occursIn (d :: name) rest := by
  induction s with
  | nil => rfl
  | cons c s ih =>
    simp only [List.mem_cons, not_or] at h
    rw [List.cons_append, occursIn_cons h.1, ih h.2]

/-- The letters that the names of these places start with. -/
def Place.heads : List Char := ['A', 'r', 'a']

theorem Place.notMem_heads_of_isDigit {c : Char} (h : c.isDigit = true) : c ∉ heads := by
  have hc := notMem_openings_of_isDigit h
  simp only [openings, heads, List.mem_cons, not_or] at hc ⊢
  exact ⟨hc.1, hc.2.2⟩

theorem Place.exists_head (p : Place) : ∃ d ∈ heads, ∃ name, p.chars = d :: name ∧ ∀ c ∈ name, c ∉ heads := by
  cases p with
  | accumulator => exact ⟨'A', by decide, _, rfl, forall_mem_of_all (by decide)⟩
  | slot s =>
    cases s with
    | register n => exact ⟨'r', by decide, _, rfl, fun c hc => notMem_heads_of_isDigit (isDigit_of_mem_toString hc)⟩
    | argument n => exact ⟨'a', by decide, _, rfl, fun c hc => notMem_heads_of_isDigit (isDigit_of_mem_toString hc)⟩

/-- A place that is found at the head of a text is the one that stands there. -/
theorem Place.eq_of_after? {p q : Place} {rest more : List Char} (hr : Ends rest) (hm : Ends more)
    (h : after? p.chars (q.chars ++ rest) = some more) : p = q := by
  have hread := q.read?_chars hr
  rw [eq_append_of_after? h, p.read?_chars hm] at hread
  cases hread
  rfl

theorem isDecimal_of_isDigitLike {c : Char} (h : isDigitLike c = false) : isDecimal c = false := by
  simp only [isDigitLike, Bool.or_eq_false_iff] at h
  exact h.1

/-- An expression holds the places that it names and no others. -/
theorem mem_places_of_occursIn {p : Place} (e : Expr) {rest : List Char} (hr : Ends rest)
    (h : occursIn p.chars (e.chars ++ rest) = true) : p ∈ e.places ∨ occursIn p.chars rest = true := by
  obtain ⟨d, hd, name, hp, _⟩ := p.exists_head
  have hskip : ∀ {s : List Char} (more : List Char), (∀ c ∈ s, c ∉ Place.heads) →
      occursIn p.chars (s ++ more) = occursIn p.chars more := by
    intro s more hs
    rw [hp]
    exact occursIn_append (fun hm => hs d hm hd) more
  have hone : ∀ {c : Char} (more : List Char), c ∉ Place.heads →
      occursIn p.chars (c :: more) = occursIn p.chars more := by
    intro c more hc
    exact hskip more (s := [c]) (by simpa using hc)
  induction e generalizing rest with
  | number n =>
    right
    rwa [Expr.chars, hskip] at h
    intro c hc
    rcases mem_numeral hc with hdigit | rfl
    · exact Place.notMem_heads_of_isDigit hdigit
    · decide
  | place q =>
    obtain ⟨c, hc, cs, hq, htail⟩ := q.exists_head
    rw [Expr.chars, hq, List.cons_append, occursIn, Bool.or_eq_true, hskip rest htail] at h
    rcases h with h | h
    · left
      rw [← List.cons_append, ← hq] at h
      rw [Expr.places, List.mem_singleton]
      split at h
      · next hnil => exact Place.eq_of_after? hr ends_nil hnil
      · next e es hcons =>
        exact Place.eq_of_after? hr (ends_cons (isDecimal_of_isDigitLike (by simpa using h))) hcons
      · cases h
    · exact Or.inr h
  | binary sign left right ihl ihr =>
    have hsign : sign.char ∉ Place.heads := by cases sign <;> decide
    have hspace : Ends (' ' :: sign.char :: ' ' :: (right.chars ++ (')' :: rest))) := ends_cons (by decide)
    have hclose : Ends (')' :: rest) := ends_cons (by decide)
    rw [Expr.places, List.mem_append]
    simp only [Expr.chars, List.cons_append, List.append_assoc, List.nil_append] at h
    rw [hone _ (by decide)] at h
    rcases ihl hspace h with h | h
    · exact Or.inl (Or.inl h)
    · rw [hone _ (by decide), hone _ hsign, hone _ (by decide)] at h
      rcases ihr hclose h with h | h
      · exact Or.inl (Or.inr h)
      · rw [hone _ (by decide)] at h
        exact Or.inr h

theorem occursIn_eq_false {p : Place} {e : Expr} (h : p ∉ e.places) : occursIn p.chars e.chars = false := by
  by_contra hoccurs
  have hends := @mem_places_of_occursIn p e [] ends_nil (by simpa using hoccurs)
  obtain ⟨d, _, name, hp, _⟩ := p.exists_head
  simp [hp, occursIn, h] at hends

/-! ## Characters -/

def marks : List Char := "ACUra ()+-*%&|^".toList

theorem mem_chars {e : Expr} {c : Char} (hc : c ∈ e.chars) : c.isDigit = true ∨ c ∈ marks := by
  induction e with
  | number n =>
    rcases mem_numeral hc with h | rfl
    · exact Or.inl h
    · exact Or.inr (by decide)
  | place p =>
    cases p with
    | accumulator => exact Or.inr (forall_mem_of_all (l := "ACCU".toList) (by decide) c hc)
    | slot s =>
      cases s <;> rcases List.mem_cons.1 hc with rfl | hc
      · exact Or.inr (by decide)
      · exact Or.inl (isDigit_of_mem_toString hc)
      · exact Or.inr (by decide)
      · exact Or.inl (isDigit_of_mem_toString hc)
  | binary sign left right ihl ihr =>
    have hsign : sign.char ∈ marks := by cases sign <;> decide
    simp only [Expr.chars, List.mem_cons, List.mem_append, List.not_mem_nil, or_false] at hc
    rcases hc with rfl | hc | rfl | rfl | rfl | hc | rfl
    · exact Or.inr (by decide)
    · exact ihl hc
    · exact Or.inr (by decide)
    · exact Or.inr hsign
    · exact Or.inr (by decide)
    · exact ihr hc
    · exact Or.inr (by decide)

theorem notMem_chars {c : Char} (hd : c.isDigit = false) (hm : c ∉ marks) (e : Expr) : c ∉ e.chars := by
  intro hc
  rcases mem_chars hc with h | h
  · rw [h] at hd
    cases hd
  · exact hm h

/-- An expression has no blank at its ends. -/
theorem isBlank_ends (e : Expr) : (∀ c ∈ e.chars.head?, isBlank c = false) ∧
    ∀ c ∈ e.chars.getLast?, isBlank c = false := by
  have hall : ∀ {s : List Char}, (∀ c ∈ s, isBlank c = false) →
      (∀ c ∈ s.head?, isBlank c = false) ∧ ∀ c ∈ s.getLast?, isBlank c = false := fun h =>
    ⟨fun c hc => h c (List.mem_of_mem_head? hc), fun c hc => h c (List.mem_of_getLast? hc)⟩
  cases e with
  | number n =>
    refine hall fun c hc => ?_
    rcases mem_numeral hc with h | rfl
    · exact isBlank_of_isDigit h
    · decide
  | place p =>
    cases p with
    | accumulator => exact hall (forall_mem_of_all (by decide))
    | slot s =>
      cases s <;> refine hall fun c hc => ?_ <;> rcases List.mem_cons.1 hc with rfl | hc
      · decide
      · exact isBlank_of_isDigit (isDigit_of_mem_toString hc)
      · decide
      · exact isBlank_of_isDigit (isDigit_of_mem_toString hc)
  | binary sign left right =>
    refine ⟨?_, ?_⟩
    · intro c hc
      cases hc
      decide
    · intro c hc
      have hlast : (Expr.binary sign left right).chars =
          ('(' :: (left.chars ++ (' ' :: sign.char :: ' ' :: right.chars))) ++ [')'] := by simp [Expr.chars]
      rw [hlast, List.getLast?_concat] at hc
      cases hc
      decide

end Bytelift.Arithmetic
