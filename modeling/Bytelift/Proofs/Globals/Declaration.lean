import Bytelift.Globals
import Bytelift.Proofs.Text.Lines
import Bytelift.Proofs.Text.Numeral

/-! What a declaration of globals declares. It lists strings and functions; the strings are found by their quotes and
the functions by the form of their names, and neither is found in the other. -/

namespace Bytelift

namespace Text

variable {α : Type} {r : Recogniser α} {before : Option Char} {s t : List Char} {c : Char} {a : α}

/-- What is found in a text that stands after a character. -/
def found (r : Recogniser α) (before : Option Char) (s : List Char) : List α :=
  (scan r before 0 s).filterMap fun
    | .plain _ => none
    | .hit a => some a

theorem found_plain (h : r before (c :: s) = none) : found r before (c :: s) = found r (some c) s := by
  simp only [found, scan, h, List.filterMap_cons_none]

theorem found_hit (h : r before (c :: s ++ t) = some (a, t)) :
    found r before (c :: s ++ t) = a :: found r (c :: s).getLast? t := by
  have hcovered : ∀ c : Char, scan r (some c) s.length (s ++ t) = scan r (c :: s).getLast? 0 t := by
    clear h
    induction s with
    | nil => exact fun c => rfl
    | cons d s ih => exact fun c => ih d
  rw [List.cons_append] at h ⊢
  simp only [found, scan, h, List.length_append, Nat.add_sub_cancel, hcovered]
  rfl

/-- A part of a text in which nothing is recognised is passed over. -/
theorem found_append (h : ∀ before x y, s = x ++ y → y ≠ [] → r before (y ++ t) = none) :
    found r before (s ++ t) = found r (s.getLast?.or before) t := by
  induction s generalizing before with
  | nil => rfl
  | cons c s ih =>
    refine (found_plain (h before [] (c :: s) rfl (by simp))).trans ?_
    refine (ih fun b x y he => h b (c :: x) y (congrArg (c :: ·) he)).trans ?_
    rw [List.getLast?_cons]
    cases s.getLast? <;> rfl

end Text

namespace Globals

open Text FunctionName

/-! ## Lists of names -/

def IsLabel (name : String) : Prop := name.toList.all isLabelChar = true

theorem IsLabel.of_mem {name : String} (h : IsLabel name) : ∀ c ∈ name.toList, isLabelChar c = true :=
  List.all_eq_true.1 h

/-- What a declaration lists: strings, and functions by their names. -/
inductive Listed where
  | string (name : String)
  | function (label address : String)
  deriving DecidableEq

namespace Listed

def text : Listed → String
  | string name => "\"" ++ name ++ "\""
  | function label address => "func_" ++ label ++ "_0x" ++ address

/-- A string that does not look like the name of a function, or a name with a label and an address. -/
def Fits : Listed → Prop
  | string name => IsLabel name ∧ ¬lead <:+: name.toList
  | function label address =>
    IsLabel label ∧ label ≠ "" ∧ address ≠ "" ∧ address.toList.all isHexDigit = true

instance : DecidablePred Fits
  | string _ => inferInstanceAs (Decidable (_ = _ ∧ _))
  | function _ _ => inferInstanceAs (Decidable (_ = _ ∧ _))

def string? : Listed → Option String
  | string name => some name
  | function _ _ => none

/-- The name of a function, and its label. -/
def function? : Listed → Option (String × String)
  | string _ => none
  | function label address => some ((function label address).text, label)

end Listed

def declaration (listed : List Listed) : String := "[" ++ (Instruction.commas (listed.map Listed.text) ++ "]")

variable {α : Type} {r : Recogniser α} {listed : List Listed} {before : Option Char} {s t : List Char} {c : Char}

/-- What is recognised in each entry is recognised in the list. -/
theorem hits_declaration {pick : Listed → Option α} (hmark : ∀ b, ∀ c ∈ "[, ]".toList, ∀ s, r b (c :: s) = none)
    (hentry : ∀ e, e.Fits → ∀ b, b.any isWordChar = false → ∀ c ∈ [',', ']'], ∀ t,
      found r b (e.text.toList ++ c :: t) = (pick e).toList ++ found r (some c) t) (hl : ∀ e ∈ listed, e.Fits) :
    hits r (declaration listed).toList = listed.filterMap pick := by
  have hbody : ∀ b, b.any isWordChar = false →
      found r b (Instruction.commas (listed.map Listed.text) ++ "]").toList = listed.filterMap pick := by
    induction listed with
    | nil => exact fun b _ => found_plain (hmark b ']' (by simp) [])
    | cons e rest ih =>
      intro b hb
      have hstep := hentry e (hl e (by simp)) b hb
      have hrest := ih (fun e he => hl e (by simp [he])) (some ' ') (by decide)
      have hpick : (e :: rest).filterMap pick = (pick e).toList ++ rest.filterMap pick := by
        cases h : pick e <;> simp [h]
      rw [hpick]
      cases rest with
      | nil => simpa [Instruction.commas, found, scan] using hstep ']' (by simp) []
      | cons d rest =>
        rw [← hrest, ← found_plain (hmark (some ',') ' ' (by simp) _), ← hstep ',' (by simp)]
        simp [Instruction.commas]
  rw [← hbody (some '[') (by decide), ← found_plain (hmark none '[' (by simp) _), declaration, String.toList_append]
  rfl

/-- The characters after an entry. -/
theorem of_mem_ends : ∀ c ∈ [',', ']'], c ≠ '"' ∧ c ≠ 'f' ∧ c ≠ '_' ∧ isHexDigit c = false ∧ isWordChar c = false ∧
    isLabelChar c = false := forall_mem_of_all (by decide)

/-! ## Strings -/

theorem not_quoted (h : c ≠ '"') : quoted before (c :: s) = none := by
  simp [quoted, after?, h.symm]

theorem quotedRest?_append (hs : ∀ c ∈ s, isLabelChar c = true) : quotedRest? (s ++ '"' :: t) = some (s, t) := by
  induction s with
  | nil => rfl
  | cons c s ih =>
    have hquote : c ≠ '"' ∧ c ≠ '\\' := by
      constructor <;> (rintro rfl; exact absurd (hs _ List.mem_cons_self) (by decide))
    simp [quotedRest?, hquote, ih fun d hd => hs d (by simp [hd])]

theorem hits_quoted (hl : ∀ e ∈ listed, e.Fits) :
    hits quoted (declaration listed).toList = listed.filterMap Listed.string? := by
  have hmarks : ∀ c ∈ "[, ]".toList, c ≠ '"' := forall_mem_of_all (by decide)
  refine hits_declaration (fun b c hc s => not_quoted (hmarks c hc)) ?_ hl
  intro e he b _ c hc t
  have hend := fun b => @found_plain _ quoted b t c (not_quoted (of_mem_ends c hc).1)
  cases e with
  | string name =>
    have hread : quoted b ('"' :: (name.toList ++ ['"']) ++ c :: t) = some (name, c :: t) := by
      simp [quoted, after?, quotedRest?_append he.1.of_mem]
    simpa [Listed.text, Listed.string?, hend] using found_hit hread
  | function label address =>
    refine (found_append fun b x y hxy hy => ?_).trans (hend _)
    obtain ⟨d, y, rfl⟩ := List.exists_cons_of_ne_nil hy
    refine not_quoted ?_
    rintro rfl
    have hd : '"' ∈ (Listed.function label address).text.toList := by simp [hxy]
    simp only [Listed.text, String.toList_append, List.mem_append] at hd
    rcases hd with ((hd | hd) | hd) | hd
    · exact absurd hd (by decide)
    · exact absurd (he.1.of_mem _ hd) (by decide)
    · exact absurd hd (by decide)
    · exact absurd (List.all_eq_true.1 he.2.2.2 _ hd) (by decide)

/-! ## Functions -/

theorem address?_eq_none (h : c ≠ '_') : address? (c :: s) = none := by
  simp [address?, after?, h.symm]

theorem labelAndAddress?_append {l a : List Char} (hl : ∀ c ∈ l, isLabelChar c = true) (hne : l ≠ [])
    (hnone : labelAndAddress? s = none) (ha : address? s = some (a, t)) :
    labelAndAddress? (l ++ s) = some (l, a, t) := by
  induction l with
  | nil => exact absurd rfl hne
  | cons c l ih =>
    rw [List.cons_append, labelAndAddress?, if_pos (hl c (by simp))]
    cases l with
    | nil => simp [hnone, ha]
    | cons d l => rw [ih (fun e he => hl e (by simp [he])) (by simp)]

theorem no_name_in_digits (hs : ∀ d ∈ s, isHexDigit d = true) (hc : c ∈ [',', ']']) :
    labelAndAddress? (s ++ c :: t) = none ∧ address? (s ++ c :: t) = none := by
  obtain ⟨-, -, hbar, -, -, hnone⟩ := of_mem_ends c hc
  induction s with
  | nil => exact ⟨by simp [labelAndAddress?, hnone], address?_eq_none hbar⟩
  | cons d s ih =>
    obtain ⟨hlabels, hat⟩ := ih fun e he => hs e (by simp [he])
    refine ⟨by simp [labelAndAddress?, hlabels, hat], address?_eq_none ?_⟩
    rintro rfl
    exact absurd (hs _ List.mem_cons_self) (by decide)

theorem fullName_text {label address : String} (h : (Listed.function label address).Fits)
    (hb : before.any isWordChar = false) (hc : c ∈ [',', ']']) :
    fullName before ((Listed.function label address).text.toList ++ c :: t) =
      some (((Listed.function label address).text, label), c :: t) := by
  obtain ⟨hl, hlabel, haddress, hdigits⟩ := h
  have hhex := List.all_eq_true.1 hdigits
  obtain ⟨-, -, -, hdigit, hword, -⟩ := of_mem_ends c hc
  have hend : ∀ d ∈ (c :: t).head?, isHexDigit d = false := by simpa using hdigit
  have hat : address? ("_0x".toList ++ (address.toList ++ c :: t)) = some ("_0x".toList ++ address.toList, c :: t) := by
    rw [address?, after?_append, Option.bind_some]
    simp only [takeWhile_run hhex hend, dropWhile_run hhex hend]
    rw [if_neg (by simp [haddress, hword])]
  have hbare : labelAndAddress? ("_0x".toList ++ (address.toList ++ c :: t)) = none := by
    simp [labelAndAddress?, no_name_in_digits hhex hc, address?_eq_none]
  have hlead : isBoundary before (some 'f') = true := by
    rw [isBoundary, hb]
    decide
  have htext : (Listed.function label address).text.toList ++ c :: t =
      lead ++ (label.toList ++ ("_0x".toList ++ (address.toList ++ c :: t))) := by
    simp [Listed.text, lead]
  rw [fullName, htext, afterLead?, show (lead ++ (label.toList ++ ("_0x".toList ++ (address.toList ++ c :: t)))).head? =
    some 'f' from rfl, if_pos hlead, after?_append, Option.bind_some,
    labelAndAddress?_append hl.of_mem (by simpa using hlabel) hbare hat]
  simp [lead, Listed.text, ← String.toList_inj]

theorem not_fullName (h : after? lead s = none) : fullName before s = none := by
  simp [fullName, afterLead?, h]

theorem hits_fullName (hl : ∀ e ∈ listed, e.Fits) :
    hits fullName (declaration listed).toList = listed.filterMap Listed.function? := by
  have hplain : ∀ {b c} {s : List Char}, c ≠ 'f' → fullName b (c :: s) = none :=
    fun hc => not_fullName (after?_eq_none hc _)
  have hmarks : ∀ c ∈ "[, ]".toList, c ≠ 'f' := forall_mem_of_all (by decide)
  refine hits_declaration (fun b c hc s => hplain (hmarks c hc)) ?_ hl
  intro e he b hb c hc t
  have hend := fun b => @found_plain _ fullName b t c (hplain (of_mem_ends c hc).2.1)
  cases e with
  | string name =>
    have htext : (Listed.string name).text.toList ++ c :: t = ('"' :: name.toList) ++ '"' :: c :: t := by
      simp [Listed.text]
    rw [htext, found_append, found_plain (hplain (by decide)), hend]
    · rfl
    · intro b x y hxy _
      refine not_fullName ?_
      rw [after?_append_mark (by decide), Option.map_eq_none_iff]
      cases hy : after? lead y with
      | none => rfl
      | some rest =>
        have hinside : lead <:+: '"' :: name.toList := ⟨x, rest, by rw [hxy, eq_append_of_after? hy, List.append_assoc]⟩
        rcases List.infix_cons_iff.1 hinside with h | h
        · exact absurd (List.cons_prefix_cons.1 h).1 (by decide)
        · exact absurd h he.2
  | function label address =>
    have hread := fullName_text (t := t) he hb hc
    obtain ⟨d, ds, htext⟩ : ∃ d ds, (Listed.function label address).text.toList = d :: ds :=
      List.exists_cons_of_ne_nil (by simp [Listed.text])
    rw [htext] at hread ⊢
    rw [found_hit hread, hend]
    rfl

/-! ## Names -/

/-- The globals that a declaration declares. -/
def ofListed (listed : List Listed) : Globals := (({} : Globals).declare (declaration listed)).2

/-- What is shown for a quoted name: strings come before functions, and of two functions with one label the later one
counts. -/
def nameOf (listed : List Listed) (name : String) : String :=
  if .string name ∈ listed then "global_" ++ name
  else (((listed.filterMap Listed.function?).reverse.find? (·.2 = name)).map (·.1)).getD name

def quote (name : String) : String := "\"" ++ name ++ "\""

theorem stripQuotes_quote {name : String} (h : IsLabel name) (hne : name ≠ "") : stripQuotes (quote name) = name := by
  have hplain : ∀ c ∈ name.toList, (c == '"') = false := by
    intro c hc
    rw [beq_eq_false_iff_ne]
    rintro rfl
    exact absurd (h.of_mem _ hc) (by decide)
  have htrim : trimBoth (· == '"') (['"'] ++ (name.toList ++ ['"'])) = name.toList :=
    trimBoth_eq (by simp) (by simp) (fun c hc => hplain c (List.mem_of_mem_head? hc))
      (fun c hc => hplain c (List.mem_of_mem_getLast? hc)) (by simpa using hne)
  rw [stripQuotes, quote, String.append_assoc, String.toList_append, String.toList_append]
  exact (congrArg String.ofList htrim).trans String.ofList_toList

theorem get?_putAll (table : Table String String) (entries : List (String × String)) (k : String) :
    (table.putAll entries).get? k = ((entries.reverse.find? (·.1 = k)).map (·.2)).or (table.get? k) := by
  induction entries generalizing table with
  | nil => rfl
  | cons e entries ih =>
    rw [Table.putAll, List.foldl_cons, ← Table.putAll, ih, Table.get?_put, List.reverse_cons, List.find?_append]
    cases entries.reverse.find? (·.1 = k) <;> by_cases he : e.1 = k <;> simp [he]

theorem declare_snd (text : String) : (({} : Globals).declare text).2 =
    ⟨if hits quoted text.toList = [] then none else some (hits quoted text.toList).eraseDups,
      if hits fullName text.toList = [] then none else
        some (({} : Table String String).putAll ((hits fullName text.toList).map fun e => (e.2, e.1)))⟩ := by
  simp only [declare, List.isEmpty_iff]
  split <;> split <;> rfl

/-- A quoted name is shown as the declaration says. -/
theorem resolve_ofListed (hl : ∀ e ∈ listed, e.Fits) {name : String} (hn : IsLabel name) (hne : name ≠ "") :
    ((ofListed listed).resolve (quote name)).getD (stripQuotes (quote name)) = nameOf listed name := by
  have hmem : ∀ other, other ∈ listed.filterMap Listed.string? ↔ .string other ∈ listed := by
    intro other
    rw [List.mem_filterMap]
    constructor
    · rintro ⟨e, he, hother⟩
      cases e <;> cases hother
      exact he
    · exact fun h => ⟨_, h, rfl⟩
  have hquote : quote name ∉ listed.filterMap Listed.string? := fun h =>
    absurd ((hl _ ((hmem _).1 h)).1.of_mem '"' (by simp [quote])) (by decide)
  have hquotes : (!(opensWith (quote name) "\"" && closesWith (quote name) "\"")) = false := by
    simp [opensWith, closesWith, quote, after?]
  rw [resolve, hquotes, hasString, ofListed, declare_snd, hits_quoted hl, hits_fullName hl, stripQuotes_quote hn hne,
    nameOf, if_congr (hmem name).symm rfl rfl]
  generalize listed.filterMap Listed.string? = strings at hquote ⊢
  generalize listed.filterMap Listed.function? = functions
  have hstring : Option.any (fun s => s.contains (quote name) || s.contains name) (if strings = [] then none else
      some strings.eraseDups) = decide (name ∈ strings) := by
    split
    · simp [*]
    · simp [List.mem_eraseDups, hquote]
  have hfunction : (if functions = [] then none else some (({} : Table String String).putAll
      (functions.map fun e => (e.2, e.1)))).bind (·.get? name) = (functions.reverse.find? (·.2 = name)).map (·.1) := by
    split
    · simp [*]
    · rw [Option.bind_some, get?_putAll, show ({} : Table String String).get? name = none from rfl, Option.or_none,
        ← List.map_reverse, List.find?_map, Option.map_map]
      rfl
  simp only [hstring, hfunction]
  by_cases h : name ∈ strings <;> simp [h]

end Globals

end Bytelift
