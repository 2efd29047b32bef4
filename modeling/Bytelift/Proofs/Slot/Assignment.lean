import Bytelift.Proofs.Slot.Rounds
import Bytelift.Proofs.Text.Blank

/-! Where slots are assigned. Putting values in leaves the left side of an assignment alone and makes no new
assignment, so that in every round the same lines assign to a slot as in the beginning, and what is put in for
a slot is what the one such line now assigns. One such line: others may only clear the slot, or assign a text
with a blank in it, which is not counted. -/

namespace Bytelift

namespace Assignment

/-- An assignment sign between blanks is found if neither a quote nor another such sign stands before it. -/
theorem cutFrom?_append {before : Option Char} {left right : List Char} (hl : ∀ c ∈ left, c ∉ "=\x27\"".toList)
    (ha : assigns (left.getLast?.or before) right.head? = true) :
    cutFrom? .plain before (left ++ '=' :: right) = some (left, right) := by
  induction left generalizing before with
  | nil =>
    rw [List.nil_append, cutFrom?, if_pos (by simpa using ha)]
  | cons c left ih =>
    have hc := hl c (by simp)
    have hsign : c ≠ '=' := by
      rintro rfl
      exact hc (by decide)
    have hquote : Quoting.plain.next c = .plain := by
      have hne : ¬(c = '\x27' ∨ c = '"') := by
        rintro (rfl | rfl)
        · exact hc (by decide)
        · exact hc (by decide)
      simpa [Quoting.next] using hne
    have hlast : (left.getLast?.or (some c)) = ((c :: left).getLast?.or before) := by
      cases left with
      | nil => rfl
      | cons d left =>
        rw [List.getLast?_cons_cons, List.getLast?_cons, Option.some_or, Option.some_or]
    rw [List.cons_append, cutFrom?, if_neg (by simp [hsign]), hquote,
      ih (fun d hd => hl d (by simp [hd])) (by rwa [hlast])]
    rfl

/-! ## Past quotes and comparisons -/

/-- The search goes past a text, from one state of the quotes to another. -/
def Passes (text : List Char) (q r : Quoting) : Prop := ∀ before rest, ∃ after,
  cutFrom? q before (text ++ rest) = (cutFrom? r after rest).map fun cut => (text ++ cut.1, cut.2)

theorem Passes.append {a b : List Char} {p q r : Quoting} (ha : Passes a p q) (hb : Passes b q r) :
    Passes (a ++ b) p r := by
  intro before rest
  obtain ⟨middle, hmiddle⟩ := ha before (b ++ rest)
  obtain ⟨after, hafter⟩ := hb middle rest
  exact ⟨after, by simp [hmiddle, hafter, Function.comp_def]⟩

theorem passes_flatMap {α : Type} {q : Quoting} {text : α → List Char} {xs : List α}
    (h : ∀ x ∈ xs, Passes (text x) q q) : Passes (xs.flatMap text) q q := by
  induction xs with
  | nil => exact fun before _ => ⟨before, by simp⟩
  | cons x xs ih => exact (h x (by simp)).append (ih fun y hy => h y (by simp [hy]))

open Text in
/-- The escape of a character ends where it begins, inside the quotes. -/
theorem passes_constantChar (c : Char) : Passes (constantChar c) (.quoted '"') (.quoted '"') := by
  have hdigit : ∀ n < 16, hexDigit n ≠ '\\' ∧ hexDigit n ≠ '"' := by decide
  have hhex (n : Nat) := hdigit (n % 16) (Nat.mod_lt n (by decide))
  have hunit (n : Nat) : Passes (unitEscape n) (.quoted '"') (.quoted '"') := fun _ _ =>
    ⟨some (hexDigit (n % 16)), by simp [unitEscape, hexDigits, cutFrom?, Quoting.next, hhex, Function.comp_def]⟩
  unfold constantChar
  split
  iterate 7 exact fun _ _ => ⟨some _, by simp [cutFrom?, Quoting.next, Function.comp_def]; rfl⟩
  dsimp only
  split
  · have hc : c ≠ '\\' ∧ c ≠ '"' := ⟨‹_›, ‹_›⟩
    exact fun _ _ => ⟨some c, by simp [cutFrom?, Quoting.next, hc]⟩
  · split
    · exact hunit _
    · exact (hunit _).append (hunit _)

/-- String constants, and texts without quotes and such signs. -/
def IsPiece (text : String) : Prop :=
  (∃ s, text = Text.quoteConstant s) ∨ ∀ c ∈ text.toList, c ∉ "=\x27\"".toList

def comparisons : List String := [" == ", " === ", " != ", " !== ", " <= ", " >= ", " => "]

theorem passes_join {parts : List String} (h : ∀ part ∈ parts, IsPiece part ∨ part ∈ comparisons) :
    Passes (String.join parts).toList .plain .plain := by
  rw [String.toList_join]
  refine passes_flatMap fun part hp => ?_
  rcases h part hp with (⟨s, rfl⟩ | hs) | hc
  · have hopen : Passes ['"'] .plain (.quoted '"') := fun _ _ => ⟨some '"', by simp [cutFrom?, Quoting.next]⟩
    have hclose : Passes ['"'] (.quoted '"') .plain := fun _ _ => ⟨some '"', by simp [cutFrom?, Quoting.next]⟩
    rw [Text.quoteConstant, String.toList_ofList]
    exact hopen.append ((passes_flatMap fun c _ => passes_constantChar c).append hclose)
  · rw [← List.flatMap_singleton' part.toList]
    exact passes_flatMap fun c hm _ _ => ⟨some c, by simp_all [cutFrom?, Quoting.next]⟩
  · simp only [comparisons, List.mem_cons, List.not_mem_nil, or_false] at hc
    rcases hc with rfl | rfl | rfl | rfl | rfl | rfl | rfl <;>
      exact fun _ _ => ⟨some ' ', by simp [cutFrom?, assigns, Quoting.next, Function.comp_def]⟩

/-- The sign is found behind any pieces, and none is found in pieces and comparisons. -/
theorem position?_of_pieces {left parts : List String} (hl : ∀ part ∈ left, IsPiece part)
    (hp : ∀ part ∈ parts, IsPiece part ∨ part ∈ comparisons) :
    (∀ right, position? (String.join left ++ " = " ++ right) = some ((String.join left).length + 1)) ∧
      position? (String.join parts) = none := by
  constructor
  · intro right
    obtain ⟨after, hcut⟩ := passes_join (fun part h => Or.inl (hl part h)) none (" = " ++ right).toList
    rw [position?, cut?, String.append_assoc, String.toList_append, hcut]
    simp [cutFrom?, assigns, Quoting.next, ← String.length_toList, -String.toList_join, -String.length_join]
  · obtain ⟨after, hcut⟩ := passes_join hp none []
    rw [position?, cut?, ← List.append_nil (String.toList _), hcut]
    rfl

theorem position?_of_quotes : (∀ right, position? (String.join [Text.quoteConstant "=\x27\\\""] ++ " = " ++ right) =
      some ((String.join [Text.quoteConstant "=\x27\\\""]).length + 1)) ∧
    position? (String.join ["r0", " === ", "0"]) = none :=
  position?_of_pieces (by simp [IsPiece]) (by simp [IsPiece, comparisons])

end Assignment

namespace Slot

open Run Text

/-! ## Characters that no slot has -/

/-- A character that stands in no slot. -/
structure Foreign (c : Char) : Prop where
  unnamed : c ∉ "Scope[]".toList
  undecimal : isDecimal c = false

/-- A character that stands in no slot, and in no word that may be put in. -/
structure Mark (c : Char) : Prop extends Foreign c where
  unworded : isWordChar c = false
  unquoted : c ∉ "#$\"".toList

theorem mark_of_isBlank {c : Char} (h : isBlank c = true) : Mark c where
  unnamed := forall_blank (P := fun c => c ∉ "Scope[]".toList) (by decide +kernel) h
  undecimal := isDecimal_of_isBlank h
  unworded := isWordChar_of_isBlank h
  unquoted := forall_blank (P := fun c => c ∉ "#$\"".toList) (by decide +kernel) h

theorem mark_sign : Mark '=' := ⟨⟨by decide, by decide⟩, by decide, by decide⟩

theorem mark_space : Mark ' ' := mark_of_isBlank (by decide)

theorem Foreign.notMem_write {c : Char} (hc : Foreign c) {slot : Slot} (h : slot.Numbered) :
    c ∉ slot.write.toList := by
  intro hm
  rcases mem_write h hm with hm | hm
  · exact hc.unnamed hm
  · rw [hc.undecimal] at hm
    cases hm

theorem Foreign.ne_bracket {c : Char} (hc : Foreign c) : c ≠ '[' := by
  rintro rfl
  exact hc.unnamed (by decide)

/-! ## Putting values in, part by part -/

section Parts

variable {values : Values} {c : Char}

theorem reference_none_nil : reference none [] = none := rfl

theorem reference_append (hc : Foreign c) (s rest : List Char) : reference none (s ++ c :: rest) =
    (reference none s).map fun (slot, more) => (slot, more ++ c :: rest) := by
  have hhead : ∀ more : List Char, (more ++ c :: rest).head? ≠ some '[' ↔ more.head? ≠ some '[' := by
    intro more
    cases more with
    | nil => simpa using hc.ne_bracket
    | cons d more => rfl
  cases hs : reference none s with
  | some found =>
    obtain ⟨slot, more⟩ := found
    obtain ⟨hn, rfl, hne⟩ := reference_eq_some.1 hs
    exact reference_eq_some.2 ⟨hn, by rw [List.append_assoc], (hhead more).2 hne⟩
  | none =>
    cases hr : reference none (s ++ c :: rest) with
    | none => rfl
    | some found =>
      obtain ⟨slot, more⟩ := found
      obtain ⟨hn, he, hne⟩ := reference_eq_some.1 hr
      -- The slot ends before `c`, which it cannot hold, so it is a slot of the first part.
      have hpart : ∃ inside, s = slot.write.toList ++ inside ∧ more = inside ++ c :: rest := by
        rcases List.append_eq_append_iff.1 he with ⟨excess, hw, hexcess⟩ | ⟨inside, hs, hmore⟩
        · cases excess with
          | nil => exact ⟨[], by simpa using hw.symm, by simpa using hexcess.symm⟩
          | cons d excess =>
            obtain ⟨rfl, -⟩ := List.cons_eq_cons.1 hexcess
            exact absurd (by simp [hw]) (hc.notMem_write hn)
        · exact ⟨inside, hs, hmore⟩
      obtain ⟨inside, rfl, rfl⟩ := hpart
      rw [reference_eq_some.2 ⟨hn, rfl, (hhead inside).1 hne⟩] at hs
      cases hs

theorem putIn_append (hc : Foreign c) (s rest : List Char) :
    putIn values (s ++ c :: rest) = putIn values s ++ c :: putIn values rest := by
  induction s using forward_reference.induction with
  | nil =>
    have hr := reference_append hc [] rest
    rw [reference_none_nil] at hr
    exact putIn_plain hr
  | plain d s hr ih =>
    have hall := reference_append hc (d :: s) rest
    rw [hr, List.cons_append] at hall
    rw [putIn_plain hr, List.cons_append, List.cons_append, putIn_plain hall, ih]
  | hit d s slot more hr ih =>
    have hall := reference_append hc (d :: s) rest
    rw [hr, List.cons_append] at hall
    rw [putIn_hit hr, List.cons_append, putIn_hit hall, ih, List.append_assoc]

theorem Foreign.mem_putIn (hc : Foreign c) {s : List Char} (h : c ∈ s) : c ∈ putIn values s := by
  obtain ⟨before, rest, rfl⟩ := List.append_of_mem h
  rw [putIn_append hc]
  simp

/-- What ends in blanks still ends in them. -/
theorem putIn_append_blanks (s : List Char) {blanks : List Char} (hb : ∀ c ∈ blanks, isBlank c = true) :
    putIn values (s ++ blanks) = putIn values s ++ blanks := by
  induction blanks generalizing s with
  | nil => simp
  | cons c blanks ih =>
    have hc := (mark_of_isBlank (hb c (by simp))).toForeign
    have hrest : putIn values blanks = blanks := ih [] fun d hd => hb d (by simp [hd])
    rw [putIn_append hc, hrest]

theorem putIn_ne_nil (hv : Fit values) {s : List Char} (h : s ≠ []) : putIn values s ≠ [] := by
  cases s with
  | nil => exact absurd rfl h
  | cons d s =>
    cases hr : reference none (d :: s) with
    | none =>
      rw [putIn_plain hr]
      simp
    | some found =>
      obtain ⟨slot, more⟩ := found
      rw [putIn_hit hr]
      intro hnil
      have hleft := (List.append_eq_nil_iff.1 hnil).1
      cases hheld : held? values slot with
      | none =>
        rw [hheld] at hleft
        exact write_ne_nil slot hleft
      | some value =>
        rw [hheld] at hleft
        exact ne_nil_of_isPlain (hv slot value hheld) hleft

/-- A mark stands in the new text only where it stood in the old one. -/
theorem exists_of_putIn_eq (hv : Fit values) (hc : Mark c) {s left right : List Char}
    (h : putIn values s = left ++ c :: right) :
    ∃ before rest, s = before ++ c :: rest ∧ putIn values before = left ∧ putIn values rest = right := by
  have hvalue : ∀ slot : Slot, slot.Numbered → c ∉ ((held? values slot).getD slot.write).toList := by
    intro slot hn
    cases hheld : held? values slot with
    | none => exact hc.notMem_write hn
    | some value => exact notMem_of_isPlain (hv slot value hheld) hc.unworded hc.unquoted
  induction s using forward_reference.induction generalizing left with
  | nil => simp [putIn_nil] at h
  | plain d s hr ih =>
    rw [putIn_plain hr] at h
    cases left with
    | nil =>
      obtain ⟨rfl, rfl⟩ := List.cons_eq_cons.1 h
      exact ⟨[], s, rfl, rfl, rfl⟩
    | cons e left =>
      obtain ⟨rfl, he⟩ := List.cons_eq_cons.1 h
      obtain ⟨before, rest, rfl, rfl, rfl⟩ := ih he
      have hbefore : reference none (d :: before) = none := by
        have hall := reference_append hc.toForeign (d :: before) rest
        rw [List.cons_append, hr] at hall
        exact Option.map_eq_none_iff.1 hall.symm
      exact ⟨d :: before, rest, rfl, putIn_plain hbefore, rfl⟩
  | hit d s slot more hr ih =>
    obtain ⟨hn, hs, hne⟩ := reference_eq_some.1 hr
    rw [putIn_hit hr] at h
    -- What was put in for the slot does not hold the mark, so it stands before it.
    have hpart : ∃ inside, left = ((held? values slot).getD slot.write).toList ++ inside ∧
        putIn values more = inside ++ c :: right := by
      rcases List.append_eq_append_iff.1 h with ⟨inside, hl, hinside⟩ | ⟨excess, hw, hexcess⟩
      · exact ⟨inside, hl, hinside⟩
      · cases excess with
        | nil => exact ⟨[], by simpa using hw.symm, by simpa using hexcess.symm⟩
        | cons e excess =>
          obtain ⟨rfl, -⟩ := List.cons_eq_cons.1 hexcess
          exact absurd (by simp [hw]) (hvalue slot hn)
    obtain ⟨inside, rfl, hinside⟩ := hpart
    obtain ⟨before, rest, rfl, rfl, rfl⟩ := ih hinside
    refine ⟨slot.write.toList ++ before, rest, by rw [hs, List.append_assoc], putIn_write hn ?_, rfl⟩
    cases before with
    | nil => simp
    | cons e before => exact hne

theorem Mark.mem_putIn_iff (hv : Fit values) (hc : Mark c) {s : List Char} : c ∈ putIn values s ↔ c ∈ s := by
  constructor
  · intro h
    obtain ⟨left, right, he⟩ := List.append_of_mem h
    obtain ⟨before, rest, rfl, -⟩ := exists_of_putIn_eq hv hc he
    simp
  · exact hc.mem_putIn

theorem head?_of_putIn (hv : Fit values) (hc : Mark c) {s right : List Char} (h : putIn values s = c :: right) :
    ∃ rest, s = c :: rest ∧ putIn values rest = right := by
  have he : putIn values s = [] ++ c :: right := h
  obtain ⟨before, rest, rfl, hnil, rfl⟩ := exists_of_putIn_eq hv hc he
  cases before with
  | nil => exact ⟨rest, rfl, rfl⟩
  | cons d before => exact absurd hnil (putIn_ne_nil hv (by simp))

theorem getLast?_of_putIn (hv : Fit values) (hc : Mark c) {s : List Char}
    (h : (putIn values s).getLast? = some c) : s.getLast? = some c := by
  obtain ⟨left, he⟩ := List.getLast?_eq_some_iff.1 h
  obtain ⟨before, rest, rfl, -, hnil⟩ := exists_of_putIn_eq hv hc he
  cases rest with
  | nil => simp
  | cons d rest => exact absurd hnil (putIn_ne_nil hv (by simp))

end Parts

/-! ## The sign of an assignment -/

/-- What stands around a sign that assigns: blanks next to it, and no quote and no such sign before it. -/
structure Open (left right : List Char) : Prop where
  plain : ∀ c ∈ left, c ∉ "=\x27\"".toList
  before : left.getLast? = some ' '
  after : right.head? = some ' '

theorem foreign_of_mem {c : Char} (h : c ∈ "=\x27\"".toList) : Foreign c :=
  ⟨forall_mem_of_all (P := fun c => c ∉ "Scope[]".toList) (by decide) c h,
    forall_mem_of_all (P := fun c => isDecimal c = false) (by decide) c h⟩

theorem Open.cut? {left right : List Char} (h : Open left right) :
    Assignment.cut? (left ++ '=' :: right) = some (left, right) := by
  refine Assignment.cutFrom?_append h.plain ?_
  rw [h.before, h.after]
  decide

section Sign

variable {values : Values} {left right : List Char} {text : String}

/-- The sign of an assignment stays where it is, and only what stands after it changes. -/
theorem Open.exists_old (h : Open left right) (hv : Fit values)
    (ht : (propagate values text).toList = left ++ '=' :: right) :
    ∃ rest, text.toList = left ++ '=' :: rest ∧ putIn values rest = right := by
  unfold propagate at ht
  split at ht
  · next l r hcut =>
    have htext := Assignment.eq_append_of_cut? hcut
    rw [String.toList_ofList] at ht
    rcases List.append_eq_append_iff.1 ht with ⟨excess, hl, hexcess⟩ | ⟨excess, hl, hexcess⟩
    · cases excess with
      | nil => exact ⟨r, by rw [htext, hl, List.append_nil], (List.cons_eq_cons.1 hexcess).2⟩
      | cons c excess =>
        obtain ⟨rfl, -⟩ := List.cons_eq_cons.1 hexcess
        exact absurd (by decide) (h.plain '=' (by simp [hl]))
    · cases excess with
      | nil => exact ⟨r, by rw [htext, hl, List.append_nil], (List.cons_eq_cons.1 hexcess).2.symm⟩
      | cons c excess =>
        -- The first sign would assign, so the line is not cut at a later one.
        obtain ⟨rfl, hright⟩ := List.cons_eq_cons.1 hexcess
        have hopen : Open left (excess ++ '=' :: r) := by
          refine ⟨h.plain, h.before, ?_⟩
          have hafter := h.after
          rw [hright] at hafter
          cases excess with
          | nil => cases hafter
          | cons d excess => exact hafter
        have hfirst := hopen.cut?
        rw [← List.cons_append, ← List.append_assoc, ← hl, ← htext, hcut] at hfirst
        have hlength := congrArg List.length (Prod.mk.inj (Option.some.inj hfirst)).1
        rw [hl, List.length_append, List.length_cons] at hlength
        omega
  · next hcut =>
    rw [String.toList_ofList] at ht
    obtain ⟨before, rest, htext, hbefore, hrest⟩ := exists_of_putIn_eq hv mark_sign ht
    have hopen : Open before rest := by
      refine ⟨?_, getLast?_of_putIn hv mark_space (hbefore ▸ h.before), ?_⟩
      · intro c hm hc
        exact h.plain c (hbefore ▸ (foreign_of_mem hc).mem_putIn hm) hc
      · obtain ⟨more, hmore⟩ := List.head?_eq_some_iff.1 h.after
        obtain ⟨more, rfl, -⟩ := head?_of_putIn hv mark_space (hrest.trans hmore)
        rfl
    rw [htext, hopen.cut?] at hcut
    cases hcut

theorem Open.propagate (h : Open left right) (ht : text.toList = left ++ '=' :: right) :
    (propagate values text).toList = left ++ '=' :: putIn values right := by
  unfold Slot.propagate
  rw [ht, h.cut?]
  exact String.toList_ofList

end Sign

/-! ## Lines that assign to a slot -/

/-- The line assigns a text to a slot, whatever the text. -/
structure Assigns (line : CodeLine) (slot : Slot) (value : String) : Prop where
  numbered : slot.Numbered
  text : strip line.text = slot.write ++ " = " ++ value

/-- The assignment in its parts, with the blanks around it. -/
structure Parted (line : CodeLine) (slot : Slot) (value before after : List Char) : Prop where
  numbered : slot.Numbered
  filled : value ≠ []
  solid : ∀ c ∈ value.getLast?, isBlank c = false
  blankBefore : ∀ c ∈ before, isBlank c = true
  blankAfter : ∀ c ∈ after, isBlank c = true
  text : line.text.toList = (before ++ (slot.write.toList ++ [' '])) ++ '=' :: ' ' :: (value ++ after)

section Lines

variable {line : CodeLine} {slot : Slot} {values : Values}

theorem toList_assignment (slot : Slot) (value : String) :
    (slot.write ++ " = " ++ value).toList = slot.write.toList ++ ([' ', '=', ' '] ++ value.toList) := by
  simp [String.toList_append]

theorem getLast?_assignment (slot : Slot) {value : List Char} (h : value ≠ []) :
    (slot.write.toList ++ ([' ', '=', ' '] ++ value)).getLast? = value.getLast? := by
  rw [List.getLast?_append_of_ne_nil _ (by simp), List.getLast?_append_of_ne_nil _ h]

theorem assigns_iff {value : String} :
    Assigns line slot value ↔ ∃ before after, Parted line slot value.toList before after := by
  constructor
  · rintro ⟨hn, htext⟩
    obtain ⟨before, after, hline, hbefore, hafter, hlast⟩ := exists_trimBoth isBlank line.text.toList
    have htrim : trimBoth isBlank line.text.toList = slot.write.toList ++ ([' ', '=', ' '] ++ value.toList) := by
      rw [← toList_assignment, ← htext, strip, String.toList_ofList]
    have hfilled : value.toList ≠ [] := by
      intro he
      have hspace := hlast ' ' (by simp [htrim, he])
      revert hspace
      decide
    rw [htrim, getLast?_assignment slot hfilled] at hlast
    refine ⟨before, after, hn, hfilled, hlast, hbefore, hafter, ?_⟩
    rw [hline, htrim]
    simp
  · rintro ⟨before, after, h⟩
    refine ⟨h.numbered, ?_⟩
    have hhead : ∀ c ∈ (slot.write.toList ++ ([' ', '=', ' '] ++ value.toList)).head?, isBlank c = false := by
      rw [toList_write]
      intro c hc
      cases hc
      decide
    have hlast : ∀ c ∈ (slot.write.toList ++ ([' ', '=', ' '] ++ value.toList)).getLast?,
        isBlank c = false := by
      rw [getLast?_assignment slot h.filled]
      exact h.solid
    have htext : line.text.toList =
        before ++ ((slot.write.toList ++ ([' ', '=', ' '] ++ value.toList)) ++ after) := by
      rw [h.text]
      simp
    rw [strip, htext, trimBoth_eq h.blankBefore h.blankAfter hhead hlast (by simp), ← toList_assignment,
      String.ofList_toList]

theorem Assigns.unique {value other : String} (h : Assigns line slot value) (ho : Assigns line slot other) :
    value = other := by
  have he := congrArg String.toList (h.text.symm.trans ho.text)
  rw [toList_assignment, toList_assignment] at he
  exact String.toList_inj.1 (List.append_cancel_left (List.append_cancel_left he))

theorem Parted.opens {value before after : List Char} (h : Parted line slot value before after) (rest : List Char) :
    Open (before ++ (slot.write.toList ++ [' '])) (' ' :: rest) where
  plain c hm hc := by
    rw [List.mem_append, List.mem_append, List.mem_singleton] at hm
    rcases hm with hm | hm | rfl
    · exact forall_blank (P := fun c => c ∉ "=\x27\"".toList) (by decide +kernel) (h.blankBefore c hm) hc
    · exact (foreign_of_mem hc).notMem_write h.numbered hm
    · revert hc
      decide
  before := by simp
  after := rfl

/-- Values are put into the assigned text and nowhere else. -/
theorem Parted.propagated (hv : Fit values) {value before after : List Char}
    (h : Parted line slot value before after) :
    Parted (propagateLine values line) slot (putIn values value) before after := by
  have hsolid : ∀ c ∈ (putIn values value).getLast?, isBlank c = false := by
    intro c hc
    by_contra hblank
    have hlast := getLast?_of_putIn hv (mark_of_isBlank (by simpa using hblank)) hc
    exact hblank (h.solid c hlast)
  have hspace : putIn values (' ' :: (value ++ after)) = ' ' :: (putIn values value ++ after) := by
    rw [← putIn_append_blanks value h.blankAfter]
    exact putIn_append mark_space.toForeign [] _
  refine ⟨h.numbered, putIn_ne_nil hv h.filled, hsolid, h.blankBefore, h.blankAfter, ?_⟩
  rw [text_propagateLine, (h.opens _).propagate h.text, hspace]

theorem Parted.exists_old (hv : Fit values) {value before after : List Char}
    (h : Parted (propagateLine values line) slot value before after) :
    ∃ old rest, Parted line slot old before rest := by
  obtain ⟨right, htext, hright⟩ := (h.opens _).exists_old hv h.text
  obtain ⟨tail, rfl, htail⟩ := head?_of_putIn hv mark_space hright
  obtain ⟨rest, hsplit, hrest, hlast⟩ := exists_trimEnd isBlank tail
  refine ⟨trimEnd isBlank tail, rest, h.numbered, ?_, hlast, h.blankBefore, hrest, by rw [htext, ← hsplit]⟩
  -- A text that is all blanks would still be, and the value does not end in a blank.
  intro hnil
  rw [hnil, List.nil_append] at hsplit
  have hsame : putIn values rest = rest := putIn_append_blanks [] hrest
  rw [hsplit, hsame] at htail
  have hblank : isBlank (value.getLast h.filled) = true :=
    hrest _ (htail ▸ List.mem_append_left _ (List.getLast_mem h.filled))
  rw [h.solid _ (List.getLast?_eq_getLast_of_ne_nil h.filled)] at hblank
  cases hblank

/-- The same slots are assigned as before, and to the same texts with values put in. -/
theorem assigns_propagateLine (hv : Fit values) {value : String} :
    Assigns (propagateLine values line) slot value ↔
      ∃ old, Assigns line slot old ∧ value = String.ofList (putIn values old.toList) := by
  have hforth : ∀ old, Assigns line slot old →
      Assigns (propagateLine values line) slot (String.ofList (putIn values old.toList)) := by
    intro old hold
    obtain ⟨before, after, hparted⟩ := assigns_iff.1 hold
    refine assigns_iff.2 ⟨before, after, ?_⟩
    rw [String.toList_ofList]
    exact hparted.propagated hv
  constructor
  · intro h
    obtain ⟨before, after, hparted⟩ := assigns_iff.1 h
    obtain ⟨old, rest, hold⟩ := hparted.exists_old hv
    have hassigns : Assigns line slot (String.ofList old) :=
      assigns_iff.2 ⟨before, rest, by rwa [String.toList_ofList]⟩
    exact ⟨_, hassigns, h.unique (hforth _ hassigns)⟩
  · rintro ⟨old, hold, rfl⟩
    exact hforth old hold

def Spaced (value : String) : Prop := ∃ c ∈ value.toList, isBlank c = true

theorem spaced_putIn (hv : Fit values) {value : String} :
    Spaced (String.ofList (putIn values value.toList)) ↔ Spaced value := by
  unfold Spaced
  rw [String.toList_ofList]
  refine exists_congr fun c => and_congr_left fun hc => ?_
  exact (mark_of_isBlank hc).mem_putIn_iff hv

theorem assigned?_eq_some {value : String} :
    assigned? line.text = some (slot, value) ↔ Assigns line slot value ∧ ¬Spaced value := by
  have hsolid : ∀ rest : List Char, rest.any isBlank = false ↔ ¬Spaced (String.ofList rest) := by
    intro rest
    rw [Spaced, String.toList_ofList, Bool.eq_false_iff, ne_eq, List.any_eq_true]
  constructor
  · intro h
    obtain ⟨⟨found, rest⟩, hread, h⟩ := Option.bind_eq_some_iff.1 h
    obtain ⟨text, hafter, h⟩ := Option.bind_eq_some_iff.1 h
    rw [Option.ite_none_left_eq_some, Bool.or_eq_true, not_or, Option.some.injEq, Prod.mk.injEq] at h
    obtain ⟨⟨_, hblank⟩, rfl, rfl⟩ := h
    obtain ⟨hn, hstrip⟩ := read?_eq_some.1 hread
    refine ⟨⟨hn, ?_⟩, (hsolid text).1 (by simpa using hblank)⟩
    rw [← String.toList_inj, hstrip, eq_append_of_after? hafter, toList_assignment]
    simp only [String.toList_ofList]
    rfl
  · rintro ⟨h, hspaced⟩
    obtain ⟨before, after, hparted⟩ := assigns_iff.1 h
    have hread : read? (strip line.text).toList = some (slot, [' ', '=', ' '] ++ value.toList) :=
      read?_eq_some.2 ⟨h.numbered, by rw [h.text, toList_assignment]⟩
    have hafter : after? " = ".toList ([' ', '=', ' '] ++ value.toList) = some value.toList := after?_append _ _
    have hfull : value.toList.isEmpty = false := by simpa using hparted.filled
    have hnone : value.toList.any isBlank = false := (hsolid _).2 (by rwa [String.ofList_toList])
    simp only [assigned?, hread, Option.bind_some, hafter, hfull, hnone, Bool.or_self, Bool.false_eq_true, if_false,
      String.ofList_toList]

/-- What counts as an assignment: a text without blanks, and not one that only clears the slot. -/
theorem givenBy_eq_some {value : String} :
    givenBy slot line = some value ↔ Assigns line slot value ∧ ¬Spaced value ∧ isVoid value = false := by
  rw [← and_assoc, ← assigned?_eq_some, givenBy, Option.bind_eq_some_iff]
  constructor
  · rintro ⟨⟨target, given⟩, hassigned, h⟩
    obtain ⟨⟨rfl, hvoid⟩, he⟩ := Option.ite_none_right_eq_some.1 h
    cases he
    exact ⟨hassigned, hvoid⟩
  · rintro ⟨hassigned, hvoid⟩
    exact ⟨_, hassigned, if_pos ⟨rfl, hvoid⟩⟩

theorem spaced_or_void {value : String} (hg : givenBy slot line = none) (h : Assigns line slot value) :
    Spaced value ∨ isVoid value = true := by
  by_contra hno
  rw [not_or, Bool.not_eq_true] at hno
  rw [givenBy_eq_some.2 ⟨h, hno⟩] at hg
  cases hg

end Lines

/-! ## Lines through the rounds -/

/-- The functions after a number of rounds. -/
def stage (functions : Functions) : Nat → Functions
  | 0 => functions
  | k + 1 => (round (stage functions k)).2

theorem Settles.exists_stage {functions settled : Functions} {rounds : List Round}
    (h : Settles functions rounds settled) : settled = stage functions rounds.length := by
  have hshift : ∀ functions k, stage (round functions).2 k = stage functions (k + 1) := by
    intro functions k
    induction k with
    | zero => rfl
    | succ k ih =>
      rw [stage, ih]
      rfl
  induction h with
  | done h => rfl
  | again h _ ih => rw [ih, hshift, List.length_cons]

/-- A line and what rounds have made of it: it assigns to the same slots, and blanks neither come nor go. -/
def Carried (line now : CodeLine) : Prop :=
  ∀ slot, (∀ old, Assigns line slot old → ∃ value, Assigns now slot value ∧ (Spaced value ↔ Spaced old)) ∧
    ∀ value, Assigns now slot value → ∃ old, Assigns line slot old

theorem Carried.refl (line : CodeLine) : Carried line line :=
  fun _ => ⟨fun old h => ⟨old, h, Iff.rfl⟩, fun value h => ⟨value, h⟩⟩

theorem Carried.propagated {line now : CodeLine} {values : Values} (h : Carried line now) (hv : Fit values) :
    Carried line (propagateLine values now) := by
  intro slot
  constructor
  · intro old hold
    obtain ⟨value, hvalue, hspaced⟩ := (h slot).1 old hold
    exact ⟨_, (assigns_propagateLine hv).2 ⟨value, hvalue, rfl⟩, (spaced_putIn hv).trans hspaced⟩
  · intro value hvalue
    obtain ⟨old, hold, -⟩ := (assigns_propagateLine hv).1 hvalue
    exact (h slot).2 old hold

theorem carried_stage (functions : Functions) (k : Nat) :
    List.Forall₂ Carried (linesOf functions) (linesOf (stage functions k)) := by
  induction k with
  | zero => exact List.forall₂_same.2 fun line _ => Carried.refl line
  | succ k ih =>
    rw [stage, linesOf_round, List.forall₂_map_right_iff]
    exact ih.imp fun _ _ h => h.propagated (fit_valuesOf _)

/-! ## What is put in -/

/-- The one line that gives a slot its value. In the beginning it assigned some text, now it assigns the value;
every other line that assigned to the slot either held a blank in what it assigned or now only clears it. -/
structure GivenOnce (lines now : List CodeLine) (slot : Slot) (value : String) (i : Nat) : Prop where
  first : ∃ line text, lines[i]? = some line ∧ Assigns line slot text
  current : ∃ line, now[i]? = some line ∧ Assigns line slot value
  kept : isVoid value = false
  others : ∀ j line text, j ≠ i → lines[j]? = some line → Assigns line slot text →
    Spaced text ∨ ∃ later cleared, now[j]? = some later ∧ Assigns later slot cleared ∧ isVoid cleared = true

theorem exists_getElem?_of_forall₂ {α β : Type} {related : α → β → Prop} {as : List α} {bs : List β}
    (h : List.Forall₂ related as bs) {i : Nat} {a : α} (ha : as[i]? = some a) :
    ∃ b, bs[i]? = some b ∧ related a b := by
  induction h generalizing i with
  | nil => simp at ha
  | cons hr _ ih =>
    cases i with
    | zero =>
      cases ha
      exact ⟨_, rfl, hr⟩
    | succ i => exact ih ha

theorem exists_givenOnce {functions : Functions} {k : Nat} {slot : Slot} {value : String}
    (h : held? (valuesOf (stage functions k)) slot = some value) :
    ∃ i, GivenOnce (linesOf functions) (linesOf (stage functions k)) slot value i := by
  have hcarried := carried_stage functions k
  obtain ⟨hgiven, -⟩ := held?_valuesOf.1 h
  obtain ⟨before, line, after, hlines, hbefore, hline, hafter⟩ := List.filterMap_eq_cons_iff.1 hgiven
  rw [List.filterMap_eq_nil_iff] at hafter
  obtain ⟨hassigns, -, hvoid⟩ := givenBy_eq_some.1 hline
  have hcurrent : (linesOf (stage functions k))[before.length]? = some line := by simp [hlines]
  have helse : ∀ j later, j ≠ before.length → (linesOf (stage functions k))[j]? = some later →
      givenBy slot later = none := by
    intro j later hj hlater
    rw [hlines] at hlater
    rcases Nat.lt_or_gt_of_ne hj with hlt | hgt
    · rw [List.getElem?_append_left hlt] at hlater
      exact hbefore later (List.mem_of_getElem? hlater)
    · obtain ⟨d, rfl⟩ : ∃ d, j = before.length + (d + 1) := ⟨j - before.length - 1, by omega⟩
      rw [List.getElem?_append_right (by omega), Nat.add_sub_cancel_left, List.getElem?_cons_succ] at hlater
      exact hafter later (List.mem_of_getElem? hlater)
  refine ⟨before.length, ?_, ⟨line, hcurrent, hassigns⟩, hvoid, ?_⟩
  · obtain ⟨old, hold, hcarry⟩ := exists_getElem?_of_forall₂ hcarried.flip hcurrent
    obtain ⟨text, htext⟩ := (hcarry slot).2 value hassigns
    exact ⟨old, text, hold, htext⟩
  · intro j old text hj hold htext
    obtain ⟨later, hlater, hcarry⟩ := exists_getElem?_of_forall₂ hcarried hold
    obtain ⟨now, hnow, hspaced⟩ := (hcarry slot).1 text htext
    rcases spaced_or_void (helse j later hj hlater) hnow with hblank | hcleared
    · exact Or.inl (hspaced.1 hblank)
    · exact Or.inr ⟨later, now, hlater, hnow, hcleared⟩

/-- The second text is the first with values put in for some of the slots that stand in it. -/
inductive Rewrites (value : Slot → String → Prop) : List Char → List Char → Prop
  | nil : Rewrites value [] []
  | keep (c : Char) {s t : List Char} (h : Rewrites value s t) : Rewrites value (c :: s) (c :: t)
  | put {slot : Slot} {v : String} {s t : List Char} (hv : value slot v) (h : Rewrites value s t) :
    Rewrites value (slot.write.toList ++ s) (v.toList ++ t)

section Rewrites

variable {value : Slot → String → Prop} {values : Values}

theorem Rewrites.append (s : List Char) {t u : List Char} (h : Rewrites value t u) :
    Rewrites value (s ++ t) (s ++ u) := by
  induction s with
  | nil => exact h
  | cons c s ih => exact .keep c ih

theorem rewrites_putIn (hv : ∀ slot v, held? values slot = some v → value slot v) (s : List Char) :
    Rewrites value s (putIn values s) := by
  induction s using forward_reference.induction with
  | nil => exact .nil
  | plain c cs hr ih =>
    rw [putIn_plain hr]
    exact .keep c ih
  | hit c cs slot rest hr ih =>
    obtain ⟨_, hs, _⟩ := reference_eq_some.1 hr
    rw [putIn_hit hr, hs]
    cases hheld : held? values slot with
    | none => exact ih.append _
    | some v => exact .put (hv slot v hheld) ih

theorem rewrites_propagate (hv : ∀ slot v, held? values slot = some v → value slot v) (text : String) :
    Rewrites value text.toList (propagate values text).toList := by
  unfold propagate
  split
  · next left right hcut =>
    rw [String.toList_ofList, Assignment.eq_append_of_cut? hcut]
    exact (Rewrites.keep '=' (rewrites_putIn hv right)).append left
  · rw [String.toList_ofList]
    exact rewrites_putIn hv text.toList

end Rewrites

/-- Settling is a number of rounds, and what a round puts in for a slot is what the one line that counts as an
assignment to it now assigns. -/
theorem settleSlots_puts_only_value {σ : Type} [HasConsole σ] (verbosity : Int) (functions : Functions) (s : σ) :
    ∃ n, (Yields (settleSlots verbosity functions) s fun answer _ => answer.2 = stage functions n) ∧
      ∀ k < n, List.Forall₂ (fun old new => Rewrites (fun slot value =>
          ∃ i, GivenOnce (linesOf functions) (linesOf (stage functions k)) slot value i)
        old.text.toList new.text.toList) (linesOf (stage functions k)) (linesOf (stage functions (k + 1))) := by
  refine ⟨(allRounds functions).1.length, ?_, ?_⟩
  · refine (yields_settleSlots verbosity functions s).mono ?_
    rintro answer _ rfl
    exact (settles_allRounds functions).exists_stage
  · intro k _
    rw [stage, linesOf_round, List.forall₂_map_right_iff, List.forall₂_same]
    intro line _
    exact rewrites_propagate (fun _ _ => exists_givenOnce) line.text

/-- A slot that is assigned a word, and a text with blanks. -/
def assignedTwice : Functions :=
  let code : List CodeLine :=
    [{ text := "Scope[1][2] = foo" }, { text := "Scope[1][2] = a + b" }, { text := "r0 = Scope[1][2]" }]
  ⟨[("f", { name := "f", code := some code })]⟩

/-- The word is put in for the slot although another line assigns to it. -/
theorem allRounds_assignedTwice :
    (linesOf (allRounds assignedTwice).2).map (·.text) = ["Scope[1][2] = foo", "Scope[1][2] = a + b", "r0 = foo"] ∧
      Assigns { text := "Scope[1][2] = foo" } ⟨"1", "2"⟩ "foo" ∧
      Assigns { text := "Scope[1][2] = a + b" } ⟨"1", "2"⟩ "a + b" := by
  have hslot : Numbered ⟨"1", "2"⟩ :=
    ⟨⟨by decide, List.all_eq_true.1 (by decide)⟩, ⟨by decide, List.all_eq_true.1 (by decide)⟩⟩
  exact ⟨by decide +kernel, ⟨hslot, by decide +kernel⟩, ⟨hslot, by decide +kernel⟩⟩

end Slot

end Bytelift
