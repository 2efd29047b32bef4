import Bytelift.Proofs.Brace.Word
import Bytelift.Proofs.Flow.Test

/-! The braces of a line of code while statements are written into its text. Whole lines are put before and
after the text; keywords are put to its first and last line, which are no braces while the line makes a jump;
and what is replaced when tests are joined neither makes a brace nor takes one away. -/

namespace Bytelift.Brace

open Text

/-! ## Whole lines -/

theorem word_prepend {x h : String} (hx : x = h ++ "\n") (t : String) :
    word (x ++ t) = word h ++ word t := by
  rw [word, split_prepend hx, inLines_append]
  rfl

theorem word_append {x h : String} (hx : x = "\n" ++ h) (t : String) :
    word (t ++ x) = word t ++ word h := by
  rw [word, split_append hx, inLines_append]
  rfl

theorem ofLine?_of_length {l : String} (h : 2 ≤ l.length) : ofLine? l = none := by
  unfold ofLine?
  have hopen : l ≠ "\x7b" := by
    intro he
    rw [he] at h
    exact absurd h (by decide)
  have hclose : l ≠ "\x7d" := by
    intro he
    rw [he] at h
    exact absurd h (by decide)
  rw [if_neg hopen, if_neg hclose]

theorem ofLine?_of_mem {l : String} {c : Char} (hc : c ∈ l.toList) (h1 : c ≠ '\x7b') (h2 : c ≠ '\x7d') :
    ofLine? l = none := by
  unfold ofLine?
  have hopen : l ≠ "\x7b" := by
    rintro rfl
    exact h1 (List.mem_singleton.1 hc)
  have hclose : l ≠ "\x7d" := by
    rintro rfl
    exact h2 (List.mem_singleton.1 hc)
  rw [if_neg hopen, if_neg hclose]

/-! ## Texts that statements may be written into -/

/-- A letter that none of the words has that are replaced when tests are joined. -/
def isPlain (c : Char) : Bool := c.isAlpha && c != 'i' && c != 'f'

/-- A line that is empty, a brace, or told from a brace by a letter. -/
def lettered (line : String) : Bool :=
  line.isEmpty || (ofLine? line).isSome || line.toList.any isPlain

/-- Besides, a bracket is closed at the end of the line only. -/
def tidy (line : String) : Bool := lettered line && !line.toList.dropLast.contains ')'

/-- The lines are tidy, and neither the first nor the last is a brace. -/
structure Fit (text : String) : Prop where
  tidy : ∀ l ∈ split text "\n", Brace.tidy l = true
  first : ∀ l ∈ (split text "\n").head?, ofLine? l = none
  last : ∀ l ∈ (split text "\n").getLast?, ofLine? l = none

instance (text : String) : Decidable (Fit text) :=
  decidable_of_iff ((∀ l ∈ split text "\n", Brace.tidy l = true) ∧
    (∀ l ∈ (split text "\n").head?, ofLine? l = none) ∧
    ∀ l ∈ (split text "\n").getLast?, ofLine? l = none)
    ⟨fun h => ⟨h.1, h.2.1, h.2.2⟩, fun h => ⟨h.tidy, h.first, h.last⟩⟩

theorem Fit.prepend {x h t : String} (ht : Fit t) (hx : x = h ++ "\n")
    (htidy : ∀ l ∈ split h "\n", Brace.tidy l = true)
    (hfirst : ∀ l ∈ (split h "\n").head?, ofLine? l = none) : Fit (x ++ t) where
  tidy := by
    intro l hl
    rw [split_prepend hx, List.mem_append] at hl
    exact hl.elim (htidy l) (ht.tidy l)
  first := by
    obtain ⟨first, rest, hs⟩ := List.exists_cons_of_ne_nil (split_ne_nil h)
    rw [split_prepend hx, hs]
    simpa [hs] using hfirst
  last := by
    rw [split_prepend hx, List.getLast?_append_of_ne_nil _ (split_ne_nil t)]
    exact ht.last

theorem Fit.append {x h t : String} (ht : Fit t) (hx : x = "\n" ++ h)
    (htidy : ∀ l ∈ split h "\n", Brace.tidy l = true)
    (hlast : ∀ l ∈ (split h "\n").getLast?, ofLine? l = none) : Fit (t ++ x) where
  tidy := by
    intro l hl
    rw [split_append hx, List.mem_append] at hl
    exact hl.elim (ht.tidy l) (htidy l)
  first := by
    obtain ⟨first, rest, hs⟩ := List.exists_cons_of_ne_nil (split_ne_nil t)
    rw [split_append hx, hs]
    have hfirst := ht.first
    rw [hs] at hfirst
    simpa using hfirst
  last := by
    rw [split_append hx, List.getLast?_append_of_ne_nil _ (split_ne_nil h)]
    exact hlast

/-! ## Keywords -/

/-- A keyword after a fit text is no brace, and takes none away. -/
theorem Fit.word_suffix {x t : String} (ht : Fit t) (hx : '\n' ∉ x.toList) (h2 : 2 ≤ x.length) :
    word (t ++ x) = word t := by
  obtain ⟨init, last, hs⟩ := List.eq_nil_or_concat (split t "\n") |>.resolve_left (split_ne_nil t)
  rw [List.concat_eq_append] at hs
  have hlast : ofLine? last = none := ht.last last (by simp [hs])
  have hlong : ofLine? (last ++ x) = none := ofLine?_of_length (by simp; omega)
  rw [word, word, split_suffix hx hs, hs]
  simp [inLines, hlast, hlong]

theorem Fit.word_prefix {x t : String} (ht : Fit t) (hx : '\n' ∉ x.toList) (h2 : 2 ≤ x.length) :
    word (x ++ t) = word t := by
  obtain ⟨first, rest, hs⟩ := List.exists_cons_of_ne_nil (split_ne_nil t)
  have hfirst : ofLine? first = none := ht.first first (by simp [hs])
  have hlong : ofLine? (x ++ first) = none := ofLine?_of_length (by simp; omega)
  rw [word, word, split_prefix hx hs, hs]
  simp [inLines, hfirst, hlong]

/-! ## Joined tests -/

theorem word_of_notMem {l : String} (h : '\n' ∉ l.toList) : word l = (ofLine? l).toList := by
  rw [word, split_of_notMem h]
  cases hl : ofLine? l <;> simp [inLines, hl]

/-- The braces of a text in which something is replaced, if in each line they stay what they are. -/
theorem word_replace {old new t : String} {p : Char} {ps : List Char} (ho : old.toList = p :: ps)
    (hn : '\n' ∉ p :: ps)
    (hl : ∀ l ∈ split t "\n", word (replace l old new) = (ofLine? l).toList) :
    word (replace t old new) = word t := by
  rw [word, split_replace ho hn, word]
  generalize split t "\n" = lines at hl
  induction lines with
  | nil => rfl
  | cons l lines ih =>
    rw [List.flatMap_cons, inLines_append, ih fun l hm => hl l (List.mem_cons_of_mem _ hm)]
    change word (replace l old new) ++ _ = _
    rw [hl l (by simp)]
    cases hb : ofLine? l <;> simp [inLines, hb]

theorem mem_of_ofLine? {l : String} (h : (ofLine? l).isSome) : ∀ c ∈ l.toList, c = '\x7b' ∨ c = '\x7d' := by
  unfold ofLine? at h
  split at h
  · next he =>
    rw [he]
    simp
  · split at h
    · next he =>
      rw [he]
      simp
    · simp at h

/-- Words that may be replaced by others without a brace being made or taken away. -/
structure Swappable (old new : String) : Prop where
  opens : ∃ p ps, old.toList = p :: ps ∧ p ≠ '\x7b' ∧ p ≠ '\x7d'
  old_line : '\n' ∉ old.toList
  new_line : '\n' ∉ new.toList
  plain : ∀ c ∈ old.toList, isPlain c = false

/-- A lettered line stays one, and stays the brace that it is or is not. -/
theorem Swappable.line {old new l : String} (h : Swappable old new) (hl : '\n' ∉ l.toList)
    (hlet : lettered l = true) : '\n' ∉ (replace l old new).toList ∧
      lettered (replace l old new) = true ∧ ofLine? (replace l old new) = ofLine? l := by
  obtain ⟨p, ps, ho, hp1, hp2⟩ := h.opens
  have hline : '\n' ∉ (replace l old new).toList := by
    rw [replace_eq, ho]
    intro hm
    exact (mem_of_mem_swap hm).elim hl h.new_line
  refine ⟨hline, ?_⟩
  unfold lettered at hlet
  simp only [Bool.or_eq_true] at hlet
  rcases hlet with (hempty | hbrace) | hplain
  · have he : replace l old new = l := by
      rw [← String.toList_inj, replace_eq, ho, swap_eq_self (List.mem_cons_self ..)]
      simp [String.isEmpty_iff.1 hempty]
    rw [he]
    exact ⟨by simp [lettered, hempty], rfl⟩
  · have he : replace l old new = l := by
      rw [← String.toList_inj, replace_eq, ho, swap_eq_self (List.mem_cons_self ..)]
      intro hm
      exact (mem_of_ofLine? hbrace p hm).elim hp1 hp2
    rw [he]
    exact ⟨by simp [lettered, hbrace], rfl⟩
  · obtain ⟨c, hc, hcp⟩ := List.any_eq_true.1 hplain
    have hkept : c ∈ (replace l old new).toList := by
      rw [replace_eq, ho]
      refine mem_swap_of_mem hc ?_
      intro hm
      rw [h.plain c (ho ▸ hm)] at hcp
      cases hcp
    have h1 : c ≠ '\x7b' := by
      rintro rfl
      cases hcp
    have h2 : c ≠ '\x7d' := by
      rintro rfl
      cases hcp
    refine ⟨?_, ?_⟩
    · unfold lettered
      rw [List.any_eq_true.2 ⟨c, hkept, hcp⟩, Bool.or_true]
    · rw [ofLine?_of_mem hkept h1 h2, ofLine?_of_mem hc h1 h2]

theorem Swappable.text {old new t : String} (h : Swappable old new)
    (ht : ∀ l ∈ split t "\n", lettered l = true) :
    word (replace t old new) = word t ∧
      ∀ l ∈ split (replace t old new) "\n", lettered l = true := by
  obtain ⟨p, ps, ho, _⟩ := h.opens
  have hn : '\n' ∉ p :: ps := ho ▸ h.old_line
  refine ⟨word_replace ho hn ?_, ?_⟩
  · intro l hl
    obtain ⟨hline, _, hb⟩ := h.line (notMem_of_mem_split hl) (ht l hl)
    rw [word_of_notMem hline, hb]
  · intro l hl
    rw [split_replace ho hn, List.mem_flatMap] at hl
    obtain ⟨k, hk, hl⟩ := hl
    obtain ⟨hline, hlet, _⟩ := h.line (notMem_of_mem_split hk) (ht k hk)
    rw [split_of_notMem hline, List.mem_singleton] at hl
    exact hl ▸ hlet

theorem Fit.lettered {t : String} (h : Fit t) : ∀ l ∈ split t "\n", Brace.lettered l = true := by
  intro l hl
  have ht := h.tidy l hl
  unfold Brace.tidy at ht
  simp only [Bool.and_eq_true] at ht
  exact ht.1

instance (old new : String) : Decidable (Swappable old new) :=
  decidable_of_iff (old.toList.head?.any (fun p => p != '\x7b' && p != '\x7d') = true ∧
    '\n' ∉ old.toList ∧ '\n' ∉ new.toList ∧ old.toList.all (!isPlain ·) = true) (by
      constructor
      · intro h
        obtain ⟨hopens, h1, h2, h3⟩ := h
        obtain ⟨p, hp, hne⟩ := (Option.any_eq_true _ _).1 hopens
        obtain ⟨ps, hs⟩ := List.head?_eq_some_iff.1 hp
        rw [Bool.and_eq_true, bne_iff_ne, bne_iff_ne] at hne
        exact ⟨⟨p, ps, hs, hne⟩, h1, h2, by simpa using h3⟩
      · intro h
        obtain ⟨p, ps, hs, hp1, hp2⟩ := h.opens
        exact ⟨by simp [hs, hp1, hp2], h.old_line, h.new_line, by simpa using h.plain⟩)

/-- Joining a test to another neither makes a brace nor takes one away. -/
theorem Fit.word_joinText {t keyword : String} (h : Fit t) (hk : keyword ∈ Flow.joinWords)
    (connective : FlowM.Connective) : word (Flow.joinText connective keyword t) = word t := by
  have hif : Swappable "if" keyword := by
    unfold Flow.joinWords at hk
    simp only [List.mem_cons, List.not_mem_nil, or_false] at hk
    rcases hk with rfl | rfl | rfl <;> decide
  have hnegate : word (FlowM.negate t) = word t ∧
      ∀ l ∈ split (FlowM.negate t) "\n", Brace.lettered l = true := by
    unfold FlowM.negate
    split
    · exact (by decide : Swappable " != " " == ").text h.lettered
    · split
      · exact (by decide : Swappable "!" "").text h.lettered
      · exact (by decide : Swappable "(" "(!").text h.lettered
  unfold Flow.joinText
  split
  · rw [(hif.text hnegate.2).1, hnegate.1]
  · exact (hif.text h.lettered).1

/-- An empty body after a test is no brace. -/
theorem Fit.word_empty_body {t : String} (h : Fit t) : word (replace t ")" ") \x7b\x7d\n") = word t := by
  refine word_replace rfl (by decide) ?_
  intro l hl
  have hline := notMem_of_mem_split hl
  have ht := h.tidy l hl
  unfold Brace.tidy at ht
  simp only [Bool.and_eq_true, Bool.not_eq_true', List.contains_eq_mem, decide_eq_false_iff_not] at ht
  by_cases hm : ')' ∈ l.toList
  · -- the bracket is the last character of the line
    obtain ⟨a, b, hab, ha⟩ := List.eq_append_cons_of_mem hm
    have hb : b = [] := by
      by_contra hne
      apply ht.2
      rw [hab, List.dropLast_append_of_ne_nil (by simp), List.dropLast_cons_of_ne_nil hne]
      simp
    have hreplaced : replace l ")" ") \x7b\x7d\n" = String.ofList (a ++ ") \x7b\x7d".toList) ++ "\n" := by
      rw [← String.toList_inj, replace_eq, hab, hb]
      change swap [')'] _ (a ++ ')' :: []) = _
      rw [swap_single ha]
      simp
    have hfree : '\n' ∉ (String.ofList (a ++ ") \x7b\x7d".toList)).toList := by
      rw [hab] at hline
      simp only [String.toList_ofList, List.mem_append, not_or]
      simp only [List.mem_append, not_or] at hline
      exact ⟨hline.1, by decide⟩
    have hbracket : ')' ∈ (String.ofList (a ++ ") \x7b\x7d".toList)).toList := by simp
    rw [hreplaced, ofLine?_of_mem hm (by decide) (by decide)]
    generalize String.ofList (a ++ ") \x7b\x7d".toList) = x at hfree hbracket
    have hx : word x = [] := by
      rw [word_of_notMem hfree, ofLine?_of_mem hbracket (by decide) (by decide)]
      rfl
    rw [word_append (by decide : "\n" = "\n" ++ ""), hx]
    decide
  · have he : replace l ")" ") \x7b\x7d\n" = l := by
      rw [← String.toList_inj, replace_eq]
      change swap [')'] _ l.toList = _
      exact swap_eq_self (List.mem_cons_self ..) hm
    rw [he, word_of_notMem hline]

end Bytelift.Brace
