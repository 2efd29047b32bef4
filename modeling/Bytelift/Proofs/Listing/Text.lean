import Bytelift.Proofs.Listing.Tree
import Bytelift.Proofs.Text.Lines

/-! Texts as a listing needs them: whether a line holds a mark, what stands in the gaps of a format, and the
lines of a text that was put together from lines. -/

namespace Bytelift.Text

/-! ## Marks -/

theorem isSome_after? {mark s : List Char} : (after? mark s).isSome = true ↔ mark <+: s := by
  constructor
  · intro h
    obtain ⟨rest, hr⟩ := Option.isSome_iff_exists.1 h
    exact ⟨rest, (eq_append_of_after? hr).symm⟩
  · rintro ⟨rest, rfl⟩
    simp

theorem isSome_cut? {mark s : List Char} : (cut? mark s).isSome = true ↔ mark <:+: s := by
  induction s with
  | nil =>
    rw [cut?, List.infix_nil]
    cases mark <;> simp
  | cons c cs ih =>
    rw [List.infix_cons_iff, ← isSome_after?, ← ih, cut?]
    cases after? mark (c :: cs) <;> simp

theorem has_eq_true {s mark : String} : has s mark = true ↔ mark.toList <:+: s.toList := isSome_cut?

theorem has_eq_false {s mark : String} : has s mark = false ↔ ¬mark.toList <:+: s.toList := by
  rw [← has_eq_true, Bool.not_eq_true]

theorem has_opening {mark opening : String} (h : mark.toList <+: opening.toList) (rest : String) :
    has (opening ++ rest) mark = true := by
  rw [has_eq_true, String.toList_append]
  exact (h.trans (List.prefix_append _ _)).isInfix

theorem has_within (a mark b : String) : has (a ++ mark ++ b) mark = true := by
  rw [has_eq_true, String.toList_append, String.toList_append]
  exact List.infix_append _ _ _

/-- No mark begins in a text that lacks the mark's first character. -/
theorem infix_append_of_notMem {p : Char} {ps a b : List Char} (ha : p ∉ a) (h : p :: ps <:+: a ++ b) :
    p :: ps <:+: b := by
  induction a with
  | nil => exact h
  | cons c cs ih =>
    rw [List.mem_cons, not_or] at ha
    rw [List.cons_append, List.infix_cons_iff] at h
    rcases h with hp | hi
    · exact absurd (List.cons_prefix_cons.1 hp).1 ha.1
    · exact ih ha.2 hi

/-- No mark begins in a text that lacks the mark's second character, if what follows does not begin with
it. -/
theorem infix_append_of_second {p q : Char} {ps a b : List Char} (ha : q ∉ a) (hb : q ∉ b.head?)
    (h : p :: q :: ps <:+: a ++ b) : p :: q :: ps <:+: b := by
  induction a with
  | nil => exact h
  | cons c cs ih =>
    rw [List.mem_cons, not_or] at ha
    rw [List.cons_append, List.infix_cons_iff] at h
    rcases h with hp | hi
    · have hq : q :: ps <+: cs ++ b := (List.cons_prefix_cons.1 hp).2
      cases cs with
      | nil =>
        obtain ⟨rest, rfl⟩ := hq
        simp at hb
      | cons d ds =>
        have hd : q = d := (List.cons_prefix_cons.1 hq).1
        exact absurd (hd ▸ List.mem_cons_self) ha.2
    · exact ih ha.2 hi

/-! ## Formats -/

theorem afterBlind?_append (fixed rest : List Char) : afterBlind? fixed (fixed ++ rest) = some rest := by
  induction fixed with
  | nil => rfl
  | cons p ps ih => simp [afterBlind?, ih]

/-- A gap takes the characters up to the first place where the rest is accepted. -/
theorem shortest_append {β : Type} {accept : List Char → Option β} {a rest : List Char} {b : β} (hne : a ≠ [])
    (hrest : accept rest = some b) (hskip : ∀ c cs, c :: cs <:+ a.tail → accept (c :: cs ++ rest) = none) :
    shortest accept (a ++ rest) = some (a, b) := by
  induction a with
  | nil => exact absurd rfl hne
  | cons c cs ih =>
    cases cs with
    | nil => simp [shortest, hrest]
    | cons d ds =>
      have hnone := hskip d ds List.suffix_rfl
      have hlater := ih (by simp) fun e es he => hskip e es (he.trans (List.suffix_cons d ds))
      simp only [List.cons_append, shortest] at hlater hnone ⊢
      rw [hnone, hlater]
      rfl

/-- The last gap takes all that is left. -/
theorem fillGaps_last {s : List Char} (hne : s ≠ []) : fillGaps [[]] s = some [s] := by
  have hs : shortest (fun rest => (afterBlind? [] rest).bind (fillGaps [])) (s ++ []) = some (s, []) := by
    refine shortest_append hne rfl ?_
    intro c cs _
    rfl
  rw [List.append_nil] at hs
  rw [fillGaps, hs]
  rfl

theorem fillGaps_cons {fixed a rest : List Char} {more others : List (List Char)} (hne : a ≠ [])
    (hskip : ∀ c cs, c :: cs <:+ a.tail → afterBlind? fixed (c :: cs ++ (fixed ++ rest)) = none)
    (hrest : fillGaps more rest = some others) :
    fillGaps (fixed :: more) (a ++ (fixed ++ rest)) = some (a :: others) := by
  rw [fillGaps, shortest_append (b := others) hne]
  · rfl
  · simp [afterBlind?_append, hrest]
  · intro c cs hc
    rw [hskip c cs hc, Option.bind_none]

/-- What is asked of a matcher, for texts that are cut where the fixed texts of a format first stand. -/
structure Matcher.Lawful (fit : Matcher) : Prop where
  /-- A gap at the end takes all that is left. -/
  last : ∀ opening gap, gap ≠ "" → fit ⟨opening, [""]⟩ (opening ++ gap) = some [gap]
  /-- Any other gap ends where the fixed text after it first stands, if the rest fits from there on. -/
  gap : ∀ opening fixed more gap rest others, gap ≠ "" →
    (∀ c cs, c :: cs <:+ gap.toList.tail → afterBlind? fixed.toList (c :: cs ++ (fixed ++ rest).toList) = none) →
    fit ⟨fixed, more⟩ (fixed ++ rest) = some others →
    fit ⟨opening, fixed :: more⟩ (opening ++ (gap ++ (fixed ++ rest))) = some (gap :: others)

/-- A gap ends at the first character of the fixed text after it. -/
theorem Matcher.Lawful.gap_of_notMem {fit : Matcher} (hfit : fit.Lawful) (opening gap : String)
    {fixed rest : String} {more others : List String} {p : Char} (hne : gap ≠ "") (hf : fixed.toList.head? = some p)
    (hp : ∀ c ∈ gap.toList, foldCase p ≠ foldCase c) (hrest : fit ⟨fixed, more⟩ (fixed ++ rest) = some others) :
    fit ⟨opening, fixed :: more⟩ (opening ++ (gap ++ (fixed ++ rest))) = some (gap :: others) := by
  refine hfit.gap _ _ _ _ _ _ hne (fun c cs hc => ?_) hrest
  have hmem : c ∈ gap.toList := List.mem_of_mem_tail (hc.subset List.mem_cons_self)
  obtain ⟨ps, hps⟩ := List.head?_eq_some_iff.1 hf
  simp [hps, afterBlind?, hp c hmem]

theorem Format.fit?_lawful : Matcher.Lawful Format.fit? where
  last opening gap hne := by
    rw [Format.fit?, String.toList_append, afterBlind?_append, Option.bind_some]
    change (fillGaps [[]] gap.toList).map _ = _
    rw [fillGaps_last (by simpa using hne)]
    simp
  gap opening fixed more gap rest others hne hskip hrest := by
    rw [Format.fit?, String.toList_append, afterBlind?_append, Option.bind_some] at hrest ⊢
    obtain ⟨filled, hfilled, rfl⟩ := Option.map_eq_some_iff.1 hrest
    rw [List.map_cons, String.toList_append, String.toList_append,
      fillGaps_cons (by simpa using hne) (by simpa using hskip) hfilled]
    simp

/-! ## Lines -/

theorem lineChars_append {a : List Char} (ha : ∀ c ∈ a, c ≠ '\n' ∧ c ≠ '\r') (b : List Char) :
    lineChars (a ++ '\n' :: b) = a :: lineChars b := by
  induction a with
  | nil => simp [lineChars]
  | cons c cs ih =>
    have hc := ha c List.mem_cons_self
    have hcs := ih fun d hd => ha d (List.mem_cons_of_mem _ hd)
    rw [List.cons_append, lineChars]
    · simp [hc, hcs]
    · intro _ he
      exact absurd he hc.2

theorem lines_join {lines : List String} (h : ∀ l ∈ lines, ∀ c ∈ l.toList, c ≠ '\n' ∧ c ≠ '\r') :
    Text.lines (String.join (lines.map (· ++ "\n"))) = lines ++ [""] := by
  unfold Text.lines
  rw [String.toList_join, List.flatMap_map]
  induction lines with
  | nil => rfl
  | cons l ls ih =>
    have hl := lineChars_append (h l List.mem_cons_self)
    have hls := ih fun m hm => h m (List.mem_cons_of_mem _ hm)
    rw [List.flatMap_cons, String.toList_append, List.append_assoc]
    change List.map _ (lineChars (l.toList ++ '\n' :: List.flatMap (fun a => (a ++ "\n").toList) ls)) = _
    rw [hl, List.map_cons, hls, String.ofList_toList, List.cons_append]

end Bytelift.Text

namespace Bytelift.Listing

open Text

section Ends

variable {a b : String}

theorem Unbroken.append (ha : Unbroken a) (hb : Unbroken b) : Unbroken (a ++ b) := by
  intro c hc
  rw [String.toList_append, List.mem_append] at hc
  exact hc.elim (ha c) (hb c)

theorem Unbroken.of_append (h : Unbroken (a ++ b)) : Unbroken b := by
  intro c hc
  exact h c (by simp [hc])

theorem Opens.append (h : Opens a) (b : String) : Opens (a ++ b) := by
  obtain ⟨c, hc, hb⟩ := h
  refine ⟨c, ?_, hb⟩
  rw [String.toList_append, List.head?_append]
  simp [Option.mem_def.1 hc]

theorem Closes.append (a : String) (h : Closes b) : Closes (a ++ b) := by
  obtain ⟨c, hc, hb⟩ := h
  refine ⟨c, ?_, hb⟩
  rw [String.toList_append, List.getLast?_append]
  simp [Option.mem_def.1 hc]

theorem Opens.ne_empty (h : Opens a) : a ≠ "" := by
  obtain ⟨c, hc, _⟩ := h
  rintro rfl
  simp at hc

theorem Closes.ne_empty (h : Closes a) : a ≠ "" := by
  obtain ⟨c, hc, _⟩ := h
  rintro rfl
  simp at hc

theorem unbroken_toString (n : Nat) : Unbroken (toString n) :=
  fun _ hc => ⟨ne_of_mem_toString hc (by decide), ne_of_mem_toString hc (by decide)⟩

theorem IsLine.strip_eq (h : IsLine a) : strip a = a := by
  obtain ⟨c, hc, hcb⟩ := h.opens
  obtain ⟨d, hd, hdb⟩ := h.closes
  have hne : a.toList ≠ [] := by
    intro he
    simp [he] at hc
  have ht := @trimBoth_eq isBlank [] a.toList [] (by simp) (by simp)
    (by simpa [Option.mem_def.1 hc] using hcb) (by simpa [Option.mem_def.1 hd] using hdb) hne
  rw [List.nil_append, List.append_nil] at ht
  rw [strip, ht, String.ofList_toList]

theorem IsLine.isEmpty_eq (h : IsLine a) : a.isEmpty = false := by
  rw [String.isEmpty_eq_false_iff]
  exact h.opens.ne_empty

end Ends

/-- The lines of a text that was put together from lines are handed out as they are. -/
theorem Feed.ofText_join {lines : List String} (h : ∀ l ∈ lines, IsLine l) (catalogue : Catalogue) :
    Feed.ofText catalogue (String.join (lines.map (· ++ "\n"))) = { rest := lines, catalogue } := by
  have hstrip : lines.map strip = lines :=
    (List.map_congr_left (g := id) fun l hl => (h l hl).strip_eq).trans (List.map_id lines)
  have hfilter : lines.filter (!·.isEmpty) = lines := by
    rw [List.filter_eq_self]
    intro l hl
    rw [(h l hl).isEmpty_eq]
    rfl
  unfold Feed.ofText
  rw [lines_join fun l hl => (h l hl).unbroken, List.map_append, hstrip, List.filter_append, hfilter]
  simp [strip, trimBoth, trimEnd]

end Bytelift.Listing
