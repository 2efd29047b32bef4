import Bytelift.Proofs.Brace.Text
import Bytelift.Proofs.Flow.Layout

/-! Braces stay balanced while statements are written into the code. Between two jumps every block is
closed; while one is handled, there is at most one block that has been opened and not closed, and it is
closed further on. How the jumps overlap does not matter: a block may be closed later without harm to
those that are closed in between. -/

namespace Bytelift

open Run Text Brace

namespace Flow

def words (lines : List CodeLine) : List Brace := lines.flatMap fun line => word line.rendered

@[simp] theorem words_nil : words [] = [] := rfl

@[simp] theorem words_append (a b : List CodeLine) : words (a ++ b) = words a ++ words b :=
  List.flatMap_append

@[simp] theorem words_cons (line : CodeLine) (lines : List CodeLine) :
    words (line :: lines) = word line.rendered ++ words lines := rfl

def upTo (p : Offset) (lines : List CodeLine) : List CodeLine :=
  lines.filter fun l => decide (l.offset.value ≤ p.value)

def past (p : Offset) (lines : List CodeLine) : List CodeLine :=
  lines.filter fun l => decide (p.value < l.offset.value)

/-- A block has been opened that is still to be closed, after the line at an offset. -/
def Pending (flow : Flow) (p : Offset) : Prop :=
  Balanced (words (upTo p flow.code) ++ .closing :: words (past p flow.code))

/-- The texts of the lines that make jumps can be written into, but for those at some offsets. -/
def FitBut (flow : Flow) (others : List Offset) : Prop :=
  ∀ i, flow.Exit i → (flow.jump i).start ∉ others → Fit (flow.text (flow.jump i).start)

/-- All blocks are closed, and the texts of the lines that make jumps can be written into. -/
structure Braced (flow : Flow) : Prop where
  balanced : Balanced (words flow.code)
  fit : flow.FitBut []

/-! ## One line among the others -/

section Slices

variable {p : Offset} {lines : List CodeLine}

@[simp] theorem upTo_append (a b : List CodeLine) : upTo p (a ++ b) = upTo p a ++ upTo p b :=
  List.filter_append a b

@[simp] theorem past_append (a b : List CodeLine) : past p (a ++ b) = past p a ++ past p b :=
  List.filter_append a b

theorem upTo_of_le (h : ∀ l ∈ lines, l.offset.value ≤ p.value) : upTo p lines = lines :=
  List.filter_eq_self.2 fun l hl => decide_eq_true (h l hl)

theorem upTo_of_lt (h : ∀ l ∈ lines, p.value < l.offset.value) : upTo p lines = [] :=
  List.filter_eq_nil_iff.2 fun l hl hle => absurd (of_decide_eq_true hle) (Int.not_le.2 (h l hl))

theorem past_of_lt (h : ∀ l ∈ lines, p.value < l.offset.value) : past p lines = lines :=
  List.filter_eq_self.2 fun l hl => decide_eq_true (h l hl)

theorem past_of_le (h : ∀ l ∈ lines, l.offset.value ≤ p.value) : past p lines = [] :=
  List.filter_eq_nil_iff.2 fun l hl hlt => absurd (of_decide_eq_true hlt) (Int.not_lt.2 (h l hl))

theorem upTo_append_past (h : lines.Pairwise fun a b => a.offset.value < b.offset.value) :
    upTo p lines ++ past p lines = lines := by
  induction lines with
  | nil => rfl
  | cons line lines ih =>
    rw [List.pairwise_cons] at h
    by_cases hle : line.offset.value ≤ p.value
    · have hup : upTo p (line :: lines) = line :: upTo p lines :=
        List.filter_cons_of_pos (decide_eq_true hle)
      have hpast : past p (line :: lines) = past p lines :=
        List.filter_cons_of_neg (by simpa using hle)
      rw [hup, hpast, List.cons_append, ih h.2]
    · -- every line after this one is past the offset as well
      have hlt : ∀ l ∈ line :: lines, p.value < l.offset.value := by
        intro l hl
        rcases List.mem_cons.1 hl with rfl | hl
        · omega
        · have := h.1 l hl
          omega
      rw [upTo_of_lt hlt, past_of_lt hlt, List.nil_append]

/-- Around a line, when the offset is its own. -/
theorem upTo_split {before after : List CodeLine} {line : CodeLine}
    (hb : ∀ l ∈ before, l.offset.value < line.offset.value)
    (ha : ∀ l ∈ after, line.offset.value < l.offset.value) :
    upTo line.offset (before ++ line :: after) = before ++ [line] ∧
      past line.offset (before ++ line :: after) = after := by
  have hle : ∀ l ∈ before ++ [line], l.offset.value ≤ line.offset.value := by
    intro l hl
    rcases List.mem_append.1 hl with hl | hl
    · exact Int.le_of_lt (hb l hl)
    · exact Int.le_of_eq (by rw [List.mem_singleton.1 hl])
  rw [List.append_cons, upTo_append, past_append, upTo_of_le hle, past_of_le hle, upTo_of_lt ha,
    past_of_lt ha]
  simp

end Slices

theorem Filing.grows {flow : Flow} (h : flow.Filing) :
    flow.code.Pairwise fun a b => a.offset.value < b.offset.value := by
  have hg := h.ascending.grows
  rw [h.lines, List.pairwise_map] at hg
  exact hg

/-- The line at an offset with those before and after it, and what becomes of them when it is revised. -/
theorem Filing.exists_split {flow : Flow} (h : flow.Filing) {o : Offset} (ho : o ∈ flow.offsets) :
    ∃ before line after, flow.code = before ++ line :: after ∧ line.offset = o ∧
      flow.text o = line.rendered ∧ (∀ l ∈ before, l.offset.value < o.value) ∧
      (∀ l ∈ after, o.value < l.offset.value) ∧
      ∀ f : String → String, (flow.revised o f).code =
        before ++ { line with rendered := f line.rendered } :: after := by
  rw [h.lines] at ho
  obtain ⟨line, hl, rfl⟩ := List.mem_map.1 ho
  obtain ⟨before, after, hc⟩ := List.append_of_mem hl
  have hg := h.grows
  rw [hc, List.pairwise_append, List.pairwise_cons] at hg
  have hbefore : ∀ l ∈ before, l.offset.value < line.offset.value := fun l hl =>
    hg.2.2 l hl line (by simp)
  have hkeep : ∀ (f : String → String) (lines : List CodeLine),
      (∀ l ∈ lines, l.offset.value ≠ line.offset.value) →
      lines.map (CodeLine.revised line.offset f) = lines := by
    intro f lines hne
    have hid : lines.map (CodeLine.revised line.offset f) = lines.map id := by
      apply List.map_congr_left
      intro l hl
      unfold CodeLine.revised
      rw [if_neg fun he => hne l hl (by rw [he])]
      rfl
    rwa [List.map_id] at hid
  refine ⟨before, line, after, hc, rfl, h.text_eq hl, hbefore, hg.2.1.1, ?_⟩
  intro f
  unfold Flow.revised
  rw [hc, List.map_append, List.map_cons, hkeep f before, hkeep f after]
  · simp [CodeLine.revised]
  · intro l hl
    have := hg.2.1.1 l hl
    omega
  · intro l hl
    have := hbefore l hl
    omega

/-! ## Opening and closing blocks -/

section Edits

variable {flow : Flow} {o p : Offset} {f : String → String}

theorem words_revised (h : flow.Filing) (ho : o ∈ flow.offsets)
    (hw : word (f (flow.text o)) = word (flow.text o)) :
    words (flow.revised o f).code = words flow.code := by
  obtain ⟨before, line, after, hc, _, ht, _, _, hr⟩ := h.exists_split ho
  rw [ht] at hw
  rw [hr, hc]
  simp [hw]

/-- A block that is opened is to be closed. -/
theorem pending_opening (h : flow.Filing) (ho : o ∈ flow.offsets) (hb : Balanced (words flow.code))
    (hw : word (f (flow.text o)) = word (flow.text o) ++ [.opening] ∨
      word (f (flow.text o)) = .opening :: word (flow.text o)) :
    (flow.revised o f).Pending o := by
  obtain ⟨before, line, after, hc, rfl, ht, hbefore, hafter, hr⟩ := h.exists_split ho
  obtain ⟨hup, hpast⟩ :=
    @upTo_split before after { line with rendered := f line.rendered } hbefore hafter
  unfold Pending Brace.Balanced at *
  rw [hr, hup, hpast]
  rw [hc, words_append, words_cons] at hb
  rw [ht] at hw
  simp only [words_append, words_cons, words_nil, List.append_nil]
  rcases hw with hw | hw
  · rw [hw, ← hb]
    have he := depth?_opening_closing 0 (words before ++ word line.rendered) (words after)
    simpa using he
  · have he := depth?_opening_closing 0 (words before) (word line.rendered ++ words after)
    rw [hb] at he
    have hm := @depth?_closing_right 0 0 (words before ++ [.opening]) (word line.rendered)
      (words after) (by simpa using he)
    rw [hw]
    simpa using hm

/-- The block that is to be closed after a line may be closed within a later one as well. -/
theorem pending_split (h : flow.Filing) (ho : o ∈ flow.offsets) (hlt : p.value < o.value)
    (hp : flow.Pending p) : ∃ (before : List CodeLine) (line : CodeLine) (after : List CodeLine),
      line.offset = o ∧ flow.text o = line.rendered ∧
      (∀ l ∈ before, l.offset.value < o.value) ∧ (∀ l ∈ after, o.value < l.offset.value) ∧
      (∀ f : String → String, (flow.revised o f).code =
        before ++ { line with rendered := f line.rendered } :: after) ∧
      ∀ v w, word line.rendered = v ++ w →
        depth? 0 (words before ++ (v ++ .closing :: (w ++ words after))) = some 0 := by
  obtain ⟨before, line, after, hc, rfl, ht, hbefore, hafter, hr⟩ := h.exists_split ho
  refine ⟨before, line, after, rfl, ht, hbefore, hafter, hr, ?_⟩
  intro v w hvw
  have hgrows := h.grows
  rw [hc, List.pairwise_append] at hgrows
  have hrest : ∀ l ∈ line :: after, p.value < l.offset.value := by
    intro l hl
    rcases List.mem_cons.1 hl with rfl | hl
    · exact hlt
    · exact Int.lt_trans hlt (hafter l hl)
  unfold Pending Brace.Balanced at hp
  rw [hc, upTo_append, past_append, upTo_of_lt hrest, past_of_lt hrest, List.append_nil, words_append,
    words_cons, hvw] at hp
  have hm := @depth?_closing_right 0 0 (words (upTo p before)) (words (past p before) ++ v)
    (w ++ words after) (by simpa using hp)
  rw [← upTo_append_past (p := p) hgrows.1, words_append]
  simpa using hm

/-- A block is closed on a later line, before what that has or after it. -/
theorem balanced_closing (h : flow.Filing) (ho : o ∈ flow.offsets) (hp : flow.Pending p)
    (hlt : p.value < o.value)
    (hw : word (f (flow.text o)) = word (flow.text o) ++ [.closing] ∨
      word (f (flow.text o)) = .closing :: word (flow.text o)) :
    Balanced (words (flow.revised o f).code) := by
  obtain ⟨before, line, after, _, ht, _, _, hr, hmoved⟩ := pending_split h ho hlt hp
  unfold Brace.Balanced
  rw [hr, words_append, words_cons]
  rw [ht] at hw
  rcases hw with hw | hw
  · have hm := hmoved (word line.rendered) [] (by simp)
    simpa [hw] using hm
  · have hm := hmoved [] (word line.rendered) rfl
    simpa [hw] using hm

/-- The block may be closed at the end of the line as well that it is to be closed after. -/
theorem pending_split_end (h : flow.Filing) (ho : o ∈ flow.offsets) (hle : p.value ≤ o.value)
    (hpo : p.isNumber) (hp : flow.Pending p) :
    ∃ (before : List CodeLine) (line : CodeLine) (after : List CodeLine),
      line.offset = o ∧ flow.text o = line.rendered ∧
      (∀ l ∈ before, l.offset.value < o.value) ∧ (∀ l ∈ after, o.value < l.offset.value) ∧
      (∀ f : String → String, (flow.revised o f).code =
        before ++ { line with rendered := f line.rendered } :: after) ∧
      depth? 0 (words before ++ (word line.rendered ++ .closing :: words after)) = some 0 := by
  by_cases hlt : p.value < o.value
  · obtain ⟨before, line, after, hl, ht, hb, ha, hr, hmoved⟩ := pending_split h ho hlt hp
    have hm := hmoved (word line.rendered) [] (by simp)
    exact ⟨before, line, after, hl, ht, hb, ha, hr, by simpa using hm⟩
  · have he : p = o := Offset.eq_of_value hpo (h.ascending.numbers _ ho) (by omega)
    subst he
    obtain ⟨before, line, after, hc, rfl, ht, hb, ha, hr⟩ := h.exists_split ho
    obtain ⟨hup, hpast⟩ := upTo_split hb ha
    unfold Pending Brace.Balanced at hp
    rw [hc, hup, hpast] at hp
    exact ⟨before, line, after, rfl, ht, hb, ha, hr, by simpa using hp⟩

theorem balanced_closing_end (h : flow.Filing) (ho : o ∈ flow.offsets) (hle : p.value ≤ o.value)
    (hpo : p.isNumber) (hp : flow.Pending p)
    (hw : word (f (flow.text o)) = word (flow.text o) ++ [.closing]) :
    Balanced (words (flow.revised o f).code) := by
  obtain ⟨before, line, after, _, ht, _, _, hr, hdepth⟩ := pending_split_end h ho hle hpo hp
  rw [ht] at hw
  unfold Brace.Balanced
  rw [hr, words_append, words_cons, hw]
  simpa using hdepth

/-- A block is closed at the end of a line and another one opened there. -/
theorem pending_next (h : flow.Filing) (ho : o ∈ flow.offsets) (hle : p.value ≤ o.value)
    (hpo : p.isNumber) (hp : flow.Pending p)
    (hw : word (f (flow.text o)) = word (flow.text o) ++ [.closing, .opening]) :
    (flow.revised o f).Pending o := by
  obtain ⟨before, line, after, rfl, ht, hb, ha, hr, hdepth⟩ := pending_split_end h ho hle hpo hp
  obtain ⟨hup, hpast⟩ := @upTo_split before after { line with rendered := f line.rendered } hb ha
  rw [ht] at hw
  have he := depth?_opening_closing 0 (words before ++ (word line.rendered ++ [.closing])) (words after)
  have hd : depth? 0 (words before ++ (word line.rendered ++ [.closing]) ++ words after) = some 0 := by
    simpa using hdepth
  rw [hd] at he
  unfold Pending Brace.Balanced
  rw [hr, hup, hpast]
  simpa [hw] using he

end Edits

/-! ## Texts of the jumps -/

section Fitness

variable {flow : Flow} {o : Offset} {f : String → String} {others : List Offset}

/-- No two of the tests and skips start on one line. -/
theorem Filing.start_ne (h : flow.Filing) {i j : Nat} (hi : i < flow.jumps.length)
    (hj : j < flow.jumps.length) (hki : (flow.jump i).kind = .test ∨ (flow.jump i).kind = .skip)
    (hkj : (flow.jump j).kind = .test ∨ (flow.jump j).kind = .skip) (hne : i ≠ j) :
    (flow.jump i).start ≠ (flow.jump j).start := by
  rcases hki with hki | hki
  · rcases hkj with hkj | hkj
    · exact fun hs => hne (h.once i j hi hj (hki.trans hkj.symm) hs)
    · exact h.apart i j hi hj hki hkj
  · rcases hkj with hkj | hkj
    · exact (h.apart j i hj hi hkj hki).symm
    · exact fun hs => hne (h.once i j hi hj (hki.trans hkj.symm) hs)

namespace FitBut

theorem revised (h : flow.FitBut others) (hs : flow.Sound) (hf : ∀ t, Fit t → Fit (f t)) :
    (flow.revised o f).FitBut others := by
  intro i hi hm
  have hfit := h i hi hm
  rw [jump_revised, text_revised hs (hs.exit_aimed hi).1]
  split
  · exact hf _ hfit
  · exact hfit

/-- Whatever is written on a line that is excepted. -/
theorem revised_anyhow (h : flow.FitBut others) (hs : flow.Sound) (o : Offset) (f : String → String) :
    (flow.revised o f).FitBut (o :: others) := by
  intro i hi hm
  rw [jump_revised, List.mem_cons, not_or] at hm
  rw [jump_revised, text_revised hs (hs.exit_aimed hi).1, if_neg hm.1]
  exact h i hi hm.2

theorem retired (h : flow.FitBut others) {i : Nat} (hi : i < flow.jumps.length) :
    (flow.retired i).FitBut others := by
  intro j hj hm
  rw [start_retired] at hm ⊢
  exact h j ⟨((open_retired hi).1 hj.1).1, by simpa using hj.2⟩ hm

/-- The line of a jump that is done need not be excepted. -/
theorem drop (h : flow.FitBut (o :: others)) (hs : flow.Filing) {i : Nat} (hi : i < flow.jumps.length)
    (hk : (flow.jump i).kind = .test ∨ (flow.jump i).kind = .skip) (ho : (flow.jump i).start = o)
    (hdone : ¬flow.Open i) : flow.FitBut others := by
  intro j hj hm
  refine h j hj ?_
  simp only [List.mem_cons, not_or]
  refine ⟨?_, hm⟩
  rw [← ho]
  refine hs.start_ne hj.1.1 hi hj.2 hk ?_
  rintro rfl
  exact hdone hj.1

/-- A jump is done with, so its line is not excepted any more. -/
theorem finished {i : Nat} (h : flow.FitBut ((flow.jump i).start :: others)) (hs : flow.Sound)
    (hi : i < flow.jumps.length) (hk : (flow.jump i).kind = .test ∨ (flow.jump i).kind = .skip) :
    (flow.retired i).FitBut others := by
  refine (h.retired hi).drop (i := i) (hs.retired hi).toFiling ?_ ?_ ?_ ?_
  · simpa using hi
  · simpa using hk
  · simp
  · intro hopen
    exact ((open_retired hi).1 hopen).2 rfl

/-- Whatever is written on the line of a jump that is then done with. -/
theorem settled (h : flow.FitBut others) (hs : flow.Sound) {i : Nat} (hi : flow.Exit i)
    (f : String → String) : ((flow.revised (flow.jump i).start f).retired i).FitBut others :=
  finished (h.revised_anyhow hs _ f) (hs.revised _ _) hi.1.1 hi.2

end FitBut

end Fitness

/-! ## One jump -/

section Statements

variable {flow : Flow}

theorem Braced.shown (h : flow.Braced) (hs : flow.Sound) {i : Nat} (hi : flow.Exit i) {keyword : String}
    (hk : keyword = "break" ∨ keyword = "continue") : (flow.shown keyword i).Braced where
  balanced := by
    have hfit := h.fit i hi (by simp)
    have hline : '\n' ∉ keyword.toList ∧ '\n' ∉ (" " ++ keyword).toList ∧ 2 ≤ keyword.length ∧
        2 ≤ (" " ++ keyword).length := by
      rcases hk with rfl | rfl <;> decide
    have hw : word (flow.marked keyword (flow.jump i) (flow.text (flow.jump i).start)) =
        word (flow.text (flow.jump i).start) := by
      unfold marked
      split
      · exact hfit.word_suffix hline.2.1 hline.2.2.2
      · split
        · exact hfit.word_prefix hline.1 hline.2.2.1
        · exact hfit.word_suffix hline.1 hline.2.2.1
    rw [Flow.shown, code_retired, words_revised hs.toFiling (hs.exit_aimed hi).1 hw]
    exact h.balanced
  fit := h.fit.settled hs hi _

theorem Braced.exits {result : Flow} (h : flow.Braced) (hs : flow.Sound) (he : flow.Exits result) :
    result.Braced := by
  induction he with
  | none => exact h
  | more hk hi _ ih => exact ih (h.shown hs hi hk) (hs.shown hi _)

theorem Braced.joins {result : Flow} (h : flow.Braced) (hs : flow.Sound) (hj : flow.Joins result) :
    result.Braced := by
  induction hj with
  | none => exact h
  | @more flow result connective keyword i hk hi _ ih =>
    refine ih ⟨?_, h.fit.settled hs hi.exit _⟩ ((hs.revised _ _).retired hi.1.1)
    have hw := (h.fit i hi.exit (by simp)).word_joinText hk connective
    rw [joined, code_retired, words_revised hs.toFiling (hs.exit_aimed hi.exit).1 hw]
    exact h.balanced

/-- The end of a block, put before a text or after it. -/
theorem word_blockEnd (t : String) : word (FlowM.blockEnd ++ t) = .closing :: word t ∧
    word (t ++ FlowM.blockEnd) = word t ++ [.closing] := by
  have hbefore : FlowM.blockEnd = "\n\x7d" ++ "\n" := rfl
  have hafter : FlowM.blockEnd = "\n" ++ "\x7d\n" := rfl
  have hword : word "\n\x7d" = [.closing] ∧ word "\x7d\n" = [.closing] := by decide
  rw [word_prepend hbefore, word_append hafter, hword.1, hword.2]
  exact ⟨rfl, rfl⟩

theorem fit_blockEnd {t : String} (h : Fit t) : Fit (FlowM.blockEnd ++ t) ∧ Fit (t ++ FlowM.blockEnd) :=
  ⟨h.prepend (h := "\n\x7d") rfl (by decide) (by decide),
    h.append (h := "\x7d\n") rfl (by decide) (by decide)⟩

theorem balanced_closedAt (h : flow.Filing) {p o : Offset} (ho : o ∈ flow.offsets) (hp : flow.Pending p)
    (hlt : p.value < o.value) : Balanced (words (flow.closedAt o).code) := by
  refine balanced_closing h ho hp hlt ?_
  split
  · exact Or.inr (word_blockEnd _).1
  · exact Or.inl (word_blockEnd _).2

theorem FitBut.closedAt {others : List Offset} (h : flow.FitBut others) (hs : flow.Sound) (o : Offset) :
    (flow.closedAt o).FitBut others := by
  refine h.revised hs ?_
  intro t ht
  split
  · exact (fit_blockEnd ht).1
  · exact (fit_blockEnd ht).2

theorem Braced.loop {i : Nat} {closed : Offset} (h : flow.Braced) (hs : flow.Sound) (hi : flow.Open i)
    (hm : (flow.jump i).start ∈ flow.offsets)
    (hc : closed ∈ flow.offsets) (hlt : (flow.jump i).start.value < closed.value) :
    (((flow.revised (flow.jump i).start ("while (true)\n\x7b\n" ++ ·)).closedAt closed).retired
      i).Braced where
  balanced := by
    have hopened : (flow.revised (flow.jump i).start ("while (true)\n\x7b\n" ++ ·)).Pending
        (flow.jump i).start := by
      refine pending_opening hs.toFiling hm h.balanced (Or.inr ?_)
      have hword : word "while (true)\n\x7b" = [.opening] := by decide
      rw [word_prepend (by decide : "while (true)\n\x7b\n" = "while (true)\n\x7b" ++ "\n"), hword]
      rfl
    exact balanced_closedAt (hs.revised _ _).toFiling hc hopened hlt
  fit := by
    refine ((h.fit.revised hs ?_).closedAt (hs.revised _ _) _).retired hi.1
    intro t ht
    exact ht.prepend (h := "while (true)\n\x7b") (by decide) (by decide) (by decide)

theorem FitBut.withHandler {i skip : Nat} (h : flow.FitBut [(flow.jump skip).start]) (hs : flow.Sound)
    (hso : flow.Open skip) (hsk : (flow.jump skip).kind = .skip) (hi : i < flow.jumps.length) :
    (((flow.withHandler skip).retired skip).retired i).FitBut [] := by
  have hfiled : (flow.withHandler skip).FitBut [(flow.jump skip).start] := fun j hj hm => h j hj hm
  have hlen : skip < (flow.withHandler skip).jumps.length := hso.1
  have hsound := hs.withHandler ⟨hso, Or.inr hsk⟩ hsk
  exact (hfiled.finished hsound hlen (Or.inr hsk)).retired (by simpa using hi)

theorem Braced.guarded {i : Nat} (h : flow.Braced) (hs : flow.Sound) (hi : flow.Open i)
    (hk : (flow.jump i).kind = .guarded) (hm : (flow.jump i).start ∈ flow.offsets) :
    (flow.guardedWith i ((flow.table .skip).get? (flow.jump i).stop)).Braced := by
  have ha := hs.aimed i hi
  unfold Aimed at ha
  rw [hk] at ha
  obtain ⟨hnum, hstop, hle⟩ := ha
  have hsound := hs.revised (flow.jump i).start ("try\n\x7b\n" ++ ·)
  have hopened : (flow.revised (flow.jump i).start ("try\n\x7b\n" ++ ·)).Pending
      (flow.jump i).start := by
    refine pending_opening hs.toFiling hm h.balanced (Or.inr ?_)
    have hword : word "try\n\x7b" = [.opening] := by decide
    rw [word_prepend (by decide : "try\n\x7b\n" = "try\n\x7b" ++ "\n"), hword]
    rfl
  have hfit : (flow.revised (flow.jump i).start ("try\n\x7b\n" ++ ·)).FitBut [] :=
    h.fit.revised hs fun t ht => ht.prepend (h := "try\n\x7b") (by decide) (by decide) (by decide)
  cases hskip : (flow.table .skip).get? (flow.jump i).stop with
  | none =>
    refine ⟨?_, FitBut.retired (hfit.revised hsound ?_) hi.1⟩
    · refine balanced_closing_end hsound.toFiling hstop (hle hm) hnum hopened ?_
      rw [word_append (by decide : "\n\x7d\ncatch \x7b\x7d\n" = "\n" ++ "\x7d\ncatch \x7b\x7d\n")]
      exact congrArg (word _ ++ ·) (by decide)
    · intro t ht
      exact ht.append (h := "\x7d\ncatch \x7b\x7d\n") (by decide) (by decide) (by decide)
  | some skip =>
    obtain ⟨hso, hsk, hss⟩ := (hs.filed _ _ _ (by simp)).1 (hs.lookup.1 hskip)
    obtain ⟨hsm, hse, hsle, _⟩ := hs.exit_aimed ⟨hso, Or.inr hsk⟩
    have hmiddle := hsound.revised (flow.jump skip).start (· ++ "\n\x7d\ncatch\n\x7b")
    have hnext : ((flow.revised (flow.jump i).start ("try\n\x7b\n" ++ ·)).revised (flow.jump skip).start
        (· ++ "\n\x7d\ncatch\n\x7b")).Pending (flow.jump skip).start := by
      refine pending_next hsound.toFiling hsm (hss ▸ hle hm) hnum hopened ?_
      rw [word_append (by decide : "\n\x7d\ncatch\n\x7b" = "\n" ++ "\x7d\ncatch\n\x7b")]
      exact congrArg (word _ ++ ·) (by decide)
    have hbut := (hfit.revised_anyhow hsound (flow.jump skip).start
      (· ++ "\n\x7d\ncatch\n\x7b")).revised (o := (flow.jump skip).stop) hmiddle
        (fun t ht => (fit_blockEnd ht).2)
    refine ⟨?_, ?_⟩
    · exact balanced_closing_end hmiddle.toFiling hse hsle (hs.ascending.numbers _ hsm) hnext
        (word_blockEnd _).2
    · exact hbut.withHandler (hmiddle.revised _ _) hso hsk hi.1

/-- The lines of the conditions before the last one, and that of the last one, are of jumps that are done. -/
theorem Braced.bodied {last : Nat} {result : Flow} (h : flow.Braced) (hs : flow.Sound)
    (hlen : last < flow.jumps.length) (hk : (flow.jump last).kind = .test) (hdone : ¬flow.Open last)
    (hm : (flow.jump last).start ∈ flow.offsets)
    (hle : (flow.jump last).start.value ≤ (flow.jump last).stop.value)
    (hb : flow.Bodied (flow.jump last) result) : result.Braced := by
  have hsound := hs.revised (flow.jump last).start (· ++ "\n\x7b")
  have hopened : (flow.revised (flow.jump last).start (· ++ "\n\x7b")).Pending
      (flow.jump last).start := by
    refine pending_opening hs.toFiling hm h.balanced (Or.inl ?_)
    have hword : word "\x7b" = [.opening] := by decide
    rw [word_append (by decide : "\n\x7b" = "\n" ++ "\x7b"), hword]
  have hfit : (flow.revised (flow.jump last).start (· ++ "\n\x7b")).FitBut [] :=
    (h.fit.revised_anyhow hs _ _).drop hsound.toFiling hlen (Or.inl hk) rfl hdone
  cases hb with
  | plain hc hlt =>
    exact ⟨balanced_closedAt hsound.toFiling hc hopened hlt, hfit.closedAt hsound _⟩
  | @split past closed hp hpk hps hc hlt =>
    obtain ⟨hpm, _⟩ := hs.exit_aimed ⟨hp, Or.inr hpk⟩
    have hnum := hs.ascending.numbers _ hm
    have hmiddle := hsound.revised (flow.jump past).start (· ++ "\n\x7d\nelse\n\x7b")
    have hnext : ((flow.revised (flow.jump last).start (· ++ "\n\x7b")).revised (flow.jump past).start
        (· ++ "\n\x7d\nelse\n\x7b")).Pending (flow.jump past).start := by
      refine pending_next hsound.toFiling hpm (hps ▸ hle) hnum hopened ?_
      have hword : word "\x7d\nelse\n\x7b" = [.closing, .opening] := by decide
      rw [word_append (by decide : "\n\x7d\nelse\n\x7b" = "\n" ++ "\x7d\nelse\n\x7b"), hword]
    have hbut := (hfit.revised_anyhow hsound (flow.jump past).start
      (· ++ "\n\x7d\nelse\n\x7b")).closedAt hmiddle closed
    exact ⟨balanced_closedAt hmiddle.toFiling hc hnext hlt,
      hbut.finished (hmiddle.closedAt _) hp.1 (Or.inr hpk)⟩

theorem Braced.conditional {i : Nat} {result : Flow} (h : flow.Braced) (hs : flow.Sound)
    (hi : flow.Test i) (hn : ¬flow.SkipAfterTest) (hc : FlowM.Conditional flow i result) :
    result.Braced := by
  cases hc with
  | empty _ =>
    refine ⟨?_, h.fit.settled hs hi.exit _⟩
    have hsame := words_revised (f := (replace · ")" ") \x7b\x7d\n")) hs.toFiling
      (hs.exit_aimed hi.exit).1 (h.fit i hi.exit (by simp)).word_empty_body
    rw [code_retired, hsame]
    exact h.balanced
  | @full last told joined _ hl hj hclosed hb =>
    obtain rfl : told = flow := hl.told.resolve_right hn
    have hon := hj.onward
    have hsound := hs.joins hj
    refine (h.joins hs hj).bodied hsound ?_ ?_ hclosed ?_ ?_ hb
    · rw [hon.length]
      exact hl.test.1.1
    · rw [hon.kind]
      exact hl.test.2
    · rw [hon.start, hon.offsets]
      exact (hs.exit_aimed hl.test.exit).1
    · rw [hon.start, hon.stop]
      exact Int.le_of_lt hl.forward

/-- Handling a jump leaves all blocks closed, however it overlaps with the others. -/
theorem Braced.handled {i : Nat} {result : Flow} (h : flow.Braced) (hs : flow.Sound)
    (hn : ¬flow.SkipAfterTest) (hd : FlowM.Handled flow i result) : result.Braced := by
  cases hd with
  | idle => exact h
  | @loop closed _ hi hk hm hc hlt hex =>
    have hsound := ((hs.revised (flow.jump i).start ("while (true)\n\x7b\n" ++ ·)).closedAt
      closed).retired (i := i) hi.1
    exact (h.loop hs hi hm hc hlt).exits hsound hex
  | guarded hi hk hm => exact h.guarded hs hi hk hm
  | test hi hc => exact h.conditional hs hi hn hc
  | said _ => exact ⟨h.balanced, fun j hj hm => h.fit j hj hm⟩

end Statements

/-! ## All jumps -/

/-- Handling any jumps, in any order, leaves all blocks closed. -/
theorem Braced.handledAll : ∀ (is : List Nat) {flow result : Flow}, flow.Braced → flow.Sound →
    flow.Spaced → flow.Armless → (∀ i ∈ is, i < flow.jumps.length) →
    FlowM.handleJumps is flow = .ok () result → result.Braced
  | [], flow, result, h, _, _, _, _, hok => by
    cases hok
    exact h
  | i :: is, flow, result, h, hs, hsp, harm, hall, hok => by
    obtain ⟨_, middle, hfirst, hrest⟩ := bind_eq_ok.1 hok
    have hi := hall i (by simp)
    have hn := hsp.not_skipAfterTest
    have hd := FlowM.handled_of_ok hs hi (harm i hi) hn hfirst
    have hk := hd.kept hs
    refine handledAll is (h.handled hs hn hd) hk.sound (hsp.follows hk.toFollows)
      (harm.follows hk.toFollows) ?_ hrest
    intro j hj
    rw [hk.length]
    exact hall j (List.mem_cons_of_mem i hj)

end Flow

end Bytelift
