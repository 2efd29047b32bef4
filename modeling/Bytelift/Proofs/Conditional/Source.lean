import Bytelift.Proofs.Structuring

/-! Programs of statements and conditionals, and the code they are compiled to. The test of a conditional
goes over its body; if there is an else part, it goes there, and a skip at the end of the body goes over the
else part. A conditional spans the lines from its test to the last line that it governs. -/

namespace Bytelift

namespace Instruction

/-- A line that is no jump and reads as one line of text, with something on it and without a brace. -/
structure States (line : CodeLine) (text : String) : Prop where
  reads : ∃ form, form? (operator line) = some form ∧ form.kind? = none ∧ form ≠ .cases ∧
    form.ReadsAs (operands line) text
  filled : text ≠ ""
  plain : ∀ c ∈ ['\n', '\x7b', '\x7d'], c ∉ text.toList

/-- An operand in brackets, such as indexes and numbers are. -/
def bracketed {α : Type} [ToString α] (a : α) : String := "[" ++ toString a ++ "]"

theorem inner_bracketed {α : Type} [ToString α] (a : α) : Text.inner (bracketed a) = toString a := by
  rw [← String.toList_inj]
  simp [Text.inner, bracketed]

/-- A line with an operator and some operands; it may have more operands than are read. -/
structure Spelled (name : String) (read : List String) (line : CodeLine) : Prop where
  operator : Instruction.operator line = name
  operands : ∃ more, Instruction.operands line = read ++ more

theorem Spelled.states {name text : String} {read : List String} {line : CodeLine} {parts : List Fragment}
    (h : Spelled name read line) (hf : form? name = some (.statement parts))
    (hr : ∀ more, renderParts (read ++ more) parts = .ok text) (filled : text ≠ "")
    (plain : ∀ c ∈ ['\n', '\x7b', '\x7d'], c ∉ text.toList) : States line text := by
  obtain ⟨more, hmore⟩ := h.operands
  exact ⟨⟨_, h.operator ▸ hf, rfl, by simp, hmore ▸ hr more⟩, filled, plain⟩

/-- A line that jumps to an offset. -/
structure JumpsTo (name : String) (goal : Offset) (line : CodeLine) : Prop where
  named : operator line = name
  aimed : ∃ target, jumpTarget (operands line) = .ok target ∧ goal = .number target

theorem form?_jumpIfFalse : form? "JumpIfFalse" = some (.jump .test "if (!ACCU)") := by decide

theorem form?_jump : form? "Jump" = some (.jump .skip "") := by decide

theorem states_return {last : CodeLine} (h : operator last = "Return") : States last "return ACCU" where
  reads := ⟨.fixed "return ACCU", h ▸ (by decide : form? "Return" = some (.fixed "return ACCU")), rfl,
    by decide, rfl⟩
  filled := by decide
  plain := by simp

theorem States.goesForward_eq {line : CodeLine} {text : String} (h : States line text) (kind : JumpKind) :
    goesForward kind line = false := by
  obtain ⟨form, hf, hk, _⟩ := h.reads
  unfold goesForward
  rw [hf]
  cases form with
  | jump k shown => cases hk
  | statement _ | cases | intrinsic => rfl

theorem JumpsTo.goesForward_eq {name text : String} {kind other : JumpKind} {goal : Offset}
    {line : CodeLine} (h : JumpsTo name goal line) (hf : form? name = some (.jump other text))
    (hne : other ≠ kind) : goesForward kind line = false := by
  unfold goesForward
  rw [h.named, hf]
  simp [hne]

end Instruction

open Instruction

/-- A program over the lines of its code. No body is empty. -/
inductive Source where
  | simple (line : CodeLine) (text : String)
  | when (test : CodeLine) (body : Source)
  | either (test : CodeLine) (first : Source) (skip : CodeLine) (second : Source)
  | seq (first second : Source)

/-- Where a conditional stands: the line of its test, that of the skip over its else part, and the last line
that it governs. -/
structure Span where
  test : Offset
  past : Option Offset
  close : Offset

namespace Source

def code : Source → List CodeLine
  | .simple line _ => [line]
  | .when test body => test :: body.code
  | .either test first skip second => test :: first.code ++ skip :: second.code
  | .seq first second => first.code ++ second.code

def printed : Source → List String
  | .simple _ text => [text]
  | .when _ body => "if (ACCU)" :: "\x7b" :: body.printed ++ ["\x7d"]
  | .either _ first _ second =>
    "if (ACCU)" :: "\x7b" :: first.printed ++ "\x7d" :: "else" :: "\x7b" :: second.printed ++ ["\x7d"]
  | .seq first second => first.printed ++ second.printed

def entry : Source → Offset
  | .simple line _ => line.offset
  | .when test _ => test.offset
  | .either test _ _ _ => test.offset
  | .seq first _ => first.entry

def last : Source → Offset
  | .simple line _ => line.offset
  | .when _ body => body.last
  | .either _ _ _ second => second.last
  | .seq _ second => second.last

/-- The jumps of a program go where they should, if it is left for an offset. -/
def Compiled : Source → Offset → Prop
  | .simple line text, _ => States line text
  | .when test body, exit => JumpsTo "JumpIfFalse" exit test ∧ body.Compiled exit
  | .either test first skip second, exit => JumpsTo "JumpIfFalse" second.entry test ∧
      first.Compiled skip.offset ∧ JumpsTo "Jump" exit skip ∧ second.Compiled exit
  | .seq first second, exit => first.Compiled second.entry ∧ second.Compiled exit

/-- The conditionals of a program, an outer one before those inside it. -/
def spans : Source → List Span
  | .simple _ _ => []
  | .when test body => ⟨test.offset, none, body.last⟩ :: body.spans
  | .either test first skip second =>
    ⟨test.offset, some skip.offset, second.last⟩ :: (first.spans ++ second.spans)
  | .seq first second => first.spans ++ second.spans

end Source

namespace Span

/-- The lines that belong to one conditional alone. -/
def own (s : Span) : List Offset := s.test :: s.past.toList

/-- The lines that the layout of a conditional is written into. -/
def places (s : Span) : List Offset := s.close :: s.own

def turn (s : Span) : Offset := s.past.getD s.close

/-- Two conditionals share at most the line where they close. -/
def Apart (s t : Span) : Prop := (∀ o ∈ s.own, o ∉ t.places) ∧ ∀ o ∈ t.own, o ∉ s.places

instance : Std.Symm Apart := ⟨fun _ _ h => ⟨h.2, h.1⟩⟩

end Span

namespace Source

@[simp] theorem offsets_simple (line : CodeLine) (text : String) :
    offsetsOf (simple line text).code = [line.offset] := rfl

@[simp] theorem offsets_when (test : CodeLine) (body : Source) :
    offsetsOf (when test body).code = test.offset :: offsetsOf body.code := rfl

@[simp] theorem offsets_either (test : CodeLine) (first : Source) (skip : CodeLine) (second : Source) :
    offsetsOf (either test first skip second).code =
      test.offset :: (offsetsOf first.code ++ skip.offset :: offsetsOf second.code) := by
  simp [code, offsetsOf]

@[simp] theorem offsets_seq (first second : Source) :
    offsetsOf (seq first second).code = offsetsOf first.code ++ offsetsOf second.code := by
  simp [code, offsetsOf]

theorem exists_entry (p : Source) : ∃ rest, offsetsOf p.code = p.entry :: rest := by
  induction p with
  | simple line text => exact ⟨[], rfl⟩
  | when test body _ => exact ⟨_, rfl⟩
  | either test first skip second _ _ => exact ⟨_, offsets_either test first skip second⟩
  | seq first second ih _ =>
    obtain ⟨rest, hr⟩ := ih
    exact ⟨rest ++ offsetsOf second.code, by simp [hr, entry]⟩

theorem exists_last (p : Source) : ∃ init, offsetsOf p.code = init ++ [p.last] := by
  induction p with
  | simple line text => exact ⟨[], rfl⟩
  | when test body ih =>
    obtain ⟨init, hi⟩ := ih
    exact ⟨test.offset :: init, by simp [hi, last]⟩
  | either test first skip second _ ih =>
    obtain ⟨init, hi⟩ := ih
    exact ⟨test.offset :: (offsetsOf first.code ++ skip.offset :: init), by simp [hi, last]⟩
  | seq first second _ ih =>
    obtain ⟨init, hi⟩ := ih
    exact ⟨offsetsOf first.code ++ init, by simp [hi, last]⟩

theorem last_mem (p : Source) : p.last ∈ offsetsOf p.code := by
  obtain ⟨init, hi⟩ := p.exists_last
  simp [hi]

/-- A conditional stands among the lines of its program. -/
theorem places_mem (p : Source) : ∀ s ∈ p.spans, ∀ o ∈ s.places, o ∈ offsetsOf p.code := by
  induction p with
  | simple line text => simp [spans]
  | when test body ih =>
    have hlast := body.last_mem
    simp only [spans, offsets_when, List.mem_cons, forall_eq_or_imp]
    refine ⟨?_, fun s hs o ho => Or.inr (ih s hs o ho)⟩
    simp [Span.places, Span.own, hlast]
  | either test first skip second ih ih' =>
    have hlast := second.last_mem
    simp only [spans, offsets_either, List.mem_cons, List.mem_append, forall_eq_or_imp]
    refine ⟨?_, ?_⟩
    · simp [Span.places, Span.own, hlast]
    · intro s hs o ho
      rcases hs with hs | hs
      · exact Or.inr (Or.inl (ih s hs o ho))
      · exact Or.inr (Or.inr (Or.inr (ih' s hs o ho)))
  | seq first second ih ih' =>
    simp only [spans, offsets_seq, List.mem_append]
    intro s hs o ho
    rcases hs with hs | hs
    · exact Or.inl (ih s hs o ho)
    · exact Or.inr (ih' s hs o ho)

theorem own_mem {p : Source} {s : Span} (hs : s ∈ p.spans) {o : Offset} (ho : o ∈ s.own) :
    o ∈ offsetsOf p.code := p.places_mem s hs o (List.mem_cons_of_mem _ ho)

/-- A program ends with a statement, not with a jump. -/
theorem own_ne_last {p : Source} (hn : (offsetsOf p.code).Nodup) :
    ∀ s ∈ p.spans, ∀ o ∈ s.own, o ≠ p.last := by
  induction p with
  | simple line text => simp [spans]
  | when test body ih =>
    rw [offsets_when, List.nodup_cons] at hn
    simp only [spans, List.mem_cons, forall_eq_or_imp]
    refine ⟨?_, ih hn.2⟩
    intro o ho he
    have he : test.offset = body.last := (List.mem_singleton.1 ho).symm.trans he
    exact hn.1 (he ▸ body.last_mem)
  | either test first skip second _ ih =>
    rw [offsets_either, List.nodup_cons, List.nodup_append, List.nodup_cons] at hn
    obtain ⟨htest, _, ⟨hskip, hsecond⟩, hdisjoint⟩ := hn
    simp only [spans, List.mem_cons, List.mem_append, forall_eq_or_imp]
    have hlast := second.last_mem
    refine ⟨?_, ?_⟩
    · intro o ho he
      simp only [Span.own, Option.toList_some, List.mem_cons, List.not_mem_nil, or_false] at ho
      subst he
      rcases ho with ho | ho
      · exact htest (List.mem_append_right _ (List.mem_cons_of_mem _ (ho ▸ hlast)))
      · exact hskip (ho ▸ hlast)
    · intro s hs o ho
      rcases hs with hs | hs
      · exact hdisjoint o (own_mem hs ho) _ (List.mem_cons_of_mem _ hlast)
      · exact ih hsecond s hs o ho
  | seq first second _ ih =>
    rw [offsets_seq, List.nodup_append] at hn
    simp only [spans, List.mem_append]
    intro s hs o ho
    rcases hs with hs | hs
    · exact hn.2.2 o (own_mem hs ho) _ second.last_mem
    · exact ih hn.2.1 s hs o ho

/-- The lines of one conditional are different ones. -/
theorem places_nodup {p : Source} (hn : (offsetsOf p.code).Nodup) : ∀ s ∈ p.spans, s.places.Nodup := by
  induction p with
  | simple line text => simp [spans]
  | when test body ih =>
    rw [offsets_when, List.nodup_cons] at hn
    simp only [spans, List.mem_cons, forall_eq_or_imp]
    refine ⟨?_, ih hn.2⟩
    have hne : body.last ≠ test.offset := fun he => hn.1 (he ▸ body.last_mem)
    simp [Span.places, Span.own, hne]
  | either test first skip second ih ih' =>
    rw [offsets_either, List.nodup_cons, List.nodup_append, List.nodup_cons] at hn
    obtain ⟨htest, hfirst, ⟨hskip, hsecond⟩, _⟩ := hn
    simp only [List.mem_append, List.mem_cons, not_or] at htest
    simp only [spans, List.mem_cons, List.mem_append, forall_eq_or_imp]
    refine ⟨?_, ?_⟩
    · have hne : second.last ≠ test.offset := fun he => htest.2.2 (he ▸ second.last_mem)
      have hne' : second.last ≠ skip.offset := fun he => hskip (he ▸ second.last_mem)
      simp [Span.places, Span.own, hne, hne', htest.2.1]
    · intro s hs
      exact hs.elim (ih hfirst s) (ih' hsecond s)
  | seq first second ih ih' =>
    rw [offsets_seq, List.nodup_append] at hn
    simp only [spans, List.mem_append]
    intro s hs
    exact hs.elim (ih hn.1 s) (ih' hn.2.1 s)

/-- Conditionals among different lines. -/
theorem apart_of_disjoint {p q : Source} (h : ∀ a ∈ offsetsOf p.code, ∀ b ∈ offsetsOf q.code, a ≠ b) :
    ∀ s ∈ p.spans, ∀ t ∈ q.spans, s.Apart t := by
  intro s hs t ht
  refine ⟨?_, ?_⟩
  · intro o ho hp
    exact h o (own_mem hs ho) o (q.places_mem t ht o hp) rfl
  · intro o ho hp
    exact h o (p.places_mem s hs o hp) o (own_mem ht ho) rfl

/-- A conditional and one among the lines that it governs. -/
theorem apart_of_last {p : Source} (hn : (offsetsOf p.code).Nodup) {s : Span} (hc : s.close = p.last)
    (hs : ∀ o ∈ s.own, o ∉ offsetsOf p.code) : ∀ t ∈ p.spans, s.Apart t := by
  intro t ht
  refine ⟨fun o ho hp => hs o ho (p.places_mem t ht o hp), ?_⟩
  intro o ho hp
  rcases List.mem_cons.1 hp with he | hp
  · exact own_ne_last hn t ht o ho (he.trans hc)
  · exact hs o hp (own_mem ht ho)

theorem pairwise_apart {p : Source} (hn : (offsetsOf p.code).Nodup) : p.spans.Pairwise Span.Apart := by
  induction p with
  | simple line text => exact .nil
  | when test body ih =>
    rw [offsets_when, List.nodup_cons] at hn
    refine List.pairwise_cons.2 ⟨apart_of_last hn.2 rfl ?_, ih hn.2⟩
    intro o ho
    rw [List.mem_singleton.1 ho]
    exact hn.1
  | either test first skip second ih ih' =>
    rw [offsets_either, List.nodup_cons, List.nodup_append, List.nodup_cons] at hn
    obtain ⟨htest, hfirst, ⟨hskip, hsecond⟩, hdisjoint⟩ := hn
    simp only [List.mem_append, List.mem_cons, not_or] at htest
    have hinner := apart_of_disjoint fun a ha b hb => hdisjoint a ha b (List.mem_cons_of_mem _ hb)
    refine List.pairwise_cons.2 ⟨?_, List.pairwise_append.2 ⟨ih hfirst, ih' hsecond, hinner⟩⟩
    intro t ht
    rcases List.mem_append.1 ht with ht | ht
    · -- the last line of the else part is not one of the then part
      refine ⟨?_, ?_⟩
      · intro o ho hp
        have hm := first.places_mem t ht o hp
        simp only [Span.own, Option.toList_some, List.mem_cons, List.not_mem_nil, or_false] at ho
        rcases ho with rfl | rfl
        · exact htest.1 hm
        · exact hdisjoint _ hm _ List.mem_cons_self rfl
      · intro o ho hp
        have hm := own_mem ht ho
        simp only [Span.places, Span.own, Option.toList_some, List.mem_cons, List.not_mem_nil,
          or_false] at hp
        rcases hp with rfl | rfl | rfl
        · exact hdisjoint _ hm _ (List.mem_cons_of_mem _ second.last_mem) rfl
        · exact htest.1 hm
        · exact hdisjoint _ hm _ List.mem_cons_self rfl
    · refine apart_of_last hsecond rfl ?_ t ht
      intro o ho
      simp only [Span.own, Option.toList_some, List.mem_cons, List.not_mem_nil, or_false] at ho
      rcases ho with rfl | rfl
      · exact htest.2.2
      · exact hskip
  | seq first second ih ih' =>
    rw [offsets_seq, List.nodup_append] at hn
    exact List.pairwise_append.2 ⟨ih hn.1, ih' hn.2.1, apart_of_disjoint hn.2.2⟩

/-! ## No skip right after a test -/

theorem exists_head {p : Source} {exit : Offset} (h : p.Compiled exit) :
    ∃ line rest, p.code = line :: rest ∧ goesForward .skip line = false := by
  induction p generalizing exit with
  | simple line text => exact ⟨line, [], rfl, h.goesForward_eq .skip⟩
  | when test body _ => exact ⟨test, _, rfl, h.1.goesForward_eq form?_jumpIfFalse (by decide)⟩
  | either test first skip second _ _ =>
    exact ⟨test, _, rfl, h.1.goesForward_eq form?_jumpIfFalse (by decide)⟩
  | seq first second ih _ =>
    obtain ⟨line, rest, hc, hf⟩ := ih h.1
    exact ⟨line, rest ++ second.code, by simp [code, hc], hf⟩

theorem exists_end {p : Source} {exit : Offset} (h : p.Compiled exit) :
    ∃ init line text, p.code = init ++ [line] ∧ States line text := by
  induction p generalizing exit with
  | simple line text => exact ⟨[], line, text, rfl, h⟩
  | when test body ih =>
    obtain ⟨init, line, text, hc, hs⟩ := ih h.2
    exact ⟨test :: init, line, text, by simp [code, hc], hs⟩
  | either test first skip second _ ih =>
    obtain ⟨init, line, text, hc, hs⟩ := ih h.2.2.2
    exact ⟨test :: first.code ++ skip :: init, line, text, by simp [code, hc], hs⟩
  | seq first second _ ih =>
    obtain ⟨init, line, text, hc, hs⟩ := ih h.2
    exact ⟨first.code ++ init, line, text, by simp [code, hc], hs⟩

/-- What comes after a program does not come after a test. -/
theorem spaced_append {p : Source} {exit : Offset} (h : p.Compiled exit) {more : List CodeLine}
    (hp : Spaced p.code) (hm : Spaced more) : Spaced (p.code ++ more) := by
  obtain ⟨init, line, text, hc, hs⟩ := exists_end h
  refine List.isChain_append.2 ⟨hp, hm, ?_⟩
  intro a ha b _ hab
  simp only [hc, List.getLast?_append, List.getLast?_singleton, Option.some_or, Option.mem_some] at ha
  rw [← ha, hs.goesForward_eq] at hab
  cases hab.1

theorem spaced_of_compiled {p : Source} {exit : Offset} (h : p.Compiled exit) :
    Spaced p.code := by
  induction p generalizing exit with
  | simple line text => exact List.isChain_singleton line
  | when test body ih =>
    obtain ⟨line, rest, hc, hf⟩ := exists_head h.2
    have hbody := ih h.2
    rw [code, hc] at *
    exact List.isChain_cons_cons.2 ⟨by simp [hf], hbody⟩
  | either test first skip second ih ih' =>
    obtain ⟨_, hfirst, hskip, hsecond⟩ := h
    obtain ⟨line, rest, hc, hf⟩ := exists_head hfirst
    obtain ⟨line', rest', hc', _⟩ := exists_head hsecond
    have hfrom : Spaced (skip :: second.code) := by
      have helse := ih' hsecond
      rw [hc'] at helse ⊢
      exact List.isChain_cons_cons.2
        ⟨by simp [hskip.goesForward_eq form?_jump (by decide : JumpKind.skip ≠ .test)], helse⟩
    have hthen := spaced_append hfirst (ih hfirst) hfrom
    rw [code, hc, List.cons_append] at *
    exact List.isChain_cons_cons.2 ⟨by simp [hf], hthen⟩
  | seq first second ih ih' => exact spaced_append h.1 (ih h.1) (ih' h.2)

end Source

end Bytelift
