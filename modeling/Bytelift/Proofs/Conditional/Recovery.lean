import Bytelift.Proofs.Wiring

/-! Conditionals are recovered. The jumps of a program are those of its conditionals, so laying out its code prints
the program. -/

namespace Bytelift

open Run Instruction

/-- The jumps of a conditional as they are handled: its test, and the skip over its else part. -/
def Span.jumps (s : Span) : List Jump :=
  { kind := .test, start := s.test, stop := s.turn } ::
    s.past.toList.map fun o => { kind := .skip, start := o, stop := s.close }

namespace Source

/-- The jumps of a program as they are handled, in the order of its lines. -/
def jumps : Source → List Jump
  | .simple _ _ => []
  | .when test body => { kind := .test, start := test.offset, stop := body.last } :: body.jumps
  | .either test first skip second => { kind := .test, start := test.offset, stop := skip.offset } ::
      (first.jumps ++ skipJump skip second.last :: second.jumps)
  | .seq first second => first.jumps ++ second.jumps

/-- They are those of its conditionals. -/
theorem jumps_perm (p : Source) : p.jumps.Perm (p.spans.flatMap Span.jumps) := by
  induction p with
  | simple line text => exact .nil
  | when test body ih => exact ih.cons _
  | either test first skip second ih ih' =>
    rw [spans, List.flatMap_cons, List.flatMap_append]
    exact (List.perm_middle.trans ((ih.append ih').cons _)).cons _
  | seq first second ih ih' =>
    rw [spans, List.flatMap_append]
    exact ih.append ih'

theorem mem_jumps {p : Source} {j : Jump} : j ∈ p.jumps ↔ ∃ s ∈ p.spans, j ∈ s.jumps :=
  p.jumps_perm.mem_iff.trans List.mem_flatMap

/-- Each jump of a program goes right past what it should jump over. -/
theorem wired_of_compiled {p : Source} {offsets : List Offset} (ha : Ascending offsets) (before after : List Offset)
    {exit : Offset} (h : p.Compiled exit) (ho : offsets = before ++ (offsetsOf p.code ++ exit :: after)) :
    Wired offsets p.code p.jumps := by
  induction p generalizing exit before after with
  | simple line text => exact .plain (List.forall_mem_singleton.2 (States.isSome_statement? h))
  | when test body ih =>
    obtain ⟨htest, hbody⟩ := h
    obtain ⟨init, hlast⟩ := body.exists_last
    have hexit : Adjacent offsets body.last exit :=
      ⟨before ++ test.offset :: init, after, by simp [ho, hlast]⟩
    have hlt : test.offset.value < body.last.value := by
      rw [ho, offsets_when, List.cons_append] at ha
      exact ha.lt_of_split (List.mem_append_left _ body.last_mem)
    exact (Wired.ahead ha htest form?_jumpIfFalse (Or.inl rfl) (by simp [ho]) (Int.le_of_lt hlt) hexit).cons
      (ih (before ++ [test.offset]) after hbody (by simp [ho]))
  | either test first skip second ih ih' =>
    obtain ⟨htest, hfirst, hskip, hsecond⟩ := h
    obtain ⟨init, hlast⟩ := second.exists_last
    obtain ⟨rest, hentry⟩ := second.exists_entry
    have hturn : Adjacent offsets skip.offset second.entry :=
      ⟨before ++ test.offset :: offsetsOf first.code, rest ++ exit :: after, by simp [ho, hentry]⟩
    have hexit : Adjacent offsets second.last exit :=
      ⟨before ++ test.offset :: (offsetsOf first.code ++ skip.offset :: init), after, by simp [ho, hlast]⟩
    have hlt : test.offset.value < skip.offset.value := by
      rw [ho, offsets_either, List.cons_append] at ha
      exact ha.lt_of_split (by simp)
    have hlt' : skip.offset.value < second.last.value := by
      rw [ho, offsets_either, List.cons_append, List.append_assoc, ← List.cons_append,
        ← List.append_assoc, List.cons_append] at ha
      exact ha.lt_of_split (List.mem_append_left _ second.last_mem)
    have hthen := ih (before ++ [test.offset]) (offsetsOf second.code ++ exit :: after) hfirst (by simp [ho])
    have helse := ih' (before ++ test.offset :: (offsetsOf first.code ++ [skip.offset])) after hsecond
      (by simp [ho])
    have hpast := Wired.ahead ha hskip form?_jump (Or.inr rfl) (by simp [ho]) (Int.le_of_lt hlt') hexit
    exact (Wired.ahead ha htest form?_jumpIfFalse (Or.inl rfl) (by simp [ho]) (Int.le_of_lt hlt) hturn).cons
      (hthen.append (hpast.cons helse))
  | seq first second ih ih' =>
    obtain ⟨hfirst, hsecond⟩ := h
    obtain ⟨rest, hentry⟩ := second.exists_entry
    exact (ih before (rest ++ exit :: after) hfirst (by simp [ho, hentry])).append
      (ih' (before ++ offsetsOf first.code) after hsecond (by simp [ho]))

/-- Once its jumps are ready for the handlers, they are those of its conditionals. -/
theorem spanned_of_stage {p : Source} {flow : Flow} {code : List CodeLine} (h : flow.Stage code p.jumps [])
    (hn : (offsetsOf p.code).Nodup) (hs : flow.Spaced) (hu : ∀ o i, ¬flow.Filed .handler o i) :
    flow.Spanned p.spans := by
  have hjump : ∀ i, flow.Open i → ∃ s ∈ p.spans,
      (flow.jump i).kind = .test ∧ (flow.jump i).start = s.test ∧ (flow.jump i).stop = s.turn ∨
      (flow.jump i).kind = .skip ∧ s.past = some (flow.jump i).start ∧ (flow.jump i).stop = s.close := by
    intro i hi
    obtain ⟨s, hs, hj⟩ := mem_jumps.1 ((h.mem _).2 ⟨i, hi, rfl⟩)
    rcases List.mem_cons.1 hj with he | hj
    · exact ⟨s, hs, Or.inl (by simp [he])⟩
    · obtain ⟨o, ho, he⟩ := List.mem_map.1 hj
      exact ⟨s, hs, Or.inr (by simp [← he, Option.mem_toList.1 ho])⟩
  have hfind : ∀ s ∈ p.spans, ∀ j ∈ s.jumps, ∃ i, flow.Open i ∧ flow.jump i = j := fun s hs j hj =>
    (h.mem j).1 (mem_jumps.2 ⟨s, hs, hj⟩)
  exact
    { proper := places_nodup hn
      apart := pairwise_apart hn
      kinds := by
        intro i hi
        obtain ⟨s, _, hk | hk⟩ := hjump i hi
        · exact Or.inl hk.1
        · exact Or.inr hk.1
      test := by
        intro i hi
        obtain ⟨s, hs, hk | hk⟩ := hjump i hi.1
        · exact ⟨s, hs, hk.2⟩
        · simp [hi.2] at hk
      skip := by
        intro i hi hk
        obtain ⟨s, hs, hk' | hk'⟩ := hjump i hi
        · simp [hk] at hk'
        · exact ⟨s, hs, hk'.2⟩
      testAt := by
        intro s hs
        obtain ⟨i, hi, hj⟩ := hfind s hs _ List.mem_cons_self
        exact ⟨i, ⟨hi, by rw [hj]⟩, by rw [hj]⟩
      skipAt := by
        intro s hs o ho
        obtain ⟨i, hi, hj⟩ := hfind s hs _ (List.mem_cons_of_mem _ (List.mem_map_of_mem (Option.mem_toList.2 ho)))
        exact ⟨i, hi, by rw [hj], by rw [hj]⟩
      unskipped := hs
      unhandled := hu }

/-- The lines read as the instructions do. -/
theorem asRead_code {p : Source} {exit : Offset} (h : p.Compiled exit) : asRead p.code = p.lines 0 := by
  induction p generalizing exit with
  | simple line text => simp [code, lines, States.textOf_eq h]
  | when test body ih => simp [code, lines, h.1.textOf_eq form?_jumpIfFalse, ih h.2]
  | either test first skip second ih ih' =>
    obtain ⟨htest, hfirst, hskip, hsecond⟩ := h
    simp [code, lines, htest.textOf_eq form?_jumpIfFalse, hskip.textOf_eq form?_jump, ih hfirst, ih' hsecond]
  | seq first second ih ih' => simp [code, lines, ih h.1, ih' h.2]

/-- A function: the statements of its body, if it has any, and a return. -/
def returning : Option Source → CodeLine → Source
  | none, last => .simple last "return ACCU"
  | some body, last => .seq body (.simple last "return ACCU")

theorem compiled_returning {body : Option Source} {last : CodeLine}
    (hb : ∀ p ∈ body, p.Compiled last.offset) (hr : operator last = "Return") :
    (returning body last).Compiled last.offset := by
  cases body with
  | none => exact states_return hr
  | some p => exact ⟨hb p rfl, states_return hr⟩

theorem wired_returning {body : Option Source} {last : CodeLine}
    (hb : ∀ p ∈ body, p.Compiled last.offset) (hr : operator last = "Return")
    (ha : Ascending (offsetsOf (returning body last).code)) :
    Wired (offsetsOf (returning body last).code) (returning body last).code (returning body last).jumps := by
  have hlast : ∀ offsets, Wired offsets [last] [] := fun offsets =>
    .plain (List.forall_mem_singleton.2 (states_return hr).isSome_statement?)
  cases body with
  | none => exact hlast _
  | some p => exact (wired_of_compiled ha [] [] (hb p rfl) (by simp [returning])).append (hlast _)

end Source

open Source in
/-- Conditionals are recovered as they were, however deep they are nested and wherever the lines stand. -/
theorem printed_of_liftCode {name : String} {body : Option Source} {last : CodeLine} {console : Console}
    (hb : ∀ p ∈ body, p.Compiled last.offset) (hr : operator last = "Return")
    (ha : Ascending (offsetsOf (returning body last).code))
    (hs : ∀ o ∈ offsetsOf (returning body last).code, (Binary64.nearestWhole? o.value).isSome) :
    ∃ out console', liftCode name (returning body last).code {} console = .ok out console' ∧
      (out.map (·.rendered)).filter (· ≠ "") = "\x7b" :: ((returning body last).printed ++ ["\x7d"]) := by
  have hcompiled := compiled_returning hb hr
  have hwired := wired_returning hb hr ha
  generalize returning body last = whole at hcompiled hwired ha hs ⊢
  have hloops : whole.jumps.filter (·.kind = .loop) = [] := by
    rw [List.filter_eq_nil_iff]
    intro j hj
    obtain ⟨s, _, hj⟩ := mem_jumps.1 hj
    rcases List.mem_cons.1 hj with rfl | hj
    · simp
    · obtain ⟨o, _, rfl⟩ := List.mem_map.1 hj
      simp
  have hshown := shown_laid hcompiled 0
  rw [List.replicate_zero, List.append_nil, ← editAll_lines ha.nodup, ← asRead_code hcompiled] at hshown
  rw [← hshown]
  refine shows_of_wired ha hwired (by simp [hloops]) hs fun flow order hready hstage => ?_
  have hspanned := spanned_of_stage hstage ha.nodup (hready.spaced (spaced_of_compiled hcompiled)) hready.unhandled
  rw [← hready.reads]
  exact hspanned.run order hready.sound (fun i hi => (hready.mem i).2 hi.1.1) fun i hi => (hready.mem i).1 hi

/-- A choice between a conditional and a statement with a conditional after it. -/
def nestedChoice : Source :=
  .either { offset := .number 2, instruction := "JumpIfFalse [9] (0xb @ 11)" }
    (.when { offset := .number 4, instruction := "JumpIfFalse [5] (0x9 @ 9)" } (.simple (zeroAt 6) "ACCU = 0"))
    { offset := .number 9, instruction := "Jump [9] (0x12 @ 18)" }
    (.seq (.simple (zeroAt 11) "ACCU = 0")
      (.when { offset := .number 13, instruction := "JumpIfFalse [5] (0x12 @ 18)" }
        (.simple (zeroAt 15) "ACCU = 0")))

theorem compiled_nestedChoice : nestedChoice.Compiled (.number 18) :=
  ⟨⟨by decide, 11, rfl, rfl⟩, ⟨⟨by decide, 9, rfl, rfl⟩, states_zeroAt 6⟩, ⟨by decide, 18, rfl, rfl⟩,
    states_zeroAt 11, ⟨by decide, 18, rfl, rfl⟩, states_zeroAt 15⟩

theorem printed_nestedChoice : nestedChoice.Compiled (.number 18) ∧
    Ascending (offsetsOf (Source.returning (some nestedChoice) (returnAt 18)).code) ∧
    ∃ out console', liftCode "f" (Source.returning (some nestedChoice) (returnAt 18)).code {} {} =
      .ok out console' ∧ (out.map (·.rendered)).filter (· ≠ "") =
        ["\x7b", "if (ACCU)", "\x7b", "if (ACCU)", "\x7b", "ACCU = 0", "\x7d", "\x7d", "else", "\x7b",
          "ACCU = 0", "if (ACCU)", "\x7b", "ACCU = 0", "\x7d", "\x7d", "return ACCU", "\x7d"] := by
  have ha : Ascending (offsetsOf (Source.returning (some nestedChoice) (returnAt 18)).code) := by decide
  refine ⟨compiled_nestedChoice, ha, ?_⟩
  exact @printed_of_liftCode "f" (some nestedChoice) (returnAt 18) {}
    (fun p hp => Option.some.inj hp ▸ compiled_nestedChoice) (by decide) ha (by decide +kernel)

def farChoice : Source :=
  .when { offset := .number (-farOut), instruction := "JumpIfFalse [1] (0x1 @ 1)" }
    (.simple (zeroAt 0) "ACCU = 0")

/-- Growing offsets are not enough: they have to be within the range that jumps are sorted in. -/
theorem liftCode_fails_farOut : farChoice.Compiled (.number 1) ∧
    Ascending (offsetsOf (Source.returning (some farChoice) (returnAt 1)).code) ∧
    Run.fails (liftCode "f" (Source.returning (some farChoice) (returnAt 1)).code {}) {} = true :=
  ⟨⟨⟨by decide, 1, rfl, rfl⟩, states_zeroAt 0⟩, by decide +kernel, by decide +kernel⟩

end Bytelift
