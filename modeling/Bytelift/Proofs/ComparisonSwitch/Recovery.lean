import Bytelift.Proofs.ComparisonSwitch.Layout
import Bytelift.Proofs.TableSwitch.Recovery
import Mathlib.Algebra.Group.Int.Defs

/-! Comparison switches are recovered. The tests are shown as the naming of cases, and after them the bodies with
the labels of the tests that go to them, however the tests are shared out among the bodies. -/

namespace Bytelift

open Run Text Instruction

/-! ## What a switch is printed as -/

namespace Comparison

def title (n : Nat) : String := "case CASE_" ++ toString n ++ ":"

/-- The lines that some tests are shown as: what each compares, and its name. -/
def printed : Nat → List Comparison → List String
  | _, [] => []
  | n, t :: ts => Loop.shown t.lines ++ name n :: printed (n + 1) ts

def titles : Nat → List Comparison → List String
  | _, [] => []
  | n, _ :: ts => title n :: titles (n + 1) ts

theorem shownLines_numbered {before after : String} {n : Nat} (hb : '\n' ∉ before.toList) (ha : '\n' ∉ after.toList)
    (hne : before ≠ "") : shownLines (before ++ toString n ++ after) = [before ++ toString n ++ after] := by
  refine shownLines_of_notMem ?_ ?_
  · simp only [String.toList_append, List.mem_append, not_or]
    refine ⟨⟨hb, fun hm => ?_⟩, ha⟩
    exact absurd (isDigit_of_mem_toString hm) (by decide)
  · intro he
    exact hne (by simpa using congrArg String.toList he)

theorem shown_named (n : Nat) (ts : List Comparison) : shownOf (named n ts) = printed n ts := by
  induction ts generalizing n with
  | nil => rfl
  | cons t ts ih =>
    have hname : shownLines (name n) = [name n] := shownLines_numbered (by decide) (by decide) (by decide)
    simp [named, printed, hname, ih]

/-- The labels of some tests are shown one a line. -/
theorem shown_labels (n : Nat) (ts : List Comparison) (text : String) :
    shownLines (labels n ts ++ text) = titles n ts ++ shownLines text := by
  induction ts generalizing n with
  | nil => simp [labels, titles]
  | cons t ts ih =>
    have htitle : shownLines (title n) = [title n] := shownLines_numbered (by decide) (by decide) (by decide)
    have hlabel : label n = title n ++ "\n" := by
      have hcolon : ":\n" = ":" ++ "\n" := by decide
      rw [label, title, hcolon, String.append_assoc, String.append_assoc, String.append_assoc]
    rw [labels, hlabel, String.append_assoc, shownLines_join, ih, htitle]
    rfl

end Comparison

namespace Choice

def printed : Nat → List Choice → List String
  | _, [] => []
  | n, c :: choices =>
    Comparison.titles n c.tests ++ "\x7b" :: (Loop.shown c.lines ++ "break" :: "\x7d" ::
    printed (n + c.tests.length) choices)

/-- The lines that the tests of some bodies are shown as. -/
def printedTests : Nat → List Choice → List String
  | _, [] => []
  | n, c :: choices => Comparison.printed n c.tests ++ printedTests (n + c.tests.length) choices

theorem shown_named (n : Nat) (choices : List Choice) : shownOf (named n choices) = printedTests n choices := by
  induction choices generalizing n with
  | nil => rfl
  | cons c choices ih => rw [named, printedTests, shownOf_append, Comparison.shown_named, ih]

/-- From the exit of a body on, the next ones are shown after it closes. -/
theorem shown_opened (n : Nat) (gate : CodeLine) (choices : List Choice) :
    shownOf (opened n gate choices) = "break" :: "\x7d" :: (printed n choices ++ ["default:", "\x7b"]) := by
  have hbreak : ∀ text, shownLines ("break" ++ ("\n\x7d\n" ++ text ++ "\x7b\n")) =
      "break" :: "\x7d" :: shownLines (text ++ "\x7b\n") := by
    intro text
    have hparts : "break" ++ ("\n\x7d\n" ++ text ++ "\x7b\n") = "break" ++ "\n" ++
      ("\x7d" ++ "\n" ++ (text ++ "\x7b\n")) := by
      have hclose : "\n\x7d\n" = "\n" ++ ("\x7d" ++ "\n") := by decide
      rw [hclose]
      simp only [String.append_assoc]
    rw [hparts, shownLines_join, shownLines_join]
    rfl
  induction choices generalizing n gate with
  | nil => exact (List.append_nil _).trans (hbreak "default:\n")
  | cons c choices ih =>
    have hopen : shownLines "\x7b\n" = ["\x7b"] := by decide
    simp [opened, printed, hbreak, Comparison.shown_labels, hopen, ih]

end Choice

namespace ComparisonSwitch

open Loop (shown)

variable {s : ComparisonSwitch} {before after : List CodeLine} {finish : CodeLine}

def printed (s : ComparisonSwitch) : List String :=
  Choice.printedTests 0 s.choices ++ "switch ()" :: (Choice.printed 0 s.choices ++ blockTo "default:" s.fallback s.last)

/-- Laid out, a switch shows what it is printed as. -/
theorem shown_laid (s : ComparisonSwitch) : shownOf s.laid = s.printed := by
  have hopening : shownLines s.opening.rendered = "switch ()" :: (Comparison.titles 0 s.first.tests ++ ["\x7b"]) := by
    have hparts : "switch ()\n" ++ Comparison.labels 0 s.first.tests ++ "\x7b\n" =
        "switch ()" ++ "\n" ++ (Comparison.labels 0 s.first.tests ++ "\x7b\n") := by
      have hswitch : "switch ()\n" = "switch ()" ++ "\n" := by decide
      rw [hswitch, String.append_assoc]
    rw [opening, CodeLine.rendered_reading, hparts, shownLines_join, Comparison.shown_labels]
    rfl
  rw [laid, shownOf_append, Choice.shown_named, shownOf_cons, hopening, shownOf_append, shownOf_append,
    Choice.shown_opened, printed, blockTo_eq]
  simp [choices, Choice.printed, shown]

/-! ## The code of a switch -/

/-- A switch as it is compiled, if it is left for an offset: every test goes to its body, the jump after them to the
default, and every body ends with a jump out of the switch. -/
structure Compiled (s : ComparisonSwitch) (finish : Offset) : Prop where
  tests : ∀ c ∈ s.choices, ∀ t ∈ c.tests, JumpsTo "JumpIfTrue" c.head.offset t.jump
  skips : JumpsTo "Jump" (s.fallback.headD s.last).offset s.skip
  exits : ∀ c ∈ s.choices, JumpsTo "Jump" finish c.exit
  compares : ∀ c ∈ s.choices, ∀ t ∈ c.tests, ∀ line ∈ t.lines, (statement? line).isSome
  plain : ∀ line ∈ s.choices.flatMap Choice.lines ++ (s.fallback ++ [s.last]), (statement? line).isSome

theorem form?_jumpIfTrue : form? "JumpIfTrue" = some (.jump .test "if (ACCU)") := by decide

end ComparisonSwitch

namespace Choice

variable {offsets leading trailing : List Offset} {gate skip : CodeLine} {finish : Offset} {choices : List Choice}

/-- The tests of some bodies stop on the lines before these. -/
theorem wired_tests (ha : Ascending offsets)
    (hsplit : offsets = leading ++ gate.offset :: ((choices.flatMap code).map (·.offset) ++ trailing))
    (hin : ∀ c ∈ choices, ∀ t ∈ c.tests, t.jump.offset ∈ leading)
    (hjumps : ∀ c ∈ choices, ∀ t ∈ c.tests, JumpsTo "JumpIfTrue" c.head.offset t.jump)
    (hplain : ∀ c ∈ choices, ∀ t ∈ c.tests, ∀ line ∈ t.lines, (statement? line).isSome) :
    Wired offsets (choices.flatMap testCode) (jumps gate choices) := by
  induction choices generalizing gate leading with
  | nil => exact .plain (by simp)
  | cons c choices ih =>
    have hadj : Adjacent offsets gate.offset c.head.offset := by
      refine ⟨leading, c.body.map (·.offset) ++ c.exit.offset :: ((choices.flatMap code).map (·.offset) ++ trailing),
        ?_⟩
      rw [hsplit]
      simp [code, lines]
    have hsplit' : offsets = (leading ++ gate.offset :: (c.head.offset :: c.body.map (·.offset))) ++
        c.exit.offset :: ((choices.flatMap code).map (·.offset) ++ trailing) := by
      rw [hsplit]
      simp [code, lines]
    rw [List.flatMap_cons, jumps]
    refine Wired.append ?_ (ih hsplit' ?_ (fun d hd => hjumps d (List.mem_cons_of_mem c hd))
      fun d hd => hplain d (List.mem_cons_of_mem c hd))
    · rw [List.map_eq_flatMap]
      refine Wired.flatMap fun t ht => Wired.append (.plain (hplain c (by simp) t ht)) ?_
      have hleads := hin c (by simp) t ht
      refine .ahead ha (hjumps c (by simp) t ht) ComparisonSwitch.form?_jumpIfTrue (Or.inl rfl) ?_ ?_ hadj
      · rw [hsplit]
        exact List.mem_append_left _ hleads
      · exact Int.le_of_lt (ha.lt_of_append hsplit hleads List.mem_cons_self)
    · intro d hd t ht
      exact List.mem_append_left _ (hin d (List.mem_cons_of_mem c hd) t ht)

/-- The jumps of a switch in the order of its lines. -/
theorem pending_perm (gate : CodeLine) (choices : List Choice) :
    (jumps gate choices ++ skipJump skip (lastExit gate choices).offset :: choices.map fun c =>
      skipJump c.exit finish).Perm (pending skip finish gate choices) := by
  induction choices generalizing gate with
  | nil => exact .refl _
  | cons c choices ih =>
    rw [jumps, lastExit, pending, List.append_assoc, List.map_cons]
    have hexit := @List.perm_middle _ (skipJump c.exit finish)
      (jumps c.exit choices ++ [skipJump skip (lastExit c.exit choices).offset])
        (choices.map fun c => skipJump c.exit finish)
    refine .append_left _ (List.Perm.trans ?_ ((ih c.exit).cons _))
    simpa using hexit

/-- The bodies end with the last exit. -/
theorem exists_code_eq (gate : CodeLine) (c : Choice) (choices : List Choice) :
    ∃ lines, (c :: choices).flatMap code = lines ++ [lastExit gate (c :: choices)] := by
  induction choices generalizing gate c with
  | nil => exact ⟨c.lines, by simp [code, lastExit]⟩
  | cons d choices ih =>
    obtain ⟨lines, hlines⟩ := ih c.exit d
    refine ⟨c.code ++ lines, ?_⟩
    rw [List.flatMap_cons, hlines, List.append_assoc]
    rfl

end Choice

namespace ComparisonSwitch

variable {s : ComparisonSwitch} {before after : List CodeLine} {finish : CodeLine}

def filed (s : ComparisonSwitch) : List Jump :=
  Choice.jumps s.skip s.choices ++ skipJump s.skip (Choice.lastExit s.skip s.choices).offset ::
    s.choices.map fun c => skipJump c.exit s.last.offset

/-- Where the parts of a switch stand among the lines of a function. -/
theorem offsets_eq (s : ComparisonSwitch) (before after : List CodeLine) (finish : CodeLine) :
    offsetsOf (before ++ (s.code ++ finish :: after)) =
      (offsetsOf before ++ offsetsOf (s.choices.flatMap Choice.testCode)) ++ s.skip.offset ::
        (offsetsOf (s.choices.flatMap Choice.code) ++ (offsetsOf (s.fallback ++ [s.last]) ++ finish.offset ::
          offsetsOf after)) := by
  simp [offsetsOf, code]

namespace Compiled

theorem fit (hc : s.Compiled finish.offset) (hz : ∀ line ∈ Choice.gates s.skip s.choices, line.offset ≠ .number 0) :
    s.Fit where
  skip := hc.skips.textOf_eq form?_jump
  exits c hm := (hc.exits c hm).textOf_eq form?_jump
  placed := hz

/-- The jumps of a function with a switch in it. -/
theorem wired (hc : s.Compiled finish.offset) (hp : ∀ line ∈ before ++ finish :: after, (statement? line).isSome)
    (ha : Ascending (offsetsOf (before ++ (s.code ++ finish :: after)))) :
    Wired (offsetsOf (before ++ (s.code ++ finish :: after))) (before ++ (s.code ++ finish :: after)) s.filed := by
  have hparts := s.offsets_eq before after finish
  have hskip : Adjacent (offsetsOf (before ++ (s.code ++ finish :: after))) (Choice.lastExit s.skip s.choices).offset
      (s.fallback.headD s.last).offset := by
    obtain ⟨lines, hlines⟩ := Choice.exists_code_eq s.skip s.first (s.second :: s.others)
    have hnext := adjacent_headD ((offsetsOf before ++ offsetsOf (s.choices.flatMap Choice.testCode)) ++
      s.skip.offset ::
      offsetsOf lines) (finish.offset :: offsetsOf after) (Choice.lastExit s.skip s.choices).offset s.fallback s.last
    rw [hparts]
    simpa [offsetsOf, choices, hlines] using hnext
  have hlast : Adjacent (offsetsOf (before ++ (s.code ++ finish :: after))) s.last.offset finish.offset := by
    refine ⟨(offsetsOf before ++ offsetsOf (s.choices.flatMap Choice.testCode)) ++ s.skip.offset ::
      (offsetsOf (s.choices.flatMap Choice.code) ++ offsetsOf s.fallback), offsetsOf after, ?_⟩
    rw [hparts]
    simp [offsetsOf]
  generalize offsetsOf (before ++ (s.code ++ finish :: after)) = offsets at ha hparts hskip hlast ⊢
  have htests : Wired offsets (s.choices.flatMap Choice.testCode) (Choice.jumps s.skip s.choices) := by
    refine Choice.wired_tests ha hparts (fun c hm t ht => ?_) hc.tests hc.compares
    have hin : t.jump ∈ s.choices.flatMap Choice.testCode :=
      List.mem_flatMap.2 ⟨c, hm, List.mem_flatMap.2 ⟨t, ht, by simp [Comparison.code]⟩⟩
    exact List.mem_append_right _ (List.mem_map_of_mem hin)
  have hgate : Wired offsets [s.skip] [skipJump s.skip (Choice.lastExit s.skip s.choices).offset] := by
    obtain ⟨c, hm, he⟩ := Choice.exists_lastExit s.skip s.first (s.second :: s.others)
    have hexit : c.exit.offset ∈ offsetsOf (s.choices.flatMap Choice.code) := Choice.exit_mem hm
    refine .ahead ha hc.skips form?_jump (Or.inr rfl) (by simp [hparts]) (Int.le_of_lt ?_) hskip
    rw [choices, he]
    exact (hparts ▸ ha).lt_of_split (List.mem_append_left _ hexit)
  have hbodies : Wired offsets (s.choices.flatMap Choice.code)
    (s.choices.flatMap fun c => [skipJump c.exit s.last.offset]) := by
    refine Wired.flatMap fun c hm => Wired.append (.plain fun line hl => ?_) ?_
    · exact hc.plain line (List.mem_append_left _ (List.mem_flatMap.2 ⟨c, hm, hl⟩))
    · have hexit : c.exit.offset ∈ offsetsOf (s.choices.flatMap Choice.code) := Choice.exit_mem hm
      refine .ahead ha (hc.exits c hm) form?_jump (Or.inr rfl) (by simp [hparts, hexit]) (Int.le_of_lt ?_) hlast
      rw [← List.cons_append, ← List.append_assoc] at hparts
      exact ha.lt_of_append hparts (by simp [hexit]) (by simp [offsetsOf])
  have hwired := Wired.append (.plain fun line hl => hp line (List.mem_append_left _ hl))
    ((htests.append (hgate.cons (hbodies.append
      (.plain fun line hl => hc.plain line (List.mem_append_right _ hl))))).append
      (.plain fun line hl => hp line (List.mem_append_right _ hl)))
  simpa [filed, code, List.map_eq_flatMap] using hwired

end Compiled

/-- The jumps of a switch are its tests, the jump to the default, and the exits. -/
theorem cases_of_mem_filed {j : Jump} (hj : j ∈ s.filed) :
    j ∈ Choice.jumps s.skip s.choices ∧ j.kind = .test ∨ j = skipJump s.skip (Choice.lastExit s.skip s.choices).offset ∨
      ∃ c ∈ s.choices, j = skipJump c.exit s.last.offset := by
  rcases List.mem_append.1 hj with hj | hj
  · obtain ⟨_, hk⟩ := (@Choice.mem_jumps_iff s.skip s.skip s.last.offset s.choices j).1 hj
    exact Or.inl ⟨hj, hk⟩
  rcases List.mem_cons.1 hj with hj | hj
  · exact Or.inr (Or.inl hj)
  · obtain ⟨c, hc, rfl⟩ := List.mem_map.1 hj
    exact Or.inr (Or.inr ⟨c, hc, rfl⟩)

theorem filter_loop_filed (s : ComparisonSwitch) : s.filed.filter (·.kind = .loop) = [] := by
  refine List.filter_eq_nil_iff.2 fun j hj => ?_
  rcases cases_of_mem_filed hj with ⟨_, hk⟩ | rfl | ⟨c, _, rfl⟩
  · simp [hk]
  · simp [skipJump]
  · simp [skipJump]

/-- No switch is shown whose default ends at an offset that is too large to be sorted by. -/
theorem Compiled.fails {name : String} {console : Console} {n : Int} (hc : s.Compiled finish.offset)
    (hp : ∀ line ∈ before ++ finish :: after, (statement? line).isSome)
    (ha : Ascending (offsetsOf (before ++ (s.code ++ finish :: after)))) (hlast : s.last.offset = .number n)
    (hlarge : Binary64.nearestWhole? n = none) :
    Run.fails (liftCode name (before ++ (s.code ++ finish :: after)) {}) console = true := by
  have hexit : skipJump s.first.exit s.last.offset ∈ s.filed :=
    List.mem_append_right _ (List.mem_cons_of_mem _ List.mem_cons_self)
  exact fails_of_wired ha (hc.wired hp ha) (by simp [s.filter_loop_filed]) hexit hlast hlarge

/-- No other jump of a switch starts before its first test, or stops before it does, or is listed before it. -/
theorem first_least {flow : Flow} (hstage : flow.Stage (asRead before ++ (asRead s.code ++ asRead (finish :: after)))
    s.jumps []) {j : Jump} (hj : j ∈ s.filed) (hne : j ≠ s.first.test.testJump s.skip.offset) :
    s.first.test.jump.offset.value < j.start.value ∧ s.skip.offset.value ≤ j.stop.value ∧
      (s.first.test.testJump s.skip.offset).FiledBefore j := by
  obtain ⟨_, hleast⟩ := Choice.stops_grow s.skip (gates_grow hstage)
  have hfirst : s.first.test.jump.offset.value < s.skip.offset.value := test_lt_skip hstage s.first_mem_jumps
  have hexits : ∀ c ∈ s.choices, s.skip.offset.value < c.exit.offset.value := fun c hc =>
    (List.pairwise_cons.1 (gates_grow hstage)).1 _ (List.mem_map_of_mem hc)
  rcases cases_of_mem_filed hj with ⟨hm, hk⟩ | rfl | ⟨c, hc, rfl⟩
  · have hlt := (first_or_after hstage hm).resolve_left hne
    exact ⟨hlt, hleast j (List.mem_append_left _ hm), Or.inr ⟨rfl, Or.inr ⟨hk, hlt⟩⟩⟩
  · exact ⟨hfirst, hleast _ (by simp), Or.inr ⟨rfl, Or.inl rfl⟩⟩
  · refine ⟨Int.lt_trans hfirst (hexits c hc), ?_, Or.inr ⟨rfl, Or.inl rfl⟩⟩
    exact Int.le_of_lt (Int.lt_trans (hexits c hc) (exit_lt_last hstage hc))

/-- The first test is handled before all other jumps. -/
theorem exists_order {flow : Flow} {order : List Nat} {i : Nat}
    (h : flow.Readied (before ++ (s.code ++ finish :: after)) {} order)
    (hstage : flow.Stage (asRead before ++ (asRead s.code ++ asRead (finish :: after))) s.jumps [])
    (hs : ∀ o ∈ offsetsOf (before ++ (s.code ++ finish :: after)), (Binary64.nearestWhole? o.value).isSome)
    (hi : flow.OpenAs i (s.first.test.testJump s.skip.offset)) : ∃ later, order = i :: later := by
  have hsort : ∀ o ∈ flow.offsets, FlowM.Sortable o := fun o ho =>
    ⟨hstage.sound.ascending.numbers o ho, hs o (h.offsets ▸ ho)⟩
  have hmem : ∀ {k}, flow.Open k → flow.jump k ∈ s.filed := fun hk =>
    (Choice.pending_perm s.skip s.choices).mem_iff.2 ((hstage.mem _).2 ⟨_, hk, rfl⟩)
  have hends : ∀ {k}, flow.Open k → (flow.jump k).start ∈ flow.offsets ∧ (flow.jump k).stop ∈ flow.offsets := by
    intro k hk
    have hexit : flow.Exit k := by
      refine ⟨hk, ?_⟩
      rcases cases_of_mem_filed (hmem hk) with ⟨_, hkind⟩ | he | ⟨c, _, he⟩
      · exact Or.inl hkind
      · exact Or.inr (by rw [he]; rfl)
      · exact Or.inr (by rw [he]; rfl)
    obtain ⟨hstart, hstop, _⟩ := hstage.sound.exit_aimed hexit
    exact ⟨hstart, hstop⟩
  refine h.first_handled hi.1.1 fun k hk hne => ?_
  have hopen := h.opens k hk
  have hother : flow.jump k ≠ s.first.test.testJump s.skip.offset := by
    intro he
    exact hne (hstage.sound.once k i hk hi.1.1 (by rw [he, hi.2]) (by rw [he, hi.2]))
  obtain ⟨hstart, hstop, hfiled⟩ := first_least hstage (hmem hopen) hother
  constructor
  · refine FlowM.ranked_of_le hsort (hends hi.1) (hends hopen) ?_ ?_
    · rw [hi.2]
      exact Int.le_of_lt hstart
    · rw [hi.2]
      exact hstop
  · rw [hi.2]
    exact hfiled

end ComparisonSwitch

open ComparisonSwitch in
/-- A comparison switch is shown body by body, under the labels of the tests that go to it, however many tests and
bodies it has, and whatever statements stand around it. No body may come right after offset 0. -/
theorem liftCode_shows_comparisonSwitch {name : String} {before after : List CodeLine} {s : ComparisonSwitch}
    {finish : CodeLine} {console : Console} (hc : s.Compiled finish.offset)
    (hp : ∀ line ∈ before ++ finish :: after, (statement? line).isSome)
    (ha : Ascending (offsetsOf (before ++ (s.code ++ finish :: after))))
    (hz : ∀ line ∈ Choice.gates s.skip s.choices, line.offset ≠ .number 0)
    (hs : ∀ o ∈ offsetsOf (before ++ (s.code ++ finish :: after)), (Binary64.nearestWhole? o.value).isSome) :
    ∃ out console', liftCode name (before ++ (s.code ++ finish :: after)) {} console = .ok out console' ∧
      (out.map (·.rendered)).filter (· ≠ "") = "\x7b" :: (Loop.shown before ++
        (s.printed ++ (Loop.shown (finish :: after) ++ ["\x7d"]))) := by
  have hshown := @shows_of_wired name _ (asRead before ++ (s.laid ++ asRead (finish :: after))) s.filed console ha
    (hc.wired hp ha) (by simp [s.filter_loop_filed]) hs fun flow order hr hstage => ?_
  · obtain ⟨out, console', hok, hout⟩ := hshown
    rw [shownOf_append, shownOf_append, s.shown_laid, shownOf_asRead, shownOf_asRead, List.append_assoc,
      List.append_assoc] at hout
    exact ⟨out, console', hok, hout⟩
  have hstage : flow.Stage (asRead before ++ (asRead s.code ++ asRead (finish :: after))) s.jumps [] := by
    simpa [jumps] using hstage.perm (Choice.pending_perm s.skip s.choices)
  obtain ⟨i, hi⟩ := (hstage.mem (s.first.test.testJump s.skip.offset)).1 (Choice.mem_jumps_iff.1 s.first_mem_jumps).1
  obtain ⟨later, rfl⟩ := exists_order hr hstage hs hi
  refine @FlowM.yields_handleJumps_one flow [] later i _ [] hstage.sound (fun k hk => (hr.mem k).1 hk) (by simp) ?_
    (by simp)
  rw [FlowM.handleJump, yields_bind, FlowM.yields_jump, if_neg (by simp [hi.1.2]), hi.2]
  exact yields_handleTest hstage (hc.fit hz) hr.tests hi

/-- A switch with two bodies, the last line of whose default stands at a given offset. Two tests share the first of
the bodies. -/
def sharedBodySwitch (last : Nat) : ComparisonSwitch where
  first :=
    { test := { lines := [], jump := jumpAt "JumpIfTrue" 0 10 }
      more := [{ lines := [{ offset := .number 2, instruction := "Ldar r0" }], jump := jumpAt "JumpIfTrue" 4 10 }]
      head := zeroAt 10
      body := []
      exit := jumpAt "Jump" 12 (last + 2 : Nat) }
  second :=
    { test := { lines := [], jump := jumpAt "JumpIfTrue" 6 14 }
      more := []
      head := { offset := .number 14, instruction := "LdaNull" }
      body := []
      exit := jumpAt "Jump" 16 (last + 2 : Nat) }
  others := []
  skip := jumpAt "Jump" 8 18
  fallback := [{ offset := .number 18, instruction := "Star r1" }]
  last := { offset := .number last, instruction := "Star r2" }

theorem compiled_sharedBodySwitch {last : Nat} (h : Short (last + 2)) :
    (sharedBodySwitch last).Compiled (.number (last + 2 : Nat)) where
  tests := by
    have htests : ∀ o ∈ [0, 4], JumpsTo "JumpIfTrue" (.number 10) (jumpAt "JumpIfTrue" o 10) := by decide +kernel
    have hsecond : JumpsTo "JumpIfTrue" (.number 14) (jumpAt "JumpIfTrue" 6 14) := by decide +kernel
    simpa [sharedBodySwitch, ComparisonSwitch.choices, Choice.tests, zeroAt, hsecond] using htests
  skips := (by decide +kernel : JumpsTo "Jump" (.number 18) (jumpAt "Jump" 8 18))
  exits := by
    have hexit := fun o => @jumpsTo_jumpAt "Jump" (last + 2) (by decide) (by decide) h o
    simpa [sharedBodySwitch, ComparisonSwitch.choices] using And.intro (hexit 12) (hexit 16)
  compares := by
    have hload : (statement? { offset := .number 2, instruction := "Ldar r0" }).isSome := by decide +kernel
    simpa [sharedBodySwitch, ComparisonSwitch.choices, Choice.tests] using hload
  plain := by
    have hlast : (statement? { offset := .number last, instruction := "Star r2" }).isSome := by
      simp only [statement?, operator, operands]
      decide +kernel
    have hbodies : ∀ line ∈ [zeroAt 10, { offset := .number 14, instruction := "LdaNull" },
      { offset := .number 18, instruction := "Star r1" }], (statement? line).isSome := by decide +kernel
    simpa [sharedBodySwitch, ComparisonSwitch.choices, Choice.lines, hlast] using hbodies

theorem liftCode_shows_sharedBody : (sharedBodySwitch 20).Compiled (.number 22) ∧ ∃ out console',
    liftCode "f" ((sharedBodySwitch 20).code ++ [returnAt 22]) {} {} = .ok out console' ∧
      (out.map (·.rendered)).filter (· ≠ "") =
        ["\x7b", "CASE_0 = ACCU", "ACCU = r0", "CASE_1 = ACCU", "CASE_2 = ACCU", "switch ()", "case CASE_0:",
        "case CASE_1:",
          "\x7b", "ACCU = 0", "break", "\x7d", "case CASE_2:", "\x7b", "ACCU = null", "break", "\x7d", "default:",
          "\x7b", "r1 = ACCU", "r2 = ACCU", "\x7d", "return ACCU", "\x7d"] := by
  have hc : (sharedBodySwitch 20).Compiled (.number 22) := compiled_sharedBodySwitch (by decide +kernel)
  obtain ⟨out, console', hok, hshown⟩ := @liftCode_shows_comparisonSwitch "f" [] [] (sharedBodySwitch 20)
    (returnAt 22) {} hc (by decide +kernel) (by decide +kernel) (by decide +kernel) (by decide +kernel)
  exact ⟨hc, out, console', hok, hshown.trans (by decide +kernel)⟩

theorem liftCode_fails_farDefault : (sharedBodySwitch (2 ^ 1024)).Compiled (.number (2 ^ 1024 + 2 : Nat)) ∧
    Ascending (offsetsOf ((sharedBodySwitch (2 ^ 1024)).code ++ [returnAt (2 ^ 1024 + 2 : Nat)])) ∧
    Run.fails (liftCode "f" ((sharedBodySwitch (2 ^ 1024)).code ++ [returnAt (2 ^ 1024 + 2 : Nat)]) {}) {} = true := by
  have hc := @compiled_sharedBodySwitch (2 ^ 1024) (short_iff.2 (by decide +kernel))
  have ha : Ascending (offsetsOf ((sharedBodySwitch (2 ^ 1024)).code ++ [returnAt (2 ^ 1024 + 2 : Nat)])) := by
    decide +kernel
  exact ⟨hc, ha, @ComparisonSwitch.Compiled.fails (sharedBodySwitch (2 ^ 1024)) [] [] (returnAt (2 ^ 1024 + 2 : Nat))
    "f" {} _ hc (by decide +kernel) ha rfl (by decide +kernel)⟩

end Bytelift
