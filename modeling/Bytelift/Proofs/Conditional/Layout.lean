import Bytelift.Proofs.Conditional.Source

/-! Laying out conditionals that are apart. The test of such a conditional is a whole condition: no chain of
tests leads on from it, and no other test goes where it goes and shares its else part. So handling it writes
into the lines of its own conditional only, and the order in which the tests are handled does not matter. -/

namespace Bytelift

open Run Text

/-! ## What the layout of a conditional writes -/

def openText (text : String) : String := Flow.joinText .and "if" text ++ "\n\x7b"

def elseText (text : String) : String := text ++ "\n\x7d\nelse\n\x7b"

def closeText (text : String) : String :=
  if has text "\x7b" then FlowM.blockEnd ++ text else text ++ FlowM.blockEnd

def CodeLine.reading (line : CodeLine) (text : String) : CodeLine := { line with rendered := text }

namespace Span

/-- What the layout of a conditional makes of the text at an offset. -/
def change (s : Span) (o : Offset) : String → String :=
  if o = s.test then openText else if s.past = some o then elseText
  else if o = s.close then closeText else id

def edit (s : Span) (line : CodeLine) : CodeLine := line.reading (s.change line.offset line.rendered)

theorem edit_reading (s : Span) (line : CodeLine) (text : String) :
    s.edit (line.reading text) = line.reading (s.change line.offset text) := rfl

theorem change_of_notMem_own {s : Span} {o : Offset} (h : o ∉ s.own) :
    s.change o = if o = s.close then closeText else id := by
  simp only [own, List.mem_cons, Option.mem_toList, not_or] at h
  unfold change
  rw [if_neg h.1, if_neg h.2]

theorem change_of_notMem {s : Span} {o : Offset} (h : o ∉ s.places) : s.change o = id := by
  simp only [places, List.mem_cons, not_or] at h
  rw [change_of_notMem_own (by simpa using h.2), if_neg h.1]

/-- The changes of two conditionals that are apart commute: on a line of one alone the other changes nothing,
and where both close they do the same. -/
theorem Apart.change_comm {s t : Span} (h : s.Apart t) (o : Offset) (text : String) :
    s.change o (t.change o text) = t.change o (s.change o text) := by
  by_cases hs : o ∈ s.own
  · rw [change_of_notMem (h.1 o hs)]
    rfl
  by_cases ht : o ∈ t.own
  · rw [change_of_notMem (h.2 o ht)]
    rfl
  rw [change_of_notMem_own hs, change_of_notMem_own ht]
  split <;> split <;> rfl

/-- The lines of a conditional without an else part, one edit after the other. -/
theorem edit_of_plain {s : Span} (hp : s.past = none) (hn : s.places.Nodup) (line : CodeLine) :
    ((line.revised s.test (Flow.joinText .and "if")).revised s.test (· ++ "\n\x7b")).revised s.close
      closeText = s.edit line := by
  simp only [places, own, hp, Option.toList_none, List.nodup_cons, List.mem_singleton] at hn
  have hne : s.test ≠ s.close := fun he => hn.1 he.symm
  unfold CodeLine.revised edit change CodeLine.reading
  by_cases ht : line.offset = s.test
  · simp [ht, hne, openText]
  · by_cases hc : line.offset = s.close <;> simp [ht, hc, hp, hne.symm]

theorem edit_of_split {s : Span} {o : Offset} (hp : s.past = some o) (hn : s.places.Nodup)
    (line : CodeLine) : (((line.revised s.test (Flow.joinText .and "if")).revised s.test
      (· ++ "\n\x7b")).revised o elseText).revised s.close closeText = s.edit line := by
  simp only [places, own, hp, Option.toList_some, List.nodup_cons, List.mem_cons, List.not_mem_nil,
    or_false, not_or] at hn
  obtain ⟨⟨htest, hpast⟩, hne, _⟩ := hn
  unfold CodeLine.revised edit change CodeLine.reading
  by_cases ht : line.offset = s.test
  · simp [ht, hne, Ne.symm htest, openText]
  · by_cases ho : line.offset = o
    · simp [ho, hp, Ne.symm hne, Ne.symm hpast]
    · by_cases hc : line.offset = s.close <;> simp [ht, ho, hc, hp, htest, hpast, Ne.symm ho, Ne.symm hpast]

theorem turn_mem (s : Span) : s.turn ∈ s.places := by
  unfold turn places own
  cases s.past <;> simp

/-- The lines of a code with conditionals laid out, one after the other. -/
def editAll (spans : List Span) (code : List CodeLine) : List CodeLine :=
  spans.foldl (fun code s => code.map s.edit) code

/-- Conditionals that are apart can be laid out in any order. -/
theorem editAll_perm {spans order : List Span} (ha : spans.Pairwise Apart) (hp : order.Perm spans)
    (code : List CodeLine) : editAll order code = editAll spans code := by
  refine hp.foldl_eq' ?_ code
  intro s hs t ht code
  simp only [List.map_map]
  refine List.map_congr_left fun line _ => ?_
  by_cases he : s = t
  · rw [he]
  · have hc := (ha.forall (hp.mem_iff.1 hs) (hp.mem_iff.1 ht) he).change_comm line.offset line.rendered
    change t.edit (line.reading _) = s.edit (line.reading _)
    rw [edit_reading, edit_reading, hc]

theorem editAll_append (spans others : List Span) (code : List CodeLine) :
    editAll (spans ++ others) code = editAll others (editAll spans code) := List.foldl_append

theorem editAll_lines (spans : List Span) (code more : List CodeLine) :
    editAll spans (code ++ more) = editAll spans code ++ editAll spans more := by
  unfold editAll
  induction spans generalizing code more with
  | nil => rfl
  | cons s spans ih =>
    rw [List.foldl_cons, List.map_append, ih]
    rfl

/-- A conditional leaves the lines alone that are none of its own. -/
theorem map_edit_of_notMem {s : Span} {code : List CodeLine}
    (h : ∀ o ∈ s.places, o ∉ Instruction.offsetsOf code) : code.map s.edit = code := by
  have hid : ∀ line ∈ code, s.edit line = id line := by
    intro line hl
    have hn : line.offset ∉ s.places := fun hp => h _ hp (List.mem_map_of_mem hl)
    rw [edit, change_of_notMem hn]
    rfl
  rw [List.map_congr_left hid, List.map_id]

theorem editAll_of_notMem {spans : List Span} {code : List CodeLine}
    (h : ∀ s ∈ spans, ∀ o ∈ s.places, o ∉ Instruction.offsetsOf code) : editAll spans code = code := by
  unfold editAll
  induction spans with
  | nil => rfl
  | cons s spans ih =>
    rw [List.foldl_cons, map_edit_of_notMem (h s List.mem_cons_self)]
    exact ih fun t ht => h t (List.mem_cons_of_mem s ht)

end Span

/-! ## A test that is a whole condition -/

namespace Flow

/-- A test from which no chain leads on; if it goes to a skip, it is the only one that goes there. -/
structure Whole (flow : Flow) (i : Nat) : Prop where
  test : flow.Test i
  forward : (flow.jump i).start ≠ (flow.jump i).stop
  unchained : (flow.table .test).get? (flow.jump i).stop = none
  only : ∀ past, (flow.table .skip).get? (flow.jump i).stop = some past →
    (flow.jump past).start ≠ (flow.jump past).stop ∧
      ∀ c, flow.Test c → (flow.jump c).stop = (flow.jump i).stop → c = i
  unskipped : ¬flow.SkipAfterTest

/-- Such a test in code without handlers. -/
structure Alone (flow : Flow) (i : Nat) : Prop extends flow.Whole i where
  unhandled : ∀ o j, ¬flow.Filed .handler o j

/-- The braces around what a condition governs, with the skip over its else part. -/
def bodied (flow : Flow) (condition : Jump) : Option Nat → Flow
  | none => (flow.revised condition.start (· ++ "\n\x7b")).closedAt condition.stop
  | some past => (((flow.revised condition.start (· ++ "\n\x7b")).revised (flow.jump past).start
      elseText).closedAt (flow.jump past).stop).retired past

end Flow

namespace FlowM

variable {flow : Flow} {i : Nat}

/-- Without handlers a block closes where it should. -/
theorem yields_closeBlock_unhandled (h : flow.Sound) (hu : ∀ o j, ¬flow.Filed .handler o j)
    {start stop : Offset} (hm : stop ∈ flow.offsets) {wanted : Offset → Flow → Prop} :
    Yields (closeBlock start stop) flow wanted ↔ wanted stop (flow.closedAt stop) := by
  refine yields_closeBlock_at h ?_ hm
  have hnil : (flow.table .handler).values = [] := by
    rw [Table.values, List.map_eq_nil_iff, List.eq_nil_iff_forall_not_mem]
    intro entry he
    exact hu entry.1 entry.2 he
  rw [hnil]
  rfl

theorem yields_dropReceivers_none (h : flow.Sound)
    (hn : ∀ i, flow.Open i → (flow.jump i).kind ≠ .receiver) {wanted : Unit → Flow → Prop} :
    Yields dropReceivers flow wanted ↔ wanted () flow := by
  have hnil : (flow.table .receiver).values = [] := by
    rw [List.eq_nil_iff_forall_not_mem]
    intro i hi
    obtain ⟨ho, hk⟩ := (h.mem_values (by simp)).1 hi
    exact hn i ho hk
  simp only [dropReceivers, yields_bind, yields_get]
  rw [show flow.tables.receivers = flow.table .receiver from rfl, hnil, clearReceivers, yields_pure]

theorem yields_lastTest_whole (h : flow.Sound) (ha : flow.Whole i) :
    Yields (lastTest i) flow fun last result => last = i ∧ result = flow := by
  have hchain : Yields (chainEnd i) flow fun last result => last = i ∧ result = flow := by
    simp only [chainEnd, followTests, yields_bind, yields_openTests, yields_jump, yields_testAt?,
      ha.unchained, yields_pure, yields_skipAt?]
    cases hskip : (flow.table .skip).get? (flow.jump i).stop with
    | none => exact yields_pure.2 ⟨rfl, rfl⟩
    | some past =>
      have hps := ((h.filed _ _ _ (by simp)).1 (h.lookup.1 hskip)).2.2
      have hmem : i ∈ (flow.table .test).values.filter fun c =>
          (flow.jump c).stop = (flow.jump past).start :=
        List.mem_filter.2 ⟨(h.mem_values (by simp)).2 ha.test, by simp [hps]⟩
      simp only [testBefore, yields_bind, yields_jump, yields_get, yields_openTests]
      refine (yields_latest ?_ (List.ne_nil_of_mem hmem)).mono ?_
      · intro c hc
        have ht := h.test_of_mem (List.mem_filter.1 hc).1
        exact h.ascending.numbers _ (h.exit_aimed ht.exit).1
      · intro found same hr
        obtain ⟨rfl, last, hlast, rfl, _⟩ := hr
        obtain ⟨hm, hstop⟩ := List.mem_filter.1 hlast
        rw [yields_need]
        refine ⟨last, rfl, ?_, rfl⟩
        exact (ha.only past hskip).2 last (h.test_of_mem hm) ((of_decide_eq_true hstop).trans hps)
  obtain ⟨hstart, hstop, hle, _⟩ := h.exit_aimed ha.test.exit
  have hlt : (flow.jump i).start.value < (flow.jump i).stop.value := by
    have hv : (flow.jump i).start.value ≠ (flow.jump i).stop.value := fun hv =>
      ha.forward (Offset.eq_of_value (h.ascending.numbers _ hstart) (h.ascending.numbers _ hstop) hv)
    omega
  simp only [lastTest, yields_bind]
  refine hchain.mono ?_
  intro last result hr
  obtain ⟨rfl, rfl⟩ := hr
  refine (yields_stepOver h ha.test (Int.le_refl _) hlt).mono ?_
  intro _ told hl
  exact yields_pure.2 ⟨rfl, hl.told.resolve_right ha.unskipped⟩

/-- The tests from a test on to the same test are that one. -/
theorem filterM_belongs_whole (h : flow.Sound) (ha : flow.Whole i) :
    (flow.table .test).values.filterM
      (fun c => belongs? (flow.jump i).start (flow.jump i).start (flow.jump c)) = some [i] := by
  have hnumber := h.ascending.numbers
  have hstart := (h.exit_aimed ha.test.exit).1
  have hmem := (h.mem_values (by simp)).2 ha.test
  rw [filterM_of_some fun c hc => belongs?_eq (hnumber _ hstart) (hnumber _ hstart)
    (hnumber _ (h.exit_aimed (h.test_of_mem hc).exit).1)]
  have hiff : ∀ c ∈ (flow.table .test).values, (decide ((flow.jump i).start.value ≤ (flow.jump c).start.value ∧
      (flow.jump c).start.value ≤ (flow.jump i).start.value ∧
      (flow.jump c).start ≠ (flow.jump c).stop)) = (c == i) := by
    intro c hc
    have ht := h.test_of_mem hc
    rw [beq_eq_decide, decide_eq_decide]
    constructor
    · intro hb
      have hs := Offset.eq_of_value (hnumber _ (h.exit_aimed ht.exit).1) (hnumber _ hstart) (by omega)
      exact h.once c i ht.1.1 ha.test.1.1 (ht.2.trans ha.test.2.symm) hs
    · rintro rfl
      exact ⟨Int.le_refl _, Int.le_refl _, ha.forward⟩
  rw [List.filter_congr hiff, List.filter_beq, (h.nodup_values (by simp)).count, if_pos hmem]
  rfl

theorem yields_layOutBody_unhandled (h : flow.Sound) (hu : ∀ o j, ¬flow.Filed .handler o j)
    {condition : Jump} (hs : condition.start ∈ flow.offsets) (he : condition.stop ∈ flow.offsets)
    (hf : ∀ past, (flow.table .skip).get? condition.stop = some past →
      (flow.jump past).start ≠ (flow.jump past).stop) :
    Yields (layOutBody condition) flow fun _ result =>
      result = flow.bodied condition ((flow.table .skip).get? condition.stop) := by
  have hopen := h.revised condition.start (· ++ "\n\x7b")
  have hopened : ∀ o j, ¬(flow.revised condition.start (· ++ "\n\x7b")).Filed .handler o j := hu
  simp only [layOutBody, yields_bind]
  rw [yields_append h hs, yields_elseSkip?, Flow.table_revised]
  cases hskip : (flow.table .skip).get? condition.stop with
  | none =>
    simp only [Option.filter_none, yields_bind]
    rw [yields_closeBlock_unhandled hopen hopened he, yields_pure]
    rfl
  | some past =>
    obtain ⟨hpo, hpk, _⟩ := (h.filed _ _ _ (by simp)).1 (h.lookup.1 hskip)
    obtain ⟨hpstart, hpstop, _⟩ := h.exit_aimed ⟨hpo, Or.inr hpk⟩
    rw [Option.filter_some, Flow.jump_revised, if_pos (decide_eq_true (hf past hskip))]
    simp only [yields_bind, yields_jump, Flow.jump_revised]
    rw [yields_append hopen hpstart, yields_closeBlock_unhandled (hopen.revised _ _) hopened hpstop,
      yields_retire (by simpa using h.kinds past hpo.1)]
    rfl

theorem sound_joined (h : flow.Sound) (hi : i < flow.jumps.length) : (flow.joined .and "if" i).Sound :=
  (h.revised _ _).retired (i := i) hi

/-- A whole condition is written as one, and what it governs is set in braces. -/
theorem yields_layOutTest_whole (h : flow.Sound) (ha : flow.Whole i) {wanted : Unit → Flow → Prop}
    (hbody : Yields (layOutBody ((flow.joined .and "if" i).jump i)) (flow.joined .and "if" i) wanted) :
    Yields (layOutTest i) flow fun _ => wanted () := by
  simp only [layOutTest, yields_bind, yields_jump, ha.test.2, ne_eq, not_true_eq_false, if_false,
    ha.forward]
  refine (yields_lastTest_whole h ha).mono ?_
  intro last result hr
  obtain ⟨rfl, rfl⟩ := hr
  simp only [yields_get, yields_openTests, yields_settled]
  refine ⟨[last], filterM_belongs_whole h ha, ?_⟩
  refine (yields_connectives h ha.test).mono ?_
  intro known same hk
  obtain ⟨rfl, hknown⟩ := hk
  simp only [joinTests, yields_bind, yields_jump, hknown]
  rw [yields_joinTest h ha.test]
  simpa only [yields_pure] using hbody

theorem yields_handleTest_whole (h : flow.Sound) (ha : flow.Whole i) {wanted : Unit → Flow → Prop}
    (hbody : Yields (layOutBody ((flow.joined .and "if" i).jump i)) (flow.joined .and "if" i) wanted) :
    Yields (handleTest i) flow wanted := by
  simp only [handleTest, yields_bind]
  refine (yields_layOutComparison h ha.test.1 ha.test.2).mono ?_
  intro taken middle hr
  obtain ⟨_, hdeclined, htaken⟩ := hr
  cases taken with
  | true => exact absurd (htaken rfl) ha.unskipped
  | false =>
    obtain rfl := hdeclined rfl
    simp only [Bool.false_eq_true, if_false, yields_bind, yields_pure]
    exact yields_layOutTest_whole h ha hbody

theorem yields_handleTest_alone (h : flow.Sound) (ha : flow.Alone i) :
    Yields (handleTest i) flow fun _ result => result = (flow.joined .and "if" i).bodied
      ((flow.joined .and "if" i).jump i) ((flow.table .skip).get? (flow.jump i).stop) := by
  obtain ⟨hstart, hstop, _⟩ := h.exit_aimed ha.test.exit
  have hkind := h.kinds i ha.test.1.1
  have hskips : (flow.joined .and "if" i).table .skip = flow.table .skip := by
    rw [Flow.joined, Flow.table_retired (by simpa using hkind), Flow.jump_revised,
      if_neg (by simp [ha.test.2]), Flow.table_revised]
  have honward : flow.Onward (flow.joined .and "if" i) :=
    (Flow.onward_revised _ _ _).trans (Flow.onward_retired _ _)
  refine yields_handleTest_whole h ha.toWhole ?_
  rw [← hskips, ← honward.stop]
  refine yields_layOutBody_unhandled (sound_joined h ha.test.1.1) ?_ ?_ ?_ ?_
  · exact Flow.Filed.retired_unhandled (by simpa using hkind) ha.unhandled
  · rw [honward.start, honward.offsets]
    exact hstart
  · rw [honward.stop, honward.offsets]
    exact hstop
  · intro past hp
    rw [hskips, honward.stop] at hp
    rw [honward.start, honward.stop]
    exact (ha.only past hp).1

end FlowM

/-! ## Conditionals that are still to be laid out -/

namespace Flow

/-- The open jumps are the tests and skips of conditionals that are apart. -/
structure Spanned (flow : Flow) (spans : List Span) : Prop where
  proper : ∀ s ∈ spans, s.places.Nodup
  apart : spans.Pairwise Span.Apart
  kinds : ∀ i, flow.Open i → (flow.jump i).kind = .test ∨ (flow.jump i).kind = .skip
  test : ∀ i, flow.Test i → ∃ s ∈ spans, (flow.jump i).start = s.test ∧ (flow.jump i).stop = s.turn
  skip : ∀ i, flow.Open i → (flow.jump i).kind = .skip →
    ∃ s ∈ spans, s.past = some (flow.jump i).start ∧ (flow.jump i).stop = s.close
  testAt : ∀ s ∈ spans, ∃ i, flow.Test i ∧ (flow.jump i).start = s.test
  skipAt : ∀ s ∈ spans, ∀ o ∈ s.past,
    ∃ i, flow.Open i ∧ (flow.jump i).kind = .skip ∧ (flow.jump i).start = o
  unskipped : flow.Spaced
  unhandled : ∀ o i, ¬flow.Filed .handler o i

namespace Spanned

variable {flow : Flow} {spans : List Span} {s : Span} {i : Nat}

/-- A line that belongs to one conditional belongs to no other. -/
theorem eq_of_own (h : flow.Spanned spans) {t : Span} (hs : s ∈ spans) (ht : t ∈ spans) {o : Offset}
    (ho : o ∈ s.own) (hp : o ∈ t.places) : s = t := by
  by_contra hne
  exact (h.apart.forall hs ht hne).1 o ho hp

theorem test_ne_turn (h : flow.Spanned spans) (hs : s ∈ spans) : s.test ≠ s.turn := by
  have hn := h.proper s hs
  unfold Span.places Span.own at hn
  unfold Span.turn
  cases hp : s.past with
  | none =>
    simp only [hp, Option.toList_none, List.nodup_cons, List.mem_singleton] at hn
    exact fun he => hn.1 he.symm
  | some o =>
    simp only [hp, Option.toList_some, List.nodup_cons, List.mem_cons] at hn
    exact fun he => hn.2.1 (Or.inl he)

/-- A test of such code is a whole condition. -/
theorem alone (h : flow.Spanned spans) (hf : flow.Sound) (hi : flow.Test i) : flow.Alone i := by
  obtain ⟨s, hs, hstart, hstop⟩ := h.test i hi
  have hne := h.test_ne_turn hs
  refine ⟨⟨hi, by rwa [hstart, hstop], ?_, ?_, h.unskipped.not_skipAfterTest⟩, h.unhandled⟩
  · -- a test that starts at the turn would be that of another conditional
    rw [hstop]
    by_contra hsome
    obtain ⟨c, hc⟩ := Option.ne_none_iff_exists'.1 hsome
    obtain ⟨hco, hck, hcs⟩ := (hf.filed _ _ _ (by simp)).1 (hf.lookup.1 hc)
    obtain ⟨t, ht, htstart, _⟩ := h.test c ⟨hco, hck⟩
    have he : s.turn = t.test := hcs.symm.trans htstart
    have hm : t.test ∈ s.places := he ▸ s.turn_mem
    obtain rfl := h.eq_of_own ht hs (List.mem_cons_self) hm
    exact hne he.symm
  · intro past hpast
    obtain ⟨hpo, hpk, hps⟩ := (hf.filed _ _ _ (by simp)).1 (hf.lookup.1 hpast)
    obtain ⟨t, ht, hpt, hpe⟩ := h.skip past hpo hpk
    have hown : (flow.jump past).start ∈ t.own := by simp [Span.own, hpt]
    have hclose : t.close ∉ t.own := (List.nodup_cons.1 (h.proper t ht)).1
    refine ⟨fun he => hclose (hpe ▸ he ▸ hown), ?_⟩
    intro c hc hce
    -- a test that goes to the skip of a conditional is the test of this conditional
    obtain ⟨u, hu, hcstart, hcstop⟩ := h.test c hc
    have hmi : (flow.jump past).start ∈ s.places := by
      rw [hps, hstop]
      exact s.turn_mem
    have hmu : (flow.jump past).start ∈ u.places := by
      rw [hps, ← hce, hcstop]
      exact u.turn_mem
    obtain rfl := h.eq_of_own ht hs hown hmi
    obtain rfl := h.eq_of_own ht hu hown hmu
    exact hf.once c i hc.1.1 hi.1.1 (hc.2.trans hi.2.symm) (hcstart.trans hstart.symm)

/-- The jumps that start on the lines of a conditional are its own. -/
theorem own_jump (h : flow.Spanned spans) (hs : s ∈ spans) {j : Nat} (hj : flow.Open j)
    (hm : (flow.jump j).start ∈ s.own) : (flow.jump j).kind = .test ∧ (flow.jump j).start = s.test ∨
      (flow.jump j).kind = .skip ∧ s.past = some (flow.jump j).start ∧ (flow.jump j).stop = s.close := by
  have hplaces : (flow.jump j).start ∈ s.places := List.mem_cons_of_mem _ hm
  rcases h.kinds j hj with hk | hk
  · obtain ⟨t, ht, hstart, _⟩ := h.test j ⟨hj, hk⟩
    obtain rfl := h.eq_of_own ht hs (by simp [hstart, Span.own]) hplaces
    exact Or.inl ⟨hk, hstart⟩
  · obtain ⟨t, ht, hpast, hstop⟩ := h.skip j hj hk
    obtain rfl := h.eq_of_own ht hs (by simp [hpast, Span.own]) hplaces
    exact Or.inr ⟨hk, hpast, hstop⟩

/-- Without the jumps of one conditional, those of the others are left. -/
theorem without {before after : List Span} (h : flow.Spanned (before ++ s :: after)) {result : Flow}
    (ho : flow.Onward result) (hu : ∀ o i, ¬result.Filed .handler o i)
    (hopen : ∀ j, result.Open j ↔ flow.Open j ∧ (flow.jump j).start ∉ s.own) :
    result.Spanned (before ++ after) := by
  have hsub : ∀ t ∈ before ++ after, t ∈ before ++ s :: after := by
    intro t ht
    rcases List.mem_append.1 ht with ht | ht
    · exact List.mem_append_left _ ht
    · exact List.mem_append_right _ (List.mem_cons_of_mem _ ht)
  have hapart := h.apart
  rw [List.pairwise_middle (fun {_ _} hst => ⟨hst.2, hst.1⟩), List.pairwise_cons] at hapart
  -- a conditional that a jump of the rest belongs to is among the rest
  have hrest : ∀ t ∈ before ++ s :: after, ∀ o ∈ t.own, o ∉ s.own → t ∈ before ++ after := by
    intro t ht o hm hne
    rcases List.mem_append.1 ht with ht | ht
    · exact List.mem_append_left _ ht
    · rcases List.mem_cons.1 ht with rfl | ht
      · exact absurd hm hne
      · exact List.mem_append_right _ ht
  have hown : ∀ t ∈ before ++ after, ∀ o ∈ t.own, o ∉ s.own := by
    intro t ht o hm hs
    exact (hapart.1 t ht).1 o hs (List.mem_cons_of_mem _ hm)
  exact
    { proper := fun t ht => h.proper t (hsub t ht)
      apart := hapart.2
      kinds := by
        intro i hi
        rw [ho.kind]
        exact h.kinds i ((hopen i).1 hi).1
      test := by
        intro i hi
        obtain ⟨hi, hk⟩ := hi
        rw [hopen] at hi
        rw [ho.kind] at hk
        obtain ⟨t, ht, hstart, hstop⟩ := h.test i ⟨hi.1, hk⟩
        rw [ho.start, ho.stop]
        exact ⟨t, hrest t ht _ (by simp [hstart, Span.own]) hi.2, hstart, hstop⟩
      skip := by
        intro i hi hk
        rw [hopen] at hi
        rw [ho.kind] at hk
        obtain ⟨t, ht, hpast, hstop⟩ := h.skip i hi.1 hk
        rw [ho.start, ho.stop]
        exact ⟨t, hrest t ht _ (by simp [hpast, Span.own]) hi.2, hpast, hstop⟩
      testAt := by
        intro t ht
        obtain ⟨i, hi, hstart⟩ := h.testAt t (hsub t ht)
        refine ⟨i, ⟨(hopen i).2 ⟨hi.1, ?_⟩, (ho.kind i).trans hi.2⟩, (ho.start i).trans hstart⟩
        exact hown t ht _ (by simp [hstart, Span.own])
      skipAt := by
        intro t ht o hp
        obtain ⟨i, hi, hk, hstart⟩ := h.skipAt t (hsub t ht) o hp
        refine ⟨i, (hopen i).2 ⟨hi, ?_⟩, (ho.kind i).trans hk, (ho.start i).trans hstart⟩
        exact hown t ht _ (by simp [hstart, Span.own, Option.mem_def.1 hp])
      unskipped := h.unskipped.follows ho.toFollows
      unhandled := hu }

/-- Where a conditional turns, there is the skip over its else part, if it has one. -/
theorem skip_at_turn (h : flow.Spanned spans) (hf : flow.Sound) (hs : s ∈ spans) :
    s.past = none ∧ (flow.table .skip).get? s.turn = none ∨
    ∃ past, s.past = some (flow.jump past).start ∧ (flow.table .skip).get? s.turn = some past ∧
      flow.Open past ∧ (flow.jump past).kind = .skip ∧ (flow.jump past).stop = s.close := by
  cases hp : s.past with
  | none =>
    left
    refine ⟨rfl, ?_⟩
    by_contra hsome
    obtain ⟨past, hpast⟩ := Option.ne_none_iff_exists'.1 hsome
    obtain ⟨ho, hk, hstart⟩ := (hf.filed _ _ _ (by simp)).1 (hf.lookup.1 hpast)
    obtain ⟨t, ht, htp, _⟩ := h.skip past ho hk
    obtain rfl := h.eq_of_own ht hs (by simp [htp, Span.own]) (hstart ▸ s.turn_mem)
    rw [hp] at htp
    cases htp
  | some o =>
    right
    obtain ⟨past, ho, hk, hstart⟩ := h.skipAt s hs o hp
    have hown : (flow.jump past).start ∈ s.own := by simp [Span.own, hp, hstart]
    have hget : (flow.table .skip).get? s.turn = some past := by
      refine hf.lookup.2 ((hf.filed _ _ _ (by simp)).2 ⟨ho, hk, ?_⟩)
      simp [Span.turn, hp, hstart]
    rcases h.own_jump hs ho hown with ⟨hk', _⟩ | ⟨_, _, hstop⟩
    · rw [hk] at hk'
      cases hk'
    · exact ⟨past, by rw [hstart], hget, ho, hk, hstop⟩

/-- Handling the test of a conditional lays it out, and leaves the others as they are. -/
theorem step {before after : List Span} (h : flow.Spanned (before ++ s :: after)) (hf : flow.Sound)
    (hi : flow.Test i) (hs : (flow.jump i).start = s.test) : Yields (FlowM.handleTest i) flow
      fun _ result => flow.Kept result ∧ result.code = flow.code.map s.edit ∧
        result.Spanned (before ++ after) ∧ ∀ j, result.Open j → flow.Open j ∧ i ≠ j := by
  have hmem : s ∈ before ++ s :: after := by simp
  have hown : s.test ∈ s.own := List.mem_cons_self
  have hstop : (flow.jump i).stop = s.turn := by
    obtain ⟨t, ht, htest, hturn⟩ := h.test i hi
    obtain rfl := h.eq_of_own hmem ht hown (by simp [Span.places, Span.own, ← htest, hs])
    exact hturn
  have hlen : i < (flow.revised (flow.jump i).start (joinText .and "if")).jumps.length := hi.1.1
  have hkept : flow.Kept (flow.joined .and "if" i) := (hf.kept.revised _ _).retired hlen
  have honward : flow.Onward (flow.joined .and "if" i) := (onward_revised _ _ _).trans (onward_retired _ _)
  have hunhandled : ∀ o j, ¬(flow.joined .and "if" i).Filed .handler o j :=
    Filed.retired_unhandled (by simpa using hf.kinds i hi.1.1) h.unhandled
  have hmine : ∀ j, flow.Open j → ((flow.jump j).start ∈ s.own ↔
      i = j ∨ (flow.jump j).kind = .skip ∧ s.past = some (flow.jump j).start) := by
    intro j hj
    constructor
    · intro hm
      rcases h.own_jump hmem hj hm with ⟨hk, hstart⟩ | ⟨hk, hp, _⟩
      · exact Or.inl (hf.once i j hi.1.1 hj.1 (hi.2.trans hk.symm) (hs.trans hstart.symm))
      · exact Or.inr ⟨hk, hp⟩
    · rintro (rfl | ⟨_, hp⟩)
      · exact hs ▸ hown
      · simp [Span.own, hp]
  have hrest : ∀ result : Flow, flow.Onward result → (∀ o j, ¬result.Filed .handler o j) →
      (∀ j, result.Open j ↔ flow.Open j ∧ (flow.jump j).start ∉ s.own) →
      result.Spanned (before ++ after) ∧ ∀ j, result.Open j → flow.Open j ∧ i ≠ j := by
    intro result ho hu hopen
    refine ⟨h.without ho hu hopen, ?_⟩
    intro j hj
    rw [hopen] at hj
    refine ⟨hj.1, ?_⟩
    rintro rfl
    exact hj.2 (hs ▸ hown)
  refine (FlowM.yields_handleTest_alone hf (h.alone hf hi)).mono ?_
  intro _ result hr
  rw [hstop] at hr
  rcases h.skip_at_turn hf hmem with ⟨hp, hget⟩ | ⟨past, hp, hget, hpo, hpk, hpstop⟩
  · have hturn : s.turn = s.close := by simp [Span.turn, hp]
    rw [hget, bodied, honward.start, honward.stop, hs, hstop, hturn] at hr
    subst hr
    refine ⟨(hkept.revised _ _).closedAt _, ?_, ?_⟩
    · have hline := funext (Span.edit_of_plain hp (h.proper s hmem))
      change ((flow.code.map (CodeLine.revised (flow.jump i).start _)).map _).map _ = _
      rw [List.map_map, List.map_map, hs, ← hline]
      rfl
    · refine hrest _ (honward.trans ((onward_revised _ _ _).trans (onward_revised _ _ _))) hunhandled ?_
      intro j
      change (flow.joined .and "if" i).Open j ↔ _
      rw [joined, open_retired hlen]
      refine and_congr_right fun hj => ?_
      rw [hmine j hj, hp]
      simp
  · have hlen' : past < ((((flow.joined .and "if" i).revised s.test (· ++ "\n\x7b")).revised
        (flow.jump past).start elseText).closedAt s.close).jumps.length := by
      simpa [joined] using hpo.1
    rw [hget, bodied, honward.start, honward.start, honward.stop, hs, hpstop] at hr
    subst hr
    refine ⟨(((hkept.revised _ _).revised _ _).closedAt _).retired hlen', ?_, ?_⟩
    · have hline := funext (Span.edit_of_split hp (h.proper s hmem))
      change (((flow.code.map (CodeLine.revised (flow.jump i).start _)).map _).map _).map _ = _
      rw [List.map_map, List.map_map, List.map_map, hs, ← hline]
      rfl
    · refine hrest _ (honward.trans (((onward_revised _ _ _).trans (onward_revised _ _ _)).trans
        ((onward_revised _ _ _).trans (onward_retired _ _))))
        (Filed.retired_unhandled (by simpa [joined, hpk] using hf.kinds past hpo.1) hunhandled) ?_
      intro j
      rw [open_retired hlen']
      change (flow.joined .and "if" i).Open j ∧ past ≠ j ↔ _
      rw [joined, open_retired hlen, and_assoc]
      refine and_congr_right fun hj => ?_
      have hpast : (flow.jump j).kind = .skip ∧ s.past = some (flow.jump j).start ↔ past = j := by
        constructor
        · intro hk
          refine hf.once past j hpo.1 hj.1 (hpk.trans hk.1.symm) ?_
          rw [hp] at hk
          exact Option.some.inj hk.2
        · rintro rfl
          exact ⟨hpk, hp⟩
      rw [hmine j hj, hpast, not_or]

/-- Handling the jumps in any order lays out all conditionals. -/
theorem run : ∀ (is : List Nat) {flow : Flow} {spans : List Span}, flow.Spanned spans → flow.Sound →
    (∀ i, flow.Test i → i ∈ is) → (∀ i ∈ is, i < flow.jumps.length) →
    Yields (FlowM.handleJumps is) flow fun _ result =>
      result.code = Span.editAll spans flow.code
  | [], flow, spans, h, hf, hall, _ => by
    have hnil : spans = [] := by
      rw [List.eq_nil_iff_forall_not_mem]
      intro s hs
      obtain ⟨i, hi, _⟩ := h.testAt s hs
      exact List.not_mem_nil (hall i hi)
    simp [FlowM.handleJumps, hnil, Span.editAll]
  | i :: is, flow, spans, h, hf, hall, hlt => by
    have hrest : ∀ j ∈ is, j < flow.jumps.length := fun j hj => hlt j (List.mem_cons_of_mem i hj)
    have hlen := hlt i (by simp)
    -- a jump that is no open test changes nothing
    have hidle : ¬flow.Test i → Yields (FlowM.handleJumps is) flow fun _ result =>
        result.code = Span.editAll spans flow.code := by
      intro hn
      refine run is h hf ?_ hrest
      intro j hj
      exact (List.mem_cons.1 (hall j hj)).resolve_left fun he => hn (he ▸ hj)
    simp only [FlowM.handleJumps, yields_bind]
    by_cases hd : (flow.jump i).done = true
    · rw [FlowM.handleJump, yields_bind, FlowM.yields_jump, if_pos hd, yields_pure]
      refine hidle fun ht => ?_
      rw [ht.1.2] at hd
      cases hd
    have hopen : flow.Open i := ⟨hlen, by simpa using hd⟩
    rw [FlowM.handleJump, yields_bind, FlowM.yields_jump, if_neg hd]
    rcases h.kinds i hopen with hk | hk
    · obtain ⟨s, hs, hstart, _⟩ := h.test i ⟨hopen, hk⟩
      obtain ⟨before, after, rfl⟩ := List.append_of_mem hs
      simp only [hk]
      refine (h.step hf ⟨hopen, hk⟩ hstart).mono ?_
      intro _ middle hm
      obtain ⟨hkept, hcode, hspanned, hopened⟩ := hm
      refine (run is hspanned hkept.sound ?_ ?_).mono ?_
      · intro j hj
        obtain ⟨ho, hne⟩ := hopened j hj.1
        exact (List.mem_cons.1 (hall j ⟨ho, (hkept.kind j).symm.trans hj.2⟩)).resolve_left hne.symm
      · intro j hj
        rw [hkept.length]
        exact hrest j hj
      · intro _ result hresult
        rw [hresult, hcode]
        exact Span.editAll_perm h.apart List.perm_middle.symm flow.code
    · simp only [hk, yields_bind]
      refine (FlowM.yields_isIdle hf ⟨hopen, Or.inr hk⟩).mono ?_
      intro _ result hr
      rw [hr, yields_pure]
      refine hidle fun ht => ?_
      have hkind := ht.2
      rw [hk] at hkind
      cases hkind

end Spanned

end Flow

end Bytelift
