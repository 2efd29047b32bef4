import Bytelift.Proofs.Flow.Sorting
import Bytelift.Proofs.Loop.Exits

/-! Wrapping loops one after the other, in code whose jumps are loops and tests. A test goes to the first loop
that claims it; so what the lines read in the end depends on the order of the loops, and on nothing else. -/

namespace Bytelift

open Run Text

theorem CodeLine.revised_eq (o : Offset) (f : String → String) (line : CodeLine) :
    line.revised o f = line.reading (if line.offset = o then f line.rendered else line.rendered) := by
  unfold revised reading
  split <;> rfl

/-- A line with a loop put around its lines. -/
theorem CodeLine.wrapped_eq (start stop : Offset) (line : CodeLine) :
    (line.revised start ("while (true)\n\x7b\n" ++ ·)).revised stop closeText =
      line.reading ((if line.offset = stop then closeText else id)
        ((if line.offset = start then "while (true)\n\x7b\n" else "") ++ line.rendered)) := by
  rw [revised_eq, revised_eq]
  by_cases hs : line.offset = start
  · by_cases he : start = stop <;> simp [reading, hs, he]
  · by_cases he : line.offset = stop
    · simp [reading, ← he, hs]
    · simp [reading, hs, he]

def exitText (keyword : Option String) : String := keyword.elim "" (" " ++ ·)

namespace Flow

variable {flow : Flow}

/-! ## One loop -/

/-- A loop put around its lines, before the exits are shown. -/
def wrapped (flow : Flow) (i : Nat) : Flow :=
  ((flow.revised (flow.jump i).start ("while (true)\n\x7b\n" ++ ·)).closedAt (flow.jump i).stop).retired i

/-- The keyword that a loop shows the test at an offset by, if there is an open one. -/
def said (flow : Flow) (i : Nat) (o : Offset) : Option String :=
  ((flow.table .test).get? o).bind fun t => (flow.jump i).verdict? flow.offsets (flow.jump t)

/-- The text of a line once a loop has been put around its lines and its exits have been shown. -/
def wrapText (flow : Flow) (i : Nat) (o : Offset) (text : String) : String :=
  (if o = (flow.jump i).stop then closeText else id)
    ((if o = (flow.jump i).start then "while (true)\n\x7b\n" else "") ++ text) ++ exitText (flow.said i o)

/-- A loop has been dealt with, and with it the tests that it claims. -/
structure Wraps (flow : Flow) (i : Nat) (result : Flow) : Prop where
  onward : flow.Onward result
  sound : result.Sound
  opens : ∀ j, result.Open j ↔ flow.Open j ∧ i ≠ j ∧
    ((flow.jump j).kind = .test → (flow.jump i).verdict? flow.offsets (flow.jump j) = none)
  same : ∀ j, result.Open j → result.jump j = flow.jump j
  code : result.code = flow.code.map fun line => line.reading (flow.wrapText i line.offset line.rendered)
  others : ∀ k, k ≠ .test → k ≠ .loop → result.table k = flow.table k

theorem Onward.leaves_iff {result : Flow} (h : flow.Onward result) (loop : Jump) (t : Nat) :
    loop.Leaves (result.jump t) ↔ loop.Leaves (flow.jump t) := by
  unfold Jump.Leaves
  rw [h.start, h.stop]

theorem Onward.resumes_iff {result : Flow} (h : flow.Onward result) (loop : Jump) (t : Nat) :
    loop.Resumes result.offsets (result.jump t) ↔ loop.Resumes flow.offsets (flow.jump t) := by
  unfold Jump.Resumes
  rw [h.start, h.stop, h.offsets]

/-- The tests that start at an offset are the one that is filed there. -/
theorem mem_starts (h : flow.Sound) {is : List Nat} (hall : ∀ t ∈ is, flow.Test t) {o : Offset} :
    o ∈ is.map (fun t => (flow.jump t).start) ↔ ∃ t ∈ is, (flow.table .test).get? o = some t := by
  rw [List.mem_map]
  refine exists_congr fun t => and_congr_right fun ht => ?_
  rw [h.lookup, h.filed _ _ _ (by simp)]
  exact ⟨fun he => ⟨(hall t ht).1, (hall t ht).2, he⟩, fun hf => hf.2.2⟩

theorem verdict?_eq_none {offsets : List Offset} {loop test : Jump} :
    loop.verdict? offsets test = none ↔ ¬loop.Leaves test ∧ ¬loop.Resumes offsets test := by
  unfold Jump.verdict?
  by_cases hl : loop.Leaves test <;> by_cases hr : loop.Resumes offsets test <;> simp [hl, hr]

/-- Two keywords are never put on one line: what is shown as a break is no longer open. -/
theorem markedAt_markedAt (h : flow.Sound) {i : Nat} {breaks continues : List Nat}
    (hb : ∀ t, t ∈ breaks ↔ flow.Test t ∧ (flow.jump i).Leaves (flow.jump t))
    (hc : ∀ t, t ∈ continues ↔ flow.Test t ∧ ¬(flow.jump i).Leaves (flow.jump t) ∧
      (flow.jump i).Resumes flow.offsets (flow.jump t)) (line : CodeLine) :
    markedAt "continue" (continues.map fun t => (flow.jump t).start)
      (markedAt "break" (breaks.map fun t => (flow.jump t).start) line) =
        line.reading (line.rendered ++ exitText (flow.said i line.offset)) := by
  have hbreak := @mem_starts flow h breaks (fun t ht => ((hb t).1 ht).1) line.offset
  have hcontinue := @mem_starts flow h continues (fun t ht => ((hc t).1 ht).1) line.offset
  cases hget : (flow.table .test).get? line.offset with
  | none =>
    simp only [hget, reduceCtorEq, and_false, exists_false, iff_false] at hbreak hcontinue
    simp [markedAt, hbreak, hcontinue, said, hget, exitText, CodeLine.reading]
  | some t =>
    have ht : flow.Test t := by
      obtain ⟨ho, hk, _⟩ := (h.filed _ _ _ (by simp)).1 (h.lookup.1 hget)
      exact ⟨ho, hk⟩
    simp only [hget, Option.some.injEq, exists_eq_right', hb, hc, ht, true_and] at hbreak hcontinue
    have hsaid : flow.said i line.offset = (flow.jump i).verdict? flow.offsets (flow.jump t) := by
      simp [said, hget]
    rw [hsaid]
    unfold Jump.verdict? markedAt
    by_cases hl : (flow.jump i).Leaves (flow.jump t)
    · have hout : ¬line.offset ∈ continues.map fun t => (flow.jump t).start :=
        fun hm => (hcontinue.1 hm).1 hl
      rw [if_pos (hbreak.2 hl), if_pos hl, if_neg (by exact hout)]
      rfl
    · rw [if_neg fun hm => hl (hbreak.1 hm), if_neg hl]
      by_cases hr : (flow.jump i).Resumes flow.offsets (flow.jump t)
      · rw [if_pos (hcontinue.2 ⟨hl, hr⟩), if_pos hr]
        rfl
      · rw [if_neg fun hm => hr (hcontinue.1 hm).2, if_neg hr]
        simp [exitText, CodeLine.reading]

variable {i : Nat}

theorem onward_wrapped (flow : Flow) (i : Nat) : flow.Onward (flow.wrapped i) :=
  ((onward_revised _ _ _).trans (onward_revised _ _ _)).trans (onward_retired _ _)

theorem Sound.wrapped (h : flow.Sound) (hi : flow.Open i) : (flow.wrapped i).Sound :=
  ((h.revised _ _).closedAt _).retired hi.1

theorem open_wrapped (hi : flow.Open i) (t : Nat) : (flow.wrapped i).Open t ↔ flow.Open t ∧ i ≠ t := open_retired hi.1

theorem table_wrapped (h : flow.Sound) (hi : flow.Open i) (hk : (flow.jump i).kind = .loop) {k : JumpKind}
    (hne : k ≠ .loop) : (flow.wrapped i).table k = flow.table k := by
  rw [wrapped, table_retired (by simpa using h.kinds i hi.1)]
  simp only [jump_closedAt, jump_revised, hk, if_neg (Ne.symm hne), table_closedAt, table_revised]

/-- The loop itself is no test. -/
theorem test_wrapped (hi : flow.Open i) (hk : (flow.jump i).kind = .loop) (t : Nat) :
    (flow.wrapped i).Test t ↔ flow.Test t := by
  unfold Test
  rw [open_wrapped hi, (onward_wrapped flow i).kind]
  constructor
  · rintro ⟨⟨ho, _⟩, hkind⟩
    exact ⟨ho, hkind⟩
  · rintro ⟨ho, hkind⟩
    refine ⟨⟨ho, ?_⟩, hkind⟩
    rintro rfl
    rw [hk] at hkind
    cases hkind

/-- The tests that a loop shows as breaks. -/
def breaks (flow : Flow) (i : Nat) : List Nat :=
  ((flow.wrapped i).table .test).values.filter fun t => (flow.jump i).Leaves ((flow.wrapped i).jump t)

theorem mem_breaks (h : flow.Sound) (hi : flow.Open i) (hk : (flow.jump i).kind = .loop) (t : Nat) :
    t ∈ flow.breaks i ↔ flow.Test t ∧ (flow.jump i).Leaves (flow.jump t) := by
  rw [breaks, List.mem_filter, (h.wrapped hi).mem_values (by simp), decide_eq_true_eq,
    (onward_wrapped flow i).leaves_iff]
  exact and_congr_left fun _ => test_wrapped hi hk t

/-- The tests that it shows as continues come from those that are left. -/
theorem mem_continues (h : flow.Sound) (hi : flow.Open i) (hk : (flow.jump i).kind = .loop) {middle : Flow}
    (hm : (flow.wrapped i).Showing "break" (flow.breaks i) middle) (t : Nat) :
    t ∈ (middle.table .test).values.filter (fun t => (flow.jump i).Resumes middle.offsets (middle.jump t)) ↔
      flow.Test t ∧ ¬(flow.jump i).Leaves (flow.jump t) ∧ (flow.jump i).Resumes flow.offsets (flow.jump t) := by
  rw [List.mem_filter, hm.kept.sound.mem_values (by simp), decide_eq_true_eq,
    ((onward_wrapped flow i).trans hm.onward).resumes_iff, hm.opens, hm.onward.kind, mem_breaks h hi hk,
    ← test_wrapped hi hk t]
  unfold Test
  tauto

end Flow

namespace FlowM

open Flow

variable {flow : Flow}

theorem yields_wrapLoop_tests (h : flow.Sound) {i : Nat} (hi : flow.Open i)
    (hk : (flow.jump i).kind = .loop) (hs : (flow.jump i).start ∈ flow.offsets)
    (hhandlers : ∀ o j, ¬flow.Filed .handler o j) (hskips : ∀ o j, ¬flow.Filed .skip o j) :
    Yields (wrapLoop i) flow fun _ result => flow.Wraps i result := by
  have ha := h.aimed i hi
  unfold Flow.Aimed at ha
  rw [hk] at ha
  obtain ⟨hnum, hstop, hlt⟩ := ha
  obtain ⟨last, hadj⟩ := h.ascending.exists_previous hstop hs hlt
  have hopen := h.revised (flow.jump i).start ("while (true)\n\x7b\n" ++ ·)
  have hon := onward_wrapped flow i
  have hwskips : ∀ o j, ¬(flow.wrapped i).Filed .skip o j := by
    intro o j
    unfold Filed
    rw [table_wrapped h hi hk (by simp)]
    exact hskips o j
  simp only [wrapLoop, yields_bind, yields_jump, hk, ne_eq, not_true_eq_false, if_false]
  rw [yields_prepend h hs, yields_closeBlock_unhandled hopen hhandlers hstop,
    yields_retire (by simpa using h.kinds i hi.1), yields_neighbour]
  refine ⟨last, Flow.neighbour_neg_one h.ascending hadj, ?_⟩
  refine (yields_markBreaks_tests (h.wrapped hi) hwskips hnum hadj).mono ?_
  intro _ middle hbreaks
  have hmskips : ∀ o j, ¬middle.Filed .skip o j := by
    intro o j
    unfold Filed
    rw [hbreaks.others .skip (by simp)]
    exact hwskips o j
  refine (yields_markContinues_tests hbreaks.kept.sound hmskips hnum
    (hbreaks.onward.offsets ▸ hadj)).mono ?_
  intro _ result hcontinues
  rw [yields_pure]
  have hmon := hon.trans hbreaks.onward
  have hb := mem_breaks h hi hk
  have hc := mem_continues h hi hk hbreaks
  exact
    { onward := hmon.trans hcontinues.onward
      sound := hcontinues.kept.sound
      opens := by
        intro j
        rw [hcontinues.opens, hbreaks.opens, open_wrapped hi, ← breaks, hb, hc, verdict?_eq_none]
        unfold Test
        tauto
      same := by
        intro j hj
        obtain ⟨hj, hcontinued⟩ := (hcontinues.opens j).1 hj
        obtain ⟨hj, hbroken⟩ := (hbreaks.opens j).1 hj
        rw [hcontinues.same j hcontinued, hbreaks.same j hbroken, wrapped, jump_retired (by simpa using hi.1),
          if_neg ((open_wrapped hi j).1 hj).2, jump_closedAt, jump_revised]
      code := by
        rw [hcontinues.code, hbreaks.code, List.map_map]
        have hstarts : ∀ (other : Flow) (is : List Nat), flow.Onward other →
            is.map (fun t => (other.jump t).start) = is.map fun t => (flow.jump t).start :=
          fun other is ho => List.map_congr_left fun t _ => ho.start t
        rw [hstarts _ _ hon, hstarts _ _ hmon]
        change List.map _ ((flow.code.map _).map _) = _
        rw [List.map_map, List.map_map]
        refine List.map_congr_left fun line _ => ?_
        refine (markedAt_markedAt h hb hc _).trans ?_
        simp only [CodeLine.revised_offset]
        change CodeLine.reading (CodeLine.revised _ closeText (CodeLine.revised _ _ line))
          ((CodeLine.revised _ closeText (CodeLine.revised _ _ line)).rendered ++ _) = _
        rw [line.wrapped_eq]
        rfl
      others := by
        intro k htk hlk
        rw [hcontinues.others k htk, hbreaks.others k htk, table_wrapped h hi hk hlk] }

end FlowM

/-! ## All loops -/

namespace Flow

variable {flow : Flow}

/-- Code whose jumps are loops and tests, none of them dealt with. The line that ends a loop starts no jump, and
ends no other loop. -/
structure Looped (flow : Flow) : Prop where
  kinds : ∀ i, i < flow.jumps.length → (flow.jump i).kind = .loop ∨ (flow.jump i).kind = .test
  untouched : ∀ i, i < flow.jumps.length → flow.Open i
  rooted : ∀ i, i < flow.jumps.length → (flow.jump i).kind = .loop → (flow.jump i).start ∈ flow.offsets
  ends : ∀ i j, i < flow.jumps.length → j < flow.jumps.length → (flow.jump i).kind = .loop →
    (flow.jump j).start ≠ (flow.jump i).stop
  apart : ∀ i j, i < flow.jumps.length → j < flow.jumps.length → (flow.jump i).kind = .loop →
    (flow.jump j).kind = .loop → (flow.jump i).stop = (flow.jump j).stop → i = j
  unhandled : ∀ o j, ¬flow.Filed .handler o j

/-- The keyword of a test once some loops have been wrapped: that of the first one to claim it. -/
def word? (flow : Flow) (past : List Nat) (t : Nat) : Option String :=
  past.findSome? fun i => (flow.jump i).verdict? flow.offsets (flow.jump t)

def wordAt? (flow : Flow) (past : List Nat) (o : Offset) : Option String :=
  ((flow.table .test).get? o).bind (flow.word? past)

/-- The text of a line once some loops have been wrapped. -/
def wrappedText (flow : Flow) (past : List Nat) (o : Offset) (text : String) : String :=
  (if ∃ i ∈ past, (flow.jump i).start = o then "while (true)\n\x7b\n" else "") ++
    (if ∃ i ∈ past, (flow.jump i).stop = o then closeText else id) (text ++ exitText (flow.wordAt? past o))

/-- Some of the loops have been wrapped. -/
structure Wrapping (flow : Flow) (past : List Nat) (result : Flow) : Prop where
  loops : ∀ i ∈ past, i < flow.jumps.length ∧ (flow.jump i).kind = .loop
  onward : flow.Onward result
  sound : result.Sound
  opens : ∀ j, result.Open j ↔ flow.Open j ∧ j ∉ past ∧
    ((flow.jump j).kind = .test → flow.word? past j = none)
  code : result.code = flow.code.map fun line =>
    line.reading (flow.wrappedText past line.offset line.rendered)
  unhandled : ∀ o j, ¬result.Filed .handler o j

theorem Onward.verdict?_eq {result : Flow} (h : flow.Onward result) (i t : Nat) :
    (result.jump i).verdict? result.offsets (result.jump t) =
      (flow.jump i).verdict? flow.offsets (flow.jump t) := by
  have hleaves : (result.jump i).Leaves (result.jump t) ↔ (flow.jump i).Leaves (flow.jump t) := by
    unfold Jump.Leaves
    rw [h.start, h.start, h.stop, h.stop]
  have hresumes : (result.jump i).Resumes result.offsets (result.jump t) ↔
      (flow.jump i).Resumes flow.offsets (flow.jump t) := by
    unfold Jump.Resumes
    rw [h.start, h.start, h.stop, h.stop, h.offsets]
  exact if_congr hleaves rfl (if_congr hresumes rfl rfl)

theorem word?_append (past : List Nat) (i t : Nat) : flow.word? (past ++ [i]) t =
    (flow.word? past t).or ((flow.jump i).verdict? flow.offsets (flow.jump t)) := by
  simp [word?, List.findSome?_append]

namespace Wrapping

variable {past : List Nat} {middle : Flow} {i : Nat}

theorem start (hf : flow.Sound) (hu : ∀ o j, ¬flow.Filed .handler o j) : flow.Wrapping [] flow where
  loops := by simp
  onward := Onward.refl flow
  sound := hf
  opens j := by simp [word?]
  code := by
    have hsame : ∀ line : CodeLine, line.reading (flow.wrappedText [] line.offset line.rendered) = line := by
      intro line
      have hword : flow.wordAt? [] line.offset = none := by simp [wordAt?, word?]
      simp [wrappedText, hword, exitText, CodeLine.reading]
    simp [hsame]
  unhandled := hu

/-- The tests that are left are those that no loop has claimed. -/
theorem testAt_eq (h : flow.Wrapping past middle) (hf : flow.Sound) (o : Offset) :
    (middle.table .test).get? o =
      ((flow.table .test).get? o).filter fun t => (flow.word? past t).isNone := by
  refine Option.ext fun t => ?_
  rw [h.sound.lookup, h.sound.filed _ _ _ (by simp), h.opens, h.onward.kind, h.onward.start,
    Option.filter_eq_some_iff, hf.lookup, hf.filed _ _ _ (by simp), Option.isNone_iff_eq_none]
  constructor
  · rintro ⟨⟨ho, _, hw⟩, hk, hs⟩
    exact ⟨⟨ho, hk, hs⟩, hw hk⟩
  · rintro ⟨⟨ho, hk, hs⟩, hw⟩
    refine ⟨⟨ho, ?_, fun _ => hw⟩, hk, hs⟩
    intro hm
    rw [(h.loops t hm).2] at hk
    cases hk

/-- What a loop says about the test at an offset extends what has been said. -/
theorem exitText_said (h : flow.Wrapping past middle) (hf : flow.Sound) (i : Nat) (o : Offset) :
    exitText (flow.wordAt? past o) ++ exitText (middle.said i o) =
      exitText (flow.wordAt? (past ++ [i]) o) := by
  unfold wordAt? said
  rw [h.testAt_eq hf]
  cases (flow.table .test).get? o with
  | none => simp [exitText]
  | some t =>
    simp only [Option.bind_some, word?_append]
    cases hw : flow.word? past t with
    | none => simp [Option.filter_some, hw, h.onward.verdict?_eq, exitText]
    | some word => simp [Option.filter_some, hw, exitText]

/-- Where a loop ends, no jump starts. -/
theorem at_end (hl : flow.Looped) (hf : flow.Sound) (hi : i < flow.jumps.length)
    (hk : (flow.jump i).kind = .loop) : (∀ j, j < flow.jumps.length → (flow.jump j).start ≠ (flow.jump i).stop) ∧
      ∀ past, exitText (flow.wordAt? past (flow.jump i).stop) = "" := by
  refine ⟨fun j hj => hl.ends i j hi hj hk, fun past => ?_⟩
  have hnone : (flow.table .test).get? (flow.jump i).stop = none := by
    by_contra hsome
    obtain ⟨t, ht⟩ := Option.ne_none_iff_exists'.1 hsome
    obtain ⟨ho, _, hs⟩ := (hf.filed _ _ _ (by simp)).1 (hf.lookup.1 ht)
    exact hl.ends i t hi ho.1 hk hs
  simp [wordAt?, hnone, exitText]

/-- Wrapping one more loop makes of a text what wrapping it last does. -/
theorem wrapText_eq (h : flow.Wrapping past middle) (hl : flow.Looped) (hf : flow.Sound)
    (hi : i < flow.jumps.length) (hk : (flow.jump i).kind = .loop) (hn : i ∉ past) (o : Offset)
    (text : String) : middle.wrapText i o (flow.wrappedText past o text) =
      flow.wrappedText (past ++ [i]) o text := by
  have hsaid := h.exitText_said hf i o
  have hsplit : ∀ p : Nat → Prop, (∃ j ∈ past ++ [i], p j) ↔ (∃ j ∈ past, p j) ∨ p i := by
    intro p
    simp [or_and_right, exists_or]
  unfold wrapText wrappedText
  simp only [h.onward.start, h.onward.stop, hsplit, ← hsaid, @eq_comm Offset o]
  by_cases hend : (flow.jump i).stop = o
  · -- nothing else is written on the line that ends the loop
    subst hend
    obtain ⟨hstarts, hwords⟩ := at_end hl hf hi hk
    have hstart : ¬∃ j ∈ past, (flow.jump j).start = (flow.jump i).stop := by
      rintro ⟨j, hj, he⟩
      exact hstarts j (h.loops j hj).1 he
    have hstop : ¬∃ j ∈ past, (flow.jump j).stop = (flow.jump i).stop := by
      rintro ⟨j, hj, he⟩
      exact hn (hl.apart j i (h.loops j hj).1 hi (h.loops j hj).2 hk he ▸ hj)
    have hsaid := hsaid.trans (hwords (past ++ [i]))
    rw [hwords past, String.empty_append] at hsaid
    simp [hstart, hstop, hstarts i hi, hwords past, hsaid]
  by_cases hpast : ∃ j ∈ past, (flow.jump j).stop = o
  · obtain ⟨j, hj, rfl⟩ := hpast
    obtain ⟨hstarts, hwords⟩ := at_end hl hf (h.loops j hj).1 (h.loops j hj).2
    have hstop : ∃ k ∈ past, (flow.jump k).stop = (flow.jump j).stop := ⟨j, hj, rfl⟩
    have hsaid := hsaid.trans (hwords (past ++ [i]))
    rw [hwords past, String.empty_append] at hsaid
    simp [hend, hstop, hstarts i hi, hwords past, hsaid]
  by_cases hstart : (flow.jump i).start = o
  · have hother : ¬∃ j ∈ past, (flow.jump j).start = o := by
      rintro ⟨j, hj, he⟩
      have hloop := h.loops j hj
      exact hn (hf.once j i hloop.1 hi (hloop.2.trans hk.symm) (he.trans hstart.symm) ▸ hj)
    simp [hend, hpast, hstart, hother, String.append_assoc]
  · simp [hend, hpast, hstart, String.append_assoc]

/-- Handling a loop wraps it after those before it. -/
theorem step (h : flow.Wrapping past middle) (hl : flow.Looped) (hf : flow.Sound) (hi : middle.Open i)
    (hk : (flow.jump i).kind = .loop) :
    Yields (FlowM.wrapLoop i) middle fun _ result => flow.Wrapping (past ++ [i]) result := by
  have hopen := (h.opens i).1 hi
  have hkind := (h.onward.kind i).trans hk
  have hroot : (middle.jump i).start ∈ middle.offsets := by
    rw [h.onward.start, h.onward.offsets]
    exact hl.rooted i hopen.1.1 hk
  have hskips : ∀ o j, ¬middle.Filed .skip o j := by
    intro o j hfiled
    obtain ⟨ho, hskip, _⟩ := (h.sound.filed _ _ _ (by simp)).1 hfiled
    rw [h.onward.kind] at hskip
    rcases hl.kinds j ((h.opens j).1 ho).1.1 with hj | hj <;> rw [hskip] at hj <;> cases hj
  refine (FlowM.yields_wrapLoop_tests h.sound hi hkind hroot h.unhandled hskips).mono ?_
  intro _ result hw
  exact
    { loops := by
        intro j hj
        rcases List.mem_append.1 hj with hj | hj
        · exact h.loops j hj
        · exact List.mem_singleton.1 hj ▸ ⟨hopen.1.1, hk⟩
      onward := h.onward.trans hw.onward
      sound := hw.sound
      opens := by
        intro j
        rw [hw.opens, h.opens, h.onward.kind, h.onward.verdict?_eq, word?_append, Option.or_eq_none_iff,
          List.mem_append, List.mem_singleton]
        tauto
      code := by
        rw [hw.code, h.code, List.map_map]
        refine List.map_congr_left fun line _ => ?_
        exact congrArg line.reading
          (h.wrapText_eq hl hf hopen.1.1 hk hopen.2.1 line.offset line.rendered)
      unhandled := by
        intro o j
        unfold Filed
        rw [hw.others .handler (by simp) (by simp)]
        exact h.unhandled o j }

/-- Handling the jumps in some order wraps the loops in this order, if each test comes after a loop that
claims it. -/
theorem run (hl : flow.Looped) (hf : flow.Sound) : ∀ (is past : List Nat) {middle : Flow},
    flow.Wrapping past middle → is.Nodup → (∀ i ∈ is, i < flow.jumps.length ∧ i ∉ past) →
    (∀ t ∈ is, (flow.jump t).kind = .test → ∃ i, (flow.jump i).kind = .loop ∧
      (flow.jump i).verdict? flow.offsets (flow.jump t) ≠ none ∧ (i ∈ past ∨ [i, t].Sublist is)) →
    Yields (FlowM.handleJumps is) middle fun _ result =>
      flow.Wrapping (past ++ is.filter fun i => (flow.jump i).kind = .loop) result
  | [], past, middle, h, _, _, _ => by simpa [FlowM.handleJumps] using h
  | i :: is, past, middle, h, hn, hall, hclaimed => by
    rw [List.nodup_cons] at hn
    obtain ⟨hi, hpast⟩ := hall i (by simp)
    have hrest : ∀ j ∈ is, j < flow.jumps.length ∧ j ∉ past := fun j hj => hall j (List.mem_cons_of_mem i hj)
    simp only [FlowM.handleJumps, yields_bind]
    rcases hl.kinds i hi with hk | hk
    · have hopen : middle.Open i := (h.opens i).2 ⟨hl.untouched i hi, hpast, by simp [hk]⟩
      rw [FlowM.handleJump, yields_bind, FlowM.yields_jump, if_neg (by simp [hopen.2]), h.onward.kind, hk,
        List.filter_cons_of_pos (by simp [hk])]
      simp only [yields_bind, yields_pure]
      refine (h.step hl hf hopen hk).mono ?_
      intro _ next hnext
      rw [List.append_cons]
      refine run hl hf is (past ++ [i]) hnext hn.2 ?_ ?_
      · intro j hj
        refine ⟨(hrest j hj).1, fun hm => ?_⟩
        rcases List.mem_append.1 hm with hm | hm
        · exact (hrest j hj).2 hm
        · exact hn.1 (List.mem_singleton.1 hm ▸ hj)
      · intro t ht htest
        obtain ⟨c, hc, hv, hin⟩ := hclaimed t (List.mem_cons_of_mem i ht) htest
        refine ⟨c, hc, hv, ?_⟩
        rcases hin with hin | hin
        · exact Or.inl (List.mem_append_left _ hin)
        rcases pair_sublist_cons.1 hin with hin | ⟨rfl, _⟩
        · exact Or.inr hin
        · exact Or.inl (by simp)
    · -- the loop that claims the test has been wrapped, so the test is done
      have hdone : (middle.jump i).done = true := by
        obtain ⟨c, hc, hv, hin⟩ := hclaimed i (by simp) hk
        have hin : c ∈ past := by
          rcases hin with hin | hin
          · exact hin
          rcases pair_sublist_cons.1 hin with hin | ⟨_, hm⟩
          · exact absurd (hin.subset (by simp)) hn.1
          · exact absurd hm hn.1
        have hnot : ¬middle.Open i := by
          intro ho
          exact hv (List.findSome?_eq_none_iff.1 (((h.opens i).1 ho).2.2 hk) c hin)
        by_contra hd
        exact hnot ⟨h.onward.length ▸ hi, by simpa using hd⟩
      rw [FlowM.handleJump, yields_bind, FlowM.yields_jump, if_pos hdone, yields_pure,
        List.filter_cons_of_neg (by simp [hk])]
      refine run hl hf is past h hn.2 hrest ?_
      intro t ht htest
      obtain ⟨c, hc, hv, hin⟩ := hclaimed t (List.mem_cons_of_mem i ht) htest
      refine ⟨c, hc, hv, ?_⟩
      rcases hin with hin | hin
      · exact Or.inl hin
      rcases pair_sublist_cons.1 hin with hin | ⟨rfl, _⟩
      · exact Or.inr hin
      · rw [hk] at hc
        cases hc

end Wrapping

end Flow

end Bytelift
