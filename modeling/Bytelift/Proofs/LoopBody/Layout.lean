import Bytelift.Proofs.Guarded.Layout

/-! Loops with conditionals in them. A test in a loop is taken for a jump to the end of the loop if it stops within
four lines of it. So the last conditionals of a loop are shown as jumps that go on with the next turn, and what
stands between them and the end seems to be skipped with them. -/

namespace Bytelift

open Run Text Instruction

/-! ## What a loop leaves of the jumps -/

namespace Flow

variable {flow result : Flow} {lines : List CodeLine} {loop : Jump} {rest : List Jump} {i : Nat} {o : Offset}
  {text : String}

/-- A loop wrapped around its lines leaves the tests that it does not claim. -/
theorem Stage.wraps (h : flow.Stage lines (loop :: rest) []) (hi : flow.OpenAs i loop) (hw : flow.Wraps i result) :
    result.Stage (lines.map fun line => line.reading (flow.wrapText i line.offset line.rendered))
      (rest.filter fun j => decide (j.kind = .test → loop.verdict? flow.offsets j = none)) [] where
  sound := hw.sound
  reads := by rw [hw.code, h.reads]
  distinct := (List.nodup_cons.1 h.distinct).2.filter _
  mem := by
    intro j
    rw [List.mem_filter, decide_eq_true_eq]
    constructor
    · intro hj
      obtain ⟨hm, hleft⟩ := hj
      obtain ⟨k, hk, rfl⟩ := (h.mem j).1 (List.mem_cons_of_mem _ hm)
      have hne : i ≠ k := by
        rintro rfl
        rw [hi.2] at hm
        exact (List.nodup_cons.1 h.distinct).1 hm
      have hopen : result.Open k := (hw.opens k).2 ⟨hk, hne, by rw [hi.2]; exact hleft⟩
      exact ⟨k, hopen, hw.same k hopen⟩
    · intro hj
      obtain ⟨k, hk, rfl⟩ := hj
      obtain ⟨hopen, hne, hleft⟩ := (hw.opens k).1 hk
      rw [hi.2] at hleft
      rw [hw.same k hk]
      refine ⟨(List.mem_cons.1 ((h.mem _).2 ⟨k, hopen, rfl⟩)).resolve_left fun hsame => hne ?_, hleft⟩
      exact h.sound.once i k hi.1.1 hopen.1 (by rw [hi.2, hsame]) (by rw [hi.2, hsame])
  handled := by
    have hnil := List.map_eq_nil_iff.1 h.handled
    rw [hw.others .handler (by simp) (by simp), hnil]
    rfl

/-- What a loop makes of the text of an open test. -/
theorem Stage.wrapText_test (h : flow.Stage lines (loop :: rest) []) (hi : flow.OpenAs i loop) {j : Jump}
    (hj : j ∈ rest) (hk : j.kind = .test) (hstop : j.start ≠ loop.stop) : flow.wrapText i j.start text =
      (if j.start = loop.start then "while (true)\n\x7b\n" else "") ++ text ++
        exitText (loop.verdict? flow.offsets j) := by
  obtain ⟨k, _, hjump, hlookup⟩ := h.lookup (List.mem_cons_of_mem _ hj) (by simp [hk])
  rw [hk] at hlookup
  have hsaid : flow.said i j.start = loop.verdict? flow.offsets j := by simp [said, hlookup, hi.2, hjump]
  rw [wrapText, hi.2, if_neg hstop, hsaid]
  rfl

/-- And of a line that no test starts on. -/
theorem Stage.wrapText_plain (h : flow.Stage lines (loop :: rest) []) (hi : flow.OpenAs i loop) (hk : loop.kind = .loop)
    (hnone : ∀ j ∈ rest, j.kind = .test → j.start ≠ o) : flow.wrapText i o text =
      (if o = loop.stop then closeText else id) ((if o = loop.start then "while (true)\n\x7b\n" else "") ++ text) := by
  have hlookup : (flow.table .test).get? o = none := by
    refine h.lookup_none (by simp) fun j hj hkind => ?_
    rcases List.mem_cons.1 hj with rfl | hj
    · rw [hk] at hkind
      cases hkind
    · exact hnone j hj hkind
  have hsaid : flow.said i o = none := by simp [said, hlookup]
  rw [wrapText, hi.2, hsaid]
  exact String.append_empty

theorem Stage.unhandled {pending : List Jump} (h : flow.Stage lines pending []) (i : Nat) : ¬flow.Filed .handler o
    i := by
  intro hfiled
  have hm : i ∈ (flow.table .handler).values := List.mem_map_of_mem (f := (·.2)) hfiled
  rw [List.map_eq_nil_iff.1 h.handled] at hm
  cases hm

/-- Nothing is filed under a kind that no open jump is of. -/
theorem Stage.unfiled {pending : List Jump} (h : flow.Stage lines pending []) {k : JumpKind} (hk : k ≠ .handler)
    (hnone : ∀ j ∈ pending, j.kind ≠ k) (i : Nat) : ¬flow.Filed k o i := by
  intro hfiled
  obtain ⟨hopen, hkind, _⟩ := (h.sound.filed _ _ _ hk).1 hfiled
  exact hnone _ ((h.mem _).2 ⟨i, hopen, rfl⟩) hkind

/-- A jump that was open and is among those that are left is open still. -/
theorem Stage.openAs_of_follows {start : Flow} {pending : List Jump} {j : Jump} (h : flow.Stage lines pending [])
    (hf : start.Follows flow) (hi : start.OpenAs i j) (hj : j ∈ pending) : flow.OpenAs i j := by
  obtain ⟨k, hk, hjump⟩ := (h.mem j).1 hj
  have hlt : i < flow.jumps.length := by
    rw [hf.length]
    exact hi.1.1
  have hsame : k = i := h.sound.once k i hk.1 hlt (by rw [hjump, hf.kind, hi.2]) (by rw [hjump, hf.start, hi.2])
  exact hsame ▸ ⟨hk, hjump⟩

end Flow

/-! ## The lines of a loop -/

/-- A part of the body of a loop: a statement, a test that leaves the loop, or a conditional. -/
inductive BodyPart
  | line (l : CodeLine)
  | leave (test : CodeLine)
  | when (test : CodeLine) (body : List CodeLine) (last : CodeLine)

namespace BodyPart

def tests : BodyPart → List CodeLine
  | line _ => []
  | leave test => [test]
  | when test _ _ => [test]

def plain : BodyPart → List CodeLine
  | line l => [l]
  | leave _ => []
  | when _ body last => body ++ [last]

def code (p : BodyPart) : List CodeLine := p.tests ++ p.plain

def head : BodyPart → CodeLine
  | line l => l
  | leave test => test
  | when test _ _ => test

/-- Where the test of a part stops, in a loop that ends at an offset. -/
def stop (back : Offset) : BodyPart → Offset
  | line _ => back
  | leave _ => back
  | when _ _ last => last.offset

def jump (back : Offset) (p : BodyPart) (test : CodeLine) : Jump :=
  { kind := .test, start := test.offset, stop := p.stop back }

@[simp] theorem start_jump (back : Offset) (p : BodyPart) (test : CodeLine) : (p.jump back test).start =
    test.offset := rfl

@[simp] theorem kind_jump (back : Offset) (p : BodyPart) (test : CodeLine) : (p.jump back test).kind = .test := rfl

def jumps (back : Offset) (p : BodyPart) : List Jump := p.tests.map (p.jump back)

/-- The keyword that the loop shows the test by. That of a conditional is shown as a jump to the end if this is near. -/
def word (near : Bool) : BodyPart → Option String
  | line _ => none
  | leave _ => some "break"
  | when _ _ _ => if near then some "continue" else none

def marked (near : Bool) (p : BodyPart) : List CodeLine :=
  p.tests.map (fun test => test.reading (textOf test ++ exitText (p.word near))) ++ asRead p.plain

def remaining (back : Offset) (near : Bool) (p : BodyPart) : List Jump :=
  if p.word near = none then p.jumps back else []

def laid (near : Bool) : BodyPart → List CodeLine
  | line l => (line l).marked near
  | leave test => (leave test).marked near
  | when test body last =>
    if near then (when test body last).marked near
    else test.reading (openText (textOf test)) :: (asRead body ++ [last.reading (closeText (textOf last))])

/-- The end of a loop is near if no more than four lines come before it, unless it is among the first five lines
of the code. -/
def near (long : Bool) (rest : List BodyPart) : Bool := long && decide ((rest.flatMap code).length ≤ 4)

/-- Some parts told one after the other, each by whether the end is near. -/
def along {α : Type} (tell : Bool → BodyPart → List α) (long : Bool) : List BodyPart → List α
  | [] => []
  | p :: rest => tell (near long rest) p ++ along tell long rest

variable {flow : Flow} {lines : List CodeLine} {loop : Jump} {pending : List Jump} {i : Nat} {long : Bool}
  {p : BodyPart} {parts rest : List BodyPart} {offsets leading trailing : List Offset}

/-! ## What a loop makes of its parts -/

theorem idxOf_split {before after : List Offset} {o : Offset} (hn : (before ++ o :: after).Nodup) :
    (before ++ o :: after).idxOf o = before.length := by
  have hout : o ∉ before := fun hm => (List.nodup_append.1 hn).2.2 o hm o (by simp) rfl
  rw [List.idxOf_append_of_notMem hout, List.idxOf_cons_self, Nat.add_zero]

/-- A test of a conditional stops near the end of the loop if no more than four lines come after it. -/
theorem resumes_iff {test last : Offset} (ha : Ascending offsets)
    (hoff : offsets = leading ++ last :: (offsetsOf (rest.flatMap code) ++ loop.stop :: trailing))
    (hlong : long = decide (5 ≤ offsets.idxOf loop.stop)) (hstart : loop.start.value ≤ test.value) :
    loop.Resumes offsets { kind := .test, start := test, stop := last } ↔ near long rest = true := by
  have hlt : last.value < loop.stop.value := (hoff ▸ ha).lt_of_split (by simp)
  have hlast : offsets.idxOf last = leading.length := by
    rw [hoff]
    exact idxOf_split (hoff ▸ ha.nodup)
  have hback : offsets.idxOf loop.stop = leading.length + (1 + (rest.flatMap code).length) := by
    rw [← List.cons_append, ← List.append_assoc] at hoff
    rw [hoff, idxOf_split (hoff ▸ ha.nodup)]
    simp [offsetsOf, Nat.add_comm]
  rw [near, hlong, Bool.and_eq_true, decide_eq_true_eq, decide_eq_true_eq]
  constructor
  · intro hresumes
    obtain ⟨_, _, hfar, hnear⟩ := hresumes
    dsimp only at hnear
    omega
  · intro hclose
    refine ⟨hstart, hlt, hclose.1, ?_⟩
    dsimp only
    omega

/-- The keyword of a test. -/
theorem verdict?_eq (ha : Ascending offsets)
    (hoff : offsets = leading ++ (offsetsOf ((p :: rest).flatMap code) ++ loop.stop :: trailing))
    (hlong : long = decide (5 ≤ offsets.idxOf loop.stop)) {test : CodeLine} (ht : test ∈ p.tests)
    (hstart : loop.start.value ≤ test.offset.value) :
    loop.verdict? offsets (p.jump loop.stop test) = p.word (near long rest) := by
  cases p with
  | line l => cases ht
  | leave test' =>
    obtain rfl := List.mem_singleton.1 ht
    have hlt : test.offset.value < loop.stop.value := (hoff ▸ ha).lt_of_split (by simp)
    have hleaves : loop.Leaves ((leave test).jump loop.stop test) := ⟨hstart, hlt, le_rfl⟩
    rw [Jump.verdict?, if_pos hleaves, word]
  | when test' body last =>
    obtain rfl := List.mem_singleton.1 ht
    have hlast : offsets = (leading ++ test.offset :: offsetsOf body) ++ last.offset ::
        (offsetsOf (rest.flatMap code) ++ loop.stop :: trailing) := by
      rw [hoff]
      simp [offsetsOf, code, tests, plain]
    have hlt : last.offset.value < loop.stop.value := (hlast ▸ ha).lt_of_split (by simp)
    have hstays : ¬loop.Leaves ((when test body last).jump loop.stop test) := fun hleaves =>
      absurd hleaves.2.2 (Int.not_le.2 hlt)
    rw [Jump.verdict?, if_neg hstays, word]
    exact if_congr (resumes_iff ha hlast hlong hstart) rfl rfl

/-- The lines of a part after the first line of the loop. -/
theorem within (ha : Ascending offsets)
    (hoff : offsets = leading ++ (offsetsOf ((p :: rest).flatMap code) ++ loop.stop :: trailing))
    (hstart : loop.start ∈ leading) {line : CodeLine} (hl : line ∈ p.code) :
    loop.start.value < line.offset.value ∧ line.offset.value < loop.stop.value := by
  have hmem : line.offset ∈ offsetsOf ((p :: rest).flatMap code) := List.mem_map_of_mem (by simp [hl])
  have hsplit := hoff.trans (List.append_assoc _ _ _).symm
  exact ⟨ha.lt_of_append hoff hstart (List.mem_append_left _ hmem),
    ha.lt_of_append hsplit (List.mem_append_right _ hmem) (by simp)⟩

theorem next_split (hoff : offsets = leading ++ (offsetsOf ((p :: rest).flatMap code) ++ loop.stop :: trailing)) :
    offsets = (leading ++ offsetsOf p.code) ++ (offsetsOf (rest.flatMap code) ++ loop.stop :: trailing) := by
  rw [hoff]
  simp [offsetsOf]

/-- Wrapping the loop marks the parts after its first line. -/
theorem map_wrapText (h : flow.Stage lines (loop :: pending) []) (hi : flow.OpenAs i loop) (hk : loop.kind = .loop)
    (hoff : flow.offsets = leading ++ (offsetsOf (parts.flatMap code) ++ loop.stop :: trailing))
    (hlong : long = decide (5 ≤ flow.offsets.idxOf loop.stop)) (hstart : loop.start ∈ leading)
    (hin : ∀ p ∈ parts, ∀ j ∈ p.jumps loop.stop, j ∈ pending)
    (hout : ∀ j ∈ pending, j.kind = .test → ∀ line ∈ parts.flatMap plain, j.start ≠ line.offset) :
    (asRead (parts.flatMap code)).map (fun line => line.reading (flow.wrapText i line.offset line.rendered)) =
      along marked long parts := by
  have ha := h.sound.ascending
  induction parts generalizing leading with
  | nil => rfl
  | cons p rest ih =>
    have hmore := ih (next_split hoff) (List.mem_append_left _ hstart) (fun q hq => hin q (List.mem_cons_of_mem p hq))
      fun j hj hkind line hl => hout j hj hkind line (by rw [List.flatMap_cons]; exact List.mem_append_right _ hl)
    have hplain : (asRead p.plain).map (fun line => line.reading (flow.wrapText i line.offset line.rendered)) =
        asRead p.plain := by
      rw [asRead, List.map_map]
      refine List.map_congr_left fun line hl => congrArg line.reading ?_
      obtain ⟨hafter, hbefore⟩ := within ha hoff hstart (List.mem_append_right _ hl)
      refine (h.wrapText_plain hi hk fun j hj hkind => ?_).trans ?_
      · exact hout j hj hkind line (List.mem_flatMap.2 ⟨p, by simp, hl⟩)
      · rw [CodeLine.offset_reading, if_neg (Offset.ne_of_lt hbefore), if_neg (Ne.symm (Offset.ne_of_lt hafter))]
        exact String.empty_append
    have htests : (asRead p.tests).map (fun line => line.reading (flow.wrapText i line.offset line.rendered)) =
        p.tests.map fun test => test.reading (textOf test ++ exitText (p.word (near long rest))) := by
      rw [asRead, List.map_map]
      refine List.map_congr_left fun test ht => congrArg test.reading ?_
      obtain ⟨hafter, hbefore⟩ := within ha hoff hstart (List.mem_append_left _ ht)
      have hj := hin p (by simp) _ (List.mem_map_of_mem ht)
      refine (h.wrapText_test hi hj rfl (Offset.ne_of_lt hbefore)).trans ?_
      rw [verdict?_eq ha hoff hlong ht (Int.le_of_lt hafter), start_jump, if_neg (Ne.symm (Offset.ne_of_lt hafter)),
        String.empty_append]
      rfl
    rw [List.flatMap_cons, asRead_append, List.map_append, hmore, along, code, asRead_append, List.map_append, hplain,
      htests]
    rfl

/-- It leaves the tests of the conditionals that are not near the end. -/
theorem filter_jumps (ha : Ascending offsets)
    (hoff : offsets = leading ++ (offsetsOf (parts.flatMap code) ++ loop.stop :: trailing))
    (hlong : long = decide (5 ≤ offsets.idxOf loop.stop)) (hstart : loop.start ∈ leading) :
    (parts.flatMap (jumps loop.stop)).filter (fun j => decide (j.kind = .test → loop.verdict? offsets j = none)) =
      along (remaining loop.stop) long parts := by
  induction parts generalizing leading with
  | nil => rfl
  | cons p rest ih =>
    have hword : ∀ j ∈ p.jumps loop.stop, decide (j.kind = .test → loop.verdict? offsets j = none) =
        decide (p.word (near long rest) = none) := by
      intro j hj
      obtain ⟨test, ht, rfl⟩ := List.mem_map.1 hj
      obtain ⟨hafter, _⟩ := within ha hoff hstart (List.mem_append_left _ ht)
      rw [verdict?_eq ha hoff hlong ht (Int.le_of_lt hafter), decide_eq_decide]
      exact ⟨fun hnone => hnone rfl, fun hnone _ => hnone⟩
    rw [List.flatMap_cons, List.filter_append, ih (next_split hoff) (List.mem_append_left _ hstart), along, remaining,
      List.filter_congr hword]
    by_cases hnone : p.word (near long rest) = none <;> simp [hnone]

theorem exists_test {back : Offset} {j : Jump} (hj : j ∈ parts.flatMap (jumps back)) :
    ∃ p ∈ parts, ∃ test ∈ p.tests, j = p.jump back test := by
  obtain ⟨p, hp, hj⟩ := List.mem_flatMap.1 hj
  obtain ⟨test, ht, rfl⟩ := List.mem_map.1 hj
  exact ⟨p, hp, test, ht, rfl⟩

/-- No test stands on the line of a statement. -/
theorem tests_apart (hn : (offsetsOf (parts.flatMap code)).Nodup) {j : Jump} {back : Offset}
    (hj : j ∈ parts.flatMap (jumps back)) : ∀ line ∈ parts.flatMap plain, j.start ≠ line.offset := by
  have hperm : (offsetsOf (parts.flatMap tests ++ parts.flatMap plain)).Perm (offsetsOf (parts.flatMap code)) :=
    (List.flatMap_append_perm parts tests plain).map _
  have hapart := hperm.nodup_iff.2 hn
  rw [offsetsOf, List.map_append, List.nodup_append] at hapart
  obtain ⟨p, hp, test, ht, rfl⟩ := exists_test hj
  intro line hl
  exact hapart.2.2 _ (List.mem_map_of_mem (List.mem_flatMap.2 ⟨p, hp, ht⟩)) _ (List.mem_map_of_mem hl)

theorem offsets_marked (parts : List BodyPart) :
    (along marked long parts).map (·.offset) = offsetsOf (parts.flatMap code) := by
  induction parts with
  | nil => rfl
  | cons p rest ih =>
    rw [along, List.map_append, ih]
    simp [marked, code, offsetsOf]

theorem mem_jumps_of_remaining {back : Offset} {j : Jump} (hj : j ∈ along (remaining back) long parts) :
    j ∈ parts.flatMap (jumps back) := by
  induction parts with
  | nil => exact hj
  | cons p rest ih =>
    rw [List.flatMap_cons]
    rcases List.mem_append.1 hj with hj | hj
    · refine List.mem_append_left _ ?_
      unfold remaining at hj
      split at hj
      · exact hj
      · cases hj
    · exact List.mem_append_right _ (ih hj)

/-- What is left after a part starts after its lines. -/
theorem lt_of_remaining {before after : List CodeLine} {back : Offset}
    (h : flow.Stage (before ++ (along marked long (p :: rest) ++ after)) pending []) {line : CodeLine}
      (hl : line ∈ p.code)
    {j : Jump} (hj : j ∈ along (remaining back) long rest) : line.offset.value < j.start.value := by
  obtain ⟨q, hq, test, ht, rfl⟩ := exists_test (mem_jumps_of_remaining hj)
  have hsplit : (before ++ (along marked long (p :: rest) ++ after)).map (·.offset) =
      (before.map (·.offset) ++ offsetsOf p.code) ++ (offsetsOf (rest.flatMap code) ++ after.map (·.offset)) := by
    rw [List.map_append, List.map_append, offsets_marked]
    simp [offsetsOf]
  refine h.ascending.lt_of_append hsplit (List.mem_append_right _ (List.mem_map_of_mem hl)) (List.mem_append_left _ ?_)
  exact List.mem_map_of_mem (List.mem_flatMap.2 ⟨q, hq, List.mem_append_left _ ht⟩)

/-- A part that the loop has dealt with is done. -/
theorem yields_handleJumps_claimed {start : Flow} {before after : List CodeLine} {back : Offset} {is : List Nat}
    (h : flow.Stage (before ++ (along marked long (p :: rest) ++ after)) (along (remaining back) long rest) [])
    (hf : start.Follows flow) (his : List.Forall₂ start.OpenAs is (p.jumps back)) {wanted : Unit → Flow → Prop}
    (hw : wanted () flow) : Yields (FlowM.handleJumps is) flow wanted := by
  refine h.yields_handleJumps_done hf his (fun j hj k hk _ => Ne.symm (Offset.ne_of_lt ?_)) hw
  obtain ⟨test, ht, rfl⟩ := List.mem_map.1 hj
  exact lt_of_remaining h (List.mem_append_left _ ht) hk

/-- Handling the tests of the parts after the loop lays out the conditionals that it has left. -/
theorem yields_handleJumps {start : Flow} {after : List CodeLine} {back : Offset} :
    ∀ (parts : List BodyPart) {flow : Flow} {before : List CodeLine} {is : List Nat},
    flow.Stage (before ++ (along marked long parts ++ after)) (along (remaining back) long parts) [] →
    start.Follows flow → flow.Spaced → List.Forall₂ start.OpenAs is (parts.flatMap (jumps back)) →
    Yields (FlowM.handleJumps is) flow fun _ result => result.code = before ++ (along laid long parts ++ after)
  | [], flow, before, is, h, _, _, his => by
    cases his
    rw [FlowM.handleJumps, yields_pure]
    exact h.reads
  | p :: rest, flow, before, is, h, hf, hspaced, his => by
    rw [List.flatMap_cons] at his
    have hown := List.forall₂_take_append _ _ _ his
    have hothers := List.forall₂_drop_append _ _ _ his
    rw [← List.take_append_drop (p.jumps back).length is, FlowM.yields_handleJumps_append]
    have hclaimed : p.remaining back (near long rest) = [] → p.laid (near long rest) = p.marked (near long rest) →
        Yields (FlowM.handleJumps (is.take (p.jumps back).length)) flow fun _ middle =>
          Yields (FlowM.handleJumps (is.drop (p.jumps back).length)) middle fun _ result =>
            result.code = before ++ (along laid long (p :: rest) ++ after) := by
      intro hnone hlaid
      have hleft : along (remaining back) long (p :: rest) = along (remaining back) long rest := by
        rw [along, hnone, List.nil_append]
      rw [hleft] at h
      refine yields_handleJumps_claimed h hf hown ?_
      have hmore : flow.Stage ((before ++ p.marked (near long rest)) ++ (along marked long rest ++ after))
          (along (remaining back) long rest) [] := by
        simpa [along] using h
      refine (yields_handleJumps rest hmore hf hspaced hothers).mono fun _ result hresult => ?_
      rw [hresult, along, hlaid]
      simp
    cases p with
    | line l => exact hclaimed rfl rfl
    | leave test => exact hclaimed rfl rfl
    | when test body last =>
      cases hnear : near long rest with
      | true =>
        rw [hnear] at hclaimed
        exact hclaimed rfl rfl
      | false =>
        -- the conditional is laid out as any other
        obtain ⟨i, none, hi, hnil, htake⟩ := List.forall₂_cons_right_iff.1 hown
        cases hnil
        rw [htake]
        have hstage : flow.Stage (before ++ test.reading (textOf test) :: (asRead body ++ last.reading (textOf last) ::
            (along marked long rest ++ after)))
              ((when test body last).jump back test :: along (remaining back) long rest) [] := by
          simpa [along, hnear, marked, remaining, word, exitText, tests, plain, jumps] using h
        have hopen := hstage.openAs_of_follows hf hi (by simp)
        have hplain : last ∈ (when test body last).code := by simp [code, plain]
        have htest : test.offset.value < last.offset.value := by
          have hascending := hstage.ascending
          rw [List.map_append, List.map_cons] at hascending
          exact hascending.lt_of_split (by simp)
        have hpast : Flow.Past last.offset (along (remaining back) long rest) := fun j hj _ =>
          lt_of_remaining h hplain hj
        simp only [FlowM.handleJumps, FlowM.handleJump, yields_bind, FlowM.yields_jump, hopen.2, kind_jump]
        refine hstage.yields_handleTest hopen rfl rfl htest rfl hpast hspaced fun middle hkept hmiddle => ?_
        rw [yields_pure]
        have hmore : middle.Stage ((before ++ (when test body last).laid false) ++ (along marked long rest ++ after))
            (along (remaining back) long rest) [] := by
          simpa [laid] using hmiddle
        refine (yields_handleJumps rest hmore (hf.trans hkept.toFollows) (hspaced.follows hkept.toFollows) hothers).mono
          ?_
        intro _ result hresult
        rw [hresult, along, hnear]
        simp

/-- The lines of the first part when the loop is wrapped: a conditional is handled before that. -/
def entered : BodyPart → List CodeLine
  | line l => asRead [l]
  | leave test => asRead [test]
  | when test body last => (when test body last).laid false

/-- The jumps of the first part that are handled before the loop. -/
def early (back : Offset) : BodyPart → List Jump
  | line _ => []
  | leave _ => []
  | when test body last => (when test body last).jumps back

def late (back : Offset) : BodyPart → List Jump
  | line _ => []
  | leave test => (leave test).jumps back
  | when _ _ _ => []

theorem start_late {back : Offset} {j : Jump} (hj : j ∈ p.late back) : j.start = p.head.offset := by
  cases p with
  | line l => cases hj
  | leave test =>
    rw [List.mem_singleton.1 hj]
    rfl
  | when test body last => cases hj

theorem offsets_entered (p : BodyPart) : p.entered.map (·.offset) = offsetsOf p.code := by
  cases p <;> simp [entered, laid, code, tests, plain, offsetsOf]

end BodyPart

/-- A loop: its first part, the others, and the jump back. -/
structure LoopBody where
  first : BodyPart
  rest : List BodyPart
  back : CodeLine

namespace LoopBody

open BodyPart

def code (b : LoopBody) : List CodeLine := (b.first :: b.rest).flatMap BodyPart.code ++ [b.back]

def loopJump (b : LoopBody) : Jump := { kind := .loop, start := b.first.head.offset, stop := b.back.offset }

def opened : List CodeLine → List CodeLine
  | [] => []
  | l :: lines => l.reading ("while (true)\n\x7b\n" ++ l.rendered) :: lines

def entering (b : LoopBody) (before after : List CodeLine) : List CodeLine :=
  before ++ (b.first.entered ++ (asRead (b.rest.flatMap BodyPart.code) ++ b.back.reading (textOf b.back) :: after))

def pending (b : LoopBody) : List Jump := b.first.late b.back.offset ++ b.rest.flatMap (jumps b.back.offset)

variable {flow : Flow} {b : LoopBody} {before after lines : List CodeLine} {i : Nat} {long : Bool}
  {offsets leading trailing : List Offset}

/-- Where the parts of a loop stand. -/
structure Stands (b : LoopBody) (offsets leading trailing : List Offset) : Prop where
  ascending : Ascending offsets
  split : offsets = leading ++ (offsetsOf b.first.code ++ (offsetsOf (b.rest.flatMap BodyPart.code) ++
    b.back.offset :: trailing))

theorem exists_head (p : BodyPart) : ∃ more, offsetsOf p.code = p.head.offset :: more := by
  cases p with
  | line l => exact ⟨[], rfl⟩
  | leave test => exact ⟨[], rfl⟩
  | when test body last => exact ⟨offsetsOf (body ++ [last]), rfl⟩

namespace Stands

theorem parted (h : b.Stands offsets leading trailing) : offsets = (leading ++ offsetsOf b.first.code) ++
    (offsetsOf (b.rest.flatMap BodyPart.code) ++ b.back.offset :: trailing) :=
  h.split.trans (List.append_assoc _ _ _).symm

theorem head_mem (p : BodyPart) : p.head.offset ∈ offsetsOf p.code := by
  obtain ⟨more, hmore⟩ := exists_head p
  rw [hmore]
  exact List.mem_cons_self

/-- The first line of the loop, and the others up to the last. -/
theorem inside (h : b.Stands offsets leading trailing) {o : Offset}
    (ho : o ∈ offsetsOf ((b.first :: b.rest).flatMap BodyPart.code)) :
    b.first.head.offset.value ≤ o.value ∧ o.value < b.back.offset.value := by
  obtain ⟨more, hmore⟩ := exists_head b.first
  have hall : offsets = leading ++ (b.first.head.offset :: (more ++ offsetsOf (b.rest.flatMap BodyPart.code))) ++
      b.back.offset :: trailing := by
    rw [h.split, hmore]
    simp
  have hlines : offsetsOf ((b.first :: b.rest).flatMap BodyPart.code) =
      b.first.head.offset :: (more ++ offsetsOf (b.rest.flatMap BodyPart.code)) := by
    rw [List.flatMap_cons, offsetsOf, List.map_append, ← offsetsOf, hmore]
    rfl
  rw [hlines] at ho
  refine ⟨?_, h.ascending.lt_of_append hall (List.mem_append_right _ ho) (by simp)⟩
  rcases List.mem_cons.1 ho with rfl | ho
  · exact le_rfl
  · rw [List.append_assoc, List.cons_append] at hall
    exact Int.le_of_lt ((hall ▸ h.ascending).lt_of_split (List.mem_append_left _ ho))

theorem after_head (h : b.Stands offsets leading trailing) {o : Offset}
    (ho : o ∈ offsetsOf (b.rest.flatMap BodyPart.code)) : b.first.head.offset.value < o.value :=
  h.ascending.lt_of_append h.parted (List.mem_append_right _ (head_mem b.first)) (List.mem_append_left _ ho)

/-- A jump that is open when the loop is wrapped is that of a first test to leave it, or one after the first part. -/
theorem cases_of_mem {j : Jump} (hj : j ∈ b.pending) :
    (∃ test, b.first = leave test ∧ j = (leave test).jump b.back.offset test) ∨ j ∈
      b.rest.flatMap (jumps b.back.offset) := by
  refine (List.mem_append.1 hj).imp_left fun hj => ?_
  cases hfirst : b.first with
  | line l => simp [hfirst, late] at hj
  | leave test =>
    rw [hfirst] at hj
    exact ⟨test, rfl, List.mem_singleton.1 hj⟩
  | when test body last => simp [hfirst, late] at hj

theorem kind_eq {j : Jump} (hj : j ∈ b.pending) : j.kind = .test := by
  rcases cases_of_mem hj with ⟨test, _, rfl⟩ | hj
  · rfl
  · obtain ⟨p, _, test, _, rfl⟩ := exists_test hj
    rfl

theorem start_mem {j : Jump} (hj : j ∈ b.pending) :
    j.start = b.first.head.offset ∨ j.start ∈ offsetsOf (b.rest.flatMap BodyPart.code) := by
  rcases List.mem_append.1 hj with hj | hj
  · exact Or.inl (start_late hj)
  · obtain ⟨p, hp, test, ht, rfl⟩ := exists_test hj
    exact Or.inr (List.mem_map_of_mem (List.mem_flatMap.2 ⟨p, hp, List.mem_append_left _ ht⟩))

theorem start_inside (h : b.Stands offsets leading trailing) {j : Jump} (hj : j ∈ b.pending) :
    b.first.head.offset.value ≤ j.start.value ∧ j.start.value < b.back.offset.value := by
  refine h.inside ?_
  rw [List.flatMap_cons, offsetsOf, List.map_append, List.mem_append]
  refine (start_mem hj).imp (fun he => ?_) id
  rw [he]
  exact head_mem b.first

end Stands

theorem stands (h : flow.Stage (b.entering before after) (b.loopJump :: b.pending) []) :
    b.Stands flow.offsets (before.map (·.offset)) (after.map (·.offset)) where
  ascending := h.sound.ascending
  split := by
    rw [h.offsets_eq]
    simp [entering, offsets_entered, offsetsOf]

/-- A line that is not in the loop, or that is a statement of its first part, is left. -/
theorem map_untouched (h : flow.Stage (b.entering before after) (b.loopJump :: b.pending) [])
    (hi : flow.OpenAs i b.loopJump)
    (hout : ∀ line ∈ lines, line.offset ≠ b.first.head.offset ∧ line.offset ≠ b.back.offset ∧
      line.offset ∉ offsetsOf (b.rest.flatMap BodyPart.code)) :
    lines.map (fun line => line.reading (flow.wrapText i line.offset line.rendered)) = lines := by
  refine (List.map_congr_left fun line hl => ?_).trans (List.map_id' lines)
  obtain ⟨hhead, hback, hrest⟩ := hout line hl
  have htext : flow.wrapText i line.offset line.rendered = line.rendered := by
    refine (h.wrapText_plain hi rfl fun j hj _ he => ?_).trans ?_
    · rcases Stands.start_mem hj with hstart | hstart
      · exact hhead (he.symm.trans hstart)
      · exact hrest (he ▸ hstart)
    · rw [loopJump, if_neg hback, if_neg hhead]
      exact String.empty_append
  rw [htext]
  rfl

theorem map_before (h : flow.Stage (b.entering before after) (b.loopJump :: b.pending) [])
    (hi : flow.OpenAs i b.loopJump) :
    before.map (fun line => line.reading (flow.wrapText i line.offset line.rendered)) = before := by
  have hs := stands h
  refine map_untouched h hi fun line hl => ?_
  have hlt : ∀ o, o ∈ offsetsOf b.first.code ++ (offsetsOf (b.rest.flatMap BodyPart.code) ++ b.back.offset ::
      after.map (·.offset)) → line.offset ≠ o := fun o ho =>
    Offset.ne_of_lt (hs.ascending.lt_of_append hs.split (List.mem_map_of_mem hl) ho)
  refine ⟨hlt _ (List.mem_append_left _ (Stands.head_mem _)), hlt _ (by simp), fun hm => hlt _ ?_ rfl⟩
  exact List.mem_append_right _ (List.mem_append_left _ hm)

theorem map_after (h : flow.Stage (b.entering before after) (b.loopJump :: b.pending) [])
    (hi : flow.OpenAs i b.loopJump) :
    after.map (fun line => line.reading (flow.wrapText i line.offset line.rendered)) = after := by
  have hs := stands h
  refine map_untouched h hi fun line hl => ?_
  have hsplit : flow.offsets = (before.map (·.offset) ++ (offsetsOf b.first.code ++
      (offsetsOf (b.rest.flatMap BodyPart.code) ++ [b.back.offset]))) ++ after.map (·.offset) := by
    rw [hs.split]
    simp
  have hlt : ∀ o, o ∈ before.map (·.offset) ++ (offsetsOf b.first.code ++ (offsetsOf (b.rest.flatMap BodyPart.code) ++
      [b.back.offset])) → line.offset ≠ o := fun o ho =>
    Ne.symm (Offset.ne_of_lt (hs.ascending.lt_of_append hsplit ho (List.mem_map_of_mem hl)))
  refine ⟨hlt _ ?_, hlt _ (by simp), fun hm => hlt _ ?_ rfl⟩
  · exact List.mem_append_right _ (List.mem_append_left _ (Stands.head_mem _))
  · exact List.mem_append_right _ (List.mem_append_right _ (List.mem_append_left _ hm))

/-- A loop that starts with a test to leave it shows this test as a break. -/
theorem verdict?_first (hs : b.Stands offsets leading trailing) {test : CodeLine} (hfirst : b.first = leave test) :
    b.loopJump.verdict? offsets ((leave test).jump b.back.offset test) = some "break" := by
  have hsplit : offsets = leading ++ (offsetsOf ((leave test :: b.rest).flatMap BodyPart.code) ++
      b.loopJump.stop :: trailing) := by
    rw [hs.split, hfirst]
    simp [offsetsOf, loopJump]
  exact verdict?_eq hs.ascending hsplit rfl (by simp [tests]) (by rw [loopJump, hfirst]; exact le_rfl)

/-- The first part has the loop opened on its first line. -/
theorem map_entered (h : flow.Stage (b.entering before after) (b.loopJump :: b.pending) [])
    (hi : flow.OpenAs i b.loopJump) :
    b.first.entered.map (fun line => line.reading (flow.wrapText i line.offset line.rendered)) =
      opened (b.first.laid false) := by
  have hs := stands h
  have hhead := hs.inside (o := b.first.head.offset) (by simpa [offsetsOf] using Or.inl (Stands.head_mem b.first))
  have hrest : ∀ {o}, o ∈ offsetsOf b.first.code → o ∉ offsetsOf (b.rest.flatMap BodyPart.code) := by
    intro o ho hm
    have hlt := hs.ascending.lt_of_append hs.parted (List.mem_append_right _ ho) (List.mem_append_left _ hm)
    exact Int.lt_irrefl _ hlt
  have hplain : b.first.late b.back.offset = [] → ∀ text,
      flow.wrapText i b.first.head.offset text = "while (true)\n\x7b\n" ++ text := by
    intro hlate text
    refine (h.wrapText_plain hi rfl fun j hj _ he => ?_).trans ?_
    · rw [pending, hlate, List.nil_append] at hj
      obtain ⟨p, hp, test, ht, rfl⟩ := exists_test hj
      refine hrest (Stands.head_mem b.first) (he ▸ ?_)
      exact List.mem_map_of_mem (List.mem_flatMap.2 ⟨p, hp, List.mem_append_left _ ht⟩)
    · rw [loopJump, if_neg (Offset.ne_of_lt hhead.2), if_pos rfl]
      rfl
  cases hfirst : b.first with
  | line l =>
    rw [hfirst] at hplain
    exact congrArg (fun text => [l.reading text]) (hplain rfl (textOf l))
  | leave test =>
    rw [hfirst] at hhead
    have hj : (leave test).jump b.back.offset test ∈ b.pending := by simp [pending, hfirst, late, jumps, tests]
    have htext := @Flow.Stage.wrapText_test _ _ _ _ _ (textOf test) h hi _ hj rfl (Offset.ne_of_lt hhead.2)
    have hstart : test.offset = b.loopJump.start := by
      rw [loopJump, hfirst]
      rfl
    rw [verdict?_first hs hfirst, start_jump, if_pos hstart, String.append_assoc] at htext
    exact congrArg (fun text => [test.reading text]) htext
  | when test body last =>
    rw [hfirst] at hplain hrest hhead
    have htail : (asRead body ++ [last.reading (closeText (textOf last))]).map
        (fun line => line.reading (flow.wrapText i line.offset line.rendered)) =
          asRead body ++ [last.reading (closeText (textOf last))] := by
      refine map_untouched h hi fun line hl => ?_
      have hm : line.offset ∈ offsetsOf (body ++ [last]) := by
        have := List.mem_map_of_mem (f := (·.offset)) hl
        simpa [offsetsOf] using this
      have hsplit : flow.offsets = before.map (·.offset) ++ test.offset :: (offsetsOf (body ++ [last]) ++
          (offsetsOf (b.rest.flatMap BodyPart.code) ++ b.back.offset :: after.map (·.offset))) := by
        rw [hs.split, hfirst]
        simp [offsetsOf, BodyPart.code, tests, plain]
      refine ⟨?_, ?_, hrest (by simpa [offsetsOf, BodyPart.code, tests, plain] using Or.inr hm)⟩
      · rw [hfirst]
        exact Ne.symm (Offset.ne_of_lt ((hsplit ▸ hs.ascending).lt_of_split (List.mem_append_left _ hm)))
      · rw [← List.cons_append, ← List.append_assoc] at hsplit
        exact Offset.ne_of_lt (hs.ascending.lt_of_append hsplit (by simp [hm]) (by simp))
    have htext : flow.wrapText i test.offset (openText (textOf test)) = "while (true)\n\x7b\n" ++
      openText (textOf test) :=
      hplain rfl _
    simp only [entered, laid, Bool.false_eq_true, if_false, List.map_cons, htail, opened, CodeLine.offset_reading,
      CodeLine.rendered_reading, CodeLine.reading_reading, htext]

/-- The loop is put around its lines, its exits are shown, and the conditionals near its end as jumps there. -/
theorem yields_wrapLoop (h : flow.Stage (b.entering before after) (b.loopJump :: b.pending) [])
    (hi : flow.OpenAs i b.loopJump)
    (hlong : long = decide (5 ≤ (before ++ (b.first :: b.rest).flatMap BodyPart.code).length)) :
    Yields (FlowM.wrapLoop i) flow fun _ result => flow.Follows result ∧
      result.Stage (before ++ (opened (b.first.laid false) ++ (along marked long b.rest ++
        b.back.reading (closeText (textOf b.back)) :: after))) (along (remaining b.back.offset) long b.rest) [] := by
  have hs := stands h
  have hhead := hs.inside (o := b.first.head.offset) (by simpa [offsetsOf] using Or.inl (Stands.head_mem b.first))
  have hstart : b.loopJump.start ∈ before.map (·.offset) ++ offsetsOf b.first.code :=
    List.mem_append_right _ (Stands.head_mem b.first)
  have hplace : flow.offsets.idxOf b.back.offset = (before ++ (b.first :: b.rest).flatMap BodyPart.code).length := by
    have hsplit := hs.parted.trans (List.append_assoc _ _ _).symm
    rw [hsplit, idxOf_split (hsplit ▸ hs.ascending.nodup)]
    simp [offsetsOf]
  have hnear : long = decide (5 ≤ flow.offsets.idxOf b.loopJump.stop) := by rw [hlong, loopJump, hplace]
  have hskips : ∀ j ∈ b.loopJump :: b.pending, j.kind ≠ .skip := by
    refine List.forall_mem_cons.2 ⟨by simp [loopJump], fun j hj => ?_⟩
    rw [Stands.kind_eq hj]
    simp
  have hroot : (flow.jump i).start ∈ flow.offsets := by
    rw [hi.2, hs.parted]
    exact List.mem_append_left _ hstart
  refine (FlowM.yields_wrapLoop_tests h.sound hi.1 (by rw [hi.2]; rfl) hroot (fun _ => h.unhandled)
    fun _ => h.unfiled (by simp) hskips).mono fun _ result hw => ⟨hw.onward.toFollows, ?_⟩
  have hrest := map_wrapText h hi rfl hs.parted hnear hstart (fun p hp j hj => ?_) fun j hj _ line hl => ?_
  · have hback : flow.wrapText i b.back.offset (textOf b.back) = closeText (textOf b.back) := by
      refine (h.wrapText_plain hi rfl fun j hj _ => Offset.ne_of_lt (hs.start_inside hj).2).trans ?_
      rw [loopJump, if_pos rfl, if_neg (Ne.symm (Offset.ne_of_lt hhead.2)), String.empty_append]
    have hlate : (b.first.late b.back.offset).filter
        (fun j => decide (j.kind = .test → b.loopJump.verdict? flow.offsets j = none)) = [] := by
      cases hfirst : b.first with
      | line l => rfl
      | leave test => simp [late, jumps, tests, verdict?_first hs hfirst]
      | when test body last => rfl
    have hremaining : (b.rest.flatMap (jumps b.back.offset)).filter
        (fun j => decide (j.kind = .test → b.loopJump.verdict? flow.offsets j = none)) =
          along (remaining b.back.offset) long b.rest := filter_jumps hs.ascending hs.parted hnear hstart
    have hstage := h.wraps hi hw
    rw [pending, List.filter_append, hlate, List.nil_append] at hstage
    simp only [entering, List.map_append, List.map_cons, map_before h hi, map_entered h hi, map_after h hi, hrest,
      CodeLine.offset_reading, CodeLine.rendered_reading, CodeLine.reading_reading, hback] at hstage
    rwa [hremaining] at hstage
  · exact List.mem_append_right _ (List.mem_flatMap.2 ⟨p, hp, hj⟩)
  · have hplain : line.offset ∈ offsetsOf (b.rest.flatMap BodyPart.code) := by
      obtain ⟨p, hp, hl⟩ := List.mem_flatMap.1 hl
      exact List.mem_map_of_mem (List.mem_flatMap.2 ⟨p, hp, List.mem_append_right _ hl⟩)
    rcases Stands.cases_of_mem hj with ⟨test, hfirst, rfl⟩ | hj
    · have hlt := hs.after_head hplain
      rw [hfirst] at hlt
      exact Offset.ne_of_lt hlt
    · have hpart : (offsetsOf (b.rest.flatMap BodyPart.code)).Sublist flow.offsets := by
        rw [hs.parted]
        exact (List.sublist_append_left _ _).trans (List.sublist_append_right _ _)
      exact tests_apart (hs.ascending.nodup.sublist hpart) hj line hl

/-- A conditional that the loop starts with is laid out before the loop. -/
theorem yields_early {is : List Nat} (h : flow.Stage (before ++ (asRead b.code ++ after))
      (b.first.early b.back.offset ++ b.loopJump :: b.pending) []) (hspaced : flow.Spaced)
    (his : List.Forall₂ flow.OpenAs is (b.first.early b.back.offset)) :
    Yields (FlowM.handleJumps is) flow fun _ result => flow.Follows result ∧
      result.Stage (b.entering before after) (b.loopJump :: b.pending) [] := by
  have hunchanged : b.first.early b.back.offset = [] → b.first.entered = asRead b.first.code →
      Yields (FlowM.handleJumps is) flow fun _ result => flow.Follows result ∧
        result.Stage (b.entering before after) (b.loopJump :: b.pending) [] := by
    intro hearly hentered
    rw [hearly] at h his
    cases his
    rw [FlowM.handleJumps, yields_pure]
    exact ⟨(Flow.Onward.refl flow).toFollows, by simpa [entering, hentered, code] using h⟩
  cases hfirst : b.first with
  | line l =>
    rw [hfirst] at hunchanged
    exact hunchanged rfl rfl
  | leave test =>
    rw [hfirst] at hunchanged
    exact hunchanged rfl rfl
  | when test body last =>
    rw [hfirst] at his h
    obtain ⟨i, none, hi, hnil, rfl⟩ := List.forall₂_cons_right_iff.1 his
    cases hnil
    have hstage : flow.Stage (before ++ test.reading (textOf test) :: (asRead body ++ last.reading (textOf last) ::
        (asRead (b.rest.flatMap BodyPart.code) ++ b.back.reading (textOf b.back) :: after)))
        ((when test body last).jump b.back.offset test :: b.loopJump :: b.pending) [] := by
      simpa [code, hfirst, BodyPart.code, tests, plain, early, jumps] using h
    have htest : test.offset.value < last.offset.value := by
      have hascending := hstage.ascending
      rw [List.map_append, List.map_cons] at hascending
      exact hascending.lt_of_split (by simp)
    have hpast : Flow.Past last.offset (b.loopJump :: b.pending) := by
      intro j hj hmay
      rcases List.mem_cons.1 hj with rfl | hj
      · rcases hmay with hk | hk <;> cases hk
      · rcases Stands.cases_of_mem hj with ⟨test', hleave, _⟩ | hj
        · rw [hfirst] at hleave
          cases hleave
        · obtain ⟨p, hp, test', ht, rfl⟩ := exists_test hj
          have hascending : Ascending ((before.map (·.offset) ++ test.offset :: offsetsOf body) ++ last.offset ::
              (offsetsOf (b.rest.flatMap BodyPart.code) ++ b.back.offset :: after.map (·.offset))) := by
            simpa [offsetsOf] using hstage.ascending
          refine hascending.lt_of_split (List.mem_append_left _ ?_)
          exact List.mem_map_of_mem (List.mem_flatMap.2 ⟨p, hp, List.mem_append_left _ ht⟩)
    simp only [FlowM.handleJumps, FlowM.handleJump, yields_bind, FlowM.yields_jump, hi.2, kind_jump]
    refine hstage.yields_handleTest hi rfl rfl htest rfl hpast hspaced fun result hkept hresult => ?_
    rw [yields_pure]
    exact ⟨hkept.toFollows, by simpa [entering, hfirst, entered, BodyPart.laid] using hresult⟩

def laid (b : LoopBody) (long : Bool) : List CodeLine :=
  opened (b.first.laid false) ++ (along BodyPart.laid long b.rest ++ [b.back.reading (closeText (textOf b.back))])

/-- The jumps of a loop in the order in which they are handled. -/
def jumps (b : LoopBody) : List Jump := b.first.early b.back.offset ++ b.loopJump :: b.pending

/-- A loop is laid out, if its jumps are handled in their order. -/
theorem yields_handleJumps {order : List Nat} (h : flow.Stage (before ++ (asRead b.code ++ after)) b.jumps [])
    (hspaced : flow.Spaced) (ho : List.Forall₂ flow.OpenAs order b.jumps)
    (hlong : long = decide (5 ≤ (before ++ (b.first :: b.rest).flatMap BodyPart.code).length)) :
    Yields (FlowM.handleJumps order) flow fun _ result => result.code = before ++ (b.laid long ++ after) := by
  have hearly := List.forall₂_take_append _ _ _ ho
  obtain ⟨i, others, hi, hothers, hdrop⟩ := List.forall₂_cons_right_iff.1 (List.forall₂_drop_append _ _ _ ho)
  have hlate := List.forall₂_take_append _ _ _ hothers
  have hrest := List.forall₂_drop_append _ _ _ hothers
  rw [← List.take_append_drop (b.first.early b.back.offset).length order, FlowM.yields_handleJumps_append, hdrop]
  refine (yields_early h hspaced hearly).mono fun _ entered hentered => ?_
  obtain ⟨hfollows, hstage⟩ := hentered
  have hs := stands hstage
  have hopen := hstage.openAs_of_follows hfollows hi (by simp)
  rw [FlowM.handleJumps, yields_bind, FlowM.handleJump, yields_bind, FlowM.yields_jump, if_neg (by simp [hopen.1.2]),
    hopen.2]
  change Yields (FlowM.wrapLoop i >>= fun _ => pure ()) entered _
  rw [yields_bind]
  refine (yields_wrapLoop hstage hopen hlong).mono fun _ wrapped hwrapped => ?_
  obtain ⟨hwrapping, hwrapped⟩ := hwrapped
  have hfollowing := hfollows.trans hwrapping
  rw [yields_pure, ← List.take_append_drop (b.first.late b.back.offset).length others, FlowM.yields_handleJumps_append]
  -- a first test to leave the loop has been shown
  refine (FlowM.yields_handleJumps_quiet hwrapped.sound _ (fun k hk => ?_) fun k hk hkopen => ?_).mono
    fun _ final hfinal => ?_
  · obtain ⟨j, _, hj⟩ := forall₂_mem_left hlate hk
    rw [hfollowing.length]
    exact hj.1.1
  · obtain ⟨j, hj, hkj⟩ := forall₂_mem_left hlate hk
    refine absurd hkopen (hwrapped.not_open hfollowing hkj.2 fun m hm _ => Ne.symm (Offset.ne_of_lt ?_))
    obtain ⟨p, hp, test, ht, rfl⟩ := exists_test (mem_jumps_of_remaining hm)
    rw [start_late hj]
    exact hs.after_head (List.mem_map_of_mem (List.mem_flatMap.2 ⟨p, hp, List.mem_append_left _ ht⟩))
  · rw [hfinal]
    have hlines : wrapped.Stage ((before ++ opened (b.first.laid false)) ++ (along marked long b.rest ++
        b.back.reading (closeText (textOf b.back)) :: after)) (along (remaining b.back.offset) long b.rest) [] := by
      simpa using hwrapped
    refine (BodyPart.yields_handleJumps b.rest hlines hfollowing (hspaced.follows hfollowing) hrest).mono ?_
    intro _ result hresult
    rw [hresult, laid]
    simp

end LoopBody

end Bytelift
