import Bytelift.Proofs.Lifting

/-! Blocks in code with a handler. A block closes on its last line as long as no handler has been laid out. From
then on, every block that starts before the handler closes on the line before it, wherever the block ends. -/

namespace Bytelift

open Run Text Instruction

namespace Flow

/-- No jump may leave the lines up to an offset. -/
def Past (o : Offset) (jumps : List Jump) : Prop := ∀ j ∈ jumps, j.MayLeave → o.value < j.start.value

theorem Past.not_leavesRange {jumps : List Jump} {first last stop : Offset} (h : Past stop jumps)
    (hlt : last.value < stop.value) : ∀ j ∈ jumps, j.MayLeave → ¬j.LeavesRange first last := by
  intro j hj hk hleaves
  have hlater := h j hj hk
  have hwithin := hleaves.2.1
  omega

namespace Stage

variable {flow result : Flow} {lines before middle after : List CodeLine} {rest : List Jump}
  {handlers : List (Offset × Offset)} {i : Nat}

theorem start_le_stop (h : flow.Stage lines rest handlers) {j : Jump} (hj : j ∈ rest) (hk : j.MayLeave) :
    j.start.value ≤ j.stop.value := by
  obtain ⟨i, ho, rfl⟩ := (h.mem j).1 hj
  exact (h.sound.exit_aimed ⟨ho, hk⟩).2.2.1

theorem not_staysIn (h : flow.Stage lines rest handlers) {first last stop : Offset} (hpast : Past stop rest)
    (hlt : last.value < stop.value) : ∀ j ∈ rest, j.MayLeave → ¬j.StaysIn first last := by
  intro j hj hk hstays
  have hlater := hpast j hj hk
  have hle := h.start_le_stop hj hk
  have hwithin := hstays.2
  omega

/-! ## One block -/

/-- The body of a conditional closes where a block does that starts with its test. -/
theorem yields_handleTest {test close : CodeLine} {j : Jump}
    (h : flow.Stage (before ++ test :: (middle ++ close :: after)) (j :: rest) handlers) (hi : flow.OpenAs i j)
    (hk : j.kind = .test) (hstart : j.start = test.offset) (hlt : j.start.value < j.stop.value)
    (hclose : closing handlers test.offset j.stop = close.offset) (hpast : Past j.stop rest) (hspaced : flow.Spaced)
    {wanted : Unit → Flow → Prop} (hw : ∀ result : Flow, flow.Keeps result rest →
      result.Stage (before ++ test.reading (openText test.rendered) ::
        (middle ++ close.reading (closeText close.rendered) :: after)) rest handlers → wanted () result) :
    Yields (FlowM.handleTest i) flow wanted := by
  obtain ⟨ho, rfl⟩ := hi
  have hno : ∀ k ∈ rest, k.MayLeave → k.start ≠ (flow.jump i).stop := by
    intro k hm hmay
    exact Ne.symm (Offset.ne_of_lt (hpast k hm hmay))
  have hne : (flow.jump i).start ≠ (flow.jump i).stop := Offset.ne_of_lt hlt
  have hskips : ∀ k ∈ flow.jump i :: rest, k.kind = .skip → k.start ≠ (flow.jump i).stop := by
    refine List.forall_mem_cons.2 ⟨fun he => ?_, fun k hm he => hno k hm (Or.inr he)⟩
    rw [hk] at he
    cases he
  have hwhole : flow.Whole i :=
    { test := ⟨ho, hk⟩
      forward := hne
      unchained := h.lookup_none (by simp)
        (List.forall_mem_cons.2 ⟨fun _ => hne, fun k hm he => hno k hm (Or.inl he)⟩)
      only := by
        intro past hsome
        rw [h.lookup_none (by simp) hskips] at hsome
        cases hsome
      unskipped := hspaced.not_skipAfterTest }
  have hwritten := h.revised (Flow.joinText .and "if")
  have hjoined := hwritten.retired ho rfl
  have hkept := (keeps_revised flow test.offset (Flow.joinText .and "if") rest).trans
    (hwritten.keeps_retired ho rfl) (List.Subset.refl rest)
  rw [← hstart] at hjoined hkept
  refine FlowM.yields_handleTest_whole h.sound hwhole ?_
  simp only [FlowM.layOutBody, yields_bind]
  have hon : flow.Onward (flow.joined .and "if" i) := (onward_revised _ _ _).trans (onward_retired _ _)
  rw [hon.start, hon.stop]
  refine hjoined.yields_append hstart fun opened hopening hopened => ?_
  rw [FlowM.yields_elseSkip?, hopened.lookup_none (by simp) fun k hm he => hno k hm (Or.inr he)]
  simp only [Option.filter_none, yields_bind]
  have hlines : before ++ (test.reading (openText test.rendered)) :: (middle ++ close :: after) =
      (before ++ (test.reading (openText test.rendered)) :: middle) ++ close :: after := by simp
  rw [CodeLine.reading_reading, CodeLine.rendered_reading] at hopened
  have hbody := hopened
  change opened.Stage (before ++ test.reading (openText test.rendered) :: (middle ++ close :: after)) rest
    handlers at hbody
  rw [hlines] at hbody
  have hnum : test.offset.isNumber := h.ascending.numbers _ (by simp)
  refine hbody.yields_closeBlock (hstart ▸ hnum) (by rw [hstart]; exact hclose) fun result hclosing hclosed => ?_
  rw [yields_pure]
  refine hw result ((hkept.trans hopening (List.Subset.refl _)).trans hclosing (List.Subset.refl _)) ?_
  simpa using hclosed

/-- A loop is wrapped first, and then the jumps out of it are looked for. -/
theorem yields_wrapLoop {head close : CodeLine} {j : Jump}
    (h : flow.Stage (before ++ head :: (middle ++ close :: after)) (j :: rest) handlers) (hi : flow.OpenAs i j)
    (hk : j.kind = .loop) (hstart : j.start = head.offset) (hstop : j.stop ∈ flow.offsets)
    (hlt : j.start.value < j.stop.value) (hclose : closing handlers head.offset j.stop = close.offset)
    {wanted : Unit → Flow → Prop} (hw : ∀ near (result : Flow), Adjacent result.offsets near j.stop →
      flow.Keeps result rest → result.Stage (before ++ head.reading ("while (true)\n\x7b\n" ++ head.rendered) ::
        (middle ++ close.reading (closeText close.rendered) :: after)) rest handlers →
      Yields (FlowM.markBreaks head.offset near) result fun _ marked =>
        Yields (FlowM.markContinues head.offset near) marked wanted) :
    Yields (FlowM.wrapLoop i) flow fun _ => wanted () := by
  obtain ⟨ho, rfl⟩ := hi
  have hhead : head.offset ∈ flow.offsets := h.offset_mem (by simp)
  have hnum : head.offset.isNumber := h.sound.ascending.numbers _ hhead
  obtain ⟨near, hnear⟩ := h.sound.ascending.exists_previous hstop (hstart ▸ hhead) hlt
  simp only [FlowM.wrapLoop, yields_bind, FlowM.yields_jump, hk, ne_eq, not_true_eq_false, if_false, hstart]
  refine h.yields_prepend rfl fun opened hopening hopened => ?_
  have hlines : before ++ head.reading ("while (true)\n\x7b\n" ++ head.rendered) :: (middle ++ close :: after) =
      (before ++ head.reading ("while (true)\n\x7b\n" ++ head.rendered) :: middle) ++ close :: after := by simp
  rw [hlines] at hopened
  refine hopened.yields_closeBlock hnum hclose fun closed hclosing hclosed => ?_
  have hsame := hopening.trans hclosing (List.Subset.refl _)
  obtain ⟨hopen, hjump⟩ := hsame.same i ho (by simp)
  refine hclosed.yields_retire hopen hjump fun wrapped hretiring hwrapped => ?_
  have hkept := hsame.trans hretiring (List.subset_cons_self _ _)
  rw [← hkept.offsets] at hnear
  rw [FlowM.yields_neighbour]
  refine ⟨near, Flow.neighbour_neg_one hwrapped.sound.ascending hnear, ?_⟩
  refine (hw near wrapped hnear hkept (by simpa using hwrapped)).mono ?_
  intro _ marked hmarked
  simpa only [yields_pure] using hmarked

/-- The jump over a handler is also filed as its extent. -/
theorem withHandler (h : flow.Stage lines rest []) (hi : flow.Exit i) (hk : (flow.jump i).kind = .skip) :
    (flow.withHandler i).Stage lines rest [((flow.jump i).start, (flow.jump i).stop)] where
  sound := h.sound.withHandler hi hk
  reads := h.reads
  distinct := h.distinct
  mem := h.mem
  handled := by
    have hnil : (flow.table .handler).entries = [] := by
      have hvalues := List.map_eq_nil_iff.1 h.handled
      exact List.map_eq_nil_iff.1 hvalues
    rw [table_withHandler, if_pos rfl, Table.put, Table.values, hnil]
    rfl

theorem keeps_withHandler (flow : Flow) (i : Nat) (jumps : List Jump) : flow.Keeps (flow.withHandler i) jumps where
  offsets := rfl
  length := rfl
  kind _ := rfl
  start _ := rfl
  tests := by rw [table_withHandler, if_neg (by simp)]
  same _ ho _ := ⟨ho, rfl⟩

/-- A guarded range and its handler are written around their lines, and the handler is filed. -/
theorem yields_wrapGuarded {first skip last : CodeLine} {inside : List CodeLine} {j out : Jump}
    (h : flow.Stage (before ++ first :: (middle ++ skip :: (inside ++ last :: after))) (j :: out :: rest) [])
    (hi : flow.OpenAs i j) (hk : j.kind = .guarded) (hstart : j.start = first.offset) (hstop : j.stop = skip.offset)
    (hskip : out = skipJump skip last.offset) {wanted : Bool → Flow → Prop}
    (hw : ∀ result : Flow, flow.Keeps result rest →
      result.Stage (before ++ first.reading ("try\n\x7b\n" ++ first.rendered) ::
        (middle ++ skip.reading (skip.rendered ++ "\n\x7d\ncatch\n\x7b") ::
          (inside ++ last.reading (last.rendered ++ FlowM.blockEnd) :: after))) rest [(skip.offset, last.offset)] →
      wanted true result) : Yields (FlowM.wrapGuarded i) flow wanted := by
  obtain ⟨ho, rfl⟩ := hi
  subst hskip
  simp only [FlowM.wrapGuarded, yields_bind, FlowM.yields_jump, hk, ne_eq, not_true_eq_false, if_false, hstop]
  refine h.yields_prepend hstart fun opened hopening hopened => ?_
  obtain ⟨past, hpo, hpj, hlookup⟩ := hopened.lookup (j := skipJump skip last.offset) (by simp) (by simp [skipJump])
  change (opened.table .skip).get? skip.offset = some past at hlookup
  rw [FlowM.yields_skipAt?, hlookup]
  simp only [yields_bind, FlowM.yields_jump, hpj]
  have hlines : before ++ first.reading ("try\n\x7b\n" ++ first.rendered) ::
    (middle ++ skip :: (inside ++ last :: after)) =
      (before ++ first.reading ("try\n\x7b\n" ++ first.rendered) :: middle) ++ skip ::
        (inside ++ last :: after) := by simp
  refine (hlines ▸ hopened).yields_append rfl fun caught hcatching hcaught => ?_
  have hmore : (before ++ first.reading ("try\n\x7b\n" ++ first.rendered) :: middle) ++
        skip.reading (skip.rendered ++ "\n\x7d\ncatch\n\x7b") :: (inside ++ last :: after) =
      (before ++ first.reading ("try\n\x7b\n" ++ first.rendered) :: (middle ++
        skip.reading (skip.rendered ++ "\n\x7d\ncatch\n\x7b") :: inside)) ++ last :: after := by simp
  refine (hmore ▸ hcaught).yields_append rfl fun ended hending hended => ?_
  have hwritten := hcatching.trans hending (List.Subset.refl _)
  obtain ⟨hpo, hpsame⟩ := hwritten.same past hpo (by simp [hpj])
  rw [hpj] at hpsame
  rw [FlowM.yields_fileHandler]
  have hfiled := hended.withHandler (i := past) ⟨hpo, Or.inr (by simp [hpsame, skipJump])⟩ (by simp [hpsame, skipJump])
  rw [hpsame] at hfiled
  refine (hfiled.perm (List.Perm.swap _ _ _)).yields_retire hpo hpsame fun skipped hskipping hskipped => ?_
  have hkept := ((hopening.trans hwritten (List.Subset.refl _)).trans (keeps_withHandler ended past _)
    (List.Subset.refl _)).trans hskipping fun k hm => by simpa using Or.imp_right Or.inr (List.mem_cons.1 hm)
  obtain ⟨hopen, hsame⟩ := hkept.same i ho (by simp)
  refine hskipped.yields_retire hopen hsame fun result hretiring hresult => ?_
  rw [yields_pure]
  exact hw result (hkept.trans hretiring (List.subset_cons_self _ _)) (by simpa [skipJump] using hresult)

end Stage

end Flow

/-! ## The blocks of guarded code -/

/-- A block among guarded lines: a conditional, or a loop that may be left by a test. Its last line is apart. -/
inductive Block
  | when (test : CodeLine) (body : List CodeLine) (last : CodeLine)
  | turns (head : CodeLine) (entry : List CodeLine) (exit : Option CodeLine) (body : List CodeLine) (back : CodeLine)

namespace Block

def first : Block → CodeLine
  | when test _ _ => test
  | turns head _ _ _ _ => head

def last : Block → CodeLine
  | when _ _ last => last
  | turns _ _ _ _ back => back

def inner : Block → List CodeLine
  | when _ body _ => body
  | turns _ entry exit body _ => entry ++ (exit.toList ++ body)

def code (b : Block) : List CodeLine := b.first :: (b.inner ++ [b.last])

def kind : Block → JumpKind
  | when _ _ _ => .test
  | turns _ _ _ _ _ => .loop

def jump (b : Block) : Jump := { kind := b.kind, start := b.first.offset, stop := b.last.offset }

def exits : Block → List Jump
  | when _ _ _ => []
  | turns _ _ exit _ back => exit.toList.map fun line => { kind := .test, start := line.offset, stop := back.offset }

def opening : Block → CodeLine
  | when test _ _ => test.reading (openText (textOf test))
  | turns head _ _ _ _ => head.reading ("while (true)\n\x7b\n" ++ textOf head)

def within : Block → List CodeLine
  | when _ body _ => asRead body
  | turns _ entry exit body _ =>
    asRead entry ++ (exit.toList.map (fun line => line.reading (textOf line ++ " break")) ++ asRead body)

theorem exit_mem {b : Block} {j : Jump} (hj : j ∈ b.exits) :
    j.kind = .test ∧ j.stop = b.last.offset ∧ ∃ line ∈ b.inner, j.start = line.offset := by
  cases b with
  | when test body last => cases hj
  | turns head entry exit body back =>
    obtain ⟨line, hl, rfl⟩ := List.mem_map.1 hj
    exact ⟨rfl, rfl, line, by simp [inner, hl], rfl⟩

def Ends (b : Block) : Prop := ∀ line ∈ b.first :: b.inner, line.offset.value < b.last.offset.value

variable {flow : Flow} {before middle after : List CodeLine} {rest : List Jump} {handlers : List (Offset × Offset)}
  {close : CodeLine} {i : Nat}

/-- A block is opened on its first line, and closes where a block does that starts there. -/
theorem yields_handleJump {b : Block} (hb : b.Ends)
    (h : flow.Stage (before ++ (asRead (b.first :: b.inner) ++ (middle ++ close :: after)))
      (b.jump :: (b.exits ++ rest)) handlers) (hi : flow.OpenAs i b.jump) (hlast : b.last.offset ∈ flow.offsets)
    (hclose : Flow.closing handlers b.first.offset b.last.offset = close.offset) (hpast : Flow.Past b.last.offset rest)
    (hspaced : flow.Spaced) {wanted : Unit → Flow → Prop} (hw : ∀ result : Flow, flow.Keeps result rest →
      result.Stage (before ++ (b.opening :: b.within ++ (middle ++ close.reading (closeText close.rendered) :: after)))
        rest handlers → wanted () result) : Yields (FlowM.handleJump i) flow wanted := by
  have hlt := hb b.first (by simp)
  have hopen : b.jump.done = false := rfl
  simp only [FlowM.handleJump, yields_bind, FlowM.yields_jump, hi.2, hopen, Bool.false_eq_true, if_false]
  cases b with
  | when test body last =>
    have hstage : flow.Stage (before ++ test.reading (textOf test) :: ((asRead body ++ middle) ++ close :: after))
        ((when test body last).jump :: rest) handlers := by
      simpa [first, inner, exits] using h
    refine hstage.yields_handleTest hi rfl rfl hlt hclose hpast hspaced fun result hkept hresult => ?_
    exact hw result hkept (by simpa [opening, within] using hresult)
  | turns head entry exit body back =>
    change Yields (FlowM.wrapLoop i >>= fun _ => pure ()) flow wanted
    simp only [yields_bind, yields_pure]
    have hstage : flow.Stage (before ++ head.reading (textOf head) ::
      ((asRead (entry ++ (exit.toList ++ body)) ++ middle) ++
        close :: after)) ((turns head entry exit body back).jump :: ((turns head entry exit body back).exits ++ rest))
        handlers := by
      simpa [first, inner] using h
    refine hstage.yields_wrapLoop hi rfl rfl hlast hlt hclose fun near wrapped hnear hkept hwrapped => ?_
    have hwithin : near.value < back.offset.value := hnear.lt hwrapped.sound.ascending
    have hnum : near.isNumber := hwrapped.sound.ascending.numbers _ hnear.left
    have hhead : head.offset.isNumber := h.ascending.numbers _ (by simp [first])
    cases exit with
    | none =>
      rw [CodeLine.offset_reading, hwrapped.yields_markBreaks_none hhead hnum (hpast.not_leavesRange hwithin),
        hwrapped.yields_markContinues_none hhead hnum (hwrapped.not_staysIn hpast hwithin)]
      exact hw wrapped hkept (by simpa [opening, within, exits] using hwrapped)
    | some line =>
      have hexit : wrapped.Stage ((before ++ head.reading ("while (true)\n\x7b\n" ++ textOf head) :: asRead entry) ++
          line.reading (textOf line) :: (asRead body ++ (middle ++ close.reading (closeText close.rendered) :: after)))
          ({ kind := .test, start := line.offset, stop := back.offset } :: rest) handlers := by
        simpa [exits] using hwrapped
      have hbefore : line.offset.value < back.offset.value := hb line (by simp [inner])
      have hmem : (line.reading (textOf line)).offset ∈ wrapped.offsets := hexit.offset_mem (by simp)
      have hnearer : line.offset.value ≤ near.value := by
        rcases hnear.le_or_le hwrapped.sound.ascending hmem with hle | hle
        · exact hle
        · exact absurd hbefore (Int.not_lt.2 hle)
      have hafter : head.offset.value < line.offset.value := by
        have hascending := hexit.ascending
        simp only [List.map_append, List.map_cons, List.append_assoc, List.cons_append] at hascending
        exact hascending.lt_of_split (by simp)
      refine (hexit.yields_markBreaks_one hhead hnum (Or.inl rfl) rfl ⟨Int.le_of_lt hafter, hnearer, hwithin⟩
        (hpast.not_leavesRange hwithin)).mono ?_
      rintro _ marked ⟨_, hmarking, hmarked⟩
      rw [CodeLine.offset_reading, hmarked.yields_markContinues_none hhead hnum (hmarked.not_staysIn hpast hwithin)]
      refine hw marked (hkept.trans hmarking (by simp [exits])) ?_
      simpa [opening, within, Flow.marked] using hmarked

/-- Once a block is laid out, its exits are done. -/
theorem exits_done {b : Block} (hb : b.Ends) {lines : List CodeLine} {result : Flow}
    (h : result.Stage lines rest handlers) (hf : flow.Follows result) (hpast : Flow.Past b.last.offset rest)
      {is : List Nat}
    (hi : List.Forall₂ flow.OpenAs is b.exits) {wanted : Unit → Flow → Prop} (hw : wanted () result) :
    Yields (FlowM.handleJumps is) result wanted := by
  refine h.yields_handleJumps_done hf hi (fun j hj k hk hsame he => ?_) hw
  obtain ⟨hkind, _, line, hl, hstart⟩ := exit_mem hj
  have hlater := hpast k hk (Or.inl (hsame.trans hkind))
  rw [he, hstart] at hlater
  exact absurd (hb line (List.mem_cons_of_mem _ hl)) (Int.not_lt.2 (Int.le_of_lt hlater))

theorem ends_of_ascending {b : Block} {offsets more : List Offset}
    (h : Ascending (offsets ++ (offsetsOf b.code ++ more))) : b.Ends := by
  intro line hl
  have hsplit : offsets ++ (offsetsOf b.code ++ more) =
      (offsets ++ offsetsOf (b.first :: b.inner)) ++ b.last.offset :: more := by simp [code, offsetsOf]
  exact h.lt_of_append hsplit (List.mem_append_right _ (List.mem_map_of_mem hl)) (by simp)

end Block

/-- A part of guarded code. -/
inductive Part
  | line (l : CodeLine)
  | block (b : Block)

namespace Part

def first : Part → CodeLine
  | line l => l
  | block b => b.first

def code : Part → List CodeLine
  | line l => [l]
  | block b => b.code

def isBlock : Part → Bool
  | line _ => false
  | block _ => true

def active : Part → List Jump
  | line _ => []
  | block b => [b.jump]

def passive : Part → List Jump
  | line _ => []
  | block b => b.exits

def jumps (p : Part) : List Jump := p.active ++ p.passive

/-- The lines of a part with its block opened, but not closed. -/
def opened : Part → List CodeLine
  | line l => asRead [l]
  | block b => b.opening :: (b.within ++ asRead [b.last])

/-- The lines of a part with its block opened and closed: the first one, and the others. -/
def heading : Part → CodeLine
  | line l => l.reading (textOf l)
  | block b => b.opening

def following : Part → List CodeLine
  | line _ => []
  | block b => b.within ++ [b.last.reading (closeText (textOf b.last))]

theorem start_mem {p : Part} {j : Jump} (hj : j ∈ p.jumps) : ∃ line ∈ p.code, j.start = line.offset := by
  cases p with
  | line l => cases hj
  | block b =>
    rcases List.mem_cons.1 hj with rfl | hj
    · exact ⟨b.first, by simp [code, Block.code], rfl⟩
    · obtain ⟨_, _, line, hl, hstart⟩ := Block.exit_mem hj
      exact ⟨line, by simp [code, Block.code, hl], hstart⟩

variable {flow : Flow} {before after : List CodeLine} {rest : List Jump} {handlers : List (Offset × Offset)}

/-- The jumps of parts start after all that stands before them. -/
theorem past_of_ascending {parts : List Part} {offsets more : List Offset} {o : Offset}
    (h : Ascending (offsets ++ (offsetsOf (parts.flatMap code) ++ more))) (ho : o ∈ offsets) :
    Flow.Past o (parts.flatMap jumps) := by
  intro j hj _
  obtain ⟨p, hp, hj⟩ := List.mem_flatMap.1 hj
  obtain ⟨line, hl, hstart⟩ := start_mem hj
  rw [hstart]
  exact h.lt_of_append rfl ho (List.mem_append_left _ (List.mem_map_of_mem (List.mem_flatMap.2 ⟨p, hp, hl⟩)))

/-- Blocks that all close on one line are opened one after the other, and closed there. -/
theorem yields_handleJumps {close : CodeLine} : ∀ (parts : List Part) {flow : Flow} {before : List CodeLine}
    {text : String} {is : List Nat}, flow.Stage (before ++ (asRead (parts.flatMap code) ++ close.reading text :: after))
      (parts.flatMap jumps) handlers → flow.Spaced → List.Forall₂ flow.OpenAs is (parts.flatMap jumps) →
    (∀ b, block b ∈ parts → Flow.closing handlers b.first.offset b.last.offset = close.offset) →
    Yields (FlowM.handleJumps is) flow fun _ result => flow.Follows result ∧
      result.Stage (before ++ (parts.flatMap opened ++ close.reading (closeText^[parts.countP isBlock] text) :: after))
      [] handlers
  | [], flow, before, text, is, h, _, hi, _ => by
    cases hi
    exact yields_pure.2 ⟨(Flow.Onward.refl flow).toFollows, h⟩
  | line l :: parts, flow, before, text, is, h, hs, hi, hc => by
    have hstage : flow.Stage ((before ++ asRead [l]) ++ (asRead (parts.flatMap code) ++ close.reading text :: after))
        (parts.flatMap jumps) handlers := by
      simpa [code, jumps, active, passive] using h
    refine (yields_handleJumps parts hstage hs hi fun b hb => hc b (List.mem_cons_of_mem _ hb)).mono ?_
    rintro _ result ⟨hf, hresult⟩
    exact ⟨hf, by simpa [opened, isBlock] using hresult⟩
  | block b :: parts, flow, before, text, is, h, hs, hi, hc => by
    have hoffsets := h.ascending
    rw [List.map_append, List.map_append, map_offset_asRead, List.flatMap_cons, List.map_append,
      List.append_assoc] at hoffsets
    have hends : b.Ends := Block.ends_of_ascending hoffsets
    have hpast : Flow.Past b.last.offset (parts.flatMap jumps) := by
      rw [← List.append_assoc] at hoffsets
      exact past_of_ascending hoffsets (by simp [code, Block.code])
    have hstage : flow.Stage (before ++ (asRead (b.first :: b.inner) ++
      ((asRead [b.last] ++ asRead (parts.flatMap code)) ++
        close.reading text :: after))) (b.jump :: (b.exits ++ parts.flatMap jumps)) handlers := by
      simpa [code, Block.code, jumps, active, passive] using h
    have hlast : (b.last.reading (textOf b.last)).offset ∈ flow.offsets := hstage.offset_mem (by simp)
    obtain ⟨i, more, hfirst, htail, rfl⟩ := List.forall₂_cons_right_iff.1 hi
    have hexits := List.forall₂_take_append _ _ _ htail
    have hothers := List.forall₂_drop_append _ _ _ htail
    rw [FlowM.handleJumps, yields_bind]
    refine Block.yields_handleJump hends hstage hfirst hlast (hc b (by simp)) hpast hs fun middle hkept hmiddle => ?_
    rw [← List.take_append_drop b.exits.length more, FlowM.yields_handleJumps_append]
    refine Block.exits_done hends hmiddle hkept.toFollows hpast hexits ?_
    have hnext : middle.Stage ((before ++ (b.opening :: (b.within ++ asRead [b.last]))) ++
      (asRead (parts.flatMap code) ++ close.reading (closeText text) :: after)) (parts.flatMap jumps) handlers := by
      simpa using hmiddle
    refine (yields_handleJumps parts hnext (hs.follows hkept.toFollows) (hkept.openAs hothers fun _ hj => hj)
      fun c hb => hc c (List.mem_cons_of_mem _ hb)).mono ?_
    rintro _ result ⟨hf, hresult⟩
    have hcount : (block b :: parts).countP isBlock = parts.countP isBlock + 1 := List.countP_cons_of_pos rfl
    refine ⟨hkept.toFollows.trans hf, ?_⟩
    rw [hcount, Function.iterate_succ_apply]
    simpa [opened] using hresult

/-- As long as no handler is filed, the block of a part closes on its last line. -/
theorem yields_handleActive {p : Part} {is : List Nat}
    (h : flow.Stage (before ++ (asRead p.code ++ after)) (p.active ++ (p.passive ++ rest)) []) (hs : flow.Spaced)
    (hpast : ∀ b, p = block b → Flow.Past b.last.offset rest) (hi : List.Forall₂ flow.OpenAs is p.active) :
    Yields (FlowM.handleJumps is) flow fun _ result => flow.Keeps result rest ∧
      result.Stage (before ++ (p.heading :: (p.following ++ after))) rest [] := by
  cases p with
  | line l =>
    cases hi
    refine yields_pure.2 ⟨⟨(Flow.Onward.refl flow).toFollows, fun _ ho _ => ⟨ho, rfl⟩⟩, ?_⟩
    simpa [code, active, passive, heading, following] using h
  | block b =>
    obtain ⟨i, more, hfirst, htail, rfl⟩ := List.forall₂_cons_right_iff.1 hi
    cases htail
    have hends : b.Ends := by
      have hoffsets := h.ascending
      rw [List.map_append, List.map_append, map_offset_asRead] at hoffsets
      exact Block.ends_of_ascending hoffsets
    have hstage : flow.Stage (before ++ (asRead (b.first :: b.inner) ++
      ([] ++ b.last.reading (textOf b.last) :: after))) (b.jump :: (b.exits ++ rest)) [] := by
      simpa [code, Block.code, active, passive] using h
    have hlast : (b.last.reading (textOf b.last)).offset ∈ flow.offsets := hstage.offset_mem (by simp)
    simp only [FlowM.handleJumps, yields_bind]
    refine Block.yields_handleJump hends hstage hfirst hlast
      rfl (hpast b rfl) hs fun result hkept hresult => yields_pure.2 ⟨hkept, ?_⟩
    simpa [heading, following] using hresult

theorem passive_done {p : Part} {lines : List CodeLine} {result : Flow} {is : List Nat}
    (h : result.Stage lines rest handlers) (hf : flow.Follows result)
    (hpast : ∀ b, p = block b → b.Ends ∧ Flow.Past b.last.offset rest) (hi : List.Forall₂ flow.OpenAs is p.passive)
    {wanted : Unit → Flow → Prop} (hw : wanted () result) : Yields (FlowM.handleJumps is) result wanted := by
  cases p with
  | line l =>
    cases hi
    exact yields_pure.2 hw
  | block b => exact Block.exits_done (hpast b rfl).1 h hf (hpast b rfl).2 hi hw

end Part

/-- Guarded code and its handler: the parts, the jump over the handler, and the handler's lines, the last apart. -/
structure TryCatch where
  first : Part
  rest : List Part
  skip : CodeLine
  handler : List CodeLine
  last : CodeLine

namespace TryCatch

def code (g : TryCatch) : List CodeLine :=
  g.first.code ++ (g.rest.flatMap Part.code ++ g.skip :: (g.handler ++ [g.last]))

def guardJump (g : TryCatch) : Jump := { kind := .guarded, start := g.first.first.offset, stop := g.skip.offset }

/-- The jumps of guarded code, in the order in which they are handled. A block that the code starts with comes
before the guarded range itself, for it stops earlier. -/
def jumps (g : TryCatch) : List Jump :=
  g.first.active ++ g.guardJump :: (g.first.passive ++ (g.rest.flatMap Part.jumps ++ [skipJump g.skip g.last.offset]))

/-- The lines of guarded code, laid out: the block that it starts with is closed where it ends, and all others on
the line before the handler. -/
def laid (g : TryCatch) : List CodeLine :=
  g.first.heading.reading ("try\n\x7b\n" ++ g.first.heading.rendered) :: (g.first.following ++
    (g.rest.flatMap Part.opened ++ g.skip.reading (closeText^[g.rest.countP Part.isBlock]
      (textOf g.skip ++ "\n\x7d\ncatch\n\x7b")) ::
        (asRead g.handler ++ [g.last.reading (textOf g.last ++ FlowM.blockEnd)])))

variable {flow : Flow} {before after : List CodeLine} {order : List Nat}

/-- The first block of guarded code ends before any other jump is made. -/
theorem first_ends {g : TryCatch} {offsets more : List Offset} (h : Ascending (offsets ++ (offsetsOf g.code ++ more)))
    {b : Block} (hb : g.first = .block b) : b.Ends ∧ Flow.Past b.last.offset (g.rest.flatMap Part.jumps) ∧
      b.last.offset.value < g.skip.offset.value := by
  simp only [code, offsetsOf, List.map_append, List.append_assoc, hb] at h
  refine ⟨Block.ends_of_ascending h, ?_⟩
  rw [← List.append_assoc] at h
  have hlast : b.last.offset ∈ offsets ++ (Part.block b).code.map (·.offset) := by simp [Part.code, Block.code]
  exact ⟨Part.past_of_ascending h hlast, h.lt_of_append rfl hlast (by simp)⟩

/-- The other blocks start before the handler does. -/
theorem rest_starts {g : TryCatch} {offsets more : List Offset} (h : Ascending (offsets ++ (offsetsOf g.code ++ more)))
    {b : Block} (hb : .block b ∈ g.rest) : b.first.offset.value < g.skip.offset.value ∧
      g.skip.offset.value < g.last.offset.value := by
  simp only [code, offsetsOf, List.map_append, List.append_assoc] at h
  rw [← List.append_assoc, ← List.append_assoc] at h
  have hin : b.first.offset ∈ (g.rest.flatMap Part.code).map (·.offset) :=
    List.mem_map_of_mem (List.mem_flatMap.2 ⟨_, hb, by simp [Part.code, Block.code]⟩)
  exact ⟨h.lt_of_append rfl (List.mem_append_right _ hin) (by simp), h.lt_of_split (by simp)⟩

theorem perm_jumps (g : TryCatch) : g.jumps.Perm (g.first.active ++ (g.first.passive ++
    (g.guardJump :: skipJump g.skip g.last.offset :: g.rest.flatMap Part.jumps))) := by
  refine List.Perm.append_left _ (List.perm_middle.symm.trans (List.Perm.append_left _ (.cons _ ?_)))
  exact List.perm_append_comm

theorem past_others {g : TryCatch} {offsets more : List Offset} (h : Ascending (offsets ++ (offsetsOf g.code ++ more)))
    {b : Block} (hb : g.first = .block b) : Flow.Past b.last.offset
      (g.guardJump :: skipJump g.skip g.last.offset :: g.rest.flatMap Part.jumps) := by
  obtain ⟨_, hlater, hskip⟩ := first_ends h hb
  refine List.forall_mem_cons.2 ⟨fun hk => ?_, List.forall_mem_cons.2 ⟨fun _ => hskip, hlater⟩⟩
  rcases hk with hk | hk <;> cases hk

/-- The lines of guarded code once the range and its handler are laid out, but no block after the first. -/
def guarded (g : TryCatch) (after : List CodeLine) : List CodeLine :=
  g.first.heading.reading ("try\n\x7b\n" ++ g.first.heading.rendered) :: (g.first.following ++
    (asRead (g.rest.flatMap Part.code) ++ g.skip.reading (textOf g.skip ++ "\n\x7d\ncatch\n\x7b") ::
      (asRead g.handler ++ g.last.reading (textOf g.last ++ FlowM.blockEnd) :: after)))

theorem yields_handleGuard {g : TryCatch} {k : Nat} (h : flow.Stage (before ++ (g.first.heading :: (g.first.following ++
      (asRead (g.rest.flatMap Part.code) ++ g.skip.reading (textOf g.skip) :: (asRead g.handler ++
        g.last.reading (textOf g.last) :: after)))))
      (g.guardJump :: skipJump g.skip g.last.offset :: g.rest.flatMap Part.jumps) []) (hk : flow.OpenAs k g.guardJump)
    {wanted : Unit → Flow → Prop} (hw : ∀ result : Flow, flow.Keeps result (g.rest.flatMap Part.jumps) →
      result.Stage (before ++ g.guarded after) (g.rest.flatMap Part.jumps) [(g.skip.offset, g.last.offset)] →
      wanted () result) : Yields (FlowM.handleJump k) flow wanted := by
  have hheading : g.guardJump.start = g.first.heading.offset := by
    unfold guardJump
    cases g.first with
    | line l => rfl
    | block b => cases b <;> rfl
  have hpending : g.guardJump.done = false := rfl
  have hkind : g.guardJump.kind = .guarded := rfl
  have hlines : before ++ (g.first.heading :: (g.first.following ++ (asRead (g.rest.flatMap Part.code) ++
      g.skip.reading (textOf g.skip) :: (asRead g.handler ++ g.last.reading (textOf g.last) :: after)))) =
      before ++ g.first.heading :: ((g.first.following ++ asRead (g.rest.flatMap Part.code)) ++
        g.skip.reading (textOf g.skip) :: (asRead g.handler ++ g.last.reading (textOf g.last) :: after)) := by simp
  simp only [FlowM.handleJump, yields_bind, FlowM.yields_jump, hk.2, hpending, Bool.false_eq_true, if_false]
  rw [hkind]
  simp only [yields_bind, yields_pure]
  refine (hlines ▸ h).yields_wrapGuarded hk hkind hheading rfl rfl fun result hkept hresult => hw result hkept ?_
  simpa [guarded] using hresult

/-- The blocks after the first are closed on the line before the handler. -/
theorem yields_handleRest {g : TryCatch} {is : List Nat} (h : flow.Stage (before ++ g.guarded after)
      (g.rest.flatMap Part.jumps) [(g.skip.offset, g.last.offset)]) (hs : flow.Spaced)
    (hi : List.Forall₂ flow.OpenAs is (g.rest.flatMap Part.jumps))
    (hstarts : ∀ b, .block b ∈ g.rest → b.first.offset.value < g.skip.offset.value ∧
      g.skip.offset.value < g.last.offset.value) :
    Yields (FlowM.handleJumps is) flow fun _ result => flow.Follows result ∧
      result.Stage (before ++ (g.laid ++ after)) [] [(g.skip.offset, g.last.offset)] := by
  have hlines : before ++ g.guarded after = (before ++ g.first.heading.reading
    ("try\n\x7b\n" ++ g.first.heading.rendered) :: g.first.following) ++ (asRead (g.rest.flatMap Part.code) ++
        g.skip.reading (textOf g.skip ++ "\n\x7d\ncatch\n\x7b") ::
          (asRead g.handler ++ g.last.reading (textOf g.last ++ FlowM.blockEnd) :: after)) := by simp [guarded]
  refine (Part.yields_handleJumps g.rest (hlines ▸ h) hs hi fun b hb => ?_).mono ?_
  · obtain ⟨hstart, hstop⟩ := hstarts b hb
    exact if_pos ⟨hstart, Int.le_of_lt hstop⟩
  · rintro _ result ⟨hf, hresult⟩
    exact ⟨hf, by simpa [laid] using hresult⟩

/-- Handled in their order, the jumps of guarded code lay it out: first a block at its start, then the range with
its handler, and then every other block. -/
theorem yields_handleJumps {g : TryCatch} (h : flow.Stage (before ++ (asRead g.code ++ after)) g.jumps [])
    (hs : flow.Spaced) (ho : List.Forall₂ flow.OpenAs order g.jumps) :
    Yields (FlowM.handleJumps order) flow fun _ result => result.code = before ++ (g.laid ++ after) := by
  have hoffsets := h.ascending
  rw [List.map_append, List.map_append, map_offset_asRead] at hoffsets
  have hactive := List.forall₂_take_append _ _ _ ho
  obtain ⟨k, more, hguard, hmore, hdrop⟩ := List.forall₂_cons_right_iff.1 (List.forall₂_drop_append _ _ _ ho)
  have hpassive := List.forall₂_take_append _ _ _ hmore
  have hlatter := List.forall₂_drop_append _ _ _ hmore
  have hothers := List.forall₂_take_append _ _ _ hlatter
  have hskip := List.forall₂_drop_append _ _ _ hlatter
  rw [← List.take_append_drop g.first.active.length order, FlowM.yields_handleJumps_append, hdrop]
  have hlines : before ++ (asRead g.code ++ after) = before ++
    (asRead g.first.code ++ (asRead (g.rest.flatMap Part.code) ++
      g.skip.reading (textOf g.skip) :: (asRead g.handler ++ g.last.reading (textOf g.last) :: after))) := by
    simp [code]
  refine (Part.yields_handleActive (hlines ▸ h.perm g.perm_jumps) hs (fun b hb => past_others hoffsets hb) hactive).mono
    ?_
  rintro _ closed ⟨hkept, hclosed⟩
  rw [FlowM.handleJumps, yields_bind]
  obtain ⟨hopen, hsame⟩ := hkept.same k hguard.1 (by rw [hguard.2]; exact List.mem_cons_self)
  refine yields_handleGuard hclosed ⟨hopen, hsame.trans hguard.2⟩ fun guarded hguarding hguarded => ?_
  have hsofar := hkept.trans hguarding (fun j hj => List.mem_cons_of_mem _ (List.mem_cons_of_mem _ hj))
  rw [← List.take_append_drop g.first.passive.length more, FlowM.yields_handleJumps_append]
  refine Part.passive_done hguarded hsofar.toFollows (fun b hb => ?_) hpassive ?_
  · obtain ⟨hends, hpast, _⟩ := first_ends hoffsets hb
    exact ⟨hends, hpast⟩
  rw [← List.take_append_drop (g.rest.flatMap Part.jumps).length (more.drop g.first.passive.length),
    FlowM.yields_handleJumps_append]
  refine (yields_handleRest hguarded (hs.follows hsofar.toFollows) (hsofar.openAs hothers fun _ hj => hj)
    fun b hb => rest_starts hoffsets hb).mono ?_
  rintro _ laid ⟨hfollows, hlaid⟩
  -- the skip is done, and would need no statement
  refine (FlowM.yields_handleJumps_quiet hlaid.sound _ (fun m hm => ?_) fun m hm _ => Or.inl ?_).mono ?_
  · obtain ⟨j, _, hj⟩ := forall₂_mem_left hskip hm
    rw [hfollows.length, hsofar.length]
    exact hj.1.1
  · obtain ⟨j, hmem, hj⟩ := forall₂_mem_left hskip hm
    rw [hfollows.kind, hsofar.kind, hj.2, List.mem_singleton.1 hmem]
    rfl
  · intro _ result he
    rw [he, hlaid.reads]

end TryCatch

end Bytelift
