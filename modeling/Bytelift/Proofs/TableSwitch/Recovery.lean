import Bytelift.Proofs.Loop.Recovery
import Bytelift.Proofs.TableSwitch.Layout
import Mathlib.Data.List.Flatten

/-! Table switches are recovered, but for the break of the last case. Every case but the last is shown with its
lines and a break; the exit of the last one is shown as the first line of the default, or not at all if it is the
only case. -/

namespace Bytelift

open Run Text Instruction

/-! ## What a switch is printed as -/

theorem shownLines_of_notMem {s : String} (h : '\n' ∉ s.toList) (hs : s ≠ "") : shownLines s = [s] := by
  rw [shownLines, split_of_notMem h]
  simp [hs]

theorem mem_toString_int {k : Int} {c : Char} (hc : c ∈ (toString k).toList) : c = '-' ∨ c.isDigit = true := by
  cases k with
  | ofNat n => exact Or.inr (isDigit_of_mem_toString hc)
  | negSucc n =>
    have hneg : toString (Int.negSucc n) = "-" ++ toString (n + 1) := rfl
    rw [hneg, String.toList_append, List.mem_append] at hc
    rcases hc with hc | hc
    · exact Or.inl (by simpa using hc)
    · exact Or.inr (isDigit_of_mem_toString hc)

namespace CaseBody

def title (b : CaseBody) : String := "case (" ++ toString b.key ++ "):"

theorem notMem_title (b : CaseBody) {c : Char} (hc : c ∉ "case (-):".toList) (hd : c.isDigit = false) :
    c ∉ b.title.toList := by
  intro hm
  simp only [title, String.toList_append, List.mem_append] at hm
  rcases hm with (hm | hm) | hm
  · exact hc (by revert hm; simp; tauto)
  · rcases mem_toString_int hm with rfl | hm
    · exact hc (by decide)
    · rw [hd] at hm
      cases hm
  · exact hc (by revert hm; simp; tauto)

theorem label_eq (b : CaseBody) : b.label = b.title ++ "\n" := by
  simp [label, caseLabel, title, String.append_assoc]

theorem shown_opened (b : CaseBody) : shownLines b.opened.rendered =
    "\x7d" :: b.title :: "\x7b" :: shownLines (textOf b.head) := by
  have hparts : b.opened.rendered = "\n\x7d" ++ "\n" ++ (b.title ++ "\n" ++ ("\n\x7b" ++ "\n" ++ textOf b.head)) := by
    have hopen : "\n\x7d\n" = "\n\x7d" ++ "\n" := by decide
    have hclose : "\n\x7b\n" = "\n\x7b" ++ "\n" := by decide
    simp only [opened, CodeLine.rendered_reading, label_eq]
    rw [hopen, hclose]
    simp only [String.append_assoc]
  have htitle : shownLines b.title = [b.title] := by
    refine shownLines_of_notMem (b.notMem_title (by decide) (by decide)) fun he => ?_
    have hc : 'c' ∈ b.title.toList := by simp [title]
    rw [he] at hc
    cases hc
  rw [hparts, shownLines_join, shownLines_join, shownLines_join, htitle]
  rfl

end CaseBody

def block (title : String) (body : List String) : List String := title :: "\x7b" :: (body ++ ["\x7d"])

/-- A block that ends with a line. If this line has a brace in it, the block closes before it. -/
def blockTo (title : String) (body : List CodeLine) (last : CodeLine) : List String :=
  if has (textOf last) "\x7b" then block title (Loop.shown body) ++ Loop.shown [last]
  else block title (Loop.shown (body ++ [last]))

theorem blockTo_eq (title : String) (body : List CodeLine) (last : CodeLine) :
    blockTo title body last = title :: "\x7b" :: (Loop.shown body ++ shownLines (closeText (textOf last))) := by
  rw [blockTo, shownLines_closeText]
  by_cases hbrace : has (textOf last) "\x7b" = true <;> simp [hbrace, block, Loop.shown]

namespace TableSwitch

open Loop (shown)

def printedEnd (t : TableSwitch) : List String :=
  if t.bodies = [] then block t.final.title (shown t.final.lines) ++ shown (t.fallback ++ [t.last])
  else if has (textOf t.last) "\x7b" then
    block t.final.title (shown t.final.lines ++ ["break"]) ++ (block "default:" (shown t.fallback) ++ shown [t.last])
  else block t.final.title (shown t.final.lines) ++ block "default:" ("break" :: shown (t.fallback ++ [t.last]))

/-- What a switch is printed as: a default that leaves it, every case but the last with its lines and a break,
and then the last case and the default with its lines. The exit of the last case stands as a break before the
default's lines, unless it is the only case: then it is shown nowhere, and the lines of the default follow the
switch. A default whose last line has a brace in it closes before this line; then the exit does stand in its case. -/
def printed (t : TableSwitch) : List String :=
  "switch (ACCU)" :: (block "default:" ["break"] ++
    ((t.bodies.flatMap fun b => block b.title (shown b.lines ++ ["break"])) ++ t.printedEnd))

theorem shown_caseBodies (skip : CodeLine) (bodies : List CaseBody) (final : CaseBody) :
    shownOf (CaseBody.laid skip (bodies ++ [final])) = "break" :: "\x7d" ::
      ((bodies.flatMap fun b => block b.title (shown b.lines ++ ["break"])) ++
        final.title :: "\x7b" :: shown final.lines) := by
  have hbreak : shownLines "break" = ["break"] := by decide
  induction bodies generalizing skip with
  | nil => simp [CaseBody.laid, CaseBody.shown_opened, hbreak, CaseBody.lines, shown]
  | cons b bodies ih =>
    simp [CaseBody.laid, CaseBody.shown_opened, hbreak, CaseBody.lines, shown, ih, block]

/-- Laid out, a switch shows what it is printed as. -/
theorem shown_laid (t : TableSwitch) : shownOf t.laid = t.printed := by
  have hhead : shownLines t.opened.rendered = ["switch (ACCU)", "default:", "\x7b"] := by
    change shownLines ("\n" ++ switchHeader ++ "\n\x7b\n") = _
    decide
  have hsingle : shownLines (closeText "") = ["\x7d"] := by decide
  have hbefore : shownLines ("break" ++ FlowM.defaultStart) = ["break", "\x7d", "default:", "\x7b"] := by decide
  have hafter : shownLines (FlowM.defaultStart ++ "break") = ["\x7d", "default:", "\x7b", "break"] := by decide
  rw [laid, shownOf_cons, shownOf_append, hhead, cases, shown_caseBodies, printed, printedEnd, ending]
  by_cases hone : t.bodies = []
  · simp [hone, hsingle, block, shown]
  by_cases hbrace : has (textOf t.last) "\x7b" = true
  · simp [hone, hbrace, hbefore, shownLines_closeText, block, shown]
  · simp [hone, hbrace, hafter, shownLines_closeText, block, shown]

/-! ## The code of a switch -/

/-- A switch as it is compiled, if it is left for an offset: its table lists the cases in their order, the jump
after it goes to the default, and every case ends with a jump out of it. -/
structure Compiled (t : TableSwitch) (finish : Offset) : Prop where
  switches : operator t.switch = "SwitchOnSmiNoFeedback"
  table : ∃ cases, caseTable (operands t.switch) = .ok cases ∧
    cases.values = t.cases.map fun b => ⟨toString b.key, b.head.offset⟩
  skips : JumpsTo "Jump" (t.fallback.headD t.last).offset t.skip
  exits : ∀ b ∈ t.cases, JumpsTo "Jump" finish b.exit
  plain : ∀ line ∈ t.cases.flatMap CaseBody.lines ++ (t.fallback ++ [t.last]), (statement? line).isSome

theorem form?_switch : form? "SwitchOnSmiNoFeedback" = some .cases := by decide

/-- The chain of arms of cases at different lines. -/
theorem armChain_eq (last : Offset) : ∀ (bodies : List CaseBody) (start : Offset) (labels : String),
    (start :: bodies.map fun b => b.head.offset).Nodup →
    armChain last start labels (bodies.map fun b => ⟨toString b.key, b.head.offset⟩) =
      { kind := .arm, start, stop := CaseBody.startOf bodies, arm := some ⟨labels, last⟩ } :: CaseBody.arms last bodies
  | [], start, labels, _ => rfl
  | b :: bodies, start, labels, hn => by
    rw [List.map_cons, List.nodup_cons] at hn
    have hne : ¬b.head.offset = start := fun he => hn.1 (by simp [he])
    rw [List.map_cons, armChain, if_neg hne, armChain_eq last bodies _ _ (by simpa using hn.2)]
    rfl

variable {t : TableSwitch} {before after : List CodeLine} {finish : CodeLine}

theorem heads_sublist (t : TableSwitch) :
    (t.switch.offset :: t.cases.map fun b => b.head.offset).Sublist (offsetsOf t.code) := by
  have hheads : (t.cases.map fun b => b.head.offset).Sublist ((t.cases.flatMap CaseBody.code).map (·.offset)) := by
    rw [List.map_eq_flatMap, List.map_flatMap]
    exact .flatMap_right _ fun b _ => by simp [CaseBody.code, CaseBody.lines]
  rw [offsetsOf, code, List.map_cons, List.map_cons, List.map_append]
  exact ((hheads.trans (List.sublist_append_left _ _)).cons _).cons_cons _

/-- The jumps of a switch start at different lines. -/
theorem starts_nodup (hn : (offsetsOf t.code).Nodup) : (t.jumps.map (·.start)).Nodup := by
  have hends : (t.cases.flatMap fun b => [b.head.offset] ++ [b.exit.offset]).Sublist
      ((t.cases.flatMap CaseBody.code).map (·.offset)) := by
    rw [List.map_flatMap]
    exact .flatMap_right _ fun b _ => by simp [CaseBody.code, CaseBody.lines]
  have harms : ∀ bodies last, (CaseBody.arms last bodies).map (·.start) = bodies.flatMap fun b => [b.head.offset] := by
    intro bodies last
    induction bodies with
    | nil => rfl
    | cons b bodies ih => simp [CaseBody.arms, ih, CaseBody.armJump]
  have hperm : (t.jumps.map (·.start)).Perm (t.switch.offset :: t.skip.offset ::
      t.cases.flatMap fun b => [b.head.offset] ++ [b.exit.offset]) := by
    rw [jumps, List.map_cons, List.map_cons, List.map_append, harms, List.map_map, List.map_eq_flatMap]
    exact ((List.perm_append_comm.trans (List.flatMap_append_perm _ _ _)).cons _).cons _
  refine hperm.nodup_iff.2 (hn.sublist ?_)
  rw [offsetsOf, code, List.map_cons, List.map_cons, List.map_append]
  exact ((hends.trans (List.sublist_append_left _ _)).cons_cons _).cons_cons _

/-- The arms that a switch is recorded as. -/
theorem switchArms_eq (ha : Ascending (offsetsOf t.code)) {table : CaseTable}
    (hv : table.values = t.cases.map fun b => ⟨toString b.key, b.head.offset⟩) :
    switchArms t.switch.offset table = .ok (t.headJump :: CaseBody.arms t.final.head.offset t.cases) := by
  have hheads := ha.sublist t.heads_sublist
  have hsorted : Offset.sortBy? Case.target table.values = some table.values := by
    rw [hv]
    refine Offset.sortBy?_of_pairwise ?_ ?_
    · intro c hc
      obtain ⟨b, hb, rfl⟩ := List.mem_map.1 hc
      exact hheads.numbers _ (List.mem_cons_of_mem _ (List.mem_map_of_mem hb))
    · rw [List.pairwise_map]
      exact (List.pairwise_map.1 (List.pairwise_cons.1 hheads.grows).2).imp Int.le_of_lt
  have hlast : table.values.getLast? = some ⟨toString t.final.key, t.final.head.offset⟩ := by simp [hv, cases]
  rw [switchArms, hsorted]
  dsimp only
  rw [hlast]
  dsimp only
  rw [hv, armChain_eq _ _ _ _ hheads.nodup]
  rfl

/-! ## A function with a switch in it -/

/-- Where the parts of a switch stand among the lines of a function. -/
structure Stands (t : TableSwitch) (finish : Offset) (offsets : List Offset) : Prop where
  ascending : Ascending offsets
  part : (offsetsOf t.code).Sublist offsets
  lastExit : Adjacent offsets t.final.exit.offset (t.fallback.headD t.last).offset
  last : Adjacent offsets t.last.offset finish
  skip : t.skip.offset.value < t.final.exit.offset.value
  exits : ∀ b ∈ t.cases, b.exit.offset.value < t.last.offset.value

theorem stands (ha : Ascending (offsetsOf (before ++ (t.code ++ finish :: after)))) :
    t.Stands finish.offset (offsetsOf (before ++ (t.code ++ finish :: after))) := by
  have hparts : offsetsOf (before ++ (t.code ++ finish :: after)) = (offsetsOf before ++ [t.switch.offset]) ++
      t.skip.offset :: (offsetsOf (t.cases.flatMap CaseBody.code) ++
        (offsetsOf (t.fallback ++ [t.last]) ++ finish.offset :: offsetsOf after)) := by
    simp [offsetsOf, code]
  have hcases := hparts.trans ((congrArg _ (List.cons_append (a := t.skip.offset)).symm).trans
    (List.append_assoc _ _ _).symm)
  refine ⟨ha, ?_, ?_, ?_, ?_, ?_⟩
  · rw [offsetsOf, offsetsOf, List.map_append, List.map_append]
    exact (List.sublist_append_left _ _).trans (List.sublist_append_right _ _)
  · obtain ⟨more, hmore⟩ : ∃ more, offsetsOf (t.fallback ++ [t.last]) = (t.fallback.headD t.last).offset :: more := by
      cases t.fallback with
      | nil => exact ⟨[], rfl⟩
      | cons line lines => exact ⟨offsetsOf (lines ++ [t.last]), rfl⟩
    refine ⟨offsetsOf before ++ t.switch.offset :: t.skip.offset :: (offsetsOf (t.bodies.flatMap CaseBody.code) ++
      offsetsOf t.final.lines), more ++ finish.offset :: offsetsOf after, ?_⟩
    rw [hparts, hmore]
    simp [cases, CaseBody.code, offsetsOf]
  · refine ⟨offsetsOf before ++ t.switch.offset :: t.skip.offset :: (offsetsOf (t.cases.flatMap CaseBody.code) ++
      offsetsOf t.fallback), offsetsOf after, ?_⟩
    rw [hparts]
    simp [offsetsOf]
  · have hexit : t.final.exit.offset ∈ offsetsOf (t.cases.flatMap CaseBody.code) := CaseBody.exit_mem t.final_mem
    exact (hparts ▸ ha).lt_of_split (by simp [hexit])
  · intro b hb
    have hexit : b.exit.offset ∈ offsetsOf (t.cases.flatMap CaseBody.code) := CaseBody.exit_mem hb
    exact ha.lt_of_append hcases (by simp [hexit]) (by simp [offsetsOf])

namespace Compiled

/-- What the jumps of a switch file. -/
theorem filed?_eq {offsets : List Offset} (hc : t.Compiled finish.offset) (hs : t.Stands finish.offset offsets) :
    filed? t.skip = some (skipJump t.skip (t.fallback.headD t.last).offset) ∧
      ∀ b ∈ t.cases, filed? b.exit = some (skipJump b.exit finish.offset) := by
  have hnumber := hs.ascending.numbers
  have hmem : ∀ line ∈ t.code, line.offset ∈ offsets := fun line hl => hs.part.subset (List.mem_map_of_mem hl)
  have hskip : t.skip ∈ t.code := by simp [code]
  refine ⟨hc.skips.filed?_ahead form?_jump (hnumber _ (hmem _ hskip)) ?_, ?_⟩
  · exact Int.le_of_lt (Int.lt_trans hs.skip (hs.lastExit.lt hs.ascending))
  · intro b hb
    have hexit : b.exit ∈ t.code := by
      have hin : b.exit ∈ t.cases.flatMap CaseBody.code := List.mem_flatMap.2 ⟨b, hb, by simp [CaseBody.code]⟩
      simp [code, hin]
    refine (hc.exits b hb).filed?_ahead form?_jump (hnumber _ (hmem _ hexit)) ?_
    exact Int.le_of_lt (Int.lt_trans (hs.exits b hb) (hs.last.lt hs.ascending))

theorem armsOf_eq (hc : t.Compiled finish.offset) (ha : Ascending (offsetsOf t.code)) :
    armsOf t.switch = t.headJump :: CaseBody.arms t.final.head.offset t.cases := by
  obtain ⟨table, htable, hvalues⟩ := hc.table
  simp [armsOf, hc.switches, form?_switch, htable, switchArms_eq ha hvalues, bind, Except.bind, Except.toOption]

theorem statement_of_mem (hc : t.Compiled finish.offset) {b : CaseBody} (hb : b ∈ t.cases) :
    ∀ line ∈ b.lines, (statement? line).isSome := fun line hl =>
  hc.plain line (List.mem_append_left _ (List.mem_flatMap.2 ⟨b, hb, hl⟩))

/-- The skips that are filed for a function with a switch in it. -/
theorem filterMap_filed?_eq {offsets : List Offset} (hc : t.Compiled finish.offset)
    (hs : t.Stands finish.offset offsets) (hp : ∀ line ∈ before ++ finish :: after, (statement? line).isSome) :
    (before ++ (t.code ++ finish :: after)).filterMap filed? =
      skipJump t.skip (t.fallback.headD t.last).offset :: t.cases.map fun b => skipJump b.exit finish.offset := by
  obtain ⟨hskip, hexits⟩ := hc.filed?_eq hs
  have hswitch : filed? t.switch = none := by simp [filed?, hc.switches, form?_switch]
  have hcases : (t.cases.flatMap CaseBody.code).filterMap filed? = t.cases.map fun b =>
    skipJump b.exit finish.offset := by
    rw [List.filterMap_flatMap, List.map_eq_flatMap]
    refine List.flatMap_congr fun b hb => ?_
    rw [CaseBody.code, List.filterMap_append, Loop.filterMap_filed?_plain (hc.statement_of_mem hb), List.nil_append,
      List.filterMap_cons_some (hexits b hb)]
    rfl
  rw [code, List.filterMap_append, List.filterMap_append, List.filterMap_cons_none hswitch,
    List.filterMap_cons_some hskip, List.filterMap_append, hcases,
    Loop.filterMap_filed?_plain fun line hl => hp line (List.mem_append_left _ hl),
    Loop.filterMap_filed?_plain fun line hl => hc.plain line (List.mem_append_right _ hl),
    Loop.filterMap_filed?_plain fun line hl => hp line (List.mem_append_right _ hl)]
  simp

/-- The arms that are filed for it. -/
theorem flatMap_armsOf_eq {offsets : List Offset} (hc : t.Compiled finish.offset) (hs : t.Stands finish.offset offsets)
    (hp : ∀ line ∈ before ++ finish :: after, (statement? line).isSome) :
    (before ++ (t.code ++ finish :: after)).flatMap armsOf =
      t.headJump :: CaseBody.arms t.final.head.offset t.cases := by
  obtain ⟨hskip, hexits⟩ := hc.filed?_eq hs
  have hplain : ∀ {lines : List CodeLine}, (∀ line ∈ lines, (statement? line).isSome) → lines.flatMap armsOf = [] := by
    intro lines hl
    exact List.flatMap_eq_nil_iff.2 fun line hm => Fits.armsOf_eq_nil (hl line hm)
  have hcases : (t.cases.flatMap CaseBody.code).flatMap armsOf = [] := by
    refine List.flatMap_eq_nil_iff.2 fun line hm => ?_
    obtain ⟨b, hb, hl⟩ := List.mem_flatMap.1 hm
    rcases List.mem_append.1 hl with hl | hl
    · exact Fits.armsOf_eq_nil (hc.statement_of_mem hb line hl)
    · exact List.mem_singleton.1 hl ▸ armsOf_of_filed? (hexits b hb)
  rw [code, List.flatMap_append, List.flatMap_append, List.flatMap_cons, List.flatMap_cons, List.flatMap_append, hcases,
    hplain fun line hl => hp line (List.mem_append_left _ hl),
    hplain fun line hl => hc.plain line (List.mem_append_right _ hl),
    hplain fun line hl => hp line (List.mem_append_right _ hl), armsOf_of_filed? hskip,
    hc.armsOf_eq (hs.ascending.sublist hs.part)]
  simp

/-- Every arm goes elsewhere. -/
theorem arms_move (last : Offset) : ∀ (bodies : List CaseBody), (bodies.map fun b => b.head.offset).Nodup →
    .number (-1) ∉ bodies.map (fun b => b.head.offset) → ∀ j ∈ CaseBody.arms last bodies, j.start ≠ j.stop
  | [], _, _ => by simp [CaseBody.arms]
  | b :: bodies, hn, hbare => by
    rw [List.map_cons, List.nodup_cons] at hn
    simp only [List.map_cons, List.mem_cons, not_or] at hbare
    refine List.forall_mem_cons.2 ⟨?_, arms_move last bodies hn.2 hbare.2⟩
    cases bodies with
    | nil => exact Ne.symm hbare.1
    | cons c bodies => exact fun he => hn.1 (by simp [show b.head.offset = c.head.offset from he])

/-- The lines of a switch go with the others. -/
theorem fits {offsets : List Offset} (hc : t.Compiled finish.offset) (hs : t.Stands finish.offset offsets)
    (hbare : .number (-1) ∉ offsets) : ∀ line ∈ t.code, Fits offsets line := by
  obtain ⟨hskip, hexits⟩ := hc.filed?_eq hs
  have hheads := (hs.ascending.sublist hs.part).sublist t.heads_sublist
  have hmem : ∀ {line}, line ∈ t.code → line.offset ∈ offsets := fun hl => hs.part.subset (List.mem_map_of_mem hl)
  have hcase : ∀ {o}, o ∈ t.switch.offset :: t.cases.map (fun b => b.head.offset) → o ∈ offsets :=
    fun ho => hs.part.subset (t.heads_sublist.subset ho)
  have hjump : ∀ {line : CodeLine} {goal : Offset}, line ∈ t.code → filed? line = some (skipJump line goal) →
      goal ∈ offsets → line.offset.value < goal.value → Fits offsets line := by
    intro line goal hl hfiled hgoal hlt
    exact Or.inr (Or.inl ⟨_, hfiled, by simp [skipJump], hmem hl, hgoal, Offset.ne_of_lt hlt⟩)
  intro line hl
  have hin := hl
  simp only [code, List.mem_cons, List.mem_append] at hl
  rcases hl with rfl | rfl | hl | hl
  · obtain ⟨table, htable, hvalues⟩ := hc.table
    refine Or.inr (Or.inr ⟨table, _, by rw [hc.switches, form?_switch], htable,
      switchArms_eq (hs.ascending.sublist hs.part) hvalues, ?_, ?_⟩)
    · intro c hc
      rw [hvalues] at hc
      obtain ⟨b, hb, rfl⟩ := List.mem_map.1 hc
      exact ⟨hcase (List.mem_cons_of_mem _ (List.mem_map_of_mem hb)),
        (List.pairwise_cons.1 hheads.grows).1 _ (List.mem_map_of_mem hb)⟩
    · have hnodup := List.nodup_cons.1 hheads.nodup
      refine List.forall_mem_cons.2 ⟨fun he => hnodup.1 ?_, arms_move _ _ hnodup.2 fun hm =>
        hbare (hcase (List.mem_cons_of_mem _ hm))⟩
      obtain ⟨b, bodies, hb⟩ := List.exists_cons_of_ne_nil (List.ne_nil_of_mem t.final_mem)
      rw [show t.switch.offset = CaseBody.startOf t.cases from he, hb]
      simp [CaseBody.startOf]
  · exact hjump hin hskip hs.lastExit.right (Int.lt_trans hs.skip (hs.lastExit.lt hs.ascending))
  · obtain ⟨b, hb, hl⟩ := List.mem_flatMap.1 hl
    rcases List.mem_append.1 hl with hl | hl
    · exact Or.inl (hc.statement_of_mem hb line hl)
    · obtain rfl := List.mem_singleton.1 hl
      exact hjump hin (hexits b hb) hs.last.right (Int.lt_trans (hs.exits b hb) (hs.last.lt hs.ascending))
  · exact Or.inl (hc.plain line (List.mem_append_right _ (by simpa using hl)))

/-- A function with a switch in it is liftable. -/
theorem liftable (hc : t.Compiled finish.offset) (hp : ∀ line ∈ before ++ finish :: after, (statement? line).isSome)
    (ha : Ascending (offsetsOf (before ++ (t.code ++ finish :: after))))
    (hbare : .number (-1) ∉ offsetsOf (before ++ (t.code ++ finish :: after)))
    (hsort : ∀ o ∈ offsetsOf (before ++ (t.code ++ finish :: after)), (Binary64.nearestWhole? o.value).isSome) :
    Liftable (before ++ (t.code ++ finish :: after)) {} := by
  have hs := stands ha
  refine ⟨recordable_of_fits ha ?_ ?_ ?_ (by simp), hsort⟩
  · intro line hl
    rcases List.mem_append.1 hl with hl | hl
    · exact Or.inl (hp line (List.mem_append_left _ hl))
    rcases List.mem_append.1 hl with hl | hl
    · exact hc.fits hs hbare line hl
    · exact Or.inl (hp line (List.mem_append_right _ hl))
  · rw [headers, entriesOf, hc.filterMap_filed?_eq hs hp, List.filter_eq_nil_iff.2]
    · simp
    · intro j hj
      rcases List.mem_cons.1 hj with rfl | hj
      · simp [skipJump]
      · obtain ⟨b, _, rfl⟩ := List.mem_map.1 hj
        simp [skipJump]
  · rw [hc.flatMap_armsOf_eq hs hp]
    refine (starts_nodup (ha.sublist hs.part).nodup).sublist (List.Sublist.map _ ?_)
    exact ((List.sublist_append_right _ _).cons _).cons_cons _

/-- The jumps of a switch read as nothing. -/
theorem silent (hc : t.Compiled finish.offset) : t.Silent where
  switch := by simp [textOf, hc.switches, form?_switch, statement?]
  skip := hc.skips.textOf_eq form?_jump
  exits b hb := (hc.exits b hb).textOf_eq form?_jump

/-- A function with a switch in it, as the handlers find it. -/
theorem stage {flow : Flow} {order : List Nat} (hc : t.Compiled finish.offset)
    (hp : ∀ line ∈ before ++ finish :: after, (statement? line).isSome)
    (h : flow.Readied (before ++ (t.code ++ finish :: after)) {} order) :
    flow.Stage (asRead before ++ (asRead t.code ++ asRead (finish :: after))) t.jumps [] := by
  have ha : Ascending (offsetsOf (before ++ (t.code ++ finish :: after))) := h.offsets ▸ h.sound.ascending
  have hs := stands ha
  have hperm : ((skipJump t.skip t.final.exit.offset :: t.cases.map fun b => skipJump b.exit t.last.offset) ++
      (t.headJump :: CaseBody.arms t.final.head.offset t.cases)).Perm t.jumps := List.perm_middle
  have hdrawn : List.Forall₂ (Flow.DrawnFrom (offsetsOf (before ++ (t.code ++ finish :: after))))
      (jumpsOf (before ++ (t.code ++ finish :: after)) {})
      ((skipJump t.skip t.final.exit.offset :: t.cases.map fun b => skipJump b.exit t.last.offset) ++
        (t.headJump :: CaseBody.arms t.final.head.offset t.cases)) := by
    have hskip : ∀ {line : CodeLine} {stop goal : Offset}, Adjacent (offsetsOf (before ++ (t.code ++ finish :: after)))
        stop goal → Flow.DrawnFrom (offsetsOf (before ++ (t.code ++ finish :: after))) (skipJump line goal)
          (skipJump line stop) := by
      intro line stop goal hadj
      exact ⟨rfl, Or.inr ⟨by simp [Flow.Fixed, skipJump], hadj⟩⟩
    have hguards : ((guardTables {}).table .guarded).values = [] := rfl
    rw [jumpsOf, hguards, hc.filterMap_filed?_eq hs hp, hc.flatMap_armsOf_eq hs hp, List.nil_append]
    refine List.rel_append (.cons (hskip hs.lastExit) ?_)
      (List.forall₂_same.2 fun j hj => ⟨rfl, Or.inl ⟨Or.inr ?_, rfl⟩⟩)
    · rw [List.forall₂_map_left_iff, List.forall₂_map_right_iff]
      exact List.forall₂_same.2 fun b _ => hskip hs.last
    · rcases List.mem_cons.1 hj with rfl | hj
      · rfl
      · exact CaseBody.kind_of_mem_arms hj
  have hnodup : t.jumps.Nodup := (starts_nodup (ha.sublist hs.part).nodup).of_map _
  simpa using (h.stage (hperm.nodup_iff.2 hnodup) hdrawn).perm hperm

/-- All jumps of a switch but the arm with the header need no statement. -/
theorem quiet (t : TableSwitch) : ∀ j ∈ t.jumps, j ≠ t.headJump → j.Quiet := by
  have harms : ∀ last bodies, ∀ j ∈ CaseBody.arms last bodies, j.Quiet := by
    intro last bodies
    induction bodies with
    | nil => simp [CaseBody.arms]
    | cons b bodies ih =>
      refine List.forall_mem_cons.2 ⟨Or.inr ⟨rfl, _, rfl, ?_⟩, ih⟩
      refine has_of_notMem (c := 'w') (by decide) ?_
      change 'w' ∉ b.label.toList
      rw [CaseBody.label_eq, String.toList_append, List.mem_append, not_or]
      exact ⟨b.notMem_title (by decide) (by decide), by decide⟩
  intro j hj hne
  simp only [jumps, List.mem_cons, List.mem_append, List.mem_map] at hj
  rcases hj with rfl | rfl | ⟨b, _, rfl⟩ | hj
  · exact absurd rfl hne
  · exact Or.inl rfl
  · exact Or.inl rfl
  · exact harms _ _ j hj

/-- Handled in any order, the jumps of a switch lay it out. -/
theorem yields_handleJumps {flow : Flow} {order : List Nat} (hc : t.Compiled finish.offset)
    (hp : ∀ line ∈ before ++ finish :: after, (statement? line).isSome)
    (hbare : .number (-1) ∉ offsetsOf (before ++ (t.code ++ finish :: after)))
    (h : flow.Readied (before ++ (t.code ++ finish :: after)) {} order) :
    Yields (FlowM.handleJumps order) flow fun _ result =>
      result.code = asRead before ++ (t.laid ++ asRead (finish :: after)) := by
  have hstage := hc.stage hp h
  have hb : .number (-1) ∉ flow.offsets := h.offsets ▸ hbare
  obtain ⟨i, hi, hj⟩ := (hstage.mem t.headJump).1 (by simp [jumps])
  obtain ⟨earlier, later, horder⟩ := List.append_of_mem ((h.mem i).2 hi.1)
  have hnodup := h.nodup
  have hlt : ∀ k ∈ earlier ++ i :: later, k < flow.jumps.length := fun k hk => (h.mem k).1 (horder ▸ hk)
  rw [horder] at hnodup ⊢
  have hother : ∀ k ∈ earlier ++ later, k ≠ i := by
    rintro k hk rfl
    exact (List.nodup_cons.1 (List.perm_middle.nodup_iff.1 hnodup)).1 hk
  -- the jumps before it are left as they are
  rw [FlowM.yields_handleJumps_append]
  refine (FlowM.yields_handleJumps_quiet hstage.sound earlier (fun k hk => hlt k (by simp [hk])) ?_).mono ?_
  · intro k hk hopen
    refine quiet t _ ((hstage.mem _).2 ⟨k, hopen, rfl⟩) fun he => hother k (by simp [hk]) ?_
    exact hstage.sound.once k i hopen.1 hi.1 (by rw [he, hj]) (by rw [he, hj])
  intro _ middle he
  rw [he, FlowM.handleJumps, yields_bind, FlowM.handleJump, yields_bind, FlowM.yields_jump,
    if_neg (by simp [hi.2]), show (flow.jump i).kind = .arm by rw [hj]; rfl]
  obtain ⟨done, result, hok, hlaid⟩ := yields_handleArm hstage hb hc.silent hj
  have hkept := (FlowM.yields_handleArm hstage.sound hb hi (by rw [hj]; rfl)).of_ok hok
  simp only [yields_bind, yields_pure]
  refine ⟨done, result, hok, ?_⟩
  -- and so are those after it
  refine (FlowM.yields_handleJumps_quiet hlaid.sound later (fun k hk => ?_) ?_).mono ?_
  · exact hkept.length ▸ hlt k (by simp [hk])
  · intro k hk hopen
    have hleft := (hlaid.mem _).2 ⟨k, hopen, rfl⟩
    rcases List.mem_append.1 hleft with hleft | hleft
    · refine Or.inl ?_
      split at hleft
      · rw [List.mem_singleton.1 hleft]
        rfl
      · cases hleft
    · refine absurd ?_ (hother k (by simp [hk]))
      have hsame := List.mem_singleton.1 hleft
      refine hstage.sound.once k i (hkept.length ▸ hopen.1) hi.1 ?_ ?_
      · rw [← hkept.kind, hsame, hj]
      · rw [← hkept.start, hsame, hj]
  · intro _ final hfinal
    rw [hfinal, hlaid.reads]

/-- A function with a switch in it shows the switch as it is printed. -/
theorem shows {name : String} {console : Console} (hc : t.Compiled finish.offset)
    (hp : ∀ line ∈ before ++ finish :: after, (statement? line).isSome)
    (hl : Liftable (before ++ (t.code ++ finish :: after)) {})
    (hbare : .number (-1) ∉ offsetsOf (before ++ (t.code ++ finish :: after))) :
    ∃ out console', liftCode name (before ++ (t.code ++ finish :: after)) {} console = .ok out console' ∧
      (out.map (·.rendered)).filter (· ≠ "") = "\x7b" :: (Loop.shown before ++
        (t.printed ++ (Loop.shown (finish :: after) ++ ["\x7d"]))) := by
  obtain ⟨out, console', hok, hshown⟩ := @shows_of_readied name _ _ _ console hl fun _ _ hr =>
    hc.yields_handleJumps hp hbare hr
  rw [shownOf_append, shownOf_append, t.shown_laid, shownOf_asRead, shownOf_asRead, List.append_assoc,
    List.append_assoc] at hshown
  exact ⟨out, console', hok, hshown⟩

end Compiled

end TableSwitch

/-- A table switch is shown case by case, however many cases it has, and whatever statements stand around it. All
cases but the last are shown with their lines and a break; the break of the last is shown with the default, or not
at all. -/
theorem liftCode_shows_switch {name : String} {before after : List CodeLine} {t : TableSwitch} {finish : CodeLine}
    {console : Console} (hc : t.Compiled finish.offset)
    (hp : ∀ line ∈ before ++ finish :: after, (statement? line).isSome)
    (ha : Ascending (offsetsOf (before ++ (t.code ++ finish :: after))))
    (hbare : .number (-1) ∉ offsetsOf (before ++ (t.code ++ finish :: after)))
    (hs : ∀ o ∈ offsetsOf (before ++ (t.code ++ finish :: after)), (Binary64.nearestWhole? o.value).isSome) :
    ∃ out console', liftCode name (before ++ (t.code ++ finish :: after)) {} console = .ok out console' ∧
      (out.map (·.rendered)).filter (· ≠ "") = "\x7b" :: (Loop.shown before ++
        (t.printed ++ (Loop.shown (finish :: after) ++ ["\x7d"]))) :=
  hc.shows hp (hc.liftable hp ha hbare hs) hbare

/-- A switch with two cases, whose default ends with a given instruction. -/
def twoCaseSwitch (last : String) : TableSwitch where
  switch := twoSwitchAt 2
  skip := { offset := .number 8, instruction := "Jump [10] (0x1 @ 18)" }
  bodies := [
    { key := 0, head := zeroAt 10, more := [],
      exit := { offset := .number 12, instruction := "Jump [10] (0x1 @ 22)" } }]
  final :=
    { key := 1, head := { offset := .number 14, instruction := "LdaNull" }, more := [],
      exit := { offset := .number 16, instruction := "Jump [6] (0x1 @ 22)" } }
  fallback := [{ offset := .number 18, instruction := "Star r1" }]
  last := { offset := .number 20, instruction := last }

theorem compiled_twoCaseSwitch {last : String} (h : (statement? { offset := .number 20, instruction := last }).isSome) :
    (twoCaseSwitch last).Compiled (.number 22) where
  switches := by
    change operator (twoSwitchAt 2) = _
    rw [operator, parts_twoSwitchAt]
  table := by
    refine ⟨twoCases, ?_, rfl⟩
    change caseTable (operands (twoSwitchAt 2)) = _
    rw [operands_twoSwitchAt, caseTable_twoOperands]
  skips := by
    change JumpsTo "Jump" (.number 18) { offset := .number 8, instruction := "Jump [10] (0x1 @ 18)" }
    exact ⟨by decide, 18, rfl, rfl⟩
  exits := by
    intro b hb
    simp only [twoCaseSwitch, TableSwitch.cases, List.cons_append, List.nil_append, List.mem_cons, List.not_mem_nil,
      or_false] at hb
    rcases hb with rfl | rfl
    · exact ⟨by decide, 22, rfl, rfl⟩
    · exact ⟨by decide, 22, rfl, rfl⟩
  plain := by
    have hrest : ∀ line ∈ [zeroAt 10, { offset := .number 14, instruction := "LdaNull" },
        { offset := .number 18, instruction := "Star r1" }], (statement? line).isSome := by decide +kernel
    intro line hl
    have hm : line ∈ [zeroAt 10, { offset := .number 14, instruction := "LdaNull" },
        { offset := .number 18, instruction := "Star r1" }] ++ [(twoCaseSwitch last).last] := by
      simpa [twoCaseSwitch, TableSwitch.cases, CaseBody.lines] using hl
    rcases List.mem_append.1 hm with hm | hm
    · exact hrest line hm
    · exact List.mem_singleton.1 hm ▸ h

theorem liftCode_shows_bracedDefault :
    (twoCaseSwitch "CreateEmptyObjectLiteral").Compiled (.number 22) ∧ ∃ out console',
      liftCode "f" (zeroAt 0 :: ((twoCaseSwitch "CreateEmptyObjectLiteral").code ++ [returnAt 22])) {} {} =
        .ok out console' ∧
      (out.map (·.rendered)).filter (· ≠ "") =
        ["\x7b", "ACCU = 0", "switch (ACCU)", "default:", "\x7b", "break", "\x7d", "case (0):", "\x7b", "ACCU = 0",
        "break", "\x7d", "case (1):", "\x7b", "ACCU = null", "break", "\x7d", "default:", "\x7b", "r1 = ACCU", "\x7d",
          "ACCU = \x7b\x7d", "return ACCU", "\x7d"] := by
  have hc := @compiled_twoCaseSwitch "CreateEmptyObjectLiteral" (by decide +kernel)
  obtain ⟨out, console', hok, hshown⟩ := @liftCode_shows_switch "f" [zeroAt 0] []
    (twoCaseSwitch "CreateEmptyObjectLiteral") (returnAt 22) {} hc (by decide +kernel) (by decide +kernel)
    (by decide +kernel) (by decide +kernel)
  exact ⟨hc, out, console', hok, hshown.trans (by decide +kernel)⟩

/-- Not every case is shown with its break, nor the default without one: the exit of the last case stands in the
default. -/
theorem liftCode_shows_strayBreak : (twoCaseSwitch "Star r2").Compiled (.number 22) ∧ ∃ out console',
    liftCode "f" (zeroAt 0 :: ((twoCaseSwitch "Star r2").code ++ [returnAt 22])) {} {} = .ok out console' ∧
      (out.map (·.rendered)).filter (· ≠ "") =
        ["\x7b", "ACCU = 0", "switch (ACCU)", "default:", "\x7b", "break", "\x7d", "case (0):", "\x7b", "ACCU = 0",
        "break",
          "\x7d", "case (1):", "\x7b", "ACCU = null", "\x7d", "default:", "\x7b", "break", "r1 = ACCU", "r2 = ACCU",
          "\x7d", "return ACCU", "\x7d"] := by
  have hc := @compiled_twoCaseSwitch "Star r2" (by decide +kernel)
  have hp : ∀ line ∈ [zeroAt 0] ++ [returnAt 22], (statement? line).isSome := by decide +kernel
  have hbare : .number (-1) ∉ offsetsOf ([zeroAt 0] ++ ((twoCaseSwitch "Star r2").code ++ [returnAt 22])) := by
    decide +kernel
  have hl := hc.liftable hp (by decide +kernel) hbare (by decide +kernel)
  obtain ⟨out, console', hok, hshown⟩ := @TableSwitch.Compiled.shows (twoCaseSwitch "Star r2") [zeroAt 0] []
    (returnAt 22) "f" {} hc hp hl hbare
  exact ⟨hc, out, console', hok, hshown.trans (by decide +kernel)⟩

end Bytelift
