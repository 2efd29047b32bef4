import Bytelift.Proofs.Lifting

/-! How a table switch is laid out, arm by arm. Before the first case stands the jump to the default, and before
every other the exit of the case before it; each is shown as a break when the case after it is opened. So the
exit of the last case is still open when all cases are, and what becomes of it depends on where the breaks go. -/

namespace Bytelift

open Run Text Instruction

/-- A case of a table switch over the lines of its code: the lines of its body, and the jump at its end. -/
structure CaseBody where
  key : Int
  head : CodeLine
  more : List CodeLine
  exit : CodeLine

namespace CaseBody

def lines (b : CaseBody) : List CodeLine := b.head :: b.more

def code (b : CaseBody) : List CodeLine := b.lines ++ [b.exit]

def label (b : CaseBody) : String := caseLabel (toString b.key)

def startOf : List CaseBody → Offset
  | [] => .number (-1)
  | b :: _ => b.head.offset

def armJump (last : Offset) (b : CaseBody) (after : List CaseBody) : Jump :=
  { kind := .arm, start := b.head.offset, stop := startOf after, arm := some ⟨b.label, last⟩ }

def arms (last : Offset) : List CaseBody → List Jump
  | [] => []
  | b :: after => b.armJump last after :: arms last after

def opened (b : CaseBody) : CodeLine :=
  b.head.reading ("\n\x7d\n" ++ b.label ++ "\n\x7b\n" ++ textOf b.head)

/-- The lines of some cases, once they are opened, from the jump before the first to the exit of the last, which
is left out. -/
def laid : CodeLine → List CaseBody → List CodeLine
  | _, [] => []
  | skip, b :: after => skip.reading "break" :: b.opened :: (asRead b.more ++ laid b.exit after)

/-- The last of the jumps before, between and after some cases. -/
def lastExit : CodeLine → List CaseBody → CodeLine
  | skip, [] => skip
  | _, b :: after => lastExit b.exit after

end CaseBody

theorem Flow.marked_skip {flow : Flow} {j : Jump} (hk : j.kind = .skip) (keyword : String) :
    flow.marked keyword j "" = keyword := by
  unfold Flow.marked
  rw [if_neg (by simp [hk])]
  split <;> simp

namespace CaseBody

variable {flow : Flow} {before after : List CodeLine} {skip : CodeLine} {others : List Jump}
  {goal finish last previous : Offset} {b : CaseBody} {bodies : List CaseBody}

theorem kind_of_mem_arms {j : Jump} (hj : j ∈ arms last bodies) : j.kind = .arm := by
  induction bodies with
  | nil => cases hj
  | cons b bodies ih =>
    rcases List.mem_cons.1 hj with rfl | hj
    · rfl
    · exact ih hj

theorem exit_mem {c : CaseBody} (hc : c ∈ bodies) : c.exit.offset ∈ (bodies.flatMap code).map (·.offset) :=
  List.mem_map_of_mem (List.mem_flatMap.2 ⟨c, hc, by simp [code]⟩)

/-- What is in order before some cases are opened: the jump before the first goes past it, and the exits of all
go to one line further on. -/
structure Opening (before after : List CodeLine) (skip : CodeLine) (goal finish last : Offset) (others : List Jump)
    (bodies : List CaseBody) (flow : Flow) : Prop where
  stage : flow.Stage (before ++ skip.reading "" :: (asRead (bodies.flatMap code) ++ after))
    (skipJump skip goal :: ((bodies.map fun b => skipJump b.exit finish) ++ (arms last bodies ++ others))) []
  bare : .number (-1) ∉ flow.offsets
  reads : ∀ b ∈ bodies, textOf b.exit = ""
  past : skip.offset.value < goal.value
  ends : ∀ b ∈ bodies, b.exit.offset.value < finish.value
  others : ∀ j ∈ others, ¬j.MayLeave

/-- Opening one case shows the jump before it as a break. -/
theorem Opening.step {i bound : Nat} {wanted : List Offset → Flow → Prop}
    (h : Opening before after skip goal finish last others (b :: bodies) flow)
    (hp : previous.isNumber) (hle : previous.value ≤ skip.offset.value) (hi : flow.Open i)
    (hj : flow.jump i = b.armJump last bodies)
    (hw : ∀ result : Flow, Opening (before ++ skip.reading "break" :: b.opened :: asRead b.more) after b.exit
      finish finish last others bodies result → Yields (FlowM.layOutArms bound b.head.offset
        ((result.table .arm).get? (startOf bodies))) result fun ends => wanted (goal :: ends)) :
    Yields (FlowM.layOutArms (bound + 1) previous (some i)) flow wanted := by
  have hread : textOf b.exit = "" := h.reads b (by simp)
  have hlines : before ++ skip.reading "" :: (asRead ((b :: bodies).flatMap code) ++ after) =
      (before ++ [skip.reading ""]) ++ b.head.reading (textOf b.head) ::
        (asRead b.more ++ b.exit.reading "" :: (asRead (bodies.flatMap code) ++ after)) := by
    simp [code, lines, hread]
  have hstage := hlines ▸ h.stage
  simp only [FlowM.layOutArms, yields_bind, FlowM.yields_jump, FlowM.armOf, yields_need, hj, armJump]
  refine ⟨_, rfl, hstage.yields_prepend rfl fun opened hkept hopened => ?_⟩
  obtain ⟨hi, hsame⟩ := hkept.same i hi (by simp [hj, arms])
  rw [List.append_assoc, List.singleton_append, CodeLine.reading_reading, CodeLine.rendered_reading] at hopened
  have hadj : Adjacent opened.offsets skip.offset b.head.offset := by
    refine ⟨before.map (·.offset), (asRead b.more ++ b.exit.reading "" ::
      (asRead (bodies.flatMap code) ++ after)).map (·.offset), ?_⟩
    rw [hopened.offsets_eq]
    simp
  rw [FlowM.yields_neighbour]
  refine ⟨skip.offset, Flow.neighbour_neg_one hopened.sound.ascending hadj, ?_⟩
  refine (hopened.yields_markBreaks_one hp (hopened.sound.ascending.numbers _ hadj.left) (Or.inr rfl) rfl
    ⟨hle, le_rfl, h.past⟩ ?_).mono ?_
  · -- the exits of the cases come after the range, and nothing else can leave it
    intro j hm hmay hleaves
    rcases List.mem_append.1 hm with hm | hm
    · obtain ⟨c, hc, rfl⟩ := List.mem_map.1 hm
      have hlater := hopened.ascending
      rw [List.map_append, List.map_cons] at hlater
      have hlt := hlater.lt_of_split (b := c.exit.offset) (by
        rcases List.mem_cons.1 hc with rfl | hc
        · simp
        · simp [exit_mem hc])
      exact absurd hleaves.2.1 (Int.not_le.2 hlt)
    · rcases List.mem_append.1 hm with hm | hm
      · rcases hmay with hk | hk <;> simp [kind_of_mem_arms hm] at hk
      · exact h.others j hm hmay
  · intro ends shown hends
    obtain ⟨rfl, hkept, hshown⟩ := hends
    rw [CodeLine.reading_reading, CodeLine.rendered_reading, Flow.marked_skip rfl] at hshown
    have hfirst : ((b :: bodies).map (fun b => skipJump b.exit finish) ++ (arms last (b :: bodies) ++ others)).Perm
        (b.armJump last bodies :: ((b :: bodies).map (fun b => skipJump b.exit finish) ++
          (arms last bodies ++ others))) :=
      List.perm_middle
    obtain ⟨hi, hshownSame⟩ := hkept.same i hi (hfirst.mem_iff.2 (by simp [hsame, hj]))
    refine (hshown.perm hfirst).yields_retire hi (hshownSame.trans (hsame.trans hj)) fun result _ hresult => ?_
    rw [FlowM.yields_filedAt? (by simp [JumpKind.recorded])]
    refine (hw result ⟨?_, ?_, fun c hc => h.reads c (List.mem_cons_of_mem b hc), h.ends b (by simp),
      fun c hc => h.ends c (List.mem_cons_of_mem b hc), h.others⟩).mono fun ends result hends => yields_pure.2 hends
    · have hrest : before ++ skip.reading "break" :: b.opened :: (asRead b.more ++ b.exit.reading "" ::
          (asRead (bodies.flatMap code) ++ after)) = (before ++ skip.reading "break" :: b.opened :: asRead b.more) ++
            b.exit.reading "" :: (asRead (bodies.flatMap code) ++ after) := by simp
      exact hrest ▸ hresult
    · have hbare := h.bare
      rw [hstage.offsets_eq] at hbare
      rw [hresult.offsets_eq]
      simpa using hbare

/-- Where the breaks go that opening some cases shows. -/
def endsOf (finish : Offset) : Offset → List CaseBody → List Offset
  | _, [] => []
  | goal, _ :: bodies => goal :: endsOf finish finish bodies

def lastGoal (finish : Offset) : Offset → List CaseBody → Offset
  | goal, [] => goal
  | _, _ :: bodies => lastGoal finish finish bodies

/-- Opening all cases shows every jump before a case as a break, and leaves the last exit. -/
theorem Opening.run : ∀ (bodies : List CaseBody) {flow : Flow} {before : List CodeLine} {skip : CodeLine}
    {goal previous : Offset} {bound : Nat}, Opening before after skip goal finish last others bodies flow →
    previous.isNumber → previous.value ≤ skip.offset.value → bodies.length ≤ bound →
    Yields (FlowM.layOutArms bound previous ((flow.table .arm).get? (startOf bodies))) flow fun ends result =>
      ends = endsOf finish goal bodies ∧
        result.Stage (before ++ (laid skip bodies ++ (lastExit skip bodies).reading "" :: after))
          (skipJump (lastExit skip bodies) (lastGoal finish goal bodies) :: others) []
  | [], flow, before, skip, goal, previous, bound, h, _, _, _ => by
    have hnone : (flow.table .arm).get? (startOf []) = none := by
      by_contra hsome
      obtain ⟨i, hi⟩ := Option.ne_none_iff_exists'.1 hsome
      obtain ⟨ho, hk, hstart⟩ := (h.stage.sound.filed _ _ _ (by simp)).1 (h.stage.sound.lookup.1 hi)
      have haimed := h.stage.sound.aimed i ho
      unfold Flow.Aimed at haimed
      rw [hk, hstart] at haimed
      exact h.bare haimed.1
    rw [hnone]
    have hstage := h.stage
    cases bound <;> exact yields_pure.2 ⟨rfl, hstage⟩
  | b :: bodies, flow, before, skip, goal, previous, 0, _, _, _, hb => absurd hb (by simp)
  | b :: bodies, flow, before, skip, goal, previous, bound + 1, h, hp, hle, hb => by
    obtain ⟨i, hi, hj, hget⟩ := h.stage.lookup (j := b.armJump last bodies) (by simp [arms]) (by simp [armJump])
    rw [show (flow.table .arm).get? (startOf (b :: bodies)) = some i from hget]
    refine h.step hp hle hi hj ?_
    intro result hresult
    have hasc : Ascending ((before.map (·.offset) ++ [skip.offset]) ++ b.head.offset ::
        (b.more.map (·.offset) ++ b.exit.offset ::
          ((bodies.flatMap code).map (·.offset) ++ after.map (·.offset)))) := by
      simpa [code, lines] using h.stage.ascending
    refine (Opening.run bodies hresult (hasc.numbers _ (by simp)) ?_ (by simpa using hb)).mono ?_
    · exact Int.le_of_lt (hasc.lt_of_split (by simp))
    · intro ends final hfinal
      obtain ⟨hends, hstage⟩ := hfinal
      refine ⟨by rw [hends]; rfl, ?_⟩
      simpa [laid, lastExit, lastGoal] using hstage

theorem lastExit_append (skip : CodeLine) (bodies : List CaseBody) (b : CaseBody) :
    lastExit skip (bodies ++ [b]) = b.exit := by
  induction bodies generalizing skip with
  | nil => rfl
  | cons c bodies ih => exact ih c.exit

theorem lastGoal_append (finish goal : Offset) (bodies : List CaseBody) (b : CaseBody) :
    lastGoal finish goal (bodies ++ [b]) = finish := by
  induction bodies generalizing goal with
  | nil => rfl
  | cons c bodies ih => exact ih finish

theorem endsOf_append (finish goal : Offset) (bodies : List CaseBody) (b : CaseBody) :
    endsOf finish goal (bodies ++ [b]) = goal :: bodies.map fun _ => finish := by
  induction bodies generalizing goal with
  | nil => rfl
  | cons c bodies ih =>
    rw [List.cons_append, endsOf, ih]
    rfl

theorem length_arms (last : Offset) (bodies : List CaseBody) : (arms last bodies).length = bodies.length := by
  induction bodies with
  | nil => rfl
  | cons b bodies ih => rw [arms, List.length_cons, ih, List.length_cons]

end CaseBody

/-- Offsets are sorted to what lists them in order. -/
theorem Offset.ascending?_eq {offsets sorted : List Offset} (hn : ∀ o ∈ offsets, o.isNumber)
    (hs : sorted.Pairwise fun a b => a.value < b.value) (hm : ∀ o, o ∈ sorted ↔ o ∈ offsets) :
    ascending? offsets = some sorted := by
  obtain ⟨found, he, hfound, hgrows⟩ := ascending?_of_number hn
  have hdistinct : ∀ {xs : List Offset}, xs.Pairwise (fun a b => a.value < b.value) → xs.Nodup := by
    intro xs hxs
    refine hxs.imp ?_
    rintro a b hab rfl
    exact Int.lt_irrefl _ hab
  have hperm : found.Perm sorted := (List.perm_ext_iff_of_nodup (hdistinct hgrows) (hdistinct hs)).2 fun o =>
    (hfound o).trans (hm o).symm
  rw [he, hperm.eq_of_pairwise (fun a b _ _ hab hba => absurd hab (Int.not_lt.2 (Int.le_of_lt hba))) hgrows hs]

/-- Offsets that all lie after a start are sorted, and none is left out. -/
theorem Offset.sorted_after {start : Offset} {offsets sorted : List Offset} (hs : start.isNumber)
    (hn : ∀ o ∈ sorted, o.isNumber) (hgrows : sorted.Pairwise fun a b => a.value < b.value)
    (hm : ∀ o, o ∈ sorted ↔ o ∈ offsets) (hlt : ∀ o ∈ sorted, start.value < o.value) :
    ascending? offsets = some sorted ∧ sorted.filterM start.lt? = some sorted := by
  have hafter : ∀ o ∈ sorted, start.lt? o = some true := by
    intro o ho
    rw [Offset.lt?_of_number hs (hn o ho), decide_eq_true (hlt o ho)]
  exact ⟨ascending?_eq (fun o ho => hn o ((hm o).2 ho)) hgrows hm, by simpa using FlowM.filterM_of_some hafter⟩

/-- No more jumps are open than there are. -/
theorem Flow.Stage.length_le {flow : Flow} {lines : List CodeLine} {pending : List Jump}
    {handlers : List (Offset × Offset)}
    (h : flow.Stage lines pending handlers) : pending.length ≤ flow.jumps.length := by
  refine (h.distinct.subperm fun j hj => ?_).length_le
  obtain ⟨i, hi, rfl⟩ := (h.mem j).1 hj
  rw [Flow.jump, List.getElem?_eq_getElem hi.1, Option.getD_some]
  exact List.getElem_mem hi.1

namespace Flow.Stage

variable {flow : Flow} {before middle after : List CodeLine} {exit last : CodeLine} {pending others : List Jump}
  {start : Offset} {text : String}

/-- If all breaks go to one line, the last case closes there. -/
theorem yields_closeArms_one (h : flow.Stage (before ++ exit.reading "" :: after) pending []) (hs : start.isNumber)
    (hlt : start.value < exit.offset.value) : Yields (FlowM.closeArms start [exit.offset]) flow fun _ result =>
      result.Stage (before ++ exit.reading (closeText "") :: after) pending [] := by
  have hnumber : exit.offset.isNumber := h.ascending.numbers _ (by simp)
  obtain ⟨hsorted, hafter⟩ := @Offset.sorted_after start [exit.offset] [exit.offset] hs (by simpa using hnumber)
    (by simp) (by simp) (by simpa using hlt)
  simp only [FlowM.closeArms, yields_bind, FlowM.yields_settled]
  refine ⟨_, hsorted, _, hafter, ?_⟩
  simp only [List.reverse_singleton, yields_bind]
  refine h.yields_closeBlock hs rfl fun result _ hresult => ?_
  exact yields_pure.2 hresult

/-- If breaks go to two lines, what lies between them is the default, and the exit of the last case is shown where
the default opens. -/
theorem yields_closeArms_two
    (h : flow.Stage (before ++ exit.reading "" :: (middle ++ last.reading text :: after))
      (skipJump exit last.offset :: others) []) (ho : ∀ j ∈ others, ¬j.MayLeave) (hs : start.isNumber)
    (hlt : start.value < exit.offset.value) {ends : List Offset}
    (hm : ∀ o, o ∈ [exit.offset, last.offset] ↔ o ∈ ends) :
    Yields (FlowM.closeArms start ends) flow fun _ result => result.Stage (before ++
      exit.reading (if has text "\x7b" then "break" ++ FlowM.defaultStart else FlowM.defaultStart ++ "break") ::
        (middle ++ last.reading (closeText text) :: after)) others [] := by
  have hasc : Ascending (before.map (·.offset) ++ exit.offset ::
      (middle.map (·.offset) ++ last.offset :: after.map (·.offset))) := by simpa using h.ascending
  have hexit : exit.offset.isNumber := hasc.numbers _ (by simp)
  have hlast : last.offset.isNumber := hasc.numbers _ (by simp)
  have hbetween : exit.offset.value < last.offset.value := hasc.lt_of_split (by simp)
  obtain ⟨hsorted, hafter⟩ := @Offset.sorted_after start ends [exit.offset, last.offset] hs (by simp [hexit, hlast])
    (by simpa using hbetween) hm (by simpa using ⟨hlt, Int.lt_trans hlt hbetween⟩)
  simp only [FlowM.closeArms, yields_bind, FlowM.yields_settled]
  refine ⟨_, hsorted, _, hafter, ?_⟩
  simp only [List.reverse_cons, List.reverse_nil, List.nil_append, List.cons_append, yields_bind]
  refine h.yields_append rfl fun opened _ hopened => ?_
  rw [CodeLine.reading_reading, CodeLine.rendered_reading, String.empty_append] at hopened
  have hlines : ∀ (text shown : String), before ++ exit.reading shown :: (middle ++ last.reading text :: after) =
      (before ++ exit.reading shown :: middle) ++ last.reading text :: after := by simp
  refine (hlines _ _ ▸ hopened).yields_closeBlock hexit rfl fun closed _ hclosed => ?_
  rw [CodeLine.reading_reading, CodeLine.rendered_reading, ← hlines] at hclosed
  -- the range of the default starts with the last exit, which goes to its end
  have hmem : ∀ line ∈ [exit, last], line.offset ∈ closed.offsets := by
    intro line hl
    rw [hclosed.offsets_eq]
    simp only [List.mem_cons, List.not_mem_nil, or_false] at hl
    rcases hl with rfl | rfl <;> simp
  have hsound := hclosed.sound.ascending
  obtain ⟨near, hnear⟩ := hsound.exists_previous (hmem last (by simp)) (hmem exit (by simp)) hbetween
  have hle : exit.offset.value ≤ near.value :=
    (hnear.le_or_le hsound (hmem exit (by simp))).resolve_right (Int.not_le.2 hbetween)
  rw [FlowM.yields_neighbour]
  refine ⟨near, Flow.neighbour_neg_one hsound hnear, ?_⟩
  refine (hclosed.yields_markBreaks_one hexit (hsound.numbers _ hnear.left) (Or.inr rfl) rfl
    ⟨le_rfl, hle, hnear.lt hsound⟩ fun j hj hmay => absurd hmay (ho j hj)).mono ?_
  intro _ result hresult
  obtain ⟨_, _, hresult⟩ := hresult
  have hclosedText : closed.text last.offset = closeText text :=
    ((hlines _ _ ▸ hclosed : closed.Stage _ _ _)).text_eq
  have hmark : closed.marked "break" (skipJump exit last.offset) FlowM.defaultStart =
      if has text "\x7b" then "break" ++ FlowM.defaultStart else FlowM.defaultStart ++ "break" := by
    unfold Flow.marked
    rw [if_neg (by simp [skipJump])]
    change (if has (closed.text last.offset) _ then _ else _) = _
    rw [hclosedText, has_closeText]
  rw [CodeLine.reading_reading, CodeLine.rendered_reading, hmark] at hresult
  exact yields_pure.2 hresult

end Flow.Stage

/-- A table switch over the lines of its code: the jump to the default, all cases but the last and the last one,
and all lines of the default but the last and the last one. -/
structure TableSwitch where
  switch : CodeLine
  skip : CodeLine
  bodies : List CaseBody
  final : CaseBody
  fallback : List CodeLine
  last : CodeLine

namespace TableSwitch

open CaseBody

def cases (t : TableSwitch) : List CaseBody := t.bodies ++ [t.final]

def code (t : TableSwitch) : List CodeLine :=
  t.switch :: t.skip :: (t.cases.flatMap CaseBody.code ++ (t.fallback ++ [t.last]))

def headJump (t : TableSwitch) : Jump :=
  { kind := .arm, start := t.switch.offset, stop := startOf t.cases, arm := some ⟨switchHeader, t.final.head.offset⟩ }

def jumps (t : TableSwitch) : List Jump :=
  t.headJump :: skipJump t.skip t.final.exit.offset ::
    ((t.cases.map fun b => skipJump b.exit t.last.offset) ++ arms t.final.head.offset t.cases)

/-- The lines of the last exit and of the default, once the switch is laid out. A single case just ends where it
is left. Of several the last exit opens the default, and is shown as a break there or before it. -/
def ending (t : TableSwitch) : List CodeLine :=
  if t.bodies = [] then t.final.exit.reading (closeText "") :: asRead (t.fallback ++ [t.last])
  else t.final.exit.reading (if has (textOf t.last) "\x7b" then "break" ++ FlowM.defaultStart
      else FlowM.defaultStart ++ "break") ::
    (asRead t.fallback ++ [t.last.reading (closeText (textOf t.last))])

def opened (t : TableSwitch) : CodeLine := t.switch.reading ("\n" ++ switchHeader ++ "\n\x7b\n")

def laid (t : TableSwitch) : List CodeLine := t.opened :: (CaseBody.laid t.skip t.cases ++ t.ending)

/-- The jumps that are still open once the switch is laid out. The exit of a single case is shown nowhere. -/
def leftOver (t : TableSwitch) : List Jump :=
  (if t.bodies = [] then [skipJump t.final.exit t.last.offset] else []) ++ [t.headJump]

/-- The jumps of the switch read as nothing. -/
structure Silent (t : TableSwitch) : Prop where
  switch : textOf t.switch = ""
  skip : textOf t.skip = ""
  exits : ∀ b ∈ t.cases, textOf b.exit = ""

variable {flow : Flow} {before after : List CodeLine} {t : TableSwitch}

theorem final_mem (t : TableSwitch) : t.final ∈ t.cases := by simp [cases]

/-- All cases of a switch are opened, and the last exit is left. -/
theorem yields_layOutArms (h : flow.Stage (before ++ t.opened :: t.skip.reading "" ::
      (asRead (t.cases.flatMap CaseBody.code) ++ (asRead (t.fallback ++ [t.last]) ++ after))) t.jumps [])
    (hbare : .number (-1) ∉ flow.offsets) (hs : t.Silent) :
    Yields (FlowM.layOutArms flow.jumps.length t.switch.offset ((flow.table .arm).get? (startOf t.cases))) flow
      fun ends result => ends = t.final.exit.offset :: t.bodies.map (fun _ => t.last.offset) ∧
        result.Stage ((before ++ t.opened :: CaseBody.laid t.skip t.cases) ++ t.final.exit.reading "" ::
          (asRead (t.fallback ++ [t.last]) ++ after)) [skipJump t.final.exit t.last.offset, t.headJump] [] := by
  have hstage : flow.Stage ((before ++ [t.opened]) ++ t.skip.reading "" ::
      (asRead (t.cases.flatMap CaseBody.code) ++ (asRead (t.fallback ++ [t.last]) ++ after))) t.jumps [] := by
    simpa using h
  have hasc := hstage.ascending
  have hsplit : ((before ++ [t.opened]) ++ t.skip.reading "" :: (asRead (t.cases.flatMap CaseBody.code) ++
      (asRead (t.fallback ++ [t.last]) ++ after))).map (·.offset) = (before.map (·.offset) ++ [t.switch.offset]) ++
        (t.skip.offset :: ((t.cases.flatMap CaseBody.code).map (·.offset) ++
          ((t.fallback ++ [t.last]).map (·.offset) ++ after.map (·.offset)))) := by
    simp [opened]
  have hcases := hsplit.trans ((congrArg _ (List.cons_append (a := t.skip.offset)).symm).trans
    (List.append_assoc _ _ _).symm)
  have hrest : t.jumps.Perm (skipJump t.skip t.final.exit.offset ::
      ((t.cases.map fun b => skipJump b.exit t.last.offset) ++
        (arms t.final.head.offset t.cases ++ [t.headJump]))) := by
    rw [← List.append_assoc, ← List.cons_append]
    exact (List.perm_append_singleton _ _).symm
  have hopening : Opening (before ++ [t.opened]) (asRead (t.fallback ++ [t.last]) ++ after) t.skip
      t.final.exit.offset t.last.offset t.final.head.offset [t.headJump] t.cases flow :=
    { stage := hstage.perm hrest
      bare := hbare
      reads := hs.exits
      past := (hsplit ▸ hasc).lt_of_split (by simp [exit_mem t.final_mem])
      ends := fun b hb => hasc.lt_of_append hcases (by simp [exit_mem hb]) (by simp)
      others := by
        intro j hj hmay
        rw [List.mem_singleton.1 hj] at hmay
        rcases hmay with hk | hk <;> cases hk }
  have hlength : t.cases.length ≤ flow.jumps.length := by
    have hle := h.length_le
    simp only [jumps, List.length_cons, List.length_append, List.length_map, length_arms] at hle
    omega
  refine (hopening.run t.cases (hasc.numbers _ (by simp [opened])) ?_ hlength).mono ?_
  · exact Int.le_of_lt (hasc.lt_of_append hsplit (by simp) (by simp))
  · intro ends result hresult
    obtain ⟨hends, hresult⟩ := hresult
    rw [cases, endsOf_append] at hends
    refine ⟨hends, ?_⟩
    rw [cases, lastExit_append, lastGoal_append] at hresult
    simpa [cases] using hresult

theorem has_switchHeader : has switchHeader "switch" = true := by decide

/-- With all cases opened, the rest of the switch is closed. -/
theorem yields_closeArms {lead : List CodeLine}
    (h : flow.Stage (lead ++ t.final.exit.reading "" :: (asRead (t.fallback ++ [t.last]) ++ after))
      [skipJump t.final.exit t.last.offset, t.headJump] []) (hhead : t.final.head.offset.isNumber)
    (hlt : t.final.head.offset.value < t.final.exit.offset.value) :
    Yields (FlowM.closeArms t.final.head.offset (t.final.exit.offset :: t.bodies.map fun _ => t.last.offset)) flow
      fun _ result => result.Stage (lead ++ (t.ending ++ after)) t.leftOver [] := by
  unfold ending leftOver
  by_cases hone : t.bodies = []
  · rw [if_pos hone, if_pos hone, hone]
    exact h.yields_closeArms_one hhead hlt
  · rw [if_neg hone, if_neg hone]
    have hends : ∀ o, o ∈ [t.final.exit.offset, t.last.offset] ↔
        o ∈ t.final.exit.offset :: t.bodies.map fun _ => t.last.offset := by
      intro o
      simp [hone]
    have hstage : flow.Stage (lead ++ t.final.exit.reading "" :: (asRead t.fallback ++
        t.last.reading (textOf t.last) :: after)) [skipJump t.final.exit t.last.offset, t.headJump] [] := by
      simpa using h
    refine (hstage.yields_closeArms_two ?_ hhead hlt hends).mono ?_
    · intro j hj hmay
      rw [List.mem_singleton.1 hj] at hmay
      rcases hmay with hk | hk <;> cases hk
    · intro _ result hresult
      simpa using hresult

/-- The first line that is left to is that of the last exit. -/
theorem exists_sorted_ends (hexit : t.final.exit.offset.isNumber) (hlast : t.last.offset.isNumber)
    (hlt : t.final.exit.offset.value < t.last.offset.value) : ∃ more,
      Offset.ascending? (t.final.exit.offset :: t.bodies.map fun _ => t.last.offset) =
      some (t.final.exit.offset :: more) := by
  have hnumbers : ∀ o ∈ t.final.exit.offset :: t.bodies.map (fun _ => t.last.offset), o.isNumber := by
    intro o ho
    rcases List.mem_cons.1 ho with rfl | ho
    · exact hexit
    · obtain ⟨_, _, rfl⟩ := List.mem_map.1 ho
      exact hlast
  by_cases hone : t.bodies = []
  · exact ⟨[], Offset.ascending?_eq hnumbers (by simp) (by simp [hone])⟩
  · exact ⟨[t.last.offset], Offset.ascending?_eq hnumbers (by simpa using hlt) (by simp [hone])⟩

/-- A table switch is laid out from the arm that carries the header. -/
theorem yields_handleArm (h : flow.Stage (before ++ (asRead t.code ++ after)) t.jumps [])
    (hbare : .number (-1) ∉ flow.offsets) (hs : t.Silent) {i : Nat} (hj : flow.jump i = t.headJump) :
    Yields (FlowM.handleArm i) flow fun _ result => result.Stage (before ++ (t.laid ++ after)) t.leftOver [] := by
  have hstage : flow.Stage (before ++ t.switch.reading "" :: t.skip.reading "" ::
      (asRead (t.cases.flatMap CaseBody.code) ++ (asRead (t.fallback ++ [t.last]) ++ after))) t.jumps [] := by
    simpa [code, hs.switch, hs.skip] using h
  simp only [FlowM.handleArm, FlowM.layOutTable, yields_bind, FlowM.yields_jump, hj, headJump, FlowM.armOf, yields_need,
    ne_eq, not_true_eq_false, if_false]
  refine ⟨_, rfl, ?_⟩
  rw [if_neg (by simp [has_switchHeader])]
  simp only [yields_bind]
  refine hstage.yields_append rfl fun opened hkept hopened => ?_
  rw [yields_get, FlowM.yields_filedAt? (by simp [JumpKind.recorded])]
  have hbare' : .number (-1) ∉ opened.offsets := by
    rw [hstage.offsets_eq] at hbare
    rw [hopened.offsets_eq]
    simpa using hbare
  refine (yields_layOutArms hopened hbare' hs).mono ?_
  intro ends laid hlaid
  obtain ⟨rfl, hlaid⟩ := hlaid
  -- the first of the ends is the last exit, and no jump is left before it
  have hasc := hlaid.ascending
  have hsplit : ((before ++ t.opened :: CaseBody.laid t.skip t.cases) ++ t.final.exit.reading "" ::
      (asRead (t.fallback ++ [t.last]) ++ after)).map (·.offset) =
        (before ++ t.opened :: CaseBody.laid t.skip t.cases).map (·.offset) ++ t.final.exit.offset ::
          ((t.fallback ++ [t.last]).map (·.offset) ++ after.map (·.offset)) := by simp
  have hexit : t.final.exit.offset ∈ laid.offsets := by rw [hlaid.offsets_eq]; simp
  have hopen : t.opened.offset ∈ laid.offsets := by rw [hlaid.offsets_eq]; simp
  have hnumber := hlaid.sound.ascending.numbers
  have hpast : t.final.exit.offset.value < t.last.offset.value := (hsplit ▸ hasc).lt_of_split (by simp)
  obtain ⟨near, hnear⟩ := hlaid.sound.ascending.exists_previous hexit hopen
    (hasc.lt_of_append hsplit (by simp) (by simp))
  obtain ⟨more, hsorted⟩ := exists_sorted_ends (hnumber _ hexit) (hasc.numbers _ (by simp)) hpast
  have hfinal : Ascending ((before.map (·.offset) ++ t.switch.offset :: t.skip.offset ::
      (t.bodies.flatMap CaseBody.code).map (·.offset)) ++ t.final.head.offset :: (t.final.more.map (·.offset) ++
        t.final.exit.offset :: ((t.fallback ++ [t.last]).map (·.offset) ++ after.map (·.offset)))) := by
    simpa [cases, CaseBody.code, CaseBody.lines] using hstage.ascending
  have hhead : t.final.head.offset.isNumber := hfinal.numbers _ (by simp)
  rw [FlowM.yields_settled]
  refine ⟨_, hsorted, ?_⟩
  simp only [yields_bind]
  rw [FlowM.yields_neighbour]
  refine ⟨near, Flow.neighbour_neg_one hlaid.sound.ascending hnear, ?_⟩
  rw [hlaid.yields_markBreaks_none hhead (hnumber _ hnear.left) ?_, List.append_nil]
  · refine (yields_closeArms hlaid hhead (hfinal.lt_of_split (by simp))).mono ?_
    intro _ result hresult
    simpa [TableSwitch.laid] using hresult
  · intro j hj hmay hleaves
    simp only [List.mem_cons, List.not_mem_nil, or_false] at hj
    rcases hj with rfl | rfl
    · exact absurd hleaves.2.1 (Int.not_le.2 (hnear.lt hlaid.sound.ascending))
    · rcases hmay with hk | hk <;> cases hk

end TableSwitch

end Bytelift
