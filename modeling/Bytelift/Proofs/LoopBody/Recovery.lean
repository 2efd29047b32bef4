import Bytelift.Proofs.Guarded.Recovery
import Bytelift.Proofs.LoopBody.Layout
import Bytelift.Proofs.TableSwitch.Recovery
import Bytelift.Proofs.Wiring

/-! What becomes of the conditionals in a loop. One that the loop starts with, and one with more than four lines
between its end and that of the loop, is shown as a block. Any other is shown as a jump to the next turn, also if
there are statements to come in this one. -/

namespace Bytelift

open Run Text Instruction

open Loop (shown)

/-! ## The order of the jumps -/

/-- A jump goes before another with the same lines if it is listed before it. -/
theorem Jump.Precedes.of_same {a b : Jump} (hf : a.FiledBefore b) (hstart : a.start = b.start)
    (hstop : a.stop = b.stop) : a.Precedes b := by
  refine ⟨Or.inr ⟨?_, ?_⟩, Or.inr hf⟩
  · rw [rank, rank, hstart]
  · rw [rank, rank, hstop]

namespace LoopBody

open BodyPart

variable {flow : Flow} {b : LoopBody} {before after : List CodeLine} {offsets leading trailing : List Offset}

/-- The tests of the loop in the order of its lines. -/
theorem tests_grow {parts : List BodyPart} (ha : Ascending (offsetsOf (parts.flatMap BodyPart.code))) (back : Offset) :
    (parts.flatMap (BodyPart.jumps back)).Pairwise fun a b => a.start.value < b.start.value := by
  have hstarts : ((parts.flatMap (BodyPart.jumps back)).map (·.start)).Sublist
    (offsetsOf (parts.flatMap BodyPart.code)) := by
    rw [offsetsOf, List.map_flatMap, List.map_flatMap]
    refine .flatMap_right _ fun p _ => ?_
    rw [BodyPart.jumps, List.map_map, BodyPart.code, List.map_append]
    exact List.sublist_append_left _ _
  have hgrows := ha.grows.sublist hstarts
  rwa [List.pairwise_map] at hgrows

/-- The jumps of a loop are those of its parts and the one back. -/
theorem jumps_perm (b : LoopBody) :
    ((b.first :: b.rest).flatMap (BodyPart.jumps b.back.offset) ++ [b.loopJump]).Perm b.jumps := by
  have hfirst : b.first.jumps b.back.offset = b.first.early b.back.offset ++ b.first.late b.back.offset := by
    cases b.first <;> simp [early, late, BodyPart.jumps, tests]
  rw [List.flatMap_cons, hfirst, jumps, pending, List.append_assoc, List.append_assoc]
  exact .append_left _ ((List.append_assoc _ _ _).symm ▸ List.perm_append_singleton _ _)

theorem pending_sublist (b : LoopBody) :
    b.pending.Sublist ((b.first :: b.rest).flatMap (BodyPart.jumps b.back.offset)) := by
  rw [List.flatMap_cons, pending]
  refine .append ?_ (List.Sublist.refl _)
  cases b.first with
  | line l => exact List.nil_sublist _
  | leave test => exact List.Sublist.refl _
  | when test body last => exact List.nil_sublist _

/-- The jumps of a loop start and stop on its lines. -/
theorem ends_mem (hs : b.Stands offsets leading trailing) {j : Jump} (hj : j ∈ b.jumps) :
    j.start ∈ offsets ∧ j.stop ∈ offsets := by
  have hline : ∀ {line}, line ∈ (b.first :: b.rest).flatMap BodyPart.code → line.offset ∈ offsets := by
    intro line hl
    have hm : line.offset ∈ offsetsOf ((b.first :: b.rest).flatMap BodyPart.code) := List.mem_map_of_mem hl
    rw [List.flatMap_cons, offsetsOf, List.map_append, List.mem_append] at hm
    rw [hs.split]
    simp only [List.mem_append]
    exact Or.inr (hm.imp id Or.inl)
  have hback : b.back.offset ∈ offsets := by simp [hs.split]
  rcases List.mem_append.1 ((jumps_perm b).mem_iff.2 hj) with hj | hj
  · obtain ⟨p, hp, test, ht, rfl⟩ := exists_test hj
    refine ⟨hline (List.mem_flatMap.2 ⟨p, hp, List.mem_append_left _ ht⟩), ?_⟩
    cases p with
    | line l => exact hback
    | leave test => exact hback
    | when test body last => exact hline (List.mem_flatMap.2 ⟨_, hp, by simp [BodyPart.code, plain]⟩)
  · rw [List.mem_singleton.1 hj]
    refine ⟨?_, hback⟩
    rw [hs.parted]
    exact List.mem_append_left _ (List.mem_append_right _ (Stands.head_mem b.first))

/-- Each jump of a loop goes before the next ones. -/
theorem precedes_jumps (hs : b.Stands offsets leading trailing) (he : ∀ o ∈ offsets, o.Exact) :
    b.jumps.Pairwise Jump.Precedes := by
  have hprecedes : ∀ {i j}, i ∈ b.jumps → j ∈ b.jumps → i.Before j → i.Precedes j := by
    intro i j hi hj hb
    obtain ⟨hstart, hstop⟩ := ends_mem hs hi
    obtain ⟨hstart', hstop'⟩ := ends_mem hs hj
    have hranked := hb.ranked (he _ hstart) (he _ hstop) (he _ hstart') (he _ hstop')
    exact ⟨hranked.1, Or.inl hranked.2⟩
  have hascending : Ascending (offsetsOf ((b.first :: b.rest).flatMap BodyPart.code)) := by
    refine hs.ascending.sublist ?_
    rw [hs.split, List.flatMap_cons, offsetsOf, List.map_append, ← List.append_assoc (offsetsOf b.first.code)]
    exact (List.sublist_append_left _ _).trans (List.sublist_append_right _ _)
  have hrest : ∀ {j}, j ∈ b.rest.flatMap (BodyPart.jumps b.back.offset) → b.first.head.offset.value <
    j.start.value := by
    intro j hj
    obtain ⟨p, hp, test, ht, rfl⟩ := exists_test hj
    exact hs.after_head (List.mem_map_of_mem (List.mem_flatMap.2 ⟨p, hp, List.mem_append_left _ ht⟩))
  have hmem : ∀ {j}, j ∈ b.loopJump :: b.pending → j ∈ b.jumps := fun hj => List.mem_append_right _ hj
  refine List.pairwise_append.2 ⟨?_, List.pairwise_cons.2 ⟨fun j hj => ?_, ?_⟩, fun i hi j hj => ?_⟩
  · cases b.first <;> simp [early, BodyPart.jumps, tests]
  · rcases Stands.cases_of_mem hj with ⟨test, hfirst, rfl⟩ | hin
    · -- a test to leave the loop on its first line: same lines, but loops come first
      exact .of_same (Or.inl ⟨rfl, Or.inl rfl⟩) (by rw [loopJump, hfirst]; rfl) rfl
    · exact hprecedes (hmem (by simp)) (hmem (List.mem_cons_of_mem _ hj)) (Or.inl (hrest hin))
  · refine ((tests_grow hascending b.back.offset).sublist b.pending_sublist).imp_of_mem fun hi hj hlt => ?_
    exact hprecedes (hmem (List.mem_cons_of_mem _ hi)) (hmem (List.mem_cons_of_mem _ hj)) (Or.inl hlt)
  · refine hprecedes (List.mem_append_left _ hi) (hmem hj) ?_
    cases hfirst : b.first with
    | line l => simp [hfirst, early] at hi
    | leave test => simp [hfirst, early] at hi
    | when test body last =>
      rw [hfirst] at hi
      obtain rfl := List.mem_singleton.1 hi
      rcases List.mem_cons.1 hj with rfl | hj
      · have hlast : last.offset ∈ offsetsOf ((b.first :: b.rest).flatMap BodyPart.code) := by
          simp [hfirst, offsetsOf, BodyPart.code, plain]
        exact Or.inr ⟨by rw [loopJump, hfirst]; rfl, (hs.inside hlast).2⟩
      · rcases Stands.cases_of_mem hj with ⟨test', hleave, _⟩ | hin
        · rw [hfirst] at hleave
          cases hleave
        · have hlt := hrest hin
          rw [hfirst] at hlt
          exact Or.inl hlt

end LoopBody

/-! ## What a loop is printed as -/

namespace BodyPart

variable {p : BodyPart} {parts rest : List BodyPart} {back finish : CodeLine} {offsets leading trailing : List Offset}

/-- The lines that a part is shown as, by whether the end of the loop is near. -/
def printed (near : Bool) : BodyPart → List String
  | line l => shown [l]
  | leave _ => ["if (!ACCU) break"]
  | when _ body last =>
    if near then "if (!ACCU) continue" :: shown (body ++ [last]) else blockTo "if (ACCU)" body last

theorem shown_laid (ht : ∀ test ∈ p.tests, textOf test = "if (!ACCU)") (near : Bool) :
    shownOf (p.laid near) = p.printed near := by
  have hbreak : shownLines ("if (!ACCU)" ++ exitText (some "break")) = ["if (!ACCU) break"] := by decide
  have hcontinue : shownLines ("if (!ACCU)" ++ exitText (some "continue")) = ["if (!ACCU) continue"] := by decide
  cases p with
  | line l => simp [laid, marked, tests, plain, printed, shown]
  | leave test =>
    have htest := ht test (by simp [tests])
    simp [laid, marked, tests, plain, word, htest, hbreak, printed]
  | when test body last =>
    have htest := ht test (by simp [tests])
    cases near with
    | true => simp [laid, marked, tests, plain, word, htest, hcontinue, printed, shown]
    | false => simp [laid, htest, Source.shown_openText, printed, blockTo_eq, shown]

theorem shown_along {long : Bool} (ht : ∀ p ∈ parts, ∀ test ∈ p.tests, textOf test = "if (!ACCU)") :
    shownOf (along laid long parts) = along printed long parts := by
  induction parts with
  | nil => rfl
  | cons p rest ih =>
    rw [along, along, shownOf_append, shown_laid (ht p (by simp)), ih fun q hq => ht q (List.mem_cons_of_mem p hq)]

/-! ## The code of a loop -/

def startOf (back : Offset) : List BodyPart → Offset
  | [] => back
  | p :: _ => p.head.offset

def goal (next finish : Offset) : BodyPart → Offset
  | line _ => finish
  | leave _ => finish
  | when _ _ _ => next

/-- The parts as they are compiled: a test to leave the loop goes past it, and that of a conditional past its body. -/
def Compiled (back finish : Offset) : List BodyPart → Prop
  | [] => True
  | p :: rest => (∀ test ∈ p.tests, JumpsTo "JumpIfFalse" (p.goal (startOf back rest) finish) test) ∧
      (∀ line ∈ p.plain, (statement? line).isSome) ∧ Compiled back finish rest

instance decidableCompiled (back finish : Offset) : (parts : List BodyPart) → Decidable (Compiled back finish parts)
  | [] => isTrue trivial
  | _ :: rest =>
    have := decidableCompiled back finish rest
    inferInstanceAs (Decidable (_ ∧ _ ∧ _))

theorem Compiled.textOf_eq {back finish : Offset} (hc : Compiled back finish parts) :
    ∀ p ∈ parts, ∀ test ∈ p.tests, textOf test = "if (!ACCU)" := by
  induction parts with
  | nil => simp
  | cons p rest ih =>
    obtain ⟨htests, _, hrest⟩ := hc
    exact List.forall_mem_cons.2 ⟨fun test ht => (htests test ht).textOf_eq form?_jumpIfFalse, ih hrest⟩

theorem exists_startOf (back : Offset) (trailing : List Offset) (parts : List BodyPart) :
    ∃ more, offsetsOf (parts.flatMap code) ++ back :: trailing = startOf back parts :: more := by
  cases parts with
  | nil => exact ⟨trailing, rfl⟩
  | cons p rest =>
    obtain ⟨more, hmore⟩ := LoopBody.exists_head p
    refine ⟨more ++ (offsetsOf (rest.flatMap code) ++ back :: trailing), ?_⟩
    rw [List.flatMap_cons, offsetsOf, List.map_append, ← offsetsOf, hmore]
    simp [startOf, offsetsOf]

/-- The jumps of the parts. -/
theorem wired (ha : Ascending offsets)
    (hoff : offsets = leading ++ (offsetsOf (parts.flatMap code) ++ back.offset :: finish.offset :: trailing))
    (hc : Compiled back.offset finish.offset parts) :
    Wired offsets (parts.flatMap code) (parts.flatMap (jumps back.offset)) := by
  induction parts generalizing leading with
  | nil => exact .plain (by simp)
  | cons p rest ih =>
    obtain ⟨htests, hplain, hrest⟩ := hc
    have hsplit : offsets = (leading ++ offsetsOf p.code) ++ (offsetsOf (rest.flatMap code) ++
        back.offset :: finish.offset :: trailing) := by
      rw [hoff]
      simp [offsetsOf]
    have hback : Adjacent offsets back.offset finish.offset :=
      ⟨leading ++ offsetsOf p.code ++ offsetsOf (rest.flatMap code), trailing, by rw [hsplit]; simp⟩
    have hadj : Adjacent offsets (p.stop back.offset) (p.goal (startOf back.offset rest) finish.offset) := by
      cases p with
      | line l => exact hback
      | leave test => exact hback
      | when test body last =>
        obtain ⟨more, hmore⟩ := exists_startOf back.offset (finish.offset :: trailing) rest
        refine ⟨leading ++ test.offset :: offsetsOf body, more, ?_⟩
        rw [hsplit, hmore]
        simp [code, tests, plain, offsetsOf, stop, goal]
    have hle : ∀ test ∈ p.tests, test.offset.value ≤ (p.stop back.offset).value := by
      intro test ht
      cases p with
      | line l => cases ht
      | leave test' =>
        have hm : test.offset ∈ offsetsOf (leave test').code := List.mem_map_of_mem (List.mem_append_left _ ht)
        exact Int.le_of_lt (ha.lt_of_append hsplit (List.mem_append_right _ hm) (by simp [stop]))
      | when test' body last =>
        obtain rfl := List.mem_singleton.1 ht
        have hlast : offsets = leading ++ test.offset ::
          (offsetsOf (body ++ [last]) ++ (offsetsOf (rest.flatMap code) ++
            back.offset :: finish.offset :: trailing)) := by
          rw [hsplit]
          simp [code, tests, plain, offsetsOf]
        exact Int.le_of_lt ((hlast ▸ ha).lt_of_split (by simp [offsetsOf, stop]))
    have htest : ∀ test ∈ p.tests, Wired offsets [test] [p.jump back.offset test] := by
      intro test ht
      refine .ahead ha (htests test ht) form?_jumpIfFalse (Or.inl rfl) ?_ (hle test ht) hadj
      rw [hsplit]
      exact List.mem_append_left _ (List.mem_append_right _ (List.mem_map_of_mem (List.mem_append_left _ ht)))
    have hown : Wired offsets p.code (p.jumps back.offset) := by
      have hjumps := Wired.flatMap htest
      rw [List.flatMap_singleton', ← List.map_eq_flatMap] at hjumps
      simpa [code, jumps] using hjumps.append (.plain hplain)
    rw [List.flatMap_cons, List.flatMap_cons]
    exact hown.append (ih hsplit hrest)

end BodyPart

namespace LoopBody

open BodyPart

variable {flow : Flow} {b : LoopBody} {before after : List CodeLine} {finish : CodeLine}

/-- What a loop is printed as, after a number of lines. A conditional that it starts with is a block; the end of the
loop is near no part if it is among the first five lines of the code. -/
def printed (b : LoopBody) (lead : Nat) : List String :=
  block "while (true)" (b.first.printed false ++
    along BodyPart.printed (decide (5 ≤ lead + ((b.first :: b.rest).flatMap BodyPart.code).length)) b.rest)

/-- A loop as it is compiled, if it is left for an offset. -/
structure Compiled (b : LoopBody) (finish : Offset) : Prop where
  parts : BodyPart.Compiled b.back.offset finish (b.first :: b.rest)
  back : JumpsTo "JumpLoop" b.first.head.offset b.back

theorem shown_opened {lines : List CodeLine} (hne : lines ≠ []) :
    shownOf (opened lines) = "while (true)" :: "\x7b" :: shownOf lines := by
  cases lines with
  | nil => exact absurd rfl hne
  | cons l lines => rw [opened, shownOf_cons, CodeLine.rendered_reading, Loop.shownLines_while]; rfl

/-- Laid out, a loop shows what it is printed as. -/
theorem Compiled.shown_laid {exit : Offset} (hc : b.Compiled exit) (lead : Nat) :
    shownOf (b.laid (decide (5 ≤ lead + ((b.first :: b.rest).flatMap BodyPart.code).length))) = b.printed lead := by
  have htexts := hc.parts.textOf_eq
  have hback : textOf b.back = "" := hc.back.textOf_eq Loop.form?_jumpLoop
  have hclose : shownLines (closeText "") = ["\x7d"] := by decide
  have hne : b.first.laid false ≠ [] := by cases b.first <;> simp [BodyPart.laid, marked, tests, plain]
  rw [laid, shownOf_append, shownOf_append, shown_opened hne, BodyPart.shown_laid (htexts b.first (by simp)),
    shown_along fun p hp => htexts p (List.mem_cons_of_mem _ hp), printed, block]
  simp [hback, hclose]

/-- The jumps of a function with a loop in it. -/
theorem Compiled.wired (hc : b.Compiled finish.offset)
    (hp : ∀ line ∈ before ++ finish :: after, (statement? line).isSome)
    (ha : Ascending (offsetsOf (before ++ (b.code ++ finish :: after)))) :
    Wired (offsetsOf (before ++ (b.code ++ finish :: after))) (before ++ (b.code ++ finish :: after))
      ((b.first :: b.rest).flatMap (BodyPart.jumps b.back.offset) ++ [b.loopJump]) := by
  have hoff : offsetsOf (before ++ (b.code ++ finish :: after)) = offsetsOf before ++
      (offsetsOf ((b.first :: b.rest).flatMap BodyPart.code) ++ b.back.offset :: finish.offset :: offsetsOf after) := by
    simp [offsetsOf, code]
  have hparts := BodyPart.wired ha hoff hc.parts
  have hhead : b.first.head.offset ∈ offsetsOf ((b.first :: b.rest).flatMap BodyPart.code) := by
    rw [List.flatMap_cons, offsetsOf, List.map_append]
    exact List.mem_append_left _ (Stands.head_mem b.first)
  have hback : Wired (offsetsOf (before ++ (b.code ++ finish :: after))) [b.back] [b.loopJump] := by
    refine .back ha hc.back (by simp [hoff]) ?_ ?_
    · rw [hoff]
      exact List.mem_append_right _ (List.mem_append_left _ hhead)
    · exact ha.lt_of_append (hoff.trans (List.append_assoc _ _ _).symm) (List.mem_append_right _ hhead) (by simp)
  have hwired := Wired.append (.plain fun line hl => hp line (List.mem_append_left _ hl))
    ((hparts.append hback).append (.plain fun line hl => hp line (List.mem_append_right _ hl)))
  simpa [code] using hwired

theorem loops_nodup (b : LoopBody) :
    ((((b.first :: b.rest).flatMap (BodyPart.jumps b.back.offset) ++ [b.loopJump]).filter (·.kind = .loop)).map
      (·.start)).Nodup := by
  have hnone : ((b.first :: b.rest).flatMap (BodyPart.jumps b.back.offset)).filter (·.kind = .loop) = [] := by
    refine List.filter_eq_nil_iff.2 fun j hj => ?_
    obtain ⟨p, _, test, _, rfl⟩ := exists_test hj
    simp
  rw [List.filter_append, hnone, List.nil_append]
  simp [loopJump]

/-- The jumps are handled in their order, and so the loop is laid out. -/
theorem yields_handleJumps_ready {order : List Nat} (hr : flow.Readied (before ++ (b.code ++ finish :: after)) {} order)
    (h : flow.Stage (asRead (before ++ (b.code ++ finish :: after)))
      ((b.first :: b.rest).flatMap (BodyPart.jumps b.back.offset) ++ [b.loopJump]) [])
    (he : ∀ o ∈ offsetsOf (before ++ (b.code ++ finish :: after)), o.Exact) :
    Yields (FlowM.handleJumps order) flow fun _ result => result.code = asRead before ++
      (b.laid (decide (5 ≤ before.length + ((b.first :: b.rest).flatMap BodyPart.code).length)) ++
        asRead (finish :: after)) := by
  have hstage : flow.Stage (asRead before ++ (asRead b.code ++ asRead (finish :: after))) b.jumps [] := by
    simpa using h.perm b.jumps_perm
  have hstands : b.Stands flow.offsets (offsetsOf before) (offsetsOf (finish :: after)) := by
    refine ⟨h.sound.ascending, ?_⟩
    rw [hr.offsets]
    simp [offsetsOf, code]
  have hexact : ∀ o ∈ flow.offsets, o.Exact := fun o ho => he o (hr.offsets ▸ ho)
  have hspaced : flow.Spaced := by
    intro i j _ hj _ hskip
    rcases List.mem_append.1 ((h.mem _).2 ⟨j, hr.opens j hj, rfl⟩) with hm | hm
    · obtain ⟨p, _, test, _, hjump⟩ := exists_test hm
      rw [hjump] at hskip
      cases hskip
    · rw [List.mem_singleton.1 hm] at hskip
      cases hskip
  refine yields_handleJumps hstage hspaced (hr.openAs_precedes hstage (precedes_jumps hstands hexact)) ?_
  simp [asRead]

end LoopBody

open LoopBody in
/-- The conditionals in a loop are shown as blocks, but for those near its end: these are shown as jumps to the next
turn, whatever statements stand between them and the end. -/
theorem liftCode_shows_loopBody {name : String} {before after : List CodeLine} {b : LoopBody} {finish : CodeLine}
    {console : Console} (hc : b.Compiled finish.offset)
    (hp : ∀ line ∈ before ++ finish :: after, (statement? line).isSome)
    (ha : Ascending (offsetsOf (before ++ (b.code ++ finish :: after))))
    (he : ∀ o ∈ offsetsOf (before ++ (b.code ++ finish :: after)), o.Exact) :
    ∃ out console', liftCode name (before ++ (b.code ++ finish :: after)) {} console = .ok out console' ∧
      (out.map (·.rendered)).filter (· ≠ "") = "\x7b" :: (shown before ++
        (b.printed before.length ++ (shown (finish :: after) ++ ["\x7d"]))) := by
  obtain ⟨out, console', hok, hout⟩ := @shows_of_wired name _ _ _ console ha (hc.wired hp ha) (loops_nodup b)
    (fun o ho => by rw [he o ho]; rfl) fun _ _ hr hstage => yields_handleJumps_ready hr hstage he
  rw [shownOf_append, shownOf_append, hc.shown_laid, shownOf_asRead, shownOf_asRead, List.append_assoc,
    List.append_assoc] at hout
  exact ⟨out, console', hok, hout⟩

/-- A loop with three conditionals: one that it starts with, one with five lines after it, and one at its end. -/
def threeConditionals : LoopBody where
  first := .when (jumpAt "JumpIfFalse" 0 4) [] (zeroAt 2)
  rest :=
    [.leave (jumpAt "JumpIfFalse" 4 22),
      .when (jumpAt "JumpIfFalse" 6 10) [] { offset := .number 8, instruction := "Star r1" },
      .line { offset := .number 10, instruction := "Ldar r0" },
      .line { offset := .number 12, instruction := "Star r2" },
      .line { offset := .number 14, instruction := "Ldar r1" }, .when (jumpAt "JumpIfFalse" 16 20) []
      { offset := .number 18, instruction := "Star r3" }]
  back := jumpAt "JumpLoop" 20 0

theorem liftCode_shows_threeConditionals : threeConditionals.Compiled (.number 22) ∧ ∃ out console',
    liftCode "f" (threeConditionals.code ++ [returnAt 22]) {} {} = .ok out console' ∧
      (out.map (·.rendered)).filter (· ≠ "") =
        ["\x7b", "while (true)", "\x7b", "if (ACCU)", "\x7b", "ACCU = 0", "\x7d", "if (!ACCU) break", "if (ACCU)",
        "\x7b", "r1 = ACCU", "\x7d", "ACCU = r0", "r2 = ACCU", "ACCU = r1", "if (!ACCU) continue", "r3 = ACCU", "\x7d",
          "return ACCU", "\x7d"] := by
  have hc : threeConditionals.Compiled (.number 22) := ⟨by decide +kernel, by decide +kernel⟩
  obtain ⟨out, console', hok, hshown⟩ := @liftCode_shows_loopBody "f" [] [] threeConditionals (returnAt 22) {} hc
    (by decide +kernel) (by decide +kernel) (by decide +kernel)
  exact ⟨hc, out, console', hok, hshown.trans (by decide +kernel)⟩

def lineAfter : LoopBody where
  first := .line { offset := .number 0, instruction := "Ldar r0" }
  rest :=
    [.leave (jumpAt "JumpIfFalse" 2 14), .line { offset := .number 4, instruction := "Ldar r1" },
      .when (jumpAt "JumpIfFalse" 6 10) [] { offset := .number 8, instruction := "Star r2" },
      .line { offset := .number 10, instruction := "Star r3" }]
  back := jumpAt "JumpLoop" 12 0

/-- The test of the conditional goes to the assignment of `r3`, but is shown as a jump that skips it. -/
theorem liftCode_skips_lineAfter : lineAfter.Compiled (.number 14) ∧ ∃ out console',
    liftCode "f" (lineAfter.code ++ [returnAt 14]) {} {} = .ok out console' ∧
      (out.map (·.rendered)).filter (· ≠ "") =
        ["\x7b", "while (true)", "\x7b", "ACCU = r0", "if (!ACCU) break", "ACCU = r1", "if (!ACCU) continue",
        "r2 = ACCU", "r3 = ACCU", "\x7d", "return ACCU", "\x7d"] := by
  have hc : lineAfter.Compiled (.number 14) := ⟨by decide +kernel, by decide +kernel⟩
  have ha : Ascending (offsetsOf (lineAfter.code ++ [returnAt 14])) := by decide +kernel
  have he : ∀ o ∈ offsetsOf (lineAfter.code ++ [returnAt 14]), o.Exact := by decide +kernel
  obtain ⟨out, console', hok, hshown⟩ := @shows_of_wired "f" _ _ _ {} ha
    (@LoopBody.Compiled.wired _ [] [] (returnAt 14) hc (by decide +kernel) ha) (LoopBody.loops_nodup lineAfter)
    (by decide +kernel) fun _ _ hr hstage => @LoopBody.yields_handleJumps_ready _ lineAfter [] [] (returnAt 14) _ hr
      hstage he
  rw [shownOf_append, shownOf_append, hc.shown_laid, shownOf_asRead, shownOf_asRead] at hshown
  exact ⟨hc, out, console', hok, hshown.trans (by decide +kernel)⟩

end Bytelift
