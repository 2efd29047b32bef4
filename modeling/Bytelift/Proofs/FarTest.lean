import Bytelift.Proofs.Flow.Joining
import Bytelift.Proofs.TableSwitch.Recovery

/-! A test that only steps over a jump. It is told to go where the jump goes, and the jump is dropped. So its
condition is turned round as that of any test that goes past its body; but what it steps over is not the body,
and the lines that it goes to are guarded by the opposite of what takes it there. -/

namespace Bytelift

open Run Text Instruction

namespace Flow

variable {flow : Flow} {lines : List CodeLine} {rest : List Jump} {handlers : List (Offset × Offset)} {i : Nat}
  {j : Jump} {stop : Offset}

/-- A test that is told to go further on. -/
theorem Stage.moved (h : flow.Stage lines (j :: rest) handlers) (hi : flow.OpenAs i j) (hk : j.kind = .test)
    (hs : (flow.moved i stop).Sound) : (flow.moved i stop).Stage lines ({ j with stop } :: rest) handlers := by
  obtain ⟨ho, rfl⟩ := hi
  have hself : (flow.moved i stop).jump i = { flow.jump i with stop } := by rw [jump_moved ho.1, if_pos rfl]
  have hjump : ∀ k, k ≠ i → (flow.moved i stop).jump k = flow.jump k := by
    intro k hne
    rw [jump_moved ho.1, if_neg (Ne.symm hne)]
  have hother : ∀ k, flow.jump k ∈ rest → k ≠ i := by
    intro k hm he
    rw [he] at hm
    exact (List.nodup_cons.1 h.distinct).1 hm
  refine ⟨hs, h.reads, List.nodup_cons.2 ⟨fun hm => ?_, (List.nodup_cons.1 h.distinct).2⟩, fun d => ?_, ?_⟩
  · -- it would be the same jump
    obtain ⟨k, hk, he⟩ := (h.mem _).1 (List.mem_cons_of_mem _ hm)
    rw [← he] at hm
    exact hother k hm (h.sound.once k i hk.1 ho.1 (by rw [he]) (by rw [he]))
  · constructor
    · intro hd
      rcases List.mem_cons.1 hd with rfl | hd
      · exact ⟨i, (open_moved ho.1 stop).2 ho, hself⟩
      · obtain ⟨k, hopen, rfl⟩ := (h.mem d).1 (List.mem_cons_of_mem _ hd)
        exact ⟨k, (open_moved ho.1 stop).2 hopen, hjump k (hother k hd)⟩
    · intro hsome
      obtain ⟨k, hopen, rfl⟩ := hsome
      by_cases he : k = i
      · rw [he, hself]
        exact List.mem_cons_self
      · have hm := (h.mem _).2 ⟨k, (open_moved ho.1 stop).1 hopen, rfl⟩
        rw [hjump k he]
        refine List.mem_cons_of_mem _ ((List.mem_cons.1 hm).resolve_left fun hsame => he ?_)
        exact h.sound.once k i ((open_moved ho.1 stop).1 hopen).1 ho.1 (by rw [hsame]) (by rw [hsame])
  · rw [← h.handled]
    refine List.map_congr_left fun k hm => ?_
    obtain ⟨e, he, rfl⟩ := List.mem_map.1 hm
    have hfiled := h.sound.handlers e.1 e.2 he
    rw [hjump e.2 fun hsame => ?_]
    rw [hsame, hk] at hfiled
    cases hfiled.2.1

end Flow

/-! ## A test alone -/

namespace FlowM

variable {flow : Flow} {i : Nat}

/-- A test alone makes no switch. -/
theorem yields_layOutComparison_alone (h : flow.Sound) (hi : flow.Test i) (hv : (flow.table .test).values = [i])
    {wanted : Bool → Flow → Prop} (hw : wanted false flow) : Yields (layOutComparison i) flow wanted := by
  obtain ⟨hstart, hstop, hle, b, hb, hlt⟩ := h.exit_aimed hi.exit
  have hnumber := h.ascending.numbers
  have hself : isCase? (flow.jump i) (flow.jump i) = some true := by
    rw [isCase?_eq (hnumber _ hstart) (hnumber _ hstop) (hnumber _ hstart) (hnumber _ hstop), Option.some.injEq,
      decide_eq_true_eq]
    exact ⟨le_rfl, hle, le_rfl⟩
  obtain ⟨next, hnext⟩ := h.ascending.exists_next hstart hb (Int.lt_of_le_of_lt hle hlt)
  have hcases : [i].filterM (fun c => isCase? (flow.jump i) (flow.jump c)) = some [i] := by
    have hfilter := @filterM_of_some _ (fun c => isCase? (flow.jump i) (flow.jump c)) (fun _ => true) [i]
      (by simpa using hself)
    simpa using hfilter
  simp only [layOutComparison, yields_bind, yields_jump, hi.2, ne_eq, not_true_eq_false, if_false, yields_get,
    yields_openTests, hv, yields_settled, hcases, yields_need, List.getLast?_singleton, yields_neighbour,
    yields_skipAt?, Option.some.injEq, exists_eq_left', Flow.neighbour_one h.ascending hnext, Except.ok.injEq]
  cases (flow.table .skip).get? next with
  | none => exact yields_pure.2 hw
  | some f =>
    have hone : [(flow.jump i).stop].eraseDups.length < 2 := by
      rw [List.eraseDups_cons]
      simp
    rw [List.map_singleton]
    dsimp only
    rw [if_pos hone, yields_pure]
    exact hw

/-- A test alone that steps over a skip goes where the skip goes. -/
theorem yields_lastTest_alone {f : Nat} (h : flow.Sound) (hv : (flow.table .test).values = [i])
    (hf : flow.Open f) (hk : (flow.jump f).kind = .skip) (hstop : (flow.jump i).stop = (flow.jump f).start)
    (hadj : Adjacent flow.offsets (flow.jump i).start (flow.jump f).start)
    (hs : (flow.moved i (flow.jump f).stop).Sound) :
    Yields (lastTest i) flow fun found result => found = i ∧ result = (flow.moved i (flow.jump f).stop).retired f := by
  have hlt := hadj.lt h.ascending
  have hne := Offset.ne_of_lt hlt
  have hnone : (flow.table .test).get? (flow.jump f).start = none := by
    by_contra hsome
    obtain ⟨k, hk⟩ := Option.ne_none_iff_exists'.1 hsome
    obtain ⟨ho, hkind, hstart⟩ := (h.filed _ _ _ (by simp)).1 (h.lookup.1 hk)
    have hm : k ∈ (flow.table .test).values := (h.mem_values (by simp)).2 ⟨ho, hkind⟩
    rw [hv, List.mem_singleton] at hm
    exact hne (by rw [← hstart, hm])
  have hskip : (flow.table .skip).get? (flow.jump f).start = some f :=
    h.lookup.2 ((h.filed _ _ _ (by simp)).2 ⟨hf, hk, rfl⟩)
  have hlen : f < (flow.moved i (flow.jump f).stop).jumps.length := by simpa using hf.1
  have hbefore : [i].filter (fun c => decide ((flow.jump c).stop = (flow.jump f).start)) = [i] := by simp [hstop]
  simp only [lastTest, chainEnd, followTests, stepOver, testBefore, latest, yields_bind, yields_jump, yields_openTests,
    hv, yields_testAt?, hstop, hnone, yields_pure, yields_skipAt?, hskip, yields_get, hbefore, List.foldlM_nil,
    yields_settled, yields_need, yields_neighbour, Option.some.injEq, exists_eq_left']
  refine ⟨i, rfl, (flow.jump f).start, Flow.neighbour_one h.ascending hadj, ?_⟩
  simp only [hskip, yields_bind, yields_jump, yields_setStop]
  rw [yields_retire (hs.kinds f hlen)]
  exact ⟨trivial, rfl⟩

end FlowM

/-! ## The lines -/

/-- The lines that a jump over a body goes to: the exit of the body before them, and their last line. -/
structure OtherPart where
  exit : CodeLine
  lines : List CodeLine
  last : CodeLine

/-- A test that goes past the jump after it, to a body. The jump goes past the body, and past its exit if there are
lines for the other case. -/
structure FarTest where
  test : CodeLine
  far : CodeLine
  body : List CodeLine
  last : CodeLine
  other : Option OtherPart

namespace OtherPart

def code (p : OtherPart) : List CodeLine := p.exit :: (p.lines ++ [p.last])

def jump (p : OtherPart) : Jump := skipJump p.exit p.last.offset

def laid (p : OtherPart) : List CodeLine :=
  p.exit.reading (elseText (textOf p.exit)) :: (asRead p.lines ++ [p.last.reading (closeText (textOf p.last))])

/-- The lines for the other case, if there are any, and the exit before them. -/
theorem wired {other : Option OtherPart} {offsets leading trailing : List Offset} {finish : Offset}
    (ha : Ascending offsets) (he : ∀ p ∈ other, JumpsTo "Jump" finish p.exit)
    (hplain : ∀ line ∈ other.elim [] (fun p => p.lines ++ [p.last]), (statement? line).isSome)
    (hsplit : offsets = leading ++ (offsetsOf (other.elim [] code) ++ finish :: trailing)) :
    Wired offsets (other.elim [] code) (other.toList.map jump) := by
  cases other with
  | none => exact .plain (by simp)
  | some p =>
    have hlast : Adjacent offsets p.last.offset finish :=
      ⟨leading ++ p.exit.offset :: offsetsOf p.lines, trailing, by simp [hsplit, code, offsetsOf]⟩
    have hexit : p.exit.offset.value < p.last.offset.value := by
      have hparts : offsets = leading ++ p.exit.offset :: (offsetsOf (p.lines ++ [p.last]) ++ finish :: trailing) := by
        simp [hsplit, code, offsetsOf]
      exact (hparts ▸ ha).lt_of_split (by simp [offsetsOf])
    refine Wired.cons (.ahead ha (he p rfl) form?_jump (Or.inr rfl) ?_ (Int.le_of_lt hexit) hlast) (.plain hplain)
    simp [hsplit, code, offsetsOf]

end OtherPart

namespace FarTest

def code (f : FarTest) : List CodeLine := f.test :: f.far :: (f.body ++ f.last :: (f.other.elim [] OtherPart.code))

/-- Where the jump after the test stops: the last line before those that it goes to. -/
def past (f : FarTest) : Offset := f.other.elim f.last.offset (·.exit.offset)

def condition (f : FarTest) (stop : Offset) : Joint := { test := ⟨[], f.test⟩, stop, connective := .and }

def jumps (f : FarTest) : List Jump :=
  (f.condition f.far.offset).jump :: skipJump f.far f.past :: f.other.toList.map OtherPart.jump

def laid (f : FarTest) : List CodeLine :=
  f.test.reading (openText (textOf f.test)) :: (asRead (f.far :: f.body) ++
    f.other.elim [f.last.reading (closeText (textOf f.last))] fun p => asRead [f.last] ++ p.laid)

variable {flow : Flow} {f : FarTest} {before after : List CodeLine} {i : Nat}

theorem past_mem (f : FarTest) : f.past ∈ (f.body ++ f.last :: f.other.elim [] OtherPart.code).map (·.offset) := by
  unfold past
  cases f.other with
  | none => simp
  | some p => simp [OtherPart.code]

theorem order (h : flow.Stage (before ++ (asRead f.code ++ after)) f.jumps []) :
    f.test.offset.value < f.far.offset.value ∧ f.far.offset.value < f.past.value := by
  have hsplit : (before ++ (asRead f.code ++ after)).map (·.offset) = before.map (·.offset) ++ f.test.offset ::
      (f.far.offset :: ((f.body ++ f.last :: f.other.elim [] OtherPart.code).map (·.offset) ++
        after.map (·.offset))) := by
    simp [code]
  have hasc := hsplit ▸ h.ascending
  have hpast := f.past_mem
  refine ⟨hasc.lt_of_split (by simp), ?_⟩
  have hasc' : Ascending ((before.map (·.offset) ++ [f.test.offset]) ++ f.far.offset ::
      ((f.body ++ f.last :: f.other.elim [] OtherPart.code).map (·.offset) ++
        after.map (·.offset))) := by simpa using hasc
  exact hasc'.lt_of_split (List.mem_append_left _ hpast)

/-- The other jumps are skips. -/
theorem cases_of_mem {j : Jump} (hj : j ∈ f.jumps) : j = (f.condition f.far.offset).jump ∨ j.kind = .skip := by
  simp only [jumps, List.mem_cons, List.mem_map] at hj
  rcases hj with rfl | rfl | ⟨p, _, rfl⟩
  · exact Or.inl rfl
  · exact Or.inr rfl
  · exact Or.inr rfl

/-- There is no other test. -/
theorem values_eq (h : flow.Stage (before ++ (asRead f.code ++ after)) f.jumps []) (ho : flow.TestsInOrder)
    (hi : flow.OpenAs i (f.condition f.far.offset).jump) : (flow.table .test).values = [i] := by
  have hall : List.Forall₂ flow.OpenAs (flow.table .test).values [(f.condition f.far.offset).jump] :=
    h.openAs_tests ho ?_ (by simp)
  · obtain ⟨k, _, hk, hnil, hvalues⟩ := List.forall₂_cons_right_iff.1 hall
    cases hnil
    rw [hvalues, h.sound.once k i hk.1.1 hi.1.1 (by rw [hk.2, hi.2]) (by rw [hk.2, hi.2])]
  · intro j
    rw [List.mem_singleton]
    constructor
    · rintro rfl
      exact ⟨by simp [jumps], rfl⟩
    · intro hj
      obtain ⟨hm, hk⟩ := hj
      refine (cases_of_mem hm).resolve_right fun he => ?_
      rw [hk] at he
      cases he

/-- Once it goes past the body, the test is a condition on its own. -/
theorem group (h : flow.Stage (before ++ (asRead f.code ++ after)) f.jumps []) :
    Group flow.offsets [f.condition f.past] (f.condition f.past) f.far.offset (fun _ => .or)
      (f.other.toList.map OtherPart.jump) where
  ends := rfl
  next := by
    refine ⟨before.map (·.offset), (f.body ++ f.last :: f.other.elim [] OtherPart.code).map (·.offset) ++
      after.map (·.offset), ?_⟩
    rw [h.offsets_eq]
    simp [code, condition]
  meaning := by
    obtain ⟨htest, hpast⟩ := order h
    have hover := Int.lt_trans htest hpast
    refine ⟨?_, ?_, ?_, ?_, ?_⟩
    · simpa [condition, Joint.jump] using hover
    · simp [condition, Joint.jump]
    · simpa [condition, Joint.jump] using ⟨Offset.ne_of_lt htest, Offset.ne_of_lt hover⟩
    · have hne := Ne.symm (Offset.ne_of_lt hover)
      simp only [FlowM.Opposed, List.map_singleton, List.forall_mem_singleton]
      exact fun he => absurd he hne
    · simp [condition, Joint.jump, Offset.ne_of_lt hpast]
  connectives := by simp [condition]
  later := by
    intro j hj hk
    obtain ⟨p, _, rfl⟩ := List.mem_map.1 hj
    cases hk

/-- The test is told to go where the jump after it goes, and the jump is dropped. -/
theorem exists_told (h : flow.Stage (before ++ (asRead f.code ++ after)) f.jumps []) (ho : flow.TestsInOrder)
    (hi : flow.OpenAs i (f.condition f.far.offset).jump) :
    ∃ told, Yields (FlowM.lastTest i) flow (fun found result => found = i ∧ result = told) ∧ flow.Follows told ∧
      told.OpenAs i (f.condition f.past).jump ∧ told.Stage (before ++ (asRead f.code ++ after))
        ((f.condition f.past).jump :: f.other.toList.map OtherPart.jump) [] := by
  obtain ⟨k, hk, hfar⟩ := (h.mem (skipJump f.far f.past)).1 (by simp [jumps])
  obtain ⟨hbefore, hover⟩ := order h
  have htest : flow.Test i := ⟨hi.1, by rw [hi.2]; rfl⟩
  have hne : i ≠ k := by
    rintro rfl
    rw [hi.2] at hfar
    cases hfar
  obtain ⟨_, hstop, _, b, hb, hlt⟩ := h.sound.exit_aimed ⟨hk, Or.inr (by rw [hfar]; rfl)⟩
  rw [hfar] at hstop hlt
  have hsound : (flow.moved i f.past).Sound := by
    refine FlowM.moved_sound h.sound htest hstop ?_ hb hlt
    rw [hi.2]
    exact Int.le_of_lt (Int.lt_trans hbefore hover)
  have hmoved : (flow.moved i f.past).Stage _ (skipJump f.far f.past :: (f.condition f.past).jump ::
      f.other.toList.map OtherPart.jump) [] := (h.moved hi rfl hsound).perm (.swap _ _ _)
  have hopen : (flow.moved i f.past).Open k := (Flow.open_moved hi.1.1 _).2 hk
  have hsame : (flow.moved i f.past).jump k = skipJump f.far f.past := by rw [Flow.jump_moved hi.1.1, if_neg hne, hfar]
  have hself : (flow.moved i f.past).OpenAs i (f.condition f.past).jump := by
    refine ⟨(Flow.open_moved hi.1.1 _).2 hi.1, ?_⟩
    rw [Flow.jump_moved hi.1.1, if_pos rfl, hi.2]
    rfl
  have hlast : Yields (FlowM.lastTest i) flow fun found result =>
      found = i ∧ result = (flow.moved i f.past).retired k := by
    have hnext : Adjacent flow.offsets (flow.jump i).start (flow.jump k).start := by
      rw [hi.2, hfar]
      exact (group h).next
    have halone := FlowM.yields_lastTest_alone h.sound (values_eq h ho hi) hk (by rw [hfar]; rfl)
      (by rw [hi.2, hfar]; rfl) hnext (by rw [hfar]; exact hsound)
    rwa [hfar] at halone
  obtain ⟨found, told, hok, rfl, rfl⟩ := hlast
  have hkept := (FlowM.yields_lastTest h.sound htest (by rw [hi.2]; exact Offset.ne_of_lt hbefore)).of_ok hok
  refine ⟨_, ⟨_, _, hok, rfl, rfl⟩, hkept.kept.toFollows, ?_, hmoved.retired hopen hsame⟩
  have hkeeps := (hmoved.keeps_retired hopen hsame).same found hself.1 (by rw [hself.2]; simp)
  exact ⟨hkeeps.1, hkeeps.2.trans hself.2⟩

/-- The body is laid out as that of the test. -/
theorem yields_layOutBody {joined : Flow} (h : joined.Stage (before ++ (Joint.joined "if" [f.condition f.past] ++
      (asRead (f.far :: (f.body ++ f.last :: f.other.elim [] OtherPart.code)) ++ after)))
        (f.other.toList.map OtherPart.jump) []) :
    Yields (FlowM.layOutBody (f.condition f.past).jump) joined fun _ result =>
      result.Stage (before ++ (f.laid ++ after)) [] [] := by
  cases hother : f.other with
  | none =>
    have hplain : joined.Stage (before ++ f.test.reading (Flow.joinText .and "if" (textOf f.test)) ::
        (asRead (f.far :: f.body) ++ f.last.reading (textOf f.last) :: after)) [] [] := by
      simpa [hother, Joint.joined, condition] using h
    refine (hplain.yields_layOutBody_plain rfl (by simp [Flow.closing, condition, Joint.jump, past, hother])
      (by simp)).mono ?_
    intro _ result hresult
    simpa [laid, hother, openText] using hresult.2
  | some p =>
    have hsplit : joined.Stage (before ++ f.test.reading (Flow.joinText .and "if" (textOf f.test)) ::
        (asRead (f.far :: (f.body ++ [f.last])) ++ p.exit.reading (textOf p.exit) ::
          (asRead p.lines ++ p.last.reading (textOf p.last) :: after))) [p.jump] [] := by
      simpa [hother, Joint.joined, condition, OtherPart.code] using h
    refine (hsplit.yields_layOutBody_split rfl (by simp [condition, Joint.jump, past, hother])).mono ?_
    intro _ result hresult
    simpa [laid, hother, openText, OtherPart.laid, elseText] using hresult.2

/-- A test that steps over a jump is laid out as one that goes past the body. -/
theorem yields_handleTest (h : flow.Stage (before ++ (asRead f.code ++ after)) f.jumps []) (ho : flow.TestsInOrder)
    (hi : flow.OpenAs i (f.condition f.far.offset).jump) : Yields (FlowM.handleTest i) flow fun _ result =>
      flow.Follows result ∧ result.Stage (before ++ (f.laid ++ after)) [] [] := by
  have htest : flow.Test i := ⟨hi.1, by rw [hi.2]; rfl⟩
  obtain ⟨told, hlast, hfollows, hcondition, hstage⟩ := exists_told h ho hi
  have hlaid : Yields (FlowM.handleTest i) flow fun _ result => result.Stage (before ++ (f.laid ++ after)) [] [] := by
    rw [FlowM.handleTest, yields_bind]
    refine FlowM.yields_layOutComparison_alone h.sound htest (values_eq h ho hi) ?_
    rw [if_neg (by simp), yields_bind]
    have hgroup := hfollows.offsets.symm ▸ group h
    have hlines : told.Stage (before ++ (asRead ([f.condition f.past].flatMap Joint.code) ++
        (asRead (f.far :: (f.body ++ f.last :: f.other.elim [] OtherPart.code)) ++ after)))
        ([f.condition f.past].map Joint.jump ++ f.other.toList.map OtherPart.jump) [] := by
      simpa [code, condition, Joint.code, Comparison.code] using hstage
    have hstart : (f.condition f.far.offset).jump.start = (f.condition f.past).test.jump.offset := rfl
    refine hgroup.yields_layOutTest hi rfl (Offset.ne_of_lt (order h).1) hstart hlast hcondition (ho.follows hfollows)
      hlines ?_
    intro joined _ hjoined
    exact (yields_layOutBody hjoined).mono fun _ result hresult => yields_pure.2 hresult
  obtain ⟨_, result, hok, hresult⟩ := hlaid
  have hkept := (FlowM.yields_handleTest h.sound htest).of_ok hok
  exact ⟨_, result, hok, hkept.1.toFollows, hresult⟩

/-! ## What it is printed as -/

/-- The line that a condition is shown as which holds if the accumulator is true, or if it is false. -/
def guardText (holds : Bool) : String := if holds then "if (ACCU)" else "if (!ACCU)"

/-- The jump that is taken if the accumulator is true, or if it is false. -/
def operatorOn (taken : Bool) : String := if taken then "JumpIfTrue" else "JumpIfFalse"

theorem form?_operatorOn (taken : Bool) : form? (operatorOn taken) = some (.jump .test (guardText taken)) := by
  cases taken <;> decide

/-- The condition that is shown holds if the jump is not taken. -/
theorem shown_openText (taken : Bool) : shownLines (openText (guardText taken)) = [guardText !taken, "\x7b"] := by
  cases taken <;> decide

/-- What the lines are printed as, if the test goes to the body for one value of the accumulator: this body is
guarded by the other value, and the other lines stand in the else part. -/
def printed (f : FarTest) (taken : Bool) : List String :=
  f.other.elim (blockTo (guardText !taken) f.body f.last) fun p =>
    block (guardText !taken) (Loop.shown (f.body ++ [f.last])) ++ blockTo "else" p.lines p.last

/-! ## The code -/

/-- The lines as they are compiled, if they are left for an offset: the test goes to the body for one value of the
accumulator, and the jump after it past the body. -/
structure Compiled (f : FarTest) (taken : Bool) (finish : Offset) : Prop where
  tests : JumpsTo (operatorOn taken) (f.body.headD f.last).offset f.test
  skips : JumpsTo "Jump" (f.other.elim finish fun p => (p.lines.headD p.last).offset) f.far
  exits : ∀ p ∈ f.other, JumpsTo "Jump" finish p.exit
  plain : ∀ line ∈ f.body ++ f.last :: f.other.elim [] (fun p => p.lines ++ [p.last]), (statement? line).isSome

variable {finish : CodeLine} {taken : Bool} {offsets leading : List Offset}

/-- Laid out, the lines show what they are printed as. -/
theorem Compiled.shown_laid {exit : Offset} (hc : f.Compiled taken exit) : shownOf f.laid = f.printed taken := by
  have htest := hc.tests.textOf_eq (form?_operatorOn taken)
  have hfar := hc.skips.textOf_eq form?_jump
  have hempty : shownLines "" = [] := by decide
  rw [laid, printed, htest]
  cases hother : f.other with
  | none => simp [shown_openText, hfar, hempty, blockTo_eq, Loop.shown]
  | some p =>
    have hexit := (hc.exits p hother).textOf_eq form?_jump
    simp [shown_openText, hfar, hempty, hexit, OtherPart.laid, Source.shown_elseText, block, blockTo_eq, Loop.shown]

/-- The jump after the test stops before the lines that it goes to. -/
theorem adjacent_past (hsplit : offsets = leading ++ f.last.offset :: (offsetsOf (f.other.elim [] OtherPart.code) ++
      finish.offset :: offsetsOf after)) :
    Adjacent offsets f.past (f.other.elim finish.offset fun p => (p.lines.headD p.last).offset) := by
  cases hother : f.other with
  | none => exact ⟨leading, offsetsOf after, by simp [hsplit, hother, past, offsetsOf]⟩
  | some p =>
    have hnext := adjacent_headD (leading ++ [f.last.offset]) (finish.offset :: offsetsOf after) p.exit.offset p.lines
      p.last
    simpa [hsplit, hother, past, OtherPart.code, offsetsOf] using hnext

/-- The jumps of a function with such a test in it. -/
theorem Compiled.wired (hc : f.Compiled taken finish.offset)
    (hp : ∀ line ∈ before ++ finish :: after, (statement? line).isSome)
    (ha : Ascending (offsetsOf (before ++ (f.code ++ finish :: after)))) :
    Wired (offsetsOf (before ++ (f.code ++ finish :: after))) (before ++ (f.code ++ finish :: after)) f.jumps := by
  have hparts : offsetsOf (before ++ (f.code ++ finish :: after)) =
      (offsetsOf before ++ f.test.offset :: f.far.offset :: offsetsOf f.body) ++ f.last.offset ::
        (offsetsOf (f.other.elim [] OtherPart.code) ++ finish.offset :: offsetsOf after) := by
    simp [offsetsOf, code]
  have hhead : Adjacent (offsetsOf (before ++ (f.code ++ finish :: after))) f.far.offset
    (f.body.headD f.last).offset := by
    have hnext := adjacent_headD (offsetsOf before ++ [f.test.offset]) (offsetsOf (f.other.elim [] OtherPart.code) ++
      finish.offset :: offsetsOf after) f.far.offset f.body f.last
    simpa [offsetsOf, code] using hnext
  have hpast := adjacent_past hparts
  have hover := f.past_mem
  generalize offsetsOf (before ++ (f.code ++ finish :: after)) = offsets at ha hparts hhead hpast ⊢
  have hsplit : offsets = offsetsOf before ++ f.test.offset :: (f.far.offset ::
      (offsetsOf (f.body ++ f.last :: f.other.elim [] OtherPart.code) ++ finish.offset :: offsetsOf after)) := by
    simp [hparts, offsetsOf]
  have hfar : f.far.offset.value < f.past.value := by
    rw [← List.singleton_append, ← List.append_assoc] at hsplit
    exact (hsplit ▸ ha).lt_of_split (List.mem_append_left _ hover)
  have htest : Wired offsets [f.test] [(f.condition f.far.offset).jump] := by
    refine .ahead ha hc.tests (form?_operatorOn taken) (Or.inl rfl) (by simp [hsplit]) (Int.le_of_lt ?_) hhead
    exact (hsplit ▸ ha).lt_of_split List.mem_cons_self
  have hskip : Wired offsets [f.far] [skipJump f.far f.past] :=
    .ahead ha hc.skips form?_jump (Or.inr rfl) (by simp [hsplit]) (Int.le_of_lt hfar) hpast
  have hbody : Wired offsets (f.body ++ [f.last]) [] := .plain fun line hl =>
    hc.plain line (by simpa using List.mem_append_left _ hl)
  have hother : Wired offsets (f.other.elim [] OtherPart.code) (f.other.toList.map OtherPart.jump) := by
    have hsplit := hparts.trans (List.append_cons _ _ _)
    exact OtherPart.wired ha hc.exits (fun line hl => hc.plain line (by simp [hl])) hsplit
  have hwired := Wired.append (.plain fun line hl => hp line (List.mem_append_left _ hl))
    ((htest.cons (hskip.cons (hbody.append hother))).append
      (.plain fun line hl => hp line (List.mem_append_right _ hl)))
  simpa [jumps, code] using hwired

/-- No loop is among the jumps. -/
theorem loops_eq_nil (f : FarTest) : f.jumps.filter (·.kind = .loop) = [] := by
  refine List.filter_eq_nil_iff.2 fun j hj => ?_
  rcases cases_of_mem hj with rfl | hk
  · simp [condition, Joint.jump]
  · simp [hk]

/-- The test is laid out whenever its turn comes: the other jumps need no statement. -/
theorem yields_handleJumps {order : List Nat} (hr : flow.Readied (before ++ (f.code ++ finish :: after)) {} order)
    (h : flow.Stage (asRead (before ++ (f.code ++ finish :: after))) f.jumps []) :
    Yields (FlowM.handleJumps order) flow fun _ result =>
      result.code = asRead before ++ (f.laid ++ asRead (finish :: after)) := by
  rw [asRead_append, asRead_append] at h
  obtain ⟨i, hi⟩ := (h.mem (f.condition f.far.offset).jump).1 (by simp [jumps])
  obtain ⟨earlier, later, rfl⟩ := List.append_of_mem ((hr.mem i).2 hi.1.1)
  refine @FlowM.yields_handleJumps_one flow earlier later i _ [] h.sound (fun k hk => (hr.mem k).1 hk) ?_ ?_ (by simp)
  · intro k hk ho
    rcases cases_of_mem ((h.mem _).2 ⟨k, ho, rfl⟩) with he | hquiet
    · have hsame := h.sound.once k i ho.1 hi.1.1 (by rw [he, hi.2]) (by rw [he, hi.2])
      have hn := hr.nodup
      rw [List.nodup_append] at hn
      exact absurd hsame (hn.2.2 k hk i (by simp))
    · exact Or.inl hquiet
  · rw [FlowM.handleJump, yields_bind, FlowM.yields_jump, if_neg (by simp [hi.1.2]), hi.2]
    exact yields_handleTest h hr.tests hi

end FarTest

open FarTest in
/-- A body that a test goes to past a jump is guarded by the opposite of what takes the test there, whatever
statements stand around it; the lines that the jump goes to, if any, stand in the else part. -/
theorem liftCode_shows_farTest {name : String} {before after : List CodeLine} {f : FarTest} {taken : Bool}
    {finish : CodeLine} {console : Console} (hc : f.Compiled taken finish.offset)
    (hp : ∀ line ∈ before ++ finish :: after, (statement? line).isSome)
    (ha : Ascending (offsetsOf (before ++ (f.code ++ finish :: after))))
    (hs : ∀ o ∈ offsetsOf (before ++ (f.code ++ finish :: after)), (Binary64.nearestWhole? o.value).isSome) :
    ∃ out console', liftCode name (before ++ (f.code ++ finish :: after)) {} console = .ok out console' ∧
      (out.map (·.rendered)).filter (· ≠ "") = "\x7b" :: (Loop.shown before ++
        (f.printed taken ++ (Loop.shown (finish :: after) ++ ["\x7d"]))) := by
  obtain ⟨out, console', hok, hout⟩ := @shows_of_wired name _ (asRead before ++ (f.laid ++ asRead (finish :: after)))
    f.jumps console ha (hc.wired hp ha) (by simp [f.loops_eq_nil]) hs fun _ _ hr hstage => yields_handleJumps hr hstage
  rw [shownOf_append, shownOf_append, hc.shown_laid, shownOf_asRead, shownOf_asRead, List.append_assoc,
    List.append_assoc] at hout
  exact ⟨out, console', hok, hout⟩

/-- An if with an empty then part: its else part is one line and a last one, and what follows may stand in a
third part. -/
def emptyThen (taken : Bool) (other : Option OtherPart) : FarTest where
  test := jumpAt (FarTest.operatorOn taken) 2 6
  far := jumpAt "Jump" 4 (if other.isSome then 12 else 10)
  body := [zeroAt 6]
  last := { offset := .number 8, instruction := "Star r1" }
  other

def nullPart : OtherPart where
  exit := jumpAt "Jump" 10 14
  lines := []
  last := { offset := .number 12, instruction := "LdaNull" }

theorem liftCode_shows_elsePart : (emptyThen false (some nullPart)).Compiled false (.number 14) ∧ ∃ out console',
    liftCode "f" ((emptyThen false (some nullPart)).code ++ [returnAt 14]) {} {} = .ok out console' ∧
      (out.map (·.rendered)).filter (· ≠ "") =
        ["\x7b", "if (ACCU)", "\x7b", "ACCU = 0", "r1 = ACCU", "\x7d", "else", "\x7b", "ACCU = null", "\x7d",
        "return ACCU", "\x7d"] := by
  have hc : (emptyThen false (some nullPart)).Compiled false (.number 14) :=
    { tests := by decide +kernel
      skips := by decide +kernel
      exits := by decide +kernel
      plain := by decide +kernel }
  obtain ⟨out, console', hok, hshown⟩ := @liftCode_shows_farTest "f" [] [] _ _ (returnAt 14) {} hc
    (by decide +kernel) (by decide +kernel) (by decide +kernel)
  exact ⟨hc, out, console', hok, hshown.trans (by decide +kernel)⟩

/-- The lines that a test goes to if the accumulator is true are shown under the condition that it is false. -/
theorem liftCode_turns_farTest : (emptyThen true none).Compiled true (.number 10) ∧ ∃ out console',
    liftCode "f" ((emptyThen true none).code ++ [returnAt 10]) {} {} = .ok out console' ∧
      (out.map (·.rendered)).filter (· ≠ "") =
        ["\x7b", "if (!ACCU)", "\x7b", "ACCU = 0", "r1 = ACCU", "\x7d", "return ACCU", "\x7d"] := by
  have hc : (emptyThen true none).Compiled true (.number 10) :=
    { tests := by decide +kernel
      skips := by decide +kernel
      exits := by decide +kernel
      plain := by decide +kernel }
  have ha : Ascending (offsetsOf ((emptyThen true none).code ++ [returnAt 10])) := by decide +kernel
  obtain ⟨out, console', hok, hshown⟩ := @shows_of_wired "f" _ ((emptyThen true none).laid ++ asRead [returnAt 10])
    (emptyThen true none).jumps {} ha (@FarTest.Compiled.wired _ [] [] (returnAt 10) _ hc (by decide +kernel) ha)
    (by simp [FarTest.loops_eq_nil]) (by decide +kernel) fun _ _ hr hstage =>
      @FarTest.yields_handleJumps _ _ [] [] (returnAt 10) _ hr hstage
  rw [shownOf_append, hc.shown_laid, shownOf_asRead] at hshown
  exact ⟨hc, out, console', hok, hshown.trans (by decide +kernel)⟩

end Bytelift
