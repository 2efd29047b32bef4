import Bytelift.Proofs.TableSwitch.Layout
import Bytelift.Proofs.Wiring

/-! How a comparison switch is laid out. Its tests are renamed one after the other. The last of those that go to
one body opens the body on the line before it, which is the jump to the default or the exit of the body before;
by then the exit is shown as a break. The jump to the default comes last, and opens the default. -/

namespace Bytelift

open Run Text Instruction

/-- A comparison switch is found where the open tests all start in the range of one of them and go no less far, to
more than one place, and where the jump after the last of them starts no later than this range ends. -/
theorem FlowM.yields_layOutComparison_found {flow : Flow} {i l f : Nat} {wanted : Bool → Flow → Prop} (h : flow.Sound)
    (hi : flow.Open i) (hk : (flow.jump i).kind = .test)
      (hall : ∀ c ∈ (flow.table .test).values, flow.isCaseOf i c = true)
    (hl : (flow.table .test).values.getLast? = some l)
    (hadj : Adjacent flow.offsets (flow.jump l).start (flow.jump f).start) (hf : flow.Open f)
    (hfk : (flow.jump f).kind = .skip)
    (htwo : ∃ a ∈ (flow.table .test).values, ∃ b ∈ (flow.table .test).values, (flow.jump a).stop ≠ (flow.jump b).stop)
    (hle : (flow.jump f).start.value ≤ (flow.jump i).stop.value)
    (hsorted : ((flow.table .test).values ++ [f]).Pairwise fun a b => (flow.jump a).stop.value ≤
      (flow.jump b).stop.value) :
    Yields (layOutComparison i) flow wanted ↔
      Yields (layOutCases f 0 "switch ()\n" none ((flow.table .test).values ++ [f])) flow fun ends laid =>
        Yields (closeCases (flow.jump f) (flow.jump f).stop ends) laid fun _ => wanted true := by
  have hnumber := h.ascending.numbers
  have htests : ∀ c ∈ (flow.table .test).values, flow.Exit c := fun c hc =>
    have hm := (h.mem_values (by simp)).1 hc
    ⟨hm.1, Or.inl hm.2⟩
  obtain ⟨hstart, hstop, _⟩ := h.exit_aimed ⟨hi, Or.inl hk⟩
  obtain ⟨hfstart, hfstop, _⟩ := h.exit_aimed ⟨hf, Or.inr hfk⟩
  have hcases : (flow.table .test).values.filterM (fun c => isCase? (flow.jump i) (flow.jump c)) =
      some (flow.table .test).values := by
    have hfilter := @filterM_of_some _ (fun c => isCase? (flow.jump i) (flow.jump c)) (flow.isCaseOf i)
      (flow.table .test).values fun c hc => ?_
    · rw [hfilter, List.filter_eq_self.2 hall]
    · obtain ⟨hs, he, _⟩ := h.exit_aimed (htests c hc)
      exact isCase?_eq (hnumber _ hstart) (hnumber _ hstop) (hnumber _ hs) (hnumber _ he)
  have hnext : flow.neighbour (flow.jump l).start 1 = .ok (flow.jump f).start := Flow.neighbour_one h.ascending hadj
  have hskip : (flow.table .skip).get? (flow.jump f).start = some f :=
    h.lookup.2 ((h.filed _ _ _ (by simp)).2 ⟨hf, hfk, rfl⟩)
  have hbodies : ¬((flow.table .test).values.map fun c => (flow.jump c).stop).eraseDups.length < 2 := by
    obtain ⟨a, ha, b, hb, hne⟩ := htwo
    have hpair : [(flow.jump a).stop, (flow.jump b).stop].Subperm
        ((flow.table .test).values.map fun c => (flow.jump c).stop).eraseDups := by
      refine List.Nodup.subperm (by simpa using hne) fun o ho => List.mem_eraseDups.2 ?_
      simp only [List.mem_cons, List.not_mem_nil, or_false] at ho
      rcases ho with rfl | rfl
      · exact List.mem_map_of_mem ha
      · exact List.mem_map_of_mem hb
    exact Nat.not_lt.2 hpair.length_le
  have hsort : Offset.sortBy? (fun c => (flow.jump c).stop) ((flow.table .test).values ++ [f]) =
      some ((flow.table .test).values ++ [f]) := by
    refine Offset.sortBy?_of_pairwise (fun c hc => ?_) hsorted
    rcases List.mem_append.1 hc with hc | hc
    · exact hnumber _ (h.exit_aimed (htests c hc)).2.1
    · exact hnumber _ (List.mem_singleton.1 hc ▸ hfstop)
  simp only [layOutComparison, yields_bind, yields_jump, hk, ne_eq, not_true_eq_false, if_false, yields_get,
    yields_openTests, yields_settled, yields_need, hcases, hl, yields_neighbour, hnext, yields_skipAt?,
    Option.some.injEq, Except.ok.injEq, exists_eq_left', hskip, hbodies, hsort, Offset.lt?_of_number (hnumber _ hstop)
    (hnumber _ hfstart), Int.not_lt.2 hle, decide_false, Bool.false_eq_true, List.getLastD_concat, yields_pure]

namespace Comparison

/-- What the test with a number reads as, once it is part of a switch. -/
def name (n : Nat) : String := "CASE_" ++ toString n ++ " = ACCU"

def label (n : Nat) : String := "case CASE_" ++ toString n ++ ":\n"

def named : Nat → List Comparison → List CodeLine
  | _, [] => []
  | n, t :: ts => asRead t.lines ++ t.jump.reading (name n) :: named (n + 1) ts

def labels : Nat → List Comparison → String
  | _, [] => ""
  | n, _ :: ts => label n ++ labels (n + 1) ts

variable {flow : Flow} {before after : List CodeLine} {rest onwards : List Jump} {f : Nat} {stop : Offset}
  {previous : Option Offset} {next : List Nat} {wanted : List Offset → Flow → Prop}

theorem sharesBody_cons {is : List Nat} {ts : List Comparison} {t : Comparison} {tail : List Nat}
    (h : List.Forall₂ flow.OpenAs is ((t :: ts).map (testJump stop))) :
    FlowM.sharesBody flow stop (is ++ tail) = true := by
  cases h with
  | cons hi _ => simp [FlowM.sharesBody, hi.2, testJump]

theorem sharesBody_next (h : List.Forall₂ flow.OpenAs next onwards) (hstop : ∀ j ∈ onwards.head?, j.stop ≠ stop) :
    FlowM.sharesBody flow stop next = false := by
  cases h with
  | nil => rfl
  | @cons i j _ _ hi _ =>
    have hne := hstop j (by simp)
    simp [FlowM.sharesBody, hi.2, hne]

/-- A skip is none of the tests. -/
theorem not_mem_of_skip {is : List Nat} {ts : List Comparison} {skip : CodeLine} {goal : Offset}
    (h : List.Forall₂ flow.OpenAs is (ts.map (testJump stop))) (hf : flow.jump f = skipJump skip goal) : f ∉ is := by
  intro hm
  obtain ⟨j, hj, _, he⟩ := forall₂_mem_left h hm
  obtain ⟨t, _, rfl⟩ := List.mem_map.1 hj
  have hkind := congrArg Jump.kind (he.symm.trans hf)
  simp [skipJump] at hkind

/-- One test is renamed. If the next one goes elsewhere, the body opens. -/
theorem yields_layOutCases_cons {i n : Nat} {text : String} {t : Comparison} (hi : i ≠ f)
    (hj : flow.jump i = t.testJump stop) :
    Yields (FlowM.layOutCases f n text previous (i :: next)) flow wanted ↔
      Yields (FlowM.revise t.jump.offset fun _ => name n) flow fun _ renamed =>
        Yields (FlowM.retire i) renamed fun _ retired =>
          if FlowM.sharesBody retired stop next = true then
            Yields (FlowM.layOutCases f (n + 1) (text ++ label n) previous next) retired wanted
          else
            Yields (FlowM.markBodyBreaks previous stop) retired fun ends shown =>
              Yields (FlowM.append stop (text ++ label n ++ "\x7b\n")) shown fun _ opened =>
                Yields (FlowM.layOutCases f (n + 1) "\n\x7d\n" (some stop) next) opened fun more =>
                  wanted (ends ++ more) := by
  simp only [FlowM.layOutCases, FlowM.nameCase, yields_bind, FlowM.yields_jump, yields_get, yields_pure, yields_ite,
    ne_eq, hi, not_false_eq_true, if_true, if_false, hj]
  rfl

/-- The tests that go to one body are renamed, and their labels collected. -/
theorem yields_layOutCases : ∀ (ts : List Comparison) (t : Comparison) {flow : Flow} {before : List CodeLine} {n : Nat}
    {text : String} {is : List Nat},
    flow.Stage (before ++ (asRead ((t :: ts).flatMap code) ++ after)) ((t :: ts).map (testJump stop) ++ rest) [] →
    List.Forall₂ flow.OpenAs is ((t :: ts).map (testJump stop)) → f ∉ is →
    List.Forall₂ flow.OpenAs next onwards → (∀ j ∈ onwards, j ∈ rest) → (∀ j ∈ onwards.head?, j.stop ≠ stop) →
    (∀ result : Flow, flow.Keeps result rest → result.Stage (before ++ (named n (t :: ts) ++ after)) rest [] →
      Yields (FlowM.markBodyBreaks previous stop) result fun ends shown =>
        Yields (FlowM.append stop (text ++ labels n (t :: ts) ++ "\x7b\n")) shown fun _ opened =>
          Yields (FlowM.layOutCases f (n + (t :: ts).length) "\n\x7d\n" (some stop) next) opened fun more =>
            wanted (ends ++ more)) →
    Yields (FlowM.layOutCases f n text previous (is ++ next)) flow wanted
  | ts, t, flow, before, n, text, is, h, his, hf, hnext, hin, hstop, hw => by
    obtain ⟨i, js, hi, hjs, rfl⟩ := List.forall₂_cons_right_iff.1 his
    have hfi : i ≠ f := fun he => hf (by simp [he])
    have hlines : before ++ (asRead ((t :: ts).flatMap code) ++ after) = (before ++ asRead t.lines) ++
        t.jump.reading (textOf t.jump) :: (asRead (ts.flatMap code) ++ after) := by
      simp [code]
    have hstage := hlines ▸ h
    have hline : t.jump.offset ∈ flow.offsets := by
      rw [hstage.offsets_eq]
      simp
    have hnamed := hstage.revised fun _ => name n
    rw [List.cons_append, yields_layOutCases_cons hfi hi.2, FlowM.yields_revise h.sound hline]
    refine hnamed.yields_retire hi.1 hi.2 fun result hretired hresult => ?_
    have hkept := (Flow.Stage.keeps_revised flow t.jump.offset (fun _ => name n) _).trans hretired
      (List.Subset.refl (ts.map (testJump stop) ++ rest))
    have hjs' := hkept.openAs hjs fun j hj => List.mem_append_left _ hj
    have hnext' := hkept.openAs hnext fun j hj => List.mem_append_right _ (hin j hj)
    cases ts with
    | nil =>
      cases hjs'
      rw [List.nil_append, if_neg (by simp [sharesBody_next hnext' hstop])]
      refine (hw result ⟨hkept.toFollows, fun k hk hj => hkept.same k hk (by simpa using hj)⟩ ?_).mono ?_
      · simpa [named] using hresult
      · intro ends shown hshown
        simpa [labels] using hshown
    | cons u us =>
      rw [if_pos (sharesBody_cons hjs')]
      have hmore : result.Stage ((before ++ (asRead t.lines ++ [t.jump.reading (name n)])) ++
          (asRead ((u :: us).flatMap code) ++ after)) ((u :: us).map (testJump stop) ++ rest) [] := by
        simpa using hresult
      refine yields_layOutCases us u hmore hjs' (fun hm => hf (List.mem_cons_of_mem i hm)) hnext' hin hstop
        fun final hfinal hstaged => ?_
      have hall := hkept.trans hfinal (List.subset_append_right _ _)
      refine (hw final hall ?_).mono ?_
      · simpa [named] using hstaged
      · intro ends shown hshown
        simpa [labels, String.append_assoc, Nat.add_assoc, Nat.add_comm 1] using hshown

end Comparison

/-- The exit of a body is shown as a break when the lines from the body's first one to it are looked through. The
line before the body must not stand at offset 0. -/
theorem Flow.Stage.yields_markBodyBreaks {flow : Flow} {left body tail : List CodeLine} {prev head gate : CodeLine}
    {rest : List Jump} {finish : Offset}
    (h : flow.Stage ((left ++ prev :: head :: body) ++ gate.reading "" :: tail) (skipJump gate finish :: rest) [])
    (hprev : prev.offset ≠ .number 0) (hends : gate.offset.value < finish.value)
    (hothers : ∀ j ∈ rest, j.start.value < head.offset.value ∨ gate.offset.value < j.start.value) :
    Yields (FlowM.markBodyBreaks (some prev.offset) gate.offset) flow fun ends result => ends = [finish] ∧
      flow.Keeps result rest ∧ result.Stage ((left ++ prev :: head :: body) ++ gate.reading "break" :: tail) rest
      [] := by
  have hasc : Ascending ((left.map (·.offset) ++ [prev.offset]) ++ head.offset ::
      (body.map (·.offset) ++ gate.offset :: tail.map (·.offset))) := by simpa using h.ascending
  have hnumber : prev.offset.isNumber := hasc.numbers _ (by simp)
  have hblank : prev.offset ≠ .blank := fun he => by
    rw [he] at hnumber
    cases hnumber
  have hadj : Adjacent flow.offsets prev.offset head.offset := by
    refine ⟨left.map (·.offset), body.map (·.offset) ++ gate.offset :: tail.map (·.offset), ?_⟩
    rw [h.offsets_eq]
    simp
  have hle : head.offset.value < gate.offset.value := hasc.lt_of_split (by simp)
  simp only [FlowM.markBodyBreaks, hprev, hblank, decide_false, Bool.or_self, Bool.false_eq_true, if_false, yields_bind]
  rw [FlowM.yields_neighbour]
  refine ⟨head.offset, Flow.neighbour_one h.sound.ascending hadj, ?_⟩
  have hgate : gate.offset.isNumber := hasc.numbers _ (by simp)
  refine (h.yields_markBreaks_one (hasc.numbers _ (by simp)) hgate (Or.inr rfl) rfl
    ⟨Int.le_of_lt hle, le_rfl, hends⟩ ?_).mono ?_
  · intro j hj _ hleaves
    obtain ⟨hfirst, hlast, _⟩ := hleaves
    rcases hothers j hj with hlt | hlt <;> omega
  · intro ends result hresult
    obtain ⟨hends, hkept, hstage⟩ := hresult
    rw [CodeLine.reading_reading, CodeLine.rendered_reading, Flow.marked_skip rfl] at hstage
    exact ⟨hends, hkept, hstage⟩

/-- A body of a comparison switch: the tests that go to it, its lines, and the jump at its end. -/
structure Choice where
  test : Comparison
  more : List Comparison
  head : CodeLine
  body : List CodeLine
  exit : CodeLine

namespace Choice

def tests (c : Choice) : List Comparison := c.test :: c.more

def testCode (c : Choice) : List CodeLine := c.tests.flatMap Comparison.code

def lines (c : Choice) : List CodeLine := c.head :: c.body

def code (c : Choice) : List CodeLine := c.lines ++ [c.exit]

/-- The jumps of the tests, which stop on the line before the body. -/
def jumps : CodeLine → List Choice → List Jump
  | _, [] => []
  | gate, c :: choices => c.tests.map (Comparison.testJump gate.offset) ++ jumps c.exit choices

def gates : CodeLine → List Choice → List CodeLine
  | _, [] => []
  | gate, c :: choices => gate :: gates c.exit choices

/-- The last of the lines before, between and after some bodies. -/
def lastExit : CodeLine → List Choice → CodeLine
  | gate, [] => gate
  | _, c :: choices => lastExit c.exit choices

def named : Nat → List Choice → List CodeLine
  | _, [] => []
  | n, c :: choices => Comparison.named n c.tests ++ named (n + c.tests.length) choices

/-- The lines of some bodies, opened, from the exit of the body before them on. The last exit opens the default. -/
def opened : Nat → CodeLine → List Choice → List CodeLine
  | _, gate, [] => [gate.reading ("break" ++ ("\n\x7d\n" ++ "default:\n" ++ "\x7b\n"))]
  | n, gate, c :: choices =>
    gate.reading ("break" ++ ("\n\x7d\n" ++ Comparison.labels n c.tests ++ "\x7b\n")) ::
      (asRead c.lines ++ opened (n + c.tests.length) c.exit choices)

variable {flow : Flow} {before left body after : List CodeLine} {prev head gate skip : CodeLine} {finish : Offset}
  {choices : List Choice} {c : Choice}

/-- All jumps of a switch from some bodies on, but for the exit before them: with the tests of each body its exit,
and at the end the jump to the default. -/
def pending (skip : CodeLine) (finish : Offset) : CodeLine → List Choice → List Jump
  | gate, [] => [skipJump skip gate.offset]
  | gate, c :: choices =>
    c.tests.map (Comparison.testJump gate.offset) ++ (skipJump c.exit finish :: pending skip finish c.exit choices)

theorem exit_mem (hc : c ∈ choices) : c.exit.offset ∈ (choices.flatMap code).map (·.offset) :=
  List.mem_map_of_mem (List.mem_flatMap.2 ⟨c, hc, by simp [code]⟩)

theorem exists_lastExit (gate : CodeLine) (c : Choice) (choices : List Choice) :
    ∃ d ∈ c :: choices, lastExit gate (c :: choices) = d.exit := by
  induction choices generalizing gate c with
  | nil => exact ⟨c, by simp, rfl⟩
  | cons b choices ih =>
    obtain ⟨d, hd, he⟩ := ih c.exit b
    exact ⟨d, List.mem_cons_of_mem c hd, he⟩

/-- The jumps that a switch is laid out for, in their order. -/
theorem mem_pending {j : Jump} (hj : j ∈ jumps gate choices ++ [skipJump skip (lastExit gate choices).offset]) :
    j ∈ pending skip finish gate choices := by
  induction choices generalizing gate with
  | nil => exact hj
  | cons c choices ih =>
    rw [jumps, List.append_assoc] at hj
    rcases List.mem_append.1 hj with hj | hj
    · exact List.mem_append_left _ hj
    · exact List.mem_append_right _ (List.mem_cons_of_mem _ (ih hj))

/-- The jumps of a switch are its tests, the jump to the default, and the exits. -/
theorem cases_of_mem_pending {j : Jump} (hj : j ∈ pending skip finish gate choices) :
    (j.kind = .test ∧ j.start ∈ (choices.flatMap testCode).map (·.offset)) ∨ j.start = skip.offset ∨
      ∃ c ∈ choices, j = skipJump c.exit finish := by
  induction choices generalizing gate with
  | nil => exact Or.inr (Or.inl (by rw [List.mem_singleton.1 hj]; rfl))
  | cons c choices ih =>
    rcases List.mem_append.1 hj with hj | hj
    · obtain ⟨t, ht, rfl⟩ := List.mem_map.1 hj
      refine Or.inl ⟨rfl, List.mem_map_of_mem (List.mem_append_left _ (List.mem_flatMap.2 ⟨t, ht, ?_⟩))⟩
      simp [Comparison.code]
    rcases List.mem_cons.1 hj with rfl | hj
    · exact Or.inr (Or.inr ⟨c, by simp, rfl⟩)
    · rcases ih hj with ⟨hk, hm⟩ | hskip | ⟨d, hd, he⟩
      · exact Or.inl ⟨hk, by simp only [List.flatMap_cons, List.map_append, List.mem_append, hm, or_true]⟩
      · exact Or.inr (Or.inl hskip)
      · exact Or.inr (Or.inr ⟨d, List.mem_cons_of_mem c hd, he⟩)

theorem stop_head? (gate : CodeLine) (choices : List Choice) :
    ∀ j ∈ (jumps gate choices ++ [skipJump skip (lastExit gate choices).offset]).head?, j.stop = gate.offset := by
  cases choices <;> simp [jumps, tests, lastExit, skipJump]

/-- What is in order before some bodies are opened: the body before them is open from one line to its exit, and all
exits go to one line further on. -/
structure Choosing (before left after body : List CodeLine) (prev head gate skip : CodeLine) (finish : Offset)
    (choices : List Choice) (flow : Flow) : Prop where
  stage : flow.Stage (before ++ (asRead (choices.flatMap testCode) ++ ((left ++ prev :: head :: body) ++
      gate.reading "" :: (asRead (choices.flatMap code) ++ after))))
    (skipJump gate finish :: pending skip finish gate choices) []
  reads : ∀ c ∈ choices, textOf c.exit = ""
  placed : prev.offset ≠ .number 0 ∧ ∀ line ∈ gates gate choices, line.offset ≠ .number 0
  since : skip.offset.value < head.offset.value
  ends : ∀ line ∈ gate :: choices.map exit, line.offset.value < finish.value

namespace Choosing

/-- The lines up to the exit of the open body stand before those of the other bodies. -/
theorem ascending (h : Choosing before left after body prev head gate skip finish choices flow) :
    Ascending (((before.map (·.offset) ++ (choices.flatMap testCode).map (·.offset)) ++
      (left.map (·.offset) ++ prev.offset :: head.offset :: body.map (·.offset))) ++ gate.offset ::
        ((choices.flatMap code).map (·.offset) ++ after.map (·.offset))) := by
  simpa using h.stage.ascending

/-- No jump but the exit of the open body leaves it. -/
theorem outside (h : Choosing before left after body prev head gate skip finish choices flow) {j : Jump}
    (hj : j ∈ pending skip finish gate choices) :
    j.start.value < head.offset.value ∨ gate.offset.value < j.start.value := by
  rcases cases_of_mem_pending hj with ⟨_, hm⟩ | hskip | ⟨c, hc, rfl⟩
  · have hsplit := h.ascending
    rw [List.append_assoc] at hsplit
    exact Or.inl (hsplit.lt_of_append rfl (List.mem_append_right _ hm) (by simp))
  · exact Or.inl (hskip ▸ h.since)
  · exact Or.inr (h.ascending.lt_of_split (List.mem_append_left _ (exit_mem hc)))

end Choosing

variable {f n : Nat} {text : String} {previous : Option Offset} {wanted : List Offset → Flow → Prop}

/-- The default opens after all other bodies. -/
theorem yields_layOutCases_default {stop : Offset} (hf : flow.jump f = skipJump skip stop) :
    Yields (FlowM.layOutCases f n text previous [f]) flow wanted ↔
      Yields (FlowM.retire f) flow fun _ retired =>
        Yields (FlowM.markBodyBreaks previous stop) retired fun ends shown =>
          Yields (FlowM.append stop (text ++ "default:\n" ++ "\x7b\n")) shown fun _ => wanted ends := by
  simp [FlowM.layOutCases, FlowM.nameCase, FlowM.yields_jump, hf, FlowM.sharesBody, skipJump]

namespace Choosing

/-- Once its tests are renamed, the next body opens on the exit of the one before. -/
theorem opens (h : Choosing before left after body prev head gate skip finish (c :: choices) flow)
    {middle : Flow} (hm : middle.Stage (before ++ (Comparison.named n c.tests ++ (asRead (choices.flatMap testCode) ++
      ((left ++ prev :: head :: body) ++ gate.reading "" :: (asRead ((c :: choices).flatMap code) ++ after)))))
      (skipJump gate finish :: skipJump c.exit finish :: pending skip finish c.exit choices) []) :
    Yields (FlowM.markBodyBreaks (some prev.offset) gate.offset) middle fun ends shown =>
      Yields (FlowM.append gate.offset ("\n\x7d\n" ++ Comparison.labels n c.tests ++ "\x7b\n")) shown fun _ result =>
        ends = [finish] ∧ middle.Keeps result (pending skip finish c.exit choices) ∧
          Choosing (before ++ Comparison.named n c.tests) (left ++ prev :: head :: body) after (asRead c.body)
            (gate.reading ("break" ++ ("\n\x7d\n" ++ Comparison.labels n c.tests ++ "\x7b\n")))
            (c.head.reading (textOf c.head)) c.exit skip finish choices result := by
  have hread : textOf c.exit = "" := h.reads c (by simp)
  have hlines : before ++ (Comparison.named n c.tests ++ (asRead (choices.flatMap testCode) ++
      ((left ++ prev :: head :: body) ++ gate.reading "" :: (asRead ((c :: choices).flatMap code) ++ after)))) =
      ((before ++ (Comparison.named n c.tests ++ (asRead (choices.flatMap testCode) ++ left))) ++ prev :: head ::
        body) ++ gate.reading "" :: (asRead ((c :: choices).flatMap code) ++ after) := by simp
  have hhead : gate.offset.value < c.head.offset.value := h.ascending.lt_of_split (by simp [code, lines])
  have hprev : head.offset.value < gate.offset.value := h.ascending.lt_of_append rfl (by simp) List.mem_cons_self
  rw [hlines] at hm
  refine (hm.yields_markBodyBreaks h.placed.1 (h.ends gate (by simp)) fun j hj => h.outside ?_).mono ?_
  · exact List.mem_append_right _ hj
  · intro ends shown hshown
    obtain ⟨hends, hkept, hshown⟩ := hshown
    refine hshown.yields_append rfl fun result hopening hresult => ⟨hends, ?_, ?_⟩
    · exact (hkept.trans hopening (List.Subset.refl _)).mono (List.subset_cons_self _ _)
    · refine ⟨?_, fun d hd => h.reads d (by simp [hd]), ⟨?_, fun line hl => ?_⟩, ?_, fun line hl => ?_⟩
      · simpa [code, lines, hread] using hresult
      · exact h.placed.2 gate (by simp [gates])
      · exact h.placed.2 line (by simp [gates, hl])
      · exact Int.lt_trans (Int.lt_trans h.since hprev) hhead
      · exact h.ends line (List.mem_cons_of_mem _ hl)

/-- The tests of the next body are renamed, and the body opens. -/
theorem step {is next : List Nat} (h : Choosing before left after body prev head gate skip finish (c :: choices) flow)
    (his : List.Forall₂ flow.OpenAs is (c.tests.map (Comparison.testJump gate.offset)))
    (hnext : List.Forall₂ flow.OpenAs next (jumps c.exit choices))
    (hf : flow.OpenAs f (skipJump skip (lastExit c.exit choices).offset))
    (hw : ∀ result : Flow, List.Forall₂ result.OpenAs next (jumps c.exit choices) →
      result.OpenAs f (skipJump skip (lastExit c.exit choices).offset) →
      Choosing (before ++ Comparison.named n c.tests) (left ++ prev :: head :: body) after (asRead c.body)
        (gate.reading ("break" ++ ("\n\x7d\n" ++ Comparison.labels n c.tests ++ "\x7b\n")))
        (c.head.reading (textOf c.head)) c.exit skip finish choices result →
      Yields (FlowM.layOutCases f (n + c.tests.length) "\n\x7d\n" (some gate.offset) (next ++ [f])) result fun ends =>
        wanted (finish :: ends)) :
    Yields (FlowM.layOutCases f n "\n\x7d\n" (some prev.offset) (is ++ (next ++ [f]))) flow wanted := by
  have hexit : gate.offset.value < c.exit.offset.value := h.ascending.lt_of_split (by simp [code])
  have hstage : flow.Stage (before ++ (asRead (c.tests.flatMap Comparison.code) ++ (asRead (choices.flatMap testCode) ++
      ((left ++ prev :: head :: body) ++ gate.reading "" :: (asRead ((c :: choices).flatMap code) ++ after)))))
      (c.tests.map (Comparison.testJump gate.offset) ++ (skipJump gate finish :: skipJump c.exit finish ::
        pending skip finish c.exit choices)) [] := by
    have hperm := h.stage.perm List.perm_middle.symm
    simpa [testCode] using hperm
  refine Comparison.yields_layOutCases c.more c.test hstage his (Comparison.not_mem_of_skip his hf.2)
    (List.rel_append hnext (.cons hf .nil)) ?_ ?_ fun renamed hkept hrenamed => ?_
  · intro j hj
    exact List.mem_cons_of_mem _ (List.mem_cons_of_mem _ (mem_pending hj))
  · intro j hj he
    rw [stop_head? c.exit choices j hj] at he
    exact Offset.ne_of_lt hexit he.symm
  refine (h.opens hrenamed).mono fun ends shown hshown => hshown.mono fun _ opened hopened => ?_
  obtain ⟨rfl, hkeeps, hchoosing⟩ := hopened
  have hall := hkept.trans hkeeps fun j hj => List.mem_cons_of_mem _ (List.mem_cons_of_mem _ hj)
  have hsame := hall.same f hf.1 (by rw [hf.2]; exact mem_pending (by simp))
  exact hw opened (hall.openAs hnext fun j hj => mem_pending (List.mem_append_left _ hj))
    ⟨hsame.1, hsame.2.trans hf.2⟩ hchoosing

/-- All bodies are opened, and after them the default; every exit is shown as a break. -/
theorem run : ∀ (choices : List Choice) {flow : Flow} {before left body : List CodeLine} {prev head gate : CodeLine}
    {n : Nat} {is : List Nat}, Choosing before left after body prev head gate skip finish choices flow →
    List.Forall₂ flow.OpenAs is (jumps gate choices) →
    flow.OpenAs f (skipJump skip (lastExit gate choices).offset) →
    Yields (FlowM.layOutCases f n "\n\x7d\n" (some prev.offset) (is ++ [f])) flow fun ends result =>
      ends = List.replicate (choices.length + 1) finish ∧ result.Stage (before ++ (named n choices ++
        ((left ++ prev :: head :: body) ++ (opened n gate choices ++ after)))) [] []
  | [], flow, before, left, body, prev, head, gate, n, is, h, his, hf => by
    cases his
    rw [List.nil_append, yields_layOutCases_default hf.2]
    refine (h.stage.perm (List.Perm.swap _ _ _)).yields_retire hf.1 hf.2 fun retired _ hretired => ?_
    have hopen : retired.Stage (((before ++ left) ++ prev :: head :: body) ++ gate.reading "" :: after)
        [skipJump gate finish] [] := by simpa using hretired
    refine (hopen.yields_markBodyBreaks h.placed.1 (h.ends gate (by simp)) (by simp)).mono ?_
    intro ends shown hshown
    obtain ⟨rfl, _, hshown⟩ := hshown
    refine hshown.yields_append rfl fun result _ hresult => ⟨rfl, ?_⟩
    simpa [named, opened] using hresult
  | c :: choices, flow, before, left, body, prev, head, gate, n, is, h, his, hf => by
    have hfirst := List.forall₂_take_append _ _ _ his
    have hlater := List.forall₂_drop_append _ _ _ his
    rw [← List.take_append_drop (c.tests.map (Comparison.testJump gate.offset)).length is, List.append_assoc]
    refine h.step hfirst hlater hf fun opened hnext hf hopened => ?_
    refine (run choices hopened hnext hf).mono fun ends result hresult => ?_
    obtain ⟨rfl, hresult⟩ := hresult
    refine ⟨rfl, ?_⟩
    simpa [named, Choice.opened, lines] using hresult

end Choosing

/-! ## Where the tests start and stop -/

theorem starts_eq (gate : CodeLine) (choices : List Choice) :
    (jumps gate choices).map (·.start) = (choices.flatMap tests).map (·.jump.offset) := by
  induction choices generalizing gate with
  | nil => rfl
  | cons c choices ih => simp [jumps, ih]

theorem flatMap_testCode (choices : List Choice) :
    choices.flatMap testCode = (choices.flatMap tests).flatMap Comparison.code := by
  rw [List.flatMap_assoc]
  rfl

theorem starts_sublist_tests (gate : CodeLine) (choices : List Choice) :
    ((jumps gate choices).map (·.start)).Sublist ((choices.flatMap testCode).map (·.offset)) := by
  rw [starts_eq, flatMap_testCode, List.map_eq_flatMap, List.map_flatMap]
  exact .flatMap_right _ fun t _ => by simp [Comparison.code]

/-- The tests are ended by the jump of the last of them. -/
theorem exists_last_test (gate : CodeLine) (c : Choice) (choices : List Choice) : ∃ before line j,
    (c :: choices).flatMap testCode = before ++ [line] ∧ (jumps gate (c :: choices)).getLast? = some j ∧
      j.start = line.offset := by
  have hne : (c :: choices).flatMap tests ≠ [] := by simp [tests]
  obtain ⟨others, t, ht⟩ : ∃ others t, (c :: choices).flatMap tests = others ++ [t] :=
    ⟨_, _, (List.dropLast_append_getLast hne).symm⟩
  have hlast : ((jumps gate (c :: choices)).map (·.start)).getLast? = some t.jump.offset := by
    rw [starts_eq, ht]
    simp
  rw [List.getLast?_map, Option.map_eq_some_iff] at hlast
  obtain ⟨j, hj, hstart⟩ := hlast
  refine ⟨others.flatMap Comparison.code ++ t.lines, t.jump, j, ?_, hj, hstart⟩
  rw [flatMap_testCode, ht]
  simp [Comparison.code]

/-- The tests stop one after the other, and the jump to the default after them all. -/
theorem stops_grow (skip : CodeLine) (h : (gate.offset :: choices.map fun c => c.exit.offset).Pairwise fun a b =>
    a.value < b.value) :
    (jumps gate choices ++ [skipJump skip (lastExit gate choices).offset]).Pairwise
      (fun a b => a.stop.value ≤ b.stop.value) ∧
      ∀ j ∈ jumps gate choices ++ [skipJump skip (lastExit gate choices).offset], gate.offset.value ≤ j.stop.value := by
  induction choices generalizing gate with
  | nil => simp [jumps, lastExit, skipJump]
  | cons c choices ih =>
    rw [List.map_cons, List.pairwise_cons] at h
    obtain ⟨hgate, hexits⟩ := h
    obtain ⟨hpairs, hbelow⟩ := ih hexits
    have hlt : gate.offset.value < c.exit.offset.value := hgate _ (by simp)
    have hsame : ∀ j ∈ c.tests.map (Comparison.testJump gate.offset), j.stop = gate.offset := by simp
    rw [jumps, lastExit, List.append_assoc]
    refine ⟨List.pairwise_append.2 ⟨?_, hpairs, ?_⟩, ?_⟩
    · rw [List.pairwise_map]
      exact List.pairwise_of_forall fun _ _ => le_rfl
    · intro a ha b hb
      rw [hsame a ha]
      exact Int.le_trans (Int.le_of_lt hlt) (hbelow b hb)
    · intro j hj
      rcases List.mem_append.1 hj with hj | hj
      · rw [hsame j hj]
      · exact Int.le_trans (Int.le_of_lt hlt) (hbelow j hj)

/-- The tests are what is pending besides skips. -/
theorem mem_jumps_iff {j : Jump} :
    j ∈ jumps gate choices ↔ j ∈ pending skip finish gate choices ∧ j.kind = .test := by
  induction choices generalizing gate with
  | nil =>
    simp only [jumps, pending, List.not_mem_nil, List.mem_singleton, false_iff, not_and]
    intro he
    simp [he, skipJump]
  | cons c choices ih =>
    have hkind : (skipJump c.exit finish).kind ≠ .test := by simp [skipJump]
    simp only [jumps, pending, List.mem_append, List.mem_cons, ih]
    constructor
    · intro hj
      rcases hj with hj | ⟨hj, hk⟩
      · obtain ⟨t, _, rfl⟩ := List.mem_map.1 hj
        exact ⟨Or.inl hj, rfl⟩
      · exact ⟨Or.inr (Or.inr hj), hk⟩
    · intro hj
      obtain ⟨hj | rfl | hj, hk⟩ := hj
      · exact Or.inl hj
      · exact absurd hk hkind
      · exact Or.inr ⟨hj, hk⟩

end Choice

/-- A comparison switch: the bodies with their tests, the jump to the default, and the default's lines. -/
structure ComparisonSwitch where
  first : Choice
  second : Choice
  others : List Choice
  skip : CodeLine
  fallback : List CodeLine
  last : CodeLine

namespace ComparisonSwitch

def choices (s : ComparisonSwitch) : List Choice := s.first :: s.second :: s.others

def code (s : ComparisonSwitch) : List CodeLine :=
  s.choices.flatMap Choice.testCode ++ s.skip :: (s.choices.flatMap Choice.code ++ (s.fallback ++ [s.last]))

def jumps (s : ComparisonSwitch) : List Jump := Choice.pending s.skip s.last.offset s.skip s.choices

def opening (s : ComparisonSwitch) : CodeLine :=
  s.skip.reading ("switch ()\n" ++ Comparison.labels 0 s.first.tests ++ "\x7b\n")

def laid (s : ComparisonSwitch) : List CodeLine :=
  Choice.named 0 s.choices ++ s.opening :: (asRead s.first.lines ++
    (Choice.opened (0 + s.first.tests.length) s.first.exit (s.second :: s.others) ++
      (asRead s.fallback ++ [s.last.reading (closeText (textOf s.last))])))

/-- The skips of a switch read as nothing, and no body comes right after offset 0. -/
structure Fit (s : ComparisonSwitch) : Prop where
  skip : textOf s.skip = ""
  exits : ∀ c ∈ s.choices, textOf c.exit = ""
  placed : ∀ line ∈ Choice.gates s.skip s.choices, line.offset ≠ .number 0

variable {s : ComparisonSwitch} {flow : Flow} {before after : List CodeLine}

/-- Where the parts of a switch stand. -/
theorem ascending (h : flow.Stage (before ++ (asRead s.code ++ after)) s.jumps []) :
    Ascending (before.map (·.offset) ++ ((s.choices.flatMap Choice.testCode).map (·.offset) ++ s.skip.offset ::
      ((s.choices.flatMap Choice.code).map (·.offset) ++ (s.fallback.map (·.offset) ++ s.last.offset ::
        after.map (·.offset))))) := by
  simpa [code] using h.ascending

theorem gates_grow (h : flow.Stage (before ++ (asRead s.code ++ after)) s.jumps []) :
    (s.skip.offset :: s.choices.map fun c => c.exit.offset).Pairwise fun a b => a.value < b.value := by
  refine ((ascending h).sublist ?_).grows
  have hexits : (s.choices.map fun c => c.exit.offset).Sublist ((s.choices.flatMap Choice.code).map (·.offset)) := by
    rw [List.map_eq_flatMap, List.map_flatMap]
    exact .flatMap_right _ fun c _ => by simp [Choice.code]
  refine List.Sublist.trans ?_ (List.sublist_append_right _ _)
  refine List.Sublist.trans ?_ (List.sublist_append_right _ _)
  exact (hexits.trans (List.sublist_append_left _ _)).cons_cons _

theorem exit_lt_last (h : flow.Stage (before ++ (asRead s.code ++ after)) s.jumps []) {c : Choice}
    (hc : c ∈ s.choices) : c.exit.offset.value < s.last.offset.value := by
  have hasc : Ascending ((before.map (·.offset) ++
    ((s.choices.flatMap Choice.testCode).map (·.offset) ++ s.skip.offset ::
      (s.choices.flatMap Choice.code).map (·.offset))) ++ (s.fallback.map (·.offset) ++ s.last.offset ::
        after.map (·.offset))) := by
    simpa using ascending h
  exact hasc.lt_of_append rfl (by simp [Choice.exit_mem hc]) (by simp)

theorem starts_grow (h : flow.Stage (before ++ (asRead s.code ++ after)) s.jumps []) :
    (Choice.jumps s.skip s.choices).Pairwise fun a b => a.start.value < b.start.value := by
  have hstarts := (ascending h).grows.sublist ((Choice.starts_sublist_tests s.skip s.choices).trans
    ((List.sublist_append_left _ _).trans (List.sublist_append_right _ _)))
  rwa [List.pairwise_map] at hstarts

/-- The first test stands before the others. -/
theorem first_or_after (h : flow.Stage (before ++ (asRead s.code ++ after)) s.jumps []) {j : Jump}
    (hj : j ∈ Choice.jumps s.skip s.choices) :
    j = s.first.test.testJump s.skip.offset ∨ s.first.test.jump.offset.value < j.start.value := by
  have hgrows := starts_grow h
  rw [choices, Choice.jumps, Choice.tests, List.map_cons, List.cons_append] at hj hgrows
  exact (List.mem_cons.1 hj).imp_right ((List.pairwise_cons.1 hgrows).1 j)

/-- The tests stand before the jump to the default. -/
theorem test_lt_skip (h : flow.Stage (before ++ (asRead s.code ++ after)) s.jumps []) {j : Jump}
    (hj : j ∈ Choice.jumps s.skip s.choices) : j.start.value < s.skip.offset.value := by
  have hstart := (Choice.starts_sublist_tests s.skip s.choices).subset (List.mem_map_of_mem hj)
  have hsplit := ascending h
  rw [← List.append_assoc] at hsplit
  exact hsplit.lt_of_append rfl (List.mem_append_right _ hstart) List.mem_cons_self

theorem first_mem_jumps (s : ComparisonSwitch) :
    s.first.test.testJump s.skip.offset ∈ Choice.jumps s.skip s.choices := by
  simp [choices, Choice.jumps, Choice.tests]

/-- The open tests of a switch are listed as its tests stand. -/
theorem openAs_tests (h : flow.Stage (before ++ (asRead s.code ++ after)) s.jumps []) (ho : flow.TestsInOrder) :
    List.Forall₂ flow.OpenAs (flow.table .test).values (Choice.jumps s.skip s.choices) :=
  h.openAs_tests ho (fun _ => Choice.mem_jumps_iff) (starts_grow h)

/-- A switch is found from its first test. -/
theorem yields_layOutComparison {i f : Nat} (h : flow.Stage (before ++ (asRead s.code ++ after)) s.jumps [])
    (ho : flow.TestsInOrder) (hi : flow.OpenAs i (s.first.test.testJump s.skip.offset))
    (hf : flow.OpenAs f (skipJump s.skip (Choice.lastExit s.skip s.choices).offset)) {wanted : Bool → Flow → Prop} :
    Yields (FlowM.layOutComparison i) flow wanted ↔
      Yields (FlowM.layOutCases f 0 "switch ()\n" none ((flow.table .test).values ++ [f])) flow fun ends laid =>
        Yields (FlowM.closeCases (flow.jump f) (flow.jump f).stop ends) laid fun _ => wanted true := by
  have hmap := Flow.map_jump_of_openAs (openAs_tests h ho)
  have hasc := ascending h
  obtain ⟨hstops, hleast⟩ := Choice.stops_grow s.skip (gates_grow h)
  have hjump : ∀ c ∈ (flow.table .test).values, flow.jump c ∈ Choice.jumps s.skip s.choices := by
    intro c hc
    rw [← hmap]
    exact List.mem_map_of_mem hc
  obtain ⟨lines, line, j, hlines, hlast, hstart⟩ := Choice.exists_last_test s.skip s.first (s.second :: s.others)
  rw [← choices] at hlines hlast
  rw [← hmap, List.getLast?_map, Option.map_eq_some_iff] at hlast
  obtain ⟨l, hl, rfl⟩ := hlast
  refine FlowM.yields_layOutComparison_found h.sound hi.1 (by rw [hi.2]; rfl) ?_ hl ?_ hf.1 (by rw [hf.2]; rfl) ?_ ?_ ?_
  · intro c hc
    have hsince : s.first.test.jump.offset.value ≤ (flow.jump c).start.value := by
      rcases first_or_after h (hjump c hc) with he | hlt
      · rw [he]
        exact le_rfl
      · exact Int.le_of_lt hlt
    have huntil := test_lt_skip h (hjump c hc)
    rw [Flow.isCaseOf, hi.2, decide_eq_true_eq]
    exact ⟨hsince, Int.le_of_lt huntil, hleast _ (List.mem_append_left _ (hjump c hc))⟩
  · refine ⟨before.map (·.offset) ++ lines.map (·.offset), (s.choices.flatMap Choice.code).map (·.offset) ++
      (s.fallback.map (·.offset) ++ s.last.offset :: after.map (·.offset)), ?_⟩
    rw [h.offsets_eq, hstart, hf.2]
    simp [code, hlines, skipJump]
  · have hpick : ∀ j ∈ Choice.jumps s.skip s.choices, ∃ c ∈ (flow.table .test).values, flow.jump c = j := by
      intro j hj
      rw [← hmap] at hj
      exact List.mem_map.1 hj
    obtain ⟨a, ha, hfirst⟩ := hpick _ s.first_mem_jumps
    obtain ⟨b, hb, hsecond⟩ := hpick (s.second.test.testJump s.first.exit.offset)
      (by simp [choices, Choice.jumps, Choice.tests])
    have hlt : s.skip.offset.value < s.first.exit.offset.value := (List.pairwise_cons.1 (gates_grow h)).1 _
      (by simp [choices])
    refine ⟨a, ha, b, hb, fun he => ?_⟩
    rw [hfirst, hsecond, Comparison.stop_testJump, Comparison.stop_testJump] at he
    exact Offset.ne_of_lt hlt he
  · rw [hf.2, hi.2]
    exact le_rfl
  · have hpairs : (((flow.table .test).values ++ [f]).map flow.jump).Pairwise fun a b => a.stop.value ≤
      b.stop.value := by
      rw [List.map_append, hmap, List.map_singleton, hf.2]
      exact hstops
    rwa [List.pairwise_map] at hpairs

/-- The bodies are opened one after the other, the first of them on the jump to the default. -/
theorem yields_layOutCases {f : Nat} (h : flow.Stage (before ++ (asRead s.code ++ after)) s.jumps [])
    (hs : s.Fit) (ho : flow.TestsInOrder)
    (hf : flow.OpenAs f (skipJump s.skip (Choice.lastExit s.skip s.choices).offset)) :
    Yields (FlowM.layOutCases f 0 "switch ()\n" none ((flow.table .test).values ++ [f])) flow fun ends result =>
      ends = List.replicate (s.others.length + 2) s.last.offset ∧ result.Stage (before ++ (Choice.named 0 s.choices ++
        s.opening :: (asRead s.first.lines ++
        (Choice.opened (0 + s.first.tests.length) s.first.exit (s.second :: s.others) ++
          (asRead (s.fallback ++ [s.last]) ++ after))))) [] [] := by
  have hopen := openAs_tests h ho
  have hfirst := List.forall₂_take_append _ _ _ hopen
  have hlater := List.forall₂_drop_append _ _ _ hopen
  rw [← List.take_append_drop (s.first.tests.map (Comparison.testJump s.skip.offset)).length (flow.table .test).values,
    List.append_assoc]
  have hstage : flow.Stage (before ++ (asRead (s.first.tests.flatMap Comparison.code) ++
      (asRead ((s.second :: s.others).flatMap Choice.testCode) ++ s.skip.reading "" ::
        (asRead (s.choices.flatMap Choice.code) ++ (asRead (s.fallback ++ [s.last]) ++ after)))))
      (s.first.tests.map (Comparison.testJump s.skip.offset) ++ (skipJump s.first.exit s.last.offset ::
        Choice.pending s.skip s.last.offset s.first.exit (s.second :: s.others))) [] := by
    simpa [code, choices, Choice.testCode, hs.skip, jumps, Choice.pending] using h
  have hasc := ascending h
  refine Comparison.yields_layOutCases s.first.more s.first.test hstage hfirst (Comparison.not_mem_of_skip hfirst hf.2)
    (List.rel_append hlater (.cons hf .nil)) ?_ ?_ fun renamed hkept hrenamed => ?_
  · intro j hj
    exact List.mem_cons_of_mem _ (Choice.mem_pending hj)
  · intro j hj he
    have hlt : s.skip.offset.value < s.first.exit.offset.value := (List.pairwise_cons.1 (gates_grow h)).1 _
      (by simp [choices])
    rw [Choice.stop_head? s.first.exit (s.second :: s.others) j hj] at he
    exact Offset.ne_of_lt hlt he.symm
  rw [FlowM.markBodyBreaks, yields_pure]
  have hgate : renamed.Stage ((before ++ (Comparison.named 0 s.first.tests ++
      asRead ((s.second :: s.others).flatMap Choice.testCode))) ++ s.skip.reading "" ::
        (asRead (s.choices.flatMap Choice.code) ++ (asRead (s.fallback ++ [s.last]) ++ after)))
      (skipJump s.first.exit s.last.offset :: Choice.pending s.skip s.last.offset s.first.exit (s.second :: s.others))
        [] := by
    simpa [Choice.tests] using hrenamed
  refine hgate.yields_append rfl fun opened hopening hopened => ?_
  have hall := hkept.trans hopening (List.Subset.refl _)
  have hchoosing : Choice.Choosing (before ++ Comparison.named 0 s.first.tests) []
    (asRead (s.fallback ++ [s.last]) ++ after)
      (asRead s.first.body) s.opening (s.first.head.reading (textOf s.first.head)) s.first.exit s.skip s.last.offset
      (s.second :: s.others) opened := by
    refine ⟨?_, fun c hc => hs.exits c (List.mem_cons_of_mem _ hc), ⟨?_, fun line hl => ?_⟩, ?_, fun line hl => ?_⟩
    · simpa [opening, choices, Choice.code, Choice.lines, hs.exits s.first (by simp [choices]),
        Choice.tests] using hopened
    · exact hs.placed s.skip (by simp [choices, Choice.gates])
    · exact hs.placed line (List.mem_cons_of_mem _ hl)
    · rw [← List.append_assoc] at hasc
      exact hasc.lt_of_split (by simp [choices, Choice.code, Choice.lines])
    · obtain ⟨c, hc, rfl⟩ := List.mem_map.1 (show line ∈ s.choices.map Choice.exit from hl)
      exact exit_lt_last h hc
  have hf' := hall.openAs (.cons hf .nil) fun j hj => List.mem_cons_of_mem _
    (Choice.mem_pending (List.mem_append_right _ hj))
  refine (hchoosing.run (s.second :: s.others) ?_ ?_).mono ?_
  · exact hall.openAs hlater fun j hj => List.mem_cons_of_mem _ (Choice.mem_pending (List.mem_append_left _ hj))
  · cases hf' with
    | cons hopen _ => exact hopen
  · intro ends result hresult
    obtain ⟨rfl, hresult⟩ := hresult
    exact ⟨rfl, by simpa [choices, Choice.named, Choice.lines, Choice.tests] using hresult⟩

/-- All breaks go to the last line of the default, where the switch closes. -/
theorem yields_closeCases {lead : List CodeLine} {m : Nat} {stop : Offset}
    (h : flow.Stage (lead ++ (asRead (s.fallback ++ [s.last]) ++ after)) [] [])
    (hlead : s.skip.offset ∈ lead.map (·.offset)) (hstop : stop.value < s.last.offset.value) :
    Yields (FlowM.closeCases (skipJump s.skip stop) stop (List.replicate (m + 1) s.last.offset)) flow fun _ result =>
      result.Stage (lead ++ (asRead s.fallback ++ s.last.reading (closeText (textOf s.last)) :: after)) [] [] := by
  have hstage : flow.Stage ((lead ++ asRead s.fallback) ++ s.last.reading (textOf s.last) :: after) [] [] := by
    simpa using h
  have hasc : Ascending ((lead.map (·.offset) ++ s.fallback.map (·.offset)) ++ s.last.offset ::
    after.map (·.offset)) := by
    simpa using hstage.ascending
  have hskip : s.skip.offset.isNumber := hasc.numbers _ (by simp [hlead])
  have hlt : s.skip.offset.value < s.last.offset.value := hasc.lt_of_append rfl (by simp [hlead]) List.mem_cons_self
  have hsorted : Offset.ascending? (List.replicate (m + 1) s.last.offset) = some [s.last.offset] := by
    refine Offset.ascending?_eq (fun o ho => ?_) (by simp) fun o => by simp
    rw [List.eq_of_mem_replicate ho]
    exact hasc.numbers _ (by simp)
  have hne : ¬s.last.offset = stop := by
    intro he
    rw [he] at hstop
    exact Int.lt_irrefl _ hstop
  simp only [FlowM.closeCases, yields_bind, FlowM.yields_settled, hsorted, Option.some.injEq, exists_eq_left',
    List.getLast?_singleton, hne, if_false]
  refine hstage.yields_closeBlock hskip rfl fun closed _ hclosed => ?_
  have hlines := hclosed.offsets_eq
  obtain ⟨previous, hprevious⟩ := hclosed.sound.ascending.exists_previous (by rw [hlines]; simp)
    (show s.skip.offset ∈ closed.offsets by rw [hlines]; simp [hlead]) hlt
  rw [FlowM.yields_neighbour]
  refine ⟨previous, Flow.neighbour_neg_one hclosed.sound.ascending hprevious, ?_⟩
  refine (hclosed.yields_markBreaks_none hskip (hclosed.sound.ascending.numbers _ hprevious.left) (by simp)).2 ?_
  rw [yields_pure]
  simpa using hclosed

/-- A switch is laid out from its first test. -/
theorem yields_handleTest {i : Nat} (h : flow.Stage (before ++ (asRead s.code ++ after)) s.jumps [])
    (hs : s.Fit) (ho : flow.TestsInOrder) (hi : flow.OpenAs i (s.first.test.testJump s.skip.offset)) :
    Yields (FlowM.handleTest i) flow fun _ result =>
      flow.Follows result ∧ result.Stage (before ++ (s.laid ++ after)) [] [] := by
  obtain ⟨f, hf⟩ := (h.mem (skipJump s.skip (Choice.lastExit s.skip s.choices).offset)).1 (Choice.mem_pending (by simp))
  have hlaid : Yields (FlowM.handleTest i) flow fun _ result => result.Stage (before ++ (s.laid ++ after)) [] [] := by
    rw [FlowM.handleTest, yields_bind, yields_layOutComparison h ho hi hf, hf.2]
    refine (yields_layOutCases h hs ho hf).mono fun ends opened hopened => ?_
    obtain ⟨rfl, hopened⟩ := hopened
    have hstage : opened.Stage ((before ++ (Choice.named 0 s.choices ++ s.opening :: (asRead s.first.lines ++
        Choice.opened (0 + s.first.tests.length) s.first.exit (s.second :: s.others)))) ++
        (asRead (s.fallback ++ [s.last]) ++ after)) [] [] := by
      simpa using hopened
    refine (yields_closeCases hstage (by simp [opening]) ?_).mono fun _ result hresult => ?_
    · obtain ⟨c, hc, he⟩ := Choice.exists_lastExit s.skip s.first (s.second :: s.others)
      rw [choices, he]
      exact exit_lt_last h hc
    · rw [if_pos rfl, yields_pure]
      simpa [laid] using hresult
  obtain ⟨_, result, hok, hresult⟩ := hlaid
  have hkept := (FlowM.yields_handleTest h.sound ⟨hi.1, by rw [hi.2]; rfl⟩).of_ok hok
  exact ⟨_, result, hok, hkept.1.toFollows, hresult⟩

end ComparisonSwitch

end Bytelift
