import Bytelift.Proofs.Flow.Layout
import Bytelift.Proofs.Flow.Numbering
import Mathlib.Data.List.Chain

/-! Structuring succeeds on code whose jumps go to its lines, whatever the jumps overlap with. -/

namespace Bytelift

open Run Instruction

namespace Instruction

/-- The jumps of the code go to its lines: cases and handlers to lines further on, and every guarded range
starts at a line. -/
structure WellAimed (code : List CodeLine) (handlers : Handlers) : Prop where
  jumps : ∀ line ∈ code, ∀ target ∈ target? line, .number target ∈ offsetsOf code
  cases : CasesAhead code
  handlers : ∀ e ∈ handlers.entries,
    .number e.2.1 ∈ offsetsOf code ∧ .number e.1 ∈ offsetsOf code ∧ e.2.1 < e.1

instance (code : List CodeLine) : Decidable (CasesAhead code) :=
  inferInstanceAs (Decidable (∀ line ∈ code, ∀ c ∈ casesAt line, _))

instance (code : List CodeLine) (handlers : Handlers) : Decidable (WellAimed code handlers) :=
  decidable_of_iff ((∀ line ∈ code, ∀ target ∈ target? line, Offset.number target ∈ offsetsOf code) ∧
    CasesAhead code ∧ ∀ e ∈ handlers.entries,
      Offset.number e.2.1 ∈ offsetsOf code ∧ Offset.number e.1 ∈ offsetsOf code ∧ e.2.1 < e.1)
    ⟨fun h => ⟨h.1, h.2.1, h.2.2⟩, fun h => ⟨h.jumps, h.cases, h.handlers⟩⟩

variable {code rendered : List CodeLine} {handlers : Handlers}

/-- Rendering leaves the lines where they are. -/
theorem offsetsOf_renders (h : List.Forall₂ Renders code rendered) :
    offsetsOf rendered = offsetsOf code := by
  induction h with
  | nil => rfl
  | cons hr _ ih =>
    obtain ⟨text, _, rfl⟩ := hr
    simp only [offsetsOf, List.map_cons] at ih ⊢
    rw [ih]

/-- In well-aimed code a jump starts and stops at lines, but for the last arm of a switch. -/
theorem Origin.at_lines (hw : WellAimed code handlers) (ha : Ascending (offsetsOf code)) {j : Jump}
    (hj : Origin code handlers j) : j.start ∈ offsetsOf code ∧
      (j.stop ∈ offsetsOf code ∨ j.kind = .arm ∧ j.stop = .number (-1)) := by
  have hline : ∀ line ∈ code, line.offset ∈ offsetsOf code := fun line hl => List.mem_map_of_mem hl
  cases hj with
  | guarded hm =>
    obtain ⟨hfirst, hhandler, _⟩ := hw.handlers _ hm
    exact ⟨hfirst, Or.inl hhandler⟩
  | @forward line hl kind text target hf ht _ =>
    exact ⟨hline line hl, Or.inl (hw.jumps line hl target (mem_target? hf ht))⟩
  | @backward line hl kind text target hf ht _ =>
    exact ⟨hw.jumps line hl target (mem_target? hf ht), Or.inl (hline line hl)⟩
  | @arm line hl cases arms j hf hcases harms hj =>
    have hk := kind_of_mem_switchArms harms hj
    have hcase := hw.cases line hl
    rw [casesAt_eq hf hcases] at hcase
    obtain ⟨hr, _⟩ := recorded_of_mem_switchArms (hline line hl) ha hcase harms hj
    unfold Flow.Recorded at hr
    rw [hk] at hr
    obtain ⟨hs, _, hstop⟩ := hr
    refine ⟨hs, ?_⟩
    rcases hstop with hend | hstop
    · exact Or.inr ⟨hk, hend⟩
    · exact Or.inl hstop.1

/-- Whether a line makes a jump of a kind, and makes it forward. -/
def goesForward (kind : JumpKind) (line : CodeLine) : Bool :=
  match form? (operator line) with
  | some (.jump k _) =>
    decide (k = kind) && (target? line).any fun t => (Offset.number t).lt? line.offset = some false
  | _ => false

/-- No line of a skip comes right after one of a test. -/
def Spaced (code : List CodeLine) : Prop :=
  code.IsChain fun a b => ¬(goesForward .test a ∧ goesForward .skip b)

instance (code : List CodeLine) : Decidable (Spaced code) := inferInstanceAs (Decidable (List.IsChain _ _))

/-- The line that a test or a skip is made by makes it forward. -/
theorem Origin.forward_line {j : Jump} (hj : Origin code handlers j)
    (hk : j.kind = .test ∨ j.kind = .skip) :
    ∃ line ∈ code, line.offset = j.start ∧ goesForward j.kind line = true := by
  cases hj with
  | guarded _ => simp at hk
  | @forward line hl kind text target hf ht hlt =>
    refine ⟨line, hl, rfl, ?_⟩
    simp [goesForward, hf, Option.mem_def.1 (mem_target? hf ht), hlt]
  | backward _ _ _ _ => simp at hk
  | arm _ _ _ harms hj => simp [kind_of_mem_switchArms harms hj] at hk

theorem Origin.not_adjacent (hs : Spaced code) (ha : Ascending (offsetsOf code)) {i j : Jump}
    (hi : Origin code handlers i)
    (hj : Origin code handlers j) (hik : i.kind = .test) (hjk : j.kind = .skip) : ¬Adjacent (offsetsOf code) i.start
      j.start := by
  intro hadj
  obtain ⟨before, after, hsplit⟩ := hadj
  obtain ⟨a, hma, hao, hfa⟩ := hi.forward_line (Or.inl hik)
  obtain ⟨b, hmb, hbo, hfb⟩ := hj.forward_line (Or.inr hjk)
  obtain ⟨lines, rest, hcode, _, hrest⟩ := List.map_eq_append_iff.1 hsplit
  obtain ⟨first, rest, rfl, hfirst, hrest⟩ := List.map_eq_cons_iff.1 hrest
  obtain ⟨second, rest, rfl, hsecond, _⟩ := List.map_eq_cons_iff.1 hrest
  obtain rfl := line_eq ha hma (by simp [hcode]) (hao.trans hfirst.symm)
  obtain rfl := line_eq ha hmb (by simp [hcode]) (hbo.trans hsecond.symm)
  rw [Spaced, hcode, List.isChain_append, List.isChain_cons_cons] at hs
  rw [hik] at hfa
  rw [hjk] at hfb
  exact hs.2.1.1 ⟨hfa, hfb⟩

end Instruction

namespace Flow

open JumpTables

variable {name : String} {code rendered : List CodeLine} {handlers : Handlers} {console : Console}
  {t : JumpTables Jump}

/-- What was recorded is ready for structuring. -/
theorem fresh_of_entered (h : Entered (Origin code handlers) t) (ha : Ascending (offsetsOf code))
    (hc : CasesAhead code) (hh : HandlersAhead handlers) (hr : List.Forall₂ Renders code rendered) :
    (ofTables name rendered t console).Fresh ∧
      (ofTables name rendered t console).offsets = offsetsOf code := by
  have hoffsets : rendered.map (·.offset) = offsetsOf code := offsetsOf_renders hr
  refine ⟨fresh_ofTables h (hoffsets ▸ ha) ?_ ?_, ?_⟩
  · intro j hj hk
    rw [hoffsets]
    exact hj.recorded ha hc hh hk
  · intro i j hi hj hik hjk
    exact hi.apart ha hj hik hjk
  · rw [ofTables, hoffsets]
    exact Offset.eraseDups_of_nodup ha.nodup

theorem spaced_of_follows (h : Entered (Origin code handlers) t) (hs : Instruction.Spaced code)
    (ha : Ascending (offsetsOf code)) (ho : (ofTables name rendered t console).offsets = offsetsOf code)
    {result : Flow} (hf : Follows (ofTables name rendered t console) result) : result.Spaced := by
  intro i j hi hj hik hjk
  rw [hf.offsets, ho, hf.start, hf.start]
  rw [hf.kind] at hik hjk
  exact Origin.not_adjacent hs ha (entered_jump h (hf.length ▸ hi)).2 (entered_jump h (hf.length ▸ hj)).2
    hik hjk

end Flow

namespace FlowM

open Flow

variable {flow : Flow}

/-- A fresh jump between lines can be drawn back. -/
theorem drawable (hf : flow.Fresh) {i : Nat} (hi : i < flow.jumps.length)
    (hs : (flow.jump i).start ∈ flow.offsets)
    (he : (flow.jump i).stop ∈ flow.offsets ∨ (flow.jump i).kind = .arm ∧
      (flow.jump i).stop = .number (-1)) : flow.Drawable i := by
  have hrec := hf.recorded i hi
  by_cases hfix : Fixed (flow.jump i)
  · exact Or.inr (Or.inl hfix)
  by_cases heq : (flow.jump i).start = (flow.jump i).stop
  · exact Or.inl heq
  have hstop : (flow.jump i).stop ∈ flow.offsets := he.resolve_right fun ha => hfix (Or.inr ha.1)
  have hv : (flow.jump i).start.value ≠ (flow.jump i).stop.value := fun hv =>
    heq (Offset.eq_of_value (hf.ascending.numbers _ hs) (hf.ascending.numbers _ hstop) hv)
  have hle : (flow.jump i).start.value ≤ (flow.jump i).stop.value := by
    unfold Recorded at hrec
    cases hk : (flow.jump i).kind with
    | test | skip | receiver =>
      rw [hk] at hrec
      exact hrec.2.2
    | guarded =>
      rw [hk] at hrec
      exact Int.le_of_lt hrec.2.2
    | loop => exact absurd (Or.inl hk) hfix
    | arm => exact absurd (Or.inr hk) hfix
    | handler | other => simp [hk] at hrec
  exact Or.inr (Or.inr (hf.ascending.exists_previous hstop hs (by omega)))

/-- Fresh code is laid out if its jumps start and stop at lines. -/
theorem yields_layOut (hf : flow.Fresh) (hl : Listed flow)
    (hat : ∀ i, i < flow.jumps.length → (flow.jump i).start ∈ flow.offsets ∧
      ((flow.jump i).stop ∈ flow.offsets ∨ (flow.jump i).kind = .arm ∧
        (flow.jump i).stop = .number (-1)))
    (hne : Offset.number (-1) ∉ flow.offsets)
    (hsort : ∀ o ∈ flow.offsets, (Binary64.nearestWhole? o.value).isSome) :
    Yields layOut flow fun _ _ => True := by
  have hsortable : ∀ o ∈ flow.offsets, Sortable o := fun o ho => ⟨hf.ascending.numbers o ho, hsort o ho⟩
  simp only [layOut, yields_bind]
  refine (yields_gather hf hl (fun i hi => drawable hf hi (hat i hi).1 (hat i hi).2) ?_).mono ?_
  · intro result hd i hi
    obtain ⟨hs, he⟩ := hat i hi
    refine ⟨hd.start i ▸ hsortable _ hs, ?_⟩
    rcases hd.drawn i hi (by simp) with hdone | ⟨_, _, hfix | hmoved⟩
    · rw [hdone.2.2, ← hdone.1]
      exact hsortable _ hs
    · rw [hfix.2]
      rcases he with he | he
      · exact hsortable _ he
      · rw [he.2]
        exact ⟨rfl, rfl⟩
    · exact hsortable _ hmoved.2.left
  · intro order drawn hg
    obtain ⟨hd, hperm⟩ := hg
    have hrooted : drawn.Rooted := by
      intro i hi _
      rw [hd.offsets, hd.start]
      exact (hat i (hd.length ▸ hi)).1
    refine (yields_dropReceivers (hd.sound hf)).mono ?_
    intro _ cleared hc
    have hon := hc.onward
    refine (yields_handleJumps order ((hd.sound hf).cleared hc) ?_ (hrooted.follows hon.toFollows)
      ?_).mono ?_
    · rw [hon.offsets, hd.offsets]
      exact hne
    · intro i hi
      rw [hon.length, hd.length]
      exact (hl.mem i).1 (hperm.mem_iff.1 hi)
    · intro _ result _
      simp [unfoldLines]

/-- What was recorded of well-aimed code is laid out. -/
theorem exists_layOut {name : String} {code rendered : List CodeLine} {handlers : Handlers}
    {console : Console} {t : JumpTables Jump} (h : JumpTables.Entered (Origin code handlers) t)
    (hr : List.Forall₂ Renders code rendered) (ha : Ascending (offsetsOf code))
    (hw : WellAimed code handlers) (hne : Offset.number (-1) ∉ offsetsOf code)
    (hs : ∀ o ∈ offsetsOf code, (Binary64.nearestWhole? o.value).isSome) :
    ∃ result, layOut (ofTables name rendered t console) = .ok () result := by
  have hh : HandlersAhead handlers := fun e hm => (hw.handlers e hm).2.2
  obtain ⟨hfresh, hoffsets⟩ :=
    @Flow.fresh_of_entered name code rendered handlers console t h ha hw.cases hh hr
  have hlaid := yields_layOut hfresh (listed_ofTables h) (by
    intro i hi
    rw [hoffsets]
    exact (entered_jump h hi).2.at_lines hw ha) (hoffsets ▸ hne) (hoffsets ▸ hs)
  obtain ⟨_, result, hok, _⟩ := hlaid
  exact ⟨result, hok⟩

end FlowM

/-- Structuring never fails on code with growing offsets whose jumps go to lines of the code: not for want
of a line, nor of a neighbour, nor of a test, nor by going round in circles. -/
theorem layOut_of_wellAimed {name : String} {code rendered : List CodeLine} {handlers : Handlers}
    {console : Console} {recorder : Recorder} (ha : Ascending (offsetsOf code))
    (hw : WellAimed code handlers) (hne : Offset.number (-1) ∉ offsetsOf code)
    (hs : ∀ o ∈ offsetsOf code, (Binary64.nearestWhole? o.value).isSome)
    (hr : renderLines code { tables := guardTables handlers, console } = .ok rendered recorder) :
    ∃ result, FlowM.layOut (Flow.ofTables name rendered recorder.tables recorder.console) =
      .ok () result := by
  obtain ⟨hentered, hrenders⟩ := entered_of_renderLines code (fun _ hl => hl) entered_guardTables hr
  exact FlowM.exists_layOut hentered hrenders ha hw hne hs

def guardedLoop : List CodeLine :=
  [{ offset := .number 0, instruction := "Ldar r0" },
    { offset := .number 2, instruction := "JumpIfFalse [7] (0x9 @ 9)" },
    { offset := .number 4, instruction := "LdaZero" },
    { offset := .number 5, instruction := "Star r0" },
    { offset := .number 7, instruction := "Jump [4] (0xb @ 11)" },
    { offset := .number 9, instruction := "Star r1" },
    { offset := .number 11, instruction := "JumpLoop [11] (0x0 @ 0)" },
    { offset := .number 14, instruction := "Return" }]

theorem layOut_guardedLoop : Ascending (offsetsOf guardedLoop) ∧
    WellAimed guardedLoop ⟨[(9, 4, 7)]⟩ ∧ .number (-1) ∉ offsetsOf guardedLoop ∧
    ∃ rendered recorder result,
      renderLines guardedLoop { tables := guardTables ⟨[(9, 4, 7)]⟩, console := {} } =
        .ok rendered recorder ∧
      FlowM.layOut (Flow.ofTables "f" rendered recorder.tables recorder.console) = .ok () result := by
  have ha : Ascending (offsetsOf guardedLoop) := by decide
  have hw : WellAimed guardedLoop ⟨[(9, 4, 7)]⟩ := by decide +kernel
  have hne : Offset.number (-1) ∉ offsetsOf guardedLoop := by decide
  obtain ⟨rendered, recorder, hr⟩ := Run.exists_ok (by decide +kernel : Run.fails (renderLines guardedLoop)
    { tables := guardTables ⟨[(9, 4, 7)]⟩, console := {} } = false)
  obtain ⟨result, hok⟩ := @layOut_of_wellAimed "f" _ _ _ _ _ ha hw hne (by decide +kernel) hr
  exact ⟨ha, hw, hne, rendered, recorder, result, hr, hok⟩

def strayLoop : List CodeLine :=
  [{ offset := .number 0, instruction := "LdaZero" },
    { offset := .number 2, instruction := "JumpLoop [1] (0x1 @ 1)" }]

/-- An offset that no place in the order of the jumps stands for. -/
def farOut : Int := Binary64.twoTo 1024

/-- A guarded range so far out that its end has no place in the order of the jumps. -/
def farGuard : List CodeLine :=
  [{ offset := .number 0, instruction := "LdaZero" },
    { offset := .number farOut, instruction := "LdaZero" },
    { offset := .number (farOut + 1), instruction := "Return" }]

/-- Growing offsets and forward jumps to lines are not enough: a loop has to go to a line as well, and the
offsets have to be within the range that jumps are sorted in. -/
theorem layOut_fails_astray :
    (Ascending (offsetsOf strayLoop) ∧ Run.fails (renderLines strayLoop) {} = false ∧
      Run.fails (liftCode "f" strayLoop {}) {} = true) ∧
    (Ascending (offsetsOf farGuard) ∧ WellAimed farGuard ⟨[(farOut + 1, 0, 1)]⟩ ∧
      Run.fails (liftCode "f" farGuard ⟨[(farOut + 1, 0, 1)]⟩) {} = true) := by
  decide +kernel

end Bytelift
