import Bytelift.Proofs.Brace.Layout
import Bytelift.Proofs.Brace.Statement
import Bytelift.Proofs.Brace.Substitution
import Bytelift.Proofs.Structuring

/-! The braces of a whole function. What the instructions read as has none; every jump that is laid out
leaves them balanced; and in the end the code is put in one more pair. -/

namespace Bytelift

open Run Text Brace Instruction

namespace Instruction

/-- Code of known instructions without a switch: neither by a case table, nor by a row of tests that a skip
comes after. -/
structure Switchless (code : List CodeLine) : Prop where
  known : ∀ line ∈ code, (form? (operator line)).isSome
  unbroken : ∀ line ∈ code, Unbroken line.instruction
  caseless : ∀ line ∈ code, form? (operator line) ≠ some .cases
  spaced : Spaced code

instance (code : List CodeLine) : Decidable (Switchless code) :=
  decidable_of_iff ((∀ line ∈ code, (form? (operator line)).isSome) ∧
    (∀ line ∈ code, Unbroken line.instruction) ∧ (∀ line ∈ code, form? (operator line) ≠ some .cases) ∧
    Spaced code)
    ⟨fun h => ⟨h.1, h.2.1, h.2.2.1, h.2.2.2⟩, fun h => ⟨h.known, h.unbroken, h.caseless, h.spaced⟩⟩

variable {code rendered : List CodeLine} {handlers : Handlers}

theorem Switchless.casesAhead (h : Switchless code) : CasesAhead code := by
  intro line hl c hc
  unfold casesAt at hc
  split at hc
  · next hf => exact absurd hf (h.caseless line hl)
  · cases hc

theorem Switchless.kind_ne_arm (h : Switchless code) {j : Jump} (hj : Origin code handlers j)
    (hk : j.kind ∈ JumpKind.filed) : j.kind ≠ .arm := by
  cases hj with
  | guarded _ => simp
  | forward hl hf _ _ =>
    intro he
    rcases kind_of_form? hf hk with hk | hk | hk <;> simp_all
  | backward _ _ _ _ => simp
  | arm hl hf _ _ _ => exact absurd hf (h.caseless _ hl)

end Instruction

namespace Flow

/-- No line has a brace, and statements may be written into the lines of the jumps. -/
structure Bare (flow : Flow) : Prop where
  bare : ∀ line ∈ flow.code, word line.rendered = []
  fit : flow.FitBut []

theorem Bare.braced {flow : Flow} (h : flow.Bare) : flow.Braced where
  balanced := by
    have hnil : words flow.code = [] := List.flatMap_eq_nil_iff.2 h.bare
    rw [hnil]
    rfl
  fit := h.fit

theorem Bare.cleared {flow result : Flow} (h : flow.Bare) (hs : flow.Sound) (hc : Cleared flow result) :
    result.Bare := by
  induction hc with
  | none => exact h
  | clear _ ih =>
    refine ih ⟨?_, h.fit.revised hs fun _ _ => by decide⟩ (hs.revised _ _)
    intro line hl
    obtain ⟨old, hold, rfl⟩ := List.mem_map.1 hl
    unfold CodeLine.revised
    split
    · exact (by decide : word "" = [])
    · exact h.bare old hold
  | retire hi _ ih => exact ih ⟨h.bare, h.fit.retired hi⟩ (hs.retired hi)

variable {name : String} {code rendered : List CodeLine} {handlers : Handlers} {console : Console}
  {t : JumpTables Jump}

/-- What the instructions read as is bare, and stays so while the jumps are drawn back. -/
theorem bare_of_drawing (h : JumpTables.Entered (Origin code handlers) t) (hc : Switchless code)
    (hr : List.Forall₂ Renders code rendered) {drawn : Flow}
    (hd : Drawing (ofTables name rendered t console) [] drawn) : drawn.Bare where
  bare := by
    intro line hl
    rw [hd.code] at hl
    obtain ⟨old, hold, text, hreads, rfl⟩ := forall₂_mem_left hr.flip hl
    exact hreads.word_eq_nil (hc.unbroken old hold) (hc.known old hold)
  fit := by
    intro i hi _
    have hlen : i < t.all.length := hd.length ▸ hi.1.1
    have hkind := hi.2
    rw [hd.kind] at hkind
    obtain ⟨line, hl, ho, shown, hf⟩ := (entered_jump h hlen).2.line hkind
    obtain ⟨result, hm, text, hreads, rfl⟩ := forall₂_mem_left hr hl
    have hmem : { line with rendered := text } ∈ drawn.code := hd.code ▸ hm
    have htext := hd.filing.text_eq hmem
    rw [hd.start, ← ho, htext]
    exact hreads.fit hf hkind

theorem armless_of_drawing (h : JumpTables.Entered (Origin code handlers) t) (hc : Switchless code)
    {drawn : Flow} (hd : Follows (ofTables name rendered t console) drawn) : drawn.Armless := by
  intro i hi
  rw [hd.kind]
  obtain ⟨hk, hj⟩ := @entered_jump name rendered t console _ h i (hd.length ▸ hi)
  exact hc.kind_ne_arm hj hk

/-- Structured code is braced, if there is any, before it is put in one more pair of braces. -/
theorem braced_of_layOut (h : JumpTables.Entered (Origin code handlers) t) (hc : Switchless code)
    (ha : Ascending (offsetsOf code)) (hh : HandlersAhead handlers)
    (hr : List.Forall₂ Renders code rendered) {result : Flow}
    (hok : FlowM.layOut (ofTables name rendered t console) = .ok () result) :
    ∃ laid : Flow, laid.Braced ∧ result.code = unfoldCode laid.code := by
  obtain ⟨hfresh, hoffsets⟩ :=
    @fresh_of_entered name code rendered handlers console t h ha hc.casesAhead hh hr
  obtain ⟨order, drawn, hgather, hok⟩ := bind_eq_ok.1 hok
  obtain ⟨_, cleared, hdrop, hok⟩ := bind_eq_ok.1 hok
  obtain ⟨_, laid, hjumps, hok⟩ := bind_eq_ok.1 hok
  have hlisted := @listed_ofTables name rendered t console _ h
  obtain ⟨hd, hperm⟩ := FlowM.gather_ok hfresh hlisted hgather
  have hsound := hd.sound hfresh
  have hclear := (FlowM.yields_dropReceivers hsound).of_ok hdrop
  have hfollows := hd.toFollows.trans hclear.onward.toFollows
  have hbraced := ((bare_of_drawing h hc hr hd).cleared hsound hclear).braced
  refine ⟨laid, ?_, ?_⟩
  · refine hbraced.handledAll order (hsound.cleared hclear) (spaced_of_follows h hc.spaced ha hoffsets hfollows)
      (armless_of_drawing h hc hfollows) ?_ hjumps
    intro i hi
    rw [hfollows.length]
    exact (hlisted.mem i).1 (hperm.mem_iff.1 hi)
  · cases hok
    rfl

end Flow

/-! ## One line of text on each line -/

theorem inLines_filter (lines : List String) : inLines (lines.filter (· ≠ "")) = inLines lines := by
  induction lines with
  | nil => rfl
  | cons line lines ih =>
    by_cases he : line = ""
    · subst he
      rw [List.filter_cons_of_neg (by simp), ih]
      rfl
    · rw [List.filter_cons_of_pos (by simpa using he)]
      unfold inLines at ih ⊢
      rw [List.filterMap_cons, List.filterMap_cons, ih]

theorem CodeLine.inLines_unfold (line : CodeLine) :
    inLines (line.unfold.map (·.rendered)) = word line.rendered := by
  obtain ⟨first, more, hs⟩ := List.exists_cons_of_ne_nil (split_ne_nil line.rendered)
  have hadded : ((more.filter (· ≠ "")).map CodeLine.added).map (·.rendered) =
      more.filter (· ≠ "") := by
    rw [List.map_map]
    exact List.map_id _
  unfold CodeLine.unfold word
  rw [hs]
  dsimp only
  rw [List.map_cons, hadded, inLines, List.filterMap_cons]
  have hmore := inLines_filter more
  unfold inLines at hmore ⊢
  rw [hmore, List.filterMap_cons]

theorem rendered_unfoldCode (code : List CodeLine) : ∃ inner : List String,
    (unfoldCode code).map (·.rendered) = "\x7b" :: (inner ++ ["\x7d"]) ∧
      inLines inner = Flow.words code := by
  refine ⟨(code.flatMap CodeLine.unfold).map (·.rendered), ?_, ?_⟩
  · simp [unfoldCode, CodeLine.added]
  · induction code with
    | nil => rfl
    | cons line code ih =>
      rw [List.flatMap_cons, List.map_append, inLines_append, ih, line.inLines_unfold]
      rfl

/-! ## From instructions to pseudocode -/

/-- What is recorded and laid out when a function is lifted. -/
theorem liftCode_eq_ok {name : String} {code out : List CodeLine} {handlers : Handlers}
    {console console' : Console} (h : liftCode name code handlers console = .ok out console') :
    ∃ rendered recorder flow,
      renderLines code { tables := guardTables handlers, console } = .ok rendered recorder ∧
      FlowM.layOut (Flow.ofTables name rendered recorder.tables recorder.console) = .ok () flow ∧
      out = flow.code := by
  unfold liftCode at h
  split at h
  · cases h
  · next rendered recorder hr =>
    split at h
    · cases h
    · next flow hl =>
      cases h
      exact ⟨rendered, recorder, flow, hr, hl, rfl⟩

open Substitution Substitution.SheetM in
/-- However the jumps of a function overlap, the blocks of its structured code are closed as they should be,
and the first one by the last line only; so substitution reads no line past the last, and if it succeeds it
has gone through all lines and does not complain. -/
theorem balanced_of_liftCode {name : String} {code out : List CodeLine} {handlers : Handlers}
    {console console' : Console} (ha : Ascending (offsetsOf code)) (hc : Switchless code)
    (hh : HandlersAhead handlers) (hok : liftCode name code handlers console = .ok out console') :
    (∃ inner, out.map (·.rendered) = "\x7b" :: (inner ++ ["\x7d"]) ∧ Balanced (inLines inner)) ∧
      ∀ (sheet : Sheet) (name : String) (declarer : Option String), sheet.code = out → sheet.index = 0 →
        (final (substituteAll name declarer) sheet).index < out.length ∧
        ∀ t, substituteAll name declarer sheet = .ok () t → t.index = (out.length : Int) - 1 ∧
          ∃ scope, (startContext name declarer >>= fun context =>
            substituteBlock (Scope.setContext {} context)) sheet = .ok scope t := by
  obtain ⟨rendered, recorder, flow, hr, hl, rfl⟩ := liftCode_eq_ok hok
  obtain ⟨hentered, hrenders⟩ := entered_of_renderLines code (fun _ hl => hl) entered_guardTables hr
  obtain ⟨laid, hbraced, hcode⟩ := Flow.braced_of_layOut hentered hc ha hh hrenders hl
  obtain ⟨inner, hinner, hwords⟩ := rendered_unfoldCode laid.code
  have hbalanced : Balanced (inLines inner) := hwords ▸ hbraced.balanced
  rw [hcode]
  refine ⟨⟨inner, hinner, hbalanced⟩, ?_⟩
  intro sheet name declarer hsheet hindex
  have htexts : sheet.texts = "\x7b" :: (inner ++ ["\x7d"]) := by
    rw [Sheet.texts, hsheet]
    exact hinner
  rw [← hsheet]
  exact substituteAll_stops hindex htexts hbalanced name declarer

/-- A test into a loop from before it, a test out of it, and a guarded range that crosses them both. -/
def crossingJumps : List CodeLine :=
  [{ offset := .number 0, instruction := "Ldar r0" },
    { offset := .number 2, instruction := "JumpIfFalse [7] (0x9 @ 9)" },
    { offset := .number 4, instruction := "LdaZero" },
    { offset := .number 5, instruction := "JumpIfTrue [9] (0xe @ 14)" },
    { offset := .number 7, instruction := "Star r0" },
    { offset := .number 9, instruction := "Star r1" },
    { offset := .number 11, instruction := "JumpLoop [7] (0x4 @ 4)" },
    { offset := .number 14, instruction := "Star r2" },
    { offset := .number 16, instruction := "Return" }]

theorem balanced_crossingJumps : Ascending (offsetsOf crossingJumps) ∧ Switchless crossingJumps ∧
    HandlersAhead ⟨[(14, 2, 9)]⟩ ∧ ∃ out console inner,
      liftCode "f" crossingJumps ⟨[(14, 2, 9)]⟩ {} = .ok out console ∧
      out.map (·.rendered) = "\x7b" :: (inner ++ ["\x7d"]) ∧ Balanced (inLines inner) := by
  have ha : Ascending (offsetsOf crossingJumps) := by decide
  have hc : Switchless crossingJumps := by decide +kernel
  have hh : HandlersAhead ⟨[(14, 2, 9)]⟩ := by
    intro e he
    rw [List.mem_singleton.1 he]
    decide
  obtain ⟨rendered, recorder, hr⟩ := Run.exists_ok (by decide +kernel : Run.fails (renderLines crossingJumps)
    { tables := guardTables ⟨[(14, 2, 9)]⟩, console := {} } = false)
  obtain ⟨hentered, hrenders⟩ :=
    entered_of_renderLines crossingJumps (fun _ hl => hl) entered_guardTables hr
  obtain ⟨result, hl⟩ := @FlowM.exists_layOut "f" crossingJumps rendered ⟨[(14, 2, 9)]⟩ recorder.console
    recorder.tables hentered hrenders ha (by decide +kernel) (by decide) (by decide +kernel)
  have hok : liftCode "f" crossingJumps ⟨[(14, 2, 9)]⟩ {} = .ok result.code result.console := by
    unfold liftCode
    rw [hr]
    dsimp only
    rw [hl]
  obtain ⟨⟨inner, hinner, hbalanced⟩, _⟩ := balanced_of_liftCode ha hc hh hok
  exact ⟨ha, hc, hh, result.code, result.console, inner, hok, hinner, hbalanced⟩

end Bytelift
