import Bytelift.Proofs.Slot.Values
import Mathlib.Algebra.Order.BigOperators.Group.List
import Mathlib.Algebra.Order.Group.Nat

/-! Rounds end. A round that changes a line takes brackets out of it and puts none into any, so that there are
no more such rounds than brackets; a round that changes nothing would change nothing again. -/

namespace Bytelift.Slot

open Run

/-! ## What a round does to the lines -/

@[simp] theorem text_hideVoid (line : CodeLine) : (hideVoid line).text = line.text := by
  unfold hideVoid
  split <;> rfl

theorem hideVoid_hideVoid (line : CodeLine) : hideVoid (hideVoid line) = hideVoid line := by
  unfold hideVoid
  split
  · simp
  · rfl

@[simp] theorem text_propagateLine (values : Values) (line : CodeLine) :
    (propagateLine values line).text = propagate values line.text := rfl

theorem lines_propagateFunction (values : Values) (f : Function) :
    (propagateFunction values f).lines = f.lines.map (propagateLine values) := by
  unfold propagateFunction Function.lines
  cases f.code <;> rfl

theorem linesOf_round (functions : Functions) :
    linesOf (round functions).2 = (linesOf functions).map (propagateLine (valuesOf functions)) := by
  have hvalues : (round functions).2.values = functions.values.map (propagateFunction (valuesOf functions)) := by
    simp only [round, Table.values, Table.mapValues, List.map_map]
    rfl
  rw [linesOf, hvalues, List.flatMap_map, List.map_flatMap]
  simp only [lines_propagateFunction]

theorem changes_eq_nil {functions : Functions} : (round functions).1.changes = [] ↔
    ∀ line ∈ linesOf functions, propagate (valuesOf functions) line.text = line.text := by
  simp only [round, changesIn, List.filterMap_eq_nil_iff, ite_eq_left_iff, reduceCtorEq, imp_false, not_not]

/-! ## Brackets -/

def brackets (lines : List CodeLine) : Nat := (lines.map fun line => line.text.toList.count '[').sum

theorem bracketCount_eq (functions : Functions) : bracketCount functions = brackets (linesOf functions) := by
  rw [bracketCount, List.count_flatMap, brackets]
  rfl

/-- A round that changes a line takes brackets out. -/
theorem bracketCount_round_lt {functions : Functions} (h : (round functions).1.changes ≠ []) :
    bracketCount (round functions).2 < bracketCount functions := by
  rw [bracketCount_eq, bracketCount_eq, linesOf_round, brackets, brackets, List.map_map]
  have hv := fit_valuesOf functions
  rw [ne_eq, changes_eq_nil] at h
  push Not at h
  obtain ⟨line, hline, hchanged⟩ := h
  refine List.sum_lt_sum _ _ ?_ ⟨line, hline, ?_⟩
  · intro line _
    rcases propagate_eq_or_count_lt hv line.text with h | h
    · exact Nat.le_of_eq (by simp [h])
    · exact Nat.le_of_lt h
  · exact (propagate_eq_or_count_lt hv line.text).resolve_left hchanged

/-! ## A round that changes nothing -/

theorem valuesOf_congr {functions others : Functions}
    (h : (linesOf functions).map (·.text) = (linesOf others).map (·.text)) :
    valuesOf functions = valuesOf others := by
  have hrecord : record = fun values line => record values { text := line.text } := by
    funext values line
    simp only [record]
  have hfold : ∀ lines : List CodeLine, lines.foldl record {} =
      (lines.map (·.text)).foldl (fun values text => record values { text }) {} := by
    intro lines
    rw [List.foldl_map, ← hrecord]
  rw [valuesOf, valuesOf, hfold, hfold, h]

/-- A line that holds no value to put in is hidden, if it is to be hidden, and that is all. -/
theorem propagateLine_propagateLine {values : Values} {line : CodeLine}
    (h : propagate values line.text = line.text) :
    propagateLine values (propagateLine values line) = propagateLine values line := by
  have honce : propagateLine values line = hideVoid line := by
    rw [propagateLine, h, ← text_hideVoid]
  rw [honce, propagateLine, text_hideVoid, h, hideVoid_hideVoid, ← text_hideVoid]

theorem propagateFunction_propagateFunction {values : Values} {f : Function}
    (h : ∀ line ∈ f.lines, propagate values line.text = line.text) :
    propagateFunction values (propagateFunction values f) = propagateFunction values f := by
  unfold propagateFunction
  unfold Function.lines at h
  cases hcode : f.code with
  | none => rfl
  | some code =>
    rw [hcode] at h
    simp only [Option.map_some, List.map_map, Function.mk.injEq, Option.some.injEq, true_and, and_true]
    exact List.map_congr_left fun line hline => propagateLine_propagateLine (h line hline)

/-- After a round that changes no text there is nothing left to change, not even a line to hide. -/
theorem round_round {functions : Functions} (h : (round functions).1.changes = []) :
    round (round functions).2 = round functions := by
  have hsame := changes_eq_nil.1 h
  have htexts : (linesOf (round functions).2).map (·.text) = (linesOf functions).map (·.text) := by
    rw [linesOf_round, List.map_map]
    exact List.map_congr_left hsame
  have hvalues := valuesOf_congr htexts
  have hchanges : (round (round functions).2).1.changes = [] := by
    rw [changes_eq_nil, hvalues]
    intro line hline
    have htext : line.text ∈ (linesOf functions).map (·.text) := htexts ▸ List.mem_map_of_mem hline
    obtain ⟨old, hold, he⟩ := List.mem_map.1 htext
    rw [← he]
    exact hsame old hold
  have hfunctions : (round (round functions).2).2 = (round functions).2 := by
    change Table.mapValues _ (round functions).2 = functions.mapValues _
    rw [hvalues]
    refine congrArg Table.mk ?_
    change (functions.entries.map _).map _ = functions.entries.map _
    rw [List.map_map]
    refine List.map_congr_left ?_
    rintro ⟨name, f⟩ hentry
    have hf : ∀ line ∈ f.lines, propagate (valuesOf functions) line.text = line.text := fun line hline =>
      hsame line (List.mem_flatMap.2 ⟨f, List.mem_map_of_mem hentry, hline⟩)
    exact congrArg (Prod.mk name) (propagateFunction_propagateFunction hf)
  have hround : (round (round functions).2).1 = (round functions).1 := by
    change Round.mk _ _ = Round.mk _ _
    rw [Round.mk.injEq]
    exact ⟨hvalues, hchanges.trans h.symm⟩
  exact Prod.ext hround hfunctions

/-! ## Rounds without a bound -/

/-- Rounds until one changes nothing, however many that takes. -/
inductive Settles : Functions → List Round → Functions → Prop
  | done {functions : Functions} (h : (round functions).1.changes = []) :
    Settles functions [(round functions).1] (round functions).2
  | again {functions settled : Functions} {rest : List Round} (h : (round functions).1.changes ≠ [])
    (hrest : Settles (round functions).2 rest settled) :
    Settles functions ((round functions).1 :: rest) settled

/-- There are no more rounds than there are brackets, and one. -/
theorem settles_rounds {bound : Nat} {functions : Functions} (h : bracketCount functions < bound) :
    Settles functions (rounds bound functions).1 (rounds bound functions).2 := by
  induction bound generalizing functions with
  | zero => omega
  | succ bound ih =>
    by_cases hchanges : (round functions).1.changes = []
    · simp only [rounds, hchanges, List.isEmpty_nil, if_true]
      exact .done hchanges
    · have hempty : (round functions).1.changes.isEmpty = false := by simpa using hchanges
      have hfewer := bracketCount_round_lt hchanges
      simp only [rounds, hempty, Bool.false_eq_true, if_false]
      exact .again hchanges (ih (by omega))

theorem settles_allRounds (functions : Functions) :
    Settles functions (allRounds functions).1 (allRounds functions).2 := settles_rounds (by omega)

theorem Settles.length_le {functions settled : Functions} {rounds : List Round}
    (h : Settles functions rounds settled) : rounds.length ≤ bracketCount functions + 1 := by
  induction h with
  | done h => simp
  | again h _ ih =>
    have hfewer := bracketCount_round_lt h
    rw [List.length_cons]
    omega

/-- What the rounds end with is as the last of them found it. -/
theorem Settles.round_settled {functions settled : Functions} {rounds : List Round}
    (h : Settles functions rounds settled) : ∃ last, round settled = (last, settled) ∧ last.changes = [] := by
  induction h with
  | @done functions h => exact ⟨(round functions).1, round_round h, h⟩
  | again _ _ ih => exact ih

theorem allRounds_of_round {functions : Functions} {last : Round} (h : round functions = (last, functions))
    (hl : last.changes = []) : allRounds functions = ([last], functions) := by
  unfold allRounds
  rw [rounds, h]
  simp [hl]

/-! ## Settling -/

variable {σ : Type} [HasConsole σ]

theorem yields_sayAll {lines : List String} {s : σ} : Yields (sayAll lines) s fun _ _ => True := by
  induction lines generalizing s with
  | nil => exact yields_pure.2 trivial
  | cons line lines ih =>
    rw [sayAll, yields_bind, yields_say]
    exact ih

theorem yields_settleSlots (verbosity : Int) (functions : Functions) (s : σ) :
    Yields (settleSlots verbosity functions) s fun answer _ =>
      answer = (changeCount (allRounds functions).1, (allRounds functions).2) := by
  unfold settleSlots
  rw [yields_bind]
  refine yields_sayAll.mono fun _ t _ => ?_
  rw [yields_pure]

/-- Settling ends, after no more rounds than there are brackets and one, with functions that settling again leaves
as they are: no text changes, no line is hidden, and no change is counted. -/
theorem settleSlots_settles (verbosity : Int) (functions : Functions) (s : σ) :
    ∃ rounds settled, Settles functions rounds settled ∧ rounds.length ≤ bracketCount functions + 1 ∧
      (Yields (settleSlots verbosity functions) s fun answer _ => answer = (changeCount rounds, settled)) ∧
      ∀ (again : Int) (t : σ), Yields (settleSlots again settled) t fun answer _ => answer = (0, settled) := by
  have hsettles := settles_allRounds functions
  refine ⟨_, _, hsettles, hsettles.length_le, yields_settleSlots verbosity functions s, ?_⟩
  intro again t
  obtain ⟨last, hround, hlast⟩ := hsettles.round_settled
  refine (yields_settleSlots again _ t).mono ?_
  rintro answer _ rfl
  rw [allRounds_of_round hround hlast]
  simp [changeCount, hlast]

end Bytelift.Slot
