import Bytelift.Proofs.Slot.Assignment

/-! Settling does not depend on order. A slot has a value if one line gives it one, wherever that line stands; so
every round finds the same values in the same lines, however they are arranged, and does the same to each of them. -/

namespace Bytelift.Slot

open Run

def mapLines (change : CodeLine → CodeLine) (functions : Functions) : Functions :=
  functions.mapValues fun f => { f with code := f.code.map (·.map change) }

theorem mapLines_id (functions : Functions) : mapLines id functions = functions := by
  simp [mapLines, Table.mapValues]

theorem mapLines_mapLines (first second : CodeLine → CodeLine) (functions : Functions) :
    mapLines second (mapLines first functions) = mapLines (second ∘ first) functions := by
  simp [mapLines, Table.mapValues]

/-- The same functions in any order, each with the same lines in any order. -/
def Reordered (functions others : Functions) : Prop :=
  ∃ arrange : String → List CodeLine → List CodeLine, (∀ name lines, (arrange name lines).Perm lines) ∧
    others.entries.Perm (functions.entries.map fun e => (e.1, { e.2 with code := e.2.code.map (arrange e.1) }))

variable {functions others : Functions}

theorem Reordered.perm (h : Reordered functions others) : (linesOf others).Perm (linesOf functions) := by
  obtain ⟨arrange, hlines, hperm⟩ := h
  refine ((hperm.map (·.2)).flatMap_right Function.lines).trans ?_
  rw [List.map_map, List.flatMap_map, linesOf, Table.values, List.flatMap_map]
  refine List.Perm.flatMap_left _ fun e _ => ?_
  cases hcode : e.2.code with
  | none => simp [Function.lines, hcode]
  | some lines => simpa [Function.lines, hcode] using hlines e.1 lines

/-- What is put in for slots is told by the lines and not by their order. -/
theorem propagate_of_perm (h : (linesOf functions).Perm (linesOf others)) :
    propagate (valuesOf functions) = propagate (valuesOf others) := by
  have hheld : ∀ slot, held? (valuesOf functions) slot = held? (valuesOf others) slot := by
    intro slot
    have hgiven : (givenTo slot (linesOf functions)).Perm (givenTo slot (linesOf others)) := h.filterMap _
    refine Option.ext fun value => ?_
    rw [held?_valuesOf, held?_valuesOf, ← List.perm_singleton, ← List.perm_singleton, hgiven.congr_left]
  unfold held? at hheld
  funext text
  simp only [propagate, putIn, hheld]

/-- Any number of rounds does the same to all lines and counts the same changes. -/
theorem rounds_of_perm (bound : Nat) (h : (linesOf functions).Perm (linesOf others)) :
    ∃ final, (rounds bound functions).2 = mapLines final functions ∧ (rounds bound others).2 = mapLines final others ∧
      changeCount (rounds bound functions).1 = changeCount (rounds bound others).1 := by
  induction bound generalizing functions others with
  | zero => exact ⟨id, (mapLines_id _).symm, (mapLines_id _).symm, rfl⟩
  | succ bound ih =>
    have hsame := propagate_of_perm h
    have hchanges : (round functions).1.changes.Perm (round others).1.changes := by
      simp only [round, changesIn, hsame]
      exact h.filterMap _
    have hline : propagateLine (valuesOf functions) = propagateLine (valuesOf others) := by
      funext line
      simp only [propagateLine, hsame]
    have hfirst : (round functions).2 = mapLines (propagateLine (valuesOf functions)) functions := rfl
    have hother : (round others).2 = mapLines (propagateLine (valuesOf functions)) others := by
      rw [hline]
      rfl
    simp only [rounds, hchanges.isEmpty_eq]
    split
    · exact ⟨_, hfirst, hother, by simp [changeCount, hchanges.length_eq]⟩
    · have hlines : (linesOf (round functions).2).Perm (linesOf (round others).2) := by
        rw [linesOf_round, linesOf_round, hline]
        exact h.map _
      obtain ⟨final, hf, ho, hcount⟩ := ih hlines
      refine ⟨final ∘ propagateLine (valuesOf functions), ?_, ?_, ?_⟩
      · rw [hf, hfirst, mapLines_mapLines]
      · rw [ho, hother, mapLines_mapLines]
      · simpa [changeCount, hchanges.length_eq] using hcount

/-- In whatever order functions and lines stand, settling does the same to every line and counts the same changes. -/
theorem settleSlots_reordered {σ : Type} [HasConsole σ] (h : Reordered functions others) :
    ∃ count final, ∀ program ∈ [functions, others], ∀ (verbosity : Int) (s : σ),
      Yields (settleSlots verbosity program) s fun answer _ => answer = (count, mapLines final program) := by
  have hperm := h.perm.symm
  have hbound : bracketCount functions = bracketCount others := (hperm.flatMap_right _).count_eq '['
  obtain ⟨final, hf, ho, hcount⟩ := rounds_of_perm (bracketCount others + 1) hperm
  refine ⟨changeCount (allRounds others).1, final, ?_⟩
  intro program hprogram verbosity s
  refine (yields_settleSlots verbosity program s).mono ?_
  rintro _ _ rfl
  simp only [List.mem_cons, List.not_mem_nil, or_false] at hprogram
  rcases hprogram with rfl | rfl
  · rw [allRounds, allRounds, hbound, hf, hcount]
  · rw [allRounds, ho]

def backwards (functions : Functions) : Functions :=
  ⟨(functions.entries.map fun e => (e.1, { e.2 with code := e.2.code.map List.reverse })).reverse⟩

theorem settleSlots_backwards : ∃ count final, ∀ program ∈ [assignedTwice, backwards assignedTwice],
    ∀ (verbosity : Int) (s : Desk),
      Yields (settleSlots verbosity program) s fun answer _ => answer = (count, mapLines final program) :=
  settleSlots_reordered ⟨fun _ => List.reverse, fun _ => List.reverse_perm, List.reverse_perm _⟩

end Bytelift.Slot
