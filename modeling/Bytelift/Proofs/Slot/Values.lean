import Bytelift.Proofs.Slot.Reference
import Bytelift.Proofs.Table
import Mathlib.Data.List.Induction

/-! The values that a program gives to its slots, and what putting them in does to a text. A slot has a value
if it is assigned exactly once, clearing apart, and the assigned text is a plain word. No such word holds an
opening bracket, so a text that a value is put into has fewer brackets than before. -/

namespace Bytelift.Slot

open Text Substitution

/-! ## Plain words -/

theorem mem_of_isWord {s : List Char} (h : isWord s = true) {c : Char} (hc : c ∈ s) :
    isWordChar c = true ∨ c ∈ "#$\"".toList := by
  simp only [isWord, Bool.and_eq_true, List.all_eq_true, Bool.or_eq_true, beq_iff_eq] at h
  rcases h.2 c hc with (h | rfl) | rfl
  · exact Or.inl h
  · exact Or.inr (by decide)
  · exact Or.inr (by decide)

theorem mem_of_isQuotedWord {s : List Char} (h : isQuotedWord s = true) {c : Char} (hc : c ∈ s) :
    isWordChar c = true ∨ c ∈ "#$\"".toList := by
  unfold isQuotedWord at h
  split at h
  · next rest =>
    rw [Bool.and_eq_true, beq_iff_eq] at h
    obtain ⟨hlast, hword⟩ := h
    obtain ⟨inside, rfl⟩ := List.getLast?_eq_some_iff.1 hlast
    rw [List.dropLast_concat] at hword
    rw [List.mem_cons, List.mem_append, List.mem_singleton] at hc
    rcases hc with rfl | hc | rfl
    · exact Or.inr (by decide)
    · exact mem_of_isWord hword hc
    · exact Or.inr (by decide)
  · cases h

theorem mem_of_isPlain {value : String} (h : isPlain value = true) {c : Char} (hc : c ∈ value.toList) :
    isWordChar c = true ∨ c ∈ "#$\"".toList := by
  simp only [isPlain, Bool.and_eq_true, Bool.or_eq_true] at h
  rcases h.1 with h | h
  · exact mem_of_isWord h hc
  · exact mem_of_isQuotedWord h hc

theorem notMem_of_isPlain {value : String} (h : isPlain value = true) {c : Char}
    (hw : isWordChar c = false) (hc : c ∉ "#$\"".toList) : c ∉ value.toList := by
  intro hm
  rcases mem_of_isPlain h hm with hword | hmark
  · rw [hw] at hword
    cases hword
  · exact hc hmark

theorem ne_nil_of_isPlain {value : String} (h : isPlain value = true) : value.toList ≠ [] := by
  intro he
  simp [isPlain, he, isWord, isQuotedWord] at h

/-! ## The values of a program -/

def held? (values : Values) (slot : Slot) : Option String := (values.get? slot).join

/-- What a line assigns to a slot, unless it only clears the slot. -/
def givenBy (slot : Slot) (line : CodeLine) : Option String :=
  (assigned? line.text).bind fun (target, value) =>
    if target = slot ∧ isVoid value = false then some value else none

def givenTo (slot : Slot) (lines : List CodeLine) : List String := lines.filterMap (givenBy slot)

theorem get?_record (values : Values) (line : CodeLine) (slot : Slot) :
    (record values line).get? slot =
      match givenBy slot line with
      | none => values.get? slot
      | some value => some (if (values.get? slot).isSome || !isPlain value then none else some value) := by
  unfold record givenBy
  cases hassigned : assigned? line.text with
  | none => rfl
  | some given =>
    obtain ⟨target, value⟩ := given
    by_cases hvoid : isVoid value = true
    · simp [hvoid]
    · by_cases htarget : target = slot
      · subst htarget
        simp [hvoid, Table.contains_eq_isSome]
      · simp [hvoid, htarget]

/-- A slot has a value if a plain word is assigned to it, and nothing else is. -/
theorem get?_recordAll (slot : Slot) (lines : List CodeLine) :
    (lines.foldl record {}).get? slot =
      match givenTo slot lines with
      | [] => none
      | [value] => some (if isPlain value then some value else none)
      | _ :: _ :: _ => some none := by
  induction lines using List.reverseRecOn with
  | nil => rfl
  | append_singleton lines line ih =>
    rw [List.foldl_append, List.foldl_cons, List.foldl_nil, get?_record, ih, givenTo, givenTo, List.filterMap_append]
    cases hline : givenBy slot line with
    | none => simp [hline]
    | some value =>
      rw [List.filterMap_cons_some hline, List.filterMap_nil]
      match lines.filterMap (givenBy slot) with
      | [] => cases hplain : isPlain value <;> simp [hplain]
      | [_] => simp
      | _ :: _ :: _ => simp

abbrev linesOf (functions : Functions) : List CodeLine := functions.values.flatMap Function.lines

theorem held?_valuesOf {functions : Functions} {slot : Slot} {value : String} :
    held? (valuesOf functions) slot = some value ↔
      givenTo slot (linesOf functions) = [value] ∧ isPlain value = true := by
  rw [held?, valuesOf, get?_recordAll]
  match givenTo slot (linesOf functions) with
  | [] => simp
  | [given] =>
    rw [Option.join_some, Option.ite_none_right_eq_some, Option.some.injEq, List.cons.injEq]
    constructor
    · rintro ⟨hplain, rfl⟩
      exact ⟨⟨rfl, rfl⟩, hplain⟩
    · rintro ⟨⟨rfl, -⟩, hplain⟩
      exact ⟨hplain, rfl⟩
  | _ :: _ :: _ => simp

/-! ## Putting values in -/

section PutIn

variable {values : Values}

theorem putIn_nil : putIn values [] = [] := rfl

theorem putIn_plain {c : Char} {cs : List Char} (h : reference none (c :: cs) = none) :
    putIn values (c :: cs) = c :: putIn values cs := forward_reference.substitute_plain _ h

theorem putIn_hit {c : Char} {cs rest : List Char} {slot : Slot}
    (h : reference none (c :: cs) = some (slot, rest)) :
    putIn values (c :: cs) = ((held? values slot).getD slot.write).toList ++ putIn values rest :=
  forward_reference.substitute_hit _ h

theorem putIn_write {slot : Slot} {rest : List Char} (hn : slot.Numbered) (hr : rest.head? ≠ some '[') :
    putIn values (slot.write.toList ++ rest) =
      ((held? values slot).getD slot.write).toList ++ putIn values rest := by
  obtain ⟨c, cs, hw⟩ := List.exists_cons_of_ne_nil (write_ne_nil slot)
  have hread : reference none (c :: (cs ++ rest)) = some (slot, rest) :=
    reference_eq_some.2 ⟨hn, by rw [hw, List.cons_append], hr⟩
  rw [hw, List.cons_append]
  exact putIn_hit hread

/-- Values that may be put in: plain words. -/
def Fit (values : Values) : Prop := ∀ slot value, held? values slot = some value → isPlain value = true

theorem fit_valuesOf (functions : Functions) : Fit (valuesOf functions) :=
  fun _ _ h => (held?_valuesOf.1 h).2

/-- Putting values in either changes nothing or takes brackets away. -/
theorem putIn_eq_or_count_lt (hv : Fit values) (s : List Char) :
    putIn values s = s ∨ (putIn values s).count '[' < s.count '[' := by
  induction s using forward_reference.induction with
  | nil => exact Or.inl putIn_nil
  | plain c cs hr ih =>
    rw [putIn_plain hr, List.count_cons, List.count_cons]
    rcases ih with ih | ih
    · exact Or.inl (by rw [ih])
    · exact Or.inr (by omega)
  | hit c cs slot rest hr ih =>
    obtain ⟨_, hs, _⟩ := reference_eq_some.1 hr
    rw [putIn_hit hr, hs]
    cases hheld : held? values slot with
    | none =>
      rw [Option.getD_none, List.count_append, List.count_append]
      rcases ih with ih | ih
      · exact Or.inl (by rw [ih])
      · exact Or.inr (by omega)
    | some value =>
      have hvalue : value.toList.count '[' = 0 :=
        List.count_eq_zero.2 (notMem_of_isPlain (hv slot value hheld) (by decide) (by decide))
      have hwrite := @count_bracket_write slot
      have hrest : (putIn values rest).count '[' ≤ rest.count '[' := by
        rcases ih with ih | ih
        · rw [ih]
        · exact Nat.le_of_lt ih
      rw [Option.getD_some, List.count_append, List.count_append]
      exact Or.inr (by omega)

theorem propagate_eq_or_count_lt (hv : Fit values) (text : String) :
    propagate values text = text ∨ (propagate values text).toList.count '[' < text.toList.count '[' := by
  unfold propagate
  split
  · next left right hcut =>
    have htext := Assignment.eq_append_of_cut? hcut
    rw [String.toList_ofList, htext, List.count_append, List.count_append, List.count_cons, List.count_cons]
    rcases putIn_eq_or_count_lt hv right with h | h
    · exact Or.inl (by rw [h, ← htext, String.ofList_toList])
    · exact Or.inr (by omega)
  · rw [String.toList_ofList]
    rcases putIn_eq_or_count_lt hv text.toList with h | h
    · exact Or.inl (by rw [h, String.ofList_toList])
    · exact Or.inr h

end PutIn

end Bytelift.Slot
