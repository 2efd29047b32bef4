import Bytelift.Slot
import Bytelift.Proofs.Substitution.Frame
import Bytelift.Proofs.Text.Numeral

/-! Slots as they stand in a text. A slot is read from its written form and from nothing else, so a text that
is cut at a character that no slot has is read part by part. -/

namespace Bytelift

namespace Substitution

open Text

theorem bracketed?_eq_some {s ds rest : List Char} : bracketed? s = some (ds, rest) ↔
    ds ≠ [] ∧ (∀ c ∈ ds, isDecimal c = true) ∧ s = '[' :: (ds ++ ']' :: rest) := by
  constructor
  · intro h
    obtain ⟨inside, hinside, h⟩ := Option.bind_eq_some_iff.1 h
    obtain ⟨⟨_, more⟩, hdigits, h⟩ := Option.bind_eq_some_iff.1 h
    obtain ⟨last, hlast, he⟩ := Option.map_eq_some_iff.1 h
    cases he
    obtain ⟨hs, hne, hd⟩ := digits?_eq_some hdigits
    refine ⟨hne, hd, ?_⟩
    rw [eq_append_of_after? hinside, hs, eq_append_of_after? hlast]
    rfl
  · rintro ⟨hne, hd, rfl⟩
    have hends : Ends (']' :: rest) := ends_cons (by decide)
    simp [bracketed?, after?, digits?_run hne hd hends]

end Substitution

namespace Slot

open Text Substitution

/-! ## Reading a slot -/

/-- A text that is a number: decimal digits, one at least. -/
structure IsNumber (s : String) : Prop where
  filled : s.toList ≠ []
  decimal : ∀ c ∈ s.toList, isDecimal c = true

/-- A slot whose context and index are numbers, as every slot is that is read from a text. -/
structure Numbered (slot : Slot) : Prop where
  context : IsNumber slot.context
  index : IsNumber slot.index

theorem toList_write (slot : Slot) : slot.write.toList =
    "Scope".toList ++ ('[' :: (slot.context.toList ++ ']' :: '[' :: (slot.index.toList ++ [']']))) := by
  simp [write, String.toList_append]

theorem toList_write_append (slot : Slot) (rest : List Char) : slot.write.toList ++ rest =
    "Scope".toList ++ ('[' :: (slot.context.toList ++ ']' :: '[' :: (slot.index.toList ++ ']' :: rest))) := by
  simp [toList_write]

theorem read?_eq_some {s rest : List Char} {slot : Slot} :
    read? s = some (slot, rest) ↔ slot.Numbered ∧ s = slot.write.toList ++ rest := by
  rw [toList_write_append]
  constructor
  · intro h
    obtain ⟨named, hnamed, h⟩ := Option.bind_eq_some_iff.1 h
    obtain ⟨⟨context, more⟩, hcontext, h⟩ := Option.bind_eq_some_iff.1 h
    obtain ⟨⟨index, last⟩, hindex, he⟩ := Option.map_eq_some_iff.1 h
    cases he
    obtain ⟨hc, hcd, rfl⟩ := bracketed?_eq_some.1 hcontext
    obtain ⟨hi, hid, rfl⟩ := bracketed?_eq_some.1 hindex
    refine ⟨⟨⟨?_, ?_⟩, ⟨?_, ?_⟩⟩, ?_⟩
    · rwa [String.toList_ofList]
    · rwa [String.toList_ofList]
    · rwa [String.toList_ofList]
    · rwa [String.toList_ofList]
    · simpa only [String.toList_ofList] using eq_append_of_after? hnamed
  · rintro ⟨h, rfl⟩
    have hindex : bracketed? ('[' :: (slot.index.toList ++ ']' :: rest)) = some (slot.index.toList, rest) :=
      bracketed?_eq_some.2 ⟨h.index.filled, h.index.decimal, rfl⟩
    have hcontext : bracketed? ('[' :: (slot.context.toList ++ ']' :: '[' :: (slot.index.toList ++ ']' :: rest))) =
        some (slot.context.toList, '[' :: (slot.index.toList ++ ']' :: rest)) :=
      bracketed?_eq_some.2 ⟨h.context.filled, h.context.decimal, rfl⟩
    simp only [read?, after?_append, Option.bind_some, hcontext, hindex, Option.map_some, String.ofList_toList]

theorem reference_eq_some {before : Option Char} {s rest : List Char} {slot : Slot} :
    reference before s = some (slot, rest) ↔
      slot.Numbered ∧ s = slot.write.toList ++ rest ∧ rest.head? ≠ some '[' := by
  rw [← and_assoc, ← read?_eq_some]
  unfold reference
  split
  · next found more hread =>
    rw [hread]
    constructor
    · intro h
      cases h
    · rintro ⟨h, hne⟩
      cases h
      exact absurd rfl hne
  · next hread =>
    constructor
    · intro h
      refine ⟨h, ?_⟩
      intro hhead
      cases rest with
      | nil => cases hhead
      | cons c cs =>
        cases hhead
        exact hread _ _ h
    · exact And.left

theorem write_ne_nil (slot : Slot) : slot.write.toList ≠ [] := by
  simp [toList_write]

theorem forward_reference : Forward reference where
  blind _ _ := rfl
  leaves {c cs slot rest} h := by
    obtain ⟨_, hs, _⟩ := reference_eq_some.1 h
    rw [toList_write] at hs
    obtain ⟨-, rfl⟩ := List.cons_eq_cons.1 hs
    exact ⟨_, rfl⟩

/-- The characters of a slot. -/
theorem mem_write {slot : Slot} (h : slot.Numbered) {c : Char} (hc : c ∈ slot.write.toList) :
    c ∈ "Scope[]".toList ∨ isDecimal c = true := by
  rw [toList_write] at hc
  simp only [List.mem_append, List.mem_cons, List.not_mem_nil, or_false] at hc
  rcases hc with hc | rfl | hc | rfl | rfl | hc | rfl
  · have hlead : "Scope".toList <+: "Scope[]".toList := by decide
    exact Or.inl (hlead.subset hc)
  · left
    decide
  · exact Or.inr (h.context.decimal c hc)
  · left
    decide
  · left
    decide
  · exact Or.inr (h.index.decimal c hc)
  · left
    decide

theorem count_bracket_write {slot : Slot} : 2 ≤ slot.write.toList.count '[' := by
  rw [toList_write]
  simp only [List.count_append, List.count_cons, beq_self_eq_true, if_true]
  omega

end Slot

end Bytelift
