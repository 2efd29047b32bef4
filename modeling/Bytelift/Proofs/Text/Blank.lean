import Bytelift.Proofs.Text.Numeral

/-! Blanks, and texts with blanks around them. There are few blanks, so that what is to hold of all of them is
decided one by one. -/

namespace Bytelift.Text

def blankCodes : List Nat :=
  [9, 10, 11, 12, 13, 28, 29, 30, 31, 32, 0x85, 0xa0, 0x1680, 0x2000, 0x2001, 0x2002, 0x2003, 0x2004, 0x2005,
    0x2006, 0x2007, 0x2008, 0x2009, 0x200a, 0x2028, 0x2029, 0x202f, 0x205f, 0x3000]

theorem toNat_mem_blankCodes {c : Char} (h : isBlank c = true) : c.toNat ∈ blankCodes := by
  simp only [isBlank, Bool.or_eq_true, Bool.and_eq_true, decide_eq_true_eq, beq_iff_eq] at h
  simp only [blankCodes, List.mem_cons, List.not_mem_nil, or_false]
  omega

theorem forall_blank {P : Char → Prop} (h : ∀ code ∈ blankCodes, P (Char.ofNat code)) {c : Char}
    (hc : isBlank c = true) : P c := by
  have hp := h c.toNat (toNat_mem_blankCodes hc)
  rwa [Char.ofNat_toNat] at hp

theorem isDecimal_of_isBlank {c : Char} (h : isBlank c = true) : isDecimal c = false :=
  forall_blank (P := fun c => isDecimal c = false) (by decide +kernel) h

theorem isWordChar_of_isBlank {c : Char} (h : isBlank c = true) : isWordChar c = false :=
  forall_blank (P := fun c => isWordChar c = false) (by decide +kernel) h

/-! ## Trimming -/

section Trim

variable (p : Char → Bool) (s : List Char)

theorem exists_trimEnd : ∃ after, s = trimEnd p s ++ after ∧ (∀ c ∈ after, p c = true) ∧
    ∀ c ∈ (trimEnd p s).getLast?, p c = false := by
  refine ⟨(s.reverse.takeWhile p).reverse, ?_, ?_, ?_⟩
  · rw [trimEnd, ← List.reverse_append, List.takeWhile_append_dropWhile, List.reverse_reverse]
  · intro c hc
    exact List.mem_takeWhile_imp (List.mem_reverse.1 hc)
  · intro c hc
    rw [trimEnd, List.getLast?_reverse] at hc
    have hhead := List.head?_dropWhile_not p s.reverse
    rwa [Option.mem_def.1 hc] at hhead

/-- What is trimmed off stands at the ends, and all of it is trimmed off. -/
theorem exists_trimBoth : ∃ before after, s = before ++ (trimBoth p s ++ after) ∧ (∀ c ∈ before, p c = true) ∧
    (∀ c ∈ after, p c = true) ∧ ∀ c ∈ (trimBoth p s).getLast?, p c = false := by
  obtain ⟨after, hs, hafter, hlast⟩ := exists_trimEnd p (s.dropWhile p)
  refine ⟨s.takeWhile p, after, ?_, fun c hc => List.mem_takeWhile_imp hc, hafter, hlast⟩
  rw [trimBoth, ← hs, List.takeWhile_append_dropWhile]

end Trim

end Bytelift.Text
