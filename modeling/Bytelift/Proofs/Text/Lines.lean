import Bytelift.Text.Scan

/-! The lines of a text. A text that is put together with line breaks has the lines of its parts, and what
is replaced within a line stays within it. -/

namespace Bytelift.Text

/-! ## Literals are found one after the other -/

/-- A literal is recognised whatever stands before it, and a hit is skipped over at once. -/
theorem scan_literal (mark : List Char) (s : List Char) (before before' : Option Char) (covered : Nat) :
    scan (literal mark) before covered s = scan (literal mark) before' 0 (s.drop covered) := by
  induction s generalizing before covered with
  | nil => cases covered <;> simp [scan]
  | cons c cs ih =>
    cases covered with
    | zero => simp [scan, literal]
    | succ covered => simpa [scan] using ih (some c) covered

theorem pieces_literal_cons {p : Char} {ps : List Char} (c : Char) (cs : List Char) :
    pieces (literal (p :: ps)) (c :: cs) =
      match after? (p :: ps) (c :: cs) with
      | some rest => .hit () :: pieces (literal (p :: ps)) rest
      | none => .plain c :: pieces (literal (p :: ps)) cs := by
  unfold pieces
  rw [scan]
  cases ha : after? (p :: ps) (c :: cs) with
  | none =>
    simp only [literal, ha, Option.map_none]
    rw [scan_literal _ cs _ none 0, List.drop_zero]
  | some rest =>
    have he := eq_append_of_after? ha
    rw [List.cons_append, List.cons.injEq] at he
    simp only [literal, ha, Option.map_some]
    rw [he.2, List.length_append, Nat.add_sub_cancel]
    have hs := scan_literal (p :: ps) (ps ++ rest) (some c) none ps.length
    rw [List.drop_left] at hs
    exact congrArg _ hs

/-! ## Texts between marks -/

section Marks

variable {p : Char} {ps a : List Char}

theorem after?_eq_none {c : Char} (h : c ≠ p) (cs : List Char) : after? (p :: ps) (c :: cs) = none := by
  have hne : ¬p = c := fun he => h he.symm
  simp [after?, hne]

/-- A text is cut at a mark whose first character does not stand before it. -/
theorem cut?_append (h : p ∉ a) (b : List Char) : cut? (p :: ps) (a ++ ((p :: ps) ++ b)) = some (a, b) := by
  induction a with
  | nil =>
    have hfound := after?_append (p :: ps) b
    rw [List.cons_append] at hfound
    simp only [List.nil_append, List.cons_append, cut?, hfound]
  | cons c cs ih =>
    rw [List.mem_cons, not_or] at h
    simp only [List.cons_append, cut?, after?_eq_none (fun he => h.1 he.symm)]
    rw [← List.cons_append, ih h.2]
    rfl

theorem splitAll_eq_singleton (h : p ∉ a) : splitAll (p :: ps) a = [a] := by
  induction a with
  | nil => rfl
  | cons c cs ih =>
    rw [List.mem_cons, not_or] at h
    have hrest := ih h.2
    rw [splitAll] at hrest ⊢
    rw [pieces_literal_cons, after?_eq_none fun he => h.1 he.symm]
    simp only [between, hrest]

theorem splitAll_append_mark (h : p ∉ a) (b : List Char) :
    splitAll (p :: ps) (a ++ ((p :: ps) ++ b)) = a :: splitAll (p :: ps) b := by
  induction a with
  | nil =>
    have hfound := after?_append (p :: ps) b
    rw [List.cons_append] at hfound
    rw [List.nil_append, List.cons_append, splitAll, pieces_literal_cons, hfound]
    rfl
  | cons c cs ih =>
    rw [List.mem_cons, not_or] at h
    have hrest := ih h.2
    rw [splitAll] at hrest ⊢
    rw [List.cons_append, pieces_literal_cons, after?_eq_none fun he => h.1 he.symm]
    simp only [between, hrest]

variable {mark first : String}

theorem cutAt?_append (hm : mark.toList = p :: ps) (h : p ∉ first.toList) (rest : String) :
    cutAt? (first ++ mark ++ rest) mark = some (first, rest) := by
  rw [cutAt?, String.toList_append, String.toList_append, List.append_assoc, hm, cut?_append h]
  simp

theorem split_eq_singleton (hm : mark.toList = p :: ps) (h : p ∉ first.toList) : split first mark = [first] := by
  rw [split, hm, splitAll_eq_singleton h]
  simp

theorem split_append_mark (hm : mark.toList = p :: ps) (h : p ∉ first.toList) (rest : String) :
    split (first ++ mark ++ rest) mark = first :: split rest mark := by
  rw [split, String.toList_append, String.toList_append, List.append_assoc, hm, splitAll_append_mark h, split, hm]
  simp

end Marks

/-! ## Lines -/

variable {m : Char}

theorem between_ne_nil {α : Type} (ps : List (Piece α)) : between ps ≠ [] := by
  cases ps with
  | nil => simp [between]
  | cons p ps =>
    cases p with
    | hit => simp [between]
    | plain c =>
      simp only [between]
      split <;> simp

theorem splitAll_ne_nil (mark s : List Char) : splitAll mark s ≠ [] := between_ne_nil _

theorem splitAll_mark (s : List Char) : splitAll [m] (m :: s) = [] :: splitAll [m] s := by
  simp [splitAll, pieces_literal_cons, after?, between]

theorem splitAll_cons {c : Char} (hc : c ≠ m) {s part : List Char} {parts : List (List Char)}
    (h : splitAll [m] s = part :: parts) : splitAll [m] (c :: s) = (c :: part) :: parts := by
  have hne : ¬m = c := fun he => hc he.symm
  unfold splitAll at h
  simp [splitAll, pieces_literal_cons, after?, hne, between, h]

theorem splitAll_of_notMem {s : List Char} (h : m ∉ s) : splitAll [m] s = [s] := by
  induction s with
  | nil => rfl
  | cons c cs ih =>
    simp only [List.mem_cons, not_or] at h
    exact splitAll_cons (fun he => h.1 he.symm) (ih h.2)

/-- The parts of two texts with a mark between them. -/
theorem splitAll_append (a b : List Char) :
    splitAll [m] (a ++ m :: b) = splitAll [m] a ++ splitAll [m] b := by
  induction a with
  | nil => simp [splitAll_mark, splitAll_of_notMem]
  | cons c cs ih =>
    by_cases hc : c = m
    · subst hc
      rw [List.cons_append, splitAll_mark, splitAll_mark, ih]
      rfl
    · obtain ⟨part, parts, hs⟩ := List.exists_cons_of_ne_nil (splitAll_ne_nil [m] cs)
      rw [List.cons_append, splitAll_cons hc hs, splitAll_cons hc (ih.trans (by rw [hs]; rfl))]
      rfl

/-- What is put in front of a text goes to its first part. -/
theorem splitAll_append_left {x s part : List Char} {parts : List (List Char)} (hx : m ∉ x)
    (hs : splitAll [m] s = part :: parts) : splitAll [m] (x ++ s) = (x ++ part) :: parts := by
  induction x with
  | nil => exact hs
  | cons c cs ih =>
    simp only [List.mem_cons, not_or] at hx
    exact splitAll_cons (fun he => hx.1 he.symm) (ih hx.2)

/-- What is put after a text goes to its last part. -/
theorem splitAll_append_right {x s last : List Char} {init : List (List Char)} (hx : m ∉ x)
    (hs : splitAll [m] s = init ++ [last]) : splitAll [m] (s ++ x) = init ++ [last ++ x] := by
  induction s generalizing init last with
  | nil =>
    rw [splitAll_of_notMem (by simp)] at hs
    rw [List.nil_append, splitAll_of_notMem hx]
    cases init with
    | nil =>
      simp only [List.nil_append, List.cons.injEq, and_true] at hs
      simp [← hs]
    | cons _ init => cases init <;> simp at hs
  | cons c cs ih =>
    rw [List.cons_append]
    by_cases hc : c = m
    · subst hc
      rw [splitAll_mark] at hs ⊢
      cases init with
      | nil =>
        simp only [List.nil_append, List.cons.injEq] at hs
        exact absurd hs.2 (splitAll_ne_nil _ _)
      | cons i init =>
        simp only [List.cons_append, List.cons.injEq] at hs ⊢
        exact ⟨hs.1, ih hs.2⟩
    · obtain ⟨part, parts, hparts⟩ := List.exists_cons_of_ne_nil (splitAll_ne_nil [m] cs)
      rw [splitAll_cons hc hparts] at hs
      cases init with
      | nil =>
        simp only [List.nil_append, List.cons.injEq] at hs
        obtain ⟨rfl, rfl⟩ := hs
        have hrec : splitAll [m] (cs ++ x) = [] ++ [part ++ x] := ih hparts
        exact splitAll_cons hc hrec
      | cons i init =>
        simp only [List.cons_append, List.cons.injEq] at hs
        obtain ⟨rfl, rfl⟩ := hs
        have hrec : splitAll [m] (cs ++ x) = (part :: init) ++ [last ++ x] := ih hparts
        exact splitAll_cons hc hrec

/-! ## Replacing -/

variable {p : Char} {ps new : List Char}

def swap (mark new s : List Char) : List Char := substitute (literal mark) (fun _ => new) s

theorem replace_eq (s old new : String) :
    (replace s old new).toList = swap old.toList new.toList s.toList := by
  simp [replace, swap]

@[simp] theorem swap_nil (mark : List Char) : swap mark new [] = [] := rfl

theorem swap_hit {s rest : List Char} (h : after? (p :: ps) s = some rest) :
    swap (p :: ps) new s = new ++ swap (p :: ps) new rest := by
  cases s with
  | nil => simp [after?] at h
  | cons c cs => simp [swap, substitute, pieces_literal_cons, h]

theorem swap_plain {c : Char} {cs : List Char} (h : after? (p :: ps) (c :: cs) = none) :
    swap (p :: ps) new (c :: cs) = c :: swap (p :: ps) new cs := by
  simp [swap, substitute, pieces_literal_cons, h]

/-- A literal without the mark is found in one part or in none. -/
theorem after?_append_mark {mark s : List Char} (hm : m ∉ mark) (b : List Char) :
    after? mark (s ++ m :: b) = (after? mark s).map (· ++ m :: b) := by
  induction mark generalizing s with
  | nil => rfl
  | cons p ps ih =>
    simp only [List.mem_cons, not_or] at hm
    cases s with
    | nil => simp [after?, Ne.symm hm.1]
    | cons c cs =>
      simp only [List.cons_append, after?]
      split
      · exact ih hm.2
      · rfl

/-- Replacing in a text is replacing in its parts. -/
theorem swap_append (hm : m ∉ p :: ps) (a b : List Char) :
    swap (p :: ps) new (a ++ m :: b) = swap (p :: ps) new a ++ m :: swap (p :: ps) new b := by
  induction hl : a.length using Nat.strongRecOn generalizing a with
  | ind n ih =>
    cases a with
    | nil =>
      simp only [List.mem_cons, not_or] at hm
      simp [swap_plain (show after? (p :: ps) (m :: b) = none by simp [after?, Ne.symm hm.1])]
    | cons c cs =>
      have hafter := @after?_append_mark m (p :: ps) (c :: cs) hm b
      cases hrest : after? (p :: ps) (c :: cs) with
      | none =>
        rw [hrest, Option.map_none, List.cons_append] at hafter
        rw [swap_plain hrest, List.cons_append, swap_plain hafter, ih cs.length (by simp [← hl]) cs rfl]
        rfl
      | some rest =>
        rw [hrest, Option.map_some] at hafter
        have hlen := congrArg List.length (eq_append_of_after? hrest)
        simp only [List.length_cons, List.length_append] at hlen hl
        rw [swap_hit hrest, swap_hit hafter, ih rest.length (by omega) rest rfl, List.append_assoc]

/-- Characters that the literal does not have are kept. -/
theorem mem_swap_of_mem {c : Char} {s : List Char} (hc : c ∈ s) (hm : c ∉ p :: ps) :
    c ∈ swap (p :: ps) new s := by
  induction hl : s.length using Nat.strongRecOn generalizing s with
  | ind n ih =>
    cases s with
    | nil => cases hc
    | cons d cs =>
      cases hrest : after? (p :: ps) (d :: cs) with
      | none =>
        rw [swap_plain hrest]
        rcases List.mem_cons.1 hc with rfl | hc
        · simp
        · exact List.mem_cons_of_mem _ (ih cs.length (by simp [← hl]) hc rfl)
      | some rest =>
        have he := eq_append_of_after? hrest
        have hlen := congrArg List.length he
        simp only [List.length_cons, List.length_append] at hlen hl
        rw [he, List.mem_append] at hc
        rw [swap_hit hrest]
        exact List.mem_append_right _ (ih rest.length (by omega) (hc.resolve_left hm) rfl)

/-- What is there after replacing was there before, or is put in. -/
theorem mem_of_mem_swap {c : Char} {s : List Char} (hc : c ∈ swap (p :: ps) new s) :
    c ∈ s ∨ c ∈ new := by
  induction hl : s.length using Nat.strongRecOn generalizing s with
  | ind n ih =>
    cases s with
    | nil => cases hc
    | cons d cs =>
      cases hrest : after? (p :: ps) (d :: cs) with
      | none =>
        rw [swap_plain hrest] at hc
        rcases List.mem_cons.1 hc with rfl | hc
        · simp
        · rcases ih cs.length (by simp [← hl]) hc rfl with h | h
          · exact Or.inl (List.mem_cons_of_mem _ h)
          · exact Or.inr h
      | some rest =>
        have he := eq_append_of_after? hrest
        have hlen := congrArg List.length he
        simp only [List.length_cons, List.length_append] at hlen hl
        rw [swap_hit hrest] at hc
        rcases List.mem_append.1 hc with hc | hc
        · exact Or.inr hc
        · rcases ih rest.length (by omega) hc rfl with h | h
          · left
            rw [he]
            exact List.mem_append_right _ h
          · exact Or.inr h

/-- Nothing is replaced in a text that lacks a character of the literal. -/
theorem swap_eq_self {c : Char} (hm : c ∈ p :: ps) {s : List Char} (hc : c ∉ s) :
    swap (p :: ps) new s = s := by
  induction s with
  | nil => rfl
  | cons d cs ih =>
    cases hrest : after? (p :: ps) (d :: cs) with
    | none => rw [swap_plain hrest, ih fun h => hc (List.mem_cons_of_mem _ h)]
    | some rest =>
      rw [eq_append_of_after? hrest] at hc
      exact absurd (List.mem_append_left _ hm) hc

theorem swap_single {a : List Char} (ha : m ∉ a) (b : List Char) :
    swap [m] new (a ++ m :: b) = a ++ new ++ swap [m] new b := by
  induction a with
  | nil => simp [swap_hit (show after? [m] (m :: b) = some b by simp [after?])]
  | cons c cs ih =>
    simp only [List.mem_cons, not_or] at ha
    have hc : after? [m] (c :: (cs ++ m :: b)) = none := by simp [after?, ha.1]
    rw [List.cons_append, swap_plain hc, ih ha.2]
    rfl

/-- A text either has no mark, or it has a first one. -/
theorem notMem_or_append (m : Char) (s : List Char) : m ∉ s ∨ ∃ a b, m ∉ a ∧ s = a ++ m :: b := by
  by_cases h : m ∈ s
  · obtain ⟨a, b, hs, ha⟩ := List.eq_append_cons_of_mem h
    exact Or.inr ⟨a, b, ha, hs⟩
  · exact Or.inl h

theorem notMem_of_mem_splitAll {s l : List Char} (h : l ∈ splitAll [m] s) : m ∉ l := by
  induction hl : s.length using Nat.strongRecOn generalizing s with
  | ind n ih =>
    rcases notMem_or_append m s with hs | ⟨a, b, ha, rfl⟩
    · rw [splitAll_of_notMem hs, List.mem_singleton] at h
      exact h ▸ hs
    · rw [splitAll_append, splitAll_of_notMem ha, List.mem_append, List.mem_singleton] at h
      rcases h with rfl | h
      · exact ha
      · simp only [List.length_append, List.length_cons] at hl
        exact ih b.length (by omega) h rfl

/-- The lines of a text in which something is replaced, from its own lines. -/
theorem splitAll_swap (hm : m ∉ p :: ps) (s : List Char) : splitAll [m] (swap (p :: ps) new s) =
    (splitAll [m] s).flatMap fun l => splitAll [m] (swap (p :: ps) new l) := by
  induction hl : s.length using Nat.strongRecOn generalizing s with
  | ind n ih =>
    rcases notMem_or_append m s with hs | ⟨a, b, ha, rfl⟩
    · simp [splitAll_of_notMem hs]
    · simp only [List.length_append, List.length_cons] at hl
      rw [swap_append hm, splitAll_append, splitAll_append, ih b.length (by omega) b rfl,
        splitAll_of_notMem ha]
      simp

/-! ## Texts of several lines -/

theorem split_eq (s : String) : split s "\n" = (splitAll ['\n'] s.toList).map String.ofList := rfl

theorem split_ne_nil (s : String) : split s "\n" ≠ [] := by
  simp [split_eq, splitAll_ne_nil]

theorem split_join (a b : String) : split (a ++ "\n" ++ b) "\n" = split a "\n" ++ split b "\n" := by
  rw [split_eq, String.toList_append, String.toList_append, List.append_assoc]
  change List.map _ (splitAll ['\n'] (a.toList ++ '\n' :: b.toList)) = _
  rw [splitAll_append, List.map_append]
  rfl

/-- Whole lines that are put before a text. -/
theorem split_prepend {x h : String} (hx : x = h ++ "\n") (t : String) :
    split (x ++ t) "\n" = split h "\n" ++ split t "\n" := by
  rw [hx, split_join]

/-- Whole lines that are put after a text. -/
theorem split_append {x h : String} (hx : x = "\n" ++ h) (t : String) :
    split (t ++ x) "\n" = split t "\n" ++ split h "\n" := by
  rw [hx, ← String.append_assoc, split_join]

/-- What is put before a text without a line break goes to its first line. -/
theorem split_prefix {x t first : String} {rest : List String} (hx : '\n' ∉ x.toList)
    (ht : split t "\n" = first :: rest) : split (x ++ t) "\n" = (x ++ first) :: rest := by
  rw [split_eq] at ht ⊢
  obtain ⟨part, parts, hs⟩ := List.exists_cons_of_ne_nil (splitAll_ne_nil ['\n'] t.toList)
  rw [hs, List.map_cons, List.cons.injEq] at ht
  rw [String.toList_append, splitAll_append_left hx hs, List.map_cons, ht.2, ← ht.1, String.ofList_append,
    String.ofList_toList]

/-- What is put after a text without a line break goes to its last line. -/
theorem split_suffix {x t last : String} {init : List String} (hx : '\n' ∉ x.toList)
    (ht : split t "\n" = init ++ [last]) : split (t ++ x) "\n" = init ++ [last ++ x] := by
  rw [split_eq] at ht ⊢
  obtain ⟨parts, part, hs⟩ := List.eq_nil_or_concat (splitAll ['\n'] t.toList) |>.resolve_left
    (splitAll_ne_nil _ _)
  rw [List.concat_eq_append] at hs
  rw [hs, List.map_append] at ht
  obtain ⟨hinit, hlast⟩ := List.append_inj' ht rfl
  rw [String.toList_append, splitAll_append_right hx hs, List.map_append, hinit]
  simp only [List.map_cons, List.map_nil, List.cons.injEq, and_true] at hlast ⊢
  rw [← hlast, String.ofList_append, String.ofList_toList]

theorem split_of_notMem {s : String} (h : '\n' ∉ s.toList) : split s "\n" = [s] := by
  rw [split_eq, splitAll_of_notMem h]
  simp

theorem notMem_of_mem_split {s l : String} (h : l ∈ split s "\n") : '\n' ∉ l.toList := by
  rw [split_eq] at h
  obtain ⟨part, hp, rfl⟩ := List.mem_map.1 h
  rw [String.toList_ofList]
  exact notMem_of_mem_splitAll hp

/-- The lines of a text in which something is replaced within the lines. -/
theorem split_replace {p : Char} {ps : List Char} {old new : String} (ho : old.toList = p :: ps)
    (hm : '\n' ∉ p :: ps) (s : String) :
    split (replace s old new) "\n" = (split s "\n").flatMap fun l => split (replace l old new) "\n" := by
  have hline : ∀ l : List Char, split (replace (String.ofList l) old new) "\n" =
      (splitAll ['\n'] (swap (p :: ps) new.toList l)).map String.ofList := by
    intro l
    rw [split_eq, replace_eq, ho, String.toList_ofList]
  rw [split_eq, replace_eq, ho, splitAll_swap hm, split_eq, List.map_flatMap, List.flatMap_map]
  simp only [hline]

/-! ## Characters -/

theorem mem_of_mem_scan {α : Type} {r : Recogniser α} {before : Option Char} {covered : Nat} {c : Char}
    {s : List Char} (h : .plain c ∈ scan r before covered s) : c ∈ s := by
  induction s generalizing before covered with
  | nil => simp [scan] at h
  | cons d cs ih =>
    cases covered with
    | succ covered => exact List.mem_cons_of_mem _ (ih h)
    | zero =>
      simp only [scan] at h
      split at h
      · rcases List.mem_cons.1 h with h | h
        · cases h
        · exact List.mem_cons_of_mem _ (ih h)
      · rcases List.mem_cons.1 h with h | h
        · cases h
          exact List.mem_cons_self ..
        · exact List.mem_cons_of_mem _ (ih h)

theorem mem_of_mem_between {α : Type} {ps : List (Piece α)} {part : List Char} {c : Char}
    (hp : part ∈ between ps) (hc : c ∈ part) : .plain c ∈ ps := by
  induction ps generalizing part with
  | nil =>
    rw [between, List.mem_singleton] at hp
    rw [hp] at hc
    cases hc
  | cons p ps ih =>
    cases p with
    | hit a =>
      rcases List.mem_cons.1 hp with rfl | hp
      · cases hc
      · exact List.mem_cons_of_mem _ (ih hp hc)
    | plain d =>
      obtain ⟨first, rest, hb⟩ := List.exists_cons_of_ne_nil (between_ne_nil ps)
      simp only [between, hb] at hp
      rcases List.mem_cons.1 hp with rfl | hp
      · rcases List.mem_cons.1 hc with rfl | hc
        · exact List.mem_cons_self ..
        · exact List.mem_cons_of_mem _ (ih (hb ▸ List.mem_cons_self ..) hc)
      · exact List.mem_cons_of_mem _ (ih (hb ▸ List.mem_cons_of_mem _ hp) hc)

/-- The parts of a text have its characters. -/
theorem mem_of_mem_split {s mark part : String} {c : Char} (hp : part ∈ split s mark)
    (hc : c ∈ part.toList) : c ∈ s.toList := by
  obtain ⟨chars, hchars, rfl⟩ := List.mem_map.1 hp
  rw [String.toList_ofList] at hc
  exact mem_of_mem_scan (mem_of_mem_between hchars hc)

theorem mem_of_mem_inner {s : String} {c : Char} (hc : c ∈ (inner s).toList) : c ∈ s.toList := by
  rw [inner, String.toList_ofList] at hc
  exact List.mem_of_mem_drop ((List.dropLast_sublist _).mem hc)

theorem mem_of_cutAt? {s mark before rest : String} (h : cutAt? s mark = some (before, rest)) {c : Char}
    (hc : c ∈ rest.toList) : c ∈ s.toList := by
  obtain ⟨⟨a, b⟩, hcut, he⟩ := Option.map_eq_some_iff.1 h
  simp only [Prod.mk.injEq] at he
  rw [← he.2, String.toList_ofList] at hc
  rw [eq_append_of_cut? hcut]
  exact List.mem_append_right _ hc

/-- A text that lacks a character of a mark does not hold the mark. -/
theorem has_of_notMem {s mark : String} {c : Char} (hm : c ∈ mark.toList) (hs : c ∉ s.toList) :
    has s mark = false := by
  unfold has
  cases hcut : cut? mark.toList s.toList with
  | none => rfl
  | some parts =>
    rw [eq_append_of_cut? hcut] at hs
    exact absurd (List.mem_append_left _ (List.mem_append_right _ hm)) hs

end Bytelift.Text
