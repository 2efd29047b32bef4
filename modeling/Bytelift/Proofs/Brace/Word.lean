import Bytelift.Proofs.Text.Lines

/-! Braces and what they enclose. A line that is a brace opens or closes a block; the braces of a text are
balanced if every block that is opened is closed, and no other. -/

namespace Bytelift

open Text

inductive Brace where
  | opening
  | closing
  deriving DecidableEq, Repr

namespace Brace

/-- The brace that a line is. -/
def ofLine? (line : String) : Option Brace :=
  if line = "\x7b" then some .opening else if line = "\x7d" then some .closing else none

/-- How deep the blocks are nested after some braces, if none is closed that is not open. -/
def depth? : Nat → List Brace → Option Nat
  | d, [] => some d
  | d, .opening :: w => depth? (d + 1) w
  | 0, .closing :: _ => none
  | d + 1, .closing :: w => depth? d w

/-- Every block that is opened is closed, and no other. -/
def Balanced (w : List Brace) : Prop := depth? 0 w = some 0

instance (w : List Brace) : Decidable (Balanced w) := inferInstanceAs (Decidable (_ = _))

theorem depth?_append (d : Nat) (v w : List Brace) :
    depth? d (v ++ w) = (depth? d v).bind fun e => depth? e w := by
  induction v generalizing d with
  | nil => rfl
  | cons b v ih =>
    cases b with
    | opening => exact ih (d + 1)
    | closing =>
      cases d with
      | zero => rfl
      | succ d => exact ih d

/-- Braces that are fine at a depth are fine one deeper. -/
theorem depth?_succ {d e : Nat} {w : List Brace} (h : depth? d w = some e) :
    depth? (d + 1) w = some (e + 1) := by
  induction w generalizing d with
  | nil =>
    cases h
    rfl
  | cons b w ih =>
    cases b with
    | opening => exact ih h
    | closing =>
      cases d with
      | zero => cases h
      | succ d => exact ih h

/-- A block may be closed later. -/
theorem depth?_closing_right {d e : Nat} {u v w : List Brace}
    (h : depth? d (u ++ .closing :: (v ++ w)) = some e) :
    depth? d (u ++ (v ++ .closing :: w)) = some e := by
  rw [depth?_append] at h ⊢
  cases hu : depth? d u with
  | none => simp [hu] at h
  | some c =>
    rw [hu, Option.bind_some] at h
    rw [Option.bind_some]
    cases c with
    | zero => cases h
    | succ c =>
      change depth? c (v ++ w) = some e at h
      rw [depth?_append] at h ⊢
      cases hv : depth? c v with
      | none => simp [hv] at h
      | some b =>
        rw [depth?_succ hv, Option.bind_some]
        rw [hv, Option.bind_some] at h
        exact h

/-- A block that is closed at once changes nothing. -/
theorem depth?_opening_closing (d : Nat) (u w : List Brace) :
    depth? d (u ++ .opening :: .closing :: w) = depth? d (u ++ w) := by
  rw [depth?_append, depth?_append]
  rfl

def inLines (lines : List String) : List Brace := lines.filterMap ofLine?

def word (text : String) : List Brace := inLines (split text "\n")

@[simp] theorem inLines_append (a b : List String) : inLines (a ++ b) = inLines a ++ inLines b :=
  List.filterMap_append

theorem inLines_cons (line : String) (lines : List String) :
    inLines (line :: lines) = (ofLine? line).toList ++ inLines lines := by
  unfold inLines
  rw [List.filterMap_cons]
  cases ofLine? line <;> rfl

theorem Balanced.cons_closing {v w : List Brace} (hv : Balanced v) (hw : Balanced w) :
    Balanced (.opening :: (v ++ .closing :: w)) := by
  change depth? 1 (v ++ .closing :: w) = some 0
  rw [depth?_append, depth?_succ hv]
  exact hw

/-- Where the innermost open block is closed. -/
theorem exists_closing {d : Nat} {lines : List String} (h : depth? (d + 1) (inLines lines) = some 0) :
    ∃ inner rest, lines = inner ++ "\x7d" :: rest ∧ Balanced (inLines inner) ∧
      depth? d (inLines rest) = some 0 := by
  induction hl : lines.length using Nat.strongRecOn generalizing lines d with
  | ind n ih =>
    cases lines with
    | nil => simp [inLines, depth?] at h
    | cons line lines =>
      rw [List.length_cons] at hl
      rw [inLines_cons] at h
      by_cases hopen : line = "\x7b"
      · subst hopen
        -- the block that this line opens is closed first, and then the one that was open
        obtain ⟨first, after, rfl, hfirst, hafter⟩ := ih lines.length (by omega) (d := d + 1) h rfl
        rw [List.length_append, List.length_cons] at hl
        obtain ⟨second, rest, rfl, hsecond, hrest⟩ := ih after.length (by omega) hafter rfl
        refine ⟨"\x7b" :: (first ++ "\x7d" :: second), rest, by simp, ?_, hrest⟩
        rw [inLines_cons, inLines_append, inLines_cons]
        exact hfirst.cons_closing hsecond
      · by_cases hclose : line = "\x7d"
        · subst hclose
          exact ⟨[], lines, rfl, rfl, h⟩
        · have hnone : ofLine? line = none := by simp [ofLine?, hopen, hclose]
          rw [hnone] at h
          obtain ⟨inner, rest, rfl, hinner, hrest⟩ := ih lines.length (by omega) h rfl
          refine ⟨line :: inner, rest, rfl, ?_, hrest⟩
          rw [inLines_cons, hnone]
          exact hinner

end Brace

end Bytelift
