import Bytelift.Text.Scan

/-! Where a line of pseudocode assigns: at the first sign `=` that is neither part of a comparison or an
arrow nor inside quotes. -/

namespace Bytelift.Assignment

/-- How the quotes read so far bear on the next character. -/
inductive Quoting where
  | plain
  | quoted (mark : Char)
  | escaped (mark : Char)
  deriving DecidableEq, Repr

def Quoting.next : Quoting → Char → Quoting
  | .plain, c => if c = '\x27' || c = '"' then .quoted c else .plain
  | .quoted mark, c => if c = '\\' then .escaped mark else if c = mark then .plain else .quoted mark
  | .escaped mark, _ => .quoted mark

def assigns (before after : Option Char) : Bool :=
  !(after == some '=' || after == some '>') &&
    !(before == some '!' || before == some '<' || before == some '>' || before == some '=')

def cutFrom? : Quoting → Option Char → List Char → Option (List Char × List Char)
  | _, _, [] => none
  | quoting, before, c :: cs =>
    if quoting = .plain && c == '=' && assigns before cs.head? then some ([], cs)
    else (cutFrom? (quoting.next c) (some c) cs).map fun (left, right) => (c :: left, right)

def cut? (line : List Char) : Option (List Char × List Char) := cutFrom? .plain none line

def position? (line : String) : Option Nat := (cut? line.toList).map (·.1.length)

theorem eq_append_of_cutFrom? {quoting : Quoting} {before : Option Char}
    {line left right : List Char} (h : cutFrom? quoting before line = some (left, right)) :
    line = left ++ '=' :: right := by
  induction line generalizing quoting before left with
  | nil => simp [cutFrom?] at h
  | cons c cs ih =>
    simp only [cutFrom?] at h
    split at h
    · next hc =>
      simp only [Bool.and_eq_true, beq_iff_eq] at hc
      simp_all
    · obtain ⟨⟨l, r⟩, hlr, he⟩ := Option.map_eq_some_iff.1 h
      simp only [Prod.mk.injEq] at he
      obtain ⟨rfl, rfl⟩ := he
      simp [ih hlr]

theorem eq_append_of_cut? {line left right : List Char} (h : cut? line = some (left, right)) :
    line = left ++ '=' :: right := eq_append_of_cutFrom? h

end Bytelift.Assignment
