/-! Searching a text from left to right. A recogniser looks at the head of what is left, knowing the
character before it, and either claims a piece of it or leaves it alone. The scan counts down the
characters of a claimed piece, so it recurses on the text itself and needs no bound. -/

namespace Bytelift.Text

def after? : List Char → List Char → Option (List Char)
  | [], s => some s
  | _ :: _, [] => none
  | p :: ps, c :: cs => if p = c then after? ps cs else none

@[simp] theorem after?_append (lead rest : List Char) : after? lead (lead ++ rest) = some rest := by
  induction lead with
  | nil => rfl
  | cons p ps ih => simp [after?, ih]

theorem eq_append_of_after? {lead s rest : List Char} (h : after? lead s = some rest) :
    s = lead ++ rest := by
  induction lead generalizing s with
  | nil => simpa [after?] using h
  | cons p ps ih =>
    cases s with
    | nil => simp [after?] at h
    | cons c cs =>
      simp only [after?] at h
      split at h
      · next hp => simp [hp, ih h]
      · simp at h

def cut? (mark : List Char) : List Char → Option (List Char × List Char)
  | [] => if mark.isEmpty then some ([], []) else none
  | c :: cs =>
    match after? mark (c :: cs) with
    | some rest => some ([], rest)
    | none => (cut? mark cs).map fun (before, rest) => (c :: before, rest)

theorem eq_append_of_cut? {mark s before rest : List Char}
    (h : cut? mark s = some (before, rest)) : s = before ++ mark ++ rest := by
  induction s generalizing before with
  | nil =>
    cases mark with
    | nil => simp_all [cut?]
    | cons m ms => simp [cut?] at h
  | cons c cs ih =>
    simp only [cut?] at h
    split at h
    · next r hr =>
      simp only [Option.some.injEq, Prod.mk.injEq] at h
      obtain ⟨rfl, rfl⟩ := h
      simpa using eq_append_of_after? hr
    · obtain ⟨⟨b, r⟩, hbr, he⟩ := Option.map_eq_some_iff.1 h
      simp only [Prod.mk.injEq] at he
      obtain ⟨rfl, rfl⟩ := he
      simp [ih hbr]

/-- Claims a piece at the head of the text, and says what it stands for and what is left. The first
argument is the character before the head. -/
abbrev Recogniser (α : Type) := Option Char → List Char → Option (α × List Char)

inductive Piece (α : Type) where
  | plain (c : Char)
  | hit (a : α)

/-- The second argument counts the characters still covered by the last hit. -/
def scan {α : Type} (r : Recogniser α) : Option Char → Nat → List Char → List (Piece α)
  | _, _, [] => []
  | _, covered + 1, c :: cs => scan r (some c) covered cs
  | before, 0, c :: cs =>
    match r before (c :: cs) with
    | some (a, rest) => .hit a :: scan r (some c) (cs.length - rest.length) cs
    | none => .plain c :: scan r (some c) 0 cs

/-- A text as plain characters and the leftmost hits among them. -/
def pieces {α : Type} (r : Recogniser α) (s : List Char) : List (Piece α) := scan r none 0 s

/-- The leftmost hits that do not overlap, in order. -/
def hits {α : Type} (r : Recogniser α) (s : List Char) : List α :=
  (pieces r s).filterMap fun
    | .plain _ => none
    | .hit a => some a

def substitute {α : Type} (r : Recogniser α) (f : α → List Char) (s : List Char) : List Char :=
  (pieces r s).flatMap fun
    | .plain c => [c]
    | .hit a => f a

/-- The text with each hit replaced by what an action answers for it, from left to right. -/
def substituteM {m : Type → Type} [Monad m] {α : Type} (r : Recogniser α)
    (f : α → m (List Char)) (s : List Char) : m (List Char) :=
  go (pieces r s)
where
  go : List (Piece α) → m (List Char)
    | [] => pure []
    | .plain c :: rest => do return c :: (← go rest)
    | .hit a :: rest => do
      let text ← f a
      return text ++ (← go rest)

def literal (mark : List Char) : Recogniser Unit := fun _ s => (after? mark s).map ((), ·)

def between {α : Type} : List (Piece α) → List (List Char)
  | [] => [[]]
  | .plain c :: rest =>
    match between rest with
    | part :: parts => (c :: part) :: parts
    | [] => [[c]]
  | .hit _ :: rest => [] :: between rest

/-- The parts of a text between the occurrences of a mark; at least one. -/
def splitAll (mark s : List Char) : List (List Char) := between (pieces (literal mark) s)

def has (s mark : String) : Bool := (cut? mark.toList s.toList).isSome

def opensWith (s mark : String) : Bool := (after? mark.toList s.toList).isSome

def closesWith (s mark : String) : Bool := (after? mark.toList.reverse s.toList.reverse).isSome

def split (s mark : String) : List String := (splitAll mark.toList s.toList).map String.ofList

def replace (s old new : String) : String :=
  String.ofList (substitute (literal old.toList) (fun _ => new.toList) s.toList)

def cutAt? (s mark : String) : Option (String × String) :=
  (cut? mark.toList s.toList).map fun (before, rest) => (String.ofList before, String.ofList rest)

/-- What follows the first occurrence of a mark, or the whole text if there is none. -/
def pastFirst (s mark : String) : String :=
  match cutAt? s mark with
  | some (_, rest) => rest
  | none => s

def cutAtLast? (s : String) (mark : Char) : Option (String × String) :=
  (cut? [mark] s.toList.reverse).map fun (rest, before) =>
    (String.ofList before.reverse, String.ofList rest.reverse)

def inner (s : String) : String := String.ofList (s.toList.drop 1).dropLast

def dropFirst (s : String) : String := String.ofList (s.toList.drop 1)

def dropLast (s : String) : String := String.ofList s.toList.dropLast

def padRight (width : Nat) (s : String) : String :=
  s ++ String.ofList (List.replicate (width - s.length) ' ')

end Bytelift.Text
