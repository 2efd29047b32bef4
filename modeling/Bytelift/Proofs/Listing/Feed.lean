import Bytelift.Listing.Read
import Bytelift.Proofs.Run

/-! Which lines come next. A line that is to come again stands before the rest, and a line can be asked for
again only once: it must have come from the rest itself. So reading keeps to two states, `Fresh` and, with a
line held back, `Ahead`; a step that gives a line back needs the first. -/

namespace Bytelift.Listing

open Run

/-- The lines to come are the rest, and the functions read so far are filed. -/
structure Fresh (feed : Feed) (lines : List String) (functions : Functions) : Prop where
  rest : feed.rest = lines
  catalogue : feed.catalogue = { functions, again := false }

/-- The lines to come, the first of which may be one that comes again. -/
inductive Ahead (feed : Feed) : List String → Functions → Prop
  | fresh {lines : List String} {functions : Functions} (h : Fresh feed lines functions) :
    Ahead feed lines functions
  | held {line : String} {lines : List String} {functions : Functions} (hl : feed.last = some line)
    (hr : feed.rest = lines) (hc : feed.catalogue = { functions, again := true }) :
    Ahead feed (line :: lines) functions

variable {feed : Feed} {line : String} {lines : List String} {functions : Functions}

theorem Fresh.ahead (h : Fresh feed lines functions) : Ahead feed lines functions := .fresh h

/-- At most one of the lines to come is not in the rest. -/
theorem Ahead.length_lt_bound (h : Ahead feed lines functions) : lines.length < feed.bound := by
  unfold Feed.bound
  cases h with
  | fresh h =>
    rw [h.rest]
    omega
  | held hl hr hc =>
    rw [hr, List.length_cons]
    omega

namespace FeedM

theorem next_fresh (h : Fresh feed (line :: lines) functions) :
    next feed = .ok (some line) { feed with rest := lines, last := some line } := by
  unfold next
  simp only [h.rest, h.catalogue]
  cases feed.last <;> rfl

/-- A line that comes from the rest may come again. -/
theorem yields_next_fresh {wanted : Option String → Feed → Prop} (h : Fresh feed (line :: lines) functions)
    (hw : ∀ t, Fresh t lines functions → t.last = some line → wanted (some line) t) : Yields next feed wanted :=
  ⟨_, _, next_fresh h, hw _ ⟨rfl, h.catalogue⟩ rfl⟩

theorem yields_next {wanted : Option String → Feed → Prop} (h : Ahead feed (line :: lines) functions)
    (hw : ∀ t, Fresh t lines functions → wanted (some line) t) : Yields next feed wanted := by
  cases h with
  | fresh h => exact yields_next_fresh h fun t ht _ => hw t ht
  | held hl hr hc =>
    refine ⟨some line, { feed with last := none, catalogue := { feed.catalogue with again := false } }, ?_,
      hw _ ⟨hr, by simp [hc]⟩⟩
    unfold next
    simp only [hl, hc]

theorem yields_setAgain {wanted : Unit → Feed → Prop} (h : Fresh feed lines functions) (hl : feed.last = some line)
    (hw : ∀ t, Ahead t (line :: lines) functions → wanted () t) : Yields (setAgain true) feed wanted := by
  unfold setAgain
  rw [yields_modify]
  exact hw _ (.held hl h.rest (by simp [h.catalogue]))

/-- Wherever a line must come, one does. -/
theorem yields_line {fault : Fault} {wanted : String → Feed → Prop}
    (h : Yields next feed fun found t => found = some line ∧ wanted line t) :
    Yields (FeedM.line fault) feed wanted := by
  unfold FeedM.line
  rw [yields_bind]
  refine h.mono ?_
  rintro _ t ⟨rfl, hw⟩
  exact yields_need.2 ⟨line, rfl, hw⟩

/-- A line that passes the test is found at once. -/
theorem yields_lineSuchThat {test : String → Bool} {fault : Fault} {wanted : String → Feed → Prop}
    (ht : test line = true) (h : Yields next feed fun found t => found = some line ∧ wanted line t) :
    Yields (lineSuchThat test fault) feed wanted := by
  unfold lineSuchThat
  rw [yields_bind, yields_get]
  change Yields (seek test fault (2 * feed.rest.length + 2 + 1)) feed wanted
  rw [seek, yields_bind]
  refine h.mono ?_
  rintro _ t ⟨rfl, hw⟩
  rw [yields_bind, yields_need]
  refine ⟨line, rfl, ?_⟩
  rw [if_pos ht, yields_pure]
  exact hw

end FeedM

end Bytelift.Listing
