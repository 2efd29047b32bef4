import Bytelift.Proofs.Listing.Filing

/-! Reading a listing does not depend on what was read before. The functions filed are never looked at. A wish to
see a line again that an earlier listing left behind makes the first line come twice: if it is not the line that
starts the first function, both are passed over before it; if it is, the second is passed over as a line of the
function. Either way the two readings then have the same lines before them, and differ only in a bound that
neither of them reaches. -/

namespace Bytelift.Listing

open Run Text

namespace FeedM

variable {fit : Matcher}

/-! ## Bounds that are not reached -/

theorem seekStart_congr {m n : Nat} {feed : Feed} (hm : feed.supply < m) (hn : feed.supply < n) :
    seekStart m feed = seekStart n feed := by
  induction m generalizing n feed with
  | zero => omega
  | succ m ih =>
    obtain ⟨n, rfl⟩ : ∃ k, n = k + 1 := ⟨n - 1, by omega⟩
    unfold seekStart
    cases hnext : next feed with
    | error fault t => rw [bind_of_error hnext, bind_of_error hnext]
    | ok found t =>
      have hless := supply_next hnext
      rw [bind_of_ok hnext, bind_of_ok hnext]
      split
      · rfl
      · exact ih (by omega) (by omega)

theorem functionLines_congr {view : Functions → Functions} {entry other : Entry}
    (h : ∀ declarer, Mirrors view (other declarer) (entry declarer)) (label : String) {m n : Nat} {f : Function}
    {feed : Feed} (hm : feed.supply < m) (hn : feed.supply < n) :
    functionLines fit entry label m f feed = functionLines fit entry label n f feed := by
  induction m generalizing n f feed with
  | zero => omega
  | succ m ih =>
    obtain ⟨n, rfl⟩ : ∃ k, n = k + 1 := ⟨n - 1, by omega⟩
    unfold functionLines
    cases hnext : next feed with
    | error fault t => rw [bind_of_error hnext, bind_of_error hnext]
    | ok found t =>
      have hless := supply_next hnext
      rw [bind_of_ok hnext, bind_of_ok hnext]
      cases found with
      | none => rfl
      | some line =>
        dsimp only
        split
        · rfl
        · have hspent := (mirrors_functionLine fit h label f line).spends t
          cases hline : functionLine fit entry label f line t with
          | error fault u => rw [bind_of_error hline, bind_of_error hline]
          | ok g u =>
            rw [final_of_ok hline] at hspent
            rw [bind_of_ok hline, bind_of_ok hline]
            exact ih (by omega) (by omega)

/-! ## A line that comes twice -/

/-- The feed when its first line has come, and may or may not be wanted again. -/
def opened (line : String) (rest : List String) (functions : Functions) (again : Bool) : Feed :=
  { rest, last := some line, catalogue := { functions, again } }

def reopened (rest : List String) (functions : Functions) : Feed := { rest, catalogue := { functions } }

section Twice

variable {line : String} {rest : List String} {functions : Functions}

theorem next_again : next (opened line rest functions true) = .ok (some line) (reopened rest functions) := rfl

/-- A line that is not wanted again might as well have come twice. -/
theorem next_opened : next (opened line rest functions false) = next (reopened rest functions) := by
  cases rest <;> rfl

theorem supply_reopened : (reopened rest functions).supply = 2 * rest.length + 1 := rfl

theorem seekStart_opened (hl : line ≠ "Start SharedFunctionInfo") {bound : Nat} (hb : 2 * rest.length + 2 < bound) :
    seekStart bound (opened line rest functions true) = seekStart bound (opened line rest functions false) := by
  obtain ⟨bound, rfl⟩ : ∃ k, bound = k + 1 := ⟨bound - 1, by omega⟩
  have hsupply := @supply_reopened rest functions
  have hlonger : seekStart bound (reopened rest functions) = seekStart (bound + 1) (reopened rest functions) :=
    seekStart_congr (by omega) (by omega)
  calc seekStart (bound + 1) (opened line rest functions true)
      = seekStart bound (reopened rest functions) := by
        rw [seekStart, bind_of_ok next_again, if_neg (by simpa using hl)]
    _ = seekStart (bound + 1) (reopened rest functions) := hlonger
    _ = seekStart (bound + 1) (opened line rest functions false) := by
        rw [seekStart]
        exact bind_congr_state next_opened.symm

theorem functionLine_start (entry : Entry) (label : String) (f : Function) :
    functionLine fit entry label f "Start SharedFunctionInfo" = pure f := by
  unfold functionLine
  rw [if_neg (by decide), if_neg (by decide), if_neg (by decide), if_neg (by decide), if_neg (by decide),
    if_neg (by decide)]

theorem functionLines_opened {view : Functions → Functions} {entry other : Entry}
    (h : ∀ declarer, Mirrors view (other declarer) (entry declarer)) (label : String) (f : Function)
    {bound : Nat} (hb : 2 * rest.length + 2 < bound) :
    functionLines fit entry label bound f (opened "Start SharedFunctionInfo" rest functions true) =
      functionLines fit entry label bound f (opened "Start SharedFunctionInfo" rest functions false) := by
  obtain ⟨bound, rfl⟩ : ∃ k, bound = k + 1 := ⟨bound - 1, by omega⟩
  have hsupply := @supply_reopened rest functions
  have hlonger : functionLines fit entry label bound f (reopened rest functions) =
      functionLines fit entry label (bound + 1) f (reopened rest functions) :=
    functionLines_congr h label (by omega) (by omega)
  calc functionLines fit entry label (bound + 1) f (opened "Start SharedFunctionInfo" rest functions true)
      = functionLines fit entry label bound f (reopened rest functions) := by
        rw [functionLines, bind_of_ok next_again]
        dsimp only
        rw [if_neg (by decide), functionLine_start]
        rfl
    _ = functionLines fit entry label (bound + 1) f (reopened rest functions) := hlonger
    _ = functionLines fit entry label (bound + 1) f (opened "Start SharedFunctionInfo" rest functions false) := by
        rw [functionLines]
        exact bind_congr_state next_opened.symm

theorem function_opened {view : Functions → Functions} {file : Function → FeedM Unit} {entry other : Entry}
    (h : ∀ declarer, Mirrors view (other declarer) (entry declarer)) (label : String) (declarer : Option String) :
    function fit file entry label declarer (opened "Start SharedFunctionInfo" rest functions true) =
      function fit file entry label declarer (opened "Start SharedFunctionInfo" rest functions false) := by
  change (functionLines fit entry label (2 * rest.length + 3) _ >>= _) _ =
    (functionLines fit entry label (2 * rest.length + 3) _ >>= _) _
  exact bind_congr_state (functionLines_opened h label _ (by omega))

theorem seekStart_first (bound : Nat) (again : Bool) :
    seekStart (bound + 1) { rest := line :: rest, catalogue := { functions, again } } =
      if line = "Start SharedFunctionInfo" then .ok () (opened line rest functions again)
      else seekStart bound (opened line rest functions again) := by
  have hnext : next { rest := line :: rest, catalogue := { functions, again } } =
      .ok (some line) (opened line rest functions again) := rfl
  rw [seekStart, bind_of_ok hnext]
  simp only [Option.some.injEq]
  split <;> rfl

/-- The first line may come twice. -/
theorem listing_again :
    listing fit noteDown { rest := line :: rest, catalogue := { functions, again := true } } =
      listing fit noteDown { rest := line :: rest, catalogue := { functions, again := false } } := by
  let bound := 2 * (line :: rest).length + 3
  have hentry := mirrors_entry fit (mirrors_noteDown {})
  change (seekStart (bound + 1) >>= _) _ = (seekStart (bound + 1) >>= _) _
  by_cases hline : line = "Start SharedFunctionInfo"
  · subst hline
    have hfirst := fun again => (@seekStart_first "Start SharedFunctionInfo" rest functions bound again).trans
      (if_pos rfl)
    rw [bind_of_ok (hfirst true), bind_of_ok (hfirst false)]
    exact bind_congr_state (function_opened hentry _ _)
  · have hfirst := fun again => (@seekStart_first line rest functions bound again).trans (if_neg hline)
    refine bind_congr_state ?_
    rw [hfirst, hfirst]
    exact seekStart_opened hline (by simp only [bound, List.length_cons]; omega)

end Twice

end FeedM

/-! ## Registrations -/

/-- The functions that reading a text files, in the order in which it files them: what it adds to a record that
begins with what is in the catalogue. -/
def registrations (fit : Matcher) (catalogue : Catalogue) (text : String) : List (String × Function) :=
  (final (FeedM.listing fit FeedM.noteDown) (.ofText catalogue text)).catalogue.functions.entries.drop
    catalogue.functions.entries.length

section Registrations

variable (fit : Matcher) (catalogue : Catalogue) (text : String)

/-- Reading from a record with nothing in it. -/
theorem registrations_eq : registrations fit catalogue text =
    (final (FeedM.listing fit FeedM.noteDown)
      (.ofText { again := catalogue.again } text)).catalogue.functions.entries := by
  have hstart : Feed.ofText catalogue text =
      (Feed.ofText { again := catalogue.again } text).refiled (FeedM.continued catalogue.functions) := by
    simp [Feed.ofText, Feed.refiled, FeedM.continued]
  have hsame := (FeedM.mirrors_listing fit (FeedM.mirrors_noteDown catalogue.functions)).same
    (.ofText { again := catalogue.again } text)
  rw [← hstart] at hsame
  rw [registrations, final_of_viewed hsame]
  exact List.drop_left

/-- The wish for a line that is left over from an earlier listing changes neither the end nor the record. -/
theorem record_again (again : Bool) :
    outcome (FeedM.listing fit FeedM.noteDown) (.ofText { again } text) =
        outcome (FeedM.listing fit FeedM.noteDown) (.ofText {} text) ∧
      (final (FeedM.listing fit FeedM.noteDown) (.ofText { again } text)).catalogue.functions =
        (final (FeedM.listing fit FeedM.noteDown) (.ofText {} text)).catalogue.functions := by
  cases again with
  | false => exact ⟨rfl, rfl⟩
  | true =>
    unfold Feed.ofText
    cases ((Text.lines text).map strip).filter (!·.isEmpty) with
    | nil => exact ⟨rfl, rfl⟩
    | cons line rest =>
      unfold outcome final
      rw [FeedM.listing_again]
      exact ⟨rfl, rfl⟩

theorem read_viewed : read fit text catalogue = viewed
    (fun feed => (feed.refiled (FeedM.filed catalogue.functions)).catalogue)
    (FeedM.listing fit FeedM.noteDown (.ofText { again := catalogue.again } text)) := by
  have hstart : Feed.ofText catalogue text =
      (Feed.ofText { again := catalogue.again } text).refiled (FeedM.filed catalogue.functions) := rfl
  unfold read
  rw [hstart, (FeedM.mirrors_listing fit (FeedM.mirrors_register catalogue.functions)).same]
  cases FeedM.listing fit FeedM.noteDown (.ofText { again := catalogue.again } text) <;> rfl

end Registrations

/-- Whatever was read before, and however it ended, reading a text ends in the same way as from the start, files
the same functions in the same order, and files nothing else. -/
theorem read_regardless (fit : Matcher) (catalogue : Catalogue) (text : String) :
    outcome (read fit text) catalogue = outcome (read fit text) {} ∧
      registrations fit catalogue text = registrations fit {} text ∧
      (final (read fit text) catalogue).functions = catalogue.functions.putAll (registrations fit {} text) := by
  have hread := read_viewed fit catalogue text
  obtain ⟨hends, hrecord⟩ := record_again fit text catalogue.again
  refine ⟨?_, ?_, ?_⟩
  · rw [outcome_of_viewed hread, outcome_of_viewed (read_viewed fit {} text), hends]
  · rw [registrations_eq, registrations_eq, hrecord]
  · rw [final_of_viewed hread, registrations_eq, ← hrecord]
    rfl

end Bytelift.Listing
