import Bytelift.Proofs.Listing.Feed
import Bytelift.Proofs.Listing.Line

/-! Lists of entries, read back. Given that each entry of a list is read as it was written, so is the list,
and so are the array and the object that it makes up: the text comes out, the functions on the way are
filed in their order, and the lines after it are still to come. -/

namespace Bytelift.Listing

open Text Run FeedM

def filed (functions : Functions) (read : List Function) : Functions :=
  functions.putAll (read.map fun f => (f.name, f))

theorem filed_append (functions : Functions) (first second : List Function) :
    filed functions (first ++ second) = filed (filed functions first) second := by
  simp [filed, Table.putAll, List.foldl_append]

/-- There is a line to come, and it does not close an array. -/
def Follows (lines : List String) : Prop := ∃ line rest, lines = line :: rest ∧ line ≠ ">"

/-- An entry at an index is read as it was written, whatever follows it. -/
def Reads (entry : FeedM (Int × String)) (declarer : String) (i extra : Nat) (item : Item) : Prop :=
  ∀ ⦃feed : Feed⦄ ⦃more : List String⦄ ⦃functions : Functions⦄,
    Ahead feed (entryLine i extra item :: (item.lines ++ more)) functions → Follows more →
      Yields entry feed fun found t => found = (((i + extra : Nat) : Int) + 1, item.text) ∧
        Ahead t more (filed functions (item.functions declarer))

/-- A list whose length can be read, and whose entries are read wherever they stand. -/
structure ReadsAll (entry : FeedM (Int × String)) (declarer : String) (entries : List (Nat × Item)) : Prop where
  short : Short (size entries)
  reads : ∀ i, ∀ e ∈ entries, Short (i + e.1) → Reads entry declarer i e.1 e.2

theorem follows_entryLines {more : List String} (h : Follows more) (i : Nat) (entries : List (Nat × Item)) :
    Follows (entryLines i entries ++ more) := by
  cases entries with
  | nil => exact h
  | cons e rest =>
    refine ⟨entryLine i e.1 e.2, e.2.lines ++ entryLines (i + e.1 + 1) rest ++ more, by simp [entryLines], ?_⟩
    intro he
    have hcolon : ':' ∈ (entryLine i e.1 e.2).toList := by simp [entryLine]
    rw [he] at hcolon
    exact absurd hcolon (by decide)

/-! ## Runs of equal entries -/

variable {fit : Matcher} (hfit : fit.Lawful) {entry : FeedM (Int × String)} {declarer : String}

/-- An entry that was read for some more indices fills them. -/
theorem yields_fill_repeat {left : Nat} {text : String} {wanted : List String → Feed → Prop} {feed : Feed} (k : Nat)
    {index : Int} (h : Yields (fill entry left (index + k) (index + k) text) feed
      fun found t => wanted (List.replicate k text ++ found) t) :
    Yields (fill entry (k + left) index (index + k) text) feed wanted := by
  induction k generalizing index wanted with
  | zero => simpa using h
  | succ k ih =>
    have hne : index + ((k + 1 : Nat) : Int) ≠ index := by omega
    have hindex : index + ((k + 1 : Nat) : Int) = index + 1 + (k : Nat) := by omega
    rw [Nat.succ_add, fill, if_pos hne, yields_bind, hindex]
    rw [hindex] at h
    exact ih (by simpa [List.replicate_succ] using h)

/-- The entries of a list, from an index on. -/
theorem yields_fill {entries : List (Nat × Item)} {more : List String} (hmore : Follows more)
    (hread : ∀ i, ∀ e ∈ entries, Short (i + e.1) → Reads entry declarer i e.1 e.2) {i : Nat} {text : String}
    {feed : Feed} {functions : Functions} (hsize : Short (i + size entries))
    (h : Ahead feed (entryLines i entries ++ more) functions) :
    Yields (fill entry (size entries) i i text) feed fun found t =>
      found = texts entries ∧ Ahead t more (filed functions (functionsOf declarer entries)) := by
  induction entries generalizing i text feed functions with
  | nil =>
    change Yields (pure []) feed _
    rw [yields_pure]
    exact ⟨rfl, h⟩
  | cons e rest ih =>
    obtain ⟨extra, item⟩ := e
    have hlong : size ((extra, item) :: rest) = extra + size rest + 1 := by
      rw [size_cons]
      omega
    have hshort : Short (i + extra) := by
      rw [short_iff] at hsize ⊢
      omega
    have hfirst := hread i (extra, item) List.mem_cons_self hshort
    rw [hlong] at hsize ⊢
    rw [fill, if_neg (by simp), yields_bind]
    rw [entryLines, List.cons_append, List.append_assoc] at h
    refine (hfirst h (follows_entryLines hmore _ _)).mono ?_
    rintro _ t ⟨rfl, ht⟩
    have hindex : ((i + extra : Nat) : Int) + 1 = (i : Int) + 1 + (extra : Nat) := by omega
    have hnext : (i : Int) + 1 + (extra : Nat) = ((i + extra + 1 : Nat) : Int) := by omega
    change Yields (fill entry (extra + size rest) (i + 1) (((i + extra : Nat) : Int) + 1) item.text >>= _) t _
    rw [yields_bind, hindex]
    refine yields_fill_repeat extra ?_
    rw [hnext]
    refine (ih (fun j f hf => hread j f (List.mem_cons_of_mem _ hf)) (by rwa [show i + extra + 1 + size rest =
      i + (extra + size rest + 1) by omega]) ht).mono ?_
    rintro _ u ⟨rfl, hu⟩
    rw [yields_pure, texts, functionsOf, filed_append]
    exact ⟨by rw [List.replicate_succ]; rfl, hu⟩

/-! ## Lists -/

include hfit in
/-- A list with its length in front. -/
theorem yields_entries {entries : List (Nat × Item)} {more : List String} (hmore : Follows more)
    (hread : ReadsAll entry declarer entries) {feed : Feed} {functions : Functions}
    (h : Ahead feed (("- length: " ++ toString (size entries)) :: (entryLines 0 entries ++ more)) functions) :
    Yields (FeedM.entries fit entry) feed fun found t =>
      found = texts entries ∧ Ahead t more (filed functions (functionsOf declarer entries)) := by
  have hhas : has ("- length: " ++ toString (size entries)) "- length:" = true := has_opening (by decide) _
  unfold FeedM.entries
  rw [yields_bind]
  refine yields_lineSuchThat hhas (yields_next h fun t ht => ⟨rfl, ?_⟩)
  rw [yields_bind, length_line hfit hread.short, yields_ofExcept]
  refine ⟨_, rfl, ?_⟩
  cases entries with
  | nil => exact yields_pure.2 ⟨rfl, ht.ahead⟩
  | cons e rest =>
    have hnonzero : ¬((size (e :: rest) : Nat) : Int) = 0 := by
      rw [size_cons]
      omega
    have hzero : opensWith (entryLine 0 e.1 e.2) "0" = true := by
      unfold entryLine indexText opensWith
      split <;> simp [after?]
    rw [if_neg hnonzero, yields_bind]
    rw [entryLines, List.cons_append] at ht
    refine yields_lineSuchThat hzero (yields_next_fresh ht fun u hu hl => ⟨rfl, ?_⟩)
    rw [yields_bind]
    refine yields_setAgain hu hl fun v hv => ?_
    rw [← List.cons_append, ← entryLines] at hv
    exact yields_fill hmore hread.reads (by simpa using hread.short) hv

theorem yields_expectStart {what : String} {line : String} {lines : List String} {feed : Feed}
    {functions : Functions} {wanted : Unit → Feed → Prop} (hs : has line "Start " = true)
    (h : Ahead feed (line :: lines) functions) (hw : ∀ t, Fresh t lines functions → wanted () t) :
    Yields (expectStart what) feed wanted := by
  unfold expectStart
  rw [yields_bind]
  refine yields_line (yields_next h fun t ht => ⟨rfl, ?_⟩)
  rw [hs]
  exact yields_pure.2 (hw t ht)

theorem yields_skipToEnd {line : String} {lines : List String} {feed : Feed} {functions : Functions}
    {wanted : Unit → Feed → Prop} (he : has line "End " = true) (h : Ahead feed (line :: lines) functions)
    (hw : ∀ t, Fresh t lines functions → wanted () t) : Yields skipToEnd feed wanted := by
  unfold skipToEnd
  rw [yields_bind]
  exact yields_lineSuchThat he (yields_next h fun t ht => ⟨rfl, yields_pure.2 (hw t ht)⟩)

/-! ## Arrays and objects -/

section Lists

variable {entries : List (Nat × Item)} {more : List String} {feed : Feed} {functions : Functions}

include hfit

/-- What arrays and objects have in common: a list between two lines that name it. -/
theorem yields_spelledOut {β : Type} {what shown : String} {next : List String → FeedM β}
    {wanted : β → Feed → Prop} (hread : ReadsAll entry declarer entries)
    (h : Ahead feed (spelledOut what (size entries) (entryLines 0 entries) ++ more) functions)
    (hw : ∀ t, Fresh t more (filed functions (functionsOf declarer entries)) →
      Yields (next (texts entries)) t wanted) :
    Yields (do
      expectStart shown
      let items ← FeedM.entries fit entry
      skipToEnd
      next items) feed wanted := by
  have hend : Follows (("End " ++ what) :: more) := by
    refine ⟨_, _, rfl, ?_⟩
    intro he
    have hmem : 'E' ∈ ("End " ++ what).toList := by simp
    rw [he] at hmem
    exact absurd hmem (by decide)
  have hlines : spelledOut what (size entries) (entryLines 0 entries) ++ more = ("Start " ++ what) ::
      ("- length: " ++ toString (size entries)) :: (entryLines 0 entries ++ (("End " ++ what) :: more)) := by
    simp [spelledOut]
  rw [hlines] at h
  rw [yields_bind]
  refine yields_expectStart (has_opening (by decide) _) h fun t ht => ?_
  rw [yields_bind]
  refine (yields_entries hfit hend hread ht.ahead).mono ?_
  rintro _ u ⟨rfl, hu⟩
  rw [yields_bind]
  exact yields_skipToEnd (has_opening (by decide) _) hu hw

theorem yields_array {address : Address} {kind : ArrayKind} {closed : Bool} (hmore : Follows more)
    (hread : ReadsAll entry declarer entries)
    (h : Ahead feed ((Item.array address kind entries closed).lines ++ more) functions) :
    Yields (array fit entry) feed fun found t => found = (Item.array address kind entries closed).text ∧
      Ahead t more (filed functions (functionsOf declarer entries)) := by
  rw [Item.lines, List.append_assoc] at h
  refine yields_spelledOut hfit hread h fun t ht => ?_
  rw [yields_bind]
  cases closed with
  | true => exact yields_next ht.ahead fun u hu => yields_pure.2 ⟨by rw [Item.text], hu.ahead⟩
  | false =>
    obtain ⟨line, rest, rfl, hline⟩ := hmore
    refine yields_next_fresh ht fun u hu hl => ?_
    rw [if_pos (by simpa using hline), yields_bind]
    exact yields_setAgain hu hl fun v hv => yields_pure.2 ⟨by rw [Item.text], hv⟩

omit hfit in
theorem fields_eq (items : List String) : fields items =
    (List.range (items.length / 2)).map fun i => items.getD (2 * i) "" ++ ": " ++ items.getD (2 * i + 1) "" := by
  fun_induction fields items with
  | case1 key value rest ih =>
    have hlength : (key :: value :: rest).length / 2 = rest.length / 2 + 1 := by
      simp only [List.length_cons]
      omega
    rw [ih, hlength, List.range_succ_eq_map, List.map_cons, List.map_map]
    rfl
  | case2 items hitems =>
    have hlength : items.length / 2 = 0 := by
      match items, hitems with
      | [], _ => rfl
      | [_], _ => simp
      | key :: value :: rest, hitems => exact absurd rfl (hitems key value rest)
    rw [hlength]
    rfl

omit hfit in
/-- Fields are told apart by their indices. -/
theorem fields_drop_one (items : List String) : fields (items.drop 1) = fieldTexts items := by
  have hshift (k : Nat) : (items.drop 1).getD k "" = items.getD (k + 1) "" := by
    simp [List.getD_eq_getElem?_getD]
  simp only [fields_eq, fieldTexts, List.length_drop, hshift]

theorem yields_object {address : Address} (hread : ReadsAll entry declarer entries)
    (h : Ahead feed ((Item.object address entries).lines ++ more) functions) :
    Yields (object fit entry) feed fun found t => found = (Item.object address entries).text ∧
      Ahead t more (filed functions (functionsOf declarer entries)) := by
  rw [Item.lines] at h
  refine yields_spelledOut hfit hread h fun t ht => ?_
  rw [yields_pure, fields_drop_one, Item.text]
  exact ⟨rfl, ht.ahead⟩

end Lists

end Bytelift.Listing
