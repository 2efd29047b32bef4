import Bytelift.Proofs.Output.Place

/-! The files that functions are written to: a text of those that are asked for, an archive of all, or both. -/

namespace Bytelift

open Run Text

namespace Files

def putAll (place : Place) (news : List (List String × Content)) (files : Files) : Files :=
  news.foldl (fun files e => files.put (place ++ e.1) e.2) files

theorem put_put (files : Files) (place : Place) (first second : Content) :
    (files.put place first).put place second = files.put place second := by
  have hentries : ∀ entries : List (Place × Content),
      Table.putEntry place second (Table.putEntry place first entries) = Table.putEntry place second entries := by
    intro entries
    induction entries with
    | nil => simp [Table.putEntry]
    | cons e es ih =>
      by_cases he : e.1 = place
      · simp [Table.putEntry, he]
      · simp [Table.putEntry, he, ih]
  simp only [put, Table.put, hentries]

theorem isName_append {base ext : String} (h : '/' ∉ base.toList) (hext : '/' ∉ ext.toList) (hlong : 2 < ext.length) :
    IsName (base ++ ext) := by
  have hne : ∀ other : String, other.length ≤ 2 → base ++ ext ≠ other := by
    intro other hother he
    have hlength := congrArg String.length he
    rw [String.length_append] at hlength
    omega
  refine ⟨hne "" (by decide), ?_, hne "." (by decide), hne ".." (by decide)⟩
  rw [String.toList_append, List.mem_append, not_or]
  exact ⟨h, hext⟩

theorem isName_size (n : Nat) : IsName (toString n) := by
  have hno : ∀ {c : Char}, c.isDigit = false → c ∉ (toString n).toList := by
    intro c hc hm
    rw [isDigit_of_mem_toString hm] at hc
    cases hc
  refine ⟨fun he => toList_toString_ne_nil n (by rw [he]; rfl), hno (by decide),
    fun he => hno (c := '.') (by decide) (by rw [he]; decide), fun he => hno (c := '.') (by decide)
    (by rw [he]; decide)⟩

end Files

namespace Export

/-- A file of functions: a text of some, or an archive of all. -/
inductive Sheet where
  | text (functions : List (String × Function))
  | archive (functions : Functions)

def written (columns : Function.Columns) (functions : List (String × Function)) : String :=
  String.join (functions.map fun e => (e.2.write columns).toOption.getD "")

namespace Sheet

def extension : Sheet → String
  | text _ => textExtension
  | archive _ => archiveExtension

def keys : Sheet → List String
  | text functions => functions.map (·.1)
  | archive functions => functions.keys

def content (columns : Function.Columns) : Sheet → Content
  | text functions => .text (written columns functions)
  | archive functions => .text (Archive.encode functions)

theorem length_extension (sheet : Sheet) : sheet.extension.length = 4 := by
  cases sheet with
  | text _ => exact (by decide : textExtension.length = 4)
  | archive _ => exact (by decide : archiveExtension.length = 4)

theorem mem_extension (sheet : Sheet) : '.' ∈ sheet.extension.toList := by
  cases sheet with
  | text _ => exact (by decide : '.' ∈ textExtension.toList)
  | archive _ => exact (by decide : '.' ∈ archiveExtension.toList)

/-- A file of a directory, by its name without the extension. -/
def under (columns : Function.Columns) (base : String) (sheet : Sheet) : List String × Content :=
  ([base ++ sheet.extension], sheet.content columns)

end Sheet

theorem isName_text {base : String} (h : '/' ∉ base.toList) : Files.IsName (base ++ textExtension) :=
  Files.isName_append h (by decide) (by decide)

theorem isName_archive {base : String} (h : '/' ∉ base.toList) : Files.IsName (base ++ archiveExtension) :=
  Files.isName_append h (by decide) (by decide)

/-- The functions of some names, in the order in which they are written. -/
def held (functions : Functions) (names : List String) : List (String × Function) :=
  functions.entries.reverse.filter fun e => e.2.visible && names.contains e.1

def sheets (functions : Functions) (forms : List OutputForm) (names : List String) : List Sheet :=
  (if .archive ∈ forms then [.archive functions] else []) ++
    if .archive ∈ forms ∧ forms.length = 1 then [] else [.text (held functions names)]

theorem nodup_sheets (functions : Functions) (forms : List OutputForm) (names : List String) :
    ((sheets functions forms names).map Sheet.extension).Nodup := by
  unfold sheets
  split <;> split <;> simp [Sheet.extension, textExtension, archiveExtension]

/-- All functions are in the archive, and those that are asked for in the text. -/
theorem mem_sheets {functions : Functions} {forms : List OutputForm} {names : List String} {key : String}
    (hvisible : ∀ e ∈ functions.entries, e.2.visible = true) (hk : key ∈ functions.keys) :
    (∃ sheet ∈ sheets functions forms names, key ∈ sheet.keys) ↔ .archive ∈ forms ∨ key ∈ names := by
  have hheld : key ∈ (held functions names).map (·.1) ↔ key ∈ names := by
    constructor
    · intro h
      obtain ⟨e, he, rfl⟩ := List.mem_map.1 h
      simpa using (Bool.and_eq_true_iff.1 (List.mem_filter.1 he).2).2
    · intro h
      obtain ⟨e, he, rfl⟩ := List.mem_map.1 hk
      refine List.mem_map_of_mem (List.mem_filter.2 ⟨List.mem_reverse.2 he, ?_⟩)
      simpa [hvisible e he] using h
  by_cases ha : .archive ∈ forms
  · refine iff_of_true ⟨.archive functions, ?_, hk⟩ (Or.inl ha)
    simp [sheets, ha]
  · simp [sheets, ha, Sheet.keys, hheld]

theorem yields_appendAll {place : Place} {columns : Function.Columns} (files : Files)
    {wanted : Unit → Workspace → Prop} : ∀ {functions : List (String × Function)} {text : String} {s : Workspace},
    (∀ e ∈ functions, ∃ written, e.2.write columns = .ok written) → s.files = files.put place (.text text) →
    (∀ t : Workspace, t.files = files.put place (.text (text ++ written columns functions)) → wanted () t) →
    Yields (appendAll place columns text (functions.map (·.2))) s wanted
  | [], text, s, _, hs, hw => by
    refine yields_pure.2 (hw s ?_)
    simpa [written] using hs
  | e :: functions, text, s, hall, hs, hw => by
    obtain ⟨first, hfirst⟩ := hall e (by simp)
    simp only [List.map_cons, appendAll, yields_bind, yields_ofExcept, hfirst, Except.ok.injEq, exists_eq_left',
      yields_modify]
    refine yields_appendAll files (fun f hf => hall f (List.mem_cons_of_mem _ hf)) (by rw [hs, Files.put_put])
      fun t ht =>
      hw t ?_
    rw [ht]
    simp [written, hfirst, Except.toOption, String.append_assoc]

theorem cutAtLast?_text (path : String) : cutAtLast? (path ++ textExtension) '.' = some (path, "txt") := by
  have hreverse : (path ++ textExtension).toList.reverse = ['t', 'x', 't'] ++ (['.'] ++ path.toList.reverse) := by
    simp [textExtension]
  rw [cutAtLast?, hreverse, cut?_append (by decide)]
  simp

theorem textPath_eq (path : String) : textPath (path ++ textExtension) = path ++ textExtension := by
  have hextension : extension? (path ++ textExtension) = some textExtension := by
    rw [extension?, cutAtLast?_text]
    rfl
  rw [textPath, hextension]
  exact if_neg (by decide)

theorem archivePath_eq (path : String) : archivePath (path ++ textExtension) = path ++ archiveExtension := by
  rw [archivePath, withExtension, cutAtLast?_text]
  rfl

variable {s : Workspace} {path base : String} {place : Place} {functions : Functions} {forms : List OutputForm}
  {names : List String}

theorem yields_writeText (hp : path ≠ "") (hb : '/' ∉ base.toList) (h : s.files.lookup path = .ok (place, .directory))
    (hfree : s.files.entryAt (place ++ [base ++ textExtension]) ≠ .directory) (hnames : names ≠ [])
    (hall : ∀ e ∈ functions.entries, ∃ text, e.2.write (OutputForm.columns forms) = .ok text) :
    Yields (writeText (Files.join path (base ++ textExtension)) functions forms
    { included := some names, excluded := none }) s fun _ t => t.files = s.files.put (place ++ [base ++ textExtension])
        ((Sheet.text (held functions names)).content (OutputForm.columns forms)) := by
  have hadmits : ∀ e ∈ functions.entries.reverse,
      Selection.admits { included := some names, excluded := none } e.1 e.2 = (e.2.visible && names.contains e.1) := by
    have hnonempty : names.isEmpty = false := by simpa using hnames
    intro e _
    simp [Selection.admits, hnonempty]
  have hwritable := Files.writable_join hp (isName_text hb) h hfree
  simp only [writeText, yields_bind, yields_get, yields_ofExcept, hwritable, Except.ok.injEq, exists_eq_left',
    yields_modify, yields_say]
  rw [List.filter_congr hadmits, ← held]
  refine yields_appendAll s.files (fun e he => hall e ?_) rfl fun t ht => ?_
  · exact List.mem_reverse.1 (List.mem_of_mem_filter he)
  · rw [ht, String.empty_append]
    rfl

theorem yields_writeArchive (hp : path ≠ "") (hb : '/' ∉ base.toList)
    (h : s.files.lookup path = .ok (place, .directory))
    (hfree : s.files.entryAt (place ++ [base ++ archiveExtension]) ≠ .directory) :
    Yields (writeArchive (Files.join path (base ++ archiveExtension)) functions) s fun _ t =>
      t.files = s.files.put (place ++ [base ++ archiveExtension]) (.text (Archive.encode functions)) := by
  have hwritable := Files.writable_join hp (isName_archive hb) h hfree
  have hwrite : s.files.write (Files.join path (base ++ archiveExtension)) (Archive.encode functions) =
      .ok (s.files.put (place ++ [base ++ archiveExtension]) (.text (Archive.encode functions))) := by
    rw [Files.write, hwritable]
    rfl
  simp only [writeArchive, yields_bind, yields_get, yields_say, yields_ofExcept, yields_modify]
  exact ⟨_, hwrite, rfl⟩

/-- Writing functions under a name puts all their files there. -/
theorem yields_run (hp : path ≠ "") (hb : '/' ∉ base.toList) (h : s.files.lookup path = .ok (place, .directory))
    (hfree : ∀ sheet : Sheet, s.files.entryAt (place ++ [base ++ sheet.extension]) ≠ .directory) (hnames : names ≠ [])
    (hall : ∀ e ∈ functions.entries, ∃ text, e.2.write (OutputForm.columns forms) = .ok text) :
    Yields (run (Files.join path (base ++ textExtension)) functions forms { included := some names, excluded := none })
    s fun _ t => t.files = s.files.putAll place
        ((sheets functions forms names).map (Sheet.under (OutputForm.columns forms) base)) := by
  obtain ⟨stem, -, hjoin⟩ := Files.exists_join_eq hp
  have htext : textPath (Files.join path (base ++ textExtension)) = Files.join path (base ++ textExtension) := by
    rw [hjoin (isName_text hb), ← String.append_assoc, textPath_eq]
  have harchive : archivePath (Files.join path (base ++ textExtension)) =
    Files.join path (base ++ archiveExtension) := by
    rw [hjoin (isName_text hb), hjoin (isName_archive hb),
      ← String.append_assoc, archivePath_eq, String.append_assoc]
  simp only [run, htext, harchive, List.contains_eq_mem, decide_eq_true_eq]
  by_cases ha : .archive ∈ forms
  · rw [if_pos ha, yields_bind]
    refine (yields_writeArchive hp hb h (hfree (.archive {}))).mono fun _ t ht => ?_
    by_cases hone : forms.length = 1
    · simpa [hone, sheets, ha, Files.putAll, Sheet.under, Sheet.content, Sheet.extension] using ht
    · have hplace : s.files.isDirectory (place ++ [base ++ archiveExtension]) = false :=
        Bool.eq_false_iff.2 fun he => hfree (.archive {}) (Files.entryAt_eq_directory.2 he)
      have hlookup : t.files.lookup path = .ok (place, .directory) := by
        rw [ht]
        exact (Files.keeps_put _ _ _).lookup h
      have hfreeText : t.files.entryAt (place ++ [base ++ textExtension]) ≠ .directory := by
        rw [ht, Files.entryAt_put _ _ _ _ hplace]
        split
        · simp
        · exact hfree (.text [])
      simp only [hone, if_false]
      refine (yields_writeText hp hb hlookup hfreeText hnames hall).mono fun _ u hu => ?_
      rw [hu, ht]
      simp [sheets, ha, hone, Files.putAll, Sheet.under, Sheet.extension, Sheet.content]
  · rw [if_neg ha]
    refine (yields_writeText hp hb h (hfree (.text [])) hnames hall).mono fun _ t ht => ?_
    rw [ht]
    simp [sheets, ha, Files.putAll, Sheet.under, Sheet.extension]

end Export

end Bytelift
