import Bytelift.Proofs.Output.Branches
import Bytelift.Proofs.Output.Export
import Mathlib.Data.List.Nodup

/-! The files of a tree of functions: the file of the root, and those of the branches that are not small. They have
different names and are all written, over what was there before. -/

namespace Bytelift

open Run Text Export

namespace Tree

/-- The files of a branch by their names below the directory of the tree. A small branch has none. -/
def branchFiles (functions : Functions) (layout : Layout) (forms : List OutputForm) (branch : String × List String) :
    List (List String × Sheet) :=
  if isSmall layout branch.2 then []
  else (sheets functions forms branch.2).map fun sheet =>
    ([toString branch.2.eraseDups.length, branch.1 ++ sheet.extension], sheet)

def files (functions : Functions) (usage : Option Functions.Usage) (root : String) (layout : Layout)
    (branches : Branches) (forms : List OutputForm) : List (List String × Sheet) :=
  (sheets functions forms (mainSet functions usage root layout branches)).map
      (fun sheet => ([root ++ sheet.extension], sheet)) ++
    branches.entries.flatMap (branchFiles functions layout forms)

def contents (columns : Function.Columns) (files : List (List String × Sheet)) : List (List String × Content) :=
  files.map fun e => (e.1, e.2.content columns)

theorem contents_append (columns : Function.Columns) (first second : List (List String × Sheet)) :
    contents columns (first ++ second) = contents columns first ++ contents columns second := List.map_append

/-! ## Writing below a directory -/

/-- No directory has the name of a file of functions, and no file is named by a number. -/
structure Room (files : Files) (place : Place) : Prop where
  numbers : ∀ (n : Nat) content, files.entryAt (place ++ [toString n]) ≠ .file content
  sheets : ∀ above base (sheet : Sheet), files.entryAt (place ++ (above ++ [base ++ sheet.extension])) ≠ .directory

/-- What has been written below a directory, over the files that were there before. -/
structure Written (before : Files) (s : Workspace) (directory : String) (place : Place)
    (news : List (List String × Content)) : Prop where
  leads : s.files.lookup directory = .ok (place, .directory)
  room : Room s.files place
  file : ∀ names content, s.files.entryAt (place ++ names) = .file content ↔
    (names, content) ∈ news ∨ names ∉ news.map (·.1) ∧ before.entryAt (place ++ names) = .file content

/-- No file of functions is named by a number. -/
theorem ne_number (above : List String) (base : String) (sheet : Sheet) (n : Nat) :
    above ++ [base ++ sheet.extension] ≠ [toString n] := by
  intro he
  have hlast := congrArg List.getLast? he
  rw [List.getLast?_concat, List.getLast?_singleton, Option.some.injEq] at hlast
  have hdot : '.' ∈ (toString n).toList := by
    rw [← hlast, String.toList_append]
    exact List.mem_append_right _ sheet.mem_extension
  exact absurd (isDigit_of_mem_toString hdot) (by decide)

namespace Written

variable {before : Files} {s t : Workspace} {directory : String} {place : Place} {news : List (List String × Content)}

theorem makes (h : Written before s directory place news) (n : Nat)
    (ht : t.files = s.files.addDirectory (place ++ [toString n])) : Written before t directory place news := by
  have hentry := Files.entryAt_addDirectory s.files (place ++ [toString n])
  refine ⟨?_, ⟨?_, ?_⟩, ?_⟩
  · rw [ht]
    exact (Files.keeps_addDirectory _ _).lookup h.leads
  · intro m content
    rw [ht, hentry]
    split
    · simp
    · exact h.room.numbers m content
  · intro above base sheet
    rw [ht, hentry, if_neg fun he => ne_number above base sheet n (List.append_cancel_left he).symm]
    exact h.room.sheets above base sheet
  · intro names content
    rw [← h.file names content, ht, hentry]
    split
    · next he =>
      have hnames : [toString n] = names := List.append_cancel_left he
      subst hnames
      exact iff_of_false (by simp) (h.room.numbers n content)
    · rfl

/-- A file goes where none was written yet. -/
theorem puts (h : Written before s directory place news) {above : List String} {base : String} {sheet : Sheet}
    {content : Content} (hnew : above ++ [base ++ sheet.extension] ∉ news.map (·.1))
    (ht : t.files = s.files.put (place ++ (above ++ [base ++ sheet.extension])) content) :
    Written before t directory place (news ++ [(above ++ [base ++ sheet.extension], content)]) := by
  have hplace : s.files.isDirectory (place ++ (above ++ [base ++ sheet.extension])) = false :=
    Bool.eq_false_iff.2 fun he => h.room.sheets above base sheet (Files.entryAt_eq_directory.2 he)
  have hentry := fun other => Files.entryAt_put s.files _ other content hplace
  refine ⟨?_, ⟨?_, ?_⟩, ?_⟩
  · rw [ht]
    exact (Files.keeps_put _ _ _).lookup h.leads
  · intro n found
    rw [ht, hentry, if_neg fun he => ne_number above base sheet n (List.append_cancel_left he)]
    exact h.room.numbers n found
  · intro other name extended
    rw [ht, hentry]
    split
    · simp
    · exact h.room.sheets other name extended
  · intro names found
    rw [ht, hentry, List.map_append, List.mem_append, List.mem_append, List.map_singleton, List.mem_singleton,
      List.mem_singleton, Prod.mk.injEq]
    by_cases he : names = above ++ [base ++ sheet.extension]
    · have hno : (names, found) ∉ news := fun hm => hnew (he ▸ List.mem_map_of_mem hm)
      rw [if_pos (by rw [he])]
      simp [he, he ▸ hno, eq_comm]
    · rw [if_neg fun hp => he (List.append_cancel_left hp).symm, h.file names found]
      simp [he]

theorem congr (h : Written before s directory place news) (ht : t.files = s.files) : Written before t directory place
    news :=
  ⟨by rw [ht]; exact h.leads, by rw [ht]; exact h.room, by rw [ht]; exact h.file⟩

theorem said (h : Written before s directory place news) (line : String) :
    Written before (HasConsole.setConsole s ((HasConsole.console s).printLine line)) directory place news := h.congr rfl

/-- Files with different names are written one after the other. -/
theorem putsAll {above : List String} {base : String} {columns : Function.Columns} : ∀ {written : List Sheet}
    {news : List (List String × Content)} {s : Workspace}, Written before s directory place news →
    ((news ++ contents columns (written.map fun sheet => (above ++ [base ++ sheet.extension], sheet))).map
      (·.1)).Nodup →
    t.files = s.files.putAll (place ++ above) (written.map (Sheet.under columns base)) →
    Written before t directory place
      (news ++ contents columns (written.map fun sheet => (above ++ [base ++ sheet.extension], sheet)))
  | [], news, s, h, _, ht => by
    simp only [List.map_nil, contents, List.append_nil]
    exact h.congr ht
  | sheet :: rest, news, s, h, hnodup, ht => by
    have hsplit : news ++ contents columns ((sheet :: rest).map fun sheet =>
      (above ++ [base ++ sheet.extension], sheet)) =
        news ++ [(above ++ [base ++ sheet.extension], sheet.content columns)] ++
          contents columns (rest.map fun sheet => (above ++ [base ++ sheet.extension], sheet)) := by
      simp [contents]
    rw [hsplit] at hnodup ⊢
    have hnew : above ++ [base ++ sheet.extension] ∉ news.map (·.1) := by
      rw [List.map_append, List.map_append, List.nodup_append, List.nodup_append] at hnodup
      exact fun hm => hnodup.1.2.2 _ hm _ (by simp) rfl
    let next : Workspace :=
      { s with files := s.files.put (place ++ (above ++ [base ++ sheet.extension])) (sheet.content columns) }
    have hnext : Written before next directory place _ := h.puts hnew rfl
    refine putsAll hnext hnodup ?_
    rw [ht]
    simp [Files.putAll, Sheet.under, next]

end Written

/-! ## Saving a tree -/

/-- Functions that can all be written under their names. -/
structure Writable (functions : Functions) (forms : List OutputForm) : Prop where
  distinct : functions.keys.Nodup
  bare : ∀ key ∈ functions.keys, '/' ∉ key.toList
  visible : ∀ e ∈ functions.entries, e.2.visible = true
  text : ∀ e ∈ functions.entries, ∃ text, e.2.write (OutputForm.columns forms) = .ok text

section Save

variable {functions : Functions} {layout : Layout} {forms : List OutputForm} {before : Files} {directory : String}
  {place : Place}

/-- Functions are written in a directory below. -/
theorem Written.yields_run {news : List (List String × Content)} {s : Workspace} {path base : String}
    {above names : List String} (h : Written before s directory place news) (hf : Writable functions forms)
    (hp : path ≠ "")
    (hlead : s.files.lookup path = .ok (place ++ above, .directory)) (hb : '/' ∉ base.toList) (hnames : names ≠ [])
    (hnodup : ((news ++ contents (OutputForm.columns forms)
      ((sheets functions forms names).map fun sheet => (above ++ [base ++ sheet.extension], sheet))).map (·.1)).Nodup) :
    Yields (run (Files.join path (base ++ textExtension)) functions forms { included := some names, excluded := none })
    s fun _ t => Written before t directory place (news ++ contents (OutputForm.columns forms)
        ((sheets functions forms names).map fun sheet => (above ++ [base ++ sheet.extension], sheet))) := by
  refine (Export.yields_run hp hb hlead (fun sheet => ?_) hnames hf.text).mono fun _ t ht => h.putsAll hnodup ht
  rw [List.append_assoc]
  exact h.room.sheets above base sheet

theorem Written.yields_makeDirectories {news : List (List String × Content)} {s : Workspace}
    (h : Written before s directory place news) (hd : directory ≠ "") (n : Nat) :
    Yields (WorkM.makeDirectories (Files.join directory (toString n))) s fun _ t =>
      Written before t directory place news ∧
        t.files.lookup (Files.join directory (toString n)) = .ok (place ++ [toString n], .directory) := by
  rw [Files.yields_makeDirectories_join hd (Files.isName_size n) h.leads (h.room.numbers n)]
  have hmade := h.makes n (t := { s with files := s.files.addDirectory (place ++ [toString n]) }) rfl
  refine ⟨hmade, ?_⟩
  rw [Files.lookup_join hd (Files.isName_size n) hmade.leads, Files.entryAt_addDirectory, if_pos rfl]

theorem ne_nil_of_large (hlimit : 0 ≤ layout.limit) {branch : List String} (h : isSmall layout branch = false) :
    branch ≠ [] := by
  intro he
  rw [he, isSmall, List.eraseDups_nil, List.length_nil, decide_eq_false_iff_not] at h
  exact h hlimit

theorem yields_saveBranches (hf : Writable functions forms) (hd : directory ≠ "") (hlimit : 0 ≤ layout.limit) :
    ∀ {entries : List (String × List String)} {news : List (List String × Content)} {s : Workspace},
    Written before s directory place news → (∀ e ∈ entries, e.1 ∈ functions.keys) →
    ((news ++ contents (OutputForm.columns forms) (entries.flatMap (branchFiles functions layout forms))).map
      (·.1)).Nodup →
    Yields (saveBranches functions layout directory forms none entries) s fun _ t =>
      Written before t directory place
        (news ++ contents (OutputForm.columns forms) (entries.flatMap (branchFiles functions layout forms)))
  | [], news, s, h, _, _ => by
    simpa [saveBranches, contents] using h
  | (child, branch) :: rest, news, s, h, hroots, hnodup => by
    have hrest : ∀ e ∈ rest, e.1 ∈ functions.keys := fun e he => hroots e (List.mem_cons_of_mem _ he)
    rw [saveBranches]
    cases hsmall : isSmall layout branch with
    | true =>
      have hnone : branchFiles functions layout forms (child, branch) = [] := if_pos hsmall
      rw [List.flatMap_cons, hnone, List.nil_append] at hnodup ⊢
      exact yields_saveBranches hf hd hlimit h hrest hnodup
    | false =>
      have hsome : branchFiles functions layout forms (child, branch) = (sheets functions forms branch).map fun sheet =>
          ([toString branch.eraseDups.length] ++ [child ++ sheet.extension], sheet) := if_neg (by simp [hsmall])
      rw [List.flatMap_cons, hsome, contents_append, ← List.append_assoc] at hnodup ⊢
      rw [if_pos (by rfl)]
      simp only [yields_bind, yields_say]
      refine ((h.said _).yields_makeDirectories hd branch.eraseDups.length).mono fun _ t ht => ?_
      have hnew := hnodup
      rw [List.map_append] at hnew
      have hrun := ht.1.yields_run hf (Files.join_ne_empty hd (Files.isName_size _)) ht.2
        (hf.bare child (hroots _ List.mem_cons_self)) (ne_nil_of_large hlimit hsmall) (List.nodup_append.1 hnew).1
      exact hrun.mono fun _ u hu => yields_saveBranches hf hd hlimit hu hrest hnodup

theorem append_extension_inj {a b : String} {first second : Sheet} (h : a ++ first.extension = b ++ second.extension) :
    a = b ∧ first.extension = second.extension := by
  have hlist := congrArg String.toList h
  rw [String.toList_append, String.toList_append] at hlist
  have hlength : first.extension.toList.length = second.extension.toList.length := by
    rw [String.length_toList, String.length_toList, first.length_extension, second.length_extension]
  obtain ⟨hbase, hext⟩ := List.append_inj' hlist hlength
  exact ⟨String.toList_inj.1 hbase, String.toList_inj.1 hext⟩

theorem nodup_names (above : List String) (base : String) (names : List String) :
    ((sheets functions forms names).map fun sheet => above ++ [base ++ sheet.extension]).Nodup := by
  have hpairwise := List.pairwise_map.1 (nodup_sheets functions forms names)
  refine List.pairwise_map.2 (hpairwise.imp fun hne he => hne ?_)
  have hlast := List.append_cancel_left he
  rw [List.cons.injEq] at hlast
  exact (append_extension_inj hlast.1).2

theorem map_branchFiles (branch : String × List String) : (branchFiles functions layout forms branch).map (·.1) =
    if isSmall layout branch.2 then [] else (sheets functions forms branch.2).map fun sheet =>
      [toString branch.2.eraseDups.length] ++ [branch.1 ++ sheet.extension] := by
  unfold branchFiles
  split
  · rfl
  · rw [List.map_map]
    rfl

/-- The files of a branch are named for its root, in a directory named for its size. -/
theorem name_of_branchFiles {branch : String × List String} {names : List String}
    (h : names ∈ (branchFiles functions layout forms branch).map (·.1)) :
    ∃ sheet : Sheet, names = [toString branch.2.eraseDups.length, branch.1 ++ sheet.extension] := by
  rw [map_branchFiles] at h
  split at h
  · cases h
  · obtain ⟨sheet, _, rfl⟩ := List.mem_map.1 h
    exact ⟨sheet, rfl⟩

/-- No two files of a tree have one name. -/
theorem nodup_files {branches : Branches} (hb : branches.keys.Nodup) (usage : Option Functions.Usage) (root : String) :
    ((files functions usage root layout branches forms).map (·.1)).Nodup := by
  rw [files, List.map_append, List.map_map, List.map_flatMap, List.nodup_append]
  refine ⟨nodup_names [] root _, List.nodup_flatMap.2 ⟨fun branch _ => ?_, ?_⟩, ?_⟩
  · rw [map_branchFiles]
    split
    · exact List.nodup_nil
    · exact nodup_names _ _ _
  · refine (List.pairwise_map.1 hb).imp fun {first second} hne => ?_
    intro names hfirst hsecond
    obtain ⟨sheet, hsheet⟩ := name_of_branchFiles hfirst
    obtain ⟨other, hother⟩ := name_of_branchFiles hsecond
    rw [hsheet] at hother
    simp only [List.cons.injEq] at hother
    exact hne (append_extension_inj hother.2.1).1
  · intro names hmain other hbranch he
    obtain ⟨sheet, _, rfl⟩ := List.mem_map.1 hmain
    obtain ⟨branch, _, hm⟩ := List.mem_flatMap.1 hbranch
    obtain ⟨_, hother⟩ := name_of_branchFiles hm
    rw [hother] at he
    simp at he

end Save

end Tree

end Bytelift
