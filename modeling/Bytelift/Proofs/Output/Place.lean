import Bytelift.Export
import Bytelift.Proofs.Listing.Text
import Bytelift.Proofs.Run
import Bytelift.Proofs.Table
import Mathlib.Data.List.Basic
import Mathlib.Data.List.Induction

/-! Files and directories that are made in a directory. A name behind the path of a directory leads to the place of
that name in it; making a directory or a file there leaves all else as it was. -/

namespace Bytelift

open Run Text

namespace Files

/-- A name that an entry of a directory can have. -/
structure IsName (name : String) : Prop where
  nonempty : name ≠ ""
  bare : '/' ∉ name.toList
  here : name ≠ "."
  above : name ≠ ".."

variable {path name : String}

/-! ## Paths -/

theorem opensWith_slash : opensWith path "/" = true ↔ path.toList.head? = some '/' := by
  rw [opensWith, isSome_after?]
  constructor
  · intro h
    obtain ⟨rest, hrest⟩ := h
    rw [← hrest]
    rfl
  · intro h
    obtain ⟨rest, hrest⟩ := List.head?_eq_some_iff.1 h
    exact ⟨rest, hrest.symm⟩

theorem origin_congr {other : String} (h : other.toList.head? = path.toList.head?) : origin other = origin path := by
  have hsame : opensWith other "/" = opensWith path "/" := by
    rw [Bool.eq_iff_iff, opensWith_slash, opensWith_slash, h]
  rw [origin, origin, hsame]

theorem closesWith_slash : closesWith path "/" = true ↔ ∃ stem, path = stem ++ "/" := by
  rw [closesWith, isSome_after?]
  constructor
  · intro h
    obtain ⟨rest, hrest⟩ := h
    refine ⟨String.ofList rest.reverse, String.toList_inj.1 ?_⟩
    rw [← List.reverse_inj, ← hrest]
    simp
  · intro h
    obtain ⟨stem, rfl⟩ := h
    simp

/-- The path of a directory may end in a slash or not. -/
def IsStem (stem path : String) : Prop := path = stem ∨ path = stem ++ "/"

theorem exists_join_eq (hp : path ≠ "") :
    ∃ stem, IsStem stem path ∧ ∀ {name}, IsName name → join path name = stem ++ "/" ++ name := by
  have hopens : ∀ {name}, IsName name → opensWith name "/" = false := by
    intro name hn
    rw [Bool.eq_false_iff, Ne, opensWith_slash]
    exact fun hh => hn.bare (List.mem_of_head? hh)
  by_cases hc : closesWith path "/" = true
  · obtain ⟨stem, hstem⟩ := closesWith_slash.1 hc
    refine ⟨stem, Or.inr hstem, fun hn => ?_⟩
    simp [join, hopens hn, hc, ← hstem]
  · refine ⟨path, Or.inl rfl, fun hn => ?_⟩
    simp [join, hopens hn, hc, hp]

theorem split_slash (a b : String) : split (a ++ "/" ++ b) "/" = split a "/" ++ split b "/" := by
  rw [split, String.toList_append, String.toList_append, List.append_assoc]
  change List.map _ (splitAll ['/'] (a.toList ++ '/' :: b.toList)) = _
  rw [splitAll_append, List.map_append]
  rfl

theorem parts_slash (stem : String) : parts (stem ++ "/") = parts stem := by
  have hsplit : split (stem ++ "/") "/" = split stem "/" ++ [""] := by
    rw [← String.append_empty (s := stem ++ "/"), split_slash]
    rfl
  rw [parts, hsplit, List.filter_append]
  simp [parts]

theorem IsStem.parts_eq {stem : String} (h : IsStem stem path) : parts path = parts stem := by
  rcases h with rfl | rfl
  · rfl
  · exact parts_slash stem

theorem IsStem.head?_slash {stem : String} (h : IsStem stem path) (hp : path ≠ "") (rest : String) :
    (stem ++ "/" ++ rest).toList.head? = path.toList.head? := by
  rcases h with rfl | rfl
  · have hne : path.toList ≠ [] := fun he => hp (String.toList_eq_nil_iff.1 he)
    rw [String.append_assoc, String.toList_append, List.head?_append_of_ne_nil _ hne]
  · rw [String.toList_append, List.head?_append_of_ne_nil _ (by simp)]

theorem parts_join (hp : path ≠ "") (hn : IsName name) : parts (join path name) = parts path ++ [name] := by
  obtain ⟨stem, hstem, hjoin⟩ := exists_join_eq hp
  have hname : split name "/" = [name] := split_eq_singleton rfl hn.bare
  rw [hjoin hn, parts, split_slash, List.filter_append, hname, hstem.parts_eq]
  simp [parts, hn.nonempty]

theorem origin_join (hp : path ≠ "") (hn : IsName name) : origin (join path name) = origin path := by
  obtain ⟨stem, hstem, hjoin⟩ := exists_join_eq hp
  rw [hjoin hn]
  exact origin_congr (hstem.head?_slash hp name)

theorem join_ne_empty (hp : path ≠ "") (hn : IsName name) : join path name ≠ "" := by
  obtain ⟨stem, _, hjoin⟩ := exists_join_eq hp
  rw [hjoin hn]
  intro he
  have hlength := congrArg String.length he
  simp at hlength

theorem endsInSlash_join (hp : path ≠ "") (hn : IsName name) : endsInSlash (join path name) = false := by
  obtain ⟨stem, _, hjoin⟩ := exists_join_eq hp
  obtain ⟨cs, c, hc⟩ := List.eq_nil_or_concat name.toList |>.resolve_left fun he =>
    hn.nonempty (String.toList_eq_nil_iff.1 he)
  rw [List.concat_eq_append] at hc
  have hne : '/' ≠ c := fun he => hn.bare (by rw [hc, he]; simp)
  rw [hjoin hn, endsInSlash, closesWith, Bool.eq_false_iff, Ne, isSome_after?, String.toList_append, hc]
  simp [hne]

/-- Slashes at the end of a path change nothing. -/
theorem parts_trimEnd (cs : List Char) : parts (String.ofList (trimEnd (· == '/') cs)) = parts (String.ofList cs) := by
  induction cs using List.reverseRecOn with
  | nil => rfl
  | append_singleton cs c ih =>
    by_cases hc : c = '/'
    · have hslash : String.ofList (cs ++ ['/']) = String.ofList cs ++ "/" := String.toList_inj.1 (by simp)
      rw [hc, hslash, parts_slash, ← ih]
      simp [trimEnd]
    · simp [trimEnd, hc]

/-- The directory that a path leads through last, without slashes at its end. -/
theorem exists_splitDirectory_join (hp : path ≠ "") (hn : IsName name) :
    ∃ above, splitDirectory (join path name) = (above, name) ∧ above ≠ "" ∧ origin above = origin path ∧
      parts above = parts path := by
  obtain ⟨stem, hstem, hjoin⟩ := exists_join_eq hp
  have hcut : cutAtLast? (stem ++ "/" ++ name) '/' = some (stem, name) := by
    have hreverse : (stem ++ "/" ++ name).toList.reverse = name.toList.reverse ++
      (['/'] ++ stem.toList.reverse) := by simp
    rw [cutAtLast?, hreverse, cut?_append (by simpa using hn.bare)]
    simp
  have hsplit : ∀ above, splitPath (join path name) = (above, name) → splitDirectory (join path name) =
    (above, name) := by
    intro above habove
    rw [splitDirectory, habove]
    split
    · next he =>
      simp only [Prod.mk.injEq] at he
      exact absurd he.2 hn.nonempty
    · rfl
  have hsplitPath : splitPath (join path name) = (if (trimEnd (· == '/') stem.toList).isEmpty then stem ++ "/" else
      String.ofList (trimEnd (· == '/') stem.toList), name) := by
    rw [splitPath, hjoin hn, hcut]
  refine ⟨_, hsplit _ hsplitPath, ?_⟩
  split
  · next hempty =>
    refine ⟨fun he => ?_, origin_congr ?_, (parts_slash stem).trans hstem.parts_eq.symm⟩
    · have hlength := congrArg String.length he
      simp at hlength
    · simpa using hstem.head?_slash hp ""
  · next hempty =>
    have hne : trimEnd (· == '/') stem.toList ≠ [] := by simpa using hempty
    obtain ⟨rest, hrest⟩ : trimEnd (· == '/') stem.toList <+: stem.toList := by
      simpa [trimEnd] using List.reverse_prefix.2 (List.dropWhile_suffix (l := stem.toList.reverse) (· == '/'))
    have hhead : stem.toList.head? = (trimEnd (· == '/') stem.toList).head? :=
      (congrArg List.head? hrest.symm).trans (List.head?_append_of_ne_nil _ hne)
    have hstemNe : stem.toList ≠ [] := fun he => hne (by rw [he]; rfl)
    refine ⟨by simpa using hne, origin_congr ?_, ?_⟩
    · rw [← hstem.head?_slash hp "", String.append_assoc, String.toList_append, List.head?_append_of_ne_nil _ hstemNe,
        String.toList_ofList, hhead]
    · rw [parts_trimEnd, String.ofList_toList, hstem.parts_eq]

/-! ## Places -/

variable {files : Files} {place : Place}

theorem lookup_eq_directory : files.lookup path = .ok (place, .directory) ↔
    files.resolve path = .ok place ∧ files.entryAt place = .directory := by
  unfold lookup
  cases files.resolve path with
  | error fault => simp [bind, Except.bind]
  | ok found =>
    simp only [bind, Except.bind, pure, Except.pure, Except.ok.injEq, Prod.mk.injEq]
    refine and_congr_right fun he => ?_
    rw [he]

theorem entryAt_eq_directory : files.entryAt place = .directory ↔ files.isDirectory place = true := by
  unfold entryAt
  split
  · next h => simp [h]
  · next h => split <;> simp [h]

/-- The path is only for the faults. -/
theorem walk_append {other : String} : ∀ {start : Place} {first : List String} (rest : List String),
    files.walk path start first = .ok place → files.walk other start (first ++ rest) = files.walk other place rest
  | start, [], rest, h => by
    cases h
    rfl
  | start, part :: first, rest, h => by
    rw [walk] at h
    rw [List.cons_append, walk]
    split at h
    · exact walk_append rest h
    · cases h
    · cases h

/-- A path of the same parts leads to the same directory. -/
theorem lookup_congr {other : String} (hne : other ≠ "") (ho : origin other = origin path)
    (hparts : parts other = parts path)
    (h : files.lookup path = .ok (place, .directory)) : files.lookup other = .ok (place, .directory) := by
  obtain ⟨hresolve, hentry⟩ := lookup_eq_directory.1 h
  refine lookup_eq_directory.2 ⟨?_, hentry⟩
  unfold resolve at hresolve
  split at hresolve
  · cases hresolve
  · rw [resolve, if_neg (by simpa using hne), ho, hparts, ← List.append_nil (parts path), walk_append _ hresolve]
    rfl

theorem resolve_join (hp : path ≠ "") (hn : IsName name) (h : files.lookup path = .ok (place, .directory)) :
    files.resolve (join path name) = .ok (place ++ [name]) := by
  obtain ⟨hresolve, hentry⟩ := lookup_eq_directory.1 h
  rw [resolve, if_neg (by simpa using hp)] at hresolve
  rw [resolve, if_neg (by simpa using join_ne_empty hp hn), origin_join hp hn, parts_join hp hn, walk_append _ hresolve,
    walk, hentry]
  simp [walk, step, hn.here, hn.above]

theorem lookup_join (hp : path ≠ "") (hn : IsName name) (h : files.lookup path = .ok (place, .directory)) :
    files.lookup (join path name) = .ok (place ++ [name], files.entryAt (place ++ [name])) := by
  rw [lookup, resolve_join hp hn h]
  rfl

/-! ## What is made -/

def Keeps (files later : Files) : Prop := ∀ place, files.isDirectory place = true → later.isDirectory place = true

theorem Keeps.walk {later : Files} (hk : files.Keeps later) : ∀ {start : Place} {rest : List String},
    files.walk path start rest = .ok place → later.walk path start rest = .ok place
  | start, [], h => h
  | start, part :: rest, h => by
    rw [Files.walk] at h ⊢
    split at h
    · next he =>
      rw [entryAt_eq_directory.2 (hk _ (entryAt_eq_directory.1 he))]
      exact hk.walk h
    · cases h
    · cases h

theorem Keeps.lookup {later : Files} (hk : files.Keeps later) (h : files.lookup path = .ok (place, .directory)) :
    later.lookup path = .ok (place, .directory) := by
  rw [lookup_eq_directory] at h ⊢
  obtain ⟨hresolve, hentry⟩ := h
  refine ⟨?_, entryAt_eq_directory.2 (hk _ (entryAt_eq_directory.1 hentry))⟩
  unfold resolve at hresolve ⊢
  split at hresolve
  · cases hresolve
  · next hne =>
    rw [if_neg hne]
    exact hk.walk hresolve

theorem keeps_put (files : Files) (place : Place) (content : Content) : files.Keeps (files.put place content) :=
  fun _ h => h

theorem isDirectory_addDirectory (files : Files) (place other : Place) :
    (files.addDirectory place).isDirectory other = true ↔ files.isDirectory other = true ∨ other = place := by
  unfold addDirectory
  split
  · next h =>
    refine ⟨Or.inl, fun hor => hor.elim id ?_⟩
    rintro rfl
    exact h
  · simp [isDirectory, List.contains_eq_mem, or_assoc, or_comm, or_left_comm]

theorem keeps_addDirectory (files : Files) (place : Place) : files.Keeps (files.addDirectory place) :=
  fun other h => (isDirectory_addDirectory files place other).2 (Or.inl h)

theorem entryAt_put (files : Files) (place other : Place) (content : Content)
    (h : files.isDirectory place = false) :
    (files.put place content).entryAt other = if place = other then .file content else files.entryAt other := by
  have hsame : (files.put place content).isDirectory other = files.isDirectory other := rfl
  unfold entryAt
  rw [hsame, put, Table.get?_put]
  split
  · next hd =>
    have hne : place ≠ other := by
      rintro rfl
      rw [h] at hd
      cases hd
    rw [if_neg hne]
  · by_cases he : place = other <;> simp [he]

theorem entryAt_addDirectory (files : Files) (place other : Place) :
    (files.addDirectory place).entryAt other = if place = other then .directory else files.entryAt other := by
  have hd := isDirectory_addDirectory files place other
  have hcontents : (files.addDirectory place).contents = files.contents := by
    unfold addDirectory
    split <;> rfl
  split
  · next he => exact entryAt_eq_directory.2 (hd.2 (Or.inr he.symm))
  · next hne =>
    have hsame : (files.addDirectory place).isDirectory other = files.isDirectory other :=
      Bool.eq_iff_iff.2 (hd.trans (or_iff_left (Ne.symm hne)))
    unfold entryAt
    rw [hsame, hcontents]

/-- Making a directory in a directory adds it, unless it is there. -/
theorem makeDirectories_join (hp : path ≠ "") (hn : IsName name) (h : files.lookup path = .ok (place, .directory))
    (hfree : ∀ content, files.entryAt (place ++ [name]) ≠ .file content) :
    unlessThere (makeDirectories (join path name)) files = .ok () (files.addDirectory (place ++ [name])) := by
  obtain ⟨above, hsplit, hne, horigin, hparts⟩ := exists_splitDirectory_join hp hn
  have hthere : files.isThere above = true := by rw [isThere, lookup_congr hne horigin hparts h]
  have hlookup := lookup_join hp hn h
  obtain ⟨n, hlength⟩ := Nat.exists_eq_succ_of_ne_zero fun h0 => join_ne_empty hp hn (String.length_eq_zero_iff.1 h0)
  have hstep : makeDirectories (join path name) files = match files.makeDirectory (join path name) with
      | .ok made => .ok () made
      | .error fault => .error fault files := by
    have hget : (get : Run Files Files) files = .ok files files := rfl
    rw [makeDirectories, hlength, makeWithin, hsplit]
    dsimp only
    rw [bind_of_ok hget, hthere, Bool.not_true, Bool.and_false, if_neg (by simp), bind_of_ok hget]
    cases files.makeDirectory (join path name) <;> rfl
  rw [unlessThere, hstep, makeDirectory, hlookup]
  cases hentry : files.entryAt (place ++ [name]) with
  | file content => exact absurd hentry (hfree content)
  | directory =>
    rw [addDirectory, if_pos (entryAt_eq_directory.1 hentry)]
    rfl
  | nothing => rfl

theorem yields_makeDirectories_join {s : Workspace} (hp : path ≠ "") (hn : IsName name)
    (h : s.files.lookup path = .ok (place, .directory))
    (hfree : ∀ content, s.files.entryAt (place ++ [name]) ≠ .file content) {wanted : Bool → Workspace → Prop} :
    Yields (WorkM.makeDirectories (join path name)) s wanted ↔
      wanted true { s with files := s.files.addDirectory (place ++ [name]) } := by
  simp only [WorkM.makeDirectories, yields_bind, yields_get, makeDirectories_join hp hn h hfree, WorkM.setFiles,
    yields_modify, yields_pure]

/-- A file can be written in a directory, unless a directory has its name. -/
theorem writable_join (hp : path ≠ "") (hn : IsName name) (h : files.lookup path = .ok (place, .directory))
    (hfree : files.entryAt (place ++ [name]) ≠ .directory) :
    files.writable (join path name) = .ok (place ++ [name]) := by
  rw [writable, lookup_join hp hn h]
  cases hentry : files.entryAt (place ++ [name]) with
  | directory => exact absurd hentry hfree
  | file content => simp [bind, Except.bind, endsInSlash_join hp hn, pure, Except.pure]
  | nothing => simp [bind, Except.bind, endsInSlash_join hp hn, pure, Except.pure]

end Files

end Bytelift
