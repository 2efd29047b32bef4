import Bytelift.Proofs.Output.Tree

/-! Which functions the files of a tree hold. The root is always in its file. A small branch has no file of its own, so
its functions are lost if they do not go into the file of the root: in a tree of declarations, or at depth zero. -/

namespace Bytelift

open Run Text Export

/-! ## Near the root -/

namespace Functions.Usage

variable {usage : Usage} {barred : String → Bool} {limit : Option Int}

/-- What has been visited stays so. -/
theorem mem_visit {name : String} : ∀ {bound : Nat} {pile : List (String × Int)} {visited : List String},
    name ∈ visited → name ∈ usage.visit barred limit bound pile visited
  | bound, [], visited, h => by
    cases bound <;> exact h
  | 0, _ :: _, _, h => h
  | bound + 1, (next, depth) :: rest, visited, h => by
    rw [visit]
    split
    · exact mem_visit h
    · exact mem_visit (List.mem_append_left _ h)

end Functions.Usage

namespace Tree

variable {functions : Functions} {root : String} {layout : Layout} {branches : Branches} {forms : List OutputForm}

theorem root_mem_near (usage : Option Functions.Usage) (hr : functions.contains root = true) {depth : Int}
    (hd : 0 ≤ depth) : root ∈ near functions usage root depth := by
  cases usage with
  | none => exact List.mem_singleton_self root
  | some usage =>
    rw [near, Functions.Usage.reach, Functions.Usage.visitBound, Functions.Usage.visit,
      if_neg (by simpa [hr] using hd)]
    exact Functions.Usage.mem_visit (List.mem_singleton_self root)

theorem near_zero (usage : Option Functions.Usage) (hr : functions.contains root = true) :
    near functions usage root 0 = [root] := by
  cases usage with
  | none => rfl
  | some usage =>
    rw [near, Functions.Usage.reach, Functions.Usage.visitBound, Functions.Usage.visit, if_neg (by simp [hr])]
    cases usage.values.flatten.length <;> simp [Functions.Usage.visit]

/-! ## In which files -/

theorem mem_mainSet {usage : Option Functions.Usage} {key : String} : key ∈ mainSet functions usage root layout
    branches ↔ key ∈ near functions usage root layout.depth ∨ layout.withBranches = true ∧
      ∃ e ∈ branches.entries, key = e.1 ∨ isSmall layout e.2 = true ∧ key ∈ e.2 := by
  rw [mainSet, List.mem_append]
  refine or_congr_right ?_
  cases layout.withBranches with
  | false => simp
  | true =>
    simp only [if_true, true_and, List.mem_flatMap, List.mem_cons]
    refine exists_congr fun e => and_congr_right fun _ => or_congr_right ?_
    cases isSmall layout e.2 <;> simp

/-- A function is in a file of a tree if there is an archive, or it goes into the file of the root, or it belongs to a
branch that is not small. -/
theorem exists_file_iff (hf : Writable functions forms) {usage : Option Functions.Usage} {key : String}
    (hk : key ∈ functions.keys) : (∃ file ∈ files functions usage root layout branches forms, key ∈ file.2.keys) ↔
      .archive ∈ forms ∨ key ∈ mainSet functions usage root layout branches ∨
        ∃ e ∈ branches.entries, isSmall layout e.2 = false ∧ key ∈ e.2 := by
  have hsheets : ∀ names, (∃ sheet ∈ sheets functions forms names, key ∈ sheet.keys) ↔ .archive ∈ forms ∨ key ∈ names :=
    fun names => mem_sheets hf.visible hk
  have hmain : (∃ file ∈ (sheets functions forms (mainSet functions usage root layout branches)).map fun sheet =>
      ([root ++ sheet.extension], sheet), key ∈ file.2.keys) ↔
        .archive ∈ forms ∨ key ∈ mainSet functions usage root layout branches := by
    simpa using hsheets (mainSet functions usage root layout branches)
  have hbranch : ∀ e : String × List String, (∃ file ∈ branchFiles functions layout forms e, key ∈ file.2.keys) ↔
      isSmall layout e.2 = false ∧ (.archive ∈ forms ∨ key ∈ e.2) := by
    intro e
    unfold branchFiles
    cases isSmall layout e.2 with
    | true => simp
    | false =>
      simpa using hsheets e.2
  constructor
  · intro h
    obtain ⟨file, hfile, hkey⟩ := h
    rcases List.mem_append.1 hfile with hfile | hfile
    · exact (hmain.1 ⟨file, hfile, hkey⟩).imp_right Or.inl
    · obtain ⟨e, he, hfile⟩ := List.mem_flatMap.1 hfile
      obtain ⟨hlarge, harchive | hmem⟩ := (hbranch e).1 ⟨file, hfile, hkey⟩
      · exact Or.inl harchive
      · exact Or.inr (Or.inr ⟨e, he, hlarge, hmem⟩)
  · intro h
    rw [← or_assoc, ← hmain] at h
    rcases h with ⟨file, hfile, hkey⟩ | ⟨e, he, hlarge, hmem⟩
    · exact ⟨file, List.mem_append_left _ hfile, hkey⟩
    · obtain ⟨file, hfile, hkey⟩ := (hbranch e).2 ⟨hlarge, Or.inr hmem⟩
      exact ⟨file, List.mem_append_right _ (List.mem_flatMap.2 ⟨e, he, hfile⟩), hkey⟩

/-! ## Saving -/

/-- A directory is there or can be made, and has room for the files of a tree. -/
structure Opens (files : Files) (directory : String) (made : Files) (place : Place) : Prop where
  makes : Files.unlessThere (Files.makeDirectories directory) files = .ok () made
  leads : made.lookup directory = .ok (place, .directory)
  room : Room made place

theorem yields_save {s : Workspace} {directory : String} {made : Files} {place : Place} (usage : Option Functions.Usage)
    (hf : Writable functions forms) (hb : Branches.Sound functions branches) (hr : functions.contains root = true)
    (ho : Opens s.files directory made place) (hd : directory ≠ "") (hlimit : 0 ≤ layout.limit)
      (hdepth : 0 ≤ layout.depth) :
    Yields (save functions usage root layout branches directory forms none) s fun _ t => Written made t directory place
      (contents (OutputForm.columns forms) (files functions usage root layout branches forms)) := by
  have hempty : Written made { s with files := made } directory place [] := ⟨ho.leads, ho.room, by simp⟩
  have hbare : '/' ∉ root.toList := by
    obtain ⟨f, hm⟩ := Table.contains_eq_true.1 hr
    exact hf.bare root (List.mem_map_of_mem hm)
  have hmain : mainSet functions usage root layout branches ≠ [] :=
    List.ne_nil_of_mem (mem_mainSet.2 (Or.inl (root_mem_near usage hr hdepth)))
  have hnodup : ((contents (OutputForm.columns forms) (files functions usage root layout branches forms)).map
    (·.1)).Nodup := by
    rw [contents, List.map_map]
    exact nodup_files hb.distinct usage root
  rw [files, contents_append] at hnodup ⊢
  simp only [save, WorkM.makeDirectories, yields_bind, yields_get, ho.makes, WorkM.setFiles, yields_modify, yields_pure]
  have hfirst := hnodup
  rw [List.map_append] at hfirst
  have hlead : made.lookup directory = .ok (place ++ [], .directory) := by
    rw [List.append_nil]
    exact ho.leads
  have hrun := hempty.yields_run hf hd hlead hbare hmain (List.nodup_append.1 hfirst).1
  exact hrun.mono fun _ t ht => yields_saveBranches hf hd hlimit ht hb.roots hnodup

end Tree

namespace Command

variable {functions : Functions} {root : String} {options : Options} {branches : Branches}

theorem layoutFor_limit (options : Options) : (layoutFor options).limit = options.branchLimit := by
  unfold layoutFor
  split <;> rfl

theorem layoutFor_withBranches (options : Options) :
    (layoutFor options).withBranches = true ↔ options.treeKind ≠ .declarations ∧ 1 ≤ options.depth := by
  unfold layoutFor
  cases options.treeKind <;> simp

theorem layoutFor_depth (h : 0 ≤ options.depth) : 0 ≤ (layoutFor options).depth ∧
    ((layoutFor options).withBranches = false → (layoutFor options).depth = 0) := by
  have hzero : decide (1 ≤ options.depth) = false → options.depth = 0 := by
    intro hsmall
    have := of_decide_eq_false hsmall
    omega
  unfold layoutFor
  cases options.treeKind with
  | declarations => exact ⟨Int.le_refl 0, fun _ => rfl⟩
  | calls => exact ⟨h, hzero⟩
  | mentions => exact ⟨h, hzero⟩

/-- The branches of a tree can be told. -/
theorem yields_branchesFor (hk : functions.keys.Nodup) (ha : functions.Acyclic) (hr : functions.contains root = true)
    (options : Options) (s : Workspace) :
    Yields (branchesFor functions (usageFor functions options.treeKind) options root) s fun found t =>
      t.files = s.files ∧ ∃ branches, found = some branches ∧ Branches.Sound functions branches := by
  have husage : ∀ kind, Yields (branchesFor functions (some (functions.usage kind)) options root) s fun found t =>
      t.files = s.files ∧ ∃ branches, found = some branches ∧ Branches.Sound functions branches := by
    intro kind
    obtain ⟨branches, hfound, hsound⟩ := Branches.ofUsage_sound hr (some options.treeDepth)
    exact yields_pure.2 ⟨rfl, branches, hfound, hsound⟩
  cases options.treeKind with
  | declarations => exact Branches.yields_ofDeclarations hk ha hr s
  | calls => exact husage .call
  | mentions => exact husage .mention

/-- A function of a branch is in some file if there is an archive, or small branches go into the file of the root, or
one of its branches is not small. -/
theorem exists_file_of_branch_iff (hf : Tree.Writable functions options.forms) (hb : Branches.Sound functions branches)
    (hr : functions.contains root = true) (hdepth : 0 ≤ options.depth) (usage : Option Functions.Usage) {key : String}
    (hkey : key = root ∨ ∃ e ∈ branches.entries, key ∈ e.2) :
    (∃ file ∈ Tree.files functions usage root (layoutFor options) branches options.forms, key ∈ file.2.keys) ↔
      .archive ∈ options.forms ∨ key = root ∨ (options.treeKind ≠ .declarations ∧ 1 ≤ options.depth) ∨
        ∃ e ∈ branches.entries, options.branchLimit < e.2.eraseDups.length ∧ key ∈ e.2 := by
  obtain ⟨hnear, hzero⟩ := layoutFor_depth hdepth
  have hroot := Tree.root_mem_near usage hr hnear
  have hknown : key ∈ functions.keys := by
    rcases hkey with rfl | ⟨e, he, hmem⟩
    · obtain ⟨f, hm⟩ := Table.contains_eq_true.1 hr
      exact List.mem_map_of_mem hm
    · exact hb.members e he key hmem
  have hlarge : ∀ branch : List String, Tree.isSmall (layoutFor options) branch = false ↔
      options.branchLimit < branch.eraseDups.length := by
    intro branch
    rw [Tree.isSmall, layoutFor_limit, decide_eq_false_iff_not]
    exact Int.not_le
  rw [Tree.exists_file_iff hf hknown, Tree.mem_mainSet, ← layoutFor_withBranches]
  simp only [← hlarge]
  refine or_congr_right ?_
  constructor
  · intro h
    rcases h with (hmem | ⟨hwith, _⟩) | hbranch
    · cases hwith : (layoutFor options).withBranches with
      | true => exact Or.inr (Or.inl rfl)
      | false =>
        rw [hzero hwith, Tree.near_zero usage hr, List.mem_singleton] at hmem
        exact Or.inl hmem
    · exact Or.inr (Or.inl hwith)
    · exact Or.inr (Or.inr hbranch)
  · intro h
    rcases h with rfl | hwith | hbranch
    · exact Or.inl (Or.inl hroot)
    · rcases hkey with rfl | ⟨e, he, hmem⟩
      · exact Or.inl (Or.inl hroot)
      · cases hsmall : Tree.isSmall (layoutFor options) e.2 with
        | true => exact Or.inl (Or.inr ⟨hwith, e, he, Or.inr ⟨hsmall, hmem⟩⟩)
        | false => exact Or.inr ⟨e, he, hsmall, hmem⟩
    · exact Or.inr hbranch

/-- A tree is written if its directory has room. -/
theorem exists_writeTree {s : Workspace} {tree directory : String} {made : Files} {place : Place}
    (hf : Tree.Writable functions options.forms) (ha : functions.Acyclic)
    (ht : (if tree = "start" then given functions.start else some tree) = some root)
      (hr : functions.contains root = true)
    (hout : given options.output = some directory) (ho : Tree.Opens s.files directory made place)
    (hlimit : 0 ≤ options.branchLimit) (hdepth : 0 ≤ options.depth) :
    ∃ branches u t, branchesFor functions (usageFor functions options.treeKind) options root s = .ok (some branches) u ∧
      Branches.Sound functions branches ∧ writeTree functions options none tree s = .ok true t ∧
      Tree.Written made t directory place (Tree.contents (OutputForm.columns options.forms)
        (Tree.files functions (usageFor functions options.treeKind) root (layoutFor options) branches
          options.forms)) := by
  obtain ⟨_, u, hbranches, hfiles, branches, rfl, hsound⟩ := yields_branchesFor hf.distinct ha hr options s
  have hd : directory ≠ "" := by
    intro he
    rw [he] at hout
    simpa using Option.mem_filter_iff.1 hout
  have hsave := Tree.yields_save (s := u) (usageFor functions options.treeKind) hf hsound hr (by rw [hfiles]; exact ho)
    hd (by rw [layoutFor_limit]; exact hlimit) (layoutFor_depth hdepth).1
  have hwrite : Yields (writeTree functions options none tree) s fun finished t => finished = true ∧
      Tree.Written made t directory place (Tree.contents (OutputForm.columns options.forms)
        (Tree.files functions (usageFor functions options.treeKind) root (layoutFor options) branches
          options.forms)) := by
    rw [writeTree, ht]
    refine yields_bind.2 ⟨_, u, hbranches, ?_⟩
    simp only [hout, yields_bind, yields_say, yields_pure]
    exact hsave.mono fun _ t hw => ⟨trivial, hw.said _⟩
  obtain ⟨_, t, hrun, rfl, hw⟩ := hwrite
  exact ⟨branches, u, t, hbranches, hsound, hrun, hw⟩

/-- Writing a tree ends well, with the planned files over what was there before. The root is in one of them. A function
of a branch is, too, if all functions are archived, if small branches go into the file of the root, or if one of its
branches is not small; else it is in no file. -/
theorem writeTree_holds_iff {s : Workspace} {tree directory : String} {made : Files} {place : Place}
    (hf : Tree.Writable functions options.forms) (ha : functions.Acyclic)
    (ht : (if tree = "start" then given functions.start else some tree) = some root)
      (hr : functions.contains root = true)
    (hout : given options.output = some directory) (ho : Tree.Opens s.files directory made place)
    (hlimit : 0 ≤ options.branchLimit) (hdepth : 0 ≤ options.depth) :
    ∃ branches u t, branchesFor functions (usageFor functions options.treeKind) options root s = .ok (some branches) u ∧
      writeTree functions options none tree s = .ok true t ∧
      Tree.Written made t directory place (Tree.contents (OutputForm.columns options.forms)
        (Tree.files functions (usageFor functions options.treeKind) root (layoutFor options) branches options.forms)) ∧
      ∀ key, (key = root ∨ ∃ e ∈ branches.entries, key ∈ e.2) →
        ((∃ file ∈ Tree.files functions (usageFor functions options.treeKind) root (layoutFor options) branches
          options.forms, key ∈ file.2.keys) ↔
          .archive ∈ options.forms ∨ key = root ∨ (options.treeKind ≠ .declarations ∧ 1 ≤ options.depth) ∨
            ∃ e ∈ branches.entries, options.branchLimit < e.2.eraseDups.length ∧ key ∈ e.2) := by
  obtain ⟨branches, u, t, hbranches, hsound, hrun, hwritten⟩ := exists_writeTree hf ha ht hr hout ho hlimit hdepth
  exact ⟨branches, u, t, hbranches, hrun, hwritten, fun key hkey =>
    exists_file_of_branch_iff hf hsound hr hdepth _ hkey⟩

/-! ## A root with a small branch -/

/-- Nothing is below a directory that was just made. -/
theorem opens_new {directory name : String} (hn : Files.IsName name)
    (hm : Files.unlessThere (Files.makeDirectories directory) {} = .ok () { directories := [[name]] })
    (hl : Files.lookup { directories := [[name]] } directory = .ok ([name], .directory)) :
    Tree.Opens {} directory { directories := [[name]] } [name] := by
  have hnothing : ∀ names, names ≠ [] → Files.entryAt { directories := [[name]] } ([name] ++ names) = .nothing := by
    intro names hne
    have hslash : name ≠ "/" := fun he => hn.bare (by rw [he]; decide)
    simp [Files.entryAt, Files.isDirectory, hn.above, hslash, hne, Table.get?, Table.findEntry]
  refine ⟨hm, hl, ?_, ?_⟩
  · intro n content
    rw [hnothing _ (by simp)]
    simp
  · intro above base sheet
    rw [hnothing _ (by simp)]
    simp

def oneLiner (name : String) (declarer : Option String) (text : String) : String × Function :=
  (name, { name, declarer, parameters := some (.number 1), code := some [{ text }] })

theorem writable_oneLiners {functions : Functions} {forms : List OutputForm} (hk : functions.keys.Nodup)
    (hb : ∀ key ∈ functions.keys, '/' ∉ key.toList)
    (hl : ∀ e ∈ functions.entries, ∃ name declarer text, e = oneLiner name declarer text) :
    Tree.Writable functions forms := by
  refine ⟨hk, hb, fun e he => ?_, fun e he => ?_⟩
  · obtain ⟨_, _, _, rfl⟩ := hl e he
    rfl
  · obtain ⟨_, _, _, rfl⟩ := hl e he
    exact ⟨_, rfl⟩

/-- A root that declares a small branch and one that is not. -/
def unevenTree : Functions :=
  ⟨[oneLiner "func_a_0x1" none "return 1", oneLiner "func_b_0x2" (some "func_a_0x1") "return 2",
    oneLiner "func_c_0x3" (some "func_a_0x1") "return 3", oneLiner "func_d_0x4" (some "func_c_0x3") "return 4"]⟩

/-- The branch that is not small has a file, next to that of the root. -/
theorem writeTree_holds_unevenTree :
    ∃ t, writeTree unevenTree { output := some "./out/" } none "start" {} = .ok true t ∧
      Tree.Written { directories := [["out"]] } t "./out/" ["out"]
        [(["func_a_0x1.txt"], .text "function func_a_0x1()\nreturn 1\n"),
          (["2", "func_c_0x3.txt"], .text "function func_d_0x4()\nreturn 4\nfunction func_c_0x3()\nreturn 3\n")] := by
  have hacyclic : unevenTree.Acyclic :=
    Functions.acyclic_of_rank (fun name => if name = "func_a_0x1" then 0 else if name = "func_d_0x4" then 2 else 1)
      (by decide)
  have hwritable : Tree.Writable unevenTree [.pseudocode] := by
    refine writable_oneLiners (by decide) (by decide) ?_
    simp only [unevenTree, List.forall_mem_cons, List.not_mem_nil, false_implies, implies_true, and_true]
    exact ⟨⟨_, _, _, rfl⟩, ⟨_, _, _, rfl⟩, ⟨_, _, _, rfl⟩, ⟨_, _, _, rfl⟩⟩
  have hname : Files.IsName "out" := ⟨by decide, by decide, by decide, by decide⟩
  obtain ⟨branches, u, t, hbranches, hrun, hwritten, _⟩ := @writeTree_holds_iff unevenTree "func_a_0x1"
    { output := some "./out/" } {} "start" "./out/" _ _ hwritable hacyclic rfl rfl rfl (opens_new hname rfl rfl)
    (by decide) (by decide)
  have htold : branchesFor unevenTree none { output := some "./out/" } "func_a_0x1" {} = .ok
      (some (Branches.bySize ⟨[("func_b_0x2", ["func_b_0x2"]), ("func_c_0x3", ["func_c_0x3", "func_d_0x4"])]⟩))
      { console := { output := "Tree root: func_a_0x1\nDeclarer Root\n" } } := rfl
  rw [Branches.bySize_of_pairwise (by decide)] at htold
  cases hbranches.symm.trans htold
  exact ⟨t, hrun, hwritten⟩

def lonelyTree : Functions :=
  ⟨[oneLiner "func_a_0x1" none "return 1", oneLiner "func_b_0x2" (some "func_a_0x1") "return 2"]⟩

/-- The function that it declares belongs to a branch, and is in no file. -/
theorem writeTree_loses_lonely_branch :
    ∃ u t, branchesFor lonelyTree none { output := some "out" } "func_a_0x1" {} =
        .ok (some ⟨[("func_b_0x2", ["func_b_0x2"])]⟩) u ∧
      writeTree lonelyTree { output := some "out" } none "start" {} = .ok true t ∧
      ∀ names content, t.files.entryAt (["out"] ++ names) = .file content →
        names = ["func_a_0x1.txt"] ∧ content = .text "function func_a_0x1()\nreturn 1\n" := by
  have hacyclic : lonelyTree.Acyclic :=
    Functions.acyclic_of_rank (fun name => if name = "func_a_0x1" then 0 else 1) (by decide)
  have hwritable : Tree.Writable lonelyTree [.pseudocode] := by
    refine writable_oneLiners (by decide) (by decide) ?_
    simp only [lonelyTree, List.forall_mem_cons, List.not_mem_nil, false_implies, implies_true, and_true]
    exact ⟨⟨_, _, _, rfl⟩, ⟨_, _, _, rfl⟩⟩
  have hname : Files.IsName "out" := ⟨by decide, by decide, by decide, by decide⟩
  obtain ⟨branches, u, t, hbranches, -, hrun, hwritten⟩ := @exists_writeTree lonelyTree "func_a_0x1"
    { output := some "out" } {} "start" "out" _ _ hwritable hacyclic rfl rfl rfl (opens_new hname rfl rfl) (by decide)
    (by decide)
  have htold : branchesFor lonelyTree none { output := some "out" } "func_a_0x1" {} = .ok
      (some (Branches.bySize ⟨[("func_b_0x2", ["func_b_0x2"])]⟩))
      { console := { output := "Tree root: func_a_0x1\nDeclarer Root\n" } } := rfl
  rw [Branches.bySize_of_pairwise (by decide)] at htold
  cases hbranches.symm.trans htold
  refine ⟨_, t, htold, hrun, fun names content hfile => ?_⟩
  rcases (hwritten.file names content).1 hfile with hm | ⟨_, hold⟩
  · have hone : (names, content) ∈ [(["func_a_0x1.txt"], Content.text "function func_a_0x1()\nreturn 1\n")] := hm
    simpa using hone
  · have hnone : ∀ place, Files.entryAt { directories := [["out"]] } place ≠ .file content := by
      intro place
      unfold Files.entryAt
      split <;> simp [Table.get?, Table.findEntry]
    exact absurd hold (hnone _)

end Command

end Bytelift
