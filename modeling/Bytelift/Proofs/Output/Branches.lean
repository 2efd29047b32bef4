import Bytelift.Command.Run
import Bytelift.Proofs.Run
import Bytelift.Proofs.Table
import Mathlib.Data.List.Perm.Subperm
import Mathlib.Logic.Relation

/-! The branches of a tree. If declarers form no cycle then a walk from a function meets each function at most once,
so it ends within its bound, and the functions below every function that a root declares can be told. -/

namespace Bytelift

open Run

namespace Functions

def Declares (functions : Functions) (declarer key : String) : Prop :=
  ∃ f, (key, f) ∈ functions.entries ∧ f.declarer = some declarer

def Acyclic (functions : Functions) : Prop := ∀ key, ¬Relation.TransGen functions.Declares key key

/-- Functions that come after those that declare them form no cycle. -/
theorem acyclic_of_rank {functions : Functions} (rank : String → Nat)
    (h : ∀ e ∈ functions.entries, ∀ declarer, e.2.declarer = some declarer → rank declarer < rank e.1) :
    functions.Acyclic := by
  have hlt : ∀ a b, Relation.TransGen functions.Declares a b → rank a < rank b := by
    intro a b hab
    induction hab with
    | single hd =>
      obtain ⟨f, hm, hf⟩ := hd
      exact h _ hm _ hf
    | tail _ hd ih =>
      obtain ⟨f, hm, hf⟩ := hd
      exact Nat.lt_trans ih (h _ hm _ hf)
  exact fun key hk => Nat.lt_irrefl _ (hlt key key hk)

variable {functions : Functions}

theorem declares_of_mem {declarer key : String} (h : key ∈ functions.declaredBy declarer) :
    functions.Declares declarer key := by
  obtain ⟨⟨k, f⟩, hm, hk⟩ := List.mem_filterMap.1 h
  dsimp only at hk
  split at hk
  · next hf =>
    cases hk
    exact ⟨f, hm, hf⟩
  · cases hk

theorem Declares.mem_keys {declarer key : String} (h : functions.Declares declarer key) : key ∈ functions.keys := by
  obtain ⟨f, hm, _⟩ := h
  exact List.mem_map_of_mem hm

/-- A function has one declarer. -/
theorem Declares.unique (hk : functions.keys.Nodup) {a b key : String} (ha : functions.Declares a key)
    (hb : functions.Declares b key) : a = b := by
  obtain ⟨f, hf, hfa⟩ := ha
  obtain ⟨g, hg, hgb⟩ := hb
  have hsame := (Table.get?_eq_some hk).2 hf
  rw [(Table.get?_eq_some hk).2 hg, Option.some.injEq] at hsame
  rw [← hsame, hgb, Option.some.injEq] at hfa
  exact hfa.symm

theorem nodup_declaredBy (hk : functions.keys.Nodup) (declarer : String) : (functions.declaredBy declarer).Nodup := by
  refine hk.sublist ?_
  unfold declaredBy Table.keys
  induction functions.entries with
  | nil => exact .refl _
  | cons e es ih =>
    rw [List.filterMap_cons, List.map_cons]
    dsimp only
    split
    · next hnone => exact ih.cons _
    · next hsome =>
      split at hsome
      · cases hsome
        exact ih.cons_cons _
      · cases hsome

def declare (table : Table String (List String)) (e : String × Function) : Table String (List String) :=
  match e.2.declarer with
  | none => table
  | some declarer =>
    if declarer.isEmpty then table else table.put declarer ((table.get? declarer).getD [] ++ [e.1])

theorem getD_declare (table : Table String (List String)) (e : String × Function) (name : String) :
    ((declare table e).get? name).getD [] = (table.get? name).getD [] ++
      if name.isEmpty = false ∧ e.2.declarer = some name then [e.1] else [] := by
  unfold declare
  cases hd : e.2.declarer with
  | none => simp
  | some declarer =>
    dsimp only
    split
    · next hempty =>
      have hno : ¬(name.isEmpty = false ∧ some declarer = some name) := by
        rintro ⟨hname, he⟩
        rw [Option.some.injEq] at he
        rw [he, hname] at hempty
        cases hempty
      rw [if_neg hno, List.append_nil]
    · next hempty =>
      rw [Table.get?_put]
      by_cases hn : declarer = name
      · subst hn
        simp [hempty]
      · simp [hn]

/-- The declared functions, as the walk looks them up. -/
theorem getD_declarations (functions : Functions) (name : String) :
    (functions.declarations.get? name).getD [] = if name.isEmpty then [] else functions.declaredBy name := by
  have hall : ∀ (entries : List (String × Function)) (table : Table String (List String)),
      ((entries.foldl declare table).get? name).getD [] = (table.get? name).getD [] ++
        if name.isEmpty then [] else
          entries.filterMap fun e => if e.2.declarer = some name then some e.1 else none := by
    intro entries
    induction entries with
    | nil => intro table; simp
    | cons e es ih =>
      intro table
      rw [List.foldl_cons, ih, getD_declare, List.filterMap_cons, List.append_assoc]
      by_cases hempty : name.isEmpty = true
      · simp [hempty]
      · by_cases hd : e.2.declarer = some name <;> simp [hempty, hd]
  exact (hall functions.entries {}).trans (List.nil_append _)

/-! ## Walks -/

/-- A walk on the way: the functions met so far and those on the pile are all different, lie below the start, and
stand below a function that was met, the start aside. -/
structure Walk (functions : Functions) (start : String) (met pile : List String) : Prop where
  distinct : (met ++ pile).Nodup
  known : ∀ name ∈ met ++ pile, name ∈ functions.keys
  below : ∀ name ∈ met ++ pile, Relation.ReflTransGen functions.Declares start name
  parent : ∀ name ∈ met ++ pile, name = start ∨ ∃ declarer ∈ met, functions.Declares declarer name

variable {start name : String} {met rest : List String}

/-- What a function declares has not been met yet, and is not on the pile. -/
theorem Walk.fresh (h : functions.Walk start met (name :: rest)) (hk : functions.keys.Nodup) (ha : functions.Acyclic)
    {child : String} (hc : functions.Declares name child) : child ∉ met ++ name :: rest := by
  intro hm
  rcases h.parent child hm with rfl | ⟨declarer, hd, hdeclares⟩
  · exact ha _ (Relation.TransGen.tail' (h.below name (by simp)) hc)
  · obtain rfl := hdeclares.unique hk hc
    exact (List.nodup_append.1 h.distinct).2.2 declarer hd declarer (by simp) rfl

/-- The function on top of the pile is met, and what it declares goes onto the pile. -/
theorem Walk.step (h : functions.Walk start met (name :: rest)) (hk : functions.keys.Nodup) (ha : functions.Acyclic) :
    functions.Walk start (met ++ [name]) (pile functions.declarations name rest) := by
  have hdeclared : ∀ child ∈ (functions.declarations.get? name).getD [], functions.Declares name child := by
    intro child hc
    rw [getD_declarations] at hc
    split at hc
    · cases hc
    · exact declares_of_mem hc
  have hnodup : ((functions.declarations.get? name).getD []).Nodup := by
    rw [getD_declarations]
    split
    · exact List.nodup_nil
    · exact nodup_declaredBy hk name
  have hperm : (met ++ [name] ++ pile functions.declarations name rest).Perm
      ((functions.declarations.get? name).getD [] ++ (met ++ name :: rest)) := by
    refine (List.perm_append_comm_assoc _ _ _).trans ((List.reverse_perm _).append ?_)
    simp
  have hmem : ∀ n, n ∈ met ++ [name] ++ pile functions.declarations name rest ↔
      n ∈ (functions.declarations.get? name).getD [] ∨ n ∈ met ++ name :: rest := fun n =>
    hperm.mem_iff.trans List.mem_append
  constructor
  · rw [hperm.nodup_iff, List.nodup_append]
    refine ⟨hnodup, h.distinct, ?_⟩
    rintro child hc _ hm rfl
    exact h.fresh hk ha (hdeclared child hc) hm
  · intro n hn
    rcases (hmem n).1 hn with hc | hm
    · exact (hdeclared n hc).mem_keys
    · exact h.known n hm
  · intro n hn
    rcases (hmem n).1 hn with hc | hm
    · exact (h.below name (by simp)).tail (hdeclared n hc)
    · exact h.below n hm
  · intro n hn
    rcases (hmem n).1 hn with hc | hm
    · exact Or.inr ⟨name, by simp, hdeclared n hc⟩
    · exact (h.parent n hm).imp_right fun ⟨declarer, hd, hdeclares⟩ => ⟨declarer, by simp [hd], hdeclares⟩

/-- A walk ends within its bound, with functions that are there. -/
theorem Walk.gather (hk : functions.keys.Nodup) (ha : functions.Acyclic) : ∀ (bound : Nat) {met pile : List String}
    {found : Functions}, functions.Walk start met pile → functions.size + 1 ≤ met.length + bound →
    (∀ key ∈ found.keys, key ∈ functions.keys) → ∃ result,
      functions.gather functions.declarations bound pile found = .ok result ∧ ∀ key ∈ result.keys, key ∈ functions.keys
  | bound, met, [], found, _, _, hfound => by
    cases bound <;> exact ⟨found, rfl, hfound⟩
  | 0, met, name :: rest, found, h, hbound, hfound => by
    -- more functions would have been met than there are
    have hlength := (List.subperm_of_subset h.distinct h.known).length_le
    simp only [List.length_append, List.length_cons, Table.keys, List.length_map] at hlength
    unfold Table.size at hbound
    omega
  | bound + 1, met, name :: rest, found, h, hbound, hfound => by
    obtain ⟨⟨_, f⟩, hm, rfl⟩ := List.mem_map.1 (h.known name (by simp))
    have hget := (Table.get?_eq_some hk).2 hm
    rw [Functions.gather, hget]
    refine Walk.gather hk ha bound (h.step hk ha) (by simp only [List.length_append, List.length_singleton]; omega) ?_
    intro key hkey
    obtain ⟨⟨k, g⟩, hg, rfl⟩ := List.mem_map.1 hkey
    rcases Table.mem_of_mem_put hg with ⟨rfl, _⟩ | hg
    · exact h.known _ (by simp)
    · exact hfound _ (List.mem_map_of_mem hg)

/-- The functions below a function can be told. -/
theorem included_ok (hk : functions.keys.Nodup) (ha : functions.Acyclic) {child : String}
    (hc : child ∈ functions.keys) :
    ∃ family, functions.included [child] = .ok family ∧ ∀ key ∈ family.keys, key ∈ functions.keys := by
  have hwalk : functions.Walk child [] [child] :=
    { distinct := by simp
      known := by simpa using hc
      below := by simpa using Relation.ReflTransGen.refl
      parent := by simp }
  refine hwalk.gather hk ha _ ?_ (by simp [Table.keys])
  simp [walkBound]

/-- What a function uses is there. -/
theorem uses_mem {kind : UseKind} {child : String} (h : child ∈ (functions.usage kind).uses start) :
    child ∈ functions.keys := by
  unfold Usage.uses at h
  cases hget : (functions.usage kind).get? start with
  | none =>
    rw [hget] at h
    cases h
  | some names =>
    rw [hget] at h
    obtain ⟨⟨key, f⟩, _, he⟩ := List.mem_filterMap.1 (Table.mem_of_get? hget)
    dsimp only at he
    split at he
    · cases he
      unfold usedBy at h
      split at h
      · cases h
      · split at h
        · cases h
        · have hvisible := (List.mem_filter.1 (List.mem_eraseDups.1 h)).2
          rw [Bool.and_eq_true, isVisible] at hvisible
          obtain ⟨g, hg⟩ : ∃ g, functions.get? child = some g := by
            cases hc : functions.get? child with
            | none => simp [hc] at hvisible
            | some g => exact ⟨g, rfl⟩
          exact List.mem_map_of_mem (Table.mem_of_get? hg)
    · cases he

end Functions

namespace Branches

open Functions

/-- Branches with different functions at their roots, all of them functions that are there. -/
structure Sound (functions : Functions) (branches : Branches) : Prop where
  distinct : branches.keys.Nodup
  roots : ∀ e ∈ branches.entries, e.1 ∈ functions.keys
  members : ∀ e ∈ branches.entries, ∀ key ∈ e.2, key ∈ functions.keys

variable {functions : Functions} {branches : Branches} {root : String}

theorem Sound.bySize (h : Sound functions branches) : Sound functions branches.bySize := by
  have hperm : (Branches.bySize branches).entries.Perm branches.entries := List.mergeSort_perm _ _
  constructor
  · exact (hperm.map _).nodup_iff.2 h.distinct
  · exact fun e he => h.roots e (hperm.mem_iff.1 he)
  · exact fun e he => h.members e (hperm.mem_iff.1 he)

/-- Branches that are in order stay so. -/
theorem bySize_of_pairwise {entries : List (String × List String)}
    (h : entries.Pairwise fun a b => a.2.length ≤ b.2.length) : Branches.bySize ⟨entries⟩ = ⟨entries⟩ := by
  rw [Branches.bySize, List.mergeSort_of_pairwise (h.imp fun hab => decide_eq_true hab)]

theorem Sound.put (h : Sound functions branches) {child : String} {branch : List String} (hc : child ∈ functions.keys)
    (hb : ∀ key ∈ branch, key ∈ functions.keys) : Sound functions (Table.put branches child branch) where
  distinct := Table.nodup_keys_put h.distinct _ _
  roots := by
    rintro ⟨k, b⟩ he
    rcases Table.mem_of_mem_put he with ⟨rfl, _⟩ | he
    · exact hc
    · exact h.roots _ he
  members := by
    rintro ⟨k, b⟩ he
    rcases Table.mem_of_mem_put he with ⟨_, rfl⟩ | he
    · exact hb
    · exact h.members _ he

/-- The branches that a function uses. -/
theorem ofUsage_sound {kind : UseKind} (hr : functions.contains root = true) (limit : Option Int) :
    ∃ branches, ofUsage functions (functions.usage kind) limit root = some branches ∧ Sound functions branches := by
  have hall : ∀ (children : List String) {branches : Branches}, Sound functions branches →
      (∀ child ∈ children, child ∈ functions.keys) → Sound functions (Table.putAll branches (children.map fun child =>
        (child, ((functions.usage kind).reach (· == root) limit child 1).filter functions.contains))) := by
    intro children
    induction children with
    | nil => exact fun h _ => h
    | cons child children ih =>
      intro branches h hc
      refine ih (h.put (hc child (by simp)) fun key hk => ?_) fun c hm => hc c (List.mem_cons_of_mem _ hm)
      obtain ⟨f, hf⟩ := Table.contains_eq_true.1 (List.mem_filter.1 hk).2
      exact List.mem_map_of_mem hf
  have hempty : Sound functions {} := ⟨List.nodup_nil, by simp, by simp⟩
  have hsound := hall (((functions.usage kind).uses root).mergeSort (· ≤ ·)) hempty fun child hc =>
    uses_mem (List.mem_mergeSort.1 hc)
  refine ⟨_, ?_, hsound.bySize⟩
  rw [ofUsage, if_neg (by simp [hr])]
  rfl

/-- The branches that functions declare. -/
theorem families_ok (hk : functions.keys.Nodup) (ha : functions.Acyclic) : ∀ {children : List String},
    (∀ child ∈ children, child ∈ functions.keys) → ∃ branches, families functions children = .ok branches ∧
      branches.map (·.1) = children ∧ ∀ e ∈ branches, ∀ key ∈ e.2, key ∈ functions.keys
  | [], _ => ⟨[], rfl, rfl, by simp⟩
  | child :: children, hc => by
    obtain ⟨family, hfamily, hmembers⟩ := included_ok hk ha (hc child (by simp))
    obtain ⟨branches, hbranches, hroots, hrest⟩ := families_ok hk ha fun c hm => hc c (List.mem_cons_of_mem _ hm)
    refine ⟨(child, family.keys) :: branches, ?_, by simp [hroots], List.forall_mem_cons.2 ⟨hmembers, hrest⟩⟩
    rw [families, hfamily]
    simp only [bind, Except.bind, hbranches]
    rfl

theorem yields_ofDeclarations (hk : functions.keys.Nodup) (ha : functions.Acyclic) (hr : functions.contains root = true)
    (s : Workspace) : Yields (ofDeclarations functions root) s fun found t =>
      t.files = s.files ∧ ∃ branches, found = some branches ∧ Sound functions branches := by
  obtain ⟨f, hf⟩ := Table.contains_eq_true.1 hr
  have hdeclared : ∀ child ∈ functions.declaredBy root, child ∈ functions.keys := fun child hc =>
    (declares_of_mem hc).mem_keys
  obtain ⟨entries, hentries, hroots, hmembers⟩ := families_ok hk ha hdeclared
  have hsound : Sound functions ⟨entries⟩ :=
    { distinct := by
        rw [Table.keys, hroots]
        exact nodup_declaredBy hk root
      roots := fun e he => hdeclared e.1 (hroots ▸ List.mem_map_of_mem he)
      members := hmembers }
  rw [ofDeclarations, (Table.get?_eq_some hk).2 hf]
  simp only [yields_bind, yields_say, hentries]
  cases f.declarer with
  | none => simpa using ⟨rfl, hsound.bySize⟩
  | some declarer => simpa using ⟨rfl, hsound.bySize⟩

end Branches

end Bytelift
