import Bytelift.Proofs.Output.Branches

/-! The families below a function. If declarers form no cycle then functions form a forest, and the families of those
that one function declares share out all that stands below it. -/

namespace Bytelift

open Run Relation

namespace Functions

variable {functions : Functions} {root key a b : String}

theorem mem_declaredBy : key ∈ functions.declaredBy root ↔ functions.Declares root key :=
  ⟨declares_of_mem, fun ⟨f, hm, hf⟩ => List.mem_filterMap.2 ⟨(key, f), hm, by simp [hf]⟩⟩

/-- What a walk finds is what stands below the functions on the pile. -/
theorem keys_gather (hne : "" ∉ functions.keys) : ∀ (bound : Nat) {pile : List String} {found result : Functions},
    functions.gather functions.declarations bound pile found = .ok result → found.keys.Nodup →
    result.keys.Nodup ∧ ∀ key, key ∈ result.keys ↔
      key ∈ found.keys ∨ ∃ name ∈ pile, ReflTransGen functions.Declares name key
  | bound, [], found, result, hok, hd => by
    cases bound <;> cases hok <;> simpa using hd
  | 0, _ :: _, _, _, hok, _ => by cases hok
  | bound + 1, name :: rest, found, result, hok, hd => by
    rw [gather] at hok
    split at hok
    · cases hok
    · next f hf =>
      have hname : name ≠ "" := ne_of_mem_of_not_mem (List.mem_map_of_mem (Table.mem_of_get? hf)) hne
      obtain ⟨hnodup, hkeys⟩ := keys_gather hne bound hok (Table.nodup_keys_put hd name f)
      refine ⟨hnodup, fun key => (hkeys key).trans ?_⟩
      have hput : key ∈ (found.put name f).keys ↔ key = name ∨ key ∈ found.keys := by
        simp only [Table.keys, List.mem_map, Prod.exists, Table.mem_put hd]
        grind
      have hpile : ∀ n, n ∈ pile functions.declarations name rest ↔ functions.Declares name n ∨ n ∈ rest := by
        intro n
        rw [pile, getD_declarations, if_neg (by simpa using hname), List.mem_append, List.mem_reverse, mem_declaredBy]
      have hhead := @ReflTransGen.cases_head_iff _ functions.Declares name key
      simp only [hput, hpile, List.exists_mem_cons_iff, hhead]
      grind

/-- What a function declares does not lead back to it. -/
theorem Acyclic.not_below (ha : functions.Acyclic) (h : functions.Declares root a) :
    ¬ReflTransGen functions.Declares a root := fun hback => ha root (TransGen.head' h hback)

section Forest

variable (hk : functions.keys.Nodup) (hc : functions.Acyclic) (ha : functions.Declares root a)
  (hb : functions.Declares root b)
include hk hc ha hb

theorem eq_of_below_sibling (h : ReflTransGen functions.Declares a b) : a = b := by
  rcases h.cases_tail with rfl | ⟨declarer, habove, hd⟩
  · rfl
  · obtain rfl := hd.unique hk hb
    exact absurd habove (hc.not_below ha)

/-- No function stands below two that one function declares. -/
theorem eq_of_below_both (hka : ReflTransGen functions.Declares a key) (hkb : ReflTransGen functions.Declares b key) :
    a = b := by
  have hunique : Relator.RightUnique (Function.swap functions.Declares) := fun _ _ _ h h' => h.unique hk h'
  -- of two functions above a third, one stands above the other
  rcases ReflTransGen.total_of_right_unique hunique hka.swap hkb.swap with h | h
  · exact (eq_of_below_sibling hk hc hb ha (reflTransGen_swap.1 h)).symm
  · exact eq_of_below_sibling hk hc ha hb (reflTransGen_swap.1 h)

end Forest

end Functions

namespace Branches

open Functions

variable {functions : Functions} {root : String}

theorem mem_families (hne : "" ∉ functions.keys) : ∀ {children : List String} {branches : List (String × List String)},
    families functions children = .ok branches → ∀ e ∈ branches, e.2.Nodup ∧
      ∀ key, key ∈ e.2 ↔ ReflTransGen functions.Declares e.1 key
  | [], branches, h => by cases h; simp
  | child :: children, branches, h => by
    obtain ⟨family, hfamily, h⟩ := except_bind_eq_ok.1 h
    obtain ⟨rest, hrest, h⟩ := except_bind_eq_ok.1 h
    cases h
    have hkeys := keys_gather hne _ hfamily List.nodup_nil
    exact List.forall_mem_cons.2 ⟨by simpa [Table.keys] using hkeys, mem_families hne hrest⟩

theorem pairwise_bySize (branches : Branches) :
    branches.bySize.entries.Pairwise fun e other => e.2.length ≤ other.2.length :=
  (List.pairwise_mergeSort (by simp; omega) (by simp; omega) branches.entries).imp of_decide_eq_true

/-- The families of all that a function declares are told. -/
theorem exists_ofDeclarations {σ : Type} [HasConsole σ] (hk : functions.keys.Nodup) (hc : functions.Acyclic)
    (hr : root ∈ functions.keys) (s : σ) : ∃ entries t, families functions (functions.declaredBy root) = .ok entries ∧
      entries.map (·.1) = functions.declaredBy root ∧
      ofDeclarations functions root s = .ok (some (Branches.bySize ⟨entries⟩)) t := by
  have hknown : ∀ child ∈ functions.declaredBy root, child ∈ functions.keys := fun _ hm => (declares_of_mem hm).mem_keys
  obtain ⟨entries, hentries, hroots, _⟩ := families_ok hk hc hknown
  have hrun : Yields (ofDeclarations functions root) s fun found _ => found = some (Branches.bySize ⟨entries⟩) := by
    obtain ⟨⟨_, f⟩, hf, rfl⟩ := List.mem_map.1 hr
    rw [ofDeclarations, (Table.get?_eq_some hk).2 hf]
    cases hd : f.declarer <;> simp [hd, hentries]
  obtain ⟨_, t, hok, rfl⟩ := hrun
  exact ⟨entries, t, hentries, hroots, hok⟩

/-- The branches that a function declares share out all that stands below it: there is one for each function that it
declares, with all that stands below that one; no function stands in two of them, or twice in one; and small branches
come first. -/
theorem ofDeclarations_shares {σ : Type} [HasConsole σ] (hk : functions.keys.Nodup) (hne : "" ∉ functions.keys)
    (hc : functions.Acyclic) (hr : root ∈ functions.keys) (s : σ) :
    ∃ branches t, ofDeclarations functions root s = .ok (some branches) t ∧
      branches.keys.Nodup ∧ (∀ child, child ∈ branches.keys ↔ functions.Declares root child) ∧
      (∀ e ∈ branches.entries, e.2.Nodup ∧ root ∉ e.2 ∧
        ∀ key, key ∈ e.2 ↔ ReflTransGen functions.Declares e.1 key) ∧
      branches.entries.Pairwise (fun e other => e.2.Disjoint other.2 ∧ e.2.length ≤ other.2.length) ∧
      ∀ key, (∃ e ∈ branches.entries, key ∈ e.2) ↔ TransGen functions.Declares root key := by
  obtain ⟨entries, t, hentries, hroots, hok⟩ := exists_ofDeclarations hk hc hr s
  have hperm : (Branches.bySize ⟨entries⟩).entries.Perm entries := List.mergeSort_perm _ _
  have hsorted := pairwise_bySize ⟨entries⟩
  generalize Branches.bySize ⟨entries⟩ = branches at *
  have hkeys : branches.keys.Perm (functions.declaredBy root) := hroots ▸ hperm.map _
  have hnodup : branches.keys.Nodup := hkeys.nodup_iff.2 (nodup_declaredBy hk root)
  have hchild : ∀ child, child ∈ branches.keys ↔ functions.Declares root child := fun child =>
    hkeys.mem_iff.trans mem_declaredBy
  have hdeclares : ∀ e ∈ branches.entries, functions.Declares root e.1 := fun e he =>
    (hchild _).1 (List.mem_map_of_mem he)
  have hfamily := fun e he => mem_families hne hentries e (hperm.mem_iff.1 he)
  refine ⟨_, t, hok, hnodup, hchild, fun e he => ⟨(hfamily e he).1, fun hm => ?_, (hfamily e he).2⟩, ?_, fun key => ?_⟩
  · exact hc.not_below (hdeclares e he) (((hfamily e he).2 root).1 hm)
  · refine ((List.pairwise_map.1 hnodup).and hsorted).imp_of_mem fun {e other} he ho h => ⟨fun key hm hm' => ?_, h.2⟩
    exact h.1 (eq_of_below_both hk hc (hdeclares e he) (hdeclares other ho) (((hfamily e he).2 key).1 hm)
      (((hfamily other ho).2 key).1 hm'))
  · rw [TransGen.head'_iff]
    constructor
    · rintro ⟨e, he, hm⟩
      exact ⟨e.1, hdeclares e he, ((hfamily e he).2 key).1 hm⟩
    · rintro ⟨child, hd, hbelow⟩
      obtain ⟨e, he, rfl⟩ := List.mem_map.1 ((hchild child).2 hd)
      exact ⟨e, he, ((hfamily e he).2 key).2 hbelow⟩

/-- The declarer of the root is not there, and one of its two families is deeper than the other. -/
theorem ofDeclarations_shares_unevenFamilies :
    let functions : Functions := ⟨[("d", { name := "d", declarer := some "c" }),
      ("c", { name := "c", declarer := some "a" }), ("b", { name := "b", declarer := some "a" }),
        ("a", { name := "a", declarer := some "gone" })]⟩
    ∃ branches t, ofDeclarations functions "a" ({} : Console) = .ok (some branches) t ∧
      (∃ e ∈ branches.entries, "d" ∈ e.2) ∧ ∀ e ∈ branches.entries, "a" ∉ e.2 := by
  intro functions
  have hacyclic : functions.Acyclic := acyclic_of_rank
    (fun name => if name = "gone" then 0 else if name = "a" then 1 else if name = "d" then 3 else 2) (by decide)
  obtain ⟨branches, t, hok, _, _, hfamily, _, hunion⟩ := @ofDeclarations_shares functions "a" Console _ (by decide)
    (by decide) hacyclic (by decide) {}
  refine ⟨branches, t, hok, (hunion "d").2 ?_, fun e he => (hfamily e he).2.1⟩
  exact .tail (.single ⟨_, .tail _ (.head _), rfl⟩) ⟨_, .head _, rfl⟩

end Branches

end Bytelift
