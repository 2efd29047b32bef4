import Bytelift.Tree
import Bytelift.Proofs.Table
import Mathlib.Data.List.Nodup

/-! What a walk along the uses of functions comes to. Each function is visited once, at the depth at which it is met
first; that need not be its least depth, and then what it uses may lie past the limit. Where all ways to a function
are of one length nothing is missed, whatever the order of the uses. -/

namespace Bytelift.Functions.Usage

/-- A way from a function along uses that enters no barred one; the last function comes first. -/
def Path (usage : Usage) (barred : String → Bool) (start : String) : List String → Prop
  | [] => False
  | [name] => name = start ∧ barred name = false
  | next :: name :: before => next ∈ usage.uses name ∧ barred next = false ∧ Path usage barred start (name :: before)

instance decidablePath (usage : Usage) (barred : String → Bool) (start : String) :
    (path : List String) → Decidable (usage.Path barred start path)
  | [] => .isFalse id
  | [name] => inferInstanceAs (Decidable (name = start ∧ barred name = false))
  | next :: name :: before =>
    have := decidablePath usage barred start (name :: before)
    inferInstanceAs (Decidable (next ∈ usage.uses name ∧ barred next = false ∧ _))

/-- A way of some length stays within the limit. -/
def Fits (limit : Option Int) (depth : Int) (length : Nat) : Prop := ∀ most ∈ limit, depth + length ≤ most

def Leads (usage : Usage) (barred : String → Bool) (limit : Option Int) (start : String) (depth : Int)
    (name : String) : Prop :=
  ∃ before, usage.Path barred start (name :: before) ∧ Fits limit depth before.length

/-- Where there is a limit, no function is met within it on two ways of different lengths, circles apart. -/
def Level (usage : Usage) (barred : String → Bool) (limit : Option Int) (start : String) (depth : Int) : Prop :=
  limit.isSome → ∀ name before other, usage.Path barred start (name :: before) → usage.Path barred start
  (name :: other) →
    (name :: before).Nodup → (name :: other).Nodup → Fits limit depth before.length → Fits limit depth other.length →
    before.length = other.length

variable {usage : Usage} {barred : String → Bool} {limit : Option Int} {start : String} {depth : Int}

theorem Fits.mono {m n : Nat} (h : Fits limit depth n) (hm : m ≤ n) : Fits limit depth m := by
  intro most hmost
  have := h most hmost
  omega

/-- What a way has come to, a part of it has come to. -/
theorem Path.of_append {name : String} {after before : List String}
    (h : usage.Path barred start (after ++ name :: before)) : usage.Path barred start (name :: before) := by
  induction after with
  | nil => exact h
  | cons next after ih =>
    refine ih ?_
    cases hrest : after ++ name :: before with
    | nil => simp at hrest
    | cons prev rest =>
      rw [List.cons_append, hrest] at h
      exact h.2.2

/-- Circles can be left out of a way. -/
theorem Path.exists_nodup {name : String} {before : List String} (h : usage.Path barred start (name :: before)) :
    ∃ other, usage.Path barred start (name :: other) ∧ (name :: other).Nodup ∧ other.length ≤ before.length := by
  induction before generalizing name with
  | nil => exact ⟨[], h, List.nodup_singleton name, Nat.le_refl _⟩
  | cons prev before ih =>
    obtain ⟨other, hpath, hnodup, hlength⟩ := ih h.2.2
    by_cases hm : name ∈ prev :: other
    · obtain ⟨after, rest, he⟩ := List.append_of_mem hm
      rw [he] at hpath hnodup
      have hle := congrArg List.length he
      simp only [List.length_cons, List.length_append] at hle ⊢
      exact ⟨rest, hpath.of_append, (List.nodup_append.1 hnodup).2.1, by omega⟩
    · exact ⟨prev :: other, ⟨h.1, h.2.1, hpath⟩, List.nodup_cons.2 ⟨hm, hnodup⟩, by simpa using hlength⟩

/-- The uses of all functions are those of the functions in the table. -/
theorem forall_uses {p : String → String → Prop} (h : ∀ e ∈ usage.entries, ∀ next ∈ e.2, p e.1 next)
    (name next : String) (hm : next ∈ usage.uses name) : p name next := by
  rw [uses] at hm
  cases hu : usage.get? name with
  | none => simp [hu] at hm
  | some used =>
    rw [hu] at hm
    exact h _ (Table.mem_of_get? hu) next hm

/-- Ways are of one length if the functions lie in layers, each using functions of the next layer or the root. -/
theorem level_of_layers (layer : String → Nat) (h0 : layer start = 0)
    (h : ∀ name, ∀ next ∈ usage.uses name, next = start ∨ layer next = layer name + 1) :
    usage.Level barred limit start depth := by
  have hlayer : ∀ {before : List String} {name : String}, usage.Path barred start (name :: before) →
      (name :: before).Nodup → layer name = before.length ∧ start ∈ name :: before := by
    intro before
    induction before with
    | nil =>
      intro name hp _
      rw [hp.1]
      exact ⟨h0, List.mem_singleton_self _⟩
    | cons prev before ih =>
      intro name hp hn
      obtain ⟨hfresh, hn⟩ := List.nodup_cons.1 hn
      obtain ⟨hlength, hstart⟩ := ih hp.2.2 hn
      rcases h prev name hp.1 with rfl | hnext
      · exact absurd hstart hfresh
      · rw [hnext, hlength]
        exact ⟨rfl, List.mem_cons_of_mem _ hstart⟩
  intro _ name before other hb ho hnb hno _ _
  rw [← (hlayer hb hnb).1, (hlayer ho hno).1]

/-! ## The walk -/

/-- A function waits to be visited at the end of a way through visited ones. -/
def Waits (usage : Usage) (barred : String → Bool) (start : String) (depth : Int) (visited : List String)
    (name : String) (d : Int) : Prop :=
  ∃ before : List String, d = depth + before.length ∧ before.Nodup ∧ (∀ b ∈ before, b ∈ visited) ∧
    (barred name = false → usage.Path barred start (name :: before))

/-- A walk on the way. Every visited function was come to on a way through visited ones, and if its uses lie within
the limit they are visited or wait. -/
structure Walk (usage : Usage) (barred : String → Bool) (limit : Option Int) (start : String) (depth : Int)
    (pile : List (String × Int)) (visited : List String) : Prop where
  distinct : visited.Nodup
  waits : ∀ name d, (name, d) ∈ pile → usage.Waits barred start depth visited name d
  first : start ∈ visited ∨ (start, depth) ∈ pile
  met : ∀ name ∈ visited, ∃ before, usage.Path barred start (name :: before) ∧ (name :: before).Nodup ∧
    Fits limit depth before.length ∧ (Fits limit depth (before.length + 1) → ∀ next ∈ usage.uses name,
      barred next = false → next ∈ visited ∨ (next, depth + (before.length + 1 : Nat)) ∈ pile)

theorem walk_start (hs : barred start = false) : Walk usage barred limit start depth [(start, depth)] [] where
  distinct := .nil
  waits := by
    intro name d hm
    cases List.mem_singleton.1 hm
    exact ⟨[], by simp, .nil, by simp, fun _ => ⟨rfl, hs⟩⟩
  first := Or.inr (List.mem_singleton_self _)
  met := by simp

variable {name : String} {d : Int} {pile : List (String × Int)} {visited : List String}

/-- A function that is barred, visited or too deep is passed over. -/
theorem Walk.skip (h : Walk usage barred limit start depth ((name, d) :: pile) visited) (hs : barred start = false)
    (hd : Fits limit depth 0) (hskip : barred name = true ∨ name ∈ visited ∨ ∃ most ∈ limit, most < d) :
    Walk usage barred limit start depth pile visited where
  distinct := h.distinct
  waits other d hm := h.waits other d (List.mem_cons_of_mem _ hm)
  first := by
    refine h.first.elim Or.inl fun hm => ?_
    rcases List.mem_cons.1 hm with he | hm
    · cases he
      rcases hskip with hbarred | hvisited | ⟨most, hmost, hlt⟩
      · rw [hs] at hbarred
        cases hbarred
      · exact Or.inl hvisited
      · have := hd most hmost
        omega
    · exact Or.inr hm
  met other ho := by
    obtain ⟨before, hpath, hnodup, hfits, huses⟩ := h.met other ho
    refine ⟨before, hpath, hnodup, hfits, fun hnext next hm hb => (huses hnext next hm hb).elim Or.inl fun hp => ?_⟩
    rcases List.mem_cons.1 hp with he | hp
    · cases he
      rcases hskip with hbarred | hvisited | ⟨most, hmost, hlt⟩
      · rw [hb] at hbarred
        cases hbarred
      · exact Or.inl hvisited
      · have := hnext most hmost
        omega
    · exact Or.inr hp

/-- A function is visited, and its uses wait unless they are too deep. -/
theorem Walk.visit (h : Walk usage barred limit start depth ((name, d) :: pile) visited) (hb : barred name = false)
    (hv : name ∉ visited) (hd : ∀ most ∈ limit, d ≤ most) :
    Walk usage barred limit start depth
      ((if limit = some d then [] else (usage.uses name).reverse.map (·, d + 1)) ++ pile) (visited ++ [name]) := by
  obtain ⟨before, rfl, hbefore, hin, hpath⟩ := h.waits name d List.mem_cons_self
  have hpath := hpath hb
  have hfresh : (name :: before).Nodup := List.nodup_cons.2 ⟨fun hm => hv (hin name hm), hbefore⟩
  have hgrown : ∀ {other}, other ∈ visited → other ∈ visited ++ [name] := List.mem_append_left _
  have hself : name ∈ visited ++ [name] := by simp
  -- what waited still waits, the function itself apart
  have hkept : ∀ {other d}, (other, d) ∈ (name, depth + before.length) :: pile → other ∈ visited ++ [name] ∨
      (other, d) ∈ (if limit = some (depth + before.length) then []
        else (usage.uses name).reverse.map (·, depth + before.length + 1)) ++ pile := by
    intro other d hm
    rcases List.mem_cons.1 hm with he | hm
    · cases he
      exact Or.inl hself
    · exact Or.inr (List.mem_append_right _ hm)
  refine ⟨List.nodup_append.2 ⟨h.distinct, List.nodup_singleton name, ?_⟩, ?_, ?_, ?_⟩
  · intro other ho new hnew he
    cases List.mem_singleton.1 hnew
    exact hv (he ▸ ho)
  · intro other d hm
    rcases List.mem_append.1 hm with hm | hm
    · split at hm
      · cases hm
      · obtain ⟨next, hnext, he⟩ := List.mem_map.1 hm
        cases he
        refine ⟨name :: before, by rw [List.length_cons]; omega, hfresh, ?_, fun hb =>
          ⟨List.mem_reverse.1 hnext, hb, hpath⟩⟩
        intro b hmem
        rcases List.mem_cons.1 hmem with rfl | hmem
        · exact hself
        · exact hgrown (hin b hmem)
    · obtain ⟨way, he, hnodup, hway, hp⟩ := h.waits other d (List.mem_cons_of_mem _ hm)
      exact ⟨way, he, hnodup, fun b hmem => hgrown (hway b hmem), hp⟩
  · exact h.first.elim (fun hm => Or.inl (hgrown hm)) hkept
  · intro other ho
    rcases List.mem_append.1 ho with ho | ho
    · obtain ⟨way, hway, hnodup, hfits, huses⟩ := h.met other ho
      refine ⟨way, hway, hnodup, hfits, fun hnext next hm hn => ?_⟩
      exact (huses hnext next hm hn).elim (fun hmem => Or.inl (hgrown hmem)) hkept
    · cases List.mem_singleton.1 ho
      refine ⟨before, hpath, hfresh, hd, fun hnext next hm _ => Or.inr (List.mem_append_left _ ?_)⟩
      have hbelow : limit ≠ some (depth + before.length) := by
        intro he
        have := hnext _ he
        omega
      rw [if_neg hbelow]
      exact List.mem_map.2 ⟨next, List.mem_reverse.2 hm, by rw [Int.natCast_add, Int.add_assoc]; rfl⟩

/-! ## The bound -/

def unseen (visited : List String) (entries : List (String × List String)) : Nat :=
  ((entries.filter fun e => !visited.contains e.1).flatMap (·.2)).length

theorem unseen_visit (hv : name ∉ visited) (entries : List (String × List String)) :
    unseen (visited ++ [name]) entries + ((Table.findEntry name entries).getD []).length ≤ unseen visited entries := by
  induction entries with
  | nil => simp [unseen, Table.findEntry]
  | cons e entries ih =>
    have hless : unseen (visited ++ [name]) entries ≤ unseen visited entries := Nat.le_trans (Nat.le_add_right _ _) ih
    unfold unseen at ih hless ⊢
    by_cases he : e.1 = name
    · have hseen : visited.contains e.1 = false := by simpa [he] using hv
      simp only [Table.findEntry, if_pos he, List.filter_cons, hseen, Bool.not_false, if_true, List.flatMap_cons,
        List.length_append, Option.getD_some]
      simp [he] at hless ⊢
      omega
    · rw [Table.findEntry, if_neg he]
      by_cases hseen : e.1 ∈ visited
      · simpa [hseen] using ih
      · simp [hseen, he] at ih ⊢
        omega

/-- The walk ends with nothing left to visit. -/
theorem Walk.exists_end (hs : barred start = false) (hd : Fits limit depth 0) :
    ∀ {bound : Nat} {pile : List (String × Int)} {visited : List String},
      Walk usage barred limit start depth pile visited → pile.length + unseen visited usage.entries ≤ bound →
      Walk usage barred limit start depth [] (usage.visit barred limit bound pile visited)
  | bound, [], visited, h, _ => by
    cases bound <;> exact h
  | 0, _ :: _, _, _, hb => by simp at hb
  | bound + 1, (name, d) :: rest, visited, h, hb => by
    rw [List.length_cons] at hb
    rw [Usage.visit]
    split
    · next hskip =>
      simp only [Bool.or_eq_true, List.contains_iff_mem, Option.any_eq_true, decide_eq_true_eq, or_assoc] at hskip
      exact (h.skip hs hd hskip).exists_end hs hd (by omega)
    · next hvisit =>
      simp only [Bool.or_eq_true, List.contains_iff_mem, Option.any_eq_true, decide_eq_true_eq, not_or] at hvisit
      obtain ⟨⟨hbarred, hnew⟩, hdepth⟩ := hvisit
      have hfits : ∀ most ∈ limit, d ≤ most := fun most hmost => by
        by_contra hlt
        exact hdepth ⟨most, hmost, by omega⟩
      refine (h.visit (by simpa using hbarred) hnew hfits).exists_end hs hd ?_
      have hless := unseen_visit hnew usage.entries
      have huses : (usage.uses name).length = ((Table.findEntry name usage.entries).getD []).length := rfl
      rw [List.length_append]
      split
      · simp only [List.length_nil]
        omega
      · simp only [List.length_map, List.length_reverse]
        omega

/-! ## What is reached -/

theorem walk_reach (hs : barred start = false) (hd : Fits limit depth 0) :
    Walk usage barred limit start depth [] (usage.reach barred limit start depth) := by
  refine (walk_start hs).exists_end hs hd ?_
  simp [unseen, visitBound, Table.values, List.flatMap_def]
  omega

theorem Walk.mem_of_path (h : Walk usage barred limit start depth [] visited)
    (hl : usage.Level barred limit start depth) {before : List String} (hp : usage.Path barred start (name :: before))
    (hn : (name :: before).Nodup) (hf : Fits limit depth before.length) : name ∈ visited := by
  induction before generalizing name with
  | nil =>
    rw [hp.1]
    exact h.first.resolve_right (by simp)
  | cons prev before ih =>
    have hnodup : (prev :: before).Nodup := (List.nodup_cons.1 hn).2
    have hfits : Fits limit depth before.length := hf.mono (by simp)
    obtain ⟨other, hpath, hother, hfitted, huses⟩ := h.met prev (ih hp.2.2 hnodup hfits)
    -- the function before was met on a way of the same length
    have hnext : Fits limit depth (other.length + 1) := by
      intro most hmost
      rw [← hl (Option.isSome_of_mem hmost) prev before other hp.2.2 hpath hnodup hother hfits hfitted]
      exact hf most hmost
    exact (huses hnext name hp.1 hp.2.1).resolve_right (by simp)

theorem leads_of_mem_reach (hs : barred start = false) (hd : Fits limit depth 0)
    (hm : name ∈ usage.reach barred limit start depth) : usage.Leads barred limit start depth name := by
  obtain ⟨before, hp, _, hf, _⟩ := (walk_reach hs hd).met name hm
  exact ⟨before, hp, hf⟩

theorem Leads.mem_reach (h : usage.Leads barred limit start depth name) (hs : barred start = false)
    (hd : Fits limit depth 0) (hl : usage.Level barred limit start depth) :
    name ∈ usage.reach barred limit start depth := by
  obtain ⟨before, hp, hf⟩ := h
  obtain ⟨other, hpath, hnodup, hlength⟩ := hp.exists_nodup
  exact (walk_reach hs hd).mem_of_path hl hpath hnodup (hf.mono hlength)

/-- What a walk reaches, whatever the order of the uses: no function twice, and only functions that a way within the
limit leads to. Without a limit these are all; with a limit they are all if no function is met on ways of different
lengths. The functions near the root of a tree are found in this way, those that are not known being barred. -/
theorem reach_leads (usage : Usage) :
    (∀ barred limit start depth, barred start = false → Fits limit depth 0 →
      (usage.reach barred limit start depth).Nodup ∧
      (∀ name ∈ usage.reach barred limit start depth, usage.Leads barred limit start depth name) ∧
      (limit = none ∨ usage.Level barred limit start depth →
        ∀ name, usage.Leads barred limit start depth name → name ∈ usage.reach barred limit start depth)) ∧
    ∀ (functions : Functions) root depth, functions.contains root = true → 0 ≤ depth →
      let Near := usage.Leads (fun name => !functions.contains name) (some depth) root 0
      (∀ name ∈ Tree.near functions (some usage) root depth, Near name) ∧
      (usage.Level (fun name => !functions.contains name) (some depth) root 0 →
        ∀ name, Near name → name ∈ Tree.near functions (some usage) root depth) := by
  constructor
  · intro barred limit start depth hs hd
    refine ⟨(walk_reach hs hd).distinct, fun name => leads_of_mem_reach hs hd, fun hl name h => h.mem_reach hs hd ?_⟩
    rcases hl with rfl | hl
    · exact nofun
    · exact hl
  · intro functions root depth hroot hdepth
    have hs : (!functions.contains root) = false := by simp [hroot]
    have hd : Fits (some depth) 0 0 := by simpa [Fits] using hdepth
    exact ⟨fun name => leads_of_mem_reach hs hd, fun hl name h => h.mem_reach hs hd hl⟩

/-- With a function used by two others and one that uses the root again. -/
theorem reach_leads_diamond :
    let usage : Usage := ⟨[("a", ["c", "b"]), ("b", ["d"]), ("c", ["d"]), ("d", ["e", "a"])]⟩
    "d" ∈ usage.reach (fun _ => false) (some 3) "a" 1 ∧
    "d" ∈ Tree.near ⟨[("a", default), ("c", default), ("d", default)]⟩ (some usage) "a" 2 := by
  intro usage
  have hlayers : ∀ barred limit depth, usage.Level barred limit "a" depth := fun barred limit depth =>
    level_of_layers (fun name => if name = "a" then 0 else if name = "d" then 2 else if name = "e" then 3 else 1) rfl
      (forall_uses (by decide))
  exact ⟨((reach_leads usage).1 (fun _ => false) (some 3) "a" 1 rfl (by simp [Fits])).2.2 (Or.inr (hlayers _ _ _))
      "d" ⟨["c", "a"], by decide, by simp [Fits]⟩,
    ((reach_leads usage).2 ⟨[("a", default), ("c", default), ("d", default)]⟩ "a" 2 rfl (by decide)).2 (hlayers _ _ _)
      "d" ⟨["c", "a"], by decide, by simp [Fits]⟩⟩

/-- A function met first on the longer of two ways hides what it uses, though the shorter way leads there. -/
theorem not_mem_reach_longer :
    let usage : Usage := ⟨[("a", ["c", "b"]), ("b", ["c"]), ("c", ["d"])]⟩
    usage.Path (fun _ => false) "a" ["d", "c", "a"] ∧ usage.reach (fun _ => false) (some 2) "a" 0 =
    ["a", "b", "c"] := by
  decide

end Bytelift.Functions.Usage
