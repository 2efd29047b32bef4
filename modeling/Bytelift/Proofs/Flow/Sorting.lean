import Bytelift.Proofs.Flow.Numbering
import Bytelift.Proofs.Rounding
import Mathlib.Data.List.Flatten

/-! The order in which jumps are handled: that of their starts, and then of their stops, both rounded. Where
two jumps cannot be told apart so, the one that was listed first stays first. -/

namespace Bytelift

open Run

/-- Of two values of a list the first comes before the second, if the second may not come before it. -/
theorem pair_sublist_of_pairwise {α : Type} {r : α → α → Prop} {xs : List α} (h : xs.Pairwise r) {a b : α}
    (ha : a ∈ xs) (hb : b ∈ xs) (hne : a ≠ b) (hr : ¬r b a) : [a, b].Sublist xs := by
  obtain ⟨before, after, rfl⟩ := List.append_of_mem ha
  have hafter : b ∈ after := by
    rcases List.mem_append.1 hb with hm | hm
    · exact absurd ((List.pairwise_append.1 h).2.2 b hm a (by simp)) hr
    · exact (List.mem_cons.1 hm).resolve_left (Ne.symm hne)
  exact ((List.singleton_sublist.2 hafter).cons_cons a).trans (List.sublist_append_right before _)

theorem pair_sublist_cons {α : Type} {xs : List α} {a b x : α} :
    [a, b].Sublist (x :: xs) ↔ [a, b].Sublist xs ∨ a = x ∧ b ∈ xs := by
  rw [List.sublist_cons_iff]
  refine or_congr_right ?_
  constructor
  · rintro ⟨rest, he, hsub⟩
    cases he
    exact ⟨rfl, List.singleton_sublist.1 hsub⟩
  · rintro ⟨rfl, hm⟩
    exact ⟨[b], rfl, List.singleton_sublist.2 hm⟩

/-- In a list without repetitions, no two values come before each other. -/
theorem not_pair_sublist {α : Type} {xs : List α} (h : xs.Nodup) {a b : α} (hab : [a, b].Sublist xs) :
    ¬[b, a].Sublist xs := by
  intro hba
  induction xs with
  | nil => cases hab
  | cons x xs ih =>
    rw [List.nodup_cons] at h
    rcases pair_sublist_cons.1 hab with hin | ⟨rfl, hb⟩ <;> rcases pair_sublist_cons.1 hba with hin' | ⟨rfl, ha⟩
    · exact ih h.2 hin hin'
    · exact h.1 (hin.subset (by simp))
    · exact h.1 (hin'.subset (by simp))
    · exact h.1 ha

/-- What comes before a value is what stands before it. -/
theorem pair_sublist_iff {α : Type} {before after : List α} {a b : α} (h : (before ++ b :: after).Nodup) :
    [a, b].Sublist (before ++ b :: after) ↔ a ∈ before := by
  constructor
  · intro hab
    have ha : a ∈ before ++ b :: after := hab.subset (by simp)
    rcases List.mem_append.1 ha with hin | hin
    · exact hin
    rcases List.mem_cons.1 hin with rfl | hin
    · exact absurd (h.sublist hab) (by simp)
    · have hba : [b, a].Sublist (before ++ b :: after) :=
        ((List.singleton_sublist.2 hin).cons_cons b).trans (List.sublist_append_right before _)
      exact absurd hba (not_pair_sublist h hab)
  · intro ha
    exact (List.singleton_sublist.2 ha).append (List.singleton_sublist.2 (by simp))

namespace JumpTables

/-- The jumps are numbered in the order they are listed in. -/
theorem all_numberFrom (t : JumpTables Jump) : (t.numberFrom 0).all = List.range t.all.length := by
  have hvalues : ∀ (table : Table Offset Jump) (n : Nat),
      (⟨table.keys.zipIdx n⟩ : Table Offset Nat).values = List.range' n table.size := by
    intro table n
    rw [Table.values, List.zipIdx_map_snd, Table.keys, List.length_map]
    rfl
  have hlength : ∀ table : Table Offset Jump, table.values.length = table.size :=
    fun table => List.length_map _
  simp only [numberFrom, toList, all, JumpKind.filed, get?, set, List.filterMap_cons, List.filterMap_nil,
    Option.map_some, List.foldl_cons, List.foldl_nil, List.flatMap_cons, List.flatMap_nil, hvalues]
  simp only [List.range_eq_range', List.append_nil, ← List.append_assoc, Nat.add_assoc 0,
    List.range'_append_1, List.length_append, hlength]

end JumpTables

def Offset.key (o : Offset) : Int := (Binary64.nearestWhole? o.value).getD 0

namespace Jump

def rank (j : Jump) : Int × Int := (j.start.key, j.stop.key)

def Ranked (a b : Jump) : Prop := a.rank.1 < b.rank.1 ∨ a.rank.1 = b.rank.1 ∧ a.rank.2 ≤ b.rank.2

/-- One jump is listed before another: loops before tests before skips, and a test before those further on. -/
def FiledBefore (a b : Jump) : Prop :=
  a.kind = .loop ∧ (b.kind = .test ∨ b.kind = .skip) ∨
    a.kind = .test ∧ (b.kind = .skip ∨ b.kind = .test ∧ a.start.value < b.start.value)

end Jump

namespace Flow

variable {flow : Flow}

theorem values_sublist_all (flow : Flow) {k : JumpKind} (hk : k ∈ JumpKind.filed) :
    (flow.table k).values.Sublist flow.tables.all := by
  rw [JumpTables.all, JumpTables.toList_eq, List.flatMap_map]
  change (flow.table k).values.Sublist (JumpKind.filed.flatMap fun k => (flow.table k).values)
  simpa using (List.singleton_sublist.2 hk).flatMap fun k => (flow.table k).values

/-- Jumps are listed kind after kind, and tests in the order of their lines. -/
theorem pair_sublist_all (h : flow.Filing) (ht : flow.TestsInOrder) {a b : Nat} (ha : flow.Open a) (hb : flow.Open b)
    (hf : (flow.jump a).FiledBefore (flow.jump b)) : [a, b].Sublist flow.tables.all := by
  have hall : flow.tables.all = JumpKind.filed.flatMap fun k => (flow.table k).values := by
    rw [JumpTables.all, JumpTables.toList_eq, List.flatMap_map]
    rfl
  have hmem : ∀ {i k}, flow.Open i → (flow.jump i).kind = k → k ≠ .handler → [i].Sublist (flow.table k).values :=
    fun hi hk hne => List.singleton_sublist.2 ((h.mem_values hne).2 ⟨hi, hk⟩)
  have hkinds : ∀ {k l}, [k, l].Sublist JumpKind.filed → [a].Sublist (flow.table k).values →
      [b].Sublist (flow.table l).values → [a, b].Sublist flow.tables.all := by
    intro k l hkl hak hbl
    rw [hall]
    refine List.Sublist.trans ?_ (hkl.flatMap _)
    simpa using hak.append hbl
  rcases hf with ⟨hak, hbk | hbk⟩ | ⟨hak, hbk | ⟨hbk, hlt⟩⟩
  · exact hkinds (by decide) (hmem ha hak (by simp)) (hmem hb hbk (by simp))
  · exact hkinds (by decide) (hmem ha hak (by simp)) (hmem hb hbk (by simp))
  · exact hkinds (by decide) (hmem ha hak (by simp)) (hmem hb hbk (by simp))
  · -- within the table the starts tell the order
    have hentry : ∀ {i}, flow.Open i → (flow.jump i).kind = .test →
        ((flow.jump i).start, i) ∈ (flow.table .test).entries := fun hi hk =>
      (h.filed .test _ _ (by simp)).2 ⟨hi, hk, rfl⟩
    have hgrows : (flow.table .test).entries.Pairwise fun x y => x.1.value < y.1.value := by
      unfold TestsInOrder Table.keys at ht
      rwa [List.pairwise_map] at ht
    have hpair := pair_sublist_of_pairwise hgrows (hentry ha hak) (hentry hb hbk)
      (fun he => absurd (congrArg (fun e => e.1.value) he) (Int.ne_of_lt hlt)) (Int.not_lt.2 (Int.le_of_lt hlt))
    have hvalues : [a, b].Sublist (flow.table .test).values := hpair.map Prod.snd
    exact hvalues.trans (flow.values_sublist_all (by decide))

end Flow

namespace FlowM

open Flow

variable {flow : Flow}

def noLater (x y : (Int × Int) × Nat) : Bool := x.1.1 < y.1.1 || (x.1.1 = y.1.1 && x.1.2 ≤ y.1.2)

theorem noLater_trans (x y z : (Int × Int) × Nat) : noLater x y = true → noLater y z = true →
    noLater x z = true := by
  simp only [noLater, Bool.or_eq_true, Bool.and_eq_true, decide_eq_true_eq]
  omega

theorem noLater_total (x y : (Int × Int) × Nat) : (noLater x y || noLater y x) = true := by
  simp only [noLater, Bool.or_eq_true, Bool.and_eq_true, decide_eq_true_eq]
  omega

theorem noLater_iff {a b : Jump} (i j : Nat) : noLater (a.rank, i) (b.rank, j) = true ↔ a.Ranked b := by
  simp [noLater, Jump.Ranked]

/-- Offsets are sorted in their order, as far as they are told apart. -/
theorem key_le {a b : Offset} (ha : Sortable a) (hb : Sortable b) (h : a.value ≤ b.value) : a.key ≤ b.key := by
  obtain ⟨x, hx⟩ := Option.isSome_iff_exists.1 ha.2
  obtain ⟨y, hy⟩ := Option.isSome_iff_exists.1 hb.2
  rw [Offset.key, Offset.key, hx, hy]
  exact Binary64.nearestWhole?_mono h hx hy

/-- A jump that starts and stops no later than another is sorted no later. -/
theorem ranked_of_le {offsets : List Offset} (hs : ∀ o ∈ offsets, Sortable o) {a b : Jump}
    (ha : a.start ∈ offsets ∧ a.stop ∈ offsets) (hb : b.start ∈ offsets ∧ b.stop ∈ offsets)
    (hstart : a.start.value ≤ b.start.value) (hstop : a.stop.value ≤ b.stop.value) : a.Ranked b := by
  have hfirst := key_le (hs _ ha.1) (hs _ hb.1) hstart
  have hsecond := key_le (hs _ ha.2) (hs _ hb.2) hstop
  rcases Int.lt_or_eq_of_le hfirst with hlt | he
  · exact Or.inl hlt
  · exact Or.inr ⟨he, hsecond⟩

theorem sortKey_eq {j : Jump} (hs : Sortable j.start) (he : Sortable j.stop) : sortKey j = .ok j.rank := by
  have hneed : ∀ o, Sortable o → sortKey.need o = .ok o.key := by
    intro o ho
    obtain ⟨key, hkey⟩ := Option.isSome_iff_exists.1 ho.2
    rw [Offset.key, hkey, Offset.eq_number ho.1]
    simp [sortKey.need, hkey]
  simp [sortKey, hneed _ hs, hneed _ he, bind, Except.bind, pure, Except.pure, Jump.rank]

theorem sortKeys_eq {is : List Nat}
    (h : ∀ i ∈ is, Sortable (flow.jump i).start ∧ Sortable (flow.jump i).stop) :
    sortKeys flow is = .ok (is.map fun i => ((flow.jump i).rank, i)) := by
  induction is with
  | nil => rfl
  | cons i is ih =>
    obtain ⟨hs, he⟩ := h i (by simp)
    have hrest := ih fun j hj => h j (List.mem_cons_of_mem i hj)
    simp [sortKeys, sortKey_eq hs he, hrest, bind, Except.bind, pure, Except.pure]

theorem sortKey_of_sortKeys {is : List Nat} {keyed : List ((Int × Int) × Nat)} (h : sortKeys flow is = .ok keyed)
    {i : Nat} (hi : i ∈ is) : ∃ key, sortKey (flow.jump i) = .ok key := by
  induction is generalizing keyed with
  | nil => cases hi
  | cons k is ih =>
    obtain ⟨key, hkey, h⟩ := except_bind_eq_ok.1 h
    obtain ⟨_, hrest, _⟩ := except_bind_eq_ok.1 h
    rcases List.mem_cons.1 hi with rfl | hi
    · exact ⟨key, hkey⟩
    · exact ih hrest hi

/-- Jumps are gathered in their order: one comes before another if it is sorted before it, or no later and
was listed before it. -/
theorem yields_gather_sorted (hf : flow.Fresh) (hl : Listed flow)
    (hdraw : ∀ i, i < flow.jumps.length → flow.Drawable i)
    (hsort : ∀ result, Drawing flow [] result → ∀ i, i < flow.jumps.length →
      Sortable (result.jump i).start ∧ Sortable (result.jump i).stop) :
    Yields gather flow fun order result => Drawing flow [] result ∧ order.Perm flow.tables.all ∧
      ∀ a ∈ flow.tables.all, ∀ b ∈ flow.tables.all, (result.jump a).Ranked (result.jump b) →
        ([a, b].Sublist flow.tables.all ∨ ¬(result.jump b).Ranked (result.jump a)) →
        [a, b].Sublist order := by
  simp only [gather, yields_bind, yields_get, yields_ofExcept, yields_pure]
  refine (yields_drawBack hf _ (hl.drawing hf) hl.nodup (fun i hi => (hl.mem i).1 hi) ?_).1
    fun i hi => hdraw i ((hl.mem i).1 hi)
  intro result hd
  refine ⟨_, sortKeys_eq fun i hi => hsort result hd i ((hl.mem i).1 hi), hd, ?_, ?_⟩
  · refine (sorted_perm _).trans ?_
    rw [List.map_map]
    exact .of_eq (List.map_id _)
  · intro a ha b hb hab hor
    have hpair : ([a, b].map fun i => ((result.jump i).rank, i)).Sublist
        ((flow.tables.all.map fun i => ((result.jump i).rank, i)).mergeSort noLater) := by
      rcases hor with hlisted | hnot
      · exact List.pair_sublist_mergeSort noLater_trans noLater_total ((noLater_iff a b).2 hab)
          (hlisted.map fun i => ((result.jump i).rank, i))
      · have hmem : ∀ i ∈ flow.tables.all, ((result.jump i).rank, i) ∈
            (flow.tables.all.map fun i => ((result.jump i).rank, i)).mergeSort noLater :=
          fun i hi => List.mem_mergeSort.2 (List.mem_map_of_mem hi)
        refine pair_sublist_of_pairwise (List.pairwise_mergeSort noLater_trans noLater_total _)
          (hmem a ha) (hmem b hb) ?_ fun hr => hnot ((noLater_iff b a).1 hr)
        intro he
        obtain rfl := (Prod.mk.inj he).2
        exact hnot hab
    have hsub := hpair.map (·.2)
    rw [List.map_map] at hsub
    exact hsub

end FlowM

end Bytelift
