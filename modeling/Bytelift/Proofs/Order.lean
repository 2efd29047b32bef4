import Bytelift.Flow.Basic

/-! The order of the lines. Instructions stand at numbers that grow from line to line; so the line before
or after another is told by its offset, and no third line lies between the two. -/

namespace Bytelift

namespace Offset

/-- The number that an offset is. -/
def value : Offset → Int
  | .number n => n
  | .text _ => 0

@[simp] theorem value_number (n : Int) : (number n).value = n := rfl

@[simp] theorem isNumber_number (n : Int) : (number n).isNumber = true := rfl

theorem eq_number {a : Offset} (h : a.isNumber) : a = .number a.value := by
  cases a with
  | number n => rfl
  | text s => cases h

theorem eq_of_value {a b : Offset} (ha : a.isNumber) (hb : b.isNumber) (h : a.value = b.value) :
    a = b := by
  rw [eq_number ha, eq_number hb, h]

theorem ne_of_lt {a b : Offset} (h : a.value < b.value) : a ≠ b := by
  rintro rfl
  exact Int.lt_irrefl _ h

theorem lt?_of_number {a b : Offset} (ha : a.isNumber) (hb : b.isNumber) :
    a.lt? b = some (decide (a.value < b.value)) := by
  rw [eq_number ha, eq_number hb]
  rfl

theorem le?_of_number {a b : Offset} (ha : a.isNumber) (hb : b.isNumber) :
    a.le? b = some (decide (a.value ≤ b.value)) := by
  rw [eq_number ha, eq_number hb, le?_number]
  rfl

/-! ## Sorting -/

theorem sortBy?_of_number {α : Type} {key : α → Offset} {xs : List α}
    (hn : ∀ x ∈ xs, (key x).isNumber) : ∃ sorted, sortBy? key xs = some sorted ∧ sorted.Perm xs ∧
      sorted.Pairwise fun a b => (key a).value ≤ (key b).value := by
  have hall : xs.all (fun x => (key x).isNumber) = true := List.all_eq_true.2 hn
  refine ⟨_, if_pos (by simp [hall]), List.mergeSort_perm _ _, ?_⟩
  -- among numbers, the order that is sorted by is that of the values
  have hc := List.map_mergeSort (l := xs) (f := id)
    (r := fun a b => ((key a).le? (key b)).getD true)
    (s := fun a b => decide ((key a).value ≤ (key b).value)) (by
      intro a ha b hb
      rw [le?_of_number (hn a ha) (hn b hb)]
      rfl)
  rw [List.map_id, List.map_id] at hc
  rw [hc]
  have hp : (xs.mergeSort fun a b => decide ((key a).value ≤ (key b).value)).Pairwise
      fun a b => decide ((key a).value ≤ (key b).value) = true :=
    List.pairwise_mergeSort (by intro a b c; simp only [decide_eq_true_eq]; omega)
      (by intro a b; simp only [Bool.or_eq_true, decide_eq_true_eq]; omega) xs
  exact hp.imp fun h => of_decide_eq_true h

/-- What is in order stays as it is. -/
theorem sortBy?_of_pairwise {α : Type} {key : α → Offset} {xs : List α} (hn : ∀ x ∈ xs, (key x).isNumber)
    (hs : xs.Pairwise fun a b => (key a).value ≤ (key b).value) : sortBy? key xs = some xs := by
  rw [sortBy?, if_pos (by simp [List.all_eq_true.2 hn]), List.mergeSort_of_pairwise]
  refine hs.imp_of_mem fun {a b} ha hb hab => ?_
  rw [le?_of_number (hn a ha) (hn b hb), Option.getD_some, decide_eq_true hab]

theorem nodup_eraseDups {α : Type} [DecidableEq α] (xs : List α) : xs.eraseDups.Nodup := by
  induction hl : xs.length using Nat.strongRecOn generalizing xs with
  | ind n ih =>
    cases xs with
    | nil => simp
    | cons x xs =>
      rw [List.eraseDups_cons, List.nodup_cons]
      refine ⟨?_, ih _ ?_ _ rfl⟩
      · simp
      · have := List.length_filter_le (fun y => !y == x) xs
        simp only [List.length_cons] at hl
        omega

theorem eraseDups_of_nodup {α : Type} [DecidableEq α] {xs : List α} (h : xs.Nodup) :
    xs.eraseDups = xs := by
  induction xs with
  | nil => rfl
  | cons x xs ih =>
    rw [List.nodup_cons] at h
    rw [List.eraseDups_cons, List.filter_eq_self.2, ih h.2]
    intro y hy
    have hne : y ≠ x := by
      rintro rfl
      exact h.1 hy
    simp [hne]

/-- Sorted offsets are those that were given, each greater than the one before it. -/
theorem ascending?_of_number {offsets : List Offset} (hn : ∀ o ∈ offsets, o.isNumber) :
    ∃ sorted, ascending? offsets = some sorted ∧ (∀ o, o ∈ sorted ↔ o ∈ offsets) ∧
      sorted.Pairwise fun a b => a.value < b.value := by
  obtain ⟨sorted, he, hp, hs⟩ := @sortBy?_of_number Offset id offsets.eraseDups
    fun o ho => hn o (List.mem_eraseDups.1 ho)
  refine ⟨sorted, he, fun o => by rw [hp.mem_iff, List.mem_eraseDups], ?_⟩
  have hd : sorted.Nodup := hp.nodup_iff.2 (nodup_eraseDups offsets)
  refine (hs.and hd).imp_of_mem ?_
  intro a b ha hb hab
  have hna := hn a (List.mem_eraseDups.1 (hp.mem_iff.1 ha))
  have hnb := hn b (List.mem_eraseDups.1 (hp.mem_iff.1 hb))
  have hne : a.value ≠ b.value := fun hv => hab.2 (eq_of_value hna hnb hv)
  have hle : a.value ≤ b.value := hab.1
  omega

end Offset

/-- The offsets are numbers, each greater than the one before it. -/
structure Ascending (offsets : List Offset) : Prop where
  numbers : ∀ o ∈ offsets, o.isNumber
  grows : offsets.Pairwise fun a b => a.value < b.value

instance (offsets : List Offset) : Decidable (Ascending offsets) :=
  decidable_of_iff ((∀ o ∈ offsets, o.isNumber) ∧ offsets.Pairwise fun a b => a.value < b.value)
    ⟨fun h => ⟨h.1, h.2⟩, fun h => ⟨h.numbers, h.grows⟩⟩

def Adjacent (offsets : List Offset) (a b : Offset) : Prop :=
  ∃ before after, offsets = before ++ a :: b :: after

namespace Adjacent

variable {offsets : List Offset} {a b : Offset}

theorem left (h : Adjacent offsets a b) : a ∈ offsets := by
  obtain ⟨before, after, rfl⟩ := h
  simp

theorem right (h : Adjacent offsets a b) : b ∈ offsets := by
  obtain ⟨before, after, rfl⟩ := h
  simp

theorem lt (h : Adjacent offsets a b) (ho : Ascending offsets) : a.value < b.value := by
  obtain ⟨before, after, rfl⟩ := h
  have hp := ho.grows
  rw [List.pairwise_append] at hp
  exact List.rel_of_pairwise_cons hp.2.1 (by simp)

/-- Nothing lies between neighbours. -/
theorem le_or_le (h : Adjacent offsets a b) (ho : Ascending offsets) {x : Offset}
    (hx : x ∈ offsets) : x.value ≤ a.value ∨ b.value ≤ x.value := by
  obtain ⟨before, after, rfl⟩ := h
  have hp := ho.grows
  rw [List.pairwise_append] at hp
  obtain ⟨_, hp, hb⟩ := hp
  simp only [List.mem_append, List.mem_cons] at hx
  rcases hx with hx | rfl | rfl | hx
  · left
    exact Int.le_of_lt (hb x hx a (by simp))
  · left
    exact Int.le_refl _
  · right
    exact Int.le_refl _
  · right
    exact Int.le_of_lt (List.rel_of_pairwise_cons (List.pairwise_cons.1 hp).2 hx)

/-- Only one offset stands right before another. -/
theorem left_unique (h : Adjacent offsets a b) (ho : Ascending offsets) {c : Offset}
    (hc : Adjacent offsets c b) : a = c := by
  have hab := h.lt ho
  have hcb := hc.lt ho
  refine Offset.eq_of_value (ho.numbers a h.left) (ho.numbers c hc.left) ?_
  rcases h.le_or_le ho hc.left with hca | hbc <;> rcases hc.le_or_le ho h.left with hac | hba <;> omega

end Adjacent

namespace Ascending

variable {offsets : List Offset}

theorem nodup (h : Ascending offsets) : offsets.Nodup := by
  refine h.grows.imp ?_
  rintro a b hab rfl
  omega

theorem lt_of_split {before after : List Offset} {a b : Offset} (h : Ascending (before ++ a :: after))
    (hb : b ∈ after) : a.value < b.value :=
  List.rel_of_pairwise_cons (List.pairwise_append.1 h.grows).2.1 hb

theorem exists_next (h : Ascending offsets) {a x : Offset} (ha : a ∈ offsets) (hx : x ∈ offsets)
    (hlt : a.value < x.value) : ∃ b, Adjacent offsets a b := by
  obtain ⟨before, after, rfl⟩ := List.append_of_mem ha
  cases after with
  | cons b after => exact ⟨b, before, after, rfl⟩
  | nil =>
    exfalso
    have hp := h.grows
    rw [List.pairwise_append] at hp
    simp only [List.mem_append, List.mem_singleton] at hx
    rcases hx with hx | rfl
    · have := hp.2.2 x hx a (by simp)
      omega
    · omega

theorem exists_previous (h : Ascending offsets) {b x : Offset} (hb : b ∈ offsets) (hx : x ∈ offsets)
    (hlt : x.value < b.value) : ∃ a, Adjacent offsets a b := by
  obtain ⟨before, after, rfl⟩ := List.append_of_mem hb
  rcases List.eq_nil_or_concat before with rfl | ⟨before, a, rfl⟩
  · exfalso
    have hp := h.grows
    simp only [List.nil_append, List.mem_cons] at hp hx
    rcases hx with rfl | hx
    · omega
    · have := List.rel_of_pairwise_cons hp hx
      omega
  · exact ⟨a, before, after, by simp⟩

end Ascending

namespace Flow

/-- Counting lines from an offset on. -/
theorem neighbour_of_append {flow : Flow} {before after : List Offset} {o : Offset}
    (ho : flow.offsets = before ++ o :: after) (hn : o ∉ before) (distance : Int)
    (hk : 0 ≤ before.length + distance) {b : Offset}
    (hb : flow.offsets[(before.length + distance).toNat]? = some b) :
    flow.neighbour o distance = .ok b := by
  have hi : flow.offsets.findIdx? (· = o) = some before.length := by
    rw [ho, List.findIdx?_append]
    have hf : before.findIdx? (fun x => decide (x = o)) = none := by
      simp only [List.findIdx?_eq_none_iff, decide_eq_false_iff_not]
      rintro x hx rfl
      exact hn hx
    rw [hf]
    simp [List.findIdx?_cons]
  simp only [neighbour, hi, hb, if_pos hk]

variable {flow : Flow} {a b : Offset}

theorem neighbour_one (ho : Ascending flow.offsets) (h : Adjacent flow.offsets a b) :
    flow.neighbour a 1 = .ok b := by
  obtain ⟨before, after, he⟩ := h
  have hn := ho.nodup
  rw [he, List.nodup_append] at hn
  refine neighbour_of_append he (fun hm => hn.2.2 a hm a (by simp) rfl) 1 (by omega) ?_
  rw [he, show ((before.length : Int) + 1).toNat = before.length + 1 by omega]
  simp

theorem neighbour_neg_one (ho : Ascending flow.offsets) (h : Adjacent flow.offsets a b) :
    flow.neighbour b (-1) = .ok a := by
  obtain ⟨before, after, he⟩ := h
  have he' : flow.offsets = (before ++ [a]) ++ b :: after := by simp [he]
  have hn := ho.nodup
  rw [he', List.nodup_append] at hn
  have hl : ((before ++ [a]).length : Int) = before.length + 1 := by simp
  refine neighbour_of_append he' (fun hm => hn.2.2 b hm b (by simp) rfl) (-1) (by omega) ?_
  rw [he, show (((before ++ [a]).length : Int) + -1).toNat = before.length by omega]
  simp

/-- A neighbour that is found is a line of the code. -/
theorem mem_of_neighbour {distance : Int} (h : flow.neighbour a distance = .ok b) :
    b ∈ flow.offsets := by
  unfold neighbour at h
  split at h
  · cases h
  · dsimp only at h
    split at h
    · split at h
      · next hg =>
        cases h
        exact List.mem_of_getElem? hg
      · cases h
    · cases h

theorem mem_of_neighbour_left {distance : Int} (h : flow.neighbour a distance = .ok b) :
    a ∈ flow.offsets := by
  unfold neighbour at h
  split at h
  · cases h
  · next i hi =>
    obtain ⟨hlt, ha, _⟩ := List.findIdx?_eq_some_iff_getElem.1 hi
    simp only [decide_eq_true_eq] at ha
    exact ha ▸ List.getElem_mem hlt

theorem adjacent_of_neighbour (ho : Ascending flow.offsets) (h : flow.neighbour b (-1) = .ok a) :
    Adjacent flow.offsets a b := by
  obtain ⟨before, after, he⟩ := List.append_of_mem (mem_of_neighbour_left h)
  rcases List.eq_nil_or_concat before with rfl | ⟨before, c, rfl⟩
  · simp [neighbour, he, List.findIdx?_cons] at h
  · have hc : Adjacent flow.offsets c b := ⟨before, after, by simp [he]⟩
    rw [neighbour_neg_one ho hc] at h
    cases h
    exact hc

end Flow

end Bytelift
