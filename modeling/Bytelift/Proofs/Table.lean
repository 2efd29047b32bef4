import Bytelift.Table

/-! Tables whose keys are all different, as every table is that starts empty: what is looked up is what is
listed. -/

namespace Bytelift.Table

variable {κ α : Type} [DecidableEq κ]

theorem findEntry_eq_some {k : κ} {a : α} {es : List (κ × α)} (hd : (es.map (·.1)).Nodup) :
    findEntry k es = some a ↔ (k, a) ∈ es := by
  induction es with
  | nil => simp [findEntry]
  | cons e es ih =>
    simp only [List.map_cons, List.nodup_cons, List.mem_map] at hd
    simp only [findEntry, List.mem_cons]
    split
    · next he =>
      subst he
      constructor
      · intro hs
        left
        rw [← Option.some.inj hs]
      · rintro (heq | hm)
        · rw [← heq]
        · exact absurd ⟨_, hm, rfl⟩ hd.1
    · next he =>
      rw [ih hd.2]
      constructor
      · exact Or.inr
      · rintro (heq | hm)
        · exact absurd (by rw [← heq]) he
        · exact hm

theorem get?_eq_some {t : Table κ α} (hd : t.keys.Nodup) {k : κ} {a : α} :
    t.get? k = some a ↔ (k, a) ∈ t.entries := findEntry_eq_some hd

theorem nodup_keys_erase {t : Table κ α} (hd : t.keys.Nodup) (k : κ) : (t.erase k).keys.Nodup :=
  hd.sublist (List.filter_sublist.map _)

theorem length_erase_lt {t : Table κ α} {k : κ} {a : α} (hm : (k, a) ∈ t.entries) :
    (t.erase k).entries.length < t.entries.length := by
  unfold erase
  rw [List.length_filter_lt_length_iff_exists]
  exact ⟨_, hm, by simp⟩

theorem mem_putEntry {k j : κ} {a b : α} {es : List (κ × α)} (hd : (es.map (·.1)).Nodup) :
    (j, b) ∈ putEntry k a es ↔ j = k ∧ b = a ∨ j ≠ k ∧ (j, b) ∈ es := by
  induction es with
  | nil => simp [putEntry]
  | cons e es ih =>
    simp only [List.map_cons, List.nodup_cons, List.mem_map] at hd
    simp only [putEntry]
    split
    · next he =>
      subst he
      simp only [List.mem_cons, Prod.mk.injEq]
      constructor
      · rintro (⟨rfl, rfl⟩ | hm)
        · exact Or.inl ⟨rfl, rfl⟩
        · refine Or.inr ⟨?_, Or.inr hm⟩
          rintro rfl
          exact hd.1 ⟨_, hm, rfl⟩
      · rintro (⟨rfl, rfl⟩ | ⟨hne, heq | hm⟩)
        · exact Or.inl ⟨rfl, rfl⟩
        · exact absurd (by rw [← heq]) hne
        · exact Or.inr hm
    · next he =>
      rw [List.mem_cons, List.mem_cons, ih hd.2]
      constructor
      · rintro (rfl | ⟨rfl, rfl⟩ | ⟨hne, hm⟩)
        · exact Or.inr ⟨he, Or.inl rfl⟩
        · exact Or.inl ⟨rfl, rfl⟩
        · exact Or.inr ⟨hne, Or.inr hm⟩
      · rintro (⟨rfl, rfl⟩ | ⟨hne, rfl | hm⟩)
        · exact Or.inr (Or.inl ⟨rfl, rfl⟩)
        · exact Or.inl rfl
        · exact Or.inr (Or.inr ⟨hne, hm⟩)

theorem mem_of_mem_putEntry {k j : κ} {a b : α} {es : List (κ × α)} (h : (j, b) ∈ putEntry k a es) :
    j = k ∧ b = a ∨ (j, b) ∈ es := by
  induction es with
  | nil => simpa [putEntry] using h
  | cons e es ih =>
    simp only [putEntry] at h
    split at h
    · rcases List.mem_cons.1 h with h | h
      · exact Or.inl (Prod.mk.inj h)
      · exact Or.inr (List.mem_cons_of_mem _ h)
    · rcases List.mem_cons.1 h with h | h
      · exact Or.inr (h ▸ List.mem_cons_self)
      · exact (ih h).imp id (List.mem_cons_of_mem _)

/-- Nothing comes into a table but what is put there. -/
theorem mem_of_mem_put {t : Table κ α} {k j : κ} {a b : α} (h : (j, b) ∈ (t.put k a).entries) :
    j = k ∧ b = a ∨ (j, b) ∈ t.entries := mem_of_mem_putEntry h

theorem mem_of_mem_erase {t : Table κ α} {k j : κ} {b : α} (h : (j, b) ∈ (t.erase k).entries) :
    (j, b) ∈ t.entries := (List.mem_filter.1 h).1

theorem mem_put {t : Table κ α} (hd : t.keys.Nodup) {k j : κ} {a b : α} :
    (j, b) ∈ (t.put k a).entries ↔ j = k ∧ b = a ∨ j ≠ k ∧ (j, b) ∈ t.entries := mem_putEntry hd

theorem nodup_keys_put {t : Table κ α} (hd : t.keys.Nodup) (k : κ) (a : α) : (t.put k a).keys.Nodup := by
  obtain ⟨es⟩ := t
  unfold put keys at *
  induction es with
  | nil => simp [putEntry]
  | cons e es ih =>
    simp only [List.map_cons, List.nodup_cons, List.mem_map] at hd
    simp only [putEntry]
    split
    · next he =>
      subst he
      simpa using hd
    · next he =>
      simp only [List.map_cons, List.nodup_cons, List.mem_map]
      refine ⟨?_, ih hd.2⟩
      rintro ⟨⟨j, b⟩, hm, heq⟩
      rcases (mem_putEntry hd.2).1 hm with ⟨rfl, _⟩ | ⟨_, hm⟩
      · exact he heq.symm
      · exact hd.1 ⟨_, hm, heq⟩

theorem contains_eq_true {t : Table κ α} {k : κ} : t.contains k = true ↔ ∃ a, (k, a) ∈ t.entries := by
  simp only [contains, List.any_eq_true, decide_eq_true_eq]
  constructor
  · rintro ⟨⟨_, a⟩, hm, rfl⟩
    exact ⟨a, hm⟩
  · rintro ⟨a, hm⟩
    exact ⟨_, hm, rfl⟩

theorem mem_of_get? {t : Table κ α} {k : κ} {a : α} (h : t.get? k = some a) : (k, a) ∈ t.entries := by
  obtain ⟨es⟩ := t
  unfold get? at h
  induction es with
  | nil => cases h
  | cons e es ih =>
    simp only [findEntry] at h
    split at h
    · next he =>
      cases h
      exact he ▸ List.mem_cons_self
    · exact List.mem_cons_of_mem _ (ih h)

theorem contains_of_get? {t : Table κ α} {k : κ} {a : α} (h : t.get? k = some a) : t.contains k = true :=
  contains_eq_true.2 ⟨a, mem_of_get? h⟩

theorem contains_eq_isSome (t : Table κ α) (k : κ) : t.contains k = (t.get? k).isSome := by
  cases hg : t.get? k with
  | some a => exact contains_of_get? hg
  | none =>
    obtain ⟨es⟩ := t
    unfold get? at hg
    unfold contains
    induction es with
    | nil => rfl
    | cons e es ih =>
      simp only [findEntry] at hg
      split at hg
      · cases hg
      · next he => simpa [he] using ih hg

/-! ## New keys go to the end -/

theorem putEntry_of_notMem {k : κ} (a : α) {es : List (κ × α)} (h : k ∉ es.map (·.1)) :
    putEntry k a es = es ++ [(k, a)] := by
  induction es with
  | nil => rfl
  | cons e es ih =>
    rw [List.map_cons, List.mem_cons, not_or] at h
    rw [putEntry, if_neg (Ne.symm h.1), ih h.2, List.cons_append]

theorem putAll_of_nodup {t : Table κ α} {entries : List (κ × α)} (h : (t.keys ++ entries.map (·.1)).Nodup) :
    (t.putAll entries).entries = t.entries ++ entries := by
  induction entries generalizing t with
  | nil => simp [putAll]
  | cons e rest ih =>
    have hnew : e.1 ∉ t.entries.map (·.1) := by
      intro hm
      exact (List.nodup_append.1 h).2.2 _ hm _ (by simp) rfl
    have hput : (t.put e.1 e.2).entries = t.entries ++ [e] := putEntry_of_notMem e.2 hnew
    have hkeys : ((t.put e.1 e.2).keys ++ rest.map (·.1)).Nodup := by
      rw [keys, hput, List.map_append, List.append_assoc]
      exact h
    change ((t.put e.1 e.2).putAll rest).entries = _
    rw [ih hkeys, hput, List.append_assoc]
    rfl

end Bytelift.Table
