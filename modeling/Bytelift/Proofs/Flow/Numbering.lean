import Bytelift.Proofs.Flow.Gather
import Bytelift.Proofs.Recording

/-! Numbering the recorded jumps. The jumps of a kind have numbers that follow one another, so the table of
the kind lists just the jumps of that kind. -/

namespace Bytelift

open Run Instruction

namespace JumpTables

theorem toList_eq {α : Type} (t : JumpTables α) :
    t.toList = JumpKind.filed.map fun k => (k, t.table k) := by
  simp [toList, JumpKind.filed, get?, table]

theorem table_set {α : Type} {k : JumpKind} (hk : k ∈ JumpKind.filed) (t : JumpTables α)
    (new : Table Offset α) (l : JumpKind) :
    (t.set k new).table l = if k = l then new else t.table l := by
  have hsome : ∃ old, t.get? k = some old := by
    cases k <;> simp_all [JumpKind.filed, get?]
  obtain ⟨old, hold⟩ := hsome
  simp only [table, get?_set _ hold]
  split <;> rfl

/-- Numbers one table after those that have been numbered. -/
def numberNext (acc : Nat × JumpTables Nat) (entry : JumpKind × Table Offset Jump) :
    Nat × JumpTables Nat :=
  (acc.1 + entry.2.size, acc.2.set entry.1 ⟨entry.2.keys.zipIdx acc.1⟩)

theorem numberFrom_eq (t : JumpTables Jump) (first : Nat) : t.numberFrom first =
    ((JumpKind.filed.map fun k => (k, t.table k)).foldl numberNext (first, {})).2 := by
  rw [← toList_eq]
  rfl

theorem fst_foldl_numberNext (entries : List (JumpKind × Table Offset Jump))
    (acc : Nat × JumpTables Nat) : (entries.foldl numberNext acc).1 =
      acc.1 + (entries.flatMap fun e => e.2.values).length := by
  induction entries generalizing acc with
  | nil => simp
  | cons e entries ih =>
    rw [List.foldl_cons, ih]
    simp [numberNext, Table.size, Table.values]
    omega

theorem table_foldl_numberNext {k : JumpKind} (entries : List (JumpKind × Table Offset Jump))
    (hk : ∀ e ∈ entries, e.1 ∈ JumpKind.filed ∧ e.1 ≠ k) (acc : Nat × JumpTables Nat) :
    (entries.foldl numberNext acc).2.table k = acc.2.table k := by
  induction entries generalizing acc with
  | nil => rfl
  | cons e entries ih =>
    obtain ⟨hfiled, hne⟩ := hk e (by simp)
    rw [List.foldl_cons, ih fun e he => hk e (by simp [he]), numberNext, table_set hfiled, if_neg hne]

/-- The jumps of a kind stand together among all jumps, and their numbers are their places. -/
theorem exists_segment (t : JumpTables Jump) {k : JumpKind} (hk : k ∈ JumpKind.filed) :
    ∃ before after, t.all = before ++ (t.table k).values ++ after ∧
      (t.numberFrom 0).table k = ⟨(t.table k).keys.zipIdx before.length⟩ ∧
      ∀ j ∈ before ++ after, ∃ l, l ≠ k ∧ j ∈ (t.table l).values := by
  obtain ⟨pre, post, hsplit⟩ := List.append_of_mem hk
  have hnodup : (pre ++ k :: post).Nodup := hsplit ▸ (by decide : JumpKind.filed.Nodup)
  have hmem : ∀ l ∈ pre ++ post, l ∈ JumpKind.filed ∧ l ≠ k := by
    intro l hl
    have hnot := (List.nodup_middle.1 hnodup)
    rw [List.nodup_cons] at hnot
    refine ⟨?_, ?_⟩
    · rw [hsplit]
      rcases List.mem_append.1 hl with hl | hl <;> simp [hl]
    · rintro rfl
      exact hnot.1 hl
  refine ⟨pre.flatMap fun l => (t.table l).values, post.flatMap fun l => (t.table l).values, ?_, ?_, ?_⟩
  · rw [all, toList_eq, hsplit]
    simp [List.flatMap_map]
  · rw [numberFrom_eq, hsplit, List.map_append, List.map_cons, List.foldl_append, List.foldl_cons]
    rw [table_foldl_numberNext]
    · rw [numberNext, table_set hk, if_pos rfl, fst_foldl_numberNext]
      simp [List.flatMap_map]
    · intro e he
      obtain ⟨l, hl, rfl⟩ := List.mem_map.1 he
      exact hmem l (by simp [hl])
  · intro j hj
    rw [← List.flatMap_append] at hj
    obtain ⟨l, hl, hj⟩ := List.mem_flatMap.1 hj
    exact ⟨l, (hmem l hl).2, hj⟩

theorem mem_all {t : JumpTables Jump} {j : Jump} :
    j ∈ t.all ↔ ∃ k ∈ JumpKind.filed, j ∈ (t.table k).values := by
  rw [all, toList_eq]
  simp [List.mem_flatMap]

end JumpTables

namespace Flow

open JumpTables

variable {name : String} {code : List CodeLine} {t : JumpTables Jump} {console : Console}
  {source : Jump → Prop}

theorem jump_ofTables {i : Nat} (hi : i < t.all.length) :
    t.all[i]? = some ((ofTables name code t console).jump i) := by
  simp [jump, ofTables, List.getElem?_eq_getElem hi]

/-- A jump that was filed is found again in the table of its kind. -/
theorem entered_jump (h : Entered source t) {i : Nat} (hi : i < t.all.length) :
    ((ofTables name code t console).jump i).kind ∈ JumpKind.filed ∧
      source ((ofTables name code t console).jump i) := by
  have hj := List.mem_of_getElem? (@jump_ofTables name code t console i hi)
  obtain ⟨k, hk, hv⟩ := mem_all.1 hj
  obtain ⟨⟨o, _⟩, hm, rfl⟩ := List.mem_map.1 hv
  obtain ⟨hkind, _, hs⟩ := h.entered k o _ hm
  exact ⟨hkind ▸ hk, hs⟩

/-- What a numbered table lists. -/
theorem filed_ofTables (h : Entered source t) {k : JumpKind} {o : Offset} {i : Nat} :
    (ofTables name code t console).Filed k o i ↔ i < t.all.length ∧
      ((ofTables name code t console).jump i).kind = k ∧
      ((ofTables name code t console).jump i).start = o := by
  by_cases hk : k ∈ JumpKind.filed
  · obtain ⟨before, after, hall, hnum, hothers⟩ := t.exists_segment hk
    have hother : ∀ j ∈ before ++ after, j.kind ≠ k := by
      intro j hj
      obtain ⟨l, hl, hv⟩ := hothers j hj
      obtain ⟨⟨a, _⟩, hm, rfl⟩ := List.mem_map.1 hv
      rw [(h.entered l a _ hm).1]
      exact hl
    have hfiled : (ofTables name code t console).Filed k o i ↔
        before.length ≤ i ∧ (t.table k).keys[i - before.length]? = some o := by
      change (o, i) ∈ ((t.numberFrom 0).table k).entries ↔ _
      rw [hnum, List.mk_mem_zipIdx_iff_le_and_getElem?_sub]
    rw [hfiled]
    constructor
    · intro hm
      obtain ⟨hle, hkey⟩ := hm
      simp only [Table.keys, List.getElem?_map, Option.map_eq_some_iff] at hkey
      obtain ⟨⟨_, j⟩, hentry, rfl⟩ := hkey
      have hvalue : (t.table k).values[i - before.length]? = some j := by
        simp [Table.values, hentry]
      have hlt := (List.getElem?_eq_some_iff.1 hvalue).1
      have hi : t.all[i]? = some j := by
        rw [hall, List.append_assoc, List.getElem?_append_right hle,
          List.getElem?_append_left hlt, hvalue]
      have hlen := (List.getElem?_eq_some_iff.1 hi).1
      rw [@jump_ofTables name code t console i hlen] at hi
      rw [Option.some.inj hi]
      obtain ⟨hkind, hstart, _⟩ := h.entered k _ j (List.mem_of_getElem? hentry)
      exact ⟨hlen, hkind, hstart⟩
    · intro hm
      obtain ⟨hlen, hkind, hstart⟩ := hm
      have hi := @jump_ofTables name code t console i hlen
      rw [hall] at hi
      -- among the jumps before and after the table there is none of its kind
      have hle : before.length ≤ i := by
        by_contra hlt
        rw [List.append_assoc, List.getElem?_append_left (by omega)] at hi
        exact hother _ (by simp [List.mem_of_getElem? hi]) hkind
      refine ⟨hle, ?_⟩
      rw [List.append_assoc, List.getElem?_append_right hle] at hi
      by_cases hin : i - before.length < (t.table k).values.length
      · rw [List.getElem?_append_left hin] at hi
        simp only [Table.values, List.getElem?_map, Option.map_eq_some_iff] at hi
        obtain ⟨⟨a, _⟩, hentry, rfl⟩ := hi
        obtain ⟨_, ha, _⟩ := h.entered k a _ (List.mem_of_getElem? hentry)
        simp [Table.keys, hentry, ← hstart, ha]
      · rw [List.getElem?_append_right (by omega)] at hi
        exact absurd hkind (hother _ (by simp [List.mem_of_getElem? hi]))
  · constructor
    · intro hm
      change (o, i) ∈ ((t.numberFrom 0).table k).entries at hm
      cases k <;> simp_all [JumpKind.filed, JumpTables.table, get?]
    · intro hm
      exact absurd (hm.2.1 ▸ (@entered_jump name code t console source h i hm.1).1) hk

theorem distinct_ofTables (h : Entered source t) (k : JumpKind) :
    ((ofTables name code t console).table k).keys.Nodup := by
  by_cases hk : k ∈ JumpKind.filed
  · obtain ⟨before, _, _, hnum, _⟩ := t.exists_segment hk
    change ((t.numberFrom 0).table k).keys.Nodup
    rw [hnum, Table.keys, List.zipIdx_map_fst]
    exact h.distinct k
  · change ((t.numberFrom 0).table k).keys.Nodup
    cases k <;> simp_all [JumpKind.filed, JumpTables.table, get?, Table.keys]

/-- Numbering keeps the order of the tests. -/
theorem testsInOrder_ofTables (h : (t.table .test).keys.Pairwise fun a b => a.value < b.value) :
    (ofTables name code t console).TestsInOrder := by
  obtain ⟨before, _, _, hnum, _⟩ := t.exists_segment (k := .test) (by simp [JumpKind.filed])
  change ((t.numberFrom 0).table .test).keys.Pairwise _
  rw [hnum, Table.keys, List.zipIdx_map_fst]
  exact h

/-- The numbers in a table are those of its jumps, in their order. -/
theorem map_jump_values {k : JumpKind} (hk : k ∈ JumpKind.filed) :
    ((ofTables name code t console).table k).values.map (ofTables name code t console).jump = (t.table k).values := by
  obtain ⟨before, after, hall, hnum, _⟩ := t.exists_segment hk
  have hvalues : ((ofTables name code t console).table k).values =
      List.range' before.length (t.table k).values.length := by
    change ((t.numberFrom 0).table k).values = _
    rw [hnum, Table.values, List.zipIdx_map_snd, Table.keys, Table.values, List.length_map, List.length_map]
  rw [hvalues]
  refine List.ext_getElem (by simp) fun i hi hv => ?_
  have hlt : before.length + i < t.all.length := by
    simp only [hall, List.length_append]
    omega
  have hjump := @jump_ofTables name code t console _ hlt
  rw [hall, List.append_assoc, List.getElem?_append_right (Nat.le_add_right _ _), Nat.add_sub_cancel_left,
    List.getElem?_append_left hv, List.getElem?_eq_getElem hv] at hjump
  rw [List.getElem_map, List.getElem_range', Nat.one_mul]
  exact (Option.some.inj hjump).symm

/-- Recorded jumps, numbered, are ready for structuring. -/
theorem fresh_ofTables (h : Entered source t) (ha : Ascending (code.map (·.offset)))
    (hs : ∀ j, source j → j.kind ∈ JumpKind.filed →
      Recorded (code.map (·.offset)) j ∧ j.done = false)
    (hd : ∀ i j, source i → source j → i.kind = .test → j.kind = .skip → i.start ≠ j.start) :
    (ofTables name code t console).Fresh := by
  have hoffsets : (ofTables name code t console).offsets = code.map (·.offset) :=
    Offset.eraseDups_of_nodup ha.nodup
  have hfiled := @filed_ofTables name code t console source h
  have hrec : ∀ i, i < t.all.length →
      Recorded (code.map (·.offset)) ((ofTables name code t console).jump i) ∧
        ((ofTables name code t console).jump i).done = false := by
    intro i hi
    obtain ⟨hk, hsource⟩ := @entered_jump name code t console source h i hi
    exact hs _ hsource hk
  exact
    { lines := hoffsets
      ascending := hoffsets ▸ ha
      distinct := distinct_ofTables h
      kinds := fun i hi => (hrec i hi).1.kind_recorded
      filed := by
        intro k o i _
        rw [hfiled]
        constructor
        · intro hm
          exact ⟨⟨hm.1, (hrec i hm.1).2⟩, hm.2⟩
        · intro hm
          exact ⟨hm.1.1, hm.2⟩
      once := by
        intro i j hi hj hk hstart
        have hfi := hfiled.2 ⟨hi, rfl, rfl⟩
        have hfj := hfiled.2 ⟨hj, hk.symm, hstart.symm⟩
        have hlook := (Table.get?_eq_some (distinct_ofTables h _)).2 hfi
        rw [(Table.get?_eq_some (distinct_ofTables h _)).2 hfj] at hlook
        exact (Option.some.inj hlook).symm
      apart := by
        intro i j hi hj hik hjk
        exact hd _ _ (entered_jump h hi).2 (entered_jump h hj).2 hik hjk
      untouched := fun i hi => (hrec i hi).2
      recorded := by
        intro i hi
        rw [hoffsets]
        exact (hrec i hi).1
      unhandled := by
        intro o i hf
        obtain ⟨hi, hk, _⟩ := hfiled.1 hf
        have hr := (hrec i hi).1
        unfold Recorded at hr
        rw [hk] at hr
        exact hr }

theorem listed_ofTables (h : Entered source t) : FlowM.Listed (ofTables name code t console) := by
  have hfiled := @filed_ofTables name code t console source h
  have hall : (ofTables name code t console).tables.all =
      JumpKind.filed.flatMap fun k => ((ofTables name code t console).table k).values := by
    rw [all, toList_eq, List.flatMap_map]
    rfl
  have hmem : ∀ k i, i ∈ ((ofTables name code t console).table k).values ↔
      i < t.all.length ∧ ((ofTables name code t console).jump i).kind = k := by
    intro k i
    simp only [Table.values, List.mem_map, Prod.exists, exists_eq_right]
    constructor
    · intro hm
      obtain ⟨o, hm⟩ := hm
      obtain ⟨hi, hk, _⟩ := hfiled.1 hm
      exact ⟨hi, hk⟩
    · intro hm
      exact ⟨_, hfiled.2 ⟨hm.1, hm.2, rfl⟩⟩
  refine ⟨?_, ?_⟩
  · rw [hall, List.nodup_flatMap]
    refine ⟨?_, ?_⟩
    · intro k _
      refine List.Nodup.map_on ?_ (.of_map _ (distinct_ofTables h k))
      intro a ha b hb hab
      have hma := hfiled.1 ha
      have hmb := hfiled.1 hb
      rw [← hab] at hmb
      exact Prod.ext (hma.2.2.symm.trans hmb.2.2) hab
    · refine (by decide : JumpKind.filed.Nodup).imp ?_
      intro k l hkl i hk hl
      exact hkl (((hmem k i).1 hk).2.symm.trans ((hmem l i).1 hl).2)
  · intro i
    rw [hall, List.mem_flatMap]
    constructor
    · intro hm
      obtain ⟨k, _, hk⟩ := hm
      exact ((hmem k i).1 hk).1
    · intro hi
      exact ⟨_, (entered_jump h hi).1, (hmem _ i).2 ⟨hi, rfl⟩⟩

end Flow

namespace Instruction

open JumpTables

/-! ## What the code promises -/

def offsetsOf (code : List CodeLine) : List Offset := code.map (·.offset)

def CasesAhead (code : List CodeLine) : Prop :=
  ∀ line ∈ code, ∀ c ∈ casesAt line, c.target ∈ offsetsOf code ∧ line.offset.value < c.target.value

def HandlersAhead (handlers : Handlers) : Prop := ∀ e ∈ handlers.entries, e.2.1 < e.1

variable {code : List CodeLine} {handlers : Handlers}

/-- In a chain of arms each stops where the next one starts, or nowhere. -/
theorem recorded_of_mem_armChain {offsets : List Offset} {last : Offset} (hl : last ∈ offsets)
    {cases : List Case} {start : Offset} {labels : String} (hs : start ∈ offsets)
    (ha : Ascending offsets) (hc : ∀ c ∈ cases, c.target ∈ offsets ∧ start.value ≤ c.target.value)
    (hsorted : cases.Pairwise fun a b => a.target.value ≤ b.target.value) {j : Jump}
    (hj : j ∈ armChain last start labels cases) : Flow.Recorded offsets j ∧ j.done = false := by
  induction cases generalizing start labels with
  | nil =>
    rw [List.mem_singleton.1 hj]
    exact ⟨⟨hs, ⟨_, rfl, hl⟩, Or.inl rfl⟩, rfl⟩
  | cons c cases ih =>
    obtain ⟨hmem, hle⟩ := hc c (by simp)
    rw [List.pairwise_cons] at hsorted
    simp only [armChain] at hj
    split at hj
    · exact ih hs (fun d hd => hc d (by simp [hd])) hsorted.2 hj
    · next hne =>
      rcases List.mem_cons.1 hj with rfl | hj
      · have hlt : start.value < c.target.value := by
          have hv : start.value ≠ c.target.value := fun hv =>
            hne (Offset.eq_of_value (ha.numbers _ hs) (ha.numbers _ hmem) hv).symm
          omega
        exact ⟨⟨hs, ⟨_, rfl, hl⟩, Or.inr ⟨hmem, hlt⟩⟩, rfl⟩
      · refine ih hmem ?_ hsorted.2 hj
        intro d hd
        exact ⟨(hc d (by simp [hd])).1, hsorted.1 d hd⟩

theorem recorded_of_mem_switchArms {offsets : List Offset} {start : Offset} {cases : CaseTable}
    {arms : List Jump} (hs : start ∈ offsets) (ha : Ascending offsets)
    (hc : ∀ c ∈ cases.values, c.target ∈ offsets ∧ start.value < c.target.value)
    (harms : switchArms start cases = .ok arms) {j : Jump} (hj : j ∈ arms) :
    Flow.Recorded offsets j ∧ j.done = false := by
  obtain ⟨sorted, hsorted, hperm, hgrows⟩ := @Offset.sortBy?_of_number Case Case.target cases.values
    fun c hm => ha.numbers _ (hc c hm).1
  have hall : ∀ c ∈ sorted, c.target ∈ offsets ∧ start.value ≤ c.target.value := by
    intro c hm
    obtain ⟨hmem, hlt⟩ := hc c (hperm.mem_iff.1 hm)
    exact ⟨hmem, by omega⟩
  unfold switchArms at harms
  rw [hsorted] at harms
  dsimp only at harms
  split at harms
  · cases harms
  · next last hlast =>
    cases harms
    exact recorded_of_mem_armChain (hall last (List.mem_of_getLast? hlast)).1 hs ha hall hgrows hj

/-- Jumps are recorded as structuring needs them. -/
theorem Origin.recorded (ha : Ascending (offsetsOf code)) (hc : CasesAhead code)
    (hh : HandlersAhead handlers) {j : Jump} (hj : Origin code handlers j)
    (hk : j.kind ∈ JumpKind.filed) : Flow.Recorded (offsetsOf code) j ∧ j.done = false := by
  have hline : ∀ line ∈ code, line.offset ∈ offsetsOf code := fun line hl => List.mem_map_of_mem hl
  cases hj with
  | guarded hm => exact ⟨⟨rfl, rfl, hh _ hm⟩, rfl⟩
  | @forward line hl kind text target hf ht hlt =>
    have hn := ha.numbers _ (hline line hl)
    rw [Offset.lt?_of_number rfl hn, Option.some.injEq, decide_eq_false_iff_not] at hlt
    refine ⟨?_, rfl⟩
    have hle : line.offset.value ≤ target := by
      rw [Offset.value_number] at hlt
      omega
    unfold Flow.Recorded
    rcases kind_of_form? hf hk with rfl | rfl | rfl <;> exact ⟨hline line hl, rfl, hle⟩
  | @backward line hl kind text target hf ht hlt =>
    have hn := ha.numbers _ (hline line hl)
    rw [Offset.lt?_of_number rfl hn, Option.some.injEq, decide_eq_true_eq] at hlt
    exact ⟨⟨rfl, hline line hl, hlt⟩, rfl⟩
  | @arm line hl cases arms j hf hcases harms hj =>
    have hcase := hc line hl
    rw [casesAt_eq hf hcases] at hcase
    exact recorded_of_mem_switchArms (hline line hl) ha hcase harms hj

/-- The line that a test or a skip is made by. -/
theorem Origin.line {j : Jump} (hj : Origin code handlers j) (hk : j.kind = .test ∨ j.kind = .skip) :
    ∃ line ∈ code, line.offset = j.start ∧ ∃ text, form? (operator line) = some (.jump j.kind text) := by
  cases hj with
  | guarded _ => simp at hk
  | @forward line hl kind text target hf ht hlt => exact ⟨line, hl, rfl, text, hf⟩
  | backward _ _ _ _ => simp at hk
  | arm _ _ _ harms hj => simp [kind_of_mem_switchArms harms hj] at hk

/-- Of two lines at one offset there is one. -/
theorem line_eq (ha : Ascending (offsetsOf code)) {a b : CodeLine} (hma : a ∈ code) (hmb : b ∈ code)
    (ho : a.offset = b.offset) : a = b := List.inj_on_of_nodup_map ha.nodup hma hmb ho

/-- A line makes one jump at most. -/
theorem Origin.apart (ha : Ascending (offsetsOf code)) {i j : Jump} (hi : Origin code handlers i)
    (hj : Origin code handlers j) (hik : i.kind = .test) (hjk : j.kind = .skip) :
    i.start ≠ j.start := by
  intro he
  obtain ⟨a, hma, hao, _, hfa⟩ := hi.line (Or.inl hik)
  obtain ⟨b, hmb, hbo, _, hfb⟩ := hj.line (Or.inr hjk)
  obtain rfl := line_eq ha hma hmb (hao.trans (he.trans hbo.symm))
  rw [hfa] at hfb
  simp [hik, hjk] at hfb

end Instruction

end Bytelift
