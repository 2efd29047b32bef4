import Bytelift.Proofs.Lifting

/-! The arms of a table switch form a chain. In the order of their targets the cases fall into groups; the arm of a
group starts at its target and stops at the next, and before them all comes the arm of the switch itself. -/

namespace Bytelift.Instruction

open Run

/-- Following the stops of the filed arms from an offset meets these arms, and ends at -1, where none is filed. -/
inductive Walk (filed : Table Offset Jump) : Offset → List Jump → Prop
  | done (h : filed.get? (.number (-1)) = none) : Walk filed (.number (-1)) []
  | step {o : Offset} {j : Jump} {rest : List Jump} (h : filed.get? o = some j) (hrest : Walk filed j.stop rest) :
    Walk filed o (j :: rest)

def labelsAt (cases : List Case) (o : Offset) : String :=
  String.join ((cases.filter fun c => c.target = o).map fun c => caseLabel c.label)

/-- What is filed for a switch: one arm for its offset, with the header alone, and one for every target, with the
labels of just the cases that go there, each once. Following the stops meets the arms in order, and all know the last
target. -/
structure Chained (filed : Table Offset Jump) (offset : Offset) (cases : List Case) (arms : List Jump)
    (last : Offset) : Prop where
  walk : Walk filed offset arms
  entries : filed.entries = arms.map fun j => (j.start, j)
  ascending : Ascending (arms.map (·.start))
  starts : ∀ o, o ∈ arms.map (·.start) ↔ o ∈ offset :: cases.map (·.target)
  greatest : last ∈ cases.map (·.target) ∧ ∀ c ∈ cases, c.target.value ≤ last.value
  labels : ∃ sorted, sorted.Perm cases ∧ ∀ j ∈ arms,
    j.arm = some ⟨if j.start = offset then switchHeader else labelsAt sorted j.start, last⟩

theorem labelsAt_cons (c : Case) (cases : List Case) (o : Offset) :
    labelsAt (c :: cases) o = (if c.target = o then caseLabel c.label else "") ++ labelsAt cases o := by
  by_cases h : c.target = o <;> simp [labelsAt, h]

theorem labelsAt_eq_empty {cases : List Case} {o : Offset} (h : o ∉ cases.map (·.target)) : labelsAt cases o = "" := by
  rw [labelsAt, List.filter_eq_nil_iff.2 (by simpa using h)]
  rfl

variable {last start : Offset} {labels : String} {cases : List Case}

theorem walk_armChain {filed : Table Offset Jump}
    (h : ∀ j ∈ armChain last start labels cases, filed.get? j.start = some j)
    (hend : filed.get? (.number (-1)) = none) : Walk filed start (armChain last start labels cases) := by
  induction cases generalizing start labels with
  | nil => exact .step (h _ List.mem_cons_self) (.done hend)
  | cons c cases ih =>
    by_cases he : c.target = start <;> simp only [armChain, he, if_true, if_false] at h ⊢
    · exact ih h
    · exact .step (h _ List.mem_cons_self) (ih fun j hj => h j (List.mem_cons_of_mem _ hj))

/-- There is one arm for the start and one for every target, in their order, and each has the labels of the cases
that go there. -/
theorem armChain_grouped (hn : ∀ o ∈ start :: cases.map (·.target), o.isNumber)
    (hsorted : (start :: cases.map (·.target)).Pairwise fun a b => a.value ≤ b.value) :
    Ascending ((armChain last start labels cases).map (·.start)) ∧
      (∀ o, o ∈ (armChain last start labels cases).map (·.start) ↔ o ∈ start :: cases.map (·.target)) ∧
      ∀ j ∈ armChain last start labels cases,
        j.arm = some ⟨(if j.start = start then labels else "") ++ labelsAt cases j.start, last⟩ := by
  induction cases generalizing start labels with
  | nil => exact ⟨⟨hn, List.pairwise_singleton _ _⟩, fun _ => Iff.rfl, by simp [armChain, labelsAt]⟩
  | cons c cases ih =>
    have htail : ∀ o ∈ c.target :: cases.map (·.target), o.isNumber := fun o ho => hn o (List.mem_cons_of_mem _ ho)
    obtain ⟨hle, hrest⟩ := List.pairwise_cons.1 hsorted
    rw [armChain]
    split
    · next he =>
      subst he
      obtain ⟨hasc, hmem, harms⟩ := ih htail hrest
      refine ⟨hasc, by simp [hmem], fun j hj => ?_⟩
      rw [harms j hj, labelsAt_cons]
      by_cases h : j.start = c.target
      · simp [h, String.append_assoc]
      · simp [h, Ne.symm h]
    · next he =>
      obtain ⟨hasc, hmem, harms⟩ := ih htail hrest
      have hlater : ∀ o ∈ c.target :: cases.map (·.target), start.value < o.value := by
        have hlt : start.value < c.target.value := lt_of_le_of_ne (hle _ (by simp)) fun hv =>
          he (Offset.eq_of_value (hn _ (by simp)) (hn _ (by simp)) hv).symm
        exact List.forall_mem_cons.2 ⟨hlt, fun o ho => Int.lt_of_lt_of_le hlt (List.rel_of_pairwise_cons hrest ho)⟩
      refine ⟨⟨?_, List.pairwise_cons.2 ⟨fun o ho => hlater o ((hmem o).1 ho), hasc.grows⟩⟩, by simp [hmem], ?_⟩
      · exact List.forall_mem_cons.2 ⟨hn _ (by simp), hasc.numbers⟩
      · intro j hj
        rcases List.mem_cons.1 hj with rfl | hj
        · rw [if_pos rfl, labelsAt_eq_empty fun h => Int.lt_irrefl _ (hlater _ h), String.append_empty]
        · have hlt := hlater _ ((hmem _).1 (List.mem_map_of_mem hj))
          rw [harms j hj, labelsAt_cons, if_neg (Ne.symm (Offset.ne_of_lt hlt)), String.empty_append]
          simp only [eq_comm]

/-- A switch whose cases all lie ahead of it files a chain of arms. -/
theorem recordSwitch_files_chain {operands : List String} {cases : CaseTable} {offset : Nat} {s : Recorder}
    (hc : caseTable operands = .ok cases) (hne : cases.values ≠ []) (hs : s.tables.table .arm = {})
    (hahead : ∀ c ∈ cases.values, c.target.isNumber ∧ offset < c.target.value) :
    Yields (recordSwitch (.number offset) operands) s fun _ t =>
      ∃ arms last, Chained (t.tables.table .arm) (.number offset) cases.values arms last := by
  obtain ⟨sorted, hsort, hperm, hgrows⟩ :=
    @Offset.sortBy?_of_number Case Case.target cases.values fun c hm => (hahead c hm).1
  obtain ⟨init, last, rfl⟩ := (List.eq_nil_or_concat' sorted).resolve_left fun he => hne (he ▸ hperm).symm.eq_nil
  have hall : ∀ o ∈ (init ++ [last]).map Case.target, o.isNumber ∧ (offset : Int) < o.value :=
    List.forall_mem_map.2 fun c hm => hahead c (hperm.mem_iff.1 hm)
  have hfrom : ∀ o ∈ Offset.number offset :: (init ++ [last]).map Case.target, (offset : Int) ≤ o.value :=
    List.forall_mem_cons.2 ⟨Int.le_refl _, fun o ho => Int.le_of_lt (hall o ho).2⟩
  obtain ⟨hasc, hmem, harms⟩ := @armChain_grouped last.target (.number offset) switchHeader (init ++ [last])
    (List.forall_mem_cons.2 ⟨rfl, fun o ho => (hall o ho).1⟩)
    (List.pairwise_cons.2 ⟨(List.forall_mem_cons.1 hfrom).2, List.pairwise_map.2 hgrows⟩)
  have hentries := @entries_fileArms _ s.tables (by simpa [hs, Table.keys] using hasc.nodup)
  rw [hs, List.nil_append] at hentries
  simp only [recordSwitch, yields_bind, yields_ofExcept, yields_modify]
  refine ⟨cases, hc, _, by simp [switchArms, hsort], _, last.target,
    walk_armChain (fun j hj => ?_) (Option.eq_none_iff_forall_ne_some.2 fun j hj => ?_), hentries, hasc,
    fun o => by rw [hmem, ((hperm.map _).cons _).mem_iff], ⟨(hperm.map _).mem_iff.1 (by simp), ?_⟩,
    init ++ [last], hperm, ?_⟩
  · rw [Table.get?_eq_some (by rw [Table.keys, hentries, List.map_map]; exact hasc.nodup), hentries]
    exact List.mem_map_of_mem hj
  · -- no arm starts before the switch
    have hm := Table.mem_of_get? hj
    rw [hentries] at hm
    obtain ⟨i, hi, he⟩ := List.mem_map.1 hm
    have hle := hfrom _ ((hmem _).1 (List.mem_map_of_mem hi))
    rw [(Prod.mk.inj he).1, Offset.value_number] at hle
    omega
  · intro c hm
    rcases List.mem_append.1 (hperm.mem_iff.2 hm) with hm | hm
    · exact (List.pairwise_append.1 hgrows).2.2 c hm last (by simp)
    · exact Int.le_of_eq (by rw [List.mem_singleton.1 hm])
  · intro j hj
    rw [harms j hj]
    split
    · next he => rw [he, labelsAt_eq_empty fun h => Int.lt_irrefl _ (hall _ h).2, String.append_empty]
    · rw [String.empty_append]

theorem recordSwitch_twoOperands : Yields (recordSwitch (.number (4 : Nat)) twoOperands) {} fun _ t =>
    ∃ arms last, Chained (t.tables.table .arm) (.number (4 : Nat)) twoCases.values arms last :=
  recordSwitch_files_chain caseTable_twoOperands (by decide) rfl (by decide)

end Bytelift.Instruction
