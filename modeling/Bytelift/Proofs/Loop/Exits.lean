import Bytelift.Proofs.Conditional.Layout

/-! What a loop does with the tests that are open when it is wrapped, in code without skips and handlers. A
test in the loop that goes to its end or past it is shown as a break. One that stops further inside, but
within four lines of the end, is shown as a continue, whatever it is the test of. -/

namespace Bytelift

open Run Text

/-! ## Places of lines -/

namespace Ascending

variable {offsets : List Offset} {a b : Offset}

theorem value_lt_of_idxOf_lt (h : Ascending offsets) (ha : a ∈ offsets) (hb : b ∈ offsets)
    (hlt : offsets.idxOf a < offsets.idxOf b) : a.value < b.value := by
  have hgrows := List.pairwise_iff_getElem.1 h.grows _ _ (List.idxOf_lt_length_of_mem ha)
    (List.idxOf_lt_length_of_mem hb) hlt
  rwa [List.getElem_idxOf, List.getElem_idxOf] at hgrows

/-- The lines stand in the order of their offsets. -/
theorem value_le_iff (h : Ascending offsets) (ha : a ∈ offsets) (hb : b ∈ offsets) :
    a.value ≤ b.value ↔ offsets.idxOf a ≤ offsets.idxOf b := by
  constructor
  · intro hle
    by_contra hlt
    have := h.value_lt_of_idxOf_lt hb ha (by omega)
    omega
  · intro hle
    rcases Nat.lt_or_eq_of_le hle with hlt | heq
    · exact Int.le_of_lt (h.value_lt_of_idxOf_lt ha hb hlt)
    · exact Int.le_of_eq (congrArg Offset.value ((List.idxOf_inj ha).1 heq))

end Ascending

theorem Adjacent.idxOf_eq {offsets : List Offset} {a b : Offset} (h : Adjacent offsets a b)
    (hn : offsets.Nodup) : offsets.idxOf b = offsets.idxOf a + 1 := by
  obtain ⟨before, after, rfl⟩ := h
  rw [List.nodup_append, List.nodup_cons] at hn
  obtain ⟨_, ⟨hab, _⟩, hbefore⟩ := hn
  have ha : a ∉ before := fun hm => hbefore a hm a (by simp) rfl
  have hb : b ∉ before := fun hm => hbefore b hm b (by simp) rfl
  have hne : a ≠ b := fun he => hab (by simp [he])
  rw [List.idxOf_append_of_notMem ha, List.idxOf_append_of_notMem hb, List.idxOf_cons_self,
    List.idxOf_cons_ne _ hne, List.idxOf_cons_self]

/-! ## Which tests a loop shows -/

namespace Jump

/-- A test starts in a loop and goes to its end or past it. -/
def Leaves (loop test : Jump) : Prop :=
  loop.start.value ≤ test.start.value ∧ test.start.value < loop.stop.value ∧
    loop.stop.value ≤ test.stop.value

/-- A test starts in a loop and stops inside it, within four lines of its last. A loop that ends too near
the start of the code has no such lines. -/
def Resumes (offsets : List Offset) (loop test : Jump) : Prop :=
  loop.start.value ≤ test.start.value ∧ test.stop.value < loop.stop.value ∧
    5 ≤ offsets.idxOf loop.stop ∧ offsets.idxOf loop.stop ≤ offsets.idxOf test.stop + 5

instance (loop test : Jump) : Decidable (loop.Leaves test) := inferInstanceAs (Decidable (_ ∧ _))

instance (offsets : List Offset) (loop test : Jump) : Decidable (loop.Resumes offsets test) :=
  inferInstanceAs (Decidable (_ ∧ _))

def verdict? (offsets : List Offset) (loop test : Jump) : Option String :=
  if loop.Leaves test then some "break"
  else if loop.Resumes offsets test then some "continue"
  else none

end Jump

namespace Flow

variable {flow : Flow}

theorem neighbour_eq {o : Offset} (ho : o ∈ flow.offsets) (distance : Int) :
    flow.neighbour o distance =
      if 0 ≤ (flow.offsets.idxOf o : Int) + distance then
        match flow.offsets[((flow.offsets.idxOf o : Int) + distance).toNat]? with
        | some neighbour => .ok neighbour
        | none => .error (.outOfReach (flow.offsets.idxOf o + distance) o)
      else .error (.outOfReach (flow.offsets.idxOf o + distance) o) := by
  have hfind : flow.offsets.findIdx? (· = o) = some (flow.offsets.idxOf o) := by
    rw [List.findIdx?_eq_some_of_exists ⟨o, ho, by simp⟩]
    rfl
  unfold neighbour
  rewrite [hfind]
  rfl

/-! ## Exits shown one after the other -/

def markedAt (keyword : String) (starts : List Offset) (line : CodeLine) : CodeLine :=
  if line.offset ∈ starts then line.reading (line.rendered ++ (" " ++ keyword)) else line

theorem jump_shown {i j : Nat} (hi : i < flow.jumps.length) (hne : i ≠ j) (keyword : String) :
    (flow.shown keyword i).jump j = flow.jump j := by
  rw [shown, jump_retired (by simpa using hi), if_neg hne, jump_revised]

theorem onward_shown (flow : Flow) (keyword : String) (i : Nat) : Onward flow (flow.shown keyword i) :=
  (onward_revised _ _ _).trans (onward_retired _ _)

theorem open_shown {i j : Nat} (hi : i < flow.jumps.length) (keyword : String) :
    (flow.shown keyword i).Open j ↔ flow.Open j ∧ i ≠ j := open_retired (by simpa using hi)

theorem Test.shown {i j : Nat} (hj : flow.Test j) (hi : i < flow.jumps.length) (hne : i ≠ j)
    (keyword : String) : (flow.shown keyword i).Test j :=
  ⟨(open_shown hi keyword).2 ⟨hj.1, hne⟩, ((onward_shown flow keyword i).kind j).trans hj.2⟩

theorem code_shown {i : Nat} (hi : flow.Test i) (keyword : String) :
    (flow.shown keyword i).code = flow.code.map (markedAt keyword [(flow.jump i).start]) := by
  change flow.code.map (CodeLine.revised _ _) = _
  refine List.map_congr_left fun line _ => ?_
  unfold CodeLine.revised markedAt marked CodeLine.reading
  rw [if_pos hi.2]
  simp only [List.mem_singleton]

/-- What is left once some tests have been shown. -/
structure Showing (flow : Flow) (keyword : String) (is : List Nat) (result : Flow) : Prop where
  kept : flow.Kept result
  onward : flow.Onward result
  opens : ∀ j, result.Open j ↔ flow.Open j ∧ j ∉ is
  same : ∀ j, j ∉ is → result.jump j = flow.jump j
  code : result.code = flow.code.map (markedAt keyword (is.map fun i => (flow.jump i).start))
  others : ∀ k, k ≠ .test → result.table k = flow.table k

theorem Showing.none (h : flow.Sound) (keyword : String) : flow.Showing keyword [] flow where
  kept := h.kept
  onward := .refl flow
  opens := by simp
  same _ _ := rfl
  code := by
    have hid : markedAt keyword [] = id := by
      funext line
      simp [markedAt]
    simp [hid]
  others _ _ := rfl

theorem Showing.cons {i : Nat} {is : List Nat} {keyword : String} {result : Flow} (h : flow.Sound)
    (hi : flow.Test i) (hall : ∀ j ∈ is, flow.Test j) (hn : i ∉ is)
    (hs : (flow.shown keyword i).Showing keyword is result) : flow.Showing keyword (i :: is) result where
  kept := by
    have hon := (onward_shown flow keyword i).trans hs.onward
    exact ⟨hon.toFollows, hs.kept.sound⟩
  onward := (onward_shown flow keyword i).trans hs.onward
  opens := by
    intro j
    rw [hs.opens, open_shown hi.1.1, List.mem_cons, not_or]
    constructor
    · rintro ⟨⟨ho, hne⟩, hm⟩
      exact ⟨ho, Ne.symm hne, hm⟩
    · rintro ⟨ho, hne, hm⟩
      exact ⟨⟨ho, Ne.symm hne⟩, hm⟩
  same := by
    intro j hj
    rw [List.mem_cons, not_or] at hj
    rw [hs.same j hj.2, jump_shown hi.1.1 (Ne.symm hj.1)]
  code := by
    rw [hs.code, code_shown hi, List.map_map]
    have hstarts : is.map (fun j => ((flow.shown keyword i).jump j).start) =
        is.map fun j => (flow.jump j).start :=
      List.map_congr_left fun j _ => (onward_shown flow keyword i).start j
    rw [hstarts]
    -- no other test starts on the line of this one
    have hout : (flow.jump i).start ∉ is.map fun j => (flow.jump j).start := by
      intro hm
      obtain ⟨j, hj, he⟩ := List.mem_map.1 hm
      have hje := hall j hj
      exact hn (h.once j i hje.1.1 hi.1.1 (hje.2.trans hi.2.symm) he ▸ hj)
    refine List.map_congr_left fun line _ => ?_
    simp only [Function.comp, List.map_cons]
    unfold markedAt
    by_cases ho : line.offset = (flow.jump i).start
    · simp [ho, hout, CodeLine.reading]
    · simp [ho]
  others := by
    intro k hk
    rw [hs.others k hk, Flow.shown, table_retired (by simpa using h.kinds i hi.1.1), jump_revised,
      if_neg (by rw [hi.2]; exact Ne.symm hk), table_revised]

theorem showing_shown {i : Nat} (h : flow.Sound) (hi : flow.Test i) (keyword : String) :
    flow.Showing keyword [i] (flow.shown keyword i) :=
  .cons h hi (by simp) (by simp) (.none (h.shown hi.exit _) keyword)

/-- The first of some tests is shown if it has a property, and the rest are judged as before. -/
theorem Showing.filter_cons {i : Nat} {is : List Nat} {keyword : String} {result : Flow} (p : Jump → Bool)
    (h : flow.Sound) (hall : ∀ j ∈ i :: is, flow.Test j) (hn : i ∉ is) (hp : p (flow.jump i) = true)
    (hs : (flow.shown keyword i).Showing keyword
      (is.filter fun j => p ((flow.shown keyword i).jump j)) result) :
    flow.Showing keyword ((i :: is).filter fun j => p (flow.jump j)) result := by
  have hi := hall i (by simp)
  have hsame : ∀ j ∈ is, p ((flow.shown keyword i).jump j) = p (flow.jump j) := by
    intro j hj
    rw [jump_shown hi.1.1 (fun he => hn (he ▸ hj))]
  rw [List.filter_congr hsame] at hs
  rw [List.filter_cons_of_pos (by simpa using hp)]
  exact .cons h hi (fun j hj => hall j (List.mem_cons_of_mem i (List.mem_of_mem_filter hj)))
    (fun hm => hn (List.mem_of_mem_filter hm)) hs

/-- Showing one of some tests leaves the others as they were. -/
theorem tests_shown {i : Nat} {is : List Nat} (hall : ∀ j ∈ i :: is, flow.Test j) (hn : i ∉ is)
    (keyword : String) : ∀ j ∈ is, (flow.shown keyword i).Test j ∧
      (flow.shown keyword i).jump j = flow.jump j := by
  intro j hj
  have hi := (hall i (by simp)).1.1
  have hne : i ≠ j := fun he => hn (he ▸ hj)
  exact ⟨(hall j (List.mem_cons_of_mem i hj)).shown hi hne keyword, jump_shown hi hne keyword⟩

end Flow

namespace FlowM

open Flow

variable {flow : Flow}

theorem yields_breaksAmong_tests {first last : Offset} (leaves : Jump → Bool) :
    ∀ (is : List Nat) {flow : Flow}, flow.Sound → is.Nodup → (∀ i ∈ is, flow.Test i) →
      (∀ i ∈ is, leaves? first last (flow.jump i) = some (leaves (flow.jump i))) →
      Yields (breaksAmong first last is) flow fun _ result =>
        flow.Showing "break" (is.filter fun i => leaves (flow.jump i)) result
  | [], flow, h, _, _, _ => by simpa [breaksAmong] using Showing.none h "break"
  | i :: is, flow, h, hn, hall, hl => by
    rw [List.nodup_cons] at hn
    have hi := hall i (by simp)
    have hrest := tests_shown hall hn.1 "break"
    simp only [breaksAmong, yields_bind, yields_jump, yields_settled, hl i (by simp)]
    refine ⟨_, rfl, ?_⟩
    cases hd : leaves (flow.jump i) with
    | false =>
      rw [List.filter_cons_of_neg (by simp [hd])]
      exact yields_breaksAmong_tests leaves is h hn.2 (fun j hj => hall j (List.mem_cons_of_mem i hj))
        fun j hj => hl j (List.mem_cons_of_mem i hj)
    | true =>
      rw [if_pos rfl, yields_bind, yields_showExit h hi.exit, yields_bind]
      refine (yields_breaksAmong_tests leaves is (h.shown hi.exit _) hn.2 (fun j hj => (hrest j hj).1)
        ?_).mono ?_
      · intro j hj
        rw [(hrest j hj).2]
        exact hl j (List.mem_cons_of_mem i hj)
      · intro _ result hs
        exact yields_pure.2 (hs.filter_cons leaves h hall hn.1 hd)

theorem yields_continuesAmong_tests {first near last : Offset} (resumes : Jump → Bool) :
    ∀ (is : List Nat) {flow : Flow}, flow.Sound → is.Nodup → (∀ i ∈ is, flow.Test i) →
      (∀ o, (flow.table .skip).get? o = none) →
      (∀ i ∈ is, resumes? first near last (flow.jump i) = some (resumes (flow.jump i))) →
      Yields (continuesAmong first near last is) flow fun _ result =>
        flow.Showing "continue" (is.filter fun i => resumes (flow.jump i)) result
  | [], flow, h, _, _, _, _ => by simpa [continuesAmong] using Showing.none h "continue"
  | i :: is, flow, h, hn, hall, hskip, hr => by
    rw [List.nodup_cons] at hn
    have hi := hall i (by simp)
    have hrest := tests_shown hall hn.1 "continue"
    simp only [continuesAmong, yields_bind, yields_jump, yields_settled, hr i (by simp)]
    refine ⟨_, rfl, ?_⟩
    cases hd : resumes (flow.jump i) with
    | false =>
      rw [List.filter_cons_of_neg (by simp [hd])]
      exact yields_continuesAmong_tests resumes is h hn.2
        (fun j hj => hall j (List.mem_cons_of_mem i hj)) hskip fun j hj => hr j (List.mem_cons_of_mem i hj)
    | true =>
      -- a test that goes to a skip would be passed over, but there is none
      rw [if_pos rfl, yields_bind, yields_skipAt?, hskip, Option.isSome_none, Bool.and_false,
        if_neg Bool.false_ne_true, yields_bind, yields_showExit h hi.exit]
      refine (yields_continuesAmong_tests resumes is (h.shown hi.exit _) hn.2
        (fun j hj => (hrest j hj).1) ?_ ?_).mono ?_
      · intro o
        rw [(showing_shown h hi "continue").others .skip (by simp)]
        exact hskip o
      · intro j hj
        rw [(hrest j hj).2]
        exact hr j (List.mem_cons_of_mem i hj)
      · intro _ result hs
        exact hs.filter_cons resumes h hall hn.1 hd

/-- A kind that nothing is filed under. -/
theorem values_eq_nil {k : JumpKind} (h : ∀ o j, ¬flow.Filed k o j) : (flow.table k).values = [] := by
  rw [Table.values, List.map_eq_nil_iff, List.eq_nil_iff_forall_not_mem]
  intro entry he
  exact h entry.1 entry.2 he

section Range

variable {loop : Jump} {last : Offset}

theorem yields_markBreaks_tests (h : flow.Sound) (hskips : ∀ o j, ¬flow.Filed .skip o j)
    (hs : loop.start.isNumber) (hadj : Adjacent flow.offsets last loop.stop) :
    Yields (markBreaks loop.start last) flow fun _ result =>
      flow.Showing "break" ((flow.table .test).values.filter fun t => loop.Leaves (flow.jump t)) result := by
  simp only [markBreaks, yields_bind, yields_openTests, yields_openSkips]
  rw [values_eq_nil hskips, List.append_nil]
  refine yields_breaksAmong_tests (fun j => decide (loop.Leaves j)) _ h (h.nodup_values (by simp))
    (fun i hi => h.test_of_mem hi) ?_
  intro i hi
  obtain ⟨hstart, hstop, _⟩ := h.exit_aimed (h.test_of_mem hi).exit
  have hnumber := h.ascending.numbers
  have hlt := hadj.lt h.ascending
  rw [leaves?_eq hs (hnumber _ hadj.left) (hnumber _ hstart) (hnumber _ hstop), Option.some.injEq,
    decide_eq_decide]
  unfold Jump.Leaves
  rcases hadj.le_or_le h.ascending hstart with hbefore | hafter <;>
    rcases hadj.le_or_le h.ascending hstop with hbefore' | hafter' <;> omega

theorem yields_markContinues_tests (h : flow.Sound) (hskips : ∀ o j, ¬flow.Filed .skip o j)
    (hs : loop.start.isNumber) (hadj : Adjacent flow.offsets last loop.stop) :
    Yields (markContinues loop.start last) flow fun _ result => flow.Showing "continue"
      ((flow.table .test).values.filter fun t => loop.Resumes flow.offsets (flow.jump t)) result := by
  have hnumber := h.ascending.numbers
  have hnodup := h.ascending.nodup
  have hplace := hadj.idxOf_eq hnodup
  have hlt := hadj.lt h.ascending
  simp only [markContinues, yields_bind, yields_get]
  rw [neighbour_eq hadj.left]
  by_cases hk : 4 ≤ flow.offsets.idxOf last
  · have hlen : flow.offsets.idxOf last - 4 < flow.offsets.length := by
      have := List.idxOf_lt_length_of_mem hadj.left
      omega
    have hnear : flow.offsets[((flow.offsets.idxOf last : Int) + -4).toNat]? =
        some flow.offsets[flow.offsets.idxOf last - 4] := by
      rw [show ((flow.offsets.idxOf last : Int) + -4).toNat = flow.offsets.idxOf last - 4 by omega,
        List.getElem?_eq_getElem hlen]
    have hmem : flow.offsets[flow.offsets.idxOf last - 4] ∈ flow.offsets := List.getElem_mem hlen
    have hidx : flow.offsets.idxOf flow.offsets[flow.offsets.idxOf last - 4] =
        flow.offsets.idxOf last - 4 := hnodup.idxOf_getElem _ hlen
    rw [if_pos (by omega), hnear]
    simp only [yields_bind, yields_openTests, yields_openSkips]
    rw [values_eq_nil hskips, List.append_nil]
    refine yields_continuesAmong_tests (fun j => decide (loop.Resumes flow.offsets j)) _ h
      (h.nodup_values (by simp)) (fun i hi => h.test_of_mem hi) ?_ ?_
    · intro o
      by_contra hsome
      obtain ⟨past, hpast⟩ := Option.ne_none_iff_exists'.1 hsome
      exact hskips o past (h.lookup.1 hpast)
    · intro i hi
      obtain ⟨hstart, hstop, _⟩ := h.exit_aimed (h.test_of_mem hi).exit
      rw [resumes?_eq hs (hnumber _ hmem) (hnumber _ hadj.left) (hnumber _ hstart) (hnumber _ hstop),
        Option.some.injEq, decide_eq_decide, h.ascending.value_le_iff hmem hstop, hidx]
      unfold Jump.Resumes
      rcases hadj.le_or_le h.ascending hstop with hbefore | hafter <;> omega
  · rw [if_neg (by omega), yields_pure, List.filter_eq_nil_iff.2]
    · exact .none h "continue"
    · intro t _ hr
      have hfar := (of_decide_eq_true hr).2.2.1
      omega

end Range

end FlowM

end Bytelift
