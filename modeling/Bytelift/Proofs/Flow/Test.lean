import Bytelift.Proofs.Flow.Switch

/-! Conditionals are laid out without a fault. A chain of tests goes forward, so it ends; its last test is
among those that are joined, so nothing is left open on the line where the body starts. -/

namespace Bytelift

open Run Text

namespace Flow

def Test (flow : Flow) (i : Nat) : Prop := flow.Open i ∧ (flow.jump i).kind = .test

/-- What a test reads once it is joined to the one before it. -/
def joinText (connective : FlowM.Connective) (keyword text : String) : String :=
  replace (if connective = .and then FlowM.negate text else text) "if" keyword

def joinWords : List String := ["if", "\t||", "\t&&"]

def joined (flow : Flow) (connective : FlowM.Connective) (keyword : String) (i : Nat) : Flow :=
  (flow.revised (flow.jump i).start (joinText connective keyword)).retired i

/-- Some of the open tests have been joined, one after the other. -/
inductive Joins : Flow → Flow → Prop
  | none (flow : Flow) : Joins flow flow
  | more {flow result : Flow} {connective : FlowM.Connective} {keyword : String} {i : Nat}
      (hk : keyword ∈ joinWords) (hi : flow.Test i)
      (rest : Joins (flow.joined connective keyword i) result) : Joins flow result

/-- The braces around what a condition governs, with an else part or without. -/
inductive Bodied (flow : Flow) (condition : Jump) : Flow → Prop
  | plain {closed : Offset} (hc : closed ∈ flow.offsets) (hlt : condition.start.value < closed.value) :
      Bodied flow condition ((flow.revised condition.start (· ++ "\n\x7b")).closedAt closed)
  | split {past : Nat} {closed : Offset} (hp : flow.Open past) (hk : (flow.jump past).kind = .skip)
      (hs : (flow.jump past).start = condition.stop) (hc : closed ∈ flow.offsets)
      (hlt : (flow.jump past).start.value < closed.value) :
      Bodied flow condition ((((flow.revised condition.start (· ++ "\n\x7b")).revised
        (flow.jump past).start (· ++ "\n\x7d\nelse\n\x7b")).closedAt closed).retired past)

theorem Test.exit {flow : Flow} {i : Nat} (h : flow.Test i) : flow.Exit i := ⟨h.1, Or.inl h.2⟩

theorem Sound.test_of_mem {flow : Flow} (h : flow.Sound) {i : Nat}
    (hi : i ∈ (flow.table .test).values) : flow.Test i := (h.mem_values (by simp)).1 hi

@[simp] theorem revised_revised (flow : Flow) (o : Offset) (f g : String → String) :
    (flow.revised o f).revised o g = flow.revised o fun text => g (f text) := by
  unfold revised
  simp only [List.map_map]
  congr 1
  apply List.map_congr_left
  intro line _
  simp only [Function.comp, CodeLine.revised]
  split <;> simp_all

theorem Joins.onward {flow result : Flow} (h : Joins flow result) : Onward flow result := by
  induction h with
  | none => exact .refl _
  | more _ _ _ ih => exact ((onward_revised _ _ _).trans (onward_retired _ _)).trans ih

theorem Sound.joins {flow result : Flow} (h : flow.Sound) (hj : Joins flow result) : result.Sound := by
  induction hj with
  | none => exact h
  | more _ hi _ ih => exact ih ((h.revised _ _).retired hi.1.1)

/-- Nothing is opened. -/
theorem Joins.open_of {flow result : Flow} (h : Joins flow result) {i : Nat} (hi : result.Open i) :
    flow.Open i := by
  induction h with
  | none => exact hi
  | @more flow _ _ _ j _ hj _ ih => exact ((open_retired (by simpa using hj.1.1)).1 (ih hi)).1

theorem Bodied.kept {flow result : Flow} {condition : Jump} (h : flow.Bodied condition result)
    (hs : flow.Sound) : flow.Kept result := by
  cases h with
  | plain _ _ => exact (hs.kept.revised _ _).closedAt _
  | split hp _ _ _ _ => exact (((hs.kept.revised _ _).revised _ _).closedAt _).retired hp.1

end Flow

namespace FlowM

variable {flow : Flow}

/-! ## The last test of a condition -/

def testsAfter (flow : Flow) (i : Nat) : List Nat :=
  (flow.table .test).values.filter fun c => decide ((flow.jump i).start.value < (flow.jump c).start.value)

theorem length_testsAfter_lt {i next : Nat} (hm : next ∈ (flow.table .test).values)
    (hlt : (flow.jump i).start.value < (flow.jump next).start.value) :
    (testsAfter flow next).length < (testsAfter flow i).length := by
  have he : testsAfter flow next = (testsAfter flow i).filter fun c =>
      decide ((flow.jump next).start.value < (flow.jump c).start.value) := by
    unfold testsAfter
    rw [List.filter_filter]
    apply List.filter_congr
    intro c _
    by_cases h : (flow.jump next).start.value < (flow.jump c).start.value
    · have : (flow.jump i).start.value < (flow.jump c).start.value := by omega
      simp [h, this]
    · simp [h]
  rw [he, List.length_filter_lt_length_iff_exists]
  refine ⟨next, ?_, by simp⟩
  exact List.mem_filter.2 ⟨hm, by simpa using hlt⟩

theorem yields_followTests (h : flow.Sound) : ∀ (bound i : Nat), flow.Test i →
    (flow.jump i).start ≠ (flow.jump i).stop → (testsAfter flow i).length < bound →
    Yields (followTests bound i) flow fun chained result => result = flow ∧ flow.Test chained ∧
      (flow.jump chained).start ≠ (flow.jump chained).stop ∧
      (flow.jump i).start.value ≤ (flow.jump chained).start.value
  | 0, i, _, _, hb => absurd hb (by omega)
  | bound + 1, i, hi, hne, hb => by
    have hstay : flow = flow ∧ flow.Test i ∧ (flow.jump i).start ≠ (flow.jump i).stop ∧
        (flow.jump i).start.value ≤ (flow.jump i).start.value := ⟨rfl, hi, hne, Int.le_refl _⟩
    obtain ⟨hstart, hstop, hle, _⟩ := h.exit_aimed hi.exit
    simp only [followTests, yields_bind, yields_jump, yields_testAt?]
    cases ht : (flow.table .test).get? (flow.jump i).stop with
    | none => exact yields_pure.2 hstay
    | some next =>
      have hfiled := h.lookup.1 ht
      obtain ⟨ho, hk, hs⟩ := (h.filed _ _ _ (by simp)).1 hfiled
      -- the next test starts where this one goes, which is further on
      have hlt : (flow.jump i).start.value < (flow.jump next).start.value := by
        have hv : (flow.jump i).start.value ≠ (flow.jump i).stop.value := fun he =>
          hne (Offset.eq_of_value (h.ascending.numbers _ hstart) (h.ascending.numbers _ hstop) he)
        rw [hs]
        omega
      simp only [yields_bind, yields_jump]
      split
      · exact yields_pure.2 hstay
      · next hstop' =>
        simp only [Bool.or_eq_true, decide_eq_true_eq, not_or] at hstop'
        have hmem : next ∈ (flow.table .test).values := (h.mem_values (by simp)).2 ⟨ho, hk⟩
        have hb' := length_testsAfter_lt hmem hlt
        refine (yields_followTests h bound next ⟨ho, hk⟩ hstop'.2 (by omega)).mono ?_
        intro chained result hr
        obtain ⟨rfl, htest, hne', hle'⟩ := hr
        exact ⟨rfl, htest, hne', by omega⟩

theorem yields_latest {s : Flow} {is : List Nat} (hn : ∀ c ∈ is, (flow.jump c).start.isNumber)
    (hne : is ≠ []) : Yields (latest flow is) s fun found result => result = s ∧
      ∃ best ∈ is, found = some best ∧
        ∀ c ∈ is, (flow.jump c).start.value ≤ (flow.jump best).start.value := by
  cases is with
  | nil => exact absurd rfl hne
  | cons i is =>
    simp only [latest, yields_bind, yields_settled, yields_pure]
    -- the fold holds the latest of those it has seen
    suffices hgo : ∀ best, (flow.jump best).start.isNumber → ∃ found,
        is.foldlM (fun best c => do
          return if ← (flow.jump best).start.lt? (flow.jump c).start then c else best) best = some found ∧
        found ∈ best :: is ∧ ∀ c ∈ best :: is,
          (flow.jump c).start.value ≤ (flow.jump found).start.value by
      obtain ⟨found, he, hm, hall⟩ := hgo i (hn i (by simp))
      exact ⟨found, he, trivial, found, hm, rfl, hall⟩
    have hrest : ∀ c ∈ is, (flow.jump c).start.isNumber := fun c hc => hn c (by simp [hc])
    clear hn hne
    induction is with
    | nil =>
      intro best _
      exact ⟨best, rfl, by simp, by simp⟩
    | cons c is ih =>
      intro best hb
      have hc := hrest c (by simp)
      simp only [List.foldlM_cons, Offset.lt?_of_number hb hc, Option.bind_eq_bind, Option.bind_some,
        pure]
      have hgo := ih fun c hc => hrest c (by simp [hc])
      by_cases hlt : (flow.jump best).start.value < (flow.jump c).start.value
      · obtain ⟨found, he, hm, hall⟩ := hgo c hc
        have hcf := hall c (by simp)
        refine ⟨found, by simpa [hlt] using he, by simp [List.mem_cons.1 hm], ?_⟩
        intro d hd
        rcases List.mem_cons.1 hd with rfl | hd
        · omega
        · exact hall d hd
      · obtain ⟨found, he, hm, hall⟩ := hgo best hb
        have hbf := hall best (by simp)
        refine ⟨found, by simpa [hlt] using he, ?_, ?_⟩
        · rcases List.mem_cons.1 hm with rfl | hm
          · simp
          · simp [hm]
        · intro d hd
          rcases List.mem_cons.1 hd with rfl | hd
          · exact hbf
          · rcases List.mem_cons.1 hd with rfl | hd
            · omega
            · exact hall d (by simp [hd])

/-- A test that goes further on than it did is sound. -/
theorem moved_sound (h : flow.Sound) {i : Nat} (hi : flow.Test i) {stop b : Offset}
    (hs : stop ∈ flow.offsets) (hle : (flow.jump i).start.value ≤ stop.value) (hb : b ∈ flow.offsets)
    (hlt : stop.value < b.value) : (flow.moved i stop).Sound where
  toFiling := h.toFiling.moved hi.1.1 stop
  aimed := by
    intro j hj
    have ha := h.aimed j ((Flow.open_moved hi.1.1 stop).1 hj)
    change Flow.Aimed flow.offsets _
    rw [Flow.jump_moved hi.1.1]
    split
    · obtain ⟨hstart, _⟩ := h.exit_aimed hi.exit
      unfold Flow.Aimed
      simp only [hi.2]
      exact ⟨hstart, hs, hle, b, hb, hlt⟩
    · exact ha
  handlers := by
    intro o j hj
    have hh := h.handlers o j hj
    rw [Flow.jump_moved hi.1.1]
    split
    · next he =>
      subst he
      rw [hi.2] at hh
      cases hh.2.1
    · exact hh

/-- What the last test of a condition is like, when it has been told where to go. -/
structure Last (flow : Flow) (i last : Nat) (result : Flow) : Prop where
  kept : flow.Kept result
  test : result.Test last
  since : (flow.jump i).start.value ≤ (flow.jump last).start.value
  forward : (result.jump last).start.value < (result.jump last).stop.value
  told : result = flow ∨ flow.SkipAfterTest

theorem yields_chainEnd (h : flow.Sound) {i : Nat} (hi : flow.Test i)
    (hne : (flow.jump i).start ≠ (flow.jump i).stop) :
    Yields (chainEnd i) flow fun last result => result = flow ∧ flow.Test last ∧
      (flow.jump i).start.value ≤ (flow.jump last).start.value ∧
      (flow.jump last).start.value < (flow.jump last).stop.value := by
  have hbound : (testsAfter flow i).length < (flow.table .test).values.length + 2 := by
    have hle := List.length_filter_le (fun c =>
      decide ((flow.jump i).start.value < (flow.jump c).start.value)) (flow.table .test).values
    unfold testsAfter
    omega
  -- a test that goes elsewhere goes forward
  have hforward : ∀ t, flow.Test t → (flow.jump t).start ≠ (flow.jump t).stop →
      (flow.jump t).start.value < (flow.jump t).stop.value := by
    intro t ht hd
    obtain ⟨hs, he, hle, _⟩ := h.exit_aimed ht.exit
    have hv : (flow.jump t).start.value ≠ (flow.jump t).stop.value := fun hv =>
      hd (Offset.eq_of_value (h.ascending.numbers _ hs) (h.ascending.numbers _ he) hv)
    omega
  simp only [chainEnd, yields_bind, yields_openTests]
  refine (yields_followTests h _ i hi hne hbound).mono ?_
  intro chained result hr
  obtain ⟨hsame, hchained, hne', hle⟩ := hr
  subst hsame
  simp only [yields_jump, yields_skipAt?]
  cases hskip : (result.table .skip).get? (result.jump chained).stop with
  | none => exact yields_pure.2 ⟨rfl, hchained, hle, hforward chained hchained hne'⟩
  | some past =>
    obtain ⟨hpo, hpk, hps⟩ := (h.filed _ _ _ (by simp)).1 (h.lookup.1 hskip)
    have hmem : chained ∈ (result.table .test).values.filter fun c =>
        (result.jump c).stop = (result.jump past).start :=
      List.mem_filter.2 ⟨(h.mem_values (by simp)).2 hchained, by simp [hps]⟩
    simp only [testBefore, yields_bind, yields_jump, yields_get, yields_openTests]
    refine (yields_latest ?_ (List.ne_nil_of_mem hmem)).mono ?_
    · intro c hc
      have ht := h.test_of_mem (List.mem_filter.1 hc).1
      exact h.ascending.numbers _ (h.exit_aimed ht.exit).1
    · intro found same hr
      obtain ⟨rfl, last, hlast, rfl, hlatest⟩ := hr
      rw [yields_need]
      refine ⟨last, rfl, rfl, ?_⟩
      have hm := List.mem_filter.1 hlast
      have ht := h.test_of_mem hm.1
      have hstop : (same.jump last).stop = (same.jump past).start := by simpa using hm.2
      -- it goes to a line that makes a skip, so that is not its own
      have hapart : (same.jump last).start ≠ (same.jump last).stop := by
        rw [hstop]
        exact h.apart last past ht.1.1 hpo.1 ht.2 hpk
      have hbest := hlatest chained hmem
      exact ⟨ht, by omega, hforward last ht hapart⟩

theorem yields_stepOver (h : flow.Sound) {i last : Nat} (ht : flow.Test last)
    (hle : (flow.jump i).start.value ≤ (flow.jump last).start.value)
    (hlt : (flow.jump last).start.value < (flow.jump last).stop.value) :
    Yields (stepOver last) flow fun _ result => Last flow i last result := by
  obtain ⟨hstart, hstop, _, b, hb, hbeyond⟩ := h.exit_aimed ht.exit
  obtain ⟨next, hnext⟩ := h.ascending.exists_next hstart hstop hlt
  simp only [stepOver, yields_bind, yields_jump, yields_neighbour]
  refine ⟨next, Flow.neighbour_one h.ascending hnext, ?_⟩
  rw [yields_skipAt?]
  cases hskip : (flow.table .skip).get? next with
  | none => exact yields_pure.2 ⟨h.kept, ht, hle, hlt, Or.inl rfl⟩
  | some far =>
    obtain ⟨hfo, hfk, hfs⟩ := (h.filed _ _ _ (by simp)).1 (h.lookup.1 hskip)
    obtain ⟨_, hfstop, hfle, c, hc, hfbeyond⟩ := h.exit_aimed ⟨hfo, Or.inr hfk⟩
    have hlt' : (flow.jump last).start.value < (flow.jump far).stop.value := by
      have hgrows := hnext.lt h.ascending
      rw [← hfs] at hgrows
      omega
    have hmoved := moved_sound h ht hfstop (by omega) hc hfbeyond
    have hne : far ≠ last := by
      intro he
      rw [he, ht.2] at hfk
      cases hfk
    have hlen : far < (flow.moved last (flow.jump far).stop).jumps.length := by simpa using hfo.1
    simp only [yields_bind, yields_jump, yields_setStop]
    rw [yields_retire (hmoved.kinds far hlen)]
    exact
      { kept :=
          { offsets := rfl
            length := by simp
            kind := by simp [ht.1.1]
            start := by simp [ht.1.1]
            tests := Flow.keys_retired_sublist (flow.moved last (flow.jump far).stop) far
            sound := hmoved.retired hlen }
        test := by
          refine ⟨?_, by simpa [ht.1.1] using ht.2⟩
          rw [Flow.open_retired hlen, Flow.open_moved ht.1.1]
          exact ⟨ht.1, hne⟩
        since := hle
        forward := by simpa [Flow.jump_moved ht.1.1] using hlt'
        told := Or.inr ⟨last, far, ht.1, ht.2, hfo, hfk, hfs ▸ hnext⟩ }

theorem yields_lastTest (h : flow.Sound) {i : Nat} (hi : flow.Test i)
    (hne : (flow.jump i).start ≠ (flow.jump i).stop) :
    Yields (lastTest i) flow fun last result => Last flow i last result := by
  simp only [lastTest, yields_bind]
  refine (yields_chainEnd h hi hne).mono ?_
  intro last result hr
  obtain ⟨rfl, ht, hle, hlt⟩ := hr
  refine (yields_stepOver h ht hle hlt).mono ?_
  intro _ result hl
  exact yields_pure.2 hl

/-! ## Joining the tests -/

theorem yields_joinTest (h : flow.Sound) {i : Nat} (hi : flow.Test i) {connective : Connective}
    {keyword : String} {wanted : Unit → Flow → Prop} : Yields (joinTest connective keyword i) flow wanted ↔
      wanted () (flow.joined connective keyword i) := by
  have hstart := (h.exit_aimed hi.exit).1
  have hkind := h.kinds i hi.1.1
  simp only [joinTest]
  split
  · next hc =>
    simp only [invertTest, yields_bind, yields_jump]
    rw [yields_revise h hstart, Flow.jump_revised, yields_revise (h.revised _ _) hstart,
      yields_retire (by simpa using hkind), Flow.revised_revised]
    have hj : Flow.joinText connective keyword = fun text => replace (negate text) "if" keyword := by
      funext text
      simp [Flow.joinText, hc]
    rw [Flow.joined, hj]
  · next hc =>
    simp only [yields_bind, yields_jump]
    rw [yields_revise h hstart, yields_retire (by simpa using hkind)]
    have hj : Flow.joinText connective keyword = fun text => replace text "if" keyword := by
      funext text
      simp [Flow.joinText, hc]
    rw [Flow.joined, hj]

theorem yields_joinTests {known : Table Offset Connective} : ∀ (is : List Nat) (keyword : String)
    {flow : Flow}, flow.Sound → is.Nodup → (∀ i ∈ is, flow.Test i) → keyword ∈ Flow.joinWords →
      Yields (joinTests known keyword is) flow fun _ result => flow.Joins result ∧
        ∀ i ∈ is, (known.get? (flow.jump i).stop).isSome → ¬result.Open i
  | [], _, flow, _, _, _, _ => by simp [joinTests, Flow.Joins.none flow]
  | i :: is, keyword, flow, h, hd, hall, hk => by
    have hi := hall i (by simp)
    simp only [List.nodup_cons] at hd
    simp only [joinTests, yields_bind, yields_jump]
    cases hc : known.get? (flow.jump i).stop with
    | none =>
      refine (yields_joinTests is keyword h hd.2 (fun j hj => hall j (by simp [hj])) hk).mono ?_
      intro _ result hr
      refine ⟨hr.1, ?_⟩
      intro j hj hs
      rcases List.mem_cons.1 hj with rfl | hj
      · simp [hc] at hs
      · exact hr.2 j hj hs
    | some connective =>
      rw [yields_bind, yields_joinTest h hi]
      have hlen : i < (flow.revised (flow.jump i).start
        (Flow.joinText connective keyword)).jumps.length := hi.1.1
      refine (yields_joinTests is _ ((h.revised _ _).retired hlen) hd.2 ?_ ?_).mono ?_
      · intro j hj
        have htest := hall j (by simp [hj])
        refine ⟨(Flow.open_retired hlen).2 ⟨htest.1, ?_⟩, by simpa using htest.2⟩
        rintro rfl
        exact hd.1 hj
      · cases connective <;> simp [Flow.joinWords, Connective.sign]
      · intro _ result hr
        refine ⟨.more hk hi hr.1, ?_⟩
        intro j hj hs
        rcases List.mem_cons.1 hj with rfl | hj
        · intro hopen
          exact ((Flow.open_retired hlen).1 (hr.1.open_of hopen)).2 rfl
        · exact hr.2 j hj (by simpa using hs)

/-- Spreading adds to what is known and changes none of it. -/
theorem get?_spread {tests : List Nat} {offset : Offset} {connective : Connective} {o : Offset}
    {c : Connective} {known : Table Offset Connective} (hk : known.get? o = some c) :
    (spread flow tests offset connective known).1.get? o = some c := by
  unfold spread
  refine List.foldlRecOn (motive := fun acc : Table Offset Connective × List (Offset × Connective) =>
    acc.1.get? o = some c) tests _ hk ?_
  intro acc hacc i _
  dsimp only
  split
  · next hn =>
    have hne : (flow.jump i).start ≠ o := by
      rintro rfl
      simp [Table.contains_of_get? hacc] at hn
    rw [Table.get?_put, if_neg hne, hacc]
  · exact hacc

theorem get?_spreadAll {tests : List Nat} {o : Offset} {c : Connective} : ∀ (bound : Nat)
    (queue : List (Offset × Connective)) {known : Table Offset Connective}, known.get? o = some c →
      (spreadAll flow tests bound queue known).get? o = some c
  | 0, _, _, hk => by simpa [spreadAll] using hk
  | _ + 1, [], _, hk => by simpa [spreadAll] using hk
  | bound + 1, (offset, connective) :: queue, known, hk => by
    simp only [spreadAll]
    exact get?_spreadAll bound _ (get?_spread hk)

/-- A jump to the place past the body is a further demand. -/
theorem yields_connectives (h : flow.Sound) {tests : List Nat} {last : Nat} (ht : flow.Test last) :
    Yields (connectives tests last) flow fun known result => result = flow ∧
      known.get? (flow.jump last).stop = some .and := by
  obtain ⟨hstart, _, hle, b, hb, hlt⟩ := h.exit_aimed ht.exit
  obtain ⟨next, hnext⟩ := h.ascending.exists_next hstart hb (by omega)
  simp only [connectives, yields_bind, yields_jump, yields_neighbour, yields_get, yields_pure]
  refine ⟨next, Flow.neighbour_one h.ascending hnext, trivial, get?_spreadAll _ _ ?_⟩
  simp [Table.ofList, Table.putAll]

/-! ## The body -/

theorem yields_elseSkip? {o : Offset} {wanted : Option Nat → Flow → Prop} :
    Yields (elseSkip? o) flow wanted ↔ wanted (((flow.table .skip).get? o).filter fun past =>
      (flow.jump past).start ≠ (flow.jump past).stop) flow := by
  simp only [elseSkip?, yields_bind, yields_skipAt?]
  cases (flow.table .skip).get? o with
  | none => simp
  | some past =>
    simp only [yields_bind, yields_jump, yields_pure, Option.filter]
    by_cases he : (flow.jump past).start = (flow.jump past).stop <;> simp [he]

theorem yields_layOutBody (h : flow.Sound) {condition : Jump} (hs : condition.start ∈ flow.offsets)
    (he : condition.stop ∈ flow.offsets) (hlt : condition.start.value < condition.stop.value) :
    Yields (layOutBody condition) flow fun _ result => flow.Bodied condition result := by
  have hnumber := h.ascending.numbers
  simp only [layOutBody, yields_bind]
  rw [yields_append h hs, yields_elseSkip?]
  have hopen := h.revised condition.start (· ++ "\n\x7b")
  generalize hpast : ((flow.revised condition.start (· ++ "\n\x7b")).table .skip).get? condition.stop =
    found
  cases hf : found.filter fun past => ((flow.revised condition.start (· ++ "\n\x7b")).jump past).start ≠
      ((flow.revised condition.start (· ++ "\n\x7b")).jump past).stop with
  | none =>
    simp only [yields_bind]
    refine yields_closeBlock hopen (hnumber _ hs) he ?_
    intro closed hc hor
    rw [yields_pure]
    refine .plain hc ?_
    rcases hor with rfl | hor
    · exact hlt
    · exact hor
  | some past =>
    obtain ⟨hfound, hne⟩ := Option.filter_eq_some_iff.1 hf
    rw [hfound] at hpast
    obtain ⟨hpo, hpk, hps⟩ := (h.filed _ _ _ (by simp)).1 (h.lookup.1 hpast)
    obtain ⟨hpstart, hpstop, hple, _⟩ := h.exit_aimed ⟨hpo, Or.inr hpk⟩
    simp only [yields_bind, yields_jump, Flow.jump_revised]
    rw [yields_append hopen hpstart]
    refine yields_closeBlock (hopen.revised _ _) (hnumber _ hpstart) hpstop ?_
    intro closed hc hor
    rw [yields_retire (by simpa using h.kinds past hpo.1)]
    refine .split hpo hpk hps hc ?_
    rcases hor with rfl | hor
    · have hv : (flow.jump past).start.value ≠ (flow.jump past).stop.value := fun hv =>
        (of_decide_eq_true hne) (Offset.eq_of_value (hnumber _ hpstart) (hnumber _ hpstop) hv)
      omega
    · exact hor

/-! ## The whole conditional -/

theorem belongs?_eq {first last : Offset} (hf : first.isNumber) (hl : last.isNumber) {c : Jump}
    (hc : c.start.isNumber) : belongs? first last c =
      some (decide (first.value ≤ c.start.value ∧ c.start.value ≤ last.value ∧ c.start ≠ c.stop)) := by
  simp only [belongs?, Offset.le?_of_number hf hc, Offset.le?_of_number hc hl]
  by_cases h1 : first.value ≤ c.start.value <;> by_cases h2 : c.start.value ≤ last.value <;>
    simp [h1, h2]

/-- What becomes of the code when the conditional that a test begins is laid out. -/
inductive Conditional (flow : Flow) (i : Nat) : Flow → Prop
  | empty (he : (flow.jump i).start = (flow.jump i).stop) : Conditional flow i
      ((flow.revised (flow.jump i).start (replace · ")" ") \x7b\x7d\n")).retired i)
  | full {last : Nat} {told joined result : Flow} (hl : Last flow i last told) (hj : told.Joins joined)
      (hc : ¬joined.Open last) (hb : joined.Bodied (joined.jump last) result) : Conditional flow i result

theorem Conditional.kept {i : Nat} {result : Flow} (h : Conditional flow i result) (hs : flow.Sound)
    (hi : flow.Open i) : flow.Kept result := by
  cases h with
  | empty _ => exact (hs.kept.revised _ _).retired hi.1
  | full hl hj _ hb =>
    have hjoined := hl.kept.onward hj.onward (hl.kept.sound.joins hj)
    have hbody := hb.kept hjoined.sound
    exact ⟨hjoined.toFollows.trans hbody.toFollows, hbody.sound⟩

theorem yields_layOutTest (h : flow.Sound) {i : Nat} (hi : flow.Test i) :
    Yields (layOutTest i) flow fun _ result => Conditional flow i result := by
  have hstart := (h.exit_aimed hi.exit).1
  simp only [layOutTest, yields_bind, yields_jump, hi.2, ne_eq, not_true_eq_false, if_false]
  split
  · next he =>
    simp only [yields_bind]
    rw [yields_revise h hstart, yields_retire (by simpa using h.kinds i hi.1.1), yields_pure]
    exact .empty he
  · next hne =>
    simp only [yields_bind]
    refine (yields_lastTest h hi hne).mono ?_
    intro last told hl
    have hs := hl.kept.sound
    obtain ⟨hlstart, hlstop, _⟩ := hs.exit_aimed hl.test.exit
    have hnumber := hs.ascending.numbers
    have hi' : (flow.jump i).start.isNumber := h.ascending.numbers _ hstart
    have hfilter : (told.table .test).values.filterM
        (fun c => belongs? (flow.jump i).start (told.jump last).start (told.jump c)) =
          some ((told.table .test).values.filter fun c =>
            decide ((flow.jump i).start.value ≤ (told.jump c).start.value ∧
              (told.jump c).start.value ≤ (told.jump last).start.value ∧
              (told.jump c).start ≠ (told.jump c).stop)) := by
      refine filterM_of_some fun c hc => ?_
      have hcs := (hs.exit_aimed (hs.test_of_mem hc).exit).1
      exact belongs?_eq hi' (hnumber _ hlstart) (hnumber _ hcs)
    simp only [yields_get, yields_openTests, yields_settled]
    refine ⟨_, hfilter, ?_⟩
    generalize htests : (told.table .test).values.filter _ = tests
    -- the last test is one of those that are joined
    have hmem : last ∈ tests := by
      rw [← htests, List.mem_filter, hs.mem_values (by simp)]
      have hsince := hl.since
      rw [← hl.kept.start last] at hsince
      refine ⟨hl.test, ?_⟩
      simp only [decide_eq_true_eq]
      refine ⟨hsince, Int.le_refl _, ?_⟩
      intro he
      have hforward := hl.forward
      rw [he] at hforward
      omega
    have hopen : ∀ c ∈ tests, told.Test c := by
      intro c hc
      rw [← htests] at hc
      exact hs.test_of_mem (List.mem_filter.1 hc).1
    have hnodup : tests.Nodup := htests ▸ (hs.nodup_values (by simp)).filter _
    refine (yields_connectives hs hl.test).mono ?_
    intro known same hk
    obtain ⟨rfl, hknown⟩ := hk
    refine (yields_joinTests tests "if" hs hnodup hopen (by simp [Flow.joinWords])).mono ?_
    intro _ joined hj
    obtain ⟨hjoins, hclosed⟩ := hj
    have hon := hjoins.onward
    rw [yields_jump]
    refine (yields_layOutBody (hs.joins hjoins) ?_ ?_ ?_).mono ?_
    · rw [hon.start, hon.offsets]
      exact hlstart
    · rw [hon.stop, hon.offsets]
      exact hlstop
    · rw [hon.start, hon.stop]
      exact hl.forward
    · intro _ result hb
      rw [yields_pure]
      exact .full hl hjoins (hclosed last hmem (by simp [hknown])) hb

theorem yields_handleTest (h : flow.Sound) {i : Nat} (hi : flow.Test i) :
    Yields (handleTest i) flow fun _ result => flow.Kept result ∧
      (¬flow.SkipAfterTest → Conditional flow i result) := by
  simp only [handleTest, yields_bind]
  refine (yields_layOutComparison h hi.1 hi.2).mono ?_
  intro taken middle hr
  obtain ⟨hkept, hdeclined, htaken⟩ := hr
  split
  · next ht =>
    rw [yields_pure]
    exact ⟨hkept, fun hn => absurd (htaken ht) hn⟩
  · next hf =>
    obtain rfl := hdeclined (by simpa using hf)
    rw [yields_bind]
    refine (yields_layOutTest h hi).mono ?_
    intro _ result hc
    rw [yields_pure]
    exact ⟨hc.kept h hi.1, fun _ => hc⟩

theorem yields_isIdle (h : flow.Sound) {i : Nat} (hi : flow.Exit i) :
    Yields (isIdle i) flow fun _ result => result = flow := by
  obtain ⟨hstart, _, hle, b, hb, hlt⟩ := h.exit_aimed hi
  obtain ⟨next, hnext⟩ := h.ascending.exists_next hstart hb (by omega)
  simp only [isIdle, yields_bind, yields_jump]
  split
  · exact yields_pure.2 rfl
  · simp only [yields_bind, yields_neighbour, yields_pure]
    exact ⟨next, Flow.neighbour_one h.ascending hnext, trivial⟩

end FlowM

end Bytelift
