import Bytelift.Proofs.Wiring
import Mathlib.Data.Finset.Max

/-! How the tests of a condition are joined. What a jump to an offset means is spread from the end of the condition
back over the tests that go there, until no test is left; then each test is joined to the one before it by what
is said of the place that it goes to. -/

namespace Bytelift

open Run Text Instruction

namespace FlowM

/-! ## What is said of the tests -/

def learn (offset : Offset) (connective : Connective)
    (acc : Table Offset Connective × List (Offset × Connective)) (a : Jump) :
    Table Offset Connective × List (Offset × Connective) :=
  if a.stop = offset && !acc.1.contains a.start then
    (acc.1.put a.start connective.other, acc.2 ++ [(a.start, connective.other)])
  else acc

def unsaid (js : List Jump) (known : Table Offset Connective) : Nat :=
  (js.filter fun a => !known.contains a.start).length

variable {flow : Flow} {js left : List Jump} {means : Offset → Connective} {known : Table Offset Connective}
  {queue found : List (Offset × Connective)} {offset : Offset} {connective : Connective}

def spreadOver (js : List Jump) : Nat → List (Offset × Connective) → Table Offset Connective → Table Offset Connective
  | 0, _, known => known
  | _ + 1, [], known => known
  | bound + 1, (offset, connective) :: queue, known =>
    spreadOver js bound (queue ++ (js.foldl (learn offset connective) (known, [])).2)
      (js.foldl (learn offset connective) (known, [])).1

theorem spreadAll_eq (tests : List Nat) : ∀ (bound : Nat) (queue : List (Offset × Connective))
    (known : Table Offset Connective),
    spreadAll flow tests bound queue known = spreadOver (tests.map flow.jump) bound queue known
  | 0, _, _ => by simp [spreadAll, spreadOver]
  | _ + 1, [], _ => by simp [spreadAll, spreadOver]
  | bound + 1, (offset, connective) :: queue, known => by
    have hspread : spread flow tests offset connective known =
        (tests.map flow.jump).foldl (learn offset connective) (known, []) := by
      rw [List.foldl_map]
      rfl
    rw [spreadAll, hspread]
    exact spreadAll_eq tests bound _ _

theorem contains_put (o b : Offset) (c : Connective) :
    (known.put b c).contains o = (decide (b = o) || known.contains o) := by
  rw [Table.contains_eq_isSome, Table.contains_eq_isSome, Table.get?_put]
  by_cases he : b = o <;> simp [he]

theorem unsaid_put {a : Jump} (ha : a ∈ js) (hn : known.contains a.start = false) (c : Connective) :
    unsaid js (known.put a.start c) < unsaid js known := by
  have hfewer : js.filter (fun b => !(known.put a.start c).contains b.start) =
      (js.filter fun b => !known.contains b.start).filter
        fun b => decide (a.start ≠ b.start) := by
    rw [List.filter_filter]
    refine List.filter_congr fun b _ => ?_
    rw [contains_put, Bool.not_or, decide_not]
  rw [unsaid, unsaid, hfewer, List.length_filter_lt_length_iff_exists]
  exact ⟨a, List.mem_filter.2 ⟨ha, by simp [hn]⟩, by simp⟩

/-- What is right at each point of the spreading: the tests that are known are known rightly, the queue says what is
right of the tests that go to it, and every test is known, or goes to what is queued, or to a test that is not known.
Some tests are still to be looked at for the offset that was queued last. -/
structure Spreading (js : List Jump) (means : Offset → Connective) (known : Table Offset Connective)
    (queue : List (Offset × Connective)) (offset : Offset) (connective : Connective) (left : List Jump) : Prop where
  right : ∀ a ∈ js, ∀ c, known.get? a.start = some c → c = means a.start
  queued : ∀ e ∈ queue, ∀ a ∈ js, a.stop = e.1 →
    known.contains a.start = true ∨ e.2.other = means a.start
  current : ∀ a ∈ left, a.stop = offset →
    known.contains a.start = true ∨ connective.other = means a.start
  reached : ∀ a ∈ js, known.contains a.start = true ∨ (∃ e ∈ queue, e.1 = a.stop) ∨
    (a.stop = offset ∧ a ∈ left) ∨
    ∃ b ∈ js, b.start = a.stop ∧ known.contains b.start = false

/-- Of a test that goes to another the opposite is said. -/
def Opposed (js : List Jump) (means : Offset → Connective) : Prop :=
  ∀ a ∈ js, ∀ b ∈ js, a.stop = b.start →
    means a.start = (means b.start).other

namespace Spreading

/-- What one more test changes. -/
theorem learn {a : Jump} (h : Spreading js means known queue offset connective (a :: left)) (ha : a ∈ js)
    (hmeans : Opposed js means) :
    Spreading js means (FlowM.learn offset connective (known, queue) a).1
      (FlowM.learn offset connective (known, queue) a).2 offset connective left := by
  unfold FlowM.learn
  split
  · next hnew =>
    simp only [Bool.and_eq_true, decide_eq_true_eq, Bool.not_eq_true'] at hnew
    obtain ⟨hstop, hunknown⟩ := hnew
    have hright : connective.other = means a.start := by
      refine (h.current a (by simp) hstop).resolve_left ?_
      simp [hunknown]
    have hmore : ∀ o, known.contains o = true →
        (known.put a.start connective.other).contains o = true := by
      intro o ho
      simp [contains_put, ho]
    refine ⟨?_, ?_, ?_, ?_⟩
    · intro b hb c hc
      rw [Table.get?_put] at hc
      split at hc
      · next he => rw [← he, ← hright, Option.some.inj hc]
      · exact h.right b hb c hc
    · intro e he b hb hgoes
      rcases List.mem_append.1 he with he | he
      · exact (h.queued e he b hb hgoes).imp_left (hmore _)
      · obtain rfl := List.mem_singleton.1 he
        exact Or.inr (by rw [hmeans b hb a ha hgoes, ← hright])
    · intro b hb hgoes
      exact (h.current b (List.mem_cons_of_mem a hb) hgoes).imp_left (hmore _)
    · intro b hb
      rcases h.reached b hb with hknown | ⟨e, he, hgoes⟩ | ⟨hgoes, hleft⟩ | ⟨d, hd, hgoes, hopen⟩
      · exact Or.inl (hmore _ hknown)
      · exact Or.inr (Or.inl ⟨e, List.mem_append_left _ he, hgoes⟩)
      · rcases List.mem_cons.1 hleft with rfl | hleft
        · exact Or.inl (by simp [contains_put])
        · exact Or.inr (Or.inr (Or.inl ⟨hgoes, hleft⟩))
      · by_cases he : a.start = d.start
        · exact Or.inr (Or.inl ⟨_, List.mem_append_right _ (List.mem_singleton.2 rfl), he.trans hgoes⟩)
        · exact Or.inr (Or.inr (Or.inr ⟨d, hd, hgoes, by simp [contains_put, he, hopen]⟩))
  · next hold =>
    refine ⟨h.right, h.queued, fun b hb => h.current b (List.mem_cons_of_mem a hb), fun b hb => ?_⟩
    rcases h.reached b hb with hknown | hqueued | ⟨hgoes, hleft⟩ | hopen
    · exact Or.inl hknown
    · exact Or.inr (Or.inl hqueued)
    · rcases List.mem_cons.1 hleft with rfl | hleft
      · exact Or.inl (by simpa [hgoes] using hold)
      · exact Or.inr (Or.inr (Or.inl ⟨hgoes, hleft⟩))
    · exact Or.inr (Or.inr (Or.inr hopen))

/-- One offset is done when all tests have been looked at. -/
theorem foldl_learn (hmeans : Opposed js means) : ∀ (left : List Jump)
    {acc : Table Offset Connective × List (Offset × Connective)},
    Spreading js means acc.1 acc.2 offset connective left → (∀ a ∈ left, a ∈ js) →
    Spreading js means (left.foldl (FlowM.learn offset connective) acc).1
      (left.foldl (FlowM.learn offset connective) acc).2 offset connective []
  | [], _, h, _ => h
  | a :: left, acc, h, hin =>
    foldl_learn hmeans left (h.learn (hin a (by simp)) hmeans) fun b hb => hin b (List.mem_cons_of_mem a hb)

/-- The next offset of the queue is looked at. -/
theorem pop (h : Spreading js means known ((offset, connective) :: queue) offset' connective' []) :
    Spreading js means known queue offset connective js where
  right := h.right
  queued e he := h.queued e (List.mem_cons_of_mem _ he)
  current a ha hgoes := h.queued (offset, connective) (by simp) a ha hgoes
  reached a ha := by
    rcases h.reached a ha with hknown | ⟨e, he, hgoes⟩ | ⟨_, hleft⟩ | hopen
    · exact Or.inl hknown
    · rcases List.mem_cons.1 he with rfl | he
      · exact Or.inr (Or.inr (Or.inl ⟨hgoes.symm, ha⟩))
      · exact Or.inr (Or.inl ⟨e, he, hgoes⟩)
    · cases hleft
    · exact Or.inr (Or.inr (Or.inr hopen))

/-- When nothing is queued any more, all tests are known, since they go forward. -/
theorem complete (h : Spreading js means known [] offset connective [])
    (hforward : ∀ a ∈ js, a.start.value < a.stop.value) :
    ∀ a ∈ js, known.get? a.start = some (means a.start) := by
  have hall : ∀ a ∈ js, known.contains a.start = true := by
    by_contra hsome
    push Not at hsome
    obtain ⟨a, ha, hunknown⟩ := hsome
    -- of the tests that are not known, the last one goes to a test that is not known either
    obtain ⟨m, hm, hlast⟩ := (js.filter fun a => !known.contains a.start).toFinset.exists_max_image
      (fun a => a.start.value) ⟨a, by simpa [ha] using hunknown⟩
    simp only [List.mem_toFinset, List.mem_filter, Bool.not_eq_true'] at hm hlast
    rcases h.reached m hm.1 with hknown | ⟨e, he, _⟩ | ⟨_, hleft⟩ | ⟨b, hb, hgoes, hopen⟩
    · rw [hm.2] at hknown
      cases hknown
    · cases he
    · cases hleft
    · have hlater := hforward m hm.1
      rw [← hgoes] at hlater
      exact absurd (hlast b ⟨hb, hopen⟩) (Int.not_le.2 hlater)
  intro a ha
  have hknown := hall a ha
  rw [Table.contains_eq_isSome] at hknown
  obtain ⟨c, hc⟩ := Option.isSome_iff_exists.1 hknown
  rw [hc, h.right a ha c hc]

end Spreading

theorem foldl_learn_append (queue : List (Offset × Connective)) : ∀ (left : List Jump) (known : Table Offset Connective)
    (found : List (Offset × Connective)), left.foldl (learn offset connective) (known, queue ++ found) =
      ((left.foldl (learn offset connective) (known, found)).1,
        queue ++ (left.foldl (learn offset connective) (known, found)).2)
  | [], _, _ => rfl
  | a :: left, known, found => by
    have hstep : learn offset connective (known, queue ++ found) a =
        ((learn offset connective (known, found) a).1, queue ++ (learn offset connective (known, found) a).2) := by
      unfold learn
      dsimp only
      split <;> simp
    rw [List.foldl_cons, List.foldl_cons, hstep, foldl_learn_append queue left]

/-- What is new makes the number of the other tests smaller. -/
theorem length_foldl_learn : ∀ (left : List Jump) (acc : Table Offset Connective × List (Offset × Connective)),
    (∀ a ∈ left, a ∈ js) → (left.foldl (learn offset connective) acc).2.length +
      unsaid js (left.foldl (learn offset connective) acc).1 ≤ acc.2.length + unsaid js acc.1
  | [], _, _ => le_rfl
  | a :: left, acc, hin => by
    refine (length_foldl_learn left _ fun b hb => hin b (List.mem_cons_of_mem a hb)).trans ?_
    unfold learn
    split
    · next hnew =>
      simp only [Bool.and_eq_true, Bool.not_eq_true'] at hnew
      have hlt := unsaid_put (hin a (by simp)) hnew.2 connective.other
      dsimp only
      rw [List.length_append, List.length_singleton]
      omega
    · exact le_rfl

/-- The tests are known rightly when the spreading ends. -/
theorem get?_spreadOver (hmeans : Opposed js means)
    (hforward : ∀ a ∈ js, a.start.value < a.stop.value) : ∀ (bound : Nat)
    {known : Table Offset Connective} {queue : List (Offset × Connective)} {offset : Offset} {connective : Connective},
    Spreading js means known queue offset connective [] → queue.length + unsaid js known ≤ bound →
    ∀ a ∈ js, (spreadOver js bound queue known).get? a.start = some (means a.start)
  | 0, _, [], _, _, h, _ => h.complete hforward
  | 0, _, _ :: _, _, _, _, hle => by simp at hle
  | _ + 1, _, [], _, _, h, _ => h.complete hforward
  | bound + 1, known, (o, c) :: queue, _, _, h, hle => by
    have hspread := @Spreading.foldl_learn js means o c hmeans js (known, queue) h.pop fun a ha => ha
    have hfound := @foldl_learn_append o c queue js known []
    have hlength := @length_foldl_learn js o c js (known, []) fun a ha => ha
    rw [List.append_nil] at hfound
    rw [hfound] at hspread
    refine fun a ha => get?_spreadOver hmeans hforward bound hspread ?_ a ha
    dsimp only
    rw [List.length_append]
    rw [List.length_cons] at hle
    dsimp only [List.length_nil] at hlength
    omega

theorem start_of_mem_foldl_learn : ∀ (left : List Jump) (acc : Table Offset Connective × List (Offset × Connective)),
    ∀ e ∈ (left.foldl (learn offset connective) acc).2, e ∈ acc.2 ∨ ∃ a ∈ left, a.start = e.1
  | [], _, _, he => Or.inl he
  | a :: left, acc, e, he => by
    rcases start_of_mem_foldl_learn left _ e he with hold | ⟨b, hb, hstart⟩
    · unfold learn at hold
      split at hold
      · rcases List.mem_append.1 hold with hold | hnew
        · exact Or.inl hold
        · rw [List.mem_singleton.1 hnew]
          exact Or.inr ⟨a, by simp, rfl⟩
      · exact Or.inl hold
    · exact Or.inr ⟨b, List.mem_cons_of_mem a hb, hstart⟩

/-- What is said of the tests of a condition, if each of them goes past the body or to another of them. A jump past
the body makes a further demand, unless the body is one line long: then the same offset is that of the body, and a
jump there is taken for an alternative. -/
structure Meaning (js : List Jump) (body past : Offset) (means : Offset → Connective) : Prop where
  forward : ∀ a ∈ js, a.start.value < a.stop.value
  goes : ∀ a ∈ js, a.stop = past ∨ ∃ b ∈ js, b.start = a.stop
  apart : ∀ a ∈ js, a.start ≠ body ∧ a.start ≠ past
  opposed : Opposed js means
  ends : ∀ a ∈ js, a.stop = past → means a.start = if body = past then .and else .or

namespace Meaning

variable {body past : Offset}

/-- Nothing is said of the tests at first. -/
theorem unknown (h : Meaning js body past means) {a : Jump} (ha : a ∈ js) :
    (Table.ofList [(body, Connective.or), (past, Connective.and)]).get? a.start = none := by
  obtain ⟨hbody, hpast⟩ := h.apart a ha
  have hempty : ({} : Table Offset Connective).get? a.start = none := rfl
  simp [Table.ofList, Table.putAll, Ne.symm hbody, Ne.symm hpast, hempty]

/-- Every test goes past the body, or to a test that is not known at first. -/
theorem goes_unknown (h : Meaning js body past means) {a : Jump} (ha : a ∈ js) :
    a.stop = past ∨ ∃ b ∈ js, b.start = a.stop ∧
      (Table.ofList [(body, Connective.or), (past, Connective.and)]).contains b.start = false := by
  refine (h.goes a ha).imp_right fun hsome => ?_
  obtain ⟨b, hb, hgoes⟩ := hsome
  refine ⟨b, hb, hgoes, ?_⟩
  rw [Table.contains_eq_isSome, h.unknown hb]
  rfl

/-- A body of several lines: the spreading starts from past the body. -/
theorem spreading_long (h : Meaning js body past means) (hne : body ≠ past) :
    Spreading js means (Table.ofList [(body, Connective.or), (past, Connective.and)])
      [(body, .or), (past, .and)] past .and [] where
  right a ha c hc := by
    rw [h.unknown ha] at hc
    cases hc
  queued e he a ha hgoes := by
    simp only [List.mem_cons, List.not_mem_nil, or_false] at he
    rcases he with rfl | rfl
    · rcases h.goes a ha with hpast | ⟨b, hb, hb'⟩
      · exact absurd (hgoes.symm.trans hpast) hne
      · exact absurd (hb'.trans hgoes) (h.apart b hb).1
    · exact Or.inr (by rw [h.ends a ha hgoes, if_neg hne]; rfl)
  current a ha := by cases ha
  reached a ha := by
    rcases h.goes_unknown ha with hpast | hopen
    · exact Or.inr (Or.inl ⟨(past, .and), by simp, hpast.symm⟩)
    · exact Or.inr (Or.inr (Or.inr hopen))

/-- A body of one line: the tests that go past it are looked at first, and not again when the same offset comes up
a second time. -/
theorem spreading_short (h : Meaning js past past means) :
    Spreading js means (js.foldl (learn past .or)
        (Table.ofList [(past, Connective.or), (past, Connective.and)], [(past, .and)])).1
      (js.foldl (learn past .or)
        (Table.ofList [(past, Connective.or), (past, Connective.and)], [(past, .and)])).2 past .or [] := by
  have hstart : Spreading js means (Table.ofList [(past, Connective.or), (past, Connective.and)]) [] past .or js :=
    { right := by
        intro a ha c hc
        rw [h.unknown ha] at hc
        cases hc
      queued := by simp
      current := by
        intro a ha hgoes
        exact Or.inr (by rw [h.ends a ha hgoes, if_pos rfl]; rfl)
      reached := by
        intro a ha
        rcases h.goes_unknown ha with hpast | hopen
        · exact Or.inr (Or.inr (Or.inl ⟨hpast, ha⟩))
        · exact Or.inr (Or.inr (Or.inr hopen)) }
  have hdone := @Spreading.foldl_learn js means past .or h.opposed js (_, []) hstart fun a ha => ha
  have hqueue := @foldl_learn_append past .or [(past, .and)] js
    (Table.ofList [(past, Connective.or), (past, Connective.and)]) []
  rw [List.append_nil] at hqueue
  rw [hqueue]
  refine ⟨hdone.right, ?_, by simp, ?_⟩
  · intro e he a ha hgoes
    rcases List.mem_cons.1 he with rfl | he
    · -- what is queued besides are js
      refine Or.inl ?_
      rcases hdone.reached a ha with hknown | ⟨e, he, hgoes'⟩ | ⟨_, hleft⟩ | ⟨b, hb, hgoes', _⟩
      · exact hknown
      · rcases start_of_mem_foldl_learn js _ e he with hnone | ⟨b, hb, hb'⟩
        · cases hnone
        · exact absurd (hb'.trans (hgoes'.trans hgoes)) (h.apart b hb).2
      · cases hleft
      · exact absurd (hgoes'.trans hgoes) (h.apart b hb).2
    · exact hdone.queued e he a ha hgoes
  · intro a ha
    rcases hdone.reached a ha with hknown | ⟨e, he, hgoes⟩ | ⟨_, hleft⟩ | hopen
    · exact Or.inl hknown
    · exact Or.inr (Or.inl ⟨e, List.mem_cons_of_mem _ he, hgoes⟩)
    · cases hleft
    · exact Or.inr (Or.inr (Or.inr hopen))

/-- What is said of the tests when all are known. -/
theorem get?_eq (h : Meaning js body past means) : ∀ a ∈ js,
    (spreadOver js (js.length + 2) [(body, .or), (past, .and)]
      (Table.ofList [(body, .or), (past, .and)])).get? a.start = some (means a.start) := by
  have hfew : ∀ known, unsaid js known ≤ js.length := fun known => List.length_filter_le _ _
  by_cases hne : body = past
  · subst hne
    have hqueue := @foldl_learn_append body .or [(body, .and)] js (Table.ofList [(body, .or), (body, .and)]) []
    have hlength := @length_foldl_learn js body .or js
      (Table.ofList [(body, .or), (body, .and)], [(body, .and)]) fun a ha => ha
    have hle := hfew (Table.ofList [(body, .or), (body, .and)])
    have hall := get?_spreadOver h.opposed h.forward (js.length + 1) h.spreading_short (hlength.trans ?_)
    · rw [List.append_nil] at hqueue
      rw [hqueue] at hall
      exact hall
    · simp only [List.length_cons, List.length_nil]
      omega
  · refine get?_spreadOver h.opposed h.forward _ (h.spreading_long hne) ?_
    have hle := hfew (Table.ofList [(body, .or), (past, .and)])
    simp only [List.length_cons, List.length_nil]
    omega

end Meaning

/-- What is said of the places that the tests of a condition go to. -/
theorem yields_connectives_means {tests : List Nat} {body : Offset} {last : Nat} (hs : flow.Sound)
    (hb : Adjacent flow.offsets (flow.jump last).start body)
    (h : Meaning (tests.map flow.jump) body (flow.jump last).stop means) :
    Yields (connectives tests last) flow fun known result => result = flow ∧ ∀ j ∈ tests.map flow.jump,
      known.get? j.stop = some (if j.stop = (flow.jump last).stop then .and else means j.stop) := by
  simp only [connectives, yields_bind, yields_jump, yields_neighbour, yields_get, yields_pure]
  refine ⟨body, Flow.neighbour_one hs.ascending hb, trivial, fun j hj => ?_⟩
  by_cases hpast : j.stop = (flow.jump last).stop
  · rw [if_pos hpast, hpast]
    exact get?_spreadAll _ _ (by simp [Table.ofList, Table.putAll])
  · obtain ⟨k, hk, hgoes⟩ := (h.goes j hj).resolve_left hpast
    rw [if_neg hpast, ← hgoes, spreadAll_eq, ← List.length_map flow.jump]
    exact h.get?_eq k hk

end FlowM

/-! ## Joining the tests -/

/-- A test of a condition: where it stops, and what is said of that place. -/
structure Joint where
  test : Comparison
  stop : Offset
  connective : FlowM.Connective

namespace Joint

variable {flow : Flow} {before after : List CodeLine} {rest : List Jump} {handlers : List (Offset × Offset)}
  {known : Table Offset FlowM.Connective}

def jump (t : Joint) : Jump := t.test.testJump t.stop

def code (t : Joint) : List CodeLine := t.test.code

/-- The lines of some tests, joined, the first of them by a keyword. -/
def joined : String → List Joint → List CodeLine
  | _, [] => []
  | keyword, t :: ts => asRead t.test.lines ++
      t.test.jump.reading (Flow.joinText t.connective keyword (textOf t.test.jump)) ::
      joined ("\t" ++ t.connective.sign) ts

theorem yields_joinTests : ∀ (ts : List Joint) {keyword : String} {flow : Flow} {before : List CodeLine}
    {is : List Nat}, flow.Stage (before ++ (asRead (ts.flatMap code) ++ after)) (ts.map jump ++ rest) handlers →
    List.Forall₂ flow.OpenAs is (ts.map jump) → (∀ t ∈ ts, known.get? t.stop = some t.connective) →
    Yields (FlowM.joinTests known keyword is) flow fun _ result => flow.Keeps result rest ∧
      (∀ k, (result.jump k).stop = (flow.jump k).stop) ∧ result.Stage (before ++ (joined keyword ts ++ after)) rest
        handlers
  | [], keyword, flow, before, is, h, his, _ => by
    cases his
    rw [FlowM.joinTests, yields_pure]
    exact ⟨⟨(Flow.Onward.refl flow).toFollows, fun i hi _ => ⟨hi, rfl⟩⟩, fun _ => rfl, h⟩
  | t :: ts, keyword, flow, before, is, h, his, hk => by
    obtain ⟨i, later, hi, hlater, rfl⟩ := List.forall₂_cons_right_iff.1 his
    have hstage : flow.Stage ((before ++ asRead t.test.lines) ++ t.test.jump.reading (textOf t.test.jump) ::
        (asRead (ts.flatMap code) ++ after)) (t.jump :: (ts.map jump ++ rest)) handlers := by
      simpa [code, Comparison.code] using h
    have hwritten := hstage.revised (Flow.joinText t.connective keyword)
    have hjoined := hwritten.retired hi.1 hi.2
    have hkept := (Flow.Stage.keeps_revised flow t.test.jump.offset (Flow.joinText t.connective keyword) _).trans
      (hwritten.keeps_retired hi.1 hi.2) (List.Subset.refl _)
    have hstart : (flow.jump i).start = t.test.jump.offset := by rw [hi.2]; rfl
    simp only [FlowM.joinTests, yields_bind, FlowM.yields_jump]
    rw [show known.get? (flow.jump i).stop = some t.connective by rw [hi.2]; exact hk t (by simp)]
    simp only [yields_bind]
    rw [FlowM.yields_joinTest h.sound ⟨hi.1, by rw [hi.2]; rfl⟩, Flow.joined, hstart]
    have hmore : ((flow.revised t.test.jump.offset (Flow.joinText t.connective keyword)).retired i).Stage
        ((before ++ (asRead t.test.lines ++ [t.test.jump.reading
          (Flow.joinText t.connective keyword (textOf t.test.jump))])) ++
          (asRead (ts.flatMap code) ++ after)) (ts.map jump ++ rest) handlers := by
      simpa using hjoined
    refine (yields_joinTests ts hmore (hkept.openAs hlater fun j hj => List.mem_append_left _ hj)
      fun u hu => hk u (List.mem_cons_of_mem t hu)).mono fun _ result hresult => ?_
    obtain ⟨hkeeps, hstops, hresult⟩ := hresult
    refine ⟨hkept.trans hkeeps (List.subset_append_right _ _), fun k => ?_, by simpa [joined] using hresult⟩
    rw [hstops, Flow.stop_retired, Flow.jump_revised]

end Joint

/-! ## The body -/

namespace Flow.Stage

variable {flow : Flow} {before middle other after : List CodeLine} {test gate close : CodeLine} {condition : Jump}
  {rest : List Jump} {handlers : List (Offset × Offset)}

/-- A body without an else part. -/
theorem yields_layOutBody_plain (h : flow.Stage (before ++ test :: (middle ++ close :: after)) rest handlers)
    (hstart : condition.start = test.offset) (hclose : closing handlers test.offset condition.stop = close.offset)
    (hno : ∀ j ∈ rest, j.kind = .skip → j.start ≠ condition.stop) :
    Yields (FlowM.layOutBody condition) flow fun _ result => flow.Keeps result rest ∧
      result.Stage (before ++ test.reading (test.rendered ++ "\n\x7b") ::
        (middle ++ close.reading (closeText close.rendered) :: after)) rest handlers := by
  simp only [FlowM.layOutBody, yields_bind]
  refine h.yields_append hstart fun opened hopening hopened => ?_
  rw [FlowM.yields_elseSkip?, hopened.lookup_none (by simp) hno]
  simp only [Option.filter_none, yields_bind]
  have hbody : opened.Stage ((before ++ test.reading (test.rendered ++ "\n\x7b") :: middle) ++ close :: after) rest
    handlers := by
    simpa using hopened
  have hnumber : test.offset.isNumber := h.ascending.numbers _ (by simp)
  refine hbody.yields_closeBlock (hstart ▸ hnumber) (by rw [hstart]; exact hclose) fun result hclosing hclosed => ?_
  rw [yields_pure]
  exact ⟨hopening.trans hclosing (List.Subset.refl _), by simpa using hclosed⟩

/-- A body with an else part, which the skip at its end goes past. -/
theorem yields_layOutBody_split
    (h : flow.Stage (before ++ test :: (middle ++ gate :: (other ++ close :: after)))
      (skipJump gate close.offset :: rest) [])
    (hstart : condition.start = test.offset) (hstop : condition.stop = gate.offset) :
    Yields (FlowM.layOutBody condition) flow fun _ result => flow.Keeps result rest ∧
      result.Stage (before ++ test.reading (test.rendered ++ "\n\x7b") ::
        (middle ++ gate.reading (gate.rendered ++ "\n\x7d\nelse\n\x7b") ::
          (other ++ close.reading (closeText close.rendered) :: after))) rest [] := by
  have hlt : gate.offset.value < close.offset.value := by
    have hasc : Ascending ((before.map (·.offset) ++ test.offset :: middle.map (·.offset)) ++ gate.offset ::
        (other.map (·.offset) ++ close.offset :: after.map (·.offset))) := by simpa using h.ascending
    exact hasc.lt_of_split (by simp)
  have hne : gate.offset ≠ close.offset := Offset.ne_of_lt hlt
  simp only [FlowM.layOutBody, yields_bind]
  refine h.yields_append hstart fun opened hopening hopened => ?_
  obtain ⟨past, hpast, hjump, hfound⟩ := hopened.lookup (List.mem_cons_self (a := skipJump gate close.offset))
    (by simp [skipJump])
  have hskip : (opened.table .skip).get? condition.stop = some past := by
    rw [hstop]
    exact hfound
  have hgoes : ((opened.table .skip).get? condition.stop).filter
      (fun past => (opened.jump past).start ≠ (opened.jump past).stop) = some past := by
    rw [hskip, Option.filter_some, hjump]
    simp [skipJump, hne]
  rw [FlowM.yields_elseSkip?, hgoes]
  simp only [yields_bind, FlowM.yields_jump, hjump]
  have hgate : opened.Stage ((before ++ test.reading (test.rendered ++ "\n\x7b") :: middle) ++ gate ::
      (other ++ close :: after)) (skipJump gate close.offset :: rest) [] := by
    simpa using hopened
  refine hgate.yields_append rfl fun split hsplitting hsplit => ?_
  have hother : split.Stage ((before ++ test.reading (test.rendered ++ "\n\x7b") :: (middle ++
      gate.reading (gate.rendered ++ "\n\x7d\nelse\n\x7b") :: other)) ++ close :: after)
      (skipJump gate close.offset :: rest) [] := by
    simpa using hsplit
  have hnumber : gate.offset.isNumber := h.ascending.numbers _ (by simp)
  refine hother.yields_closeBlock hnumber rfl fun closed hclosing hclosed => ?_
  have hkept := (hopening.trans hsplitting (List.Subset.refl _)).trans hclosing (List.Subset.refl _)
  have hsame := (hsplitting.trans hclosing (List.Subset.refl _)).same past hpast (by simp [hjump])
  refine hclosed.yields_retire hsame.1 (hsame.2.trans hjump) fun result hretiring hresult => ⟨?_, ?_⟩
  · exact hkept.trans hretiring (List.subset_cons_self _ _)
  · simpa using hresult

end Flow.Stage

/-! ## The whole condition -/

/-- The tests of a condition, up to the last one: the line after it, what is said of the places that they go to, and
which other jumps are open. -/
structure Group (offsets : List Offset) (ts : List Joint) (last : Joint) (body : Offset)
    (means : Offset → FlowM.Connective) (rest : List Jump) : Prop where
  ends : ts.getLast? = some last
  next : Adjacent offsets last.test.jump.offset body
  meaning : FlowM.Meaning (ts.map Joint.jump) body last.stop means
  connectives : ∀ t ∈ ts, t.connective = if t.stop = last.stop then .and else means t.stop
  later : ∀ j ∈ rest, j.kind = .test → last.test.jump.offset.value < j.start.value

namespace Group

variable {flow told : Flow} {before after : List CodeLine} {ts : List Joint} {first last : Joint} {body : Offset}
  {means : Offset → FlowM.Connective} {rest : List Jump} {handlers : List (Offset × Offset)}

theorem starts_grow (h : told.Stage (before ++ (asRead (ts.flatMap Joint.code) ++ after)) (ts.map Joint.jump ++ rest)
    handlers) : (ts.map Joint.jump).Pairwise fun a b => a.start.value < b.start.value := by
  have hsub : ((ts.map Joint.jump).map (·.start)).Sublist
      ((before ++ (asRead (ts.flatMap Joint.code) ++ after)).map (·.offset)) := by
    rw [List.map_append, List.map_append, map_offset_asRead]
    refine List.Sublist.trans ?_ ((List.sublist_append_left _ _).trans (List.sublist_append_right _ _))
    rw [List.map_map, List.map_eq_flatMap, List.map_flatMap]
    exact .flatMap_right _ fun t _ => by simp [Joint.code, Joint.jump, Comparison.code]
  have hgrows := h.ascending.grows.sublist hsub
  rwa [List.pairwise_map] at hgrows

/-- The tests between the first and the last of a condition are those that are open there. -/
theorem openAs_tests (hg : Group told.offsets (first :: ts) last body means rest)
    (h : told.Stage (before ++ (asRead ((first :: ts).flatMap Joint.code) ++ after))
      ((first :: ts).map Joint.jump ++ rest) handlers) (ho : told.TestsInOrder) :
    List.Forall₂ told.OpenAs ((told.table .test).values.filter fun i =>
      decide (first.test.jump.offset.value ≤ (told.jump i).start.value ∧
        (told.jump i).start.value ≤ last.test.jump.offset.value ∧ (told.jump i).start ≠ (told.jump i).stop))
      ((first :: ts).map Joint.jump) := by
  have hgrows := starts_grow h
  refine h.openAs_filter ho (fun j => decide (first.test.jump.offset.value ≤ j.start.value ∧
    j.start.value ≤ last.test.jump.offset.value ∧ j.start ≠ j.stop)) (fun j => ?_) hgrows
  rw [decide_eq_true_eq]
  constructor
  · intro hj
    have hafter : first.test.jump.offset.value ≤ j.start.value := by
      rcases List.mem_cons.1 hj with rfl | hj
      · exact le_rfl
      · exact Int.le_of_lt ((List.pairwise_cons.1 hgrows).1 j hj)
    have huntil : j.start.value ≤ last.test.jump.offset.value := by
      obtain ⟨init, hinit⟩ : ∃ init, first :: ts = init ++ [last] := List.getLast?_eq_some_iff.1 hg.ends
      rw [hinit, List.map_append] at hj hgrows
      rcases List.mem_append.1 hj with hj | hj
      · exact Int.le_of_lt ((List.pairwise_append.1 hgrows).2.2 j hj last.jump (by simp))
      · rw [List.mem_singleton.1 hj]
        exact le_rfl
    obtain ⟨t, _, rfl⟩ := List.mem_map.1 hj
    exact ⟨List.mem_append_left _ hj, rfl, hafter, huntil, Offset.ne_of_lt (hg.meaning.forward _ hj)⟩
  · intro hj
    obtain ⟨hj, hkind, _, huntil, _⟩ := hj
    refine (List.mem_append.1 hj).resolve_right fun hin => ?_
    exact absurd (hg.later j hin hkind) (Int.not_lt.2 huntil)

/-- A condition is joined test by test, and then its body is laid out. -/
theorem yields_layOutTest {i l : Nat} {j : Jump} (hi : flow.OpenAs i j) (hk : j.kind = .test) (hne : j.start ≠ j.stop)
    (hfirst : j.start = first.test.jump.offset)
    (hlast : Yields (FlowM.lastTest i) flow fun found result => found = l ∧ result = told)
    (hl : told.OpenAs l last.jump) (ho : told.TestsInOrder)
    (hg : Group told.offsets (first :: ts) last body means rest)
    (h : told.Stage (before ++ (asRead ((first :: ts).flatMap Joint.code) ++ after))
      ((first :: ts).map Joint.jump ++ rest) handlers) {wanted : Bool → Flow → Prop}
    (hw : ∀ joined : Flow, told.Keeps joined rest →
      joined.Stage (before ++ (Joint.joined "if" (first :: ts) ++ after)) rest handlers →
      Yields (FlowM.layOutBody last.jump) joined fun _ => wanted true) :
    Yields (FlowM.layOutTest i) flow wanted := by
  have hnumber := h.sound.ascending.numbers
  have hopen := hg.openAs_tests h ho
  have hmap := Flow.map_jump_of_openAs hopen
  have hstart : first.test.jump.offset.isNumber := h.ascending.numbers _ (by simp [Joint.code, Comparison.code])
  have hend : last.test.jump.offset.isNumber := hnumber _ hg.next.left
  have hfilter : (told.table .test).values.filterM
      (fun c => FlowM.belongs? j.start (told.jump l).start (told.jump c)) =
        some ((told.table .test).values.filter fun i =>
          decide (first.test.jump.offset.value ≤ (told.jump i).start.value ∧
            (told.jump i).start.value ≤ last.test.jump.offset.value ∧ (told.jump i).start ≠ (told.jump i).stop)) := by
    rw [hfirst, hl.2]
    refine FlowM.filterM_of_some fun c hc => FlowM.belongs?_eq hstart hend ?_
    exact hnumber _ (h.sound.exit_aimed (h.sound.test_of_mem hc).exit).1
  simp only [FlowM.layOutTest, yields_bind, FlowM.yields_jump, hi.2, hk, ne_eq, not_true_eq_false, if_false, hne]
  refine hlast.mono fun found result hfound => ?_
  obtain ⟨rfl, rfl⟩ := hfound
  simp only [yields_get, FlowM.yields_openTests, FlowM.yields_settled, hfilter, Option.some.injEq, exists_eq_left']
  generalize (result.table .test).values.filter _ = tests at hopen hmap
  have hmeaning : FlowM.Meaning (tests.map result.jump) body (result.jump found).stop means := by
    rw [hmap, hl.2]
    exact hg.meaning
  have hnext : Adjacent result.offsets (result.jump found).start body := by
    rw [hl.2]
    exact hg.next
  refine (FlowM.yields_connectives_means h.sound hnext hmeaning).mono fun known same hknown => ?_
  obtain ⟨rfl, hknown⟩ := hknown
  rw [hmap, hl.2] at hknown
  refine (Joint.yields_joinTests (first :: ts) h hopen fun t ht => ?_).mono fun _ joined hjoined => ?_
  · rw [hg.connectives t ht]
    exact hknown t.jump (List.mem_map_of_mem ht)
  · obtain ⟨hkeeps, hstops, hjoined⟩ := hjoined
    have hbody := hw joined hkeeps hjoined
    have hends : (joined.jump found).start = last.jump.start ∧ (joined.jump found).stop = last.jump.stop := by
      rw [hkeeps.start, hstops, hl.2]
      exact ⟨rfl, rfl⟩
    have hsame : FlowM.layOutBody (joined.jump found) = FlowM.layOutBody last.jump := by
      rw [FlowM.layOutBody, FlowM.layOutBody, hends.1, hends.2]
    rw [hsame]
    simpa only [yields_pure] using hbody

end Group

end Bytelift
