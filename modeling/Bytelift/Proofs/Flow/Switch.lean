import Bytelift.Proofs.Flow.Block
import Mathlib.Data.List.Perm.Subperm

/-! Switches are laid out without a fault. A table switch walks a chain of arms, each of which starts after
the one before it and leaves its table when it is laid out; so the chain ends, and a line precedes every arm
but the first. A comparison switch goes through the tests that it was recognised by, however many of these
turn out to be breaks on the way. -/

namespace Bytelift

open Run Text

namespace Flow

/-- A jump from a line to a line further on, whether or not it is still open. -/
def Landed (flow : Flow) (i : Nat) : Prop :=
  i < flow.jumps.length ∧ ((flow.jump i).kind = .test ∨ (flow.jump i).kind = .skip) ∧
    (flow.jump i).start ∈ flow.offsets ∧ (flow.jump i).stop ∈ flow.offsets ∧
    ∃ b ∈ flow.offsets, (flow.jump i).stop.value < b.value

theorem Landed.onward {flow result : Flow} {i : Nat} (h : flow.Landed i) (ho : Onward flow result) :
    result.Landed i := by
  unfold Landed at *
  rw [ho.length, ho.kind, ho.start, ho.stop, ho.offsets]
  exact h

theorem Sound.landed {flow : Flow} (h : flow.Sound) {i : Nat} (hi : flow.Exit i) : flow.Landed i := by
  obtain ⟨hs, he, _, hb⟩ := h.exit_aimed hi
  exact ⟨hi.1.1, hi.2, hs, he, hb⟩

def SkipAfterTest (flow : Flow) : Prop :=
  ∃ t s, flow.Open t ∧ (flow.jump t).kind = .test ∧ flow.Open s ∧ (flow.jump s).kind = .skip ∧
    Adjacent flow.offsets (flow.jump t).start (flow.jump s).start

/-- A test goes no less far than another in whose range it starts. -/
def isCaseOf (flow : Flow) (i c : Nat) : Bool :=
  decide ((flow.jump i).start.value ≤ (flow.jump c).start.value ∧
    (flow.jump c).start.value ≤ (flow.jump i).stop.value ∧
    (flow.jump i).stop.value ≤ (flow.jump c).stop.value)

/-- There are no more arms than jumps. -/
theorem Sound.size_arms {flow : Flow} (h : flow.Sound) :
    (flow.table .arm).entries.length ≤ flow.jumps.length := by
  have hsub : (flow.table .arm).values ⊆ List.range flow.jumps.length := by
    intro i hi
    rw [h.mem_values (by simp)] at hi
    exact List.mem_range.2 hi.1.1
  have hle := ((h.nodup_values (by simp)).subperm hsub).length_le
  simpa [Table.values] using hle

end Flow

namespace FlowM

variable {flow : Flow}

/-! ## Table switches -/

theorem yields_filedAt? {k : JumpKind} (hk : k ∈ JumpKind.recorded) {o : Offset}
    {wanted : Option Nat → Flow → Prop} :
    Yields (filedAt? k o) flow wanted ↔ wanted ((flow.table k).get? o) flow := by
  obtain ⟨table, ht⟩ := Option.isSome_iff_exists.1 (flow.tables.get?_isSome hk)
  simp [filedAt?, ht, Flow.table]

/-- Where the breaks go: each to a line that has a line before it. -/
def Ahead (flow : Flow) (ends : List Offset) : Prop :=
  ∀ e ∈ ends, e ∈ flow.offsets ∧ ∃ a ∈ flow.offsets, a.value < e.value

theorem Beyond.ahead {last : Offset} {ends : List Offset} (h : Beyond flow last ends)
    (hl : last ∈ flow.offsets) : Ahead flow ends :=
  fun e he => ⟨(h e he).1, last, hl, (h e he).2⟩

theorem yields_layOutArms (hne : Offset.number (-1) ∉ flow.offsets) :
    ∀ (bound : Nat) (previous : Offset) (next : Option Nat) {middle : Flow}, flow.Kept middle →
      (middle.table .arm).entries.length ≤ bound → previous ∈ flow.offsets →
      (∀ i, next = some i → middle.Open i ∧ (middle.jump i).kind = .arm ∧
        previous.value < (middle.jump i).start.value) →
      Yields (layOutArms bound previous next) middle fun ends result =>
        flow.Kept result ∧ Ahead flow ends
  | bound, previous, none, middle, h, _, _, _ => by
    cases bound <;> simp [layOutArms, h, Ahead]
  | 0, previous, some i, middle, h, hb, _, hi => by
    obtain ⟨ho, hk, _⟩ := hi i rfl
    have hm : middle.Filed .arm _ i := (h.sound.filed _ _ _ (by simp)).2 ⟨ho, hk, rfl⟩
    exact absurd (List.length_pos_of_mem hm) (by omega)
  | bound + 1, previous, some i, middle, h, hb, hp, hi => by
    obtain ⟨ho, hk, hlt⟩ := hi i rfl
    have hs := h.sound
    have ha := hs.aimed i ho
    unfold Flow.Aimed at ha
    rw [hk] at ha
    obtain ⟨hstart, ⟨arm, harm, _⟩, hstop⟩ := ha
    obtain ⟨before, hbefore⟩ := hs.ascending.exists_previous hstart (h.offsets ▸ hp) hlt
    have hopen := h.revised (middle.jump i).start (("\n\x7d\n" ++ arm.labels ++ "\n\x7b\n") ++ ·)
    simp only [layOutArms, yields_bind, yields_jump, armOf, harm, yields_need]
    refine ⟨arm, rfl, ?_⟩
    rw [yields_prepend hs hstart, yields_neighbour]
    refine ⟨before, Flow.neighbour_neg_one hs.ascending hbefore, ?_⟩
    refine (yields_markBreaks hopen.sound (h.number hp) (hs.ascending.numbers _ hbefore.left)).mono ?_
    intro ends shown hm
    obtain ⟨hex, hbeyond⟩ := hm
    have hon := hex.onward
    have hshown := hopen.exits hex
    have hlen : i < shown.jumps.length := hon.length ▸ ho.1
    have hret := hshown.retired hlen
    rw [yields_retire (hshown.sound.kinds i hlen), yields_filedAt? (hk ▸ hs.kinds i ho.1)]
    -- the arm is the only one that has left the table
    have htab : (shown.retired i).table .arm = (middle.table .arm).erase (middle.jump i).start := by
      rw [Flow.table_retired (hshown.sound.kinds i hlen), if_pos ((hon.kind i).trans hk),
        hex.table_eq hopen.sound (by simp) (by simp), hon.start i]
      rfl
    have hfiled : middle.Filed .arm (middle.jump i).start i :=
      (hs.filed _ _ _ (by simp)).2 ⟨ho, hk, rfl⟩
    have hsize : ((shown.retired i).table .arm).entries.length ≤ bound := by
      have hlt := Table.length_erase_lt hfiled
      rw [htab]
      omega
    refine (yields_layOutArms hne bound (middle.jump i).start _ hret hsize
      (h.offsets ▸ hstart) ?_).mono ?_
    · intro j hj
      obtain ⟨hoj, hkj, hsj⟩ := (hret.sound.filed _ _ _ (by simp)).1 (hret.sound.lookup.1 (hk ▸ hj))
      refine ⟨hoj, hkj, ?_⟩
      rw [hsj]
      rcases hstop with hend | hstop
      · -- the last arm stops at no line, so nothing starts there
        have haj := hret.sound.aimed j hoj
        unfold Flow.Aimed at haj
        rw [hkj, hsj, hend, hret.offsets] at haj
        exact absurd haj.1 hne
      · exact hstop.2
    · intro more result hmore
      rw [yields_pure]
      refine ⟨hmore.1, ?_⟩
      intro e he
      rcases List.mem_append.1 he with he | he
      · have hea : Ahead (middle.revised _ _) ends := hbeyond.ahead hbefore.left
        have heb := hea e he
        rw [hopen.offsets] at heb
        exact heb
      · exact hmore.2 e he

theorem filterM_of_some {α : Type} {p : α → Option Bool} {q : α → Bool} {xs : List α}
    (h : ∀ x ∈ xs, p x = some (q x)) : xs.filterM p = some (xs.filter q) := by
  have haux : ∀ (xs acc : List α), (∀ x ∈ xs, p x = some (q x)) →
      xs.filterAuxM p acc = some ((xs.filter q).reverse ++ acc) := by
    intro xs
    induction xs with
    | nil => intro acc _; rfl
    | cons x xs ih =>
      intro acc hx
      simp only [List.filterAuxM, hx x (by simp), Option.bind_eq_bind, Option.bind_some]
      rw [ih _ fun y hy => hx y (by simp [hy])]
      cases hq : q x <;> simp [hq]
  simp [List.filterM, haux xs [] h]

theorem yields_closeArms {middle : Flow} (h : flow.Kept middle) {last : Offset}
    (hl : last ∈ flow.offsets) {ends : List Offset} (he : Ahead flow ends) :
    Yields (closeArms last ends) middle fun _ result => flow.Kept result := by
  have hs := h.sound
  have hlm : last ∈ middle.offsets := h.offsets ▸ hl
  have hnum : ∀ e ∈ ends, e.isNumber := fun e hm => h.number (he e hm).1
  obtain ⟨sorted, hsorted, hmem, hgrows⟩ := Offset.ascending?_of_number hnum
  have hafter : sorted.filterM last.lt? =
      some (sorted.filter fun e => decide (last.value < e.value)) :=
    filterM_of_some fun e hm => Offset.lt?_of_number (h.number hl) (hnum e ((hmem e).1 hm))
  simp only [closeArms, yields_bind, yields_settled]
  refine ⟨sorted, hsorted, _, hafter, ?_⟩
  -- what is left lies after the last arm, and is sorted still
  have hline : ∀ e ∈ (sorted.filter fun e => decide (last.value < e.value)).reverse,
      e ∈ middle.offsets := by
    intro e hm
    rw [List.mem_reverse, List.mem_filter, hmem] at hm
    exact h.offsets ▸ (he e hm.1).1
  have hfalls : (sorted.filter fun e => decide (last.value < e.value)).reverse.Pairwise
      fun a b => b.value < a.value := List.pairwise_reverse.2 (hgrows.filter _)
  generalize (sorted.filter fun e => decide (last.value < e.value)).reverse = left at hline hfalls
  rcases left with _ | ⟨stop, _ | ⟨start, _ | ⟨third, rest⟩⟩⟩
  · -- nobody left the arms
    simp only [yields_bind]
    rw [yields_revise hs hlm, yields_pure]
    exact h.revised _ _
  · -- one way out: the last arm ends there
    simp only [yields_bind]
    refine yields_closeBlock hs (h.number hl) (hline stop (by simp)) ?_
    intro closed _ _
    rw [yields_pure]
    exact h.closedAt closed
  · -- two: a default block lies between them
    have hlt : start.value < stop.value := List.rel_of_pairwise_cons hfalls (by simp)
    have hstart := hline start (by simp)
    simp only [yields_bind]
    rw [yields_append hs hstart]
    refine yields_closeBlock (hs.revised _ _) (hs.ascending.numbers _ hstart) (hline stop (by simp)) ?_
    intro closed hm hor
    have hbefore : start.value < closed.value := hor.elim (fun heq => heq ▸ hlt) id
    obtain ⟨before, hb⟩ := hs.ascending.exists_previous hm hstart hbefore
    have hclosed := (h.revised start (· ++ defaultStart)).closedAt closed
    rw [yields_neighbour]
    refine ⟨before, Flow.neighbour_neg_one hs.ascending hb, ?_⟩
    refine (yields_markBreaks hclosed.sound (hs.ascending.numbers _ hstart)
      (hs.ascending.numbers _ hb.left)).mono ?_
    intro _ result hm
    rw [yields_pure]
    exact hclosed.exits hm.1
  · -- more: the default block ends at the last
    have hstart := hline start (by simp)
    simp only [yields_bind]
    rw [yields_append hs hstart]
    refine yields_closeBlock (hs.revised _ _) (hs.ascending.numbers _ hstart) (hline stop (by simp)) ?_
    intro closed hm _
    have hclosed := (h.revised start (· ++ defaultStart)).closedAt closed
    refine (yields_markBreaks hclosed.sound (hs.ascending.numbers _ hstart)
      (hs.ascending.numbers _ hm)).mono ?_
    intro _ result hm
    rw [yields_pure]
    exact hclosed.exits hm.1

theorem yields_handleArm (h : flow.Sound) (hne : Offset.number (-1) ∉ flow.offsets) {i : Nat}
    (hi : flow.Open i) (hk : (flow.jump i).kind = .arm) :
    Yields (handleArm i) flow fun _ result => flow.Kept result := by
  have ha := h.aimed i hi
  unfold Flow.Aimed at ha
  rw [hk] at ha
  obtain ⟨hstart, ⟨arm, harm, hlast⟩, hstop⟩ := ha
  simp only [handleArm, layOutTable, yields_bind, yields_jump, hk, ne_eq, not_true_eq_false, if_false,
    armOf, harm, yields_need]
  refine ⟨arm, rfl, ?_⟩
  split
  · simpa using h.kept
  · have hopen := h.kept.revised (flow.jump i).start (· ++ ("\n" ++ arm.labels ++ "\n\x7b\n"))
    simp only [yields_bind]
    rw [yields_append h hstart, yields_get, yields_filedAt? (by simp [JumpKind.recorded])]
    refine (yields_layOutArms hne _ (flow.jump i).start _ hopen hopen.sound.size_arms hstart ?_).mono ?_
    · intro j hj
      obtain ⟨hoj, hkj, hsj⟩ := (h.filed _ _ _ (by simp)).1 (h.lookup.1 hj)
      refine ⟨hoj, hkj, ?_⟩
      change (flow.jump i).start.value < (flow.jump j).start.value
      rw [hsj]
      rcases hstop with hend | hstop
      · have haj := h.aimed j hoj
        unfold Flow.Aimed at haj
        rw [hkj, hsj, hend] at haj
        exact absurd haj.1 hne
      · exact hstop.2
    · intro ends middle hm
      obtain ⟨hkept, hahead⟩ := hm
      obtain ⟨sorted, hsorted, hmem, _⟩ :=
        Offset.ascending?_of_number fun e he => hkept.number (hahead e he).1
      rw [yields_settled]
      refine ⟨sorted, hsorted, ?_⟩
      cases sorted with
      | nil =>
        refine (yields_closeArms hkept hlast (by simp [Ahead])).mono ?_
        intro _ result hr
        exact yields_pure.2 hr
      | cons first rest =>
        obtain ⟨hfirst, a, ham, hlt⟩ := hahead first ((hmem first).1 (by simp))
        obtain ⟨before, hb⟩ := hkept.sound.ascending.exists_previous (hkept.offsets ▸ hfirst)
          (hkept.offsets ▸ ham) hlt
        simp only [yields_bind, yields_neighbour]
        refine ⟨before, Flow.neighbour_neg_one hkept.sound.ascending hb, ?_⟩
        refine (yields_markBreaks hkept.sound (hkept.number hlast)
          (hkept.sound.ascending.numbers _ hb.left)).mono ?_
        intro more shown hm
        obtain ⟨hex, hbeyond⟩ := hm
        have hmore : Ahead flow (ends ++ more) := by
          intro e he
          rcases List.mem_append.1 he with he | he
          · exact hahead e he
          · have heb := hbeyond.ahead hb.left e he
            rw [hkept.offsets] at heb
            exact heb
        refine (yields_closeArms (hkept.exits hex) hlast hmore).mono ?_
        intro _ result hr
        exact yields_pure.2 hr

/-! ## Comparison switches -/

/-- A place for the body of a case: a line that another one follows. -/
def Room (flow : Flow) (body : Offset) : Prop :=
  body ∈ flow.offsets ∧ ∃ b ∈ flow.offsets, body.value < b.value

theorem yields_nameCase {middle : Flow} (h : flow.Kept middle) {fallback number i : Nat}
    (hs : (middle.jump i).start ∈ middle.offsets) :
    Yields (nameCase fallback number i) middle fun _ result =>
      flow.Kept result ∧ middle.Onward result := by
  simp only [nameCase]
  split
  · simp only [yields_bind, yields_jump]
    rw [yields_revise h.sound hs]
    exact ⟨h.revised _ _, Flow.onward_revised _ _ _⟩
  · exact yields_pure.2 ⟨h, .refl _⟩

theorem yields_markBodyBreaks {middle : Flow} (h : flow.Kept middle) {previous : Option Offset}
    (hp : ∀ body, previous = some body → Room flow body) {stop : Offset} (hs : stop ∈ flow.offsets) :
    Yields (markBodyBreaks previous stop) middle fun ends result =>
      flow.Kept result ∧ middle.Onward result ∧ Ahead flow ends := by
  cases previous with
  | none => exact yields_pure.2 ⟨h, .refl _, by simp [Ahead]⟩
  | some body =>
    obtain ⟨hb, x, hx, hlt⟩ := hp body rfl
    simp only [markBodyBreaks]
    split
    · exact yields_pure.2 ⟨h, .refl _, by simp [Ahead]⟩
    · obtain ⟨next, hnext⟩ := h.sound.ascending.exists_next (h.offsets ▸ hb) (h.offsets ▸ hx) hlt
      simp only [yields_bind, yields_neighbour]
      refine ⟨next, Flow.neighbour_one h.sound.ascending hnext, ?_⟩
      refine (yields_markBreaks h.sound (h.sound.ascending.numbers _ hnext.right) (h.number hs)).mono ?_
      intro ends result hm
      refine ⟨h.exits hm.1, hm.1.onward, ?_⟩
      have ha := hm.2.ahead (h.offsets ▸ hs)
      unfold Ahead at *
      rw [h.offsets] at ha
      exact ha

theorem yields_layOutCases {fallback : Nat} : ∀ (is : List Nat) (number : Nat) (labels : String)
    (previous : Option Offset) {middle : Flow}, flow.Kept middle → (∀ i ∈ is, middle.Landed i) →
      (∀ body, previous = some body → Room flow body) →
      Yields (layOutCases fallback number labels previous is) middle fun ends result =>
        flow.Kept result ∧ Ahead flow ends
  | [], _, _, _, middle, h, _, _ => by simp [layOutCases, h, Ahead]
  | i :: is, number, labels, previous, middle, h, hall, hprev => by
    obtain ⟨hlen, _, hstart, hstop, b, hb, hlt⟩ := hall i (by simp)
    have hroom : Room flow (middle.jump i).stop := ⟨h.offsets ▸ hstop, b, h.offsets ▸ hb, hlt⟩
    simp only [layOutCases, yields_bind, yields_jump]
    refine (yields_nameCase h hstart).mono ?_
    intro _ named hn
    obtain ⟨hnamed, hon⟩ := hn
    have hlen' : i < named.jumps.length := hon.length ▸ hlen
    have hret := hnamed.retired hlen'
    have hon' := hon.trans (Flow.onward_retired named i)
    rw [yields_retire (hnamed.sound.kinds i hlen'), yields_get]
    have hrest : ∀ j ∈ is, middle.Landed j := fun j hj => hall j (List.mem_cons_of_mem i hj)
    split
    · exact yields_layOutCases is _ _ _ hret (fun j hj => (hrest j hj).onward hon') hprev
    · simp only [yields_bind]
      refine (yields_markBodyBreaks hret hprev hroom.1).mono ?_
      intro ends shown hm
      obtain ⟨hshown, hex, hahead⟩ := hm
      have hstop' : (middle.jump i).stop ∈ shown.offsets := hshown.offsets ▸ hroom.1
      rw [yields_append hshown.sound hstop']
      refine (yields_layOutCases is _ _ (some (middle.jump i).stop) (hshown.revised _ _) (fun j hj =>
        (hrest j hj).onward ((hon'.trans hex).trans (Flow.onward_revised _ _ _))) ?_).mono ?_
      · intro body hbody
        rw [← Option.some.inj hbody]
        exact hroom
      · intro more result hmore
        rw [yields_pure]
        refine ⟨hmore.1, ?_⟩
        intro e he
        rcases List.mem_append.1 he with he | he
        · exact hahead e he
        · exact hmore.2 e he

theorem yields_closeCases {middle : Flow} (h : flow.Kept middle) {last : Jump}
    (hs : last.start ∈ flow.offsets) (he : last.stop ∈ flow.offsets) {past : Offset}
    {ends : List Offset} (ha : Ahead flow ends) :
    Yields (closeCases last past ends) middle fun _ result => flow.Kept result := by
  obtain ⟨sorted, hsorted, hmem, _⟩ :=
    Offset.ascending?_of_number fun e hm => h.number (ha e hm).1
  simp only [closeCases, yields_bind, yields_settled]
  refine ⟨sorted, hsorted, ?_⟩
  have hempty : Yields (revise last.stop closeEmpty) middle fun _ result => flow.Kept result := by
    rw [yields_revise h.sound (h.offsets ▸ he)]
    exact h.revised _ _
  cases hl : sorted.getLast? with
  | none => exact hempty
  | some furthest =>
    obtain ⟨hf, a, hm, hlt⟩ := ha furthest ((hmem furthest).1 (List.mem_of_getLast? hl))
    dsimp only
    split
    · exact hempty
    · rw [yields_bind]
      refine yields_closeBlock h.sound (h.number hs) (h.offsets ▸ hf) ?_
      intro closed hc hor
      -- the block closes after some line, whether or not a handler has moved its end
      obtain ⟨before, hb⟩ : ∃ b, Adjacent middle.offsets b closed := by
        rcases hor with rfl | hor
        · exact h.sound.ascending.exists_previous hc (h.offsets ▸ hm) hlt
        · exact h.sound.ascending.exists_previous hc (h.offsets ▸ hs) hor
      have hclosed := h.closedAt closed
      simp only [yields_bind, yields_neighbour]
      refine ⟨before, Flow.neighbour_neg_one h.sound.ascending hb, ?_⟩
      refine (yields_markBreaks hclosed.sound (h.number hs)
        (h.sound.ascending.numbers _ hb.left)).mono ?_
      intro _ result hr
      exact yields_pure.2 (hclosed.exits hr.1)

theorem isCase?_eq {switch c : Jump} (hs : switch.start.isNumber) (he : switch.stop.isNumber)
    (hs' : c.start.isNumber) (he' : c.stop.isNumber) : isCase? switch c =
      some (decide (switch.start.value ≤ c.start.value ∧ c.start.value ≤ switch.stop.value ∧
        switch.stop.value ≤ c.stop.value)) := by
  simp only [isCase?, Offset.le?_of_number hs hs', Offset.le?_of_number hs' he,
    Offset.le?_of_number he he']
  by_cases h1 : switch.start.value ≤ c.start.value <;>
    by_cases h2 : c.start.value ≤ switch.stop.value <;> simp [h1, h2]

/-- A comparison switch is laid out or the code is left alone; and there is none without a default, a skip
right after the last test. -/
theorem yields_layOutComparison (h : flow.Sound) {i : Nat} (hi : flow.Open i)
    (hk : (flow.jump i).kind = .test) : Yields (layOutComparison i) flow fun taken result =>
      flow.Kept result ∧ (taken = false → result = flow) ∧ (taken = true → flow.SkipAfterTest) := by
  have hdeclined : flow.Kept flow ∧ (false = false → flow = flow) ∧
      (false = true → flow.SkipAfterTest) := ⟨h.kept, fun _ => rfl, Bool.noConfusion⟩
  obtain ⟨hstart, hstop, hle, _⟩ := h.exit_aimed ⟨hi, Or.inl hk⟩
  have hnumber := h.ascending.numbers
  have htests : ∀ c ∈ (flow.table .test).values, flow.Exit c := by
    intro c hc
    have hm := (h.mem_values (by simp)).1 hc
    exact ⟨hm.1, Or.inl hm.2⟩
  have hfilter : (flow.table .test).values.filterM (fun c => isCase? (flow.jump i) (flow.jump c)) =
      some ((flow.table .test).values.filter (flow.isCaseOf i)) := by
    refine filterM_of_some fun c hc => ?_
    obtain ⟨hs', he', _⟩ := h.exit_aimed (htests c hc)
    exact isCase?_eq (hnumber _ hstart) (hnumber _ hstop) (hnumber _ hs') (hnumber _ he')
  simp only [layOutComparison, yields_bind, yields_jump, hk, ne_eq, not_true_eq_false, if_false,
    yields_get, yields_openTests, yields_settled, yields_need]
  refine ⟨_, hfilter, ?_⟩
  have hmem : ∀ c ∈ (flow.table .test).values.filter (flow.isCaseOf i),
      flow.Exit c ∧ (flow.jump c).kind = .test := by
    intro c hc
    have hm := (List.mem_filter.1 hc).1
    exact ⟨htests c hm, ((h.mem_values (by simp)).1 hm).2⟩
  -- the test is itself among the cases
  have hself : i ∈ (flow.table .test).values.filter (flow.isCaseOf i) := by
    rw [List.mem_filter, h.mem_values (by simp)]
    exact ⟨⟨hi, hk⟩, by simpa [Flow.isCaseOf] using hle⟩
  generalize (flow.table .test).values.filter (flow.isCaseOf i) = cases at hmem hself
  obtain ⟨lastTest, hlast⟩ : ∃ c, cases.getLast? = some c := by
    cases hl : cases.getLast? with
    | none => rw [List.getLast?_eq_none_iff.1 hl] at hself; cases hself
    | some c => exact ⟨c, rfl⟩
  refine ⟨lastTest, hlast, ?_⟩
  obtain ⟨hexit, hkind⟩ := hmem lastTest (List.mem_of_getLast? hlast)
  obtain ⟨hs', he', hle', b, hb, hlt⟩ := h.exit_aimed hexit
  obtain ⟨next, hnext⟩ := h.ascending.exists_next hs' hb (by omega)
  rw [yields_neighbour]
  refine ⟨next, Flow.neighbour_one h.ascending hnext, ?_⟩
  rw [yields_skipAt?]
  cases hskip : (flow.table .skip).get? next with
  | none => exact yields_pure.2 hdeclined
  | some fallback =>
    obtain ⟨hfo, hfk, hfs⟩ := (h.filed _ _ _ (by simp)).1 (h.lookup.1 hskip)
    have hfx : flow.Exit fallback := ⟨hfo, Or.inr hfk⟩
    have hafter : flow.SkipAfterTest :=
      ⟨lastTest, fallback, hexit.1, hkind, hfo, hfk, hfs ▸ hnext⟩
    have hall : ∀ c ∈ cases ++ [fallback], flow.Exit c := by
      intro c hc
      rcases List.mem_append.1 hc with hc | hc
      · exact (hmem c hc).1
      · exact List.mem_singleton.1 hc ▸ hfx
    obtain ⟨hfstart, hfstop, _⟩ := h.exit_aimed hfx
    simp only
    split
    · exact yields_pure.2 hdeclined
    simp only [yields_bind, yields_settled, Offset.lt?_of_number (hnumber _ hstop) (hnumber _ hfstart)]
    refine ⟨_, rfl, ?_⟩
    split
    · exact yields_pure.2 hdeclined
    obtain ⟨sorted, hsorted, hperm, _⟩ := @Offset.sortBy?_of_number Nat (fun c => (flow.jump c).stop)
      (cases ++ [fallback]) fun c hc => hnumber _ (h.exit_aimed (hall c hc)).2.1
    have hlanded : ∀ c ∈ sorted, flow.Landed c := fun c hc => h.landed (hall c (hperm.mem_iff.1 hc))
    have hlastCase : flow.Landed (sorted.getLastD fallback) := by
      rw [List.getLastD_eq_getLast?]
      cases hl : sorted.getLast? with
      | none => exact h.landed hfx
      | some c => exact hlanded c (List.mem_of_getLast? hl)
    simp only [yields_bind, yields_settled]
    refine ⟨sorted, hsorted, ?_⟩
    refine (yields_layOutCases sorted 0 _ none h.kept hlanded (by simp)).mono ?_
    intro ends middle hm
    obtain ⟨hkept, hahead⟩ := hm
    refine (yields_closeCases hkept hlastCase.2.2.1 hlastCase.2.2.2.1 hahead).mono ?_
    intro _ result hr
    exact yields_pure.2 ⟨hr, Bool.noConfusion, fun _ => hafter⟩

end FlowM

end Bytelift
