import Bytelift.Proofs.Flow.State

/-! Blocks close on lines of the code, and the jumps out of a block are shown and retired one by one. -/

namespace Bytelift

open Run Text

namespace Flow

/-- A block closed on a line: before the line if this opens a block itself, or else after it. -/
def closedAt (flow : Flow) (o : Offset) : Flow :=
  flow.revised o fun text => if has text "\x7b" then FlowM.blockEnd ++ text else text ++ FlowM.blockEnd

def marked (flow : Flow) (keyword : String) (j : Jump) (text : String) : String :=
  if j.kind = .test then text ++ (" " ++ keyword)
  else if has (flow.text j.stop) "\x7b" then keyword ++ text
  else text ++ keyword

def shown (flow : Flow) (keyword : String) (i : Nat) : Flow :=
  (flow.revised (flow.jump i).start (flow.marked keyword (flow.jump i))).retired i

/-- A jump that may lead out of a block. -/
def Exit (flow : Flow) (i : Nat) : Prop :=
  flow.Open i ∧ ((flow.jump i).kind = .test ∨ (flow.jump i).kind = .skip)

/-- Some of the open tests and skips have been shown, one after the other. -/
inductive Exits : Flow → Flow → Prop
  | none (flow : Flow) : Exits flow flow
  | more {flow result : Flow} {keyword : String} {i : Nat} (hk : keyword = "break" ∨ keyword = "continue")
      (hi : flow.Exit i) (rest : Exits (flow.shown keyword i) result) : Exits flow result

def withHandler (flow : Flow) (i : Nat) : Flow :=
  { flow with tables := flow.tables.put .handler (flow.jump i).start i }

@[simp] theorem offsets_closedAt (flow : Flow) (o : Offset) : (flow.closedAt o).offsets = flow.offsets := rfl

@[simp] theorem jumps_closedAt (flow : Flow) (o : Offset) : (flow.closedAt o).jumps = flow.jumps := rfl

@[simp] theorem jump_closedAt (flow : Flow) (o : Offset) (i : Nat) :
    (flow.closedAt o).jump i = flow.jump i := rfl

@[simp] theorem table_closedAt (flow : Flow) (o : Offset) (k : JumpKind) :
    (flow.closedAt o).table k = flow.table k := rfl

@[simp] theorem jumps_withHandler (flow : Flow) (i : Nat) : (flow.withHandler i).jumps = flow.jumps := rfl

@[simp] theorem jump_withHandler (flow : Flow) (i j : Nat) :
    (flow.withHandler i).jump j = flow.jump j := rfl

theorem table_withHandler (flow : Flow) (i : Nat) (k : JumpKind) : (flow.withHandler i).table k =
    if k = .handler then (flow.table .handler).put (flow.jump i).start i else flow.table k := by
  unfold withHandler table JumpTables.put
  cases k <;> simp [JumpTables.get?, JumpTables.set]

/-- The guarded range and its handler, once they are laid out. Without a skip the handler is empty; or else
it extends over what the skip jumps over. -/
def guardedWith (flow : Flow) (i : Nat) : Option Nat → Flow
  | none => ((flow.revised (flow.jump i).start ("try\n\x7b\n" ++ ·)).revised (flow.jump i).stop
      (· ++ "\n\x7d\ncatch \x7b\x7d\n")).retired i
  | some skip => (((((flow.revised (flow.jump i).start ("try\n\x7b\n" ++ ·)).revised
      (flow.jump skip).start (· ++ "\n\x7d\ncatch\n\x7b")).revised (flow.jump skip).stop
        (· ++ FlowM.blockEnd)).withHandler skip).retired skip).retired i

theorem Exits.trans {flow middle result : Flow} (h : Exits flow middle) (h' : Exits middle result) :
    Exits flow result := by
  induction h with
  | none => exact h'
  | more hk hi _ ih => exact .more hk hi (ih h')

namespace Sound

variable {flow : Flow}

theorem exit_aimed (h : flow.Sound) {i : Nat} (hi : flow.Exit i) :
    (flow.jump i).start ∈ flow.offsets ∧ (flow.jump i).stop ∈ flow.offsets ∧
      (flow.jump i).start.value ≤ (flow.jump i).stop.value ∧
      ∃ b ∈ flow.offsets, (flow.jump i).stop.value < b.value := by
  have ha := h.aimed i hi.1
  unfold Aimed at ha
  rcases hi.2 with hk | hk
  · rw [hk] at ha
    exact ha
  · rw [hk] at ha
    exact ha

theorem shown (h : flow.Sound) {i : Nat} (hi : flow.Exit i) (keyword : String) :
    (flow.shown keyword i).Sound := (h.revised _ _).retired hi.1.1

theorem exits {result : Flow} (h : flow.Sound) (he : Exits flow result) : result.Sound := by
  induction he with
  | none => exact h
  | more _ hi _ ih => exact ih (h.shown hi _)

theorem closedAt (h : flow.Sound) (o : Offset) : (flow.closedAt o).Sound := h.revised _ _

theorem withHandler (h : flow.Sound) {i : Nat} (hi : flow.Exit i) (hk : (flow.jump i).kind = .skip) :
    (flow.withHandler i).Sound where
  lines := h.lines
  ascending := h.ascending
  distinct := by
    intro k
    rw [table_withHandler]
    split
    · exact Table.nodup_keys_put (h.distinct _) _ _
    · exact h.distinct k
  kinds := h.kinds
  filed := by
    intro k o j hne
    unfold Filed
    rw [table_withHandler, if_neg hne]
    exact h.filed k o j hne
  once := h.once
  apart := h.apart
  aimed := h.aimed
  handlers := by
    intro o j hj
    unfold Filed at hj
    rw [table_withHandler, if_pos rfl, Table.mem_put (h.distinct _)] at hj
    rcases hj with ⟨rfl, rfl⟩ | ⟨_, hj⟩
    · obtain ⟨hs, he, hle, _⟩ := h.exit_aimed hi
      exact ⟨hs, hk, rfl, he, hle⟩
    · exact h.handlers o j hj

/-- The jumps among which breaks and continues are looked for. -/
theorem exit_of_mem (h : flow.Sound) {i : Nat}
    (hi : i ∈ (flow.table .test).values ++ (flow.table .skip).values) : flow.Exit i := by
  rw [List.mem_append, h.mem_values (by simp), h.mem_values (by simp)] at hi
  rcases hi with ⟨ho, hk⟩ | ⟨ho, hk⟩
  · exact ⟨ho, Or.inl hk⟩
  · exact ⟨ho, Or.inr hk⟩

theorem nodup_exits (h : flow.Sound) :
    ((flow.table .test).values ++ (flow.table .skip).values).Nodup := by
  rw [List.nodup_append]
  refine ⟨h.nodup_values (by simp), h.nodup_values (by simp), ?_⟩
  rintro i hi j hj rfl
  rw [h.mem_values (by simp)] at hi hj
  rw [hi.2] at hj
  cases hj.2

end Sound

theorem Exits.onward {flow result : Flow} (h : Exits flow result) : Onward flow result := by
  induction h with
  | none => exact .refl _
  | more _ _ _ ih => exact ((onward_revised _ _ _).trans (onward_retired _ _)).trans ih

theorem Kept.exits {flow middle result : Flow} (h : flow.Kept middle) (he : Exits middle result) :
    flow.Kept result := h.onward he.onward (h.sound.exits he)

theorem Kept.closedAt {flow middle : Flow} (h : flow.Kept middle) (o : Offset) :
    flow.Kept (middle.closedAt o) := h.revised _ _

/-- Showing exits leaves the tables of the other kinds alone. -/
theorem Exits.table_eq {flow result : Flow} (h : Exits flow result) (hs : flow.Sound) {k : JumpKind}
    (ht : k ≠ .test) (hk : k ≠ .skip) : result.table k = flow.table k := by
  induction h with
  | none => rfl
  | @more flow result keyword i _ hi _ ih =>
    have hr := hs.kinds i hi.1.1
    have hne : ¬(flow.jump i).kind = k := by
      rintro rfl
      exact hi.2.elim ht hk
    rw [ih (hs.shown hi keyword), Flow.shown, table_retired (by simpa using hr), jump_revised,
      if_neg hne, table_revised]

theorem exit_shown {flow : Flow} {i j : Nat} (hi : flow.Open i) (hj : flow.Exit j) (hne : i ≠ j)
    (keyword : String) : (flow.shown keyword i).Exit j := by
  refine ⟨?_, ?_⟩
  · exact (open_retired (by simpa using hi.1)).2 ⟨hj.1, hne⟩
  · simpa [Flow.shown] using hj.2

end Flow

namespace FlowM

variable {flow : Flow}

/-! ## Where a block closes -/

theorem follows?_eq {start : Offset} (hs : start.isNumber) {j : Jump} (hj : j.start.isNumber)
    (hj' : j.stop.isNumber) : follows? start j =
      some (decide (start.value < j.start.value ∧ j.start.value ≤ j.stop.value)) := by
  simp only [follows?, Offset.lt?_of_number hs hj, Offset.le?_of_number hj hj']
  by_cases h : start.value < j.start.value <;> simp [h]

theorem exists_closing (h : flow.Sound) {start stop : Offset} (hs : start.isNumber)
    (hstop : stop ∈ flow.offsets) : ∃ closed, (flow.table .handler).values.foldlM (fun stop i => do
      let handler := flow.jump i
      return if ← follows? start handler then handler.start else stop) stop = some closed ∧
      closed ∈ flow.offsets ∧ (closed = stop ∨ start.value < closed.value) := by
  have hall : ∀ i ∈ (flow.table .handler).values, ∃ o, flow.Filed .handler o i := by
    intro i hi
    obtain ⟨⟨o, _⟩, hm, rfl⟩ := List.mem_map.1 hi
    exact ⟨o, hm⟩
  -- the block is kept from closing before the last handler that follows it
  generalize (flow.table .handler).values = is at hall
  suffices hgo : ∀ at' ∈ flow.offsets, (at' = stop ∨ start.value < at'.value) →
      ∃ closed, is.foldlM (fun stop i => do
        let handler := flow.jump i
        return if ← follows? start handler then handler.start else stop) at' = some closed ∧
        closed ∈ flow.offsets ∧ (closed = stop ∨ start.value < closed.value) from
    hgo stop hstop (Or.inl rfl)
  induction is with
  | nil =>
    intro a ha hor
    exact ⟨a, rfl, ha, hor⟩
  | cons i is ih =>
    intro a ha hor
    obtain ⟨o, ho⟩ := hall i (by simp)
    obtain ⟨hm, _, rfl, hstop', _⟩ := h.handlers o i ho
    have hf := follows?_eq hs (h.ascending.numbers _ hm) (h.ascending.numbers _ hstop')
    simp only [List.foldlM_cons, hf, Option.bind_eq_bind, Option.bind_some, pure]
    have hrest := ih fun j hj => hall j (List.mem_cons_of_mem _ hj)
    by_cases hd : start.value < (flow.jump i).start.value ∧
        (flow.jump i).start.value ≤ (flow.jump i).stop.value
    · simpa [hd] using hrest _ hm (Or.inr hd.1)
    · simpa [hd] using hrest a ha hor

theorem yields_closeBlock_at (h : flow.Sound) {start stop closed : Offset}
    (he : (flow.table .handler).values.foldlM (fun stop i => do
      let handler := flow.jump i
      return if ← follows? start handler then handler.start else stop) stop = some closed)
    (hm : closed ∈ flow.offsets) {wanted : Offset → Flow → Prop} :
    Yields (closeBlock start stop) flow wanted ↔ wanted closed (flow.closedAt closed) := by
  simp only [closeBlock, yields_bind, yields_get, yields_settled]
  rw [show flow.tables.handlers = flow.table .handler from rfl, he]
  simp only [Option.some.injEq, exists_eq_left']
  rw [yields_textAt h hm]
  split
  · next ht =>
    have hr : flow.closedAt closed = flow.revised closed (blockEnd ++ ·) :=
      Flow.revised_congr h (if_pos ht)
    rw [yields_bind, yields_prepend h hm, yields_pure, ← hr]
  · next ht =>
    have hr : flow.closedAt closed = flow.revised closed (· ++ blockEnd) :=
      Flow.revised_congr h (if_neg ht)
    rw [yields_bind, yields_append h hm, yields_pure, ← hr]

theorem yields_closeBlock (h : flow.Sound) {start stop : Offset} (hs : start.isNumber)
    (hstop : stop ∈ flow.offsets) {wanted : Offset → Flow → Prop}
    (hw : ∀ closed ∈ flow.offsets, (closed = stop ∨ start.value < closed.value) →
      wanted closed (flow.closedAt closed)) : Yields (closeBlock start stop) flow wanted := by
  obtain ⟨closed, he, hm, hor⟩ := exists_closing h hs hstop
  exact (yields_closeBlock_at h he hm).2 (hw closed hm hor)

/-! ## Breaks and continues -/

theorem yields_showExit (h : flow.Sound) {i : Nat} (hi : flow.Exit i) {keyword : String}
    {wanted : Offset → Flow → Prop} : Yields (showExit keyword i) flow wanted ↔
      wanted (flow.jump i).stop (flow.shown keyword i) := by
  obtain ⟨hstart, hstop, _⟩ := h.exit_aimed hi
  have hretire : ∀ f : String → String,
      f (flow.text (flow.jump i).start) =
        flow.marked keyword (flow.jump i) (flow.text (flow.jump i).start) →
      (Yields (retire i) (flow.revised (flow.jump i).start f)
        (fun _ => wanted (flow.jump i).stop) ↔ wanted (flow.jump i).stop (flow.shown keyword i)) := by
    intro f hf
    rw [yields_retire (by simpa using h.kinds i hi.1.1), Flow.revised_congr h hf]
    rfl
  simp only [showExit, yields_bind, yields_jump]
  split
  · next hk =>
    rw [yields_bind, yields_append h hstart]
    simpa using hretire _ (by simp only [Flow.marked, if_pos hk])
  · next hk =>
    rw [yields_bind, yields_textAt h hstop]
    split
    · next ht =>
      rw [yields_bind, yields_prepend h hstart]
      simpa using hretire _ (by simp only [Flow.marked, if_neg hk, if_pos ht])
    · next ht =>
      rw [yields_bind, yields_append h hstart]
      simpa using hretire _ (by simp only [Flow.marked, if_neg hk, if_neg ht])

theorem leaves?_eq {first last : Offset} (hf : first.isNumber) (hl : last.isNumber) {j : Jump}
    (hs : j.start.isNumber) (he : j.stop.isNumber) : leaves? first last j =
      some (decide (first.value ≤ j.start.value ∧ j.start.value ≤ last.value ∧
        last.value < j.stop.value)) := by
  simp only [leaves?, Offset.le?_of_number hf hs, Offset.le?_of_number hs hl,
    Offset.lt?_of_number hl he]
  by_cases h1 : first.value ≤ j.start.value <;> by_cases h2 : j.start.value ≤ last.value <;>
    simp [h1, h2]

/-- Where the breaks out of a range go: to lines after the range. -/
def Beyond (flow : Flow) (last : Offset) (ends : List Offset) : Prop :=
  ∀ e ∈ ends, e ∈ flow.offsets ∧ last.value < e.value

theorem yields_breaksAmong {first last : Offset} (hf : first.isNumber) (hl : last.isNumber) :
    ∀ (is : List Nat) {flow : Flow}, flow.Sound → is.Nodup → (∀ i ∈ is, flow.Exit i) →
      Yields (breaksAmong first last is) flow fun ends result =>
        flow.Exits result ∧ Beyond flow last ends
  | [], flow, _, _, _ => by simp [breaksAmong, Beyond, Flow.Exits.none flow]
  | i :: is, flow, h, hn, hall => by
    have hi := hall i (by simp)
    obtain ⟨hstart, hstop, _⟩ := h.exit_aimed hi
    simp only [List.nodup_cons] at hn
    simp only [breaksAmong, yields_bind, yields_jump, yields_settled,
      leaves?_eq hf hl (h.ascending.numbers _ hstart) (h.ascending.numbers _ hstop)]
    refine ⟨_, rfl, ?_⟩
    split
    · next hd =>
      simp only [decide_eq_true_eq] at hd
      rw [yields_bind, yields_showExit h hi, yields_bind]
      refine (yields_breaksAmong hf hl is (h.shown hi _) hn.2 fun j hj => ?_).mono ?_
      · refine Flow.exit_shown hi.1 (hall j (by simp [hj])) ?_ _
        rintro rfl
        exact hn.1 hj
      · rintro ends result ⟨hex, hb⟩
        rw [yields_pure]
        refine ⟨.more (Or.inl rfl) hi hex, ?_⟩
        intro e he
        rcases List.mem_cons.1 he with rfl | he
        · exact ⟨hstop, hd.2.2⟩
        · exact hb e he
    · exact yields_breaksAmong hf hl is h hn.2 fun j hj => hall j (by simp [hj])

theorem yields_markBreaks (h : flow.Sound) {first last : Offset} (hf : first.isNumber)
    (hl : last.isNumber) : Yields (markBreaks first last) flow fun ends result =>
      flow.Exits result ∧ Beyond flow last ends := by
  simp only [markBreaks, yields_bind, yields_openTests, yields_openSkips]
  exact yields_breaksAmong hf hl _ h h.nodup_exits fun i hi => h.exit_of_mem hi

theorem resumes?_eq {first near last : Offset} (hf : first.isNumber) (hn : near.isNumber)
    (hl : last.isNumber) {j : Jump} (hs : j.start.isNumber) (he : j.stop.isNumber) :
    resumes? first near last j = some (decide (first.value ≤ j.start.value ∧
      near.value ≤ j.stop.value ∧ j.stop.value ≤ last.value)) := by
  simp only [resumes?, Offset.le?_of_number hf hs, Offset.le?_of_number hn he,
    Offset.le?_of_number he hl]
  by_cases h1 : first.value ≤ j.start.value <;> by_cases h2 : near.value ≤ j.stop.value <;>
    simp [h1, h2]

theorem yields_continuesAmong {first near last : Offset} (hf : first.isNumber) (hn : near.isNumber)
    (hl : last.isNumber) : ∀ (is : List Nat) {flow : Flow}, flow.Sound → is.Nodup →
      (∀ i ∈ is, flow.Exit i) → Yields (continuesAmong first near last is) flow fun _ result =>
        flow.Exits result
  | [], flow, _, _, _ => by simp [continuesAmong, Flow.Exits.none flow]
  | i :: is, flow, h, hd, hall => by
    have hi := hall i (by simp)
    obtain ⟨hstart, hstop, _⟩ := h.exit_aimed hi
    simp only [List.nodup_cons] at hd
    have hrest := fun j hj => hall j (List.mem_cons_of_mem i hj)
    simp only [continuesAmong, yields_bind, yields_jump, yields_settled,
      resumes?_eq hf hn hl (h.ascending.numbers _ hstart) (h.ascending.numbers _ hstop)]
    refine ⟨_, rfl, ?_⟩
    split
    · rw [yields_bind, yields_skipAt?]
      split
      · exact yields_continuesAmong hf hn hl is h hd.2 hrest
      · rw [yields_bind, yields_showExit h hi]
        refine (yields_continuesAmong hf hn hl is (h.shown hi _) hd.2 fun j hj => ?_).mono ?_
        · refine Flow.exit_shown hi.1 (hrest j hj) ?_ _
          rintro rfl
          exact hd.1 hj
        · intro _ result hex
          exact .more (Or.inr rfl) hi hex
    · exact yields_continuesAmong hf hn hl is h hd.2 hrest

theorem yields_markContinues (h : flow.Sound) {first last : Offset} (hf : first.isNumber)
    (hl : last.isNumber) : Yields (markContinues first last) flow fun _ result =>
      flow.Exits result := by
  simp only [markContinues, yields_bind, yields_get]
  split
  · exact yields_pure.2 (.none flow)
  · next near hn =>
    simp only [yields_bind, yields_openTests, yields_openSkips]
    have hnear := h.ascending.numbers _ (Flow.mem_of_neighbour hn)
    exact yields_continuesAmong hf hnear hl _ h h.nodup_exits fun i hi => h.exit_of_mem hi

/-! ## Loops and guarded ranges -/

theorem yields_wrapLoop (h : flow.Sound) {i : Nat} (hi : flow.Open i) (hk : (flow.jump i).kind = .loop)
    (hs : (flow.jump i).start ∈ flow.offsets) : Yields (wrapLoop i) flow fun _ result =>
      ∃ closed ∈ flow.offsets, (flow.jump i).start.value < closed.value ∧
        (((flow.revised (flow.jump i).start ("while (true)\n\x7b\n" ++ ·)).closedAt closed).retired
          i).Exits result := by
  have ha := h.aimed i hi
  unfold Flow.Aimed at ha
  rw [hk] at ha
  obtain ⟨hnum, hstop, hlt⟩ := ha
  obtain ⟨last, hlast⟩ := h.ascending.exists_previous hstop hs hlt
  have hlnum := h.ascending.numbers _ hlast.left
  simp only [wrapLoop, yields_bind, yields_jump, hk, ne_eq, not_true_eq_false, if_false]
  rw [yields_prepend h hs]
  refine yields_closeBlock (h.revised _ _) hnum hstop ?_
  intro closed hm hor
  have hsound := (h.revised (flow.jump i).start ("while (true)\n\x7b\n" ++ ·)).closedAt closed
  have hret := hsound.retired (i := i) hi.1
  rw [yields_retire (by simpa using h.kinds i hi.1), yields_neighbour]
  refine ⟨last, Flow.neighbour_neg_one h.ascending hlast, ?_⟩
  refine (yields_markBreaks hret hnum hlnum).mono ?_
  rintro _ middle ⟨hbreaks, _⟩
  refine (yields_markContinues (hret.exits hbreaks) hnum hlnum).mono ?_
  intro _ result hcontinues
  rw [yields_pure]
  refine ⟨closed, hm, ?_, hbreaks.trans hcontinues⟩
  rcases hor with rfl | hor
  · exact hlt
  · exact hor

theorem yields_fileHandler {i : Nat} {wanted : Unit → Flow → Prop} :
    Yields (fileHandler i) flow wanted ↔ wanted () (flow.withHandler i) := by
  simp [fileHandler, Flow.withHandler]

theorem yields_wrapGuarded (h : flow.Sound) {i : Nat} (hi : flow.Open i)
    (hk : (flow.jump i).kind = .guarded) (hs : (flow.jump i).start ∈ flow.offsets)
    {wanted : Bool → Flow → Prop}
    (hw : wanted true (flow.guardedWith i ((flow.table .skip).get? (flow.jump i).stop))) :
    Yields (wrapGuarded i) flow wanted := by
  have ha := h.aimed i hi
  unfold Flow.Aimed at ha
  rw [hk] at ha
  obtain ⟨_, hstop, _⟩ := ha
  have hopen := h.revised (flow.jump i).start ("try\n\x7b\n" ++ ·)
  simp only [wrapGuarded, yields_bind, yields_jump, hk, ne_eq, not_true_eq_false, if_false]
  rw [yields_prepend h hs, yields_skipAt?, Flow.table_revised]
  cases hskip : (flow.table .skip).get? (flow.jump i).stop with
  | none =>
    rw [hskip] at hw
    dsimp only
    rw [yields_bind, yields_append hopen hstop, yields_bind,
      yields_retire (by simpa using h.kinds i hi.1), yields_pure]
    exact hw
  | some skip =>
    rw [hskip] at hw
    obtain ⟨ho, hkind, hstart⟩ := (h.filed _ _ _ (by simp)).1 (h.lookup.1 hskip)
    obtain ⟨hs', he', _⟩ := h.exit_aimed ⟨ho, Or.inr hkind⟩
    simp only [yields_bind, yields_jump, Flow.jump_revised]
    rw [yields_append hopen hs', yields_append (hopen.revised _ _) he', yields_fileHandler,
      yields_retire (by simpa using h.kinds skip ho.1),
      yields_retire (by simpa using h.kinds i hi.1), yields_pure]
    exact hw

end FlowM

end Bytelift
