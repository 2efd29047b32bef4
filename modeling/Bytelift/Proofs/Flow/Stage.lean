import Bytelift.Proofs.Loop.Exits

/-! Code between two handlers, told line by line and jump by jump: what its lines read, which jumps are open,
and where a handler was filed. So told, each action of a handler is a change to one line of a list and the
loss of one jump from another. -/

namespace Bytelift

open Run Text

def Jump.LeavesRange (first last : Offset) (j : Jump) : Prop :=
  first.value ≤ j.start.value ∧ j.start.value ≤ last.value ∧ last.value < j.stop.value

/-- A jump starts no earlier than a range and stops no later than it. -/
def Jump.StaysIn (first last : Offset) (j : Jump) : Prop :=
  first.value ≤ j.start.value ∧ j.stop.value ≤ last.value

def Jump.MayLeave (j : Jump) : Prop := j.kind = .test ∨ j.kind = .skip

/-- A jump that needs no statement of its own: a skip, or an arm without the header. -/
def Jump.Quiet (j : Jump) : Prop :=
  j.kind = .skip ∨ j.kind = .arm ∧ ∃ arm, j.arm = some arm ∧ has arm.labels "switch" = false

@[simp] theorem CodeLine.offset_reading (line : CodeLine) (text : String) : (line.reading text).offset = line.offset :=
  rfl

@[simp] theorem CodeLine.rendered_reading (line : CodeLine) (text : String) : (line.reading text).rendered = text := rfl

@[simp] theorem CodeLine.reading_reading (line : CodeLine) (text more : String) :
    (line.reading text).reading more = line.reading more := rfl

/-- Revising the text of one line leaves all others. -/
theorem CodeLine.map_revised {before after : List CodeLine} {line : CodeLine}
    (hn : ((before ++ line :: after).map (·.offset)).Nodup) (f : String → String) :
    (before ++ line :: after).map (CodeLine.revised line.offset f) =
      before ++ line.reading (f line.rendered) :: after := by
  rw [List.map_append, List.map_cons, List.nodup_append, List.nodup_cons] at hn
  obtain ⟨_, ⟨hafter, _⟩, hbefore⟩ := hn
  have hkeep : ∀ lines : List CodeLine, line.offset ∉ lines.map (·.offset) →
      lines.map (CodeLine.revised line.offset f) = lines := fun lines hl => (Flow.reviseLast_eq_none hl).2
  rw [List.map_append, List.map_cons, hkeep after hafter,
    hkeep before fun hm => hbefore _ hm _ (by simp) rfl, CodeLine.revised, if_pos rfl]
  rfl

namespace FlowM

open Flow

variable {flow : Flow} {first last : Offset}

/-! ## Ranges that one jump leaves, or none -/

theorem leaves?_of_exit (h : flow.Sound) (hf : first.isNumber) (hl : last.isNumber) {i : Nat}
    (hi : flow.Exit i) : ∃ leaves, leaves? first last (flow.jump i) = some leaves ∧
      (leaves = true ↔ (flow.jump i).LeavesRange first last) := by
  obtain ⟨hstart, hstop, _⟩ := h.exit_aimed hi
  exact ⟨_, leaves?_eq hf hl (h.ascending.numbers _ hstart) (h.ascending.numbers _ hstop), decide_eq_true_iff⟩

theorem yields_breaksAmong_none (h : flow.Sound) (hf : first.isNumber) (hl : last.isNumber)
    {wanted : List Offset → Flow → Prop} : ∀ (is : List Nat), (∀ i ∈ is, flow.Exit i) →
    (∀ i ∈ is, ¬(flow.jump i).LeavesRange first last) →
    (Yields (breaksAmong first last is) flow wanted ↔ wanted [] flow)
  | [], _, _ => by simp [breaksAmong]
  | i :: is, hall, hnone => by
    obtain ⟨leaves, heq, hiff⟩ := leaves?_of_exit h hf hl (hall i (by simp))
    simp only [breaksAmong, yields_bind, yields_jump, yields_settled, heq, Option.some.injEq, exists_eq_left']
    rw [if_neg fun ht => hnone i (by simp) (hiff.1 ht)]
    exact yields_breaksAmong_none h hf hl is (fun j hj => hall j (List.mem_cons_of_mem i hj))
      fun j hj => hnone j (List.mem_cons_of_mem i hj)

theorem yields_breaksAmong_one (h : flow.Sound) (hf : first.isNumber) (hl : last.isNumber) {i : Nat}
    (hi : flow.Exit i) (hleaves : (flow.jump i).LeavesRange first last)
    {wanted : List Offset → Flow → Prop} : ∀ (is : List Nat), is.Nodup → (∀ j ∈ is, flow.Exit j) →
    (∀ j ∈ is, j ≠ i → ¬(flow.jump j).LeavesRange first last) → i ∈ is →
    (Yields (breaksAmong first last is) flow wanted ↔
      wanted [(flow.jump i).stop] (flow.shown "break" i))
  | [], _, _, _, hm => by cases hm
  | j :: is, hn, hall, hothers, hm => by
    rw [List.nodup_cons] at hn
    obtain ⟨leaves, heq, hiff⟩ := leaves?_of_exit h hf hl (hall j (by simp))
    simp only [breaksAmong, yields_bind, yields_jump, yields_settled, heq, Option.some.injEq, exists_eq_left']
    by_cases he : j = i
    · subst he
      have hne : ∀ k ∈ is, j ≠ k := fun k hk hjk => hn.1 (hjk ▸ hk)
      rw [if_pos (hiff.2 hleaves), yields_bind, yields_showExit h hi, yields_bind,
        yields_breaksAmong_none (h.shown hi _) hf hl is, yields_pure]
      · intro k hk
        exact exit_shown hi.1 (hall k (List.mem_cons_of_mem j hk)) (hne k hk) _
      · intro k hk
        rw [jump_shown hi.1.1 (hne k hk)]
        exact hothers k (List.mem_cons_of_mem j hk) (hne k hk).symm
    · rw [if_neg fun ht => hothers j (by simp) he (hiff.1 ht)]
      exact yields_breaksAmong_one h hf hl hi hleaves is hn.2 (fun k hk => hall k (List.mem_cons_of_mem j hk))
        (fun k hk => hothers k (List.mem_cons_of_mem j hk)) ((List.mem_cons.1 hm).resolve_left (Ne.symm he))

theorem mem_exits (h : flow.Sound) {i : Nat} (hi : flow.Exit i) :
    i ∈ (flow.table .test).values ++ (flow.table .skip).values := by
  rw [List.mem_append, h.mem_values (by simp), h.mem_values (by simp)]
  exact hi.2.imp (fun hk => ⟨hi.1, hk⟩) fun hk => ⟨hi.1, hk⟩

theorem yields_continuesAmong_none (h : flow.Sound) (hf : first.isNumber) (hl : last.isNumber) {near : Offset}
    (hn : near.isNumber) (hnone : ∀ i, flow.Exit i → ¬(flow.jump i).StaysIn first last)
    {wanted : Unit → Flow → Prop} : ∀ (is : List Nat), (∀ i ∈ is, flow.Exit i) →
    (Yields (continuesAmong first near last is) flow wanted ↔ wanted () flow)
  | [], _ => by simp [continuesAmong]
  | i :: is, hall => by
    obtain ⟨hstart, hstop, _⟩ := h.exit_aimed (hall i (by simp))
    have hout := hnone i (hall i (by simp))
    simp only [continuesAmong, yields_bind, yields_jump, yields_settled,
      resumes?_eq hf hn hl (h.ascending.numbers _ hstart) (h.ascending.numbers _ hstop),
      Option.some.injEq, exists_eq_left']
    rw [if_neg fun ht => hout ⟨(of_decide_eq_true ht).1, (of_decide_eq_true ht).2.2⟩]
    exact yields_continuesAmong_none h hf hl hn hnone is fun j hj => hall j (List.mem_cons_of_mem i hj)

/-! ## Jumps without a statement -/

theorem yields_handleJump_quiet (h : flow.Sound) {i : Nat} (hi : i < flow.jumps.length)
    (hq : flow.Open i → (flow.jump i).Quiet) : Yields (handleJump i) flow fun _ result => result = flow := by
  simp only [handleJump, yields_bind, yields_jump]
  split
  · exact yields_pure.2 rfl
  · next hd =>
    have ho : flow.Open i := ⟨hi, by simpa using hd⟩
    rcases hq ho with hk | ⟨hk, arm, harm, hlabels⟩
    · rw [hk]
      simp only [yields_bind]
      exact (yields_isIdle h ⟨ho, Or.inr hk⟩).mono fun _ _ he => yields_pure.2 he
    · rw [hk]
      simp [handleArm, layOutTable, armOf, hk, harm, hlabels]

theorem yields_handleJumps_quiet (h : flow.Sound) : ∀ (is : List Nat), (∀ i ∈ is, i < flow.jumps.length) →
    (∀ i ∈ is, flow.Open i → (flow.jump i).Quiet) → Yields (handleJumps is) flow fun _ result => result = flow
  | [], _, _ => yields_pure.2 rfl
  | i :: is, hlt, hall => by
    simp only [handleJumps, yields_bind]
    refine (yields_handleJump_quiet h (hlt i (by simp)) (hall i (by simp))).mono fun _ result he => ?_
    rw [he]
    exact yields_handleJumps_quiet h is (fun j hj => hlt j (List.mem_cons_of_mem i hj))
      fun j hj => hall j (List.mem_cons_of_mem i hj)

theorem yields_handleJumps_append {js : List Nat} {wanted : Unit → Flow → Prop} : ∀ (is : List Nat) {flow : Flow},
    Yields (handleJumps (is ++ js)) flow wanted ↔
      Yields (handleJumps is) flow fun _ middle => Yields (handleJumps js) middle wanted
  | [], flow => by simp [handleJumps]
  | i :: is, flow => by
    simp only [List.cons_append, handleJumps, yields_bind, yields_handleJumps_append is]

end FlowM

namespace Flow

/-- Where a block closes: where it should, or at the last of the handlers that start after the block does. A
handler is told by where it starts and stops. -/
def closing (handlers : List (Offset × Offset)) (start stop : Offset) : Offset :=
  handlers.foldl (fun stop h => if start.value < h.1.value ∧ h.1.value ≤ h.2.value then h.1 else stop) stop

/-- Code between two handlers: its lines, its open jumps, and the extents of handlers that were filed. -/
structure Stage (flow : Flow) (lines : List CodeLine) (pending : List Jump) (handlers : List (Offset × Offset)) :
    Prop where
  sound : flow.Sound
  reads : flow.code = lines
  distinct : pending.Nodup
  mem : ∀ j, j ∈ pending ↔ ∃ i, flow.Open i ∧ flow.jump i = j
  handled : (flow.table .handler).values.map (fun i => ((flow.jump i).start, (flow.jump i).stop)) = handlers

/-- No jump has moved, and some are as they were. -/
structure Keeps (flow result : Flow) (jumps : List Jump) : Prop extends Follows flow result where
  same : ∀ i, flow.Open i → flow.jump i ∈ jumps → result.Open i ∧ result.jump i = flow.jump i

theorem Keeps.trans {flow middle result : Flow} {jumps fewer : List Jump} (h : flow.Keeps middle jumps)
    (h' : middle.Keeps result fewer) (hs : fewer ⊆ jumps) : flow.Keeps result fewer where
  toFollows := h.toFollows.trans h'.toFollows
  same := by
    intro i hi hj
    obtain ⟨ho, he⟩ := h.same i hi (hs hj)
    obtain ⟨ho', he'⟩ := h'.same i ho (he ▸ hj)
    exact ⟨ho', he'.trans he⟩

theorem Keeps.mono {flow result : Flow} {jumps fewer : List Jump} (h : flow.Keeps result jumps)
    (hs : fewer ⊆ jumps) : flow.Keeps result fewer := ⟨h.toFollows, fun i hi hj => h.same i hi (hs hj)⟩

/-- A jump that is still open, as it is. -/
def OpenAs (flow : Flow) (i : Nat) (j : Jump) : Prop := flow.Open i ∧ flow.jump i = j

theorem map_jump_of_openAs {flow : Flow} {is : List Nat} {js : List Jump} (h : List.Forall₂ flow.OpenAs is js) :
    is.map flow.jump = js := by
  induction h with
  | nil => rfl
  | cons hi _ ih => rw [List.map_cons, hi.2, ih]

theorem Keeps.openAs {flow result : Flow} {jumps : List Jump} (h : flow.Keeps result jumps) {is : List Nat}
    {js : List Jump} (hj : List.Forall₂ flow.OpenAs is js) (hs : ∀ j ∈ js, j ∈ jumps) :
    List.Forall₂ result.OpenAs is js := by
  induction hj with
  | nil => exact .nil
  | cons hi _ ih =>
    obtain ⟨ho, rfl⟩ := hi
    obtain ⟨hkept, hsame⟩ := h.same _ ho (hs _ (by simp))
    exact .cons ⟨hkept, hsame⟩ (ih fun j hj => hs j (List.mem_cons_of_mem _ hj))

namespace Stage

variable {flow : Flow} {lines before after : List CodeLine} {line : CodeLine} {pending rest : List Jump}
  {j : Jump} {handlers : List (Offset × Offset)} {first last : Offset}

theorem perm (h : flow.Stage lines pending handlers) (hp : pending.Perm rest) : flow.Stage lines rest handlers :=
  { h with distinct := hp.nodup_iff.1 h.distinct, mem := fun j => hp.mem_iff.symm.trans (h.mem j) }

theorem offsets_eq (h : flow.Stage lines pending handlers) : flow.offsets = lines.map (·.offset) :=
  h.reads ▸ h.sound.lines

theorem ascending (h : flow.Stage lines pending handlers) : Ascending (lines.map (·.offset)) :=
  h.offsets_eq ▸ h.sound.ascending

theorem offset_mem (h : flow.Stage lines pending handlers) (hl : line ∈ lines) : line.offset ∈ flow.offsets :=
  h.offsets_eq ▸ List.mem_map_of_mem hl

theorem exit_mem (h : flow.Stage lines pending handlers) {i : Nat} (hi : flow.Exit i) :
    flow.jump i ∈ pending ∧ (flow.jump i).MayLeave := ⟨(h.mem _).2 ⟨i, hi.1, rfl⟩, hi.2⟩

/-- An open jump is filed under its start. -/
theorem lookup (h : flow.Stage lines pending handlers) (hj : j ∈ pending) (hk : j.kind ≠ .handler) :
    ∃ i, flow.Open i ∧ flow.jump i = j ∧ (flow.table j.kind).get? j.start = some i := by
  obtain ⟨i, hi, rfl⟩ := (h.mem j).1 hj
  exact ⟨i, hi, rfl, h.sound.lookup.2 ((h.sound.filed _ _ _ hk).2 ⟨hi, rfl, rfl⟩)⟩

/-- Nothing else is. -/
theorem lookup_none (h : flow.Stage lines pending handlers) {k : JumpKind} {o : Offset} (hk : k ≠ .handler)
    (hnone : ∀ j ∈ pending, j.kind = k → j.start ≠ o) : (flow.table k).get? o = none := by
  by_contra hsome
  obtain ⟨i, hi⟩ := Option.ne_none_iff_exists'.1 hsome
  obtain ⟨ho, hkind, hstart⟩ := (h.sound.filed _ _ _ hk).1 (h.sound.lookup.1 hi)
  exact hnone _ ((h.mem _).2 ⟨i, ho, rfl⟩) hkind hstart

theorem text_eq (h : flow.Stage (before ++ line :: after) pending handlers) : flow.text line.offset = line.rendered :=
  h.sound.text_eq (by rw [h.reads]; simp)

theorem revised (h : flow.Stage (before ++ line :: after) pending handlers) (f : String → String) :
    (flow.revised line.offset f).Stage (before ++ line.reading (f line.rendered) :: after) pending handlers where
  sound := h.sound.revised _ _
  reads := by
    change flow.code.map _ = _
    rw [h.reads, CodeLine.map_revised h.ascending.nodup]
  distinct := h.distinct
  mem := h.mem
  handled := h.handled

theorem keeps_retired (h : flow.Stage lines (j :: rest) handlers) {i : Nat} (hi : flow.Open i)
    (hj : flow.jump i = j) : flow.Keeps (flow.retired i) rest := by
  refine ⟨(onward_retired flow i).toFollows, fun l hl hm => ?_⟩
  have hne : i ≠ l := by
    rintro rfl
    exact (List.nodup_cons.1 h.distinct).1 (hj ▸ hm)
  exact ⟨(open_retired hi.1).2 ⟨hl, hne⟩, by rw [jump_retired hi.1, if_neg hne]⟩

theorem retired (h : flow.Stage lines (j :: rest) handlers) {i : Nat} (hi : flow.Open i)
    (hj : flow.jump i = j) : (flow.retired i).Stage lines rest handlers where
  sound := h.sound.retired hi.1
  reads := h.reads
  distinct := (List.nodup_cons.1 h.distinct).2
  mem := by
    intro k
    constructor
    · intro hk
      obtain ⟨l, hl, rfl⟩ := (h.mem k).1 (List.mem_cons_of_mem j hk)
      exact ⟨l, (h.keeps_retired hi hj).same l hl hk⟩
    · rintro ⟨l, hl, hlk⟩
      obtain ⟨hl, hne⟩ := (open_retired hi.1).1 hl
      rw [jump_retired hi.1, if_neg hne] at hlk
      refine (List.mem_cons.1 ((h.mem k).2 ⟨l, hl, hlk⟩)).resolve_left fun hkj => hne ?_
      -- two jumps alike are one
      have halike : flow.jump i = flow.jump l := by rw [hj, hlk, hkj]
      exact h.sound.once i l hi.1 hl.1 (by rw [halike]) (by rw [halike])
  handled := by
    have hk := h.sound.kinds i hi.1
    have hne : (flow.jump i).kind ≠ .handler := by
      intro he
      rw [he] at hk
      exact absurd hk (by decide)
    simp only [table_retired hk, if_neg hne, start_retired, stop_retired]
    exact h.handled

/-- A jump that starts where no open jump does is done. -/
theorem not_open {result : Flow} (h : result.Stage lines rest handlers) (hf : flow.Follows result) {i : Nat}
    (hi : flow.jump i = j)
    (hnone : ∀ k ∈ rest, k.kind = j.kind → k.start ≠ j.start) : ¬result.Open i := by
  intro ho
  refine hnone _ ((h.mem _).2 ⟨i, ho, rfl⟩) ?_ ?_
  · rw [hf.kind, hi]
  · rw [hf.start, hi]

/-- Where a block closes. -/
theorem closes (h : flow.Stage lines pending handlers) {start : Offset} (hs : start.isNumber) (stop : Offset) :
    (flow.table .handler).values.foldlM (fun stop i => do
      let handler := flow.jump i
      return if ← FlowM.follows? start handler then handler.start else stop) stop =
    some (closing handlers start stop) := by
  have hall : ∀ i ∈ (flow.table .handler).values, (flow.jump i).start.isNumber ∧ (flow.jump i).stop.isNumber := by
    intro i hi
    obtain ⟨⟨o, _⟩, hm, rfl⟩ := List.mem_map.1 hi
    obtain ⟨ho, _, hstart, hstop, _⟩ := h.sound.handlers o _ hm
    subst hstart
    exact ⟨h.sound.ascending.numbers _ ho, h.sound.ascending.numbers _ hstop⟩
  rw [← h.handled, closing, List.foldl_map]
  generalize (flow.table .handler).values = is at hall
  induction is generalizing stop with
  | nil => rfl
  | cons i is ih =>
    obtain ⟨hstart, hstop⟩ := hall i (by simp)
    simp only [List.foldlM_cons, FlowM.follows?_eq hs hstart hstop, Option.bind_eq_bind, Option.bind_some, pure,
      List.foldl_cons, decide_eq_true_eq]
    exact ih _ fun j hj => hall j (List.mem_cons_of_mem i hj)

theorem keeps_revised (flow : Flow) (o : Offset) (f : String → String) (jumps : List Jump) :
    flow.Keeps (flow.revised o f) jumps := ⟨(onward_revised flow o f).toFollows, fun _ hi _ => ⟨hi, rfl⟩⟩

/-! ## Actions -/

theorem yields_append (h : flow.Stage (before ++ line :: after) pending handlers) {o : Offset} (ho : o = line.offset)
    {text : String} {wanted : Unit → Flow → Prop} (hw : ∀ result : Flow, flow.Keeps result pending →
      result.Stage (before ++ line.reading (line.rendered ++ text) :: after) pending handlers → wanted () result) :
    Yields (FlowM.append o text) flow wanted := by
  subst ho
  rw [FlowM.yields_append h.sound (h.offset_mem (by simp))]
  exact hw _ (keeps_revised _ _ _ _) (h.revised (· ++ text))

theorem yields_prepend (h : flow.Stage (before ++ line :: after) pending handlers) {o : Offset} (ho : o = line.offset)
    {text : String} {wanted : Unit → Flow → Prop} (hw : ∀ result : Flow, flow.Keeps result pending →
      result.Stage (before ++ line.reading (text ++ line.rendered) :: after) pending handlers → wanted () result) :
    Yields (FlowM.prepend o text) flow wanted := by
  subst ho
  rw [FlowM.yields_prepend h.sound (h.offset_mem (by simp))]
  exact hw _ (keeps_revised _ _ _ _) (h.revised (text ++ ·))

theorem yields_closeBlock (h : flow.Stage (before ++ line :: after) pending handlers) {start stop : Offset}
    (hs : start.isNumber) (hc : closing handlers start stop = line.offset) {wanted : Offset → Flow → Prop}
    (hw : ∀ result : Flow, flow.Keeps result pending →
      result.Stage (before ++ line.reading (closeText line.rendered) :: after) pending handlers →
      wanted line.offset result) : Yields (FlowM.closeBlock start stop) flow wanted := by
  rw [FlowM.yields_closeBlock_at h.sound (h.closes hs stop) (hc ▸ h.offset_mem (by simp)), hc]
  exact hw _ (keeps_revised _ _ _ _) (h.revised _)

theorem yields_retire (h : flow.Stage lines (j :: rest) handlers) {i : Nat} (hi : flow.Open i) (hj : flow.jump i = j)
    {wanted : Unit → Flow → Prop} (hw : ∀ result : Flow, flow.Keeps result rest → result.Stage lines rest handlers →
      wanted () result) : Yields (FlowM.retire i) flow wanted := by
  rw [FlowM.yields_retire (h.sound.kinds i hi.1)]
  exact hw _ (h.keeps_retired hi hj) (h.retired hi hj)

theorem yields_markBreaks_none (h : flow.Stage lines pending handlers) (hf : first.isNumber) (hl : last.isNumber)
    (hnone : ∀ j ∈ pending, j.MayLeave → ¬j.LeavesRange first last) {wanted : List Offset → Flow → Prop} :
    Yields (FlowM.markBreaks first last) flow wanted ↔ wanted [] flow := by
  simp only [FlowM.markBreaks, yields_bind, FlowM.yields_openTests, FlowM.yields_openSkips]
  refine FlowM.yields_breaksAmong_none h.sound hf hl _ (fun i hi => h.sound.exit_of_mem hi) fun i hi => ?_
  obtain ⟨hm, hk⟩ := h.exit_mem (h.sound.exit_of_mem hi)
  exact hnone _ hm hk

/-- The one open jump that leaves a range is shown on its line. -/
theorem yields_markBreaks_one (h : flow.Stage (before ++ line :: after) (j :: rest) handlers) (hf : first.isNumber)
    (hl : last.isNumber) (hk : j.MayLeave) (hj : j.start = line.offset) (hleaves : j.LeavesRange first last)
    (hothers : ∀ k ∈ rest, k.MayLeave → ¬k.LeavesRange first last) :
    Yields (FlowM.markBreaks first last) flow fun ends result => ends = [j.stop] ∧ flow.Keeps result rest ∧
      result.Stage (before ++ line.reading (flow.marked "break" j line.rendered) :: after) rest handlers := by
  obtain ⟨i, hi, rfl⟩ := (h.mem j).1 (by simp)
  simp only [FlowM.markBreaks, yields_bind, FlowM.yields_openTests, FlowM.yields_openSkips]
  rw [FlowM.yields_breaksAmong_one h.sound hf hl ⟨hi, hk⟩ hleaves _ h.sound.nodup_exits
    (fun k hk => h.sound.exit_of_mem hk) ?_ (FlowM.mem_exits h.sound ⟨hi, hk⟩)]
  · rw [Flow.shown, hj]
    have hmarked := h.revised (flow.marked "break" (flow.jump i))
    have hkept := (keeps_revised flow _ _ rest).trans (hmarked.keeps_retired hi rfl) (List.Subset.refl rest)
    exact ⟨rfl, hkept, hmarked.retired hi rfl⟩
  · intro k hk hne
    obtain ⟨hm, hmay⟩ := h.exit_mem (h.sound.exit_of_mem hk)
    refine hothers _ ((List.mem_cons.1 hm).resolve_left fun he => hne ?_) hmay
    exact h.sound.once k i (h.sound.exit_of_mem hk).1.1 hi.1 (by rw [he]) (by rw [he])

theorem yields_markContinues_none (h : flow.Stage lines pending handlers) (hf : first.isNumber) (hl : last.isNumber)
    (hnone : ∀ j ∈ pending, j.MayLeave → ¬j.StaysIn first last) {wanted : Unit → Flow → Prop} :
    Yields (FlowM.markContinues first last) flow wanted ↔ wanted () flow := by
  simp only [FlowM.markContinues, yields_bind, yields_get]
  split
  · exact yields_pure
  · next near hnear =>
    simp only [yields_bind, FlowM.yields_openTests, FlowM.yields_openSkips]
    refine FlowM.yields_continuesAmong_none h.sound hf hl
      (h.sound.ascending.numbers _ (Flow.mem_of_neighbour hnear)) (fun i hi => ?_) _
      fun i hi => h.sound.exit_of_mem hi
    obtain ⟨hm, hk⟩ := h.exit_mem hi
    exact hnone _ hm hk

end Stage

end Flow

end Bytelift
