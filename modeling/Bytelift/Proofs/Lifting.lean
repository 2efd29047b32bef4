import Bytelift.Proofs.BackEdges
import Bytelift.Proofs.Flow.Stage
import Bytelift.Proofs.Listing.Text
import Bytelift.Proofs.Loop.Nest
import Mathlib.Data.List.Infix

/-! From code to the jumps that are handled, and from what the handlers leave to the lines that are shown.
What a function is lifted to is settled by its handlers alone: they start from code that reads as its
instructions do, with every jump that was recorded stopping on the last line it passes over. -/

namespace Bytelift

open Run Text Instruction

theorem Ascending.sublist {offsets more : List Offset} (h : Ascending more) (hs : offsets.Sublist more) :
    Ascending offsets := ⟨fun o ho => h.numbers o (hs.subset ho), h.grows.sublist hs⟩

namespace Instruction

open JumpTables

def jumpsOf (code : List CodeLine) (handlers : Handlers) : List Jump :=
  ((guardTables handlers).table .guarded).values ++ (code.filterMap filed? ++ code.flatMap armsOf)

/-- Code that is rendered without a prompt, and whose jumps go from lines to other lines. -/
structure Recordable (code : List CodeLine) (handlers : Handlers) : Prop where
  ascending : Ascending (offsetsOf code)
  legible : ∀ line ∈ code, legible line = true
  known : ∀ line ∈ code, isUnknown line = false
  headers : (headers code).Nodup
  arms : ((code.flatMap armsOf).map (·.start)).Nodup
  aimed : WellAimed code handlers
  moves : ∀ j ∈ jumpsOf code handlers, j.start ≠ j.stop ∧ j.kind ≠ .receiver

/-- Code that can be recorded, and whose jumps can be sorted. -/
structure Liftable (code : List CodeLine) (handlers : Handlers) : Prop extends Recordable code handlers where
  sorts : ∀ o ∈ offsetsOf code, (Binary64.nearestWhole? o.value).isSome

/-! ## What is recorded -/

/-- Arms with new starts go to the end of their table. -/
theorem entries_fileArms : ∀ (arms : List Jump) {t : JumpTables Jump},
    ((t.table .arm).keys ++ arms.map (·.start)).Nodup →
    ((fileArms t arms).table .arm).entries = (t.table .arm).entries ++ arms.map fun j => (j.start, j)
  | [], t, _ => by simp [fileArms]
  | j :: arms, t, hn => by
    have hout : j.start ∉ (t.table .arm).keys := by
      intro hm
      rw [List.nodup_append] at hn
      exact hn.2.2 _ hm j.start (by simp) rfl
    have hput : ((t.put .arm j.start j).table .arm).entries = (t.table .arm).entries ++ [(j.start, j)] := by
      rw [table_put rfl, if_pos rfl, Table.put, Table.putEntry_of_notMem _ hout]
    change ((fileArms (t.put .arm j.start j) arms).table .arm).entries = _
    rw [entries_fileArms arms (by rw [Table.keys, hput]; simpa [Table.keys] using hn), hput]
    simp

theorem armsOf_of_filed? {line : CodeLine} {j : Jump} (h : filed? line = some j) : armsOf line = [] := by
  obtain ⟨kind, text, target, hf, _⟩ := form?_of_filed? h
  simp [armsOf, hf]

/-- What lines add to the table of arms. -/
theorem entries_arm_foldl : ∀ (lines : List CodeLine) {t : JumpTables Jump},
    (∀ line ∈ lines, ∀ j, filed? line = some j → j.kind ∈ JumpKind.made) →
    ((t.table .arm).keys ++ (lines.flatMap armsOf).map (·.start)).Nodup →
    ((lines.foldl recorded t).table .arm).entries =
      (t.table .arm).entries ++ (lines.flatMap armsOf).map fun j => (j.start, j)
  | [], t, _, _ => by simp
  | line :: lines, t, hk, hn => by
    rw [List.flatMap_cons, List.map_append, ← List.append_assoc] at hn
    have hline : ((recorded t line).table .arm).entries =
        (t.table .arm).entries ++ (armsOf line).map fun j => (j.start, j) := by
      rw [recorded]
      cases hj : filed? line with
      | none => exact entries_fileArms _ (List.nodup_append.1 hn).1
      | some j =>
        have hmade := hk line (by simp) j hj
        rw [table_put (get?_isSome_of_filed t (JumpKind.filed_of_made hmade)),
          if_neg (JumpKind.ne_arm_of_made hmade), armsOf_of_filed? hj]
        simp
    rw [List.foldl_cons, entries_arm_foldl lines (fun l hl => hk l (by simp [hl])) ?_, hline]
    · simp
    · rw [Table.keys, hline]
      simpa [Table.keys, Function.comp_def] using hn

/-- A line that is known reads as one text. -/
theorem settles_of_legible {line : CodeLine} (hn : line.offset.isNumber) (hl : legible line = true)
    (hu : isUnknown line = false) : Settles line (line.reading (textOf line)) := by
  rcases cases_of_legible hn hl with h | hs | ⟨arms, hf, _⟩ | ⟨j, hj, _⟩
  · rw [hu] at h
    cases h
  · unfold statement? at hs
    unfold textOf statement?
    split at hs
    · next parts hf =>
      rw [hf]
      cases hr : renderParts (operands line) parts with
      | error fault => simp [hr, Except.toOption] at hs
      | ok text => exact settles_of_form hf hr
    · next hf =>
      rw [hf]
      cases hr : intrinsicCall (operands line) with
      | error fault => simp [hr, Except.toOption] at hs
      | ok text => exact settles_of_form hf hr
    · cases hs
  · unfold textOf statement?
    rw [hf]
    exact settles_of_form hf rfl
  · obtain ⟨kind, text, target, hf, _⟩ := form?_of_filed? hj
    unfold textOf
    rw [hf]
    exact settles_of_form hf rfl

namespace Recordable

variable {code : List CodeLine} {handlers : Handlers} {t : JumpTables Jump}

theorem number (h : Recordable code handlers) {line : CodeLine} (hl : line ∈ code) : line.offset.isNumber :=
  h.ascending.numbers _ (List.mem_map_of_mem hl)

theorem made (h : Recordable code handlers) {line : CodeLine} (hl : line ∈ code) {j : Jump}
    (hj : filed? line = some j) : j.kind ∈ JumpKind.made :=
  kind_of_legible (h.number hl) (h.legible line hl) hj

theorem entriesOf_eq_nil (h : Recordable code handlers) {k : JumpKind} (hk : k ∉ JumpKind.made) :
    entriesOf code k = [] := by
  rw [entriesOf, List.map_eq_nil_iff, List.filter_eq_nil_iff]
  intro j hj he
  obtain ⟨line, hl, hline⟩ := List.mem_filterMap.1 hj
  exact hk (of_decide_eq_true he ▸ h.made hl hline)

/-- What is recorded of code, kind by kind. -/
theorem values_recorded (h : Recordable code handlers) (k : JumpKind) :
    ((code.foldl recorded (guardTables handlers)).table k).values =
      if k = .arm then code.flatMap armsOf
      else ((guardTables handlers).table k).values ++ (code.filterMap filed?).filter (·.kind = k) := by
  split
  · next he =>
    subst he
    have hempty := table_guardTables handlers (by simp : JumpKind.arm ≠ .guarded)
    rw [Table.values, entries_arm_foldl code (fun line hl j hj => h.made hl hj), hempty, List.map_append,
      List.map_map]
    · exact List.map_id _
    · rw [hempty]
      exact h.arms
  · next hne =>
    rw [Table.values, entries_foldl_recorded hne code
      (fun line hl j hj => JumpKind.filed_of_made (h.made hl hj)), List.map_append, entriesOf, List.map_map]
    · congr 1
      exact List.map_id _
    · by_cases hk : k ∈ JumpKind.made
      · exact nodup_startsOf handlers h.ascending hk fun _ => h.headers
      · rw [startsOf, h.entriesOf_eq_nil hk, List.map_nil, List.append_nil]
        exact (@entered_guardTables code handlers).distinct k

theorem mem_all_recorded (h : Recordable code handlers) {j : Jump} :
    j ∈ (code.foldl recorded (guardTables handlers)).all ↔ j ∈ jumpsOf code handlers := by
  rw [mem_all]
  simp only [h.values_recorded]
  constructor
  · rintro ⟨k, _, hj⟩
    unfold jumpsOf
    split at hj
    · simp [hj]
    · rcases List.mem_append.1 hj with hj | hj
      · by_cases hk : k = .guarded
        · subst hk
          simp [hj]
        · rw [table_guardTables handlers hk] at hj
          cases hj
      · simp [List.mem_of_mem_filter hj]
  · intro hj
    unfold jumpsOf at hj
    rcases List.mem_append.1 hj with hj | hj
    · exact ⟨.guarded, by simp [JumpKind.filed], by simp [hj]⟩
    rcases List.mem_append.1 hj with hj | hj
    · obtain ⟨line, hl, hline⟩ := List.mem_filterMap.1 hj
      have hmade := h.made hl hline
      refine ⟨j.kind, JumpKind.filed_of_made hmade, ?_⟩
      rw [if_neg (JumpKind.ne_arm_of_made hmade)]
      exact List.mem_append_right _ (List.mem_filter.2 ⟨hj, by simp⟩)
    · exact ⟨.arm, by simp [JumpKind.filed], by simpa using hj⟩

/-- Jumps back are recorded in the order of their lines. -/
theorem loops_grow (h : Recordable code handlers) :
    ((code.foldl recorded (guardTables handlers)).table .loop).values.Pairwise fun a b => a.stop.value <
      b.stop.value := by
  have hstop : ∀ line ∈ code, ∀ j ∈ filed? line, j.kind = .loop → j.stop = line.offset := by
    intro line hl j hj hk
    obtain ⟨kind, text, target, hf, _, ⟨_, rfl⟩ | ⟨_, rfl⟩⟩ := form?_of_filed? hj
    · rfl
    · cases hk
      simpa using kind_of_form? hf (by decide)
  have hgrows := h.ascending.grows
  rw [offsetsOf, List.pairwise_map] at hgrows
  rw [h.values_recorded, if_neg (by simp), table_guardTables handlers (by simp)]
  refine List.pairwise_filter.2 (List.pairwise_filterMap.2 (hgrows.imp_of_mem ?_))
  intro a b ha hb hlt i hi j hj hik hjk
  rw [hstop a ha i hi (of_decide_eq_true hik), hstop b hb j hj (of_decide_eq_true hjk)]
  exact hlt

/-- Code is recorded: its lines read as their instructions do, and its jumps are filed, the tests and the
jumps back in the order of their lines. -/
theorem yields_renderLines (h : Recordable code handlers) (console : Console) :
    Yields (renderLines code) { tables := guardTables handlers, console } fun rendered t =>
      rendered = code.map (fun line => line.reading (textOf line)) ∧ List.Forall₂ Renders code rendered ∧
        Entered (Origin code handlers) t.tables ∧ (∀ j, j ∈ t.tables.all ↔ j ∈ jumpsOf code handlers) ∧
          ((t.tables.table .test).keys.Pairwise fun a b => a.value < b.value) ∧
            (t.tables.table .loop).values.Pairwise fun a b => a.stop.value < b.stop.value := by
  have hknown : code.countP isUnknown ≤ console.input.length := by
    rw [List.countP_eq_zero.2 fun line hl => by simp [h.known line hl]]
    exact Nat.zero_le _
  obtain ⟨rendered, t, hok, htables, hentries⟩ :=
    @yields_renderLines_legible code handlers console h.ascending h.legible hknown h.headers
  obtain ⟨hentered, hrenders⟩ := entered_of_renderLines code (fun _ hl => hl) entered_guardTables hok
  have htests : (t.tables.table .test).keys.Sublist (offsetsOf code) := by
    rw [Table.keys, hentries .test (by simp [JumpKind.made])]
    exact starts_sublist (by simp) code
  refine ⟨rendered, t, hok, ?_, hrenders, hentered, fun j => htables ▸ h.mem_all_recorded,
    h.ascending.grows.sublist htests, htables ▸ h.loops_grow⟩
  refine eq_of_settles hrenders ?_
  rw [List.forall₂_map_right_iff]
  exact List.forall₂_same.2 fun line hl =>
    settles_of_legible (h.number hl) (h.legible line hl) (h.known line hl)

end Recordable

/-! ## Code that is liftable line by line -/

namespace JumpsTo

variable {name text : String} {kind : JumpKind} {goal : Offset} {line : CodeLine}

theorem textOf_eq (h : JumpsTo name goal line) (hf : form? name = some (.jump kind text)) : textOf line = text := by
  rw [textOf, h.named, hf]

theorem filed?_ahead (h : JumpsTo name goal line) (hf : form? name = some (.jump kind text))
    (hn : line.offset.isNumber) (hle : line.offset.value ≤ goal.value) :
    filed? line = some { kind, start := line.offset, stop := goal } := by
  obtain ⟨target, ht, rfl⟩ := h.aimed
  have hlt : (Offset.number target).lt? line.offset = some false := by
    rw [Offset.lt?_of_number rfl hn, decide_eq_false (Int.not_lt.2 hle)]
  simp [filed?, h.named, hf, ht, hlt]

theorem filed?_back (h : JumpsTo name goal line) (hf : form? name = some (.jump kind text))
    (hn : line.offset.isNumber) (hlt : goal.value < line.offset.value) :
    filed? line = some { kind := .loop, start := goal, stop := line.offset } := by
  obtain ⟨target, ht, rfl⟩ := h.aimed
  have hback : (Offset.number target).lt? line.offset = some true := by
    rw [Offset.lt?_of_number rfl hn, decide_eq_true hlt]
  simp [filed?, h.named, hf, ht, hback]

end JumpsTo

/-- A line that goes with the others: a statement, a jump from one of the lines to another, or a switch to lines
further on. -/
def Fits (offsets : List Offset) (line : CodeLine) : Prop :=
  (statement? line).isSome ∨
  (∃ j, filed? line = some j ∧ j.kind ∈ [JumpKind.loop, .test, .skip] ∧ j.start ∈ offsets ∧ j.stop ∈ offsets ∧
    j.start ≠ j.stop) ∨
  ∃ cases arms, form? (operator line) = some .cases ∧ caseTable (operands line) = .ok cases ∧
    switchArms line.offset cases = .ok arms ∧
    (∀ c ∈ cases.values, c.target ∈ offsets ∧ line.offset.value < c.target.value) ∧ ∀ j ∈ arms, j.start ≠ j.stop

namespace Fits

variable {offsets : List Offset} {line : CodeLine}

theorem legible_and_known (h : Fits offsets line) (hn : ∀ o ∈ offsets, o.isNumber) :
    legible line = true ∧ isUnknown line = false := by
  unfold legible isUnknown
  rcases h with hs | ⟨j, hj, hk, hstart, hstop, hne⟩ | ⟨cases, arms, hf, hc, harms, _⟩
  · have hstated := hs
    unfold statement? at hs
    split at hs
    · next hf => simp [hf, hstated]
    · next hf => simp [hf, hstated]
    · cases hs
  · obtain ⟨kind, text, target, hf, ht, hback | hahead⟩ := form?_of_filed? hj
    · obtain ⟨hlt, rfl⟩ := hback
      rw [Offset.lt?_of_number rfl (hn _ hstop), Option.some.injEq, decide_eq_true_eq] at hlt
      simp only [Offset.value_number] at hlt
      simp [hf, ht, Except.toOption, hlt]
    · obtain ⟨_, rfl⟩ := hahead
      have hfiled : kind ∈ JumpKind.filed := by
        simp only [List.mem_cons, List.not_mem_nil, or_false] at hk
        rcases hk with rfl | rfl | rfl <;> decide
      simp [hf, ht, Except.toOption, hfiled]
  · simp [hf, hc, harms, bind, Except.bind, Except.toOption]

theorem target_mem (h : Fits offsets line) : ∀ target ∈ target? line, .number target ∈ offsets := by
  intro target ht
  rcases h with hs | ⟨j, hj, _, hstart, hstop, _⟩ | ⟨cases, arms, hf, _⟩
  · unfold statement? at hs
    unfold target? at ht
    split at hs
    · next hf => simp [hf] at ht
    · next hf => simp [hf] at ht
    · cases hs
  · obtain ⟨kind, text, goal, hf, hgoal, ⟨_, rfl⟩ | ⟨_, rfl⟩⟩ := form?_of_filed? hj
    · simp only [target?, hf, hgoal, Except.toOption, Option.mem_def, Option.some.injEq] at ht
      exact ht ▸ hstart
    · simp only [target?, hf, hgoal, Except.toOption, Option.mem_def, Option.some.injEq] at ht
      exact ht ▸ hstop
  · simp [target?, hf] at ht

theorem armsOf_eq_nil (h : (statement? line).isSome) : armsOf line = [] := by
  unfold statement? at h
  unfold armsOf
  split at h
  · next hf => simp [hf]
  · next hf => simp [hf]
  · cases h

theorem cases_ahead (h : Fits offsets line) : ∀ c ∈ casesAt line, c.target ∈ offsets ∧
    line.offset.value < c.target.value := by
  intro c hm
  rcases h with hs | ⟨j, hj, _⟩ | ⟨cases, arms, hf, hc, _, hahead, _⟩
  · unfold statement? at hs
    unfold casesAt at hm
    split at hs
    · next hf => simp [hf] at hm
    · next hf => simp [hf] at hm
    · cases hs
  · obtain ⟨kind, text, goal, hf, _⟩ := form?_of_filed? hj
    simp [casesAt, hf] at hm
  · exact hahead c (casesAt_eq hf hc ▸ hm)

/-- What is recorded of a line moves, and is no receiver. -/
theorem moves (h : Fits offsets line) {j : Jump} (hj : filed? line = some j ∨ j ∈ armsOf line) :
    j.start ≠ j.stop ∧ j.kind ≠ .receiver := by
  rcases h with hs | ⟨i, hi, hk, _, _, hne⟩ | ⟨cases, arms, hf, hc, harms, _, hmoves⟩
  · rw [filed?_of_statement? hs, armsOf_eq_nil hs] at hj
    simp at hj
  · rw [hi, armsOf_of_filed? hi] at hj
    simp only [Option.some.injEq, List.not_mem_nil, or_false] at hj
    subst hj
    refine ⟨hne, fun he => ?_⟩
    rw [he] at hk
    exact absurd hk (by decide)
  · have hline : armsOf line = arms := by simp [armsOf, hf, hc, harms, bind, Except.bind, Except.toOption]
    rw [hline] at hj
    rcases hj with hj | hj
    · simp [filed?, hf] at hj
    · exact ⟨hmoves j hj, by simp [kind_of_mem_switchArms harms hj]⟩

end Fits

def Walks (offsets : List Offset) (line : CodeLine) : Prop :=
  (statement? line).isSome ∨ ∃ j, filed? line = some j ∧ j.kind ∈ [JumpKind.loop, .test, .skip] ∧ j.start ∈ offsets ∧
    j.stop ∈ offsets ∧ j.start ≠ j.stop

theorem Walks.fits {offsets : List Offset} {line : CodeLine} (h : Walks offsets line) : Fits offsets line :=
  h.imp_right Or.inl

theorem Walks.armsOf_eq_nil {offsets : List Offset} {line : CodeLine} (h : Walks offsets line) : armsOf line = [] := by
  rcases h with hs | ⟨j, hj, _⟩
  · exact Fits.armsOf_eq_nil hs
  · exact armsOf_of_filed? hj

theorem mem_values_guardTables {handlers : Handlers} {j : Jump}
    (hj : j ∈ ((guardTables handlers).table .guarded).values) : ∃ e ∈ handlers.entries,
      j = { kind := .guarded, start := .number e.2.1, stop := .number e.1 } := by
  obtain ⟨⟨o, i⟩, hm, rfl⟩ := List.mem_map.1 hj
  obtain ⟨hk, _, hsource⟩ := (@entered_guardTables [] handlers).entered _ _ _ hm
  cases hsource with
  | @guarded handler first last he => exact ⟨(handler, first, last), he, rfl⟩
  | forward hl => cases hl
  | backward hl => cases hl
  | arm hl => cases hl

/-- Code is recorded if its lines go together and no two jumps back share a target. -/
theorem recordable_of_fits {code : List CodeLine} {handlers : Handlers} (ha : Ascending (offsetsOf code))
    (hf : ∀ line ∈ code, Fits (offsetsOf code) line) (hheaders : (headers code).Nodup)
    (harms : ((code.flatMap armsOf).map (·.start)).Nodup)
    (hhandlers : ∀ e ∈ handlers.entries, .number e.2.1 ∈ offsetsOf code ∧ .number e.1 ∈ offsetsOf code ∧ e.2.1 < e.1) :
    Recordable code handlers where
  ascending := ha
  legible line hl := ((hf line hl).legible_and_known ha.numbers).1
  known line hl := ((hf line hl).legible_and_known ha.numbers).2
  headers := hheaders
  arms := harms
  aimed := ⟨fun line hl => (hf line hl).target_mem, fun line hl => (hf line hl).cases_ahead, hhandlers⟩
  moves := by
    intro j hj
    unfold jumpsOf at hj
    rcases List.mem_append.1 hj with hj | hj
    · obtain ⟨e, he, rfl⟩ := mem_values_guardTables hj
      have hlt := (hhandlers e he).2.2
      refine ⟨fun heq => ?_, by simp⟩
      simp only [Offset.number.injEq] at heq
      omega
    rcases List.mem_append.1 hj with hj | hj
    · obtain ⟨line, hl, hline⟩ := List.mem_filterMap.1 hj
      exact (hf line hl).moves (Or.inl hline)
    · obtain ⟨line, hl, hline⟩ := List.mem_flatMap.1 hj
      exact (hf line hl).moves (Or.inr hline)

end Instruction

/-! ## What the handlers start from -/

def asRead (lines : List CodeLine) : List CodeLine := lines.map fun line => line.reading (textOf line)

@[simp] theorem asRead_nil : asRead [] = [] := rfl

@[simp] theorem asRead_cons (line : CodeLine) (lines : List CodeLine) :
    asRead (line :: lines) = line.reading (textOf line) :: asRead lines := rfl

@[simp] theorem asRead_append (lines more : List CodeLine) : asRead (lines ++ more) = asRead lines ++ asRead more :=
  List.map_append

@[simp] theorem map_offset_asRead (lines : List CodeLine) : (asRead lines).map (·.offset) = lines.map (·.offset) := by
  simp [asRead, Function.comp_def]

def skipJump (line : CodeLine) (stop : Offset) : Jump := { kind := .skip, start := line.offset, stop }

namespace Flow

/-- A jump as it is handled: a loop or an arm as it was recorded, and any other with its stop on the line
before the one that it goes to. -/
def DrawnFrom (offsets : List Offset) (j drawn : Jump) : Prop :=
  drawn = { j with stop := drawn.stop } ∧
    (Fixed j ∧ drawn.stop = j.stop ∨ ¬Fixed j ∧ Adjacent offsets drawn.stop j.stop)

theorem DrawnFrom.unique {offsets : List Offset} (ha : Ascending offsets) {j a b : Jump}
    (h : DrawnFrom offsets j a) (h' : DrawnFrom offsets j b) : a = b := by
  have hstop : a.stop = b.stop := by
    rcases h.2 with ⟨hf, hs⟩ | ⟨hf, hs⟩ <;> rcases h'.2 with ⟨hf', hs'⟩ | ⟨hf', hs'⟩
    · rw [hs, hs']
    · exact absurd hf hf'
    · exact absurd hf' hf
    · exact hs.left_unique ha hs'
  rw [h.1, h'.1, hstop]

/-- Code that is ready for the handlers, with the order in which its jumps are handled. -/
structure Readied (code : List CodeLine) (handlers : Handlers) (flow : Flow) (order : List Nat) : Prop where
  sound : flow.Sound
  offsets : flow.offsets = offsetsOf code
  reads : flow.code = asRead code
  unhandled : ∀ o i, ¬flow.Filed .handler o i
  opens : ∀ i, i < flow.jumps.length → flow.Open i
  jumps : ∀ i, i < flow.jumps.length → ∃ j ∈ jumpsOf code handlers, DrawnFrom (offsetsOf code) j (flow.jump i)
  found : ∀ j ∈ jumpsOf code handlers, ∃ i, i < flow.jumps.length ∧ DrawnFrom (offsetsOf code) j (flow.jump i)
  nodup : order.Nodup
  mem : ∀ i, i ∈ order ↔ i < flow.jumps.length
  ranked : ∀ a b, a < flow.jumps.length → b < flow.jumps.length → (flow.jump a).Ranked (flow.jump b) →
    ¬(flow.jump b).Ranked (flow.jump a) → [a, b].Sublist order
  tied : ∀ a b, a < flow.jumps.length → b < flow.jumps.length → (flow.jump a).Ranked (flow.jump b) →
    (flow.jump a).FiledBefore (flow.jump b) → [a, b].Sublist order
  loops : ∀ a b, a < flow.jumps.length → b < flow.jumps.length → (flow.jump a).kind = .loop →
    (flow.jump b).kind = .loop → (flow.jump a).Ranked (flow.jump b) →
    (flow.jump a).stop.value < (flow.jump b).stop.value → [a, b].Sublist order
  tests : flow.TestsInOrder
  spaced : Instruction.Spaced code → flow.Spaced

/-- Jumps are done that start where no jump of their kind is open any more. -/
theorem Stage.yields_handleJumps_done {flow result : Flow} {lines : List CodeLine} {rest js : List Jump}
    {handlers : List (Offset × Offset)} {is : List Nat} (h : result.Stage lines rest handlers)
    (hf : flow.Follows result)
    (hi : List.Forall₂ flow.OpenAs is js) (hnone : ∀ j ∈ js, ∀ k ∈ rest, k.kind = j.kind → k.start ≠ j.start)
    {wanted : Unit → Flow → Prop} (hw : wanted () result) : Yields (FlowM.handleJumps is) result wanted := by
  refine (FlowM.yields_handleJumps_quiet h.sound is (fun i hm => ?_) fun i hm ho => ?_).mono fun _ _ he => he ▸ hw
  · obtain ⟨j, _, hopen⟩ := forall₂_mem_left hi hm
    exact hf.length ▸ hopen.1.1
  · obtain ⟨j, hj, hopen⟩ := forall₂_mem_left hi hm
    exact absurd ho (h.not_open hf hopen.2 (hnone j hj))

/-- The stage that the handlers start from, told by where each jump that was recorded stops now. -/
theorem Readied.stage {code : List CodeLine} {handlers : Handlers} {flow : Flow} {order : List Nat}
    (h : flow.Readied code handlers order) {pending : List Jump} (hn : pending.Nodup)
    (hp : List.Forall₂ (DrawnFrom (offsetsOf code)) (jumpsOf code handlers) pending) :
    flow.Stage (asRead code) pending [] where
  sound := h.sound
  reads := h.reads
  distinct := hn
  mem := by
    have ha : Ascending (offsetsOf code) := h.offsets ▸ h.sound.ascending
    intro d
    constructor
    · intro hd
      obtain ⟨j, hj, hjd⟩ := forall₂_mem_left hp.flip hd
      obtain ⟨i, hi, hji⟩ := h.found j hj
      exact ⟨i, h.opens i hi, hji.unique ha hjd⟩
    · rintro ⟨i, hi, rfl⟩
      obtain ⟨j, hj, hji⟩ := h.jumps i hi.1
      obtain ⟨d, hd, hjd⟩ := forall₂_mem_left hp hj
      exact hji.unique ha hjd ▸ hd
  handled := by
    rw [FlowM.values_eq_nil h.unhandled]
    rfl

end Flow

/-! ## Gathering -/

theorem Jump.eq_with_stop : ∀ {a b : Jump}, a.kind = b.kind → a.start = b.start → a.done = b.done → a.arm = b.arm →
    a = { b with stop := a.stop } := by
  rintro ⟨⟩ ⟨⟩ rfl rfl rfl rfl
  rfl

namespace Flow

/-- A flow as it is recorded for some code. -/
structure RecordedFor (code : List CodeLine) (handlers : Handlers) (flow : Flow) : Prop where
  fresh : flow.Fresh
  listed : FlowM.Listed flow
  offsets : flow.offsets = offsetsOf code
  reads : flow.code = asRead code
  ends : ∀ i, i < flow.jumps.length → (flow.jump i).start ∈ offsetsOf code ∧
    ((flow.jump i).stop ∈ offsetsOf code ∨ (flow.jump i).kind = .arm ∧ (flow.jump i).stop = .number (-1))
  jumps : ∀ i, i < flow.jumps.length → flow.jump i ∈ jumpsOf code handlers
  found : ∀ j ∈ jumpsOf code handlers, ∃ i, i < flow.jumps.length ∧ flow.jump i = j
  tests : flow.TestsInOrder
  loops : (flow.table .loop).values.Pairwise fun a b => (flow.jump a).stop.value < (flow.jump b).stop.value
  spaced : Instruction.Spaced code → ∀ result, flow.Follows result → result.Spaced

variable {code : List CodeLine} {handlers : Handlers} {flow drawn : Flow} {i : Nat}

theorem RecordedFor.drawable (h : flow.RecordedFor code handlers) (hi : i < flow.jumps.length) : flow.Drawable i :=
  FlowM.drawable h.fresh hi (h.offsets ▸ (h.ends i hi).1) (h.offsets ▸ (h.ends i hi).2)

/-- No jump goes to itself, so all are still open when they have been drawn back. -/
theorem RecordedFor.drawnFrom (h : flow.RecordedFor code handlers) (hc : Recordable code handlers)
    (hd : Drawing flow [] drawn) (hi : i < flow.jumps.length) :
    drawn.Open i ∧ DrawnFrom (offsetsOf code) (flow.jump i) (drawn.jump i) := by
  have hsame := fun hopen : drawn.Open i =>
    Jump.eq_with_stop (hd.kind i) (hd.start i) (hopen.2.trans (h.fresh.untouched i hi).symm) (hd.arm i)
  rcases hd.drawn i hi (by simp) with hself | ⟨_, hopen, hfix | hmoved⟩
  · exact absurd hself.1 (hc.moves _ (h.jumps i hi)).1
  · exact ⟨hopen, hsame hopen, Or.inl ⟨hfix.1, by rw [hfix.2]⟩⟩
  · exact ⟨hopen, hsame hopen, Or.inr (h.offsets ▸ hmoved)⟩

/-- Jumps back stay as they are. -/
theorem RecordedFor.loop_kept (h : flow.RecordedFor code handlers) (hc : Recordable code handlers)
    (hd : Drawing flow [] drawn) (hi : i < flow.jumps.length) (hk : (drawn.jump i).kind = .loop) :
    i ∈ (flow.table .loop).values ∧ (drawn.jump i).stop = (flow.jump i).stop := by
  have hkind := (hd.kind i).symm.trans hk
  refine ⟨(h.fresh.toFiling.mem_values (by simp)).2 ⟨⟨hi, h.fresh.untouched i hi⟩, hkind⟩, ?_⟩
  exact ((h.drawnFrom hc hd hi).2.2.resolve_right fun hm => hm.1 (Or.inl hkind)).2

/-- Jumps back are listed in the order of their lines. -/
theorem RecordedFor.loops_sublist (h : flow.RecordedFor code handlers) (hc : Recordable code handlers)
    (hd : Drawing flow [] drawn) {a b : Nat} (ha : a < flow.jumps.length) (hb : b < flow.jumps.length)
    (hak : (drawn.jump a).kind = .loop) (hbk : (drawn.jump b).kind = .loop)
    (hlt : (drawn.jump a).stop.value < (drawn.jump b).stop.value) : [a, b].Sublist flow.tables.all := by
  refine List.Sublist.trans ?_ (values_sublist_all flow (by decide : JumpKind.loop ∈ JumpKind.filed))
  obtain ⟨hma, hsa⟩ := h.loop_kept hc hd ha hak
  obtain ⟨hmb, hsb⟩ := h.loop_kept hc hd hb hbk
  rw [hsa, hsb] at hlt
  refine pair_sublist_of_pairwise h.loops hma hmb ?_ (Int.not_lt.2 (Int.le_of_lt hlt))
  rintro rfl
  exact Int.lt_irrefl _ hlt

/-- Jumps are drawn back to offsets that can be sorted by. -/
theorem RecordedFor.sortable (h : flow.RecordedFor code handlers) (hc : Liftable code handlers)
    (hd : Drawing flow [] drawn) (hi : i < flow.jumps.length) :
    FlowM.Sortable (drawn.jump i).start ∧ FlowM.Sortable (drawn.jump i).stop := by
  have hsortable : ∀ o ∈ offsetsOf code, FlowM.Sortable o := fun o hm => ⟨hc.ascending.numbers o hm, hc.sorts o hm⟩
  obtain ⟨hstart, hstop⟩ := h.ends i hi
  refine ⟨hd.start i ▸ hsortable _ hstart, ?_⟩
  rcases (h.drawnFrom hc.toRecordable hd hi).2.2 with ⟨_, hsame⟩ | ⟨_, hmoved⟩
  · rw [hsame]
    rcases hstop with hstop | ⟨_, hstop⟩
    · exact hsortable _ hstop
    · rw [hstop]
      exact ⟨rfl, rfl⟩
  · exact hsortable _ hmoved.left

end Flow

/-- The flow that is recorded for code as it is rendered. -/
theorem Instruction.Recordable.recordedFor {code : List CodeLine} {handlers : Handlers} (h : Recordable code handlers)
    (name : String) (console : Console) :
    Yields (renderLines code) { tables := guardTables handlers, console } fun rendered t =>
      (Flow.ofTables name rendered t.tables t.console).RecordedFor code handlers := by
  refine (h.yields_renderLines console).mono ?_
  rintro rendered ⟨t, console'⟩ ⟨hr, hrenders, he, hm, htests, hloops⟩
  have hh : HandlersAhead handlers := fun e hm => (h.aimed.handlers e hm).2.2
  obtain ⟨hfresh, ho⟩ :=
    @Flow.fresh_of_entered name code rendered handlers console' t he h.ascending h.aimed.cases hh hrenders
  have hjump := fun i hi => @Flow.jump_ofTables name rendered t console' i hi
  exact
    { fresh := hfresh
      listed := Flow.listed_ofTables he
      offsets := ho
      reads := hr
      ends := fun i hi => (Flow.entered_jump he hi).2.at_lines h.aimed h.ascending
      jumps := fun i hi => (hm _).1 (List.mem_of_getElem? (hjump i hi))
      found := by
        intro j hj
        obtain ⟨i, hi, hij⟩ := List.getElem_of_mem ((hm j).2 hj)
        refine ⟨i, hi, ?_⟩
        have hsome := hjump i hi
        rw [List.getElem?_eq_getElem hi, hij, Option.some.injEq] at hsome
        exact hsome.symm
      tests := Flow.testsInOrder_ofTables htests
      loops := by
        rw [← @Flow.map_jump_values name rendered t console' .loop (by decide), List.pairwise_map] at hloops
        exact hloops
      spaced := fun hs _ => Flow.spaced_of_follows he hs h.ascending ho }

/-- Liftable code is gathered for the handlers. -/
theorem FlowM.yields_gather_readied {code : List CodeLine} {handlers : Handlers} {flow : Flow}
    (h : Liftable code handlers) (hf : flow.RecordedFor code handlers) :
    Yields gather flow fun order drawn => drawn.Readied code handlers order := by
  have hc := h.toRecordable
  refine (yields_gather_sorted hf.fresh hf.listed (fun i hi => hf.drawable hi)
    fun drawn hd i hi => hf.sortable h hd hi).mono ?_
  rintro order drawn ⟨hd, hperm, hranked⟩
  have hlen : drawn.jumps.length = flow.jumps.length := hd.length
  have hmem : ∀ i, i ∈ flow.tables.all ↔ i < drawn.jumps.length := fun i => hlen ▸ hf.listed.mem i
  have hopen : ∀ i, i < drawn.jumps.length → flow.Open i := fun i hi =>
    ⟨hlen ▸ hi, hf.fresh.untouched i (hlen ▸ hi)⟩
  exact
    { sound := hd.sound hf.fresh
      offsets := hd.offsets.trans hf.offsets
      reads := hd.code.trans hf.reads
      unhandled := hd.unhandled
      opens := fun i hi => (hf.drawnFrom hc hd (hlen ▸ hi)).1
      jumps := fun i hi => ⟨_, hf.jumps i (hlen ▸ hi), (hf.drawnFrom hc hd (hlen ▸ hi)).2⟩
      found := by
        intro j hj
        obtain ⟨i, hi, rfl⟩ := hf.found j hj
        exact ⟨i, hlen ▸ hi, (hf.drawnFrom hc hd hi).2⟩
      nodup := hperm.nodup_iff.2 hf.listed.nodup
      mem := fun i => hperm.mem_iff.trans (hmem i)
      ranked := fun a b ha hb hab hba => hranked a ((hmem a).2 ha) b ((hmem b).2 hb) hab (Or.inr hba)
      tied := by
        intro a b ha hb hab hfiled
        refine hranked a ((hmem a).2 ha) b ((hmem b).2 hb) hab (Or.inl ?_)
        refine Flow.pair_sublist_all hf.fresh.toFiling hf.tests (hopen a ha) (hopen b hb) ?_
        unfold Jump.FiledBefore at hfiled ⊢
        rwa [hd.kind, hd.kind, hd.start, hd.start] at hfiled
      loops := fun a b ha hb hak hbk hab hlt => hranked a ((hmem a).2 ha) b ((hmem b).2 hb) hab
        (Or.inl (hf.loops_sublist hc hd (hlen ▸ ha) (hlen ▸ hb) hak hbk hlt))
      tests := hf.tests.follows hd.toFollows
      spaced := fun hs => hf.spaced hs _ hd.toFollows }

/-- Code is not gathered if one of its jumps cannot be sorted. -/
theorem FlowM.gather_ne_ok {code : List CodeLine} {handlers : Handlers} {flow : Flow} (h : Recordable code handlers)
    (hf : flow.RecordedFor code handlers) {j drawn : Jump} (hj : j ∈ jumpsOf code handlers)
    (hd : Flow.DrawnFrom (offsetsOf code) j drawn) (hkey : ∀ key, sortKey drawn ≠ .ok key) (order : List Nat)
    (result : Flow) : gather flow ≠ .ok order result := by
  intro hok
  obtain ⟨i, hi, rfl⟩ := hf.found j hj
  have hmem := (hf.listed.mem i).2 hi
  have hdrawing : Yields (drawBack flow.tables.all) flow fun _ middle => Flow.Drawing flow [] middle :=
    (yields_drawBack hf.fresh _ (hf.listed.drawing hf.fresh) hf.listed.nodup (fun i => (hf.listed.mem i).1)
      fun _ hd => hd).1 fun i hi => hf.drawable ((hf.listed.mem i).1 hi)
  have hgather : Yields gather flow fun _ _ => True := ⟨order, result, hok, trivial⟩
  simp only [gather, yields_bind, yields_get, yields_ofExcept] at hgather
  obtain ⟨_, middle, hback, keyed, hkeyed, _⟩ := hgather
  obtain ⟨key, hsorted⟩ := sortKey_of_sortKeys hkeyed hmem
  rw [(hf.drawnFrom h (hdrawing.of_ok hback) hi).2.unique h.ascending hd] at hsorted
  exact hkey key hsorted

/-! ## What is shown -/

theorem shownLines_join (a b : String) : shownLines (a ++ "\n" ++ b) = shownLines a ++ shownLines b := by
  rw [shownLines, split_join, List.filter_append]
  rfl

theorem shownLines_closeText (text : String) : shownLines (closeText text) =
    if has text "\x7b" then "\x7d" :: shownLines text else shownLines text ++ ["\x7d"] := by
  unfold closeText
  have hbefore : FlowM.blockEnd = "\n\x7d" ++ "\n" := by decide
  split
  · rw [hbefore, shownLines_join]
    rfl
  · rw [shownLines_append (by decide : FlowM.blockEnd = "\n" ++ "\x7d\n")]
    rfl

theorem has_closeText (text : String) : has (closeText text) "\x7b" = has text "\x7b" := by
  unfold closeText
  cases hb : has text "\x7b" with
  | true =>
    rw [if_pos rfl, has_eq_true, String.toList_append]
    exact (has_eq_true.1 hb).trans (List.suffix_append _ _).isInfix
  | false =>
    have hnot : '\x7b' ∉ text.toList := fun hm => has_eq_false.1 hb ((List.singleton_infix_iff _ _).2 hm)
    rw [if_neg (by simp)]
    refine has_of_notMem (c := '\x7b') (by decide) ?_
    rw [String.toList_append, List.mem_append, not_or]
    exact ⟨hnot, by decide⟩

def shownOf (lines : List CodeLine) : List String := lines.flatMap fun line => shownLines line.rendered

@[simp] theorem shownOf_nil : shownOf [] = [] := rfl

@[simp] theorem shownOf_cons (line : CodeLine) (lines : List CodeLine) :
    shownOf (line :: lines) = shownLines line.rendered ++ shownOf lines := rfl

@[simp] theorem shownOf_append (lines more : List CodeLine) : shownOf (lines ++ more) = shownOf lines ++ shownOf more :=
  List.flatMap_append

@[simp] theorem shownOf_asRead (lines : List CodeLine) : shownOf (asRead lines) = Loop.shown lines := by
  simp [shownOf, asRead, Loop.shown, List.flatMap_map]

/-- What a function is lifted to is settled by the handlers: the lines that they leave, unfolded. -/
theorem liftCode_of_readied {name : String} {code : List CodeLine} {handlers : Handlers} {console : Console}
    {wanted : List CodeLine → Prop} (h : Liftable code handlers)
    (hh : ∀ flow order, flow.Readied code handlers order →
      Yields (FlowM.handleJumps order) flow fun _ result => wanted result.code) :
    ∃ laid console', wanted laid ∧ liftCode name code handlers console = .ok (unfoldCode laid) console' := by
  obtain ⟨rendered, recorder, hok, hf⟩ := h.toRecordable.recordedFor name console
  have hlaid : Yields FlowM.layOut (Flow.ofTables name rendered recorder.tables recorder.console)
      fun _ result => ∃ laid, wanted laid ∧ result.code = unfoldCode laid := by
    simp only [FlowM.layOut, yields_bind]
    refine (FlowM.yields_gather_readied h hf).mono ?_
    intro order flow hr
    rw [FlowM.yields_dropReceivers_none hr.sound]
    · refine (hh flow order hr).mono ?_
      intro _ result hcode
      simp only [FlowM.unfoldLines, yields_modify]
      exact ⟨_, hcode, rfl⟩
    · intro i hi hk
      obtain ⟨j, hj, hdrawn, _⟩ := hr.jumps i hi.1
      rw [hdrawn] at hk
      exact (h.moves j hj).2 hk
  obtain ⟨_, flow, hlay, laid, hwanted, hcode⟩ := hlaid
  refine ⟨laid, flow.console, hwanted, ?_⟩
  unfold liftCode
  rw [hok]
  dsimp only
  rw [hlay, ← hcode]

/-- A function is not lifted if one of its jumps cannot be sorted. -/
theorem fails_liftCode {name : String} {code : List CodeLine} {handlers : Handlers} {console : Console}
    (h : Recordable code handlers) {j drawn : Jump} (hj : j ∈ jumpsOf code handlers)
    (hd : Flow.DrawnFrom (offsetsOf code) j drawn) (hkey : ∀ key, FlowM.sortKey drawn ≠ .ok key) :
    Run.fails (liftCode name code handlers) console = true := by
  obtain ⟨rendered, recorder, hok, hf⟩ := h.recordedFor name console
  rw [Run.fails, liftCode, hok]
  dsimp only
  cases hlay : FlowM.layOut (Flow.ofTables name rendered recorder.tables recorder.console) with
  | error fault flow => rfl
  | ok _ flow =>
    obtain ⟨order, result, hgather, _⟩ := bind_eq_ok.1 hlay
    exact absurd hgather (FlowM.gather_ne_ok h hf hj hd hkey order result)

/-- So is what it shows: the lines that they leave, in one pair of braces. -/
theorem shows_of_readied {name : String} {code laid : List CodeLine} {handlers : Handlers} {console : Console}
    (h : Liftable code handlers) (hh : ∀ flow order, flow.Readied code handlers order →
      Yields (FlowM.handleJumps order) flow fun _ result => result.code = laid) :
    ∃ out console', liftCode name code handlers console = .ok out console' ∧
      (out.map (·.rendered)).filter (· ≠ "") = "\x7b" :: (shownOf laid ++ ["\x7d"]) := by
  obtain ⟨_, console', rfl, hok⟩ := @liftCode_of_readied name code handlers console (· = laid) h hh
  refine ⟨_, console', hok, ?_⟩
  rw [shown_unfoldCode]
  rfl

end Bytelift
