import Bytelift.Proofs.Rendering

/-! What recording keeps of the jumps. Each jump of the code is filed once: a jump forward under its own
offset, which no other line has, and a jump back under the offset it goes to. So recording comes to its end
just if no two jumps back share a target; if two do, the second of them is refused. -/

namespace Bytelift

open Run

namespace JumpKind

def made : List JumpKind := [.loop, .test, .skip, .receiver]

theorem ne_arm_of_made {k : JumpKind} (h : k ∈ made) : k ≠ .arm := by
  rintro rfl
  simp [made] at h

theorem ne_guarded_of_made {k : JumpKind} (h : k ∈ made) : k ≠ .guarded := by
  rintro rfl
  simp [made] at h

theorem filed_of_made {k : JumpKind} (h : k ∈ made) : k ∈ filed := by
  have hall : made.all (fun k => decide (k ∈ filed)) = true := by decide
  exact of_decide_eq_true (List.all_eq_true.1 hall k h)

end JumpKind

namespace Instruction

open JumpTables

def makesJump (line : CodeLine) : Bool := ((form? (operator line)).bind Form.kind?).isSome

/-- Whether the operator of a line has no form, so that a prompt asks about it. -/
def isUnknown (line : CodeLine) : Bool := (form? (operator line)).isNone

def armsOf (line : CodeLine) : List Jump :=
  match form? (operator line) with
  | some .cases => ((caseTable (operands line) >>= switchArms line.offset).toOption).getD []
  | _ => []

/-- A line with operands that its form can read. A jump of a kind without a table goes back. -/
def legible (line : CodeLine) : Bool :=
  match form? (operator line) with
  | some (.jump kind _) => (jumpTarget (operands line)).toOption.any fun target =>
      decide (kind ∈ JumpKind.filed) || decide (target < line.offset.value)
  | some .cases => (caseTable (operands line) >>= switchArms line.offset).toOption.isSome
  | some _ => (statement? line).isSome
  | none => true

def headers (code : List CodeLine) : List Offset := (entriesOf code .loop).map (·.1)

def recorded (tables : JumpTables Jump) (line : CodeLine) : JumpTables Jump :=
  match filed? line with
  | some j => tables.put j.kind j.start j
  | none => fileArms tables (armsOf line)

/-! ## One line -/

variable {line : CodeLine} {lines : List CodeLine} {s : Recorder}

theorem table_fileArms (arms : List Jump) (t : JumpTables Jump) {k : JumpKind} (hk : k ≠ .arm) :
    (fileArms t arms).table k = t.table k := by
  induction arms generalizing t with
  | nil => rfl
  | cons j arms ih =>
    change (fileArms (t.put .arm j.start j) arms).table k = _
    rw [ih, table_put rfl, if_neg hk.symm]

/-- What a legible line is: one to ask about, a statement, a switch, or a jump that has a table to go to. -/
theorem cases_of_legible (hn : line.offset.isNumber) (hl : legible line = true) :
    isUnknown line = true ∨ (statement? line).isSome ∨
      (∃ arms, form? (operator line) = some .cases ∧
        caseTable (operands line) >>= switchArms line.offset = .ok arms) ∨
      ∃ j, filed? line = some j ∧ j.kind ∈ JumpKind.made := by
  unfold legible at hl
  split at hl
  · next kind text hf =>
    obtain ⟨target, ht, hgoes⟩ := (Option.any_eq_true _ _).1 hl
    cases hr : jumpTarget (operands line) with
    | error fault => simp [hr, Except.toOption] at ht
    | ok goal =>
      obtain rfl : goal = target := by simpa [hr, Except.toOption] using ht
      have hlt := Offset.lt?_of_number (Offset.isNumber_number goal) hn
      refine Or.inr (Or.inr (Or.inr ?_))
      unfold filed?
      simp only [hf, hr, hlt, Option.map_some, Option.some.injEq, exists_eq_left', Offset.value_number]
      by_cases hback : goal < line.offset.value
      · simp [hback, JumpKind.made]
      · have hkind : kind ∈ JumpKind.filed := by simpa [hback] using hgoes
        rcases kind_of_form? hf hkind with rfl | rfl | rfl <;> simp [hback, JumpKind.made]
  · next hf =>
    refine Or.inr (Or.inr (Or.inl ?_))
    cases hr : caseTable (operands line) >>= switchArms line.offset with
    | error fault => simp [hr, Except.toOption] at hl
    | ok arms => exact ⟨arms, hf, rfl⟩
  · exact Or.inr (Or.inl hl)
  · next hf => exact Or.inl (by simp [isUnknown, hf])

/-- A legible line files a jump just if it makes one. -/
theorem isSome_filed?_of_legible (hn : line.offset.isNumber) (hl : legible line = true) :
    (filed? line).isSome = makesJump line := by
  cases hj : filed? line with
  | some j =>
    obtain ⟨kind, text, target, hf, _, _⟩ := form?_of_filed? hj
    simp [makesJump, hf, Form.kind?]
  | none =>
    rcases cases_of_legible hn hl with hu | hs | ⟨arms, hf, _⟩ | ⟨j, hsome, _⟩
    · simp_all [isUnknown, makesJump]
    · unfold statement? at hs
      split at hs
      · next hf => simp [makesJump, hf, Form.kind?]
      · next hf => simp [makesJump, hf, Form.kind?]
      · cases hs
    · simp [makesJump, hf, Form.kind?]
    · rw [hj] at hsome
      cases hsome

theorem kind_of_legible (hn : line.offset.isNumber) (hl : legible line = true) {j : Jump}
    (hj : filed? line = some j) : j.kind ∈ JumpKind.made := by
  rcases cases_of_legible hn hl with hu | hs | ⟨arms, hf, _⟩ | ⟨i, hi, hk⟩
  · simp_all [isUnknown, filed?]
  · rw [filed?_of_statement? hs] at hj
    cases hj
  · simp [filed?, hf] at hj
  · rw [hj] at hi
    cases hi
    exact hk

theorem recorded_of_statement? (h : (statement? line).isSome) (t : JumpTables Jump) : recorded t line = t := by
  unfold statement? at h
  rw [recorded, filed?_of_statement? (by unfold statement?; exact h), armsOf]
  split at h
  · next hf => rw [hf]; rfl
  · next hf => rw [hf]; rfl
  · cases h

/-- A legible line is recorded, if the start of its jump is free and there is an answer to a prompt. -/
theorem yields_renderLine (hn : line.offset.isNumber) (hl : legible line = true)
    (hp : isUnknown line = true → s.console.input ≠ [])
    (hfree : ∀ j, filed? line = some j → j.start ∉ (s.tables.table j.kind).keys) :
    Yields (renderLine line) s fun _ t => t.tables = recorded s.tables line ∧
      t.console.input = s.console.input.drop (if isUnknown line then 1 else 0) := by
  have hrender : ∀ {wanted : CodeLine → Recorder → Prop}, Yields (renderLine line) s wanted ↔
      Yields (render line.offset (operator line) (operands line)) s fun text t =>
        wanted { line with rendered := text } t := by
    intro wanted
    change Yields (render line.offset (operator line) (operands line) >>= fun text =>
      pure { line with rendered := text }) s wanted ↔ _
    simp
  rcases cases_of_legible hn hl with hu | hs | ⟨arms, hf, hok⟩ | ⟨j, hj, hk⟩
  · -- a prompt is answered, and nothing is recorded
    have hf : form? (operator line) = none := by simpa [isUnknown] using hu
    have hsame : recorded s.tables line = s.tables := by simp [recorded, filed?, hf, armsOf, fileArms]
    obtain ⟨answer, rest, hin⟩ := List.exists_cons_of_ne_nil (hp hu)
    rw [hrender, render, hf]
    simp [ask, hsame, hu, HasConsole.console, HasConsole.setConsole, Console.print, hin]
  · have hknown : isUnknown line = false := by
      unfold statement? at hs
      split at hs
      · next hf => simp [isUnknown, hf]
      · next hf => simp [isUnknown, hf]
      · cases hs
    rw [yields_renderLine_plain hs, recorded_of_statement? hs, hknown]
    exact ⟨rfl, rfl⟩
  · obtain ⟨cases, hc, ha⟩ := except_bind_eq_ok.1 hok
    have hsame : recorded s.tables line = fileArms s.tables arms := by
      simp [recorded, filed?, hf, armsOf, hok, Except.toOption]
    rw [hrender, render, hf]
    simp [recordSwitch, hc, ha, hsame, isUnknown, hf]
  · have hsame : recorded s.tables line = s.tables.put j.kind j.start j := by rw [recorded, hj]
    obtain ⟨kind, text, target, hf, _, _⟩ := form?_of_filed? hj
    rw [yields_renderLine_files hj (JumpKind.filed_of_made hk) (hfree j hj)]
    exact ⟨hsame.symm, by simp [isUnknown, hf]⟩

theorem fileJump_of_taken {kind : JumpKind} {start : Offset} (stop : Offset) (hk : kind ∈ JumpKind.filed)
    (ht : start ∈ (s.tables.table kind).keys) :
    fileJump kind start stop s = .error (.occupied kind.label start) s := by
  obtain ⟨table, htable⟩ := Option.isSome_iff_exists.1 (get?_isSome_of_filed s.tables hk)
  have hcontains : table.contains start = true := by
    have hkeys : start ∈ table.keys := by simpa [JumpTables.table, htable] using ht
    obtain ⟨⟨o, i⟩, hm, ho⟩ := List.mem_map.1 hkeys
    exact Table.contains_eq_true.2 ⟨i, ho ▸ hm⟩
  have hget : (get : Run Recorder Recorder) s = .ok s s := rfl
  refine (bind_of_ok hget).trans ?_
  rw [htable]
  simp only [hcontains, if_true]
  rfl

/-- A jump whose start is taken is refused. -/
theorem renderLine_of_taken {j : Jump} (hj : filed? line = some j) (hk : j.kind ∈ JumpKind.filed)
    (ht : j.start ∈ (s.tables.table j.kind).keys) :
    renderLine line s = .error (.occupied j.kind.label j.start) s := by
  obtain ⟨kind, text, target, hf, hr, hor⟩ := form?_of_filed? hj
  have hneed : ∀ {back : Bool}, (Offset.number target).lt? line.offset = some back →
      (need .noOrder ((Offset.number target).lt? line.offset) : Run Recorder Bool) s = .ok back s := by
    intro back hlt
    rw [hlt]
    rfl
  have hrecord : recordJump line.offset kind (operands line) s =
      .error (.occupied j.kind.label j.start) s := by
    unfold recordJump
    rw [hr]
    rcases hor with ⟨hlt, rfl⟩ | ⟨hlt, rfl⟩
    · exact (bind_of_ok (hneed hlt)).trans (fileJump_of_taken _ hk ht)
    · exact (bind_of_ok (hneed hlt)).trans (fileJump_of_taken _ hk ht)
  have hrender : render line.offset (operator line) (operands line) s =
      .error (.occupied j.kind.label j.start) s := by
    unfold render
    rw [hf]
    exact bind_of_error hrecord
  exact bind_of_error hrender

/-! ## All lines -/

/-- Recording a line adds its jump to the end of the table of its kind. -/
theorem entries_recorded {t : JumpTables Jump} (hk : ∀ j, filed? line = some j → j.kind ∈ JumpKind.filed)
    {k : JumpKind} (hfree : ∀ j, filed? line = some j → j.kind = k → j.start ∉ (t.table k).keys)
    (hne : k ≠ .arm) : ((recorded t line).table k).entries = (t.table k).entries ++ entriesOf [line] k := by
  rw [recorded, entriesOf_cons]
  cases hj : filed? line with
  | none =>
    rw [table_fileArms _ _ hne]
    simp [entriesOf]
  | some j =>
    by_cases he : j.kind = k
    · subst he
      rw [entries_put (hk j hj) (hfree j hj rfl)]
      simp [entriesOf]
    · rw [table_put (get?_isSome_of_filed t (hk j hj)), if_neg he]
      simp [entriesOf, he]

theorem nodup_recorded {t : JumpTables Jump} (hk : ∀ j, filed? line = some j → j.kind ∈ JumpKind.filed)
    {k : JumpKind} (hd : (t.table k).keys.Nodup) (hne : k ≠ .arm) :
    ((recorded t line).table k).keys.Nodup := by
  rw [recorded]
  cases hj : filed? line with
  | none =>
    rw [table_fileArms _ _ hne]
    exact hd
  | some j =>
    rw [table_put (get?_isSome_of_filed t (hk j hj))]
    split
    · next he =>
      subst he
      exact Table.nodup_keys_put hd _ _
    · exact hd

theorem entriesOf_append (lines more : List CodeLine) (k : JumpKind) :
    entriesOf (lines ++ more) k = entriesOf lines k ++ entriesOf more k := by
  simp [entriesOf]

/-- Starts of jumps of a kind: those that are in the tables, and those that lines add. -/
def startsOf (t : JumpTables Jump) (lines : List CodeLine) (k : JumpKind) : List Offset :=
  (t.table k).keys ++ (entriesOf lines k).map (·.1)

/-- A line whose jump has a new start takes it from the lines to the tables. -/
theorem startsOf_recorded {t : JumpTables Jump} (hk : ∀ j, filed? line = some j → j.kind ∈ JumpKind.filed)
    {k : JumpKind} (hfree : ∀ j, filed? line = some j → j.kind = k → j.start ∉ (t.table k).keys)
    (hne : k ≠ .arm) : startsOf (recorded t line) lines k = startsOf t (line :: lines) k := by
  have hsplit : line :: lines = [line] ++ lines := rfl
  rw [startsOf, startsOf, Table.keys, entries_recorded hk hfree hne, hsplit, entriesOf_append,
    List.map_append, List.map_append, List.append_assoc]
  rfl

theorem startsOf_cons {t : JumpTables Jump} {j : Jump} (hj : filed? line = some j) :
    startsOf t (line :: lines) j.kind =
      (t.table j.kind).keys ++ j.start :: (entriesOf lines j.kind).map (·.1) := by
  rw [startsOf, entriesOf_cons, hj]
  simp

/-- A start that is listed once is not in the table yet. -/
theorem free_of_startsOf {t : JumpTables Jump} {j : Jump} (hj : filed? line = some j)
    (hn : (startsOf t (line :: lines) j.kind).Nodup) : j.start ∉ (t.table j.kind).keys := by
  intro hm
  rw [startsOf_cons hj, List.nodup_append] at hn
  exact hn.2.2 _ hm j.start (by simp) rfl

/-- What lines add to the table of a kind, if no two of their jumps share a start. -/
theorem entries_foldl_recorded {k : JumpKind} (hne : k ≠ .arm) : ∀ (lines : List CodeLine)
    {t : JumpTables Jump}, (∀ line ∈ lines, ∀ j, filed? line = some j → j.kind ∈ JumpKind.filed) →
    (startsOf t lines k).Nodup →
    ((lines.foldl recorded t).table k).entries = (t.table k).entries ++ entriesOf lines k
  | [], t, _, _ => by simp [entriesOf]
  | line :: lines, t, hk, hn => by
    have hline := hk line (by simp)
    have hfree : ∀ j, filed? line = some j → j.kind = k → j.start ∉ (t.table k).keys := by
      rintro j hj rfl
      exact free_of_startsOf hj hn
    rw [List.foldl_cons, entries_foldl_recorded hne lines (fun l hl => hk l (by simp [hl]))
      (by rwa [startsOf_recorded hline hfree hne]), entries_recorded hline hfree hne, List.append_assoc,
      ← entriesOf_append, List.singleton_append]

/-- Lines that can be recorded, as far as each alone is concerned. -/
structure Ready (s : Recorder) (lines : List CodeLine) : Prop where
  numbers : ∀ line ∈ lines, line.offset.isNumber
  legible : ∀ line ∈ lines, legible line = true
  answers : lines.countP isUnknown ≤ s.console.input.length

namespace Ready

theorem kind (h : Ready s (line :: lines)) {j : Jump} (hj : filed? line = some j) : j.kind ∈ JumpKind.made :=
  kind_of_legible (h.numbers line (by simp)) (h.legible line (by simp)) hj

/-- One line is recorded, and the rest can be recorded after it. -/
theorem step (h : Ready s (line :: lines))
    (hfree : ∀ j, filed? line = some j → j.start ∉ (s.tables.table j.kind).keys) :
    Yields (renderLine line) s fun _ t => t.tables = recorded s.tables line ∧ Ready t lines := by
  have hcount := h.answers
  rw [List.countP_cons] at hcount
  refine (yields_renderLine (h.numbers line (by simp)) (h.legible line (by simp)) ?_ hfree).mono ?_
  · intro hu hnil
    simp [hu, hnil] at hcount
  · intro _ t ht
    refine ⟨ht.1, fun l hl => h.numbers l (by simp [hl]), fun l hl => h.legible l (by simp [hl]), ?_⟩
    rw [ht.2, List.length_drop]
    omega

/-- Lines are recorded to the last one if no two jumps of a kind share a start. -/
theorem run : ∀ (lines : List CodeLine) {s : Recorder}, Ready s lines →
    (∀ k ∈ JumpKind.made, (startsOf s.tables lines k).Nodup) →
    Yields (renderLines lines) s fun _ t => t.tables = lines.foldl recorded s.tables
  | [], s, _, _ => yields_pure.2 rfl
  | line :: lines, s, h, hn => by
    have hfree : ∀ j, filed? line = some j → j.start ∉ (s.tables.table j.kind).keys := fun j hj =>
      free_of_startsOf hj (hn j.kind (h.kind hj))
    simp only [renderLines, yields_bind, yields_pure]
    refine (h.step hfree).mono ?_
    rintro _ t ⟨htables, hready⟩
    refine (run lines hready ?_).mono ?_
    · intro k hmade
      rw [htables, startsOf_recorded (fun j hj => JumpKind.filed_of_made (h.kind hj))
        (fun j hj he => he ▸ hfree j hj) (JumpKind.ne_arm_of_made hmade)]
      exact hn k hmade
    · intro _ u hu
      rw [hu, htables, List.foldl_cons]

/-- Recording stops at the first jump back whose target an earlier one has. -/
theorem stops : ∀ (lines : List CodeLine) {s : Recorder}, Ready s lines →
    (∀ k ∈ JumpKind.made, k ≠ .loop → (startsOf s.tables lines k).Nodup) →
    (s.tables.table .loop).keys.Nodup → ¬(startsOf s.tables lines .loop).Nodup →
    ∃ header t, 2 ≤ (startsOf s.tables lines .loop).count header ∧
      renderLines lines s = .error (.occupied JumpKind.loop.label header) t
  | [], s, _, _, hkeys, hshared => absurd (by simpa [startsOf, entriesOf] using hkeys) hshared
  | line :: lines, s, h, hn, hkeys, hshared => by
    have hk : ∀ j, filed? line = some j → j.kind ∈ JumpKind.filed := fun j hj =>
      JumpKind.filed_of_made (h.kind hj)
    by_cases hfree : ∀ j, filed? line = some j → j.start ∉ (s.tables.table j.kind).keys
    · obtain ⟨first, t, hok, htables, hready⟩ := h.step hfree
      have hsame : ∀ k ≠ .arm, startsOf t.tables lines k = startsOf s.tables (line :: lines) k := by
        intro k hne
        rw [htables, startsOf_recorded hk (fun j hj he => he ▸ hfree j hj) hne]
      obtain ⟨header, u, hcount, herror⟩ := stops lines hready (by
          intro k hmade hne
          rw [hsame k (JumpKind.ne_arm_of_made hmade)]
          exact hn k hmade hne) (htables ▸ nodup_recorded hk hkeys (by simp)) (by rwa [hsame _ (by simp)])
      rw [hsame _ (by simp)] at hcount
      exact ⟨header, u, hcount, (bind_of_ok hok).trans (bind_of_error herror)⟩
    · simp only [not_forall, not_not] at hfree
      obtain ⟨j, hj, htaken⟩ := hfree
      have hl : j.kind = .loop := by
        by_contra hne
        exact free_of_startsOf hj (hn j.kind (h.kind hj) hne) htaken
      refine ⟨j.start, s, ?_, ?_⟩
      · rw [← hl, startsOf_cons hj, List.count_append, List.count_cons_self]
        have hpos := List.count_pos_iff.2 htaken
        omega
      · rw [← hl]
        exact bind_of_error (renderLine_of_taken hj (hk j hj) htaken)

end Ready

/-! ## Whole functions -/

theorem table_guardTables (handlers : Handlers) {k : JumpKind} (hk : k ≠ .guarded) :
    (guardTables handlers).table k = {} := by
  unfold guardTables
  refine List.foldlRecOn (motive := fun t : JumpTables Jump => t.table k = {}) handlers.entries _ ?_ ?_
  · cases k <;> rfl
  · intro t ht entry _
    rw [table_put rfl, if_neg hk.symm]
    exact ht

/-- Jumps forward are filed under the offsets of their lines. -/
theorem starts_sublist {k : JumpKind} (hk : k ≠ .loop) (code : List CodeLine) :
    ((entriesOf code k).map (·.1)).Sublist (offsetsOf code) := by
  induction code with
  | nil => simp [entriesOf]
  | cons line code ih =>
    rw [entriesOf_cons, List.map_append]
    cases hj : filed? line with
    | none => exact ih.cons line.offset
    | some j =>
      by_cases hkind : j.kind = k
      · have hstart : j.start = line.offset := by
          obtain ⟨_, _, _, _, _, ⟨_, rfl⟩ | ⟨_, rfl⟩⟩ := form?_of_filed? hj
          · exact absurd hkind.symm hk
          · rfl
        simp only [Option.toList_some, hkind, List.filter_cons_of_pos, decide_true, List.filter_nil,
          List.map_cons, List.map_nil, hstart, List.singleton_append]
        exact ih.cons_cons line.offset
      · simp only [Option.toList_some, hkind, decide_false, Bool.false_eq_true, not_false_eq_true,
          List.filter_cons_of_neg, List.filter_nil, List.map_nil, List.nil_append]
        exact ih.cons line.offset

/-- Jumps of the kinds that lines make, sorted by kind, are the same jumps. -/
theorem perm_by_kind {jumps : List Jump} (hk : ∀ j ∈ jumps, j.kind ∈ JumpKind.made) :
    (JumpKind.made.flatMap fun k => jumps.filter (·.kind = k)).Perm jumps := by
  rw [List.perm_iff_count]
  intro j
  have hcount : ∀ k, (jumps.filter (·.kind = k)).count j = if j.kind = k then jumps.count j else 0 := by
    intro k
    split
    · next he => exact List.count_filter (by simpa using he)
    · next he => exact List.count_eq_zero.2 (by simp [he])
  by_cases hm : j ∈ jumps
  · have hmade := hk j hm
    simp only [JumpKind.made, List.mem_cons, List.not_mem_nil, or_false] at hmade
    simp only [JumpKind.made, List.flatMap_cons, List.flatMap_nil, List.append_nil, List.count_append, hcount]
    rcases hmade with h | h | h | h <;> simp [h]
  · rw [List.count_eq_zero_of_not_mem hm, List.count_eq_zero]
    simp [hm]

/-- The starts of the jumps that code makes, before any is recorded. -/
theorem startsOf_guardTables (handlers : Handlers) (code : List CodeLine) {k : JumpKind} (hk : k ≠ .guarded) :
    startsOf (guardTables handlers) code k = (entriesOf code k).map (·.1) := by
  rw [startsOf, table_guardTables handlers hk]
  rfl

/-- No two jumps of a kind share a start, if no two jumps back share a target. -/
theorem nodup_startsOf (handlers : Handlers) {code : List CodeLine} (ha : Ascending (offsetsOf code))
    {k : JumpKind} (hk : k ∈ JumpKind.made) (hl : k = .loop → (headers code).Nodup) :
    (startsOf (guardTables handlers) code k).Nodup := by
  rw [startsOf_guardTables handlers code (JumpKind.ne_guarded_of_made hk)]
  by_cases he : k = .loop
  · subst he
    exact hl rfl
  · exact ha.nodup.sublist (starts_sublist he code)

/-- Code without shared targets is recorded, and the tables list its jumps in its order. -/
theorem yields_renderLines_legible {code : List CodeLine} {handlers : Handlers} {console : Console}
    (ha : Ascending (offsetsOf code)) (hl : ∀ line ∈ code, legible line = true)
    (hp : code.countP isUnknown ≤ console.input.length) (hh : (headers code).Nodup) :
    Yields (renderLines code) { tables := guardTables handlers, console } fun _ t =>
      t.tables = code.foldl recorded (guardTables handlers) ∧
        ∀ k ∈ JumpKind.made, (t.tables.table k).entries = entriesOf code k := by
  have hnumbers : ∀ line ∈ code, line.offset.isNumber := fun line hm =>
    ha.numbers _ (List.mem_map_of_mem hm)
  have hready : Ready { tables := guardTables handlers, console } code := ⟨hnumbers, hl, hp⟩
  refine (Ready.run code hready fun k hk => nodup_startsOf handlers ha hk fun _ => hh).mono ?_
  intro _ t ht
  refine ⟨ht, fun k hk => ?_⟩
  rw [ht, entries_foldl_recorded (JumpKind.ne_arm_of_made hk) code
    (fun line hm j hj => JumpKind.filed_of_made (kind_of_legible (hnumbers line hm) (hl line hm) hj))
    (nodup_startsOf handlers ha hk fun _ => hh), table_guardTables handlers (JumpKind.ne_guarded_of_made hk)]
  rfl

/-- Recording files every jump of the code once: a jump forward under its offset and a jump back under its
target. It comes to its end just if no two jumps back share a target, and else refuses one of them. -/
theorem renderLines_files_each_jump {code : List CodeLine} {handlers : Handlers} {console : Console}
    (ha : Ascending (offsetsOf code)) (hl : ∀ line ∈ code, legible line = true)
    (hp : code.countP isUnknown ≤ console.input.length) :
    (code.filterMap filed?).length = code.countP makesJump ∧
    ((headers code).Nodup → ∃ rendered t,
      renderLines code { tables := guardTables handlers, console } = .ok rendered t ∧
      (∀ k ∈ JumpKind.made, (t.tables.table k).entries = entriesOf code k) ∧
      (JumpKind.made.flatMap fun k => (t.tables.table k).values).Perm (code.filterMap filed?)) ∧
    (¬(headers code).Nodup → ∃ header t, 2 ≤ (headers code).count header ∧
      renderLines code { tables := guardTables handlers, console } =
        .error (.occupied JumpKind.loop.label header) t) := by
  have hnumbers : ∀ line ∈ code, line.offset.isNumber := fun line hm =>
    ha.numbers _ (List.mem_map_of_mem hm)
  refine ⟨?_, ?_, ?_⟩
  · rw [List.length_filterMap_eq_countP]
    refine List.countP_congr fun line hm => ?_
    rw [isSome_filed?_of_legible (hnumbers line hm) (hl line hm)]
  · intro hnodup
    obtain ⟨rendered, t, hok, _, hentries⟩ := @yields_renderLines_legible code handlers console ha hl hp hnodup
    refine ⟨rendered, t, hok, hentries, ?_⟩
    have hvalues : ∀ k ∈ JumpKind.made,
        (t.tables.table k).values = (code.filterMap filed?).filter (·.kind = k) := by
      intro k hk
      rw [Table.values, hentries k hk, entriesOf, List.map_map]
      exact List.map_id _
    rw [List.flatMap_congr hvalues]
    refine perm_by_kind fun j hj => ?_
    obtain ⟨line, hm, hline⟩ := List.mem_filterMap.1 hj
    exact kind_of_legible (hnumbers line hm) (hl line hm) hline
  · intro hshared
    have hback := startsOf_guardTables handlers code (by simp : JumpKind.loop ≠ .guarded)
    obtain ⟨header, t, hcount, herror⟩ :=
      @Ready.stops code { tables := guardTables handlers, console } ⟨hnumbers, hl, hp⟩
        (fun k hk hne => nodup_startsOf handlers ha hk fun he => absurd he hne)
        (by rw [table_guardTables handlers (by simp)]; exact List.nodup_nil) (by rwa [hback])
    rw [hback] at hcount
    exact ⟨header, t, hcount, herror⟩

def twoOperands : List String := ["[0]", "[2]", "[0] \x7b 0: @10", "1: @14 \x7d"]

def twoCases : CaseTable := ⟨[("0", ⟨"0", .number 10⟩), ("1", ⟨"1", .number 14⟩)]⟩

open Literal in
def twoTokens : List Token :=
  [.mark "\x7b", .number (.integer 0), .mark ":", .number (.integer 10), .mark ",", .number (.integer 1), .mark ":",
    .number (.integer 14), .mark "\x7d"]

open Literal in
theorem read_twoOperands : Expression.read (caseText twoOperands) = .ok
    (.table [.entry (.constant (.integer 0)) (.constant (.integer 10)),
      .entry (.constant (.integer 1)) (.constant (.integer 14))]) := by
  have hline : Token.line? (Expression.unifyLineEnds
    ((caseText twoOperands).dropWhile fun c => c == ' ' || c == '\t')) = some (twoTokens, []) := rfl
  have hspells : ∀ bound, Expression.spellsWithin.templatesSpell bound twoTokens = true := by
    intro bound
    rw [Expression.spellsWithin.templatesSpell]
    rfl
  rw [Expression.read, hline]
  dsimp only
  rw [hspells]
  rfl

theorem caseTable_twoOperands : caseTable twoOperands = .ok twoCases := by
  rw [caseTable, read_twoOperands]
  rfl

theorem switchArms_twoCases (offset : Offset) : ∃ arms, switchArms offset twoCases = .ok arms := by
  have hsorted : Offset.sortBy? Case.target twoCases.values = some twoCases.values :=
    Offset.sortBy?_of_pairwise (by decide) (by decide)
  rw [switchArms, hsorted]
  exact ⟨_, rfl⟩

def twoSwitchAt (n : Int) : CodeLine :=
  { offset := .number n, instruction := "SwitchOnSmiNoFeedback [0], [2], [0] \x7b 0: @10, 1: @14 \x7d" }

theorem parts_twoSwitchAt (n : Int) :
    parts (twoSwitchAt n).instruction = ("SwitchOnSmiNoFeedback", twoOperands) := by
  change parts (twoSwitchAt 0).instruction = _
  decide +kernel

theorem form?_twoSwitchAt (n : Int) : form? (operator (twoSwitchAt n)) = some .cases := by
  rw [operator, parts_twoSwitchAt]
  decide +kernel

theorem operands_twoSwitchAt (n : Int) : operands (twoSwitchAt n) = twoOperands := by
  rw [operands, parts_twoSwitchAt]

/-- Jumps of all kinds, with a switch and an operator without a form. -/
def mixedJumps : List CodeLine :=
  [{ offset := .number 0, instruction := "Ldar r0" },
    { offset := .number 2, instruction := "JumpIfFalse [14] (0x1 @ 16)" }] ++ twoSwitchAt 4 ::
  [{ offset := .number 6, instruction := "Jump [6] (0x1 @ 12)" },
    { offset := .number 8, instruction := "JumpIfTrue [8] (0x1 @ 2)" },
    { offset := .number 10, instruction := "Unheard r1" },
    { offset := .number 12, instruction := "JumpIfJSReceiver [4] (0x1 @ 16)" },
    { offset := .number 14, instruction := "JumpLoop [14] (0x1 @ 0)" },
    { offset := .number 16, instruction := "Return" }]

theorem legible_mixedJumps : ∀ line ∈ mixedJumps, legible line = true := by
  have hswitch : legible (twoSwitchAt 4) = true := by
    obtain ⟨arms, harms⟩ := switchArms_twoCases (twoSwitchAt 4).offset
    unfold legible
    rw [form?_twoSwitchAt, operands_twoSwitchAt, caseTable_twoOperands]
    dsimp only [bind, Except.bind]
    rw [harms]
    rfl
  exact List.forall_mem_append.2 ⟨by decide +kernel, List.forall_mem_cons.2 ⟨hswitch, by decide +kernel⟩⟩

theorem renderLines_files_mixedJumps : Ascending (offsetsOf mixedJumps) ∧
    (∀ line ∈ mixedJumps, legible line = true) ∧ (headers mixedJumps).Nodup ∧ ∃ rendered t,
      renderLines mixedJumps { tables := guardTables ⟨[(12, 4, 8)]⟩, console := { input := ["y"] } } =
        .ok rendered t ∧
      (JumpKind.made.flatMap fun k => (t.tables.table k).values).Perm
        [⟨.test, .number 2, .number 16, false, none⟩, ⟨.skip, .number 6, .number 12, false, none⟩,
          ⟨.loop, .number 2, .number 8, false, none⟩, ⟨.receiver, .number 12, .number 16, false, none⟩,
          ⟨.loop, .number 0, .number 14, false, none⟩] := by
  have ha : Ascending (offsetsOf mixedJumps) := by decide
  have hn : (headers mixedJumps).Nodup := by decide +kernel
  have hjumps : mixedJumps.filterMap filed? =
      [⟨.test, .number 2, .number 16, false, none⟩, ⟨.skip, .number 6, .number 12, false, none⟩,
        ⟨.loop, .number 2, .number 8, false, none⟩, ⟨.receiver, .number 12, .number 16, false, none⟩,
        ⟨.loop, .number 0, .number 14, false, none⟩] := by decide +kernel
  obtain ⟨rendered, t, hok, _, hperm⟩ := (@renderLines_files_each_jump mixedJumps ⟨[(12, 4, 8)]⟩
    { input := ["y"] } ha legible_mixedJumps (by decide +kernel)).2.1 hn
  exact ⟨ha, legible_mixedJumps, hn, rendered, t, hok, hjumps ▸ hperm⟩

/-- Two loops, one in the other, that are entered at one line. -/
def sharedHeader : List CodeLine :=
  [{ offset := .number 0, instruction := "LdaZero" },
    { offset := .number 2, instruction := "JumpLoop [2], [1] (0x1 @ 0)" },
    { offset := .number 4, instruction := "JumpLoop [4], [0] (0x1 @ 0)" }]

def emptyLoop : List CodeLine := [{ offset := .number 0, instruction := "JumpLoop [0], [0] (0x1 @ 0)" }]

/-- Not every jump is filed: of two jumps back to one line the second is refused, and so is a loop that jumps
to itself, which is neither a jump back nor of a kind that has a table. -/
theorem renderLines_refuses_headers :
    (Ascending (offsetsOf sharedHeader) ∧ (∀ line ∈ sharedHeader, legible line = true) ∧
      fault? (renderLines sharedHeader) {} = some (.occupied "Loop" (.number 0))) ∧
    (Ascending (offsetsOf emptyLoop) ∧ emptyLoop.map target? = [some 0] ∧
      fault? (renderLines emptyLoop) {} = some (.noTable "JumpLoop")) := by
  decide +kernel

end Instruction

end Bytelift
