import Bytelift.Proofs.Conditional.Printing

/-! Rendering told in full: what each line reads as, and which jump it files in which table. The tables list
the jumps in the order of the lines that make them. -/

namespace Bytelift

open Run

namespace Instruction

open JumpTables

/-- What a line reads as that makes no jump and no switch. -/
def statement? (line : CodeLine) : Option String :=
  match form? (operator line) with
  | some (.statement parts) => (renderParts (operands line) parts).toOption
  | some .intrinsic => (intrinsicCall (operands line)).toOption
  | _ => none

def filed? (line : CodeLine) : Option Jump :=
  match form? (operator line), jumpTarget (operands line) with
  | some (.jump kind _), .ok target => ((Offset.number target).lt? line.offset).map fun back =>
    if back then { kind := .loop, start := .number target, stop := line.offset }
    else { kind, start := line.offset, stop := .number target }
  | _, _ => none

def textOf (line : CodeLine) : String :=
  match form? (operator line) with
  | some (.jump _ text) => text
  | _ => (statement? line).getD ""

/-- A line that reads as a statement, or whose jump has a table. -/
def Renderable (line : CodeLine) : Prop :=
  (statement? line).isSome ∨ ∃ j, filed? line = some j ∧ j.kind ∈ JumpKind.filed

def entriesOf (lines : List CodeLine) (k : JumpKind) : List (Offset × Jump) :=
  ((lines.filterMap filed?).filter (·.kind = k)).map fun j => (j.start, j)

variable {line : CodeLine} {s : Recorder} {wanted : CodeLine → Recorder → Prop}

theorem get?_isSome_of_filed (t : JumpTables Jump) {kind : JumpKind} (hk : kind ∈ JumpKind.filed) :
    (t.get? kind).isSome := by
  cases kind <;> simp_all [JumpKind.filed, JumpTables.get?]

theorem filed?_of_statement? (h : (statement? line).isSome) : filed? line = none := by
  unfold statement? at h
  unfold filed?
  split at h
  · next hf => rw [hf]
  · next hf => rw [hf]
  · cases h

theorem States.statement?_eq {text : String} (h : States line text) : statement? line = some text := by
  obtain ⟨form, hf, hk, hc, hr⟩ := h.reads
  unfold statement?
  rw [hf]
  cases form with
  | statement parts => exact congrArg Except.toOption hr
  | jump kind shown => cases hk
  | cases => exact absurd rfl hc
  | intrinsic => exact congrArg Except.toOption hr

theorem States.isSome_statement? {text : String} (h : States line text) : (statement? line).isSome :=
  Option.isSome_of_eq_some h.statement?_eq

theorem States.textOf_eq {text : String} (h : States line text) : textOf line = text := by
  obtain ⟨form, hf, hk, _⟩ := h.reads
  unfold textOf
  rw [hf, h.statement?_eq]
  cases form with
  | jump kind shown => cases hk
  | statement _ | cases | intrinsic => rfl

theorem form?_of_filed? {j : Jump} (h : filed? line = some j) : ∃ kind text target,
    form? (operator line) = some (.jump kind text) ∧ jumpTarget (operands line) = .ok target ∧
      ((Offset.number target).lt? line.offset = some true ∧
          j = { kind := .loop, start := .number target, stop := line.offset } ∨
        (Offset.number target).lt? line.offset = some false ∧
          j = { kind, start := line.offset, stop := .number target }) := by
  unfold filed? at h
  split at h
  · next kind text target hf ht =>
    refine ⟨kind, text, target, hf, ht, ?_⟩
    obtain ⟨back, hlt, hj⟩ := Option.map_eq_some_iff.1 h
    cases back with
    | true => exact Or.inl ⟨hlt, hj.symm⟩
    | false => exact Or.inr ⟨hlt, hj.symm⟩
  · cases h

theorem yields_renderLine_plain (h : (statement? line).isSome) :
    Yields (renderLine line) s wanted ↔ wanted (line.reading (textOf line)) s := by
  change Yields (render line.offset (operator line) (operands line) >>= fun text =>
    pure { line with rendered := text }) s wanted ↔ _
  rw [yields_bind]
  unfold render textOf
  unfold statement? at h ⊢
  split at h
  · next parts hf =>
    rw [hf]
    cases hr : renderParts (operands line) parts with
    | error fault => simp [hr, Except.toOption] at h
    | ok text => simp [hr, Except.toOption, CodeLine.reading]
  · next hf =>
    rw [hf]
    cases hr : intrinsicCall (operands line) with
    | error fault => simp [hr, Except.toOption] at h
    | ok text => simp [Except.toOption, CodeLine.reading]
  · cases h

theorem yields_fileJump {kind : JumpKind} {start stop : Offset} (hk : kind ∈ JumpKind.filed)
    (hfree : start ∉ (s.tables.table kind).keys) {wanted : Unit → Recorder → Prop} :
    Yields (fileJump kind start stop) s wanted ↔
      wanted () { s with tables := s.tables.put kind start { kind, start, stop } } := by
  obtain ⟨table, htable⟩ := Option.isSome_iff_exists.1 (get?_isSome_of_filed s.tables hk)
  have hout : ¬table.contains start = true := by
    intro hc
    obtain ⟨j, hm⟩ := Table.contains_eq_true.1 hc
    have hm : (start, j) ∈ (s.tables.table kind).entries := by simpa [JumpTables.table, htable] using hm
    exact hfree (List.mem_map_of_mem hm)
  simp only [fileJump, yields_bind, yields_get]
  rw [htable]
  dsimp only
  rw [if_neg hout, yields_modify]

theorem yields_renderLine_files {j : Jump} (h : filed? line = some j) (hk : j.kind ∈ JumpKind.filed)
    (hfree : j.start ∉ (s.tables.table j.kind).keys) : Yields (renderLine line) s wanted ↔
      wanted (line.reading (textOf line)) { s with tables := s.tables.put j.kind j.start j } := by
  obtain ⟨kind, text, target, hf, ht, hor⟩ := form?_of_filed? h
  change Yields (render line.offset (operator line) (operands line) >>= fun text =>
    pure { line with rendered := text }) s wanted ↔ _
  rw [yields_bind]
  unfold render textOf
  rw [hf]
  simp only [recordJump, yields_bind, yields_ofExcept, yields_need, yields_pure, ht, Except.ok.injEq,
    exists_eq_left']
  rcases hor with ⟨hlt, rfl⟩ | ⟨hlt, rfl⟩
  · simp only [hlt, Option.some.injEq, exists_eq_left', if_true]
    exact yields_fileJump hk hfree
  · simp only [hlt, Option.some.injEq, exists_eq_left', Bool.false_eq_true, if_false]
    exact yields_fileJump hk hfree

theorem entriesOf_cons (line : CodeLine) (lines : List CodeLine) (k : JumpKind) :
    entriesOf (line :: lines) k =
      ((filed? line).toList.filter (·.kind = k)).map (fun j => (j.start, j)) ++ entriesOf lines k := by
  unfold entriesOf
  rw [List.filterMap_cons]
  cases filed? line with
  | none => rfl
  | some j =>
    rw [Option.toList_some, ← List.map_append, ← List.filter_append]
    rfl

/-- Filing a jump under a new start adds it to the end of the table of its kind. -/
theorem entries_put {t : JumpTables Jump} {j : Jump} (hk : j.kind ∈ JumpKind.filed)
    (hfree : j.start ∉ (t.table j.kind).keys) (k : JumpKind) :
    ((t.put j.kind j.start j).table k).entries =
      (t.table k).entries ++ ([j].filter (·.kind = k)).map fun j => (j.start, j) := by
  rw [table_put (get?_isSome_of_filed t hk)]
  by_cases he : j.kind = k
  · subst he
    rw [if_pos rfl, Table.put, Table.putEntry_of_notMem _ hfree]
    simp
  · simp [he]

/-- Lines are rendered without a fault if no two jumps of a kind start at one offset. -/
theorem yields_renderLines_files : ∀ (lines : List CodeLine) {s : Recorder},
    (∀ line ∈ lines, Renderable line) →
    (∀ k, ((s.tables.table k).keys ++ (entriesOf lines k).map (·.1)).Nodup) →
    Yields (renderLines lines) s fun rendered t =>
      rendered = lines.map (fun line => line.reading (textOf line)) ∧
        ∀ k, (t.tables.table k).entries = (s.tables.table k).entries ++ entriesOf lines k
  | [], s, _, _ => yields_pure.2 ⟨rfl, by simp [entriesOf]⟩
  | line :: lines, s, hall, hn => by
    have hrest : ∀ l ∈ lines, Renderable l := fun l hl => hall l (List.mem_cons_of_mem line hl)
    simp only [renderLines, yields_bind, yields_pure]
    rcases hall line (by simp) with hs | ⟨j, hj, hk⟩
    · have hsame : ∀ k, entriesOf (line :: lines) k = entriesOf lines k := by
        intro k
        rw [entriesOf_cons, filed?_of_statement? hs]
        rfl
      rw [yields_renderLine_plain hs]
      refine (yields_renderLines_files lines hrest fun k => hsame k ▸ hn k).mono ?_
      intro rendered t hr
      refine ⟨by rw [hr.1, List.map_cons], fun k => ?_⟩
      rw [hsame]
      exact hr.2 k
    · have hsplit : ∀ k, entriesOf (line :: lines) k =
          ([j].filter (·.kind = k)).map (fun j => (j.start, j)) ++ entriesOf lines k := by
        intro k
        rw [entriesOf_cons, hj, Option.toList_some]
      have hfree : j.start ∉ (s.tables.table j.kind).keys := by
        have hkind := hn j.kind
        rw [hsplit, List.filter_cons_of_pos (by simp)] at hkind
        exact fun hm => (List.nodup_append.1 hkind).2.2 _ hm j.start (by simp) rfl
      rw [yields_renderLine_files hj hk hfree]
      refine (yields_renderLines_files lines hrest fun k => ?_).mono ?_
      · have hkeys := hn k
        rw [hsplit, List.map_append, ← List.append_assoc] at hkeys
        rw [Table.keys, entries_put hk hfree, List.map_append]
        exact hkeys
      · intro rendered t hr
        refine ⟨by rw [hr.1, List.map_cons], fun k => ?_⟩
        rw [hr.2 k, entries_put hk hfree, hsplit, List.append_assoc]

end Instruction

open Instruction

/-- A line that reads as a statement, wherever it stands. -/
def zeroAt (n : Int) : CodeLine := { offset := .number n, instruction := "LdaZero" }

theorem states_zeroAt (n : Int) : States (zeroAt n) "ACCU = 0" where
  reads := ⟨.load [.lit "0"], (by decide : form? (parts "LdaZero").1 = some (.load [.lit "0"])), rfl,
    by decide, rfl⟩
  filled := by decide
  plain := by simp

def returnAt (n : Int) : CodeLine := { offset := .number n, instruction := "Return" }

end Bytelift
