import Bytelift.Flow.Layout
import Bytelift.Proofs.Order
import Bytelift.Proofs.Run
import Bytelift.Proofs.Table
import Mathlib.Data.List.Nodup

/-! Code under structuring, as the handlers see it. A handler does three things to it: it revises the text
of a line, it retires a jump, and it moves the stop of a test. Each is a function of the state here, and the
actions of the same name are shown to carry it out. `Sound` is what holds between any two handlers: the
tables list the open jumps and nothing else, and every open jump goes forward to a line of the code. -/

namespace Bytelift

open Run

/-- A line with its text revised, if it stands at an offset. -/
def CodeLine.revised (o : Offset) (f : String → String) (line : CodeLine) : CodeLine :=
  if line.offset = o then { line with rendered := f line.rendered } else line

@[simp] theorem CodeLine.revised_offset (o : Offset) (f : String → String) (line : CodeLine) :
    (line.revised o f).offset = line.offset := by
  unfold revised
  split <;> rfl

namespace JumpKind

def recorded : List JumpKind := [.loop, .guarded, .arm, .test, .skip, .receiver]

end JumpKind

theorem JumpTables.get?_isSome {α : Type} (t : JumpTables α) {k : JumpKind} (hk : k ∈ JumpKind.recorded) :
    (t.get? k).isSome := by
  cases k <;> simp_all [JumpKind.recorded, JumpTables.get?]

namespace Flow

def table (flow : Flow) (k : JumpKind) : Table Offset Nat := (flow.tables.get? k).getD {}

/-- A jump is filed in the table of a kind, under an offset. -/
def Filed (flow : Flow) (k : JumpKind) (o : Offset) (i : Nat) : Prop := (o, i) ∈ (flow.table k).entries

def Open (flow : Flow) (i : Nat) : Prop := i < flow.jumps.length ∧ (flow.jump i).done = false

def text (flow : Flow) (o : Offset) : String := ((flow.lineAt? o).map (·.rendered)).getD ""

/-! ## Edits -/

def revised (flow : Flow) (o : Offset) (f : String → String) : Flow :=
  { flow with code := flow.code.map (CodeLine.revised o f) }

def changed (flow : Flow) (i : Nat) (f : Jump → Jump) : Flow :=
  { flow with jumps := flow.jumps.modify i f }

def moved (flow : Flow) (i : Nat) (stop : Offset) : Flow := flow.changed i fun j => { j with stop }

def retired (flow : Flow) (i : Nat) : Flow :=
  { flow.changed i fun j => { j with done := true } with
    tables := flow.tables.set (flow.jump i).kind
      ((flow.table (flow.jump i).kind).erase (flow.jump i).start) }

@[simp] theorem offsets_revised (flow : Flow) (o : Offset) (f : String → String) :
    (flow.revised o f).offsets = flow.offsets := rfl

@[simp] theorem jumps_revised (flow : Flow) (o : Offset) (f : String → String) :
    (flow.revised o f).jumps = flow.jumps := rfl

@[simp] theorem jump_revised (flow : Flow) (o : Offset) (f : String → String) (i : Nat) :
    (flow.revised o f).jump i = flow.jump i := rfl

@[simp] theorem table_revised (flow : Flow) (o : Offset) (f : String → String) (k : JumpKind) :
    (flow.revised o f).table k = flow.table k := rfl

@[simp] theorem offsets_retired (flow : Flow) (i : Nat) : (flow.retired i).offsets = flow.offsets := rfl

@[simp] theorem code_retired (flow : Flow) (i : Nat) : (flow.retired i).code = flow.code := rfl

@[simp] theorem text_retired (flow : Flow) (i : Nat) (o : Offset) :
    (flow.retired i).text o = flow.text o := rfl

@[simp] theorem length_jumps_changed (flow : Flow) (i : Nat) (f : Jump → Jump) :
    (flow.changed i f).jumps.length = flow.jumps.length := by
  simp [changed]

@[simp] theorem length_jumps_moved (flow : Flow) (i : Nat) (stop : Offset) :
    (flow.moved i stop).jumps.length = flow.jumps.length := length_jumps_changed flow i _

@[simp] theorem length_jumps_retired (flow : Flow) (i : Nat) :
    (flow.retired i).jumps.length = flow.jumps.length := by
  simp [retired, changed]

theorem jump_changed {flow : Flow} {i : Nat} (hi : i < flow.jumps.length) (f : Jump → Jump) (j : Nat) :
    (flow.changed i f).jump j = if i = j then f (flow.jump i) else flow.jump j := by
  unfold changed jump
  rw [List.getElem?_modify]
  split
  · next he =>
    subst he
    simp [List.getElem?_eq_getElem hi]
  · simp

theorem jump_moved {flow : Flow} {i : Nat} (hi : i < flow.jumps.length) (stop : Offset) (j : Nat) :
    (flow.moved i stop).jump j = if i = j then { flow.jump i with stop } else flow.jump j :=
  jump_changed hi _ j

@[simp] theorem kind_moved {flow : Flow} {i : Nat} (hi : i < flow.jumps.length) (stop : Offset)
    (j : Nat) : ((flow.moved i stop).jump j).kind = (flow.jump j).kind := by
  rw [jump_moved hi]
  split <;> simp_all

@[simp] theorem start_moved {flow : Flow} {i : Nat} (hi : i < flow.jumps.length) (stop : Offset)
    (j : Nat) : ((flow.moved i stop).jump j).start = (flow.jump j).start := by
  rw [jump_moved hi]
  split <;> simp_all

theorem open_moved {flow : Flow} {i : Nat} (hi : i < flow.jumps.length) (stop : Offset) {j : Nat} :
    (flow.moved i stop).Open j ↔ flow.Open j := by
  unfold Open
  rw [jump_moved hi, length_jumps_moved]
  split <;> simp_all

theorem jump_retired {flow : Flow} {i : Nat} (hi : i < flow.jumps.length) (j : Nat) :
    (flow.retired i).jump j = if i = j then { flow.jump i with done := true } else flow.jump j :=
  jump_changed hi _ j

/-- Retiring a jump changes none but whether it is done. -/
theorem same_retired (flow : Flow) (i j : Nat) :
    (flow.retired i).jump j = { flow.jump j with done := ((flow.retired i).jump j).done } := by
  by_cases hi : i < flow.jumps.length
  · rw [jump_retired hi]
    split
    · next he => rw [he]
    · rfl
  · simp [retired, changed, jump, List.modify_eq_self (Nat.le_of_not_lt hi)]

@[simp] theorem kind_retired (flow : Flow) (i j : Nat) :
    ((flow.retired i).jump j).kind = (flow.jump j).kind := by
  rw [same_retired]

@[simp] theorem start_retired (flow : Flow) (i j : Nat) :
    ((flow.retired i).jump j).start = (flow.jump j).start := by
  rw [same_retired]

@[simp] theorem stop_retired (flow : Flow) (i j : Nat) :
    ((flow.retired i).jump j).stop = (flow.jump j).stop := by
  rw [same_retired]

@[simp] theorem arm_retired (flow : Flow) (i j : Nat) :
    ((flow.retired i).jump j).arm = (flow.jump j).arm := by
  rw [same_retired]

theorem open_retired {flow : Flow} {i j : Nat} (hi : i < flow.jumps.length) :
    (flow.retired i).Open j ↔ flow.Open j ∧ i ≠ j := by
  unfold Open
  rw [jump_retired hi, length_jumps_retired]
  split <;> simp_all

theorem table_retired {flow : Flow} {i : Nat} (hk : (flow.jump i).kind ∈ JumpKind.recorded)
    (k : JumpKind) : (flow.retired i).table k =
      if (flow.jump i).kind = k then (flow.table k).erase (flow.jump i).start else flow.table k := by
  obtain ⟨old, hold⟩ := Option.isSome_iff_exists.1 (flow.tables.get?_isSome hk)
  simp only [table, retired, JumpTables.get?_set _ hold]
  split
  · next he => simp [he]
  · rfl

theorem filed_retired {flow : Flow} {i : Nat} (hk : (flow.jump i).kind ∈ JumpKind.recorded)
    {k : JumpKind} {o : Offset} {j : Nat} : (flow.retired i).Filed k o j ↔
      flow.Filed k o j ∧ ¬((flow.jump i).kind = k ∧ (flow.jump i).start = o) := by
  unfold Filed
  rw [table_retired hk]
  split
  · next he =>
    simp only [Table.erase, List.mem_filter, decide_eq_true_eq, he, true_and]
    exact and_congr_right fun _ => ne_comm
  · next he => simp [he]

/-! ## What holds between the handlers -/

/-- Where an open jump may start and stop, by its kind. A jump forward stops on the last line that it passes
over, so there is a line after that. -/
def Aimed (offsets : List Offset) (j : Jump) : Prop :=
  match j.kind with
  | .test | .skip | .receiver =>
    j.start ∈ offsets ∧ j.stop ∈ offsets ∧ j.start.value ≤ j.stop.value ∧
      ∃ b ∈ offsets, j.stop.value < b.value
  | .guarded => j.start.isNumber ∧ j.stop ∈ offsets ∧ (j.start ∈ offsets → j.start.value ≤ j.stop.value)
  | .loop => j.start.isNumber ∧ j.stop ∈ offsets ∧ j.start.value < j.stop.value
  | .arm => j.start ∈ offsets ∧ (∃ arm, j.arm = some arm ∧ arm.lastStart ∈ offsets) ∧
      (j.stop = .number (-1) ∨ j.stop ∈ offsets ∧ j.start.value < j.stop.value)
  | .handler | .other _ => False

/-- The lines stand in order, and the tables list the open jumps. -/
structure Filing (flow : Flow) : Prop where
  lines : flow.offsets = flow.code.map (·.offset)
  ascending : Ascending flow.offsets
  distinct : ∀ k, (flow.table k).keys.Nodup
  kinds : ∀ i, i < flow.jumps.length → (flow.jump i).kind ∈ JumpKind.recorded
  filed : ∀ k o i, k ≠ .handler →
    (flow.Filed k o i ↔ flow.Open i ∧ (flow.jump i).kind = k ∧ (flow.jump i).start = o)
  once : ∀ i j, i < flow.jumps.length → j < flow.jumps.length →
    (flow.jump i).kind = (flow.jump j).kind → (flow.jump i).start = (flow.jump j).start → i = j
  /-- A line makes one jump at most. -/
  apart : ∀ i j, i < flow.jumps.length → j < flow.jumps.length →
    (flow.jump i).kind = .test → (flow.jump j).kind = .skip → (flow.jump i).start ≠ (flow.jump j).start

structure Sound (flow : Flow) : Prop extends Filing flow where
  aimed : ∀ i, flow.Open i → Aimed flow.offsets (flow.jump i)
  handlers : ∀ o i, flow.Filed .handler o i → o ∈ flow.offsets ∧ (flow.jump i).kind = .skip ∧
    (flow.jump i).start = o ∧ (flow.jump i).stop ∈ flow.offsets ∧ o.value ≤ (flow.jump i).stop.value

namespace Filing

variable {flow : Flow}

theorem lineAt (h : flow.Filing) {o : Offset} (ho : o ∈ flow.offsets) :
    ∃ line ∈ flow.code, line.offset = o ∧ flow.lineAt? o = some line := by
  rw [h.lines] at ho
  obtain ⟨line, hl, rfl⟩ := List.mem_map.1 ho
  have hn := h.ascending.nodup
  rw [h.lines] at hn
  have hf : flow.code.filter (fun l => decide (l.offset = line.offset)) = [line] := by
    obtain ⟨before, after, he⟩ := List.append_of_mem hl
    rw [he] at hn ⊢
    simp only [List.map_append, List.map_cons, List.nodup_append, List.nodup_cons, List.mem_map,
      List.mem_cons] at hn
    obtain ⟨_, ⟨hafter, _⟩, hbefore⟩ := hn
    rw [List.filter_append, List.filter_cons_of_pos (by simp)]
    have h1 : before.filter (fun l => decide (l.offset = line.offset)) = [] := by
      simp only [List.filter_eq_nil_iff, decide_eq_true_eq]
      intro l hm heq
      exact hbefore l.offset ⟨l, hm, rfl⟩ line.offset (Or.inl rfl) heq
    have h2 : after.filter (fun l => decide (l.offset = line.offset)) = [] := by
      simp only [List.filter_eq_nil_iff, decide_eq_true_eq]
      intro l hm heq
      exact hafter ⟨l, hm, heq⟩
    rw [h1, h2]
    rfl
  exact ⟨line, hl, rfl, by simp [lineAt?, hf]⟩

theorem lookup (h : flow.Filing) {k : JumpKind} {o : Offset} {i : Nat} :
    (flow.table k).get? o = some i ↔ flow.Filed k o i := Table.get?_eq_some (h.distinct k)

theorem mem_values (h : flow.Filing) {k : JumpKind} (hk : k ≠ .handler) {i : Nat} :
    i ∈ (flow.table k).values ↔ flow.Open i ∧ (flow.jump i).kind = k := by
  simp only [Table.values, List.mem_map, Prod.exists, exists_eq_right]
  constructor
  · rintro ⟨o, hm⟩
    obtain ⟨ho, hkind, _⟩ := (h.filed k o i hk).1 hm
    exact ⟨ho, hkind⟩
  · rintro ⟨ho, hkind⟩
    exact ⟨_, (h.filed k _ i hk).2 ⟨ho, hkind, rfl⟩⟩

/-- Each open jump is listed once. -/
theorem nodup_values (h : flow.Filing) {k : JumpKind} (hk : k ≠ .handler) :
    (flow.table k).values.Nodup := by
  have he : (flow.table k).entries.Nodup := .of_map _ (h.distinct k)
  refine List.Nodup.map_on ?_ he
  rintro ⟨a, i⟩ ha ⟨b, j⟩ hb hij
  cases hij
  rw [← ((h.filed k a i hk).1 ha).2.2, ← ((h.filed k b i hk).1 hb).2.2]

theorem revised (h : flow.Filing) (o : Offset) (f : String → String) : (flow.revised o f).Filing where
  lines := by simp [Flow.revised, h.lines, Function.comp_def]
  ascending := h.ascending
  distinct := h.distinct
  kinds := h.kinds
  filed := h.filed
  once := h.once
  apart := h.apart

theorem retired (h : flow.Filing) {i : Nat} (hi : i < flow.jumps.length) : (flow.retired i).Filing where
  lines := h.lines
  ascending := h.ascending
  distinct := by
    intro k
    rw [table_retired (h.kinds i hi)]
    split
    · exact Table.nodup_keys_erase (h.distinct k) _
    · exact h.distinct k
  kinds := by simpa using h.kinds
  filed := by
    intro k o j hk
    rw [filed_retired (h.kinds i hi), h.filed k o j hk, open_retired hi, kind_retired, start_retired]
    constructor
    · rintro ⟨⟨ho, rfl, rfl⟩, hne⟩
      refine ⟨⟨ho, ?_⟩, rfl, rfl⟩
      rintro rfl
      exact hne ⟨rfl, rfl⟩
    · rintro ⟨⟨ho, hne⟩, rfl, rfl⟩
      refine ⟨⟨ho, rfl, rfl⟩, ?_⟩
      rintro ⟨hkind, hstart⟩
      exact hne (h.once i j hi ho.1 hkind hstart)
  once := by simpa using h.once
  apart := by simpa using h.apart

theorem moved (h : flow.Filing) {i : Nat} (hi : i < flow.jumps.length) (stop : Offset) :
    (flow.moved i stop).Filing where
  lines := h.lines
  ascending := h.ascending
  distinct := h.distinct
  kinds := by simpa [hi] using h.kinds
  filed := by
    intro k o j hk
    rw [open_moved hi, kind_moved hi, start_moved hi]
    exact h.filed k o j hk
  once := by simpa [hi] using h.once
  apart := by simpa [hi] using h.apart

end Filing

namespace Sound

variable {flow : Flow}

theorem revised (h : flow.Sound) (o : Offset) (f : String → String) : (flow.revised o f).Sound where
  toFiling := h.toFiling.revised o f
  aimed := h.aimed
  handlers := h.handlers

theorem retired (h : flow.Sound) {i : Nat} (hi : i < flow.jumps.length) : (flow.retired i).Sound where
  toFiling := h.toFiling.retired hi
  aimed := by
    intro j hj
    rw [open_retired hi] at hj
    have ha := h.aimed j hj.1
    unfold Aimed at *
    simpa using ha
  handlers := by
    intro o j hj
    rw [filed_retired (h.kinds i hi)] at hj
    simpa using h.handlers o j hj.1

end Sound

/-! ## What no handler changes -/

/-- The lines stay where they are, and so do the jumps; tests only leave their table. -/
structure Follows (flow result : Flow) : Prop where
  offsets : result.offsets = flow.offsets
  length : result.jumps.length = flow.jumps.length
  kind : ∀ i, (result.jump i).kind = (flow.jump i).kind
  start : ∀ i, (result.jump i).start = (flow.jump i).start
  tests : (result.table .test).keys.Sublist (flow.table .test).keys

/-- Besides, the jumps go where they went. -/
structure Onward (flow result : Flow) : Prop extends Follows flow result where
  stop : ∀ i, (result.jump i).stop = (flow.jump i).stop

theorem Follows.trans {flow middle result : Flow} (h : Follows flow middle)
    (h' : Follows middle result) : Follows flow result where
  offsets := h'.offsets.trans h.offsets
  length := h'.length.trans h.length
  kind i := (h'.kind i).trans (h.kind i)
  start i := (h'.start i).trans (h.start i)
  tests := h'.tests.trans h.tests

theorem Onward.trans {flow middle result : Flow} (h : Onward flow middle)
    (h' : Onward middle result) : Onward flow result where
  toFollows := h.toFollows.trans h'.toFollows
  stop i := (h'.stop i).trans (h.stop i)

theorem Onward.refl (flow : Flow) : Onward flow flow :=
  ⟨⟨rfl, rfl, fun _ => rfl, fun _ => rfl, .refl _⟩, fun _ => rfl⟩

theorem onward_revised (flow : Flow) (o : Offset) (f : String → String) :
    Onward flow (flow.revised o f) := ⟨⟨rfl, rfl, fun _ => rfl, fun _ => rfl, .refl _⟩, fun _ => rfl⟩

theorem keys_retired_sublist (flow : Flow) (i : Nat) :
    ((flow.retired i).table .test).keys.Sublist (flow.table .test).keys := by
  by_cases hk : (flow.jump i).kind = .test
  · rw [table_retired (by simp [hk, JumpKind.recorded]), if_pos hk]
    exact List.filter_sublist.map _
  · have hsame : (flow.retired i).table .test = flow.table .test := by
      unfold table retired JumpTables.set
      split <;> simp_all [JumpTables.get?]
    rw [hsame]

theorem onward_retired (flow : Flow) (i : Nat) : Onward flow (flow.retired i) where
  offsets := rfl
  length := length_jumps_retired flow i
  kind := kind_retired flow i
  start := start_retired flow i
  stop := stop_retired flow i
  tests := keys_retired_sublist flow i

/-- The tests that are still open are listed in the order of their lines. -/
def TestsInOrder (flow : Flow) : Prop := (flow.table .test).keys.Pairwise fun a b => a.value < b.value

theorem TestsInOrder.follows {flow result : Flow} (h : flow.TestsInOrder) (hf : Follows flow result) :
    result.TestsInOrder := List.Pairwise.sublist hf.tests h

/-- What every handler, and every part of one, makes of the code: it is sound again, and nothing has moved. -/
structure Kept (flow result : Flow) : Prop extends Follows flow result where
  sound : result.Sound

namespace Kept

variable {flow middle : Flow}

theorem onward {result : Flow} (h : flow.Kept middle) (ho : Onward middle result) (hs : result.Sound) :
    flow.Kept result := ⟨h.toFollows.trans ho.toFollows, hs⟩

theorem revised (h : flow.Kept middle) (o : Offset) (f : String → String) :
    flow.Kept (middle.revised o f) := h.onward (onward_revised _ _ _) (h.sound.revised o f)

theorem retired (h : flow.Kept middle) {i : Nat} (hi : i < middle.jumps.length) :
    flow.Kept (middle.retired i) := h.onward (onward_retired _ _) (h.sound.retired hi)

theorem number (h : flow.Kept middle) {o : Offset} (ho : o ∈ flow.offsets) : o.isNumber :=
  h.sound.ascending.numbers o (h.offsets ▸ ho)

end Kept

theorem Sound.kept {flow : Flow} (h : flow.Sound) : flow.Kept flow := ⟨(Onward.refl flow).toFollows, h⟩

/-! ## Texts -/

theorem Filing.text_eq {flow : Flow} (h : flow.Filing) {line : CodeLine} (hl : line ∈ flow.code) :
    flow.text line.offset = line.rendered := by
  have ho : line.offset ∈ flow.offsets := h.lines ▸ List.mem_map_of_mem hl
  obtain ⟨line', hl', ho', he⟩ := h.lineAt ho
  have hn := h.ascending.nodup
  rw [h.lines] at hn
  rw [Flow.text, he, List.inj_on_of_nodup_map hn hl' hl ho']
  rfl

theorem text_revised {flow : Flow} (h : flow.Sound) {a : Offset} (ha : a ∈ flow.offsets)
    (o : Offset) (f : String → String) :
    (flow.revised o f).text a = if a = o then f (flow.text a) else flow.text a := by
  obtain ⟨line, hl, rfl, he⟩ := h.lineAt ha
  have hm : line.revised o f ∈ (flow.revised o f).code := List.mem_map_of_mem hl
  rw [← line.revised_offset o f, (h.revised o f).text_eq hm, line.revised_offset, h.text_eq hl]
  unfold CodeLine.revised
  split <;> rfl

/-- Only what is done to the text that stands there counts. -/
theorem revised_congr {flow : Flow} (h : flow.Sound) {o : Offset} {f g : String → String}
    (he : f (flow.text o) = g (flow.text o)) : flow.revised o f = flow.revised o g := by
  unfold Flow.revised
  congr 1
  apply List.map_congr_left
  intro line hl
  unfold CodeLine.revised
  split
  · next ho =>
    subst ho
    rw [h.text_eq hl] at he
    rw [he]
  · rfl

theorem reviseLast_eq_none {o : Offset} {f : String → String} {code : List CodeLine}
    (ho : o ∉ code.map (·.offset)) : reviseLast o f code = none ∧
      code.map (CodeLine.revised o f) = code := by
  induction code with
  | nil => simp [reviseLast]
  | cons line lines ih =>
    simp only [List.map_cons, List.mem_cons, not_or] at ho
    obtain ⟨h1, h2⟩ := ih ho.2
    have hne : ¬line.offset = o := fun he => ho.1 he.symm
    simp [reviseLast, h1, h2, hne, CodeLine.revised]

theorem reviseLast_eq_some {o : Offset} {f : String → String} {code : List CodeLine}
    (hn : (code.map (·.offset)).Nodup) (ho : o ∈ code.map (·.offset)) :
    reviseLast o f code = some (code.map (CodeLine.revised o f)) := by
  induction code with
  | nil => simp at ho
  | cons line lines ih =>
    simp only [List.map_cons, List.nodup_cons] at hn
    by_cases hl : line.offset = o
    · obtain ⟨h1, h2⟩ := @reviseLast_eq_none o f lines (hl ▸ hn.1)
      simp [reviseLast, h1, h2, hl, CodeLine.revised]
    · simp only [List.map_cons, List.mem_cons] at ho
      have hm : o ∈ lines.map (·.offset) := ho.resolve_left fun he => hl he.symm
      simp [reviseLast, ih hn.2 hm, hl, CodeLine.revised]

end Flow

/-! ## Actions -/

namespace FlowM

variable {flow : Flow}

@[simp] theorem yields_jump {i : Nat} {wanted : Jump → Flow → Prop} :
    Yields (jump i) flow wanted ↔ wanted (flow.jump i) flow := by
  simp [jump]

@[simp] theorem yields_neighbour {o : Offset} {distance : Int} {wanted : Offset → Flow → Prop} :
    Yields (neighbour o distance) flow wanted ↔
      ∃ b, flow.neighbour o distance = .ok b ∧ wanted b flow := by
  simp [neighbour]

@[simp] theorem yields_settled {α : Type} {x : Option α} {wanted : α → Flow → Prop} :
    Yields (settled x) flow wanted ↔ ∃ a, x = some a ∧ wanted a flow := by
  simp [settled]

@[simp] theorem yields_testAt? {o : Offset} {wanted : Option Nat → Flow → Prop} :
    Yields (testAt? o) flow wanted ↔ wanted ((flow.table .test).get? o) flow := by
  simp [testAt?, Flow.table, JumpTables.get?]

@[simp] theorem yields_skipAt? {o : Offset} {wanted : Option Nat → Flow → Prop} :
    Yields (skipAt? o) flow wanted ↔ wanted ((flow.table .skip).get? o) flow := by
  simp [skipAt?, Flow.table, JumpTables.get?]

@[simp] theorem yields_openTests {wanted : List Nat → Flow → Prop} :
    Yields openTests flow wanted ↔ wanted (flow.table .test).values flow := by
  simp [openTests, Flow.table, JumpTables.get?]

@[simp] theorem yields_openSkips {wanted : List Nat → Flow → Prop} :
    Yields openSkips flow wanted ↔ wanted (flow.table .skip).values flow := by
  simp [openSkips, Flow.table, JumpTables.get?]

@[simp] theorem yields_setStop {i : Nat} {stop : Offset} {wanted : Unit → Flow → Prop} :
    Yields (setStop i stop) flow wanted ↔ wanted () (flow.moved i stop) := by
  simp [setStop, Flow.moved, Flow.changed]

theorem yields_textAt (h : flow.Sound) {o : Offset} (ho : o ∈ flow.offsets)
    {wanted : String → Flow → Prop} :
    Yields (textAt o) flow wanted ↔ wanted (flow.text o) flow := by
  obtain ⟨line, _, _, he⟩ := h.lineAt ho
  simp [textAt, Flow.text, he]

theorem yields_revise (h : flow.Sound) {o : Offset} (ho : o ∈ flow.offsets) {f : String → String}
    {wanted : Unit → Flow → Prop} :
    Yields (revise o f) flow wanted ↔ wanted () (flow.revised o f) := by
  have hn := h.ascending.nodup
  rw [h.lines] at hn ho
  simp [revise, Flow.reviseLast_eq_some hn ho, Flow.revised]

theorem yields_append (h : flow.Sound) {o : Offset} (ho : o ∈ flow.offsets) {text : String}
    {wanted : Unit → Flow → Prop} :
    Yields (append o text) flow wanted ↔ wanted () (flow.revised o (· ++ text)) := yields_revise h ho

theorem yields_prepend (h : flow.Sound) {o : Offset} (ho : o ∈ flow.offsets) {text : String}
    {wanted : Unit → Flow → Prop} :
    Yields (prepend o text) flow wanted ↔ wanted () (flow.revised o (text ++ ·)) := yields_revise h ho

theorem yields_retire {i : Nat} (hk : (flow.jump i).kind ∈ JumpKind.recorded)
    {wanted : Unit → Flow → Prop} :
    Yields (retire i) flow wanted ↔ wanted () (flow.retired i) := by
  obtain ⟨table, ht⟩ := Option.isSome_iff_exists.1 (flow.tables.get?_isSome hk)
  simp [retire, ht, Flow.retired, Flow.changed, Flow.table]

end FlowM

end Bytelift
