import Bytelift.Instruction.Record
import Bytelift.Proofs.Order
import Bytelift.Proofs.Run
import Bytelift.Proofs.Table
import Mathlib.Data.List.Forall2

/-! What the instructions of a function record. Every jump in the tables comes from a guarded range or from
a line of the code, and is filed under its own kind and start; so what is known of the lines is known of the
tables. -/

namespace Bytelift

open Run

theorem forall₂_mem_left {α β : Type} {r : α → β → Prop} {xs : List α} {ys : List β} (h : List.Forall₂ r xs ys)
    {x : α} (hx : x ∈ xs) : ∃ y ∈ ys, r x y := by
  induction h with
  | nil => cases hx
  | cons hr _ ih =>
    rcases List.mem_cons.1 hx with rfl | hx
    · exact ⟨_, List.mem_cons_self, hr⟩
    · obtain ⟨y, hy, hxy⟩ := ih hx
      exact ⟨y, List.mem_cons_of_mem _ hy, hxy⟩

namespace JumpTables

variable {α : Type}

/-- The table of a kind, which is empty for a kind that has none. -/
def table (t : JumpTables α) (k : JumpKind) : Table Offset α := (t.get? k).getD {}

theorem table_put {t : JumpTables α} {k : JumpKind} (hk : (t.get? k).isSome) (o : Offset) (a : α)
    (l : JumpKind) : (t.put k o a).table l = if k = l then (t.table k).put o a else t.table l := by
  obtain ⟨old, hold⟩ := Option.isSome_iff_exists.1 hk
  simp only [put, hold, table, get?_set _ hold]
  split <;> rfl

/-- Every jump is filed under its own kind and start, under no start are there two of a kind, and all come
from where they may. -/
structure Entered (source : Jump → Prop) (t : JumpTables Jump) : Prop where
  distinct : ∀ k, (t.table k).keys.Nodup
  entered : ∀ k o j, (o, j) ∈ (t.table k).entries → j.kind = k ∧ j.start = o ∧ source j

theorem Entered.put {source : Jump → Prop} {t : JumpTables Jump} (h : Entered source t) {j : Jump}
    (hk : (t.get? j.kind).isSome) (hj : source j) : Entered source (t.put j.kind j.start j) where
  distinct := by
    intro k
    rw [table_put hk]
    split
    · exact Table.nodup_keys_put (h.distinct _) _ _
    · exact h.distinct k
  entered := by
    intro k o i hm
    rw [table_put hk] at hm
    split at hm
    · next he =>
      rcases (Table.mem_put (h.distinct _)).1 hm with ⟨rfl, rfl⟩ | ⟨_, hm⟩
      · exact ⟨he, rfl, hj⟩
      · exact he ▸ h.entered _ o i hm
    · exact h.entered k o i hm

theorem entered_empty (source : Jump → Prop) : Entered source {} where
  distinct k := by cases k <;> simp [table, get?, Table.keys]
  entered k o j hm := by cases k <;> simp [table, get?] at hm

end JumpTables

namespace Instruction

open JumpTables

def operator (line : CodeLine) : String := (parts line.instruction).1

def operands (line : CodeLine) : List String := (parts line.instruction).2

def target? (line : CodeLine) : Option Int :=
  match form? (operator line) with
  | some (.jump _ _) => (jumpTarget (operands line)).toOption
  | _ => none

def casesAt (line : CodeLine) : List Case :=
  match form? (operator line) with
  | some .cases => ((caseTable (operands line)).toOption.map (·.values)).getD []
  | _ => []

theorem mem_target? {line : CodeLine} {kind : JumpKind} {text : String} {target : Int}
    (hf : form? (operator line) = some (.jump kind text)) (ht : jumpTarget (operands line) = .ok target) :
    target ∈ target? line := by
  simp [target?, hf, ht, Except.toOption]

theorem casesAt_eq {line : CodeLine} {cases : CaseTable} (hf : form? (operator line) = some .cases)
    (hc : caseTable (operands line) = .ok cases) : casesAt line = cases.values := by
  simp [casesAt, hf, hc, Except.toOption]

/-- Whatever holds of all forms holds of the form of an operator. -/
theorem form?_all {check : Form → Bool} (h : forms.all (fun entry => check entry.2) = true)
    {name : String} {f : Form} (hf : form? name = some f) : check f = true := by
  obtain ⟨before, after, he, _⟩ := List.lookup_eq_some_iff.1 hf
  rw [he] at h
  exact List.all_eq_true.1 h (name, f) (by simp)

def Form.kind? : Form → Option JumpKind
  | .jump kind _ => some kind
  | _ => none

/-- Jumps are shown as tests, skips or receivers; one of another kind has no table to go to. -/
theorem kind_of_form? {name text : String} {k : JumpKind} (hf : form? name = some (.jump k text))
    (hk : k ∈ JumpKind.filed) : k = .test ∨ k = .skip ∨ k = .receiver := by
  have hcheck := @form?_all
    (fun f => f.kind?.all fun k => decide (k ∉ [JumpKind.loop, .guarded, .handler, .arm]))
    (by decide) name _ hf
  cases k <;> simp_all [Form.kind?, JumpKind.filed]

/-- Where a recorded jump comes from. -/
inductive Origin (code : List CodeLine) (handlers : Handlers) : Jump → Prop
  | guarded {handler first last : Int} (hm : (handler, first, last) ∈ handlers.entries) :
      Origin code handlers { kind := .guarded, start := .number first, stop := .number handler }
  | forward {line : CodeLine} (hl : line ∈ code) {kind : JumpKind} {text : String} {target : Int}
      (hf : form? (operator line) = some (.jump kind text))
      (ht : jumpTarget (operands line) = .ok target)
      (hlt : (Offset.number target).lt? line.offset = some false) :
      Origin code handlers { kind, start := line.offset, stop := .number target }
  | backward {line : CodeLine} (hl : line ∈ code) {kind : JumpKind} {text : String} {target : Int}
      (hf : form? (operator line) = some (.jump kind text))
      (ht : jumpTarget (operands line) = .ok target)
      (hlt : (Offset.number target).lt? line.offset = some true) :
      Origin code handlers { kind := .loop, start := .number target, stop := line.offset }
  | arm {line : CodeLine} (hl : line ∈ code) {cases : CaseTable} {arms : List Jump} {j : Jump}
      (hf : form? (operator line) = some .cases) (hc : caseTable (operands line) = .ok cases)
      (ha : switchArms line.offset cases = .ok arms) (hj : j ∈ arms) : Origin code handlers j

def Form.ReadsAs (operands : List String) (text : String) : Form → Prop
  | .statement parts => renderParts operands parts = .ok text
  | .jump _ shown => text = shown
  | .cases => text = ""
  | .intrinsic => intrinsicCall operands = .ok text

/-- What a line reads as. An operator without a form reads as anything. -/
def ReadsAs (line : CodeLine) (text : String) : Prop :=
  ∀ form, form? (operator line) = some form → form.ReadsAs (operands line) text

theorem ReadsAs.of_form? {line : CodeLine} {text : String} {form : Form}
    (hf : form? (operator line) = some form) (hr : form.ReadsAs (operands line) text) :
    ReadsAs line text := by
  intro other ho
  rw [hf] at ho
  cases ho
  exact hr

def Renders (line result : CodeLine) : Prop := ∃ text, ReadsAs line text ∧ result = { line with rendered := text }

theorem kind_of_mem_armChain {last start : Offset} {labels : String} {cases : List Case} {j : Jump}
    (hj : j ∈ armChain last start labels cases) : j.kind = .arm := by
  induction cases generalizing start labels with
  | nil =>
    rw [List.mem_singleton.1 hj]
  | cons c cases ih =>
    simp only [armChain] at hj
    split at hj
    · exact ih hj
    · rcases List.mem_cons.1 hj with rfl | hj
      · rfl
      · exact ih hj

theorem kind_of_mem_switchArms {offset : Offset} {cases : CaseTable} {arms : List Jump} {j : Jump}
    (ha : switchArms offset cases = .ok arms) (hj : j ∈ arms) : j.kind = .arm := by
  unfold switchArms at ha
  split at ha
  · cases ha
  · split at ha
    · cases ha
    · cases ha
      exact kind_of_mem_armChain hj

theorem entered_fileArms {source : Jump → Prop} {arms : List Jump} {t : JumpTables Jump}
    (h : Entered source t) (hk : ∀ j ∈ arms, j.kind = .arm) (hs : ∀ j ∈ arms, source j) :
    Entered source (fileArms t arms) := by
  unfold fileArms
  induction arms generalizing t with
  | nil => exact h
  | cons j arms ih =>
    have hj := hk j (by simp)
    have hput : Entered source (t.put .arm j.start j) := hj ▸ h.put (by rw [hj]; rfl) (hs j (by simp))
    exact ih hput (fun i hi => hk i (by simp [hi])) fun i hi => hs i (by simp [hi])

theorem entered_guardTables {code : List CodeLine} {handlers : Handlers} :
    Entered (Origin code handlers) (guardTables handlers) := by
  unfold guardTables
  refine List.foldlRecOn (motive := fun t : JumpTables Jump => Entered (Origin code handlers) t)
    handlers.entries _ (entered_empty _) ?_
  intro t h entry hm
  exact h.put rfl (.guarded hm)

variable {s : Recorder}

theorem fileJump_ok {kind : JumpKind} {start stop : Offset} {wanted : Unit → Recorder → Prop}
    (h : Yields (fileJump kind start stop) s wanted) : (s.tables.get? kind).isSome ∧
      wanted () { s with tables := s.tables.put kind start { kind, start, stop } } := by
  simp only [fileJump, yields_bind, yields_get] at h
  split at h
  · exact absurd h yields_throw
  · next table ht =>
    rw [yields_ite] at h
    split at h
    · exact absurd h yields_throw
    · rw [yields_modify] at h
      exact ⟨by simp [ht], h⟩

theorem entered_of_fileJump {source : Jump → Prop} {kind : JumpKind} {start stop : Offset}
    (h : Entered source s.tables) (hj : source { kind, start, stop }) {wanted : Unit → Recorder → Prop}
    (hy : Yields (fileJump kind start stop) s wanted) :
    Yields (fileJump kind start stop) s fun _ t => Entered source t.tables := by
  obtain ⟨_, t, hok, _⟩ := hy
  obtain ⟨hk, rfl⟩ := @fileJump_ok s kind start stop (fun _ u => u = t) ⟨_, t, hok, rfl⟩
  exact ⟨_, _, hok, h.put hk hj⟩

variable {code : List CodeLine} {handlers : Handlers}

theorem entered_of_render (h : Entered (Origin code handlers) s.tables) {line : CodeLine}
    (hl : line ∈ code) {text : String} {t : Recorder}
    (hok : render line.offset (operator line) (operands line) s = .ok text t) :
    Entered (Origin code handlers) t.tables ∧ ReadsAs line text := by
  have hy : Yields (render line.offset (operator line) (operands line)) s
      fun a u => a = text ∧ u = t := ⟨text, t, hok, rfl, rfl⟩
  unfold render at hy
  split at hy
  · next hf =>
    obtain ⟨a, ha, rfl, rfl⟩ := yields_ofExcept.1 hy
    exact ⟨h, ReadsAs.of_form? hf ha⟩
  · next kind shown hf =>
    simp only [recordJump, yields_bind, yields_ofExcept, yields_need, yields_pure] at hy
    obtain ⟨target, ht, b, hlt, hy⟩ := hy
    cases b with
    | true =>
      have hfile := entered_of_fileJump h (.backward hl hf ht hlt) hy
      obtain ⟨_, u, hu, rfl, rfl⟩ := hy
      exact ⟨hfile.of_ok hu, ReadsAs.of_form? hf rfl⟩
    | false =>
      have hfile := entered_of_fileJump h (.forward hl hf ht hlt) hy
      obtain ⟨_, u, hu, rfl, rfl⟩ := hy
      exact ⟨hfile.of_ok hu, ReadsAs.of_form? hf rfl⟩
  · next hf =>
    simp only [recordSwitch, yields_bind, yields_ofExcept, yields_modify, yields_pure] at hy
    obtain ⟨cases, hc, arms, ha, rfl, rfl⟩ := hy
    exact ⟨entered_fileArms h (fun j hj => kind_of_mem_switchArms ha hj)
      fun j hj => .arm hl hf hc ha hj, ReadsAs.of_form? hf rfl⟩
  · next hf =>
    obtain ⟨a, ha, rfl, rfl⟩ := yields_ofExcept.1 hy
    exact ⟨h, ReadsAs.of_form? hf ha⟩
  · next hf =>
    -- a prompt leaves the tables alone
    simp only [ask, yields_bind, yields_modify, yields_get] at hy
    split at hy
    · exact absurd hy yields_throw
    · simp only [yields_bind, yields_modify, yields_pure] at hy
      rw [← hy.2]
      refine ⟨h, ?_⟩
      intro form ho
      rw [hf] at ho
      cases ho

/-- Whatever is recorded comes from a guarded range or from a line of the code. -/
theorem entered_of_renderLines : ∀ (lines : List CodeLine) {s t : Recorder} {rendered : List CodeLine},
    (∀ line ∈ lines, line ∈ code) → Entered (Origin code handlers) s.tables →
    renderLines lines s = .ok rendered t →
    Entered (Origin code handlers) t.tables ∧ List.Forall₂ Renders lines rendered
  | [], s, t, rendered, _, h, hok => by
    cases hok
    exact ⟨h, .nil⟩
  | line :: lines, s, t, rendered, hall, h, hok => by
    obtain ⟨first, middle, hfirst, hok⟩ := bind_eq_ok.1 hok
    obtain ⟨rest, last, hrest, hok⟩ := bind_eq_ok.1 hok
    cases hok
    obtain ⟨text, u, htext, hok⟩ := bind_eq_ok.1 hfirst
    cases hok
    obtain ⟨hmiddle, hreads⟩ := entered_of_render h (hall line (by simp)) htext
    obtain ⟨hlast, hrenders⟩ := entered_of_renderLines lines
      (fun l hl => hall l (List.mem_cons_of_mem line hl)) hmiddle hrest
    exact ⟨hlast, .cons ⟨text, hreads, rfl⟩ hrenders⟩

end Instruction

end Bytelift
