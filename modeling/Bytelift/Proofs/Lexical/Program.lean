import Bytelift.Function
import Bytelift.Proofs.Conditional.Source
import Bytelift.Proofs.Lexical.Chain
import Bytelift.Proofs.Text.Numeral

/-! Programs of functions within one another, as far as contexts go: their lines make contexts, capture the
current one for a function, and read and write slots. A function starts in the context that was captured for
it, or else where the function around it starts. -/

namespace Bytelift.Lexical

open Text Instruction

/-! ## Instructions -/

inductive Kind where
  | function
  | block
  | handler
  | eval
  | object
  deriving DecidableEq, Repr

inductive Direction where
  | load
  | store
  deriving DecidableEq, Repr

inductive Op where
  /-- Makes a context. -/
  | create (kind : Kind)
  /-- Makes a function out of an entry of the constant pool, in the current context. -/
  | closure (index : Nat)
  /-- Reads or writes a slot of the current context, or of one some steps out of it. -/
  | access (direction : Direction) (slot : Nat) (depth : Option Nat)
  deriving DecidableEq, Repr

def Kind.text : Kind → String
  | .function => "Function"
  | .block => "Block"
  | .handler => "Catch"
  | .eval => "Eval"
  | .object => "With"

namespace Op

def operator : Op → String
  | .create kind => "Create" ++ kind.text ++ "Context"
  | .closure _ => "CreateClosure"
  | .access .load _ none => "LdaCurrentContextSlot"
  | .access .load _ (some _) => "LdaContextSlot"
  | .access .store _ none => "StaCurrentContextSlot"
  | .access .store _ (some _) => "StaContextSlot"

def operands : Op → List String
  | .create _ => []
  | .closure index => [bracketed index]
  | .access _ slot none => [bracketed slot]
  | .access _ slot (some depth) => ["<context>", bracketed slot, bracketed depth]

abbrev Spelled (op : Op) (line : CodeLine) : Prop := Instruction.Spelled op.operator op.operands line

def context : Option Nat → String
  | none => "CURRENT"
  | some depth => "CURRENT-" ++ toString depth

def reference (slot : Nat) (depth : Option Nat) : String := "Scope[" ++ context depth ++ "]" ++ bracketed slot

def text : Op → String
  | .create kind => "ACCU = PushContext(\"" ++ kind.text ++ "\")"
  | .closure index => "ACCU = new func ConstPool" ++ bracketed index
  | .access .load slot depth => "ACCU = " ++ reference slot depth
  | .access .store slot depth => reference slot depth ++ " = ACCU"

def form : Op → Form
  | .create kind => .load [.lit ("PushContext(\"" ++ kind.text ++ "\")")]
  | .closure _ => .load [.lit "new func ConstPool", .operand 0]
  | .access .load _ none => .load [.lit "Scope[CURRENT]", .operand 0]
  | .access .load _ (some _) => .load [.lit "Scope[", .scope, .lit "]", .operand 1]
  | .access .store _ none => .store [.lit "Scope[CURRENT]", .operand 0]
  | .access .store _ (some _) => .store [.lit "Scope[", .scope, .lit "]", .operand 1]

theorem forms_contexts : ∀ kind ∈ [Kind.function, .block, .handler, .eval, .object],
    form? ("Create" ++ kind.text ++ "Context") = some (.load [.lit ("PushContext(\"" ++ kind.text ++ "\")")]) := by
  decide +kernel

theorem forms_accesses : form? "CreateClosure" = some (.load [.lit "new func ConstPool", .operand 0]) ∧
    form? "LdaCurrentContextSlot" = some (.load [.lit "Scope[CURRENT]", .operand 0]) ∧
    form? "LdaContextSlot" = some (.load [.lit "Scope[", .scope, .lit "]", .operand 1]) ∧
    form? "StaCurrentContextSlot" = some (.store [.lit "Scope[CURRENT]", .operand 0]) ∧
    form? "StaContextSlot" = some (.store [.lit "Scope[", .scope, .lit "]", .operand 1]) := by decide +kernel

theorem form?_operator : ∀ op : Op, form? op.operator = some op.form
  | .create kind => forms_contexts kind (by cases kind <;> decide)
  | .closure _ => forms_accesses.1
  | .access .load _ none => forms_accesses.2.1
  | .access .load _ (some _) => forms_accesses.2.2.1
  | .access .store _ none => forms_accesses.2.2.2.1
  | .access .store _ (some _) => forms_accesses.2.2.2.2

theorem scopeName_context (slot depth : Nat) (more : List String) :
    scopeName ("<context>" :: bracketed slot :: bracketed depth :: more) = .ok (context (some depth)) := by
  have hnamed : has "<context>" "<context>" = true := by decide +kernel
  have hname : scopeName ("<context>" :: bracketed slot :: bracketed depth :: more) =
      .ok ((if has "<context>" "<context>" then "CURRENT" else "<context>") ++ "-" ++
        Text.inner (bracketed depth)) := rfl
  rw [hname, hnamed, if_pos rfl, inner_bracketed]
  rfl

@[simp] theorem text_create (kind : Kind) :
    (create kind).text = "ACCU = PushContext(\"" ++ kind.text ++ "\")" := rfl

@[simp] theorem text_closure (index : Nat) :
    (closure index).text = "ACCU = new func ConstPool" ++ bracketed index := rfl

@[simp] theorem text_load (slot : Nat) (depth : Option Nat) :
    (access .load slot depth).text = "ACCU = " ++ reference slot depth := rfl

@[simp] theorem text_store (slot : Nat) (depth : Option Nat) :
    (access .store slot depth).text = reference slot depth ++ " = ACCU" := rfl

theorem readsAs (op : Op) (more : List String) : op.form.ReadsAs (op.operands ++ more) op.text := by
  rcases op with kind | index | ⟨_ | _, slot, _ | depth⟩ <;>
    simp [form, Form.load, Form.store, Form.ReadsAs, renderParts, Fragment.render, operands, operandAt, bind,
      Except.bind, pure, Except.pure, reference, context, scopeName_context, ← String.toList_inj]

def Plain (s : String) : Prop := ∀ c ∈ ['\n', '\x7b', '\x7d'], c ∉ s.toList

instance (s : String) : Decidable (Plain s) := List.decidableBAll _ _

theorem Plain.append {s t : String} (hs : Plain s) (ht : Plain t) : Plain (s ++ t) := by
  intro c hc hm
  rw [String.toList_append] at hm
  exact (List.mem_append.1 hm).elim (hs c hc) (ht c hc)

theorem plain_toString (n : Nat) : Plain (toString n) := by
  have hno : ∀ c ∈ ['\n', '\x7b', '\x7d'], c.isDigit = false := forall_mem_of_all (by decide)
  intro c hc hm
  exact ne_of_mem_toString hm (hno c hc) rfl

theorem plain_bracketed (n : Nat) : Plain (bracketed n) := by
  have hopen : Plain "[" := by decide
  have hclose : Plain "]" := by decide
  exact (hopen.append (plain_toString n)).append hclose

theorem plain_reference (slot : Nat) (depth : Option Nat) : Plain (reference slot depth) := by
  have hcontext : Plain (context depth) := by
    cases depth with
    | none => exact (by decide : Plain "CURRENT")
    | some depth =>
      have hlead : Plain "CURRENT-" := by decide
      exact hlead.append (plain_toString depth)
  have hscope : Plain "Scope[" := by decide
  have hclose : Plain "]" := by decide
  exact ((hscope.append hcontext).append hclose).append (plain_bracketed slot)

theorem plain_text (op : Op) : Plain op.text := by
  have haccumulator : Plain "ACCU = " := by decide
  have hstored : Plain " = ACCU" := by decide
  match op with
  | .create kind => cases kind <;> decide
  | .closure index =>
    have hnew : Plain "ACCU = new func ConstPool" := by decide
    exact hnew.append (plain_bracketed index)
  | .access .load slot depth => exact haccumulator.append (plain_reference slot depth)
  | .access .store slot depth => exact (plain_reference slot depth).append hstored

theorem Spelled.states {op : Op} {line : CodeLine} (h : op.Spelled line) : States line op.text := by
  obtain ⟨parts, hparts⟩ : ∃ parts, op.form = .statement parts := by
    rcases op with kind | index | ⟨_ | _, slot, _ | depth⟩ <;> exact ⟨_, rfl⟩
  have hreads := op.readsAs
  rw [hparts] at hreads
  refine Instruction.Spelled.states h (hparts ▸ op.form?_operator) hreads ?_ op.plain_text
  rcases op with kind | index | ⟨_ | _, slot, depth⟩ <;> simp [reference]

def creates : Op → Bool
  | .create _ => true
  | _ => false

/-- The numbers that are read from the instruction are not too long to be read. -/
def Readable : Op → Prop
  | .closure index => Short index
  | .access _ _ (some depth) => Short depth
  | _ => True

instance : (op : Op) → Decidable op.Readable
  | .create _ => .isTrue trivial
  | .closure index => inferInstanceAs (Decidable (Short index))
  | .access _ _ none => .isTrue trivial
  | .access _ _ (some depth) => inferInstanceAs (Decidable (Short depth))

end Op

/-! ## Functions -/

/-- A function of such instructions. -/
structure Member where
  function : Function
  pool : List String
  code : List CodeLine
  ops : List Op
  pooled : function.pool = some pool
  unguarded : function.handlers = some {}
  coded : function.code = some code
  spelled : List.Forall₂ (fun line op => Op.Spelled op line) code ops
  readable : ∀ op ∈ ops, op.Readable
  entries : ∀ index, .closure index ∈ ops → index < pool.length

namespace Member

variable (m : Member)

def name : String := m.function.name

def declarer : Option String := m.function.declarer

/-- The contexts that the function has made before a line. -/
def created (n : Nat) : List Creation :=
  ((List.range n).filter fun line => m.ops[line]?.any Op.creates).map (Creation.mk m.name)

/-- The contexts around a line of a function that starts in a chain of contexts. -/
def chainAt (start : Chain) (n : Nat) : Chain := (m.created n).reverse ++ start

/-- The function for which a line captures the current context. -/
def captured? (line : Nat) : Option String :=
  match m.ops[line]? with
  | some (.closure index) => m.pool[index]?
  | _ => none

def creations : List Creation := m.created m.ops.length

variable {m}

theorem states (m : Member) : List.Forall₂ States m.code (m.ops.map Op.text) :=
  List.forall₂_map_right_iff.2 (m.spelled.imp fun _ _ h => h.states)

theorem created_succ (n : Nat) :
    m.created (n + 1) = m.created n ++ if m.ops[n]?.any Op.creates then [⟨m.name, n⟩] else [] := by
  rw [created, List.range_succ, List.filter_append, List.map_append, created]
  split <;> simp_all

theorem mem_created {n : Nat} {c : Creation} (h : c ∈ m.created n) : c.function = m.name ∧ c.line < n := by
  obtain ⟨line, hline, rfl⟩ := List.mem_map.1 h
  exact ⟨rfl, List.mem_range.1 (List.mem_filter.1 hline).1⟩

theorem created_append {n n' : Nat} (h : n ≤ n') : m.created n <+: m.created n' := by
  induction h with
  | refl => exact List.prefix_refl _
  | step _ ih =>
    rw [created_succ]
    exact ih.trans (List.prefix_append _ _)

end Member

/-! ## Programs -/

/-- Functions within one another, each listed after those within it; the last one is around all others. Each is
created at most once, by the function around it. -/
structure Program where
  members : List Member
  names : (members.map Member.name).Nodup
  nested : ∀ before m after, members = before ++ m :: after →
    after = [] ∧ m.declarer = none ∨ ∃ outer ∈ after, m.declarer = some outer.name
  declared : ∀ m ∈ members, ∀ line name, m.captured? line = some name →
    ∃ inner ∈ members, inner.name = name ∧ inner.declarer = some m.name
  once : ∀ m ∈ members, ∀ line line' name, m.captured? line = some name → m.captured? line' = some name → line = line'

namespace Program

variable {p : Program}

def functions (p : Program) : Functions := ⟨p.members.map fun m => (m.name, m.function)⟩

/-- The chain of contexts in which a function starts: that around the line of its declarer that creates it, or
else the one in which its declarer starts. -/
inductive Starts (p : Program) : Member → Chain → Prop
  | outermost {m : Member} (hd : m.declarer = none) : Starts p m []
  | captured {m outer : Member} {chain : Chain} {line : Nat} (ho : outer ∈ p.members)
      (hd : m.declarer = some outer.name) (hs : Starts p outer chain) (hc : outer.captured? line = some m.name) :
      Starts p m (outer.chainAt chain line)
  | inherited {m outer : Member} {chain : Chain} (ho : outer ∈ p.members)
      (hd : m.declarer = some outer.name) (hs : Starts p outer chain)
      (hc : ∀ line, outer.captured? line ≠ some m.name) : Starts p m chain

theorem eq_of_name {m m' : Member} (h : m ∈ p.members) (h' : m' ∈ p.members) (he : m.name = m'.name) : m = m' :=
  List.inj_on_of_nodup_map p.names h h' he

/-- A function starts in one place. -/
theorem Starts.unique {m : Member} {chain chain' : Chain} (h : p.Starts m chain) (h' : p.Starts m chain') :
    chain = chain' := by
  induction h generalizing chain' with
  | outermost hd =>
    cases h' with
    | outermost _ => rfl
    | captured _ hd' _ _ | inherited _ hd' _ _ => exact absurd (hd.symm.trans hd') (by simp)
  | @captured m outer chain line ho hd hs hc ih =>
    cases h' with
    | outermost hd' => exact absurd (hd.symm.trans hd') (by simp)
    | @captured _ outer' chain' line' ho' hd' hs' hc' =>
      cases eq_of_name ho ho' (Option.some.inj (hd.symm.trans hd'))
      rw [ih hs', p.once outer ho line line' m.name hc hc']
    | @inherited _ outer' _ ho' hd' hs' hc' =>
      cases eq_of_name ho ho' (Option.some.inj (hd.symm.trans hd'))
      exact absurd hc (hc' line)
  | @inherited m outer chain ho hd hs hc ih =>
    cases h' with
    | outermost hd' => exact absurd (hd.symm.trans hd') (by simp)
    | @captured _ outer' chain' line' ho' hd' hs' hc' =>
      cases eq_of_name ho ho' (Option.some.inj (hd.symm.trans hd'))
      exact absurd hc' (hc line')
    | @inherited _ outer' _ ho' hd' hs' hc' =>
      cases eq_of_name ho ho' (Option.some.inj (hd.symm.trans hd'))
      exact ih hs'

end Program

end Bytelift.Lexical
