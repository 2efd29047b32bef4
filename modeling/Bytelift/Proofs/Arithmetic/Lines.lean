import Bytelift.Proofs.Arithmetic.Machine

/-! The lines of straight-line arithmetic under substitution. The places hold the known values, and no others, which
are put in where they are read. -/

namespace Bytelift.Arithmetic

open Run Text Instruction Substitution Substitution.SheetM

/-! ## Instructions -/

def Sign.operator : Sign → String
  | .add => "Add"
  | .sub => "Sub"
  | .mul => "Mul"
  | .mod => "Mod"
  | .bitAnd => "BitwiseAnd"
  | .bitOr => "BitwiseOr"
  | .bitXor => "BitwiseXor"

def Slot.text (s : Slot) : String := String.ofList s.chars

namespace Op

def operator : Op → String
  | .zero => "LdaZero"
  | .number _ => "LdaSmi"
  | .load _ => "Ldar"
  | .store _ => "Star"
  | .move _ _ => "Mov"
  | .binary sign _ => sign.operator
  | .immediate sign _ => sign.operator ++ "Smi"

def operands : Op → List String
  | .zero => []
  | .number n => [bracketed n]
  | .load s => [s.text]
  | .store n => [(Slot.register n).text]
  | .move s n => [s.text, (Slot.register n).text]
  | .binary _ s => [s.text]
  | .immediate _ n => [bracketed n]

abbrev Spelled (op : Op) (line : CodeLine) : Prop := Instruction.Spelled op.operator op.operands line

def chars (op : Op) : List Char := op.target.chars ++ (" = ".toList ++ op.value.chars)

def form (op : Op) : Form :=
  match op with
  | .zero => .load [.lit "0"]
  | .number _ => .load [.bare 0]
  | .load _ => .load [.operand 0]
  | .store _ => .store [.operand 0]
  | .move _ _ => .statement [.operand 1, .lit " = ", .operand 0]
  | .binary sign _ => .binary (String.singleton sign.char)
  | .immediate sign _ => .immediate (String.singleton sign.char)

theorem forms_signs : ∀ sign ∈ Sign.all, form? sign.operator = some (.binary (String.singleton sign.char)) ∧
    form? (sign.operator ++ "Smi") = some (.immediate (String.singleton sign.char)) := by decide +kernel

theorem forms_moves : form? "LdaZero" = some (.load [.lit "0"]) ∧ form? "LdaSmi" = some (.load [.bare 0]) ∧
    form? "Ldar" = some (.load [.operand 0]) ∧ form? "Star" = some (.store [.operand 0]) ∧
    form? "Mov" = some (.statement [.operand 1, .lit " = ", .operand 0]) := by decide +kernel

theorem form?_operator : ∀ op : Op, form? op.operator = some op.form
  | .zero => forms_moves.1
  | .number _ => forms_moves.2.1
  | .load _ => forms_moves.2.2.1
  | .store _ => forms_moves.2.2.2.1
  | .move _ _ => forms_moves.2.2.2.2
  | .binary sign _ => (forms_signs sign (by cases sign <;> decide)).1
  | .immediate sign _ => (forms_signs sign (by cases sign <;> decide)).2

theorem readsAs (op : Op) (more : List String) :
    op.form.ReadsAs (op.operands ++ more) (String.ofList op.chars) := by
  cases op with
  | zero => rfl
  | number _ | load _ | store _ | move _ _ | binary _ _ | immediate _ _ =>
    simp [form, Form.load, Form.store, Form.binary, Form.immediate, Form.ReadsAs, renderParts, Fragment.render,
      operands, operandAt, bind, Except.bind, pure, Except.pure, inner_bracketed, chars, target, value, Expr.chars,
      Slot.text, Place.chars, numeral, toString, ← String.toList_inj]

theorem chars_ne_nil (op : Op) : op.chars ≠ [] := by
  simp [chars]

/-- The characters of a statement, the digits apart. -/
theorem notMem_chars {c : Char} (hd : c.isDigit = false) (hm : c ∉ '=' :: marks) (op : Op) : c ∉ op.chars := by
  have hmarks : c ∉ marks := fun h => hm (List.mem_cons_of_mem _ h)
  have hplace := Arithmetic.notMem_chars hd hmarks (.place op.target)
  have hvalue := Arithmetic.notMem_chars hd hmarks op.value
  have hequals : c ∉ " = ".toList := by
    intro h
    have hcases : c = ' ' ∨ c = '=' ∨ c = ' ' := by simpa using h
    rcases hcases with rfl | rfl | rfl
    · exact hmarks (by decide)
    · exact hm List.mem_cons_self
    · exact hmarks (by decide)
  simp only [chars, List.mem_append, not_or]
  exact ⟨hplace, hequals, hvalue⟩

theorem Spelled.states {op : Op} {line : CodeLine} (h : op.Spelled line) : States line (String.ofList op.chars) := by
  obtain ⟨parts, hparts⟩ : ∃ parts, op.form = .statement parts := by
    cases op <;> exact ⟨_, rfl⟩
  have hreads := op.readsAs
  rw [hparts] at hreads
  have hout : ∀ c ∈ ['\n', '\x7b', '\x7d'], c.isDigit = false ∧ c ∉ '=' :: marks := forall_mem_of_all (by decide)
  refine Instruction.Spelled.states h (hparts ▸ op.form?_operator) hreads (fun he => ?_) fun c hc => ?_
  · exact op.chars_ne_nil (by simpa using congrArg String.toList he)
  · rw [String.toList_ofList]
    exact op.notMem_chars (hout c hc).1 (hout c hc).2

end Op

/-! ## The places -/

def say (s : Place × Expr) : Substitution.Statement := ⟨s.1.text, s.2.text⟩

theorem Place.isPlace (p : Place) : IsPlace p.text := by
  cases p with
  | accumulator => exact Or.inl rfl
  | slot s =>
    cases s with
    | register n =>
      exact Or.inr ⟨"r", by simp, (toString n).toList, toList_toString_ne_nil n,
        fun _ => isDecimal_of_mem_toString, by simp [Place.text, Place.chars, Slot.chars]⟩
    | argument n =>
      exact Or.inr ⟨"a", by simp, (toString n).toList, toList_toString_ne_nil n,
        fun _ => isDecimal_of_mem_toString, by simp [Place.text, Place.chars, Slot.chars]⟩

theorem line_say (s : Place × Expr) : (say s).line = String.ofList (s.1.chars ++ (" = ".toList ++ s.2.chars)) := by
  rw [← String.toList_inj, Substitution.Statement.toList_line, String.toList_ofList]
  simp [say, Place.text, Expr.text]

theorem sound_say (s : Place × Expr) : (say s).Sound where
  named := Or.inl s.1.isPlace
  filled := by
    intro he
    have hle := s.2.depth_le_length
    rw [show s.2.chars = [] by simpa [say, Expr.text] using he] at hle
    cases h : s.2 <;> simp [h, Expr.depth] at hle
  ended := by
    intro c hc
    rw [say, Expr.text, String.toList_ofList] at hc
    exact (isBlank_ends s.2).2 c hc

variable {trail : Trail} {page : Page} {op : Op}

/-- The places hold the known values, and nothing else. -/
structure Trail.On (trail : Trail) (page : Page) : Prop where
  count : page.count = trail.length
  held : ∀ p, page.held p.text = (trail.knownAt p).map fun known => { value := known.2.text, line := known.1 }

/-- The known values are put in. -/
theorem Trail.On.put_text (h : trail.On page) (e : Expr) : page.put e.text = (e.put trail.known).text := by
  have hpieces : pieces place e.chars = e.pieces := by
    have happ := pieces_chars e ends_nil
    rw [List.append_nil] at happ
    exact happ.trans (List.append_nil _)
  have hstand : ∀ p : Place, (page.stand p.text).toList = ((Expr.place p).put trail.known).chars := by
    intro p
    rw [Page.stand, h.held, Expr.put, Trail.known]
    cases trail.knownAt p <;> simp [Expr.text, Place.text, Expr.chars]
  rw [Page.put, Expr.text, Expr.text, String.toList_ofList, substitute, hpieces]
  refine congrArg String.ofList ?_
  clear hpieces
  induction e with
  | number n => simp [Expr.pieces, Expr.put, Expr.chars, List.flatMap_map]
  | place p => simpa [Expr.pieces] using hstand p
  | binary sign left right ihl ihr => simp [Expr.pieces, Expr.put, Expr.chars, ihl, ihr]

/-- One line: its place is given its value, with the known ones put in. -/
theorem Trail.On.step (h : trail.On page) (hg : trail.Grounded) (hf : Free trail.written op.target) :
    (trail.extend op).On (page.next.step (say (op.target, op.value)).line) := by
  have hput : page.next.put op.value.text = (op.value.put trail.known).text := h.put_text op.value
  refine ⟨by simp [h.count, Trail.extend], fun p => ?_⟩
  have hassign : assignment? (say (op.target, op.value)).line = some (op.target.text, op.value.text) :=
    Page.assignment?_append op.target.isPlace _
  rw [Page.held_step_assign hassign, hput, Trail.extend, Trail.knownAt]
  simp only [Page.give]
  by_cases hp : p = op.target
  · rw [if_pos (congrArg _ hp), if_pos hp]
    split
    · simp [h.count]
    · rfl
  · rw [if_neg (fun he => hp (Place.text_injective he)), if_neg hp, Page.next_held, h.held]
    cases hk : trail.knownAt p with
    | none => rfl
    | some known =>
      obtain ⟨older, hs, _⟩ := Trail.knownAt_eq_some hk
      have hoccurs : occursIn op.target.chars known.2.chars = false :=
        occursIn_eq_false fun hm => (hg.settled (hs.subset List.mem_cons_self) _ hm).ne hf rfl
      simp [Place.text, Expr.text, hoccurs]

/-- All lines: they say what is told of the instructions, and the places hold what is known in the end. -/
theorem Trail.On.run : ∀ {ops : List Op} {trail : Trail} {page : Page}, trail.On page → trail.Grounded →
    Orderly trail.written ops →
    page.statements (ops.map fun op => say (op.target, op.value)) = (trail.told ops).map say ∧
      (ops.foldl Trail.extend trail).On (page.run (ops.map fun op => (say (op.target, op.value)).line))
  | [], _, _, h, _, _ => ⟨rfl, h⟩
  | op :: ops, trail, page, h, hg, ho => by
    obtain ⟨hsay, hon⟩ := (h.step hg ho.2.1).run (hg.extend ho.1) ho.2.2
    refine ⟨?_, hon⟩
    rw [List.map_cons, Page.statements, hsay, Trail.told, List.map_cons]
    exact congrArg (· :: _) (congrArg (Substitution.Statement.mk _) (h.put_text op.value))

end Bytelift.Arithmetic
