import Bytelift.Proofs.Arithmetic.Expression
import Bytelift.Proofs.Substitution.Statements
import Mathlib.Data.List.Infix

/-! Straight-line arithmetic, as the machine runs it and as the pseudocode says it. Each instruction gives one
place a value. With the known values put in, a value is read off arguments and registers whose own values are
not known; these are never given another one, so that the value stands from then on. -/

namespace Bytelift.Arithmetic

open Text Substitution

/-! ## The machine -/

/-- The instructions that compute; a return comes after the last one. Only registers are stored to. -/
inductive Op where
  | zero
  | number (n : Int)
  | load (s : Slot)
  | store (n : Nat)
  | move (s : Slot) (n : Nat)
  | binary (sign : Sign) (s : Slot)
  | immediate (sign : Sign) (n : Int)
  deriving DecidableEq, Repr

variable {α : Type}

def Env.set (env : Env α) (p : Place) (v : α) : Env α := fun q => if q = p then some v else env q

theorem Env.set_self (env : Env α) (p : Place) (v : α) : env.set p v p = some v := if_pos rfl

theorem Env.set_ne (env : Env α) {p q : Place} (h : q ≠ p) (v : α) : env.set p v q = env q := if_neg h

namespace Op

/-- What one instruction does; nothing, if it reads a place without a value. -/
def step (m : Meaning α) (env : Env α) : Op → Option (Env α)
  | .zero => some (env.set .accumulator (m.number 0))
  | .number n => some (env.set .accumulator (m.number n))
  | .load s => do
    let v ← env (.slot s)
    return env.set .accumulator v
  | .store n => do
    let v ← env .accumulator
    return env.set (.slot (.register n)) v
  | .move s n => do
    let v ← env (.slot s)
    return env.set (.slot (.register n)) v
  | .binary sign s => do
    let left ← env (.slot s)
    let right ← env .accumulator
    return env.set .accumulator (m.apply sign left right)
  | .immediate sign n => do
    let left ← env .accumulator
    return env.set .accumulator (m.apply sign left (m.number n))

def target : Op → Place
  | .store n => .slot (.register n)
  | .move _ n => .slot (.register n)
  | _ => .accumulator

def value : Op → Expr
  | .zero => .number 0
  | .number n => .number n
  | .load s => .place (.slot s)
  | .store _ => .place .accumulator
  | .move s _ => .place (.slot s)
  | .binary sign s => .binary sign (.place (.slot s)) (.place .accumulator)
  | .immediate sign n => .binary sign (.place .accumulator) (.number n)

theorem step_eq (m : Meaning α) (env : Env α) (op : Op) :
    op.step m env = (op.value.value? m env).map (env.set op.target) := by
  cases op with
  | binary sign s =>
    simp only [step, value, Expr.value?, target]
    cases env (.slot s) <;> cases env .accumulator <;> rfl
  | immediate sign n =>
    simp only [step, value, Expr.value?, target]
    cases env .accumulator <;> rfl
  | zero | number n => rfl
  | load s | store n | move s n =>
    simp only [step, value, Expr.value?, target]
    cases env _ <;> rfl

end Op

def execute (m : Meaning α) : List Op → Env α → Option α
  | [], env => env .accumulator
  | op :: ops, env => do
    let env ← op.step m env
    execute m ops env

def given (args : Nat → α) : Env α
  | .slot (.argument n) => some (args n)
  | _ => none

def Readable (written : List Place) : Place → Prop
  | .slot (.argument _) => True
  | p => p ∈ written

/-- The accumulator, or a register that was not written. -/
def Free (written : List Place) (p : Place) : Prop := p = .accumulator ∨ p ∉ written

/-- Instructions that read what was written before, and write no register twice. In the end the accumulator
is read. -/
def Orderly (written : List Place) : List Op → Prop
  | [] => .accumulator ∈ written
  | op :: ops => (∀ p ∈ op.value.places, Readable written p) ∧ Free written op.target ∧
    Orderly (op.target :: written) ops

instance (written : List Place) : DecidablePred (Readable written)
  | .slot (.argument _) => .isTrue trivial
  | .slot (.register n) => inferInstanceAs (Decidable (.slot (.register n) ∈ written))
  | .accumulator => inferInstanceAs (Decidable (.accumulator ∈ written))

instance (written : List Place) : DecidablePred (Free written) := fun p =>
  inferInstanceAs (Decidable (p = .accumulator ∨ p ∉ written))

instance decidableOrderly : (written : List Place) → (ops : List Op) → Decidable (Orderly written ops)
  | written, [] => inferInstanceAs (Decidable (.accumulator ∈ written))
  | written, op :: ops =>
    have := decidableOrderly (op.target :: written) ops
    inferInstanceAs (Decidable (_ ∧ _ ∧ _))

/-! ## The pseudocode -/

inductive Statement where
  | brace
  | assign (p : Place) (e : Expr)
  | result (e : Expr)
  deriving DecidableEq, Repr

/-- The statement that a line spells, whatever its depth. -/
def Statement.read? (line : String) : Option Statement :=
  let s := line.toList.dropWhile (· == '\t')
  if s = ['\x7b'] || s = ['\x7d'] then some .brace
  else match after? "return ".toList s with
    | some e => (Expr.read? e).map .result
    | none => do
      let (p, rest) ← Place.read? s
      let e ← after? " = ".toList rest
      return .assign p (← Expr.read? e)

/-- Runs the lines of pseudocode up to the first one that returns. -/
def interpret (m : Meaning α) : List String → Env α → Option α
  | [], _ => none
  | line :: lines, env => do
    match ← Statement.read? line with
    | .brace => interpret m lines env
    | .assign p e => interpret m lines (env.set p (← e.value? m env))
    | .result e => e.value? m env

def within (statement : List Char) : String := String.ofList ('\t' :: statement)

theorem read?_assign (p : Place) (e : Expr) :
    Statement.read? (within (p.chars ++ (" = ".toList ++ e.chars))) = some (.assign p e) := by
  obtain ⟨d, hd, name, hp, _⟩ := p.exists_head
  have hends : Ends (" = ".toList ++ e.chars) := ends_cons (by decide)
  have hdrop : ('\t' :: (p.chars ++ (" = ".toList ++ e.chars))).dropWhile (· == '\t') =
      p.chars ++ (" = ".toList ++ e.chars) := by
    have hne : d ≠ '\t' := by
      rintro rfl
      revert hd
      decide
    simp [hp, hne]
  have hreturn : after? "return ".toList (p.chars ++ (" = ".toList ++ e.chars)) = none := by
    cases p with
    | accumulator => rfl
    | slot s =>
      cases s with
      | argument n => rfl
      | register n =>
        obtain ⟨c, cs, hcs⟩ := List.exists_cons_of_ne_nil (toList_toString_ne_nil n)
        have hc : ¬ 'e' = c := by
          rintro rfl
          have hdigit : ('e' : Char).isDigit = true := isDigit_of_mem_toString (hcs ▸ List.mem_cons_self)
          revert hdigit
          decide
        simp only [Place.chars, Slot.chars, hcs]
        simp [after?, hc]
  have hlong : ∀ c : Char, p.chars ++ (" = ".toList ++ e.chars) ≠ [c] := by
    intro c hc
    have hl := congrArg List.length hc
    simp [hp] at hl
  unfold Statement.read? within
  simp only [String.toList_ofList, hdrop, hlong, hreturn, decide_false, Bool.or_false, Bool.false_eq_true, if_false,
    p.read?_chars hends]
  simp [after?, Expr.read?_chars]

theorem read?_result (e : Expr) :
    Statement.read? (within ("return ".toList ++ e.chars)) = some (.result e) := by
  have hdrop : ('\t' :: ("return ".toList ++ e.chars)).dropWhile (· == '\t') = "return ".toList ++ e.chars := rfl
  have hlong : ∀ c : Char, "return ".toList ++ e.chars ≠ [c] := by
    intro c hc
    have hl := congrArg List.length hc
    simp at hl
  unfold Statement.read? within
  simp only [String.toList_ofList, hdrop, hlong, decide_false, Bool.or_false, Bool.false_eq_true, if_false,
    after?_append, Expr.read?_chars, Option.map_some]

/-! ## What the lines read once values are put in -/

/-- The places that were given values, each with its value, the last one first. -/
abbrev Trail := List (Place × Expr)

namespace Trail

/-- The known value of a place, and the line that gave it. -/
def knownAt : Trail → Place → Option (Nat × Expr)
  | [], _ => none
  | (q, e) :: older, p =>
    if p = q then if isConstant q.text e.text then some (older.length + 1, e) else none
    else knownAt older p

def known (trail : Trail) (p : Place) : Option Expr := (trail.knownAt p).map (·.2)

def written (trail : Trail) : List Place := trail.map (·.1)

def extend (trail : Trail) (op : Op) : Trail := (op.target, op.value.put trail.known) :: trail

/-- What the lines of instructions say, after those gone through. -/
def told (trail : Trail) : List Op → Trail
  | [] => []
  | op :: ops => (op.target, op.value.put trail.known) :: (trail.extend op).told ops

theorem mem_foldl_extend {ops : List Op} {trail : Trail} {s : Place × Expr} :
    s ∈ ops.foldl extend trail ↔ s ∈ trail ∨ s ∈ trail.told ops := by
  induction ops generalizing trail with
  | nil => simp [told]
  | cons op ops ih =>
    rw [List.foldl_cons, ih, told, extend, List.mem_cons, List.mem_cons]
    tauto

/-- Only the accumulator is given a value twice. -/
theorem told_once {ops : List Op} {trail : Trail} (ho : Orderly trail.written ops) :
    (∀ s ∈ trail.told ops, s.1 = .accumulator ∨ s.1 ∉ trail.written) ∧
      (trail.told ops).Pairwise fun s t => s.1 = t.1 → s.1 = .accumulator := by
  induction ops generalizing trail with
  | nil => simp [told]
  | cons op ops ih =>
    obtain ⟨hfree, honce⟩ := @ih (trail.extend op) ho.2.2
    refine ⟨?_, List.pairwise_cons.2 ⟨?_, honce⟩⟩
    · intro s hs
      rcases List.mem_cons.1 hs with rfl | hs
      · exact ho.2.1
      · exact (hfree s hs).imp id fun hn hm => hn (List.mem_cons_of_mem _ hm)
    · intro s hs he
      rcases hfree s hs with ha | hn
      · exact he.trans ha
      · exact absurd (he ▸ List.mem_cons_self) hn

theorem isConstant_accumulator (value : String) : isConstant Place.accumulator.text value = true := by
  have hname : opensWith Place.accumulator.text "ACCU" = true := by decide
  simp [isConstant, hname]

theorem knownAt_eq_some {trail : Trail} {p : Place} {k : Nat} {e : Expr} (h : trail.knownAt p = some (k, e)) :
    ∃ older, (p, e) :: older <:+ trail ∧ k = older.length + 1 ∧ isConstant p.text e.text = true := by
  induction trail with
  | nil => cases h
  | cons entry trail ih =>
    obtain ⟨q, e'⟩ := entry
    simp only [knownAt] at h
    split at h
    · next hp =>
      subst hp
      split at h
      · next hc =>
        cases h
        exact ⟨trail, List.suffix_refl _, rfl, hc⟩
      · cases h
    · obtain ⟨older, hs, hk, hc⟩ := ih h
      exact ⟨older, hs.trans (List.suffix_cons _ _), hk, hc⟩

theorem exists_of_knownAt_eq_none {trail : Trail} {p : Place} (hp : p ∈ trail.written)
    (h : trail.knownAt p = none) : ∃ e, (p, e) ∈ trail ∧ isConstant p.text e.text = false := by
  induction trail with
  | nil => cases hp
  | cons entry trail ih =>
    obtain ⟨q, e⟩ := entry
    simp only [knownAt] at h
    split at h
    · next he =>
      subst he
      split at h
      · cases h
      · next hc => exact ⟨e, by simp, by simpa using hc⟩
    · next hne =>
      simp only [written, List.map_cons, List.mem_cons, hne, false_or] at hp
      obtain ⟨e', hm, hc⟩ := ih hp h
      exact ⟨e', List.mem_cons_of_mem _ hm, hc⟩

/-- A place that keeps its value and stands for itself: an argument, or a register without a known value. -/
def Settled (trail : Trail) : Place → Prop
  | .slot (.argument _) => True
  | p => ∃ e, (p, e) ∈ trail ∧ isConstant p.text e.text = false

theorem Settled.mono {older trail : Trail} (hs : older <:+ trail) {p : Place} (h : older.Settled p) :
    trail.Settled p := by
  cases p with
  | accumulator =>
    obtain ⟨e, hm, hc⟩ := h
    exact ⟨e, hs.subset hm, hc⟩
  | slot s =>
    cases s with
    | argument n => trivial
    | register n =>
      obtain ⟨e, hm, hc⟩ := h
      exact ⟨e, hs.subset hm, hc⟩

/-- What may be written is not what keeps its value. -/
theorem Settled.ne {trail : Trail} {p : Place} {op : Op} (h : trail.Settled p)
    (hf : Free trail.written op.target) : p ≠ op.target := by
  rintro rfl
  have hmem : ∀ e, (op.target, e) ∈ trail → isConstant op.target.text e.text = false → False := by
    intro e hm hc
    rcases hf with hf | hf
    · rw [hf, isConstant_accumulator] at hc
      cases hc
    · exact hf (List.mem_map.2 ⟨_, hm, rfl⟩)
  cases op <;> exact hmem _ h.choose_spec.1 h.choose_spec.2

/-- Every value is read off places that keep theirs. -/
def Grounded (trail : Trail) : Prop :=
  ∀ p e older, (p, e) :: older <:+ trail → ∀ q ∈ e.places, Settled older q

theorem Grounded.settled {trail : Trail} (h : trail.Grounded) {s : Place × Expr} (hs : s ∈ trail) :
    ∀ q ∈ s.2.places, trail.Settled q := by
  obtain ⟨newer, older, he⟩ := List.append_of_mem hs
  have hs : s :: older <:+ trail := ⟨newer, he.symm⟩
  exact fun q hq => (h _ _ older hs q hq).mono ((List.suffix_cons _ _).trans hs)

theorem Grounded.extend {trail : Trail} (h : trail.Grounded) {op : Op}
    (hr : ∀ p ∈ op.value.places, Readable trail.written p) : (trail.extend op).Grounded := by
  intro p e older hs q hq
  rcases List.suffix_cons_iff.1 hs with he | hs
  · cases he
    rcases Expr.mem_places_put hq with ⟨hm, hnone⟩ | ⟨p, hp, e, he, hm⟩
    · have hread := hr q hm
      have hnone : trail.knownAt q = none := by simpa [known] using hnone
      cases q with
      | accumulator => exact exists_of_knownAt_eq_none hread hnone
      | slot s =>
        cases s with
        | argument n => trivial
        | register n => exact exists_of_knownAt_eq_none hread hnone
    · obtain ⟨⟨k, e'⟩, hk, rfl⟩ := Option.map_eq_some_iff.1 he
      obtain ⟨older, hs, _⟩ := knownAt_eq_some hk
      exact (h _ _ _ hs q hm).mono ((List.suffix_cons _ _).trans hs)
  · exact h _ _ _ hs q hq

end Trail

/-! ## The values of the lines -/

section Values

variable {m : Meaning α} {args : Nat → α} {trail : Trail} {env : Env α} {op : Op} {ops : List Op}

/-- Every line says what the machine has. -/
structure Faithful (m : Meaning α) (args : Nat → α) (trail : Trail) (env : Env α) : Prop where
  grounded : trail.Grounded
  given : ∀ n, env (.slot (.argument n)) = some (args n)
  unwritten : ∀ n, .slot (.argument n) ∉ trail.written
  valued : ∀ p ∈ trail.written, ∃ v, env p = some v
  kept : ∀ {n e}, (.slot (.register n), e) ∈ trail → e.value? m env = env (.slot (.register n))
  known : ∀ {p e}, trail.known p = some e → e.value? m env = env p

theorem faithful_nil (m : Meaning α) (args : Nat → α) : Faithful m args [] (given args) where
  grounded := by
    intro p e older hs
    simp at hs
  given _ := rfl
  unwritten := by simp [Trail.written]
  valued := by simp [Trail.written]
  kept hm := by simp at hm
  known h := by simp [Trail.known, Trail.knownAt] at h

theorem Faithful.exists_value (h : Faithful m args trail env)
    (hr : ∀ p ∈ op.value.places, Readable trail.written p) : ∃ v, op.value.value? m env = some v := by
  refine Expr.exists_value? m fun p hp => ?_
  have hread := hr p hp
  cases p with
  | accumulator => exact h.valued _ hread
  | slot s =>
    cases s with
    | argument n => exact ⟨_, h.given n⟩
    | register n => exact h.valued _ hread

/-- One instruction: the value that its line says is the one that the machine finds, and nothing that was
said before changes. -/
theorem Faithful.extend (h : Faithful m args trail env) (hr : ∀ p ∈ op.value.places, Readable trail.written p)
    (hf : Free trail.written op.target) {v : α} (hv : op.value.value? m env = some v) :
    Faithful m args (trail.extend op) (env.set op.target v) := by
  have hgrounded := h.grounded.extend hr
  have hsame : ∀ {p e older}, (p, e) :: older <:+ trail.extend op →
      e.value? m (env.set op.target v) = e.value? m env := by
    intro p e older hs
    refine Expr.value?_congr m fun q hq => Env.set_ne env ?_ v
    have hsettled := hgrounded _ _ _ hs q hq
    rcases List.suffix_cons_iff.1 hs with he | hs
    · cases he
      exact hsettled.ne hf
    · exact (hsettled.mono ((List.suffix_cons _ _).trans hs)).ne hf
  have hnew : (op.value.put trail.known).value? m env = some v := by
    rw [Expr.value?_put m fun p e he => h.known he, hv]
  have hargument : ∀ n, Place.slot (.argument n) ≠ op.target := by
    intro n
    cases op <;> simp [Op.target]
  refine ⟨hgrounded, ?_, ?_, ?_, ?_, ?_⟩
  · intro n
    rw [Env.set_ne env (hargument n)]
    exact h.given n
  · intro n hm
    rcases List.mem_cons.1 hm with hm | hm
    · exact hargument n hm
    · exact h.unwritten n hm
  · intro p hp
    by_cases hpt : p = op.target
    · exact ⟨v, by rw [hpt, Env.set_self]⟩
    · simp only [Trail.extend, Trail.written, List.map_cons, List.mem_cons, hpt, false_or] at hp
      rw [Env.set_ne env hpt]
      exact h.valued p hp
  · intro n e hm
    obtain ⟨older, hs⟩ : ∃ older, (Place.slot (.register n), e) :: older <:+ trail.extend op := by
      obtain ⟨newer, older, he⟩ := List.append_of_mem hm
      exact ⟨older, newer, he.symm⟩
    rw [hsame hs]
    rcases List.mem_cons.1 hm with he | hm
    · obtain ⟨hp, rfl⟩ := Prod.mk.inj he
      rw [hp, Env.set_self, hnew]
    · have hne : Place.slot (.register n) ≠ op.target := by
        rintro hp
        rcases hf with hf | hf
        · rw [hf] at hp
          cases hp
        · exact hf (hp ▸ List.mem_map.2 ⟨_, hm, rfl⟩)
      rw [Env.set_ne env hne, h.kept hm]
  · intro p e he
    obtain ⟨⟨k, e'⟩, hk, rfl⟩ := Option.map_eq_some_iff.1 he
    obtain ⟨older, hs, _⟩ := Trail.knownAt_eq_some hk
    rw [hsame hs]
    simp only [Trail.extend, Trail.knownAt] at hk
    split at hk
    · next hp =>
      split at hk
      · cases hk
        rw [hp, Env.set_self, hnew]
      · cases hk
    · next hp =>
      rw [Env.set_ne env hp, h.known (Option.map_eq_some_iff.2 ⟨_, hk, rfl⟩)]

theorem Env.set_eq (env : Env α) (p : Place) (v : α) : env.set p v = Function.update env p (some v) := by
  funext q
  rw [set, Function.update_apply]

/-- All instructions: running what their lines say comes to what the machine has in the end, and returns. -/
theorem Faithful.run : ∀ {ops : List Op} {trail : Trail} {env : Env α}, Faithful m args trail env →
    Orderly trail.written ops → ∃ last, Faithful m args (ops.foldl Trail.extend trail) last ∧
      perform (·.1) (fun env s => s.2.value? m env) (trail.told ops) env = some last ∧
      execute m ops env = last .accumulator ∧ .accumulator ∈ (ops.foldl Trail.extend trail).written
  | [], trail, env, h, ho => ⟨env, h, rfl, rfl, ho⟩
  | op :: ops, trail, env, h, ho => by
    obtain ⟨v, hv⟩ := h.exists_value ho.1
    obtain ⟨last, hlast, hperform, he, hm⟩ := (h.extend ho.1 ho.2.1 hv).run ho.2.2
    refine ⟨last, hlast, ?_, ?_, hm⟩
    · rw [Trail.told, perform, Expr.value?_put m (fun p e he => h.known he), hv, Option.bind_some, ← Env.set_eq]
      exact hperform
    · rw [execute, op.step_eq, hv]
      exact he

end Values

end Bytelift.Arithmetic
