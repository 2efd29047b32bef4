import Bytelift.Proofs.Brace.Text
import Bytelift.Proofs.Recording

/-! The statements that instructions read as have no braces to be balanced. An instruction without a line
break reads as one line; and whatever its operands are, a part of the statement that is always there tells it
from a brace. -/

namespace Bytelift

open Text Brace

namespace Instruction

/-- A text of one line. -/
def Unbroken (text : String) : Prop := '\n' ∉ text.toList

instance (text : String) : Decidable (Unbroken text) := inferInstanceAs (Decidable (_ ∉ _))

theorem Unbroken.append {a b : String} (ha : Unbroken a) (hb : Unbroken b) : Unbroken (a ++ b) := by
  unfold Unbroken at *
  simp [ha, hb]

theorem Unbroken.of_subset {a b : String} (hb : Unbroken b) (h : ∀ c ∈ a.toList, c ∈ b.toList) :
    Unbroken a := fun hc => hb (h _ hc)

theorem unbroken_intercalate {mark : String} (hm : Unbroken mark) {texts : List String}
    (h : ∀ t ∈ texts, Unbroken t) : Unbroken (mark.intercalate texts) := by
  induction texts with
  | nil => exact List.not_mem_nil
  | cons first rest ih =>
    have hrest := ih fun t ht => h t (List.mem_cons_of_mem _ ht)
    cases rest with
    | nil =>
      rw [String.intercalate_singleton]
      exact h first (by simp)
    | cons second rest =>
      rw [String.intercalate_cons_cons]
      exact ((h first (by simp)).append hm).append hrest

theorem unbroken_toString (i : Int) : Unbroken (toString i) := by
  have hdigits : ∀ n : Nat, Unbroken n.repr := by
    intro n hc
    rw [Nat.toList_repr] at hc
    have hdigit := Nat.isDigit_of_mem_toDigits (by omega) (by omega) hc
    cases hdigit
  cases i with
  | ofNat n => exact hdigits n
  | negSucc n => exact (by decide : Unbroken "-").append (hdigits (n + 1))

/-! ## Operands -/

theorem unbroken_operands {line : CodeLine} (h : Unbroken line.instruction) :
    ∀ operand ∈ operands line, Unbroken operand := by
  intro operand hm
  unfold operands parts at hm
  split at hm
  · next operator rest hcut =>
    exact h.of_subset fun c hc => mem_of_cutAt? hcut (mem_of_mem_split hm hc)
  · cases hm

variable {operands : List String}

theorem operandAt_eq_ok {i : Nat} {text : String} (h : operandAt operands i = .ok text) :
    text ∈ operands := by
  unfold operandAt at h
  split at h
  · next t ht =>
    cases h
    exact List.mem_of_getElem? ht
  · cases h

theorem unbroken_registerRange {range : String} {registers : List String}
    (h : registerRange range = .ok registers) : ∀ r ∈ registers, Unbroken r := by
  unfold registerRange at h
  split at h
  · dsimp only at h
    split at h
    · cases h
      decide
    · obtain ⟨low, _, h⟩ := except_bind_eq_ok.1 h
      obtain ⟨high, _, h⟩ := except_bind_eq_ok.1 h
      cases h
      intro r hr
      obtain ⟨i, _, rfl⟩ := List.mem_map.1 hr
      exact (by decide : Unbroken "r").append (unbroken_toString i)
  · cases h

theorem unbroken_intrinsicCall (ho : ∀ o ∈ operands, Unbroken o) {text : String}
    (h : intrinsicCall operands = .ok text) : Unbroken text ∧ (text = "" ∨ 'A' ∈ text.toList) := by
  obtain ⟨operand, hoperand, h⟩ := except_bind_eq_ok.1 h
  have hname : Unbroken (inner operand) :=
    (ho _ (operandAt_eq_ok hoperand)).of_subset fun c hc => mem_of_mem_inner hc
  have hcommas : ∀ registers : List String, (∀ r ∈ registers, Unbroken r) →
      Unbroken (commas registers) ∧ Unbroken (commas (registers.drop 1)) := by
    intro registers hr
    exact ⟨unbroken_intercalate (by decide) hr,
      unbroken_intercalate (by decide) fun r hm => hr r (List.mem_of_mem_drop hm)⟩
  have hletter : ∀ {a : String} (b : String), 'A' ∈ a.toList → 'A' ∈ (a ++ b).toList := by
    intro a b ha
    rw [String.toList_append]
    exact List.mem_append_left _ ha
  dsimp only at h
  split at h
  · cases h
    exact ⟨by decide, Or.inl rfl⟩
  · obtain ⟨range, _, h⟩ := except_bind_eq_ok.1 h
    obtain ⟨registers, hregisters, h⟩ := except_bind_eq_ok.1 h
    obtain ⟨hall, hlater⟩ := hcommas registers (unbroken_registerRange hregisters)
    split at h
    · cases h
      exact ⟨(by decide : Unbroken "ACCU = ").append hlater, Or.inr (hletter _ (by decide))⟩
    · split at h
      · cases h
        exact ⟨(by decide : Unbroken "ACCU = await ").append hlater, Or.inr (hletter _ (by decide))⟩
      · cases h
        exact ⟨((((by decide : Unbroken "ACCU = ").append hname).append
          (by decide : Unbroken "(")).append hall).append (by decide : Unbroken ")"),
          Or.inr (hletter _ (hletter _ (hletter _ (hletter _ (by decide)))))⟩

/-! ## Statements -/

/-- Whether a part of a statement may stand on one line with the others. -/
def Fragment.isUnbroken : Fragment → Bool
  | .lit text => decide (Unbroken text)
  | _ => true

def Fragment.tells : Fragment → Bool
  | .lit text => text.toList.any fun c => c != '\x7b' && c != '\x7d'
  | _ => false

/-- What is checked of every form: a statement is one line that is no brace, and statements may be written
into the text of a test or a skip. -/
def Form.isBraceless : Form → Bool
  | .statement parts => parts.all Fragment.isUnbroken && (parts.isEmpty || parts.any Fragment.tells)
  | .jump kind text => decide (word text = []) && (!(kind = .test || kind = .skip) || decide (Fit text))
  | .cases | .intrinsic => true

theorem forms_braceless : forms.all (fun entry => entry.2.isBraceless) = true := by decide +kernel

theorem unbroken_render (ho : ∀ o ∈ operands, Unbroken o) {part : Fragment}
    (hp : part.isUnbroken = true) {text : String} (hr : part.render operands = .ok text) :
    Unbroken text := by
  cases part with
  | lit l =>
    cases hr
    exact of_decide_eq_true hp
  | operand i => exact ho _ (operandAt_eq_ok hr)
  | bare i =>
    obtain ⟨t, ht, hr⟩ := except_bind_eq_ok.1 hr
    cases hr
    exact (ho _ (operandAt_eq_ok ht)).of_subset fun c hc => mem_of_mem_inner hc
  | registers i =>
    obtain ⟨range, _, hr⟩ := except_bind_eq_ok.1 hr
    obtain ⟨rs, hrs, hr⟩ := except_bind_eq_ok.1 hr
    cases hr
    exact unbroken_intercalate (by decide) (unbroken_registerRange hrs)
  | laterRegisters i =>
    obtain ⟨range, _, hr⟩ := except_bind_eq_ok.1 hr
    obtain ⟨rs, hrs, hr⟩ := except_bind_eq_ok.1 hr
    cases hr
    exact unbroken_intercalate (by decide) fun r hm =>
      unbroken_registerRange hrs r (List.mem_of_mem_drop hm)
  | typeName i =>
    obtain ⟨t, ht, hr⟩ := except_bind_eq_ok.1 hr
    cases hr
    unfold typeText
    split
    all_goals first | decide | exact ho _ (operandAt_eq_ok ht)
  | scope =>
    obtain ⟨context, hc, hr⟩ := except_bind_eq_ok.1 hr
    obtain ⟨depth, hd, hr⟩ := except_bind_eq_ok.1 hr
    cases hr
    have hdepth : Unbroken (inner depth) :=
      (ho _ (operandAt_eq_ok hd)).of_subset fun c hm => mem_of_mem_inner hm
    refine Unbroken.append (Unbroken.append ?_ (by decide)) hdepth
    split
    · decide
    · exact ho _ (operandAt_eq_ok hc)

/-- The parts of a statement, one by one. -/
theorem renderParts_cons_eq_ok {part : Fragment} {parts : List Fragment} {text : String}
    (h : renderParts operands (part :: parts) = .ok text) : ∃ first rest,
      part.render operands = .ok first ∧ renderParts operands parts = .ok rest ∧ text = first ++ rest := by
  obtain ⟨first, hf, h⟩ := except_bind_eq_ok.1 h
  obtain ⟨rest, hr, h⟩ := except_bind_eq_ok.1 h
  cases h
  exact ⟨first, rest, hf, hr, rfl⟩

theorem unbroken_renderParts (ho : ∀ o ∈ operands, Unbroken o) {parts : List Fragment}
    (hp : parts.all Fragment.isUnbroken = true) {text : String}
    (hr : renderParts operands parts = .ok text) : Unbroken text := by
  induction parts generalizing text with
  | nil =>
    cases hr
    decide
  | cons part parts ih =>
    obtain ⟨first, rest, hf, hrest, rfl⟩ := renderParts_cons_eq_ok hr
    rw [List.all_cons, Bool.and_eq_true] at hp
    exact (unbroken_render ho hp.1 hf).append (ih hp.2 hrest)

/-- A literal part is there whatever the operands are. -/
theorem tells_renderParts {parts : List Fragment} (hp : parts.any Fragment.tells = true) {text : String}
    (hr : renderParts operands parts = .ok text) : ∃ c ∈ text.toList, c ≠ '\x7b' ∧ c ≠ '\x7d' := by
  induction parts generalizing text with
  | nil => cases hp
  | cons part parts ih =>
    obtain ⟨first, rest, hf, hrest, rfl⟩ := renderParts_cons_eq_ok hr
    rw [List.any_cons, Bool.or_eq_true] at hp
    rcases hp with hp | hp
    · cases part with
      | lit l =>
        cases hf
        obtain ⟨c, hc, hne⟩ := List.any_eq_true.1 hp
        rw [Bool.and_eq_true, bne_iff_ne, bne_iff_ne] at hne
        exact ⟨c, by simp [hc], hne⟩
      | _ => cases hp
    · obtain ⟨c, hc, hne⟩ := ih hp hrest
      exact ⟨c, by simp [hc], hne⟩

theorem word_of_tells {text : String} (hu : Unbroken text) (ht : ∃ c ∈ text.toList, c ≠ '\x7b' ∧ c ≠ '\x7d') :
    word text = [] := by
  obtain ⟨c, hc, h1, h2⟩ := ht
  rw [word_of_notMem hu, ofLine?_of_mem hc h1 h2]
  rfl

/-- What a known instruction without a line break reads as has no brace. -/
theorem ReadsAs.word_eq_nil {line : CodeLine} {text : String} (hu : Unbroken line.instruction)
    (hk : (form? (operator line)).isSome) (hr : ReadsAs line text) : word text = [] := by
  have ho := unbroken_operands hu
  obtain ⟨form, hf⟩ := Option.isSome_iff_exists.1 hk
  have hcheck := form?_all forms_braceless hf
  have hr := hr form hf
  cases form with
  | statement parts =>
    simp only [Form.isBraceless, Bool.and_eq_true, Bool.or_eq_true, List.isEmpty_iff] at hcheck
    rcases hcheck.2 with hempty | htells
    · rw [hempty] at hr
      cases hr
      decide
    · exact word_of_tells (unbroken_renderParts ho hcheck.1 hr) (tells_renderParts htells hr)
  | jump kind shown =>
    simp only [Form.isBraceless, Bool.and_eq_true, decide_eq_true_eq] at hcheck
    rw [hr]
    exact hcheck.1
  | cases =>
    rw [hr]
    decide
  | intrinsic =>
    obtain ⟨hunbroken, hempty | hletter⟩ := unbroken_intrinsicCall ho hr
    · rw [hempty]
      decide
    · exact word_of_tells hunbroken ⟨'A', hletter, by decide, by decide⟩

/-- Statements may be written into the text of a test or a skip. -/
theorem ReadsAs.fit {line : CodeLine} {text shown : String} {kind : JumpKind}
    (hf : form? (operator line) = some (.jump kind shown)) (hk : kind = .test ∨ kind = .skip)
    (hr : ReadsAs line text) : Fit text := by
  have hcheck := form?_all forms_braceless hf
  rw [hr _ hf]
  have hfit := (Bool.and_eq_true_iff.1 hcheck).2
  rcases hk with rfl | rfl
  · exact of_decide_eq_true hfit
  · exact of_decide_eq_true hfit

end Instruction

end Bytelift
