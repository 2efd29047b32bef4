import Bytelift.Proofs.Brace.Substitution
import Bytelift.Proofs.Text.Pieces
import Mathlib.Data.List.TakeWhile
import Mathlib.Data.Option.Basic

/-! What substitution leaves alone. Lines are hidden where a place is read and texts are set line by line; all
other steps change no text, hide no line, and bring up no register that could hide one. -/

namespace Bytelift.Substitution

open Run Text

/-- The name of a place: the accumulator, or a case, a register or an argument with its number. -/
def IsPlace (name : String) : Prop :=
  name = "ACCU" ∨ ∃ lead ∈ ["CASE_", "r", "a"], ∃ digits : List Char,
    digits ≠ [] ∧ (∀ c ∈ digits, isDecimal c = true) ∧ name.toList = lead.toList ++ digits

/-! ## Places -/

theorem digits?_eq_some {s ds rest : List Char} (h : digits? s = some (ds, rest)) :
    s = ds ++ rest ∧ ds ≠ [] ∧ ∀ c ∈ ds, isDecimal c = true := by
  unfold digits? at h
  split at h
  · cases h
  · next hne =>
    cases h
    exact ⟨(List.takeWhile_append_dropWhile ..).symm, hne, fun c hc => List.mem_takeWhile_imp hc⟩

theorem numbered?_eq_some {lead : String} {s name rest : List Char}
    (h : numbered? lead s = some (name, rest)) : s = name ++ rest ∧ ∃ digits, digits ≠ [] ∧
      (∀ c ∈ digits, isDecimal c = true) ∧ name = lead.toList ++ digits := by
  obtain ⟨after, hafter, h⟩ := Option.bind_eq_some_iff.1 h
  obtain ⟨⟨ds, more⟩, hds, he⟩ := Option.map_eq_some_iff.1 h
  cases he
  obtain ⟨rfl, hne, hall⟩ := digits?_eq_some hds
  exact ⟨by rw [eq_append_of_after? hafter, List.append_assoc], ds, hne, hall, rfl⟩

theorem place?_eq_some {s name rest : List Char} (h : place? s = some (name, rest)) :
    s = name ++ rest ∧ IsPlace (String.ofList name) := by
  have hnumbered : ∀ lead ∈ ["CASE_", "r", "a"], numbered? lead s = some (name, rest) →
      s = name ++ rest ∧ IsPlace (String.ofList name) := by
    intro lead hlead hn
    obtain ⟨he, ds, hne, hall, hname⟩ := numbered?_eq_some hn
    exact ⟨he, Or.inr ⟨lead, hlead, ds, hne, hall, by rw [String.toList_ofList, hname]⟩⟩
  simp only [place?, register?, Option.orElse_eq_some] at h
  rcases h with h | ⟨_, h | ⟨_, h | ⟨_, h⟩⟩⟩
  · obtain ⟨after, hafter, he⟩ := Option.map_eq_some_iff.1 h
    cases he
    exact ⟨eq_append_of_after? hafter, Or.inl (by decide)⟩
  · exact hnumbered "CASE_" (by simp) h
  · exact hnumbered "r" (by simp) h
  · exact hnumbered "a" (by simp) h

theorem IsPlace.ne_nil {name : List Char} (h : IsPlace (String.ofList name)) : name ≠ [] := by
  rintro rfl
  rcases h with h | ⟨lead, _, ds, hne, _, h⟩
  · exact absurd h (by decide)
  · simp at h
    exact hne h.2

/-- Places are found by what follows alone. -/
theorem forward_place : Forward place where
  blind _ _ := rfl
  leaves := by
    intro c cs a rest h
    obtain ⟨⟨name, rest⟩, hplace, he⟩ := Option.map_eq_some_iff.1 h
    cases he
    obtain ⟨hs, hname⟩ := place?_eq_some hplace
    obtain ⟨d, ds, rfl⟩ := List.exists_cons_of_ne_nil hname.ne_nil
    rw [List.cons_append, List.cons.injEq] at hs
    exact ⟨ds, hs.2⟩

def openings : List Char := ['A', 'C', 'r', 'a']

theorem after?_toList_eq_none {lead : String} {p c : Char} {ps : List Char} (hl : lead.toList = p :: ps)
    (hc : c ≠ p) (cs : List Char) : after? lead.toList (c :: cs) = none := by
  rw [hl, after?_eq_none hc]

theorem numbered?_eq_none {lead : String} {p c : Char} {ps : List Char} (hl : lead.toList = p :: ps)
    (hc : c ≠ p) (cs : List Char) : numbered? lead (c :: cs) = none := by
  rw [numbered?, after?_toList_eq_none hl hc, Option.bind_none]

theorem place_eq_none {c : Char} (hc : c ∉ openings) (cs : List Char) : place none (c :: cs) = none := by
  simp only [openings, List.mem_cons, List.not_mem_nil, or_false, not_or] at hc
  obtain ⟨hA, hC, hr, ha⟩ := hc
  have haccu := after?_toList_eq_none (by decide : "ACCU".toList = 'A' :: ['C', 'C', 'U']) hA cs
  have hcase := numbered?_eq_none (by decide : "CASE_".toList = 'C' :: ['A', 'S', 'E', '_']) hC cs
  have hregister := numbered?_eq_none (by decide : "r".toList = 'r' :: []) hr cs
  have hargument := numbered?_eq_none (by decide : "a".toList = 'a' :: []) ha cs
  rw [place, place?, register?, haccu, hcase, hregister, hargument]
  rfl

theorem assignment?_eq_some {line name value : String} (h : assignment? line = some (name, value)) :
    IsPlace name := by
  obtain ⟨⟨place, rest⟩, hplace, h⟩ := Option.bind_eq_some_iff.1 h
  obtain ⟨_, _, he⟩ := Option.map_eq_some_iff.1 h
  cases he
  exact (place?_eq_some hplace).2

/-! ## What shows nothing less -/

def Sheet.written (s : Sheet) : List String := s.code.map (·.text)

def Sheet.Hides (s : Sheet) (k : Nat) : Prop := ∃ line, s.code[k]? = some line ∧ line.visible = false

/-- No text changes, no line is hidden, and no register comes up that could hide one. -/
structure Milder (s t : Sheet) : Prop where
  written : t.written = s.written
  hides : ∀ k, t.Hides k → s.Hides k
  registers : ∀ r ∈ t.registers, r.overwritten = false → ∃ q ∈ s.registers, q.overwritten = false ∧
    q.value = r.value ∧ ∀ k ∈ q.writtenAt.head?, k ∈ r.writtenAt.head?

theorem Milder.refl (s : Sheet) : Milder s s :=
  ⟨rfl, fun _ h => h, fun r hr ho => ⟨r, hr, ho, rfl, fun _ h => h⟩⟩

theorem Milder.trans {s t u : Sheet} (h : Milder s t) (h' : Milder t u) : Milder s u where
  written := h'.written.trans h.written
  hides k hk := h.hides k (h'.hides k hk)
  registers r hr ho := by
    obtain ⟨q, hq, hqo, hqv, hqk⟩ := h'.registers r hr ho
    obtain ⟨p, hp, hpo, hpv, hpk⟩ := h.registers q hq hqo
    exact ⟨p, hp, hpo, hpv.trans hqv, fun k hk => hqk k (hpk k hk)⟩

/-- Only the code and the registers count. -/
theorem Milder.of_eq {s t : Sheet} (hc : t.code = s.code) (hr : t.registers = s.registers) : Milder s t where
  written := by rw [Sheet.written, hc, Sheet.written]
  hides k hk := by rwa [Sheet.Hides, hc] at hk
  registers r hm ho := ⟨r, hr ▸ hm, ho, rfl, fun _ h => h⟩

namespace SheetM

variable {α β : Type}

/-- The run shows nothing less, if it ends without a fault. -/
def Mild (act : SheetM α) : Prop := ∀ s a t, act s = .ok a t → Milder s t

@[grind .] theorem mild_pure (a : α) : Mild (pure a) := by
  intro s _ t h
  cases h
  exact .refl s

@[grind .] theorem mild_throw (e : Fault) : Mild (throw e : SheetM α) := by
  intro s _ t h
  cases h

@[grind .] theorem mild_get : Mild (get : SheetM Sheet) := by
  intro s _ t h
  cases h
  exact .refl s

@[grind .] theorem mild_bind {x : SheetM α} {f : α → SheetM β} (hx : Mild x) (hf : ∀ a, Mild (f a)) :
    Mild (x >>= f) := by
  intro s b u h
  obtain ⟨a, t, ha, hb⟩ := bind_eq_ok.1 h
  exact (hx s a t ha).trans (hf a t b u hb)

theorem mild_modify {f : Sheet → Sheet} (hf : ∀ s, Milder s (f s)) : Mild (modify f) := by
  intro s _ t h
  cases h
  exact hf s

@[grind .] theorem mild_need (e : Fault) (o : Option α) : Mild (need e o) := by
  cases o with
  | none => exact mild_throw e
  | some a => exact mild_pure a

@[grind .] theorem mild_say (line : String) : Mild (say line) := mild_modify fun _ => .of_eq rfl rfl

@[grind .] theorem mild_shiftIndent (levels : Int) : Mild (shiftIndent levels) :=
  mild_modify fun _ => .of_eq rfl rfl

/-- A register may be marked, or get further lines. -/
theorem mild_changeRegister (i : Nat) {f : Register → Register}
    (hf : ∀ r, (f r).overwritten = false → r.overwritten = false ∧ r.value = (f r).value ∧
      ∀ k ∈ r.writtenAt.head?, k ∈ (f r).writtenAt.head?) : Mild (changeRegister i f) := by
  refine mild_modify fun s => ⟨rfl, fun _ h => h, ?_⟩
  intro r hr ho
  obtain ⟨j, hj⟩ := List.mem_iff_getElem?.1 hr
  rw [List.getElem?_modify] at hj
  split at hj
  · obtain ⟨q, hq, rfl⟩ := Option.map_eq_some_iff.1 hj
    exact ⟨q, List.mem_of_getElem? hq, hf q ho⟩
  · obtain ⟨q, hq, rfl⟩ := Option.map_eq_some_iff.1 hj
    exact ⟨q, List.mem_of_getElem? hq, ho, rfl, fun _ h => h⟩

theorem mild_overwrite (i : Nat) :
    Mild (changeRegister i fun r => { r with overwritten := true }) :=
  mild_changeRegister i fun _ h => absurd h (by simp)

theorem mild_addRegister {r : Register} (hr : r.overwritten = true) : Mild (addRegister r) := by
  intro s i t h
  cases h
  refine ⟨rfl, fun _ h => h, ?_⟩
  intro q hq ho
  rcases List.mem_append.1 hq with hq | hq
  · exact ⟨q, hq, ho, rfl, fun _ h => h⟩
  · rw [List.mem_singleton.1 hq, hr] at ho
    cases ho

/-- What a line of the code becomes when one of them changes. -/
theorem changeLine_eq_ok {position : Int} {f : CodeLine → CodeLine} {s t : Sheet}
    (h : changeLine position f s = .ok () t) :
    ∃ i, index? s.code.length position = some i ∧ t = { s with code := s.code.modify i f } := by
  obtain ⟨_, _, hget, h⟩ := bind_eq_ok.1 h
  cases hget
  obtain ⟨code, _, hneed, h⟩ := bind_eq_ok.1 h
  obtain ⟨_, hcode, rfl, rfl⟩ := yields_need.1
    (⟨code, _, hneed, rfl, rfl⟩ : Yields (need _ _) s fun a u => a = code ∧ u = _)
  obtain ⟨i, hi, rfl⟩ := Option.map_eq_some_iff.1 hcode
  cases h
  exact ⟨i, hi, rfl⟩

theorem eq_of_index? {size k i : Nat} (h : index? size (k : Int) = some i) : i = k := by
  have hlt : k < size := by
    by_contra hk
    simp [index?, hk] at h
  rw [index?_ofNat hlt] at h
  exact (Option.some.inj h).symm

theorem written_modify {code : List CodeLine} {f : CodeLine → CodeLine} (i : Nat)
    (hf : ∀ line, (f line).text = line.text) : (code.modify i f).map (·.text) = code.map (·.text) := by
  apply List.ext_getElem?
  intro j
  simp only [List.getElem?_map, List.getElem?_modify]
  split <;> cases code[j]? <;> simp [hf]

@[grind .] theorem mild_show (position : Int) : Mild (setVisible position true) := by
  intro s _ t h
  obtain ⟨i, _, rfl⟩ := changeLine_eq_ok h
  refine ⟨written_modify i fun _ => rfl, ?_, fun r hr ho => ⟨r, hr, ho, rfl, fun _ h => h⟩⟩
  rintro k ⟨line, hline, hv⟩
  rw [List.getElem?_modify] at hline
  obtain ⟨old, hold, rfl⟩ := Option.map_eq_some_iff.1 hline
  refine ⟨old, hold, ?_⟩
  split at hv
  · cases hv
  · exact hv

/-! ## Every step but reading a place and setting a text -/

@[grind .] theorem mild_lineAt (position : Int) : Mild (lineAt position) := by grind [lineAt]

@[grind .] theorem mild_register (i : Nat) : Mild (register i) := by grind [register]

@[grind .] theorem mild_registerOf (name : String) (binding : Binding) :
    Mild (registerOf name binding) := by
  cases binding with
  | context _ => exact mild_throw _
  | register i => exact mild_pure i

@[grind .] theorem mild_currentContext (scope : Scope) : Mild (currentContext scope) := by
  grind [currentContext]

@[grind .] theorem mild_number (text : String) : Mild (number text) := by grind [number]

@[grind .] theorem mild_contextOf? (value : String) : Mild (contextOf? value) := by grind [contextOf?]

@[grind .] theorem mild_loopBindings : ∀ bindings, Mild (loopBindings bindings)
  | [] => by grind [loopBindings]
  | (_, .context _) :: rest => mild_loopBindings rest
  | (name, .register i) :: rest => by
    have hrest := mild_loopBindings rest
    refine mild_bind (mild_register i) fun r => mild_bind (mild_contextOf? r.value) fun context => ?_
    cases context with
    | some _ => grind
    | none =>
      refine mild_bind (mild_need _ _) fun first => mild_bind (mild_addRegister rfl) fun _ => ?_
      exact mild_bind (mild_pure _) fun _ => mild_bind hrest fun _ => mild_pure _

@[grind .] theorem mild_loopScope (outer : Scope) : Mild (loopScope outer) := by grind [loopScope]

@[grind .] theorem mild_closeLoop (outer : Scope) : ∀ bindings, Mild (closeLoop outer bindings)
  | [] => by grind [closeLoop]
  | (_, .context _) :: rest => mild_closeLoop outer rest
  | (name, .register i) :: rest => by
    have hrest := mild_closeLoop outer rest
    refine mild_bind (mild_register i) fun r => ?_
    split
    · split
      · exact hrest
      · refine mild_bind (mild_registerOf _ _) fun o => mild_bind (mild_register o) fun _ => ?_
        split
        · exact mild_bind (mild_changeRegister o fun _ h => absurd h (by simp)) fun _ => hrest
        · exact hrest
    · exact hrest

@[grind .] theorem mild_recordWrites (outer : Scope) : ∀ writes, Mild (recordWrites outer writes)
  | [] => by grind [recordWrites]
  | (name, position) :: rest => by
    have hrest := mild_recordWrites outer rest
    unfold recordWrites
    split
    · exact mild_bind (mild_throw _) fun _ => hrest
    · refine mild_bind (mild_registerOf _ _) fun o => mild_bind (mild_changeRegister o fun r h => ?_) fun _ => hrest
      refine ⟨h, rfl, fun k hk => ?_⟩
      rw [List.head?_append, hk]
      rfl

@[grind .] theorem mild_settleContext (kind : BlockKind) (scope outer : Scope) :
    Mild (settleContext kind scope outer) := by grind [settleContext]

theorem mild_changeContext (line : String) (scope : Scope) : Mild (changeContext line scope) := by
  refine mild_bind (mild_currentContext scope) fun current => ?_
  split
  · exact mild_bind mild_get fun s => mild_bind (mild_modify fun _ => .of_eq rfl rfl) fun _ => mild_pure _
  · exact mild_bind mild_get fun s => mild_pure _

theorem mild_captureContext (line : String) (scope : Scope) : Mild (captureContext line scope) := by
  unfold captureContext
  split
  · exact mild_bind (mild_say _) fun _ => mild_pure _
  · next ds _ =>
    refine mild_bind (mild_number ds) fun index => mild_bind mild_get fun s => ?_
    refine mild_bind (mild_need _ _) fun pool => ?_
    split
    · refine mild_bind (mild_currentContext scope) fun current => ?_
      exact mild_bind (mild_modify fun _ => .of_eq rfl rfl) fun _ => mild_pure _
    · exact mild_bind (mild_say _) fun _ => mild_pure _

@[grind .] theorem mild_heldContext? (scope : Scope) (name : String) : Mild (heldContext? scope name) := by
  grind [heldContext?]

@[grind .] theorem mild_namedContext (scope outer : Scope) (name : String) :
    Mild (namedContext scope outer name) := by grind [namedContext]

@[grind .] theorem mild_resolveScope (scope outer : Scope) (reference : String) :
    Mild (resolveScope scope outer reference) := by grind [resolveScope]

@[grind .] theorem mild_resolveScopes (line : String) (scope outer : Scope) :
    Mild (resolveScopes line scope outer) := by
  refine mild_bind ?_ fun _ => mild_pure _
  unfold substituteM
  induction pieces scopeReference line.toList with
  | nil => exact mild_pure _
  | cons p ps ih =>
    cases p with
    | plain c => exact mild_bind ih fun _ => mild_pure _
    | hit a => exact mild_bind (mild_resolveScope scope outer a) fun _ => mild_bind ih fun _ => mild_pure _

theorem mild_resolveLine (line : String) (scope outer : Scope) : Mild (resolveLine line scope outer) := by
  have hchange := mild_changeContext line scope
  have hcapture := mild_captureContext
  grind [resolveLine]

@[grind .] theorem mild_showAll : ∀ positions, Mild (showAll positions)
  | [] => by grind [showAll]
  | position :: rest => by
    have hrest := mild_showAll rest
    grind [showAll]

@[grind .] theorem mild_overwriteReaders (name : String) : ∀ bindings, Mild (overwriteReaders name bindings)
  | [] => by grind [overwriteReaders]
  | (_, .context _) :: rest => mild_overwriteReaders name rest
  | (_, .register i) :: rest => by
    have hrest := mild_overwriteReaders name rest
    refine mild_bind (mild_register i) fun r => ?_
    split
    · exact mild_bind (mild_overwrite i) fun _ => hrest
    · exact hrest

theorem mild_noteWrite (name : String) (outer : Scope) (writes : Writes) :
    Mild (noteWrite name outer writes) := by
  unfold noteWrite
  split
  · exact mild_pure _
  · refine mild_bind (mild_registerOf _ _) fun o => mild_bind (mild_overwrite o) fun _ => ?_
    exact mild_bind mild_get fun _ => mild_pure _

@[grind .] theorem mild_findStore (value : String) : ∀ n, Mild (findStore value n)
  | 0 => by grind [findStore]
  | n + 1 => by
    have hrest := mild_findStore value n
    grind [findStore]

theorem mild_returnStored? (line : String) (scope : Scope) : Mild (returnStored? line scope) := by
  grind [returnStored?]

theorem mild_startContext (name : String) (declarer : Option String) : Mild (startContext name declarer) := by
  refine mild_bind mild_get fun s => ?_
  refine mild_bind (mild_modify fun _ => .of_eq rfl rfl) fun _ => ?_
  split
  · exact mild_pure _
  · exact mild_bind (mild_say _) fun _ => mild_pure _

theorem mild_nextLine : Mild nextLine := by
  refine mild_bind (mild_modify fun _ => .of_eq rfl rfl) fun _ => mild_bind mild_get fun s => ?_
  split
  · exact mild_bind (mild_say _) fun _ => mild_bind (mild_lineAt _) fun _ => mild_pure _
  · exact mild_bind (mild_lineAt _) fun _ => mild_pure _

end SheetM

end Bytelift.Substitution
