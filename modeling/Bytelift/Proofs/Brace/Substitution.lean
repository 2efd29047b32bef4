import Bytelift.Proofs.Brace.Word
import Bytelift.Proofs.Run
import Bytelift.Substitution.Block

/-! Substitution goes through the lines of a block and stops at its closing brace. Nothing but the step from
line to line moves on, and nothing changes which lines are braces; so where a block stops is told by the
braces alone. -/

namespace Bytelift.Substitution

open Run Text Brace

def Sheet.texts (sheet : Sheet) : List String := sheet.code.map (·.rendered)

namespace SheetM

/-- The run stops at a line, or fails before it or there. -/
def Stops {α : Type} (act : SheetM α) (s : Sheet) (last : Int) : Prop :=
  match act s with
  | .ok _ t => t.index = last ∧ t.texts = s.texts
  | .error _ t => t.index ≤ last

def Still {α : Type} (act : SheetM α) : Prop := ∀ s, Stops act s s.index

variable {α β : Type}

theorem Stops.of_ok {act : SheetM α} {s t : Sheet} {a : α} {last : Int} (h : Stops act s last)
    (ha : act s = .ok a t) : t.index = last ∧ t.texts = s.texts := by
  unfold Stops at h
  rw [ha] at h
  exact h

theorem Stops.final_le {act : SheetM α} {s : Sheet} {last : Int} (h : Stops act s last) :
    (final act s).index ≤ last := by
  unfold Stops at h
  unfold final
  cases ha : act s with
  | ok a t =>
    rw [ha] at h
    exact Int.le_of_eq h.1
  | error e t =>
    rw [ha] at h
    exact h

/-- One run after another. -/
theorem Stops.bind {x : SheetM α} {f : α → SheetM β} {s : Sheet} {middle last : Int}
    (hx : Stops x s middle) (hle : middle ≤ last)
    (hf : ∀ a t, x s = .ok a t → t.index = middle → t.texts = s.texts → Stops (f a) t last) :
    Stops (x >>= f) s last := by
  unfold Stops at hx ⊢
  change match EStateM.bind x f s with
    | .ok _ t => t.index = last ∧ t.texts = s.texts
    | .error _ t => t.index ≤ last
  unfold EStateM.bind
  cases ha : x s with
  | error e t =>
    rw [ha] at hx
    exact Int.le_trans hx hle
  | ok a t =>
    rw [ha] at hx
    have hnext := hf a t ha hx.1 hx.2
    unfold Stops at hnext
    rw [hx.2] at hnext
    exact hnext

theorem Still.bind_stops {x : SheetM α} {f : α → SheetM β} {s : Sheet} {last : Int} (hx : Still x)
    (hle : s.index ≤ last)
    (hf : ∀ a t, x s = .ok a t → t.index = s.index → t.texts = s.texts → Stops (f a) t last) :
    Stops (x >>= f) s last := (hx s).bind hle hf

theorem Stops.bind_still {x : SheetM α} {f : α → SheetM β} {s : Sheet} {last : Int}
    (hx : Stops x s last) (hf : ∀ a, Still (f a)) : Stops (x >>= f) s last := by
  refine hx.bind (Int.le_refl _) ?_
  intro a t _ hi _
  exact hi ▸ hf a t

/-! ## What stays at a line -/

@[grind .] theorem still_pure (a : α) : Still (pure a) := fun _ => ⟨rfl, rfl⟩

@[grind .] theorem still_throw (e : Fault) : Still (throw e : SheetM α) := fun _ => Int.le_refl _

@[grind .] theorem still_get : Still (get : SheetM Sheet) := fun _ => ⟨rfl, rfl⟩

@[grind .] theorem still_bind {x : SheetM α} {f : α → SheetM β} (hx : Still x) (hf : ∀ a, Still (f a)) :
    Still (x >>= f) := fun s => (hx s).bind_still hf

theorem still_modify {f : Sheet → Sheet} (hi : ∀ s, (f s).index = s.index)
    (ht : ∀ s, (f s).texts = s.texts) : Still (modify f) := fun s => ⟨hi s, ht s⟩

@[grind .] theorem still_need (e : Fault) (o : Option α) : Still (need e o) := by
  cases o with
  | none => exact still_throw e
  | some a => exact still_pure a

@[grind .] theorem still_ofExcept (r : Except Fault α) : Still (Run.ofExcept r) := by
  cases r with
  | error e => exact still_throw e
  | ok a => exact still_pure a

@[grind .] theorem still_say (line : String) : Still (say line) := still_modify (fun _ => rfl) fun _ => rfl

theorem still_setContexts (contexts : Contexts) : Still (modify fun s => { s with contexts }) :=
  still_modify (fun _ => rfl) fun _ => rfl

@[grind .] theorem still_changeRegister (i : Nat) (f : Register → Register) :
    Still (changeRegister i f) := still_modify (fun _ => rfl) fun _ => rfl

@[grind .] theorem still_addRegister (r : Register) : Still (addRegister r) := fun _ => ⟨rfl, rfl⟩

@[grind .] theorem still_shiftIndent (levels : Int) : Still (shiftIndent levels) :=
  still_modify (fun _ => rfl) fun _ => rfl

theorem rendered_changeAt? {code changed : List CodeLine} {position : Int} {f : CodeLine → CodeLine}
    (hf : ∀ line, (f line).rendered = line.rendered) (h : changeAt? code position f = some changed) :
    changed.map (·.rendered) = code.map (·.rendered) := by
  obtain ⟨i, _, rfl⟩ := Option.map_eq_some_iff.1 h
  apply List.ext_getElem?
  intro j
  simp only [List.getElem?_map, List.getElem?_modify]
  split
  · cases code[j]? <;> simp [hf]
  · cases code[j]? <;> simp

/-- Lines may change in all but what they read. -/
theorem still_changeLine (position : Int) {f : CodeLine → CodeLine}
    (hf : ∀ line, (f line).rendered = line.rendered) : Still (changeLine position f) := by
  intro s
  refine still_get.bind_stops (Int.le_refl _) ?_
  intro sheet t hget _ _
  cases hget
  refine (still_need _ _).bind_stops (Int.le_refl _) ?_
  intro changed t hneed hi _
  obtain ⟨_, hchanged, rfl, rfl⟩ := yields_need.1
    (⟨changed, t, hneed, rfl, rfl⟩ : Yields (need _ _) s fun a u => a = changed ∧ u = t)
  exact ⟨hi, rendered_changeAt? hf hchanged⟩

@[grind .] theorem still_setVisible (position : Int) (visible : Bool) : Still (setVisible position visible) :=
  still_changeLine position fun _ => rfl

@[grind .] theorem still_setText (text : String) : Still (setText text) :=
  still_bind still_get fun _ => still_changeLine _ fun _ => rfl

@[grind .] theorem still_lineAt (position : Int) : Still (lineAt position) := by grind [lineAt]

@[grind .] theorem still_register (i : Nat) : Still (register i) := by grind [register]

@[grind .] theorem still_registerOf (name : String) (binding : Binding) :
    Still (registerOf name binding) := by
  cases binding with
  | context _ => exact still_throw _
  | register i => exact still_pure i

@[grind .] theorem still_currentContext (scope : Scope) : Still (currentContext scope) := by
  grind [currentContext]

@[grind .] theorem still_number (text : String) : Still (number text) := by grind [number]

@[grind .] theorem still_contextOf? (value : String) : Still (contextOf? value) := by grind [contextOf?]

@[grind .] theorem still_loopBindings : ∀ bindings, Still (loopBindings bindings)
  | [] => by grind [loopBindings]
  | (_, .context _) :: rest => still_loopBindings rest
  | (name, .register i) :: rest => by
    have hrest := still_loopBindings rest
    refine still_bind (still_register i) fun r => still_bind (still_contextOf? r.value) fun context => ?_
    cases context with
    | some _ => grind
    | none => grind

@[grind .] theorem still_loopScope (outer : Scope) : Still (loopScope outer) := by grind [loopScope]

@[grind .] theorem still_closeLoop (outer : Scope) : ∀ bindings, Still (closeLoop outer bindings)
  | [] => by grind [closeLoop]
  | (name, binding) :: rest => by
    have hrest := still_closeLoop outer rest
    cases binding <;> grind [closeLoop]

@[grind .] theorem still_recordWrites (outer : Scope) : ∀ writes, Still (recordWrites outer writes)
  | [] => by grind [recordWrites]
  | write :: rest => by
    have hrest := still_recordWrites outer rest
    grind [recordWrites]

@[grind .] theorem still_settleContext (kind : BlockKind) (scope outer : Scope) :
    Still (settleContext kind scope outer) := by grind [settleContext]

@[grind .] theorem still_enterBlock (kind : BlockKind) (outer : Scope) : Still (enterBlock kind outer) := by
  grind [enterBlock]

@[grind .] theorem still_leaveBlock (kind : BlockKind) (outer scope : Scope) (writes : Writes) :
    Still (leaveBlock kind outer scope writes) := by grind [leaveBlock]

/-! ## One line -/

@[grind .] theorem still_changeContext (line : String) (scope : Scope) :
    Still (changeContext line scope) := by
  refine still_bind (still_currentContext scope) fun current => ?_
  split
  · exact still_bind still_get fun s => still_bind (still_setContexts _) fun _ => still_pure _
  · exact still_bind still_get fun s => still_pure _

@[grind .] theorem still_captureContext (line : String) (scope : Scope) :
    Still (captureContext line scope) := by
  unfold captureContext
  split
  · exact still_bind (still_say _) fun _ => still_pure _
  · next ds _ =>
    refine still_bind (still_number ds) fun index => still_bind still_get fun s => ?_
    refine still_bind (still_need _ _) fun pool => ?_
    split
    · refine still_bind (still_currentContext scope) fun current => ?_
      exact still_bind (still_modify (fun _ => rfl) fun _ => rfl) fun _ => still_pure _
    · exact still_bind (still_say _) fun _ => still_pure _

@[grind .] theorem still_heldContext? (scope : Scope) (name : String) :
    Still (heldContext? scope name) := by grind [heldContext?]

@[grind .] theorem still_namedContext (scope outer : Scope) (name : String) :
    Still (namedContext scope outer name) := by grind [namedContext]

@[grind .] theorem still_resolveScope (scope outer : Scope) (reference : String) :
    Still (resolveScope scope outer reference) := by grind [resolveScope]

theorem still_substituteM {γ : Type} {r : Recogniser γ} {f : γ → SheetM (List Char)}
    (hf : ∀ a, Still (f a)) (s : List Char) : Still (substituteM r f s) := by
  unfold substituteM
  induction pieces r s with
  | nil => exact still_pure _
  | cons p ps ih =>
    cases p with
    | plain c => exact still_bind ih fun _ => still_pure _
    | hit a => exact still_bind (hf a) fun _ => still_bind ih fun _ => still_pure _

@[grind .] theorem still_resolveScopes (line : String) (scope outer : Scope) :
    Still (resolveScopes line scope outer) :=
  still_bind (still_substituteM (still_resolveScope scope outer) _) fun _ => still_pure _

@[grind .] theorem still_showAll : ∀ positions, Still (showAll positions)
  | [] => by grind [showAll]
  | position :: rest => by
    have hrest := still_showAll rest
    grind [showAll]

@[grind .] theorem still_readPlace (scope : Scope) (name : String) : Still (readPlace scope name) := by
  grind [readPlace]

@[grind .] theorem still_readPlaces (line : String) (scope : Scope) : Still (readPlaces line scope) :=
  still_bind (still_substituteM (still_readPlace scope) _) fun _ => still_pure _

@[grind .] theorem still_overwriteReaders (name : String) : ∀ bindings,
    Still (overwriteReaders name bindings)
  | [] => by grind [overwriteReaders]
  | (_, binding) :: rest => by
    have hrest := still_overwriteReaders name rest
    cases binding <;> grind [overwriteReaders]

@[grind .] theorem still_noteWrite (name : String) (outer : Scope) (writes : Writes) :
    Still (noteWrite name outer writes) := by grind [noteWrite]

@[grind .] theorem still_assign (name value : String) (scope outer : Scope) (writes : Writes) :
    Still (assign name value scope outer writes) := by grind [assign]

@[grind .] theorem still_findStore (value : String) : ∀ n, Still (findStore value n)
  | 0 => by grind [findStore]
  | n + 1 => by
    have hrest := still_findStore value n
    grind [findStore]

@[grind .] theorem still_returnStored? (line : String) (scope : Scope) :
    Still (returnStored? line scope) := by grind [returnStored?]

@[grind .] theorem still_resolveLine (line : String) (scope outer : Scope) :
    Still (resolveLine line scope outer) := by grind [resolveLine]

@[grind .] theorem still_readLine (line : String) (scope outer : Scope) (writes : Writes) :
    Still (readLine line scope outer writes) := by grind [readLine]

theorem still_substituteLine (line : String) (scope outer : Scope) (writes : Writes) :
    Still (substituteLine line scope outer writes) := by grind [substituteLine]

/-! ## Blocks -/

/-- The next line is read, if there is one. -/
theorem nextLine_eq {s : Sheet} {i : Nat} (hi : s.index = i) {line : String} {rest : List String}
    (ht : s.texts.drop (i + 1) = line :: rest) :
    nextLine s = .ok line { s with index := i + 1 } := by
  have hline : s.texts[i + 1]? = some line := by
    rw [← List.head?_drop, ht]
    rfl
  obtain ⟨old, hold, rfl⟩ := Option.map_eq_some_iff.1 (List.getElem?_map ▸ hline)
  have hlt : i + 1 < s.code.length := (List.getElem?_eq_some_iff.1 hold).1
  have hat : at? s.code ((i : Int) + 1) = some old := by
    have hindex : index? s.code.length ((i + 1 : Nat) : Int) = some (i + 1) := index?_ofNat hlt
    rw [Int.natCast_succ] at hindex
    rw [at?, hindex, Option.bind_some, hold]
  have hy : Yields nextLine s fun a t => a = old.rendered ∧ t = { s with index := i + 1 } := by
    simp only [nextLine, yields_bind, yields_modify, yields_get, hi]
    rw [if_neg (by omega)]
    simp [lineAt, hat]
  obtain ⟨_, _, hok, rfl, rfl⟩ := hy
  exact hok

/-- A block stops where its lines do. -/
theorem stops_withinBlock {lines : Scope → Scope → SheetM (Scope × Writes)} {s : Sheet} {last : Int}
    (hle : s.index ≤ last) (hl : ∀ outer scope t, t.index = s.index → t.texts = s.texts →
      Stops (lines outer scope) t last) (outer : Scope) : Stops (withinBlock lines outer) s last := by
  refine still_get.bind_stops hle ?_
  intro sheet t hget hi ht
  refine (still_ofExcept _).bind_stops (hi ▸ hle) ?_
  intro kind u _ hi' ht'
  rw [hi] at hi'
  rw [ht] at ht'
  refine (still_enterBlock kind outer).bind_stops (hi' ▸ hle) ?_
  intro scope v _ hi'' ht''
  refine (hl outer scope v (hi''.trans hi') (ht''.trans ht')).bind_still ?_
  intro closed
  exact still_leaveBlock kind outer closed.1 closed.2

/-- The lines of a block stop at the brace that closes it. -/
theorem stops_substituteLines : ∀ (bound : Nat) {lines tail : List String} {i : Nat} {s : Sheet}
    (outer scope : Scope) (writes : Writes), s.index = i →
    s.texts.drop (i + 1) = lines ++ "\x7d" :: tail → Balanced (inLines lines) →
    Stops (substituteLines bound outer scope writes) s (i + lines.length + 1)
  | 0, lines, tail, i, s, outer, scope, writes, hi, ht, hb => by
    change s.index ≤ _
    omega
  | bound + 1, lines, tail, i, s, outer, scope, writes, hi, ht, hb => by
    have hread : ∀ {line : String} {rest : List String}, s.texts.drop (i + 1) = line :: rest →
        Stops nextLine s (i + 1) := by
      intro line rest hs
      unfold Stops
      rw [nextLine_eq hi hs]
      exact ⟨rfl, rfl⟩
    cases lines with
    | nil =>
      refine (hread ht).bind (by simp) ?_
      intro line t hnext hi' ht'
      rw [nextLine_eq hi ht] at hnext
      cases hnext
      rw [if_pos rfl]
      exact ⟨by simp, ht'⟩
    | cons line lines =>
      have hdrop : s.texts.drop (i + 2) = lines ++ "\x7d" :: tail := by
        have htail := congrArg List.tail ht
        rwa [List.tail_drop, List.cons_append, List.tail_cons] at htail
      rw [inLines_cons] at hb
      have hlast : (i : Int) + (line :: lines).length + 1 = ((i + 1 : Nat) : Int) + lines.length + 1 := by
        rw [List.length_cons]
        omega
      rw [hlast]
      refine (hread ht).bind (by omega) ?_
      intro read t hnext hi' ht'
      rw [nextLine_eq hi ht] at hnext
      cases hnext
      by_cases hclose : line = "\x7d"
      · subst hclose
        cases hb
      by_cases hopen : line = "\x7b"
      · subst hopen
        -- the inner block stops at its own brace, and what follows it is balanced again
        obtain ⟨inner, rest, rfl, hinner, hrest⟩ := @exists_closing 0 lines hb
        rw [List.append_assoc, List.cons_append] at hdrop
        have hmore : s.texts.drop (i + 1 + inner.length + 1 + 1) = rest ++ "\x7d" :: tail :=
          calc s.texts.drop (i + 1 + inner.length + 1 + 1)
            _ = ((s.texts.drop (i + 2)).drop inner.length).drop 1 := by
              rw [List.drop_drop, List.drop_drop]
              congr 1
              omega
            _ = rest ++ "\x7d" :: tail := by
              rw [hdrop, List.drop_left]
              rfl
        rw [if_neg hclose, if_pos rfl]
        have hblock : Stops (withinBlock (fun outer scope => substituteLines bound outer scope {})
            (outer.merge scope)) { s with index := i + 1 } (((i + 1 : Nat) : Int) + inner.length + 1) := by
          refine stops_withinBlock (by rw [hi']; omega) ?_ _
          intro outer scope u hu hut
          have hahead : u.texts.drop (i + 1 + 1) = inner ++ "\x7d" :: (rest ++ "\x7d" :: tail) := by
            rw [hut, ht']
            exact hdrop
          exact stops_substituteLines bound outer scope {} (hu.trans hi') hahead hinner
        refine hblock.bind ?_ ?_
        · rw [List.length_append]
          omega
        · intro _ u _ hu hut
          have hrec := @stops_substituteLines bound rest tail (i + 1 + inner.length + 1) u outer scope
            writes (by rw [hu]; omega) (by rw [hut, ht']; exact hmore) hrest
          have hend : ((i + 1 + inner.length + 1 : Nat) : Int) + rest.length + 1 =
              ((i + 1 : Nat) : Int) + (inner ++ "\x7d" :: rest).length + 1 := by
            rw [List.length_append, List.length_cons]
            omega
          rwa [hend] at hrec
      · have hnone : ofLine? line = none := by simp [ofLine?, hopen, hclose]
        rw [hnone] at hb
        rw [if_neg hclose, if_neg hopen]
        refine (still_substituteLine _ _ _ _).bind_stops (by rw [hi']; omega) ?_
        intro result u _ hu hut
        refine (still_setText _).bind_stops (by rw [hu, hi']; omega) ?_
        intro _ v _ hv hvt
        have hahead : v.texts.drop (i + 1 + 1) = lines ++ "\x7d" :: tail := by
          rw [hvt, hut, ht']
          exact hdrop
        have hindex : v.index = ((i + 1 : Nat) : Int) := by rw [hv, hu, hi', Int.natCast_succ]
        exact stops_substituteLines bound outer result.2.1 result.2.2 hindex hahead hb

/-- The lines of a function in braces are gone through to the last one. -/
theorem stops_substituteBlock {s : Sheet} {inner : List String} (hi : s.index = 0)
    (ht : s.texts = "\x7b" :: (inner ++ ["\x7d"])) (hb : Balanced (inLines inner)) (outer : Scope) :
    Stops (substituteBlock outer) s ((s.code.length : Int) - 1) := by
  have hlen : (s.code.length : Int) - 1 = ((0 : Nat) : Int) + inner.length + 1 := by
    have hl := congrArg List.length ht
    simp only [Sheet.texts, List.length_map, List.length_cons, List.length_append, List.length_nil] at hl
    omega
  rw [hlen]
  refine still_get.bind_stops (by omega) ?_
  intro sheet t hget hti htt
  refine stops_withinBlock (by omega) ?_ outer
  intro outer scope u hu hut
  refine @stops_substituteLines _ inner [] 0 u outer scope {} (by omega) ?_ hb
  rw [hut, htt, ht]
  rfl

@[grind .] theorem still_startContext (name : String) (declarer : Option String) :
    Still (startContext name declarer) := by
  refine still_bind still_get fun s => ?_
  refine still_bind (still_modify (fun _ => rfl) fun _ => rfl) fun _ => ?_
  split
  · exact still_pure _
  · exact still_bind (still_say _) fun _ => still_pure _

/-- Going through a whole function, no line is read past the last one; and if all is well, the last line has
been read and nothing is left to be said about it. -/
theorem substituteAll_stops {s : Sheet} {inner : List String} (hi : s.index = 0)
    (ht : s.texts = "\x7b" :: (inner ++ ["\x7d"])) (hb : Balanced (inLines inner)) (name : String)
    (declarer : Option String) :
    (final (substituteAll name declarer) s).index < s.code.length ∧
      ∀ t, substituteAll name declarer s = .ok () t → t.index = (s.code.length : Int) - 1 ∧
        ∃ scope, (startContext name declarer >>= fun context =>
          substituteBlock (Scope.setContext {} context)) s = .ok scope t := by
  have hlen : ∀ {t : Sheet}, t.texts = s.texts → t.code.length = s.code.length := by
    intro t htt
    simpa [Sheet.texts] using congrArg List.length htt
  have hpos : 0 ≤ (s.code.length : Int) - 1 := by
    have hl := congrArg List.length ht
    simp only [Sheet.texts, List.length_map, List.length_cons] at hl
    omega
  have hblock : ∀ context t, t.index = s.index → t.texts = s.texts →
      Stops (substituteBlock (Scope.setContext {} context)) t ((s.code.length : Int) - 1) := by
    intro context t hti htt
    rw [← hlen htt]
    exact stops_substituteBlock (hti.trans hi) (htt.trans ht) hb _
  have hall : Stops (substituteAll name declarer) s ((s.code.length : Int) - 1) := by
    refine (still_startContext name declarer).bind_stops (by omega) ?_
    intro context t _ hti htt
    refine (hblock context t hti htt).bind_still ?_
    intro _
    grind
  refine ⟨by have := hall.final_le; omega, ?_⟩
  intro t hok
  refine ⟨(hall.of_ok hok).1, ?_⟩
  obtain ⟨context, u, hstart, hok⟩ := bind_eq_ok.1 hok
  obtain ⟨scope, v, hwithin, hok⟩ := bind_eq_ok.1 hok
  have hu := ((still_startContext name declarer) s).of_ok hstart
  have hv := (hblock context u hu.1 hu.2).of_ok hwithin
  refine ⟨scope, bind_eq_ok.2 ⟨context, u, hstart, ?_⟩⟩
  have hy : Yields (do
      let sheet ← get
      let last : Int := (sheet.code.length : Int) - 1
      if sheet.index ≠ last then
        say s!"Warning! failed to decompile {name} stopped after {sheet.index}/{last}" : SheetM Unit) v
      fun _ w => w = t := ⟨(), t, hok, rfl⟩
  rw [yields_bind, yields_get, if_neg (by rw [hv.1, hlen (hv.2.trans hu.2)]; simp), yields_pure] at hy
  rw [hwithin, hy]

end SheetM

end Bytelift.Substitution
