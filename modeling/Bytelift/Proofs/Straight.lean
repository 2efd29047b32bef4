import Bytelift.Function
import Bytelift.Proofs.Rendering
import Bytelift.Proofs.Substitution.Frame
import Bytelift.Proofs.Text.Numeral

/-! Functions without jumps. Their instructions are laid out as they stand, in one pair of braces, and
substitution goes through them once, in their order; so what each line keeps, the whole function keeps. -/

namespace Bytelift

open Run Text Instruction

/-! ## Lifting -/

def rendering (lines : List CodeLine) (texts : List String) : List CodeLine :=
  List.zipWith (fun line text => { line with rendered := text }) lines texts

theorem renderLines_straight {lines : List CodeLine} {texts : List String}
    (h : List.Forall₂ States lines texts) (s : Recorder) :
    renderLines lines s = .ok (rendering lines texts) s := by
  induction h with
  | nil => rfl
  | @cons line text lines texts hline _ ih =>
    have hy : Yields (renderLines (line :: lines)) s fun a t => a = rendering (line :: lines) (text :: texts) ∧ t =
      s := by
      simp only [renderLines, yields_bind, yields_renderLine_plain hline.isSome_statement?, hline.textOf_eq,
        yields_pure]
      exact ⟨_, _, ih, rfl, rfl⟩
    obtain ⟨_, _, hok, rfl, rfl⟩ := hy
    exact hok

theorem unfold_rendering {lines : List CodeLine} {texts : List String} (h : List.Forall₂ States lines texts) :
    (rendering lines texts).flatMap CodeLine.unfold = rendering lines texts := by
  induction h with
  | nil => rfl
  | @cons line text lines texts hline _ ih =>
    have hone : CodeLine.unfold { line with rendered := text } = [{ line with rendered := text }] := by
      simp [CodeLine.unfold, split_of_notMem (hline.plain '\n' (by simp))]
    change List.flatMap _ ({ line with rendered := text } :: rendering lines texts) = _ :: rendering lines texts
    rw [List.flatMap_cons, hone, ih]
    rfl

theorem rendered_rendering {lines : List CodeLine} {texts : List String} (h : List.Forall₂ States lines texts) :
    (rendering lines texts).map (·.rendered) = texts := by
  induction h with
  | nil => rfl
  | cons _ _ ih => exact congrArg _ ih

theorem visible_rendering {lines : List CodeLine} (h : ∀ line ∈ lines, line.visible = true) (texts : List String) :
    ∀ line ∈ rendering lines texts, line.visible = true := by
  induction lines generalizing texts with
  | nil => simp [rendering]
  | cons first lines ih =>
    cases texts with
    | nil => simp [rendering]
    | cons text texts =>
      intro line hm
      rcases List.mem_cons.1 hm with rfl | hm
      · exact h first List.mem_cons_self
      · exact ih (fun line hl => h line (List.mem_cons_of_mem _ hl)) texts line hm

theorem not_brace_of_states {lines : List CodeLine} {texts : List String} (h : List.Forall₂ States lines texts) :
    ∀ text ∈ texts, text ≠ "\x7b" ∧ text ≠ "\x7d" := by
  induction h with
  | nil => simp
  | cons hline _ ih =>
    intro text hm
    rcases List.mem_cons.1 hm with rfl | hm
    · constructor
      · rintro rfl
        exact hline.plain '\x7b' (by simp) (by simp)
      · rintro rfl
        exact hline.plain '\x7d' (by simp) (by simp)
    · exact ih text hm

def inBraces (lines : List CodeLine) : List CodeLine :=
  CodeLine.added "\x7b" :: (lines ++ [CodeLine.added "\x7d"])

/-- Without a jump, nothing is to be laid out. -/
theorem liftCode_straight {lines : List CodeLine} {texts : List String} (h : List.Forall₂ States lines texts)
    (name : String) (console : Console) :
    liftCode name lines {} console = .ok (inBraces (rendering lines texts)) console := by
  have hlay : Yields FlowM.layOut (Flow.ofTables name (rendering lines texts) {} console) fun _ flow =>
      flow.code = unfoldCode (rendering lines texts) ∧ flow.console = console := by
    have hall : (Flow.ofTables name (rendering lines texts) {} console).tables.all = [] := rfl
    have hreceivers : (Flow.ofTables name (rendering lines texts) {} console).tables.receivers.values = [] := rfl
    simp [FlowM.layOut, FlowM.gather, FlowM.dropReceivers, FlowM.unfoldLines, hall, hreceivers, FlowM.drawBack,
      FlowM.sortKeys, FlowM.clearReceivers, FlowM.handleJumps]
    exact ⟨rfl, rfl⟩
  obtain ⟨_, flow, hok, hcode, hconsole⟩ := hlay
  unfold liftCode
  rw [show guardTables {} = {} from rfl, renderLines_straight h]
  simp only [hok, hcode, hconsole, unfoldCode, unfold_rendering h, inBraces]

/-! ## Substitution -/

namespace Substitution.SheetM

variable {s : Sheet} {i : Nat}

theorem yields_changeLine {f : CodeLine → CodeLine} {wanted : Unit → Sheet → Prop} (hi : i < s.code.length) :
    Yields (changeLine i f) s wanted ↔ wanted () { s with code := s.code.modify i f } := by
  simp [changeLine, changeAt?, hi]

theorem yields_lineAt {line : CodeLine} {wanted : CodeLine → Sheet → Prop} (hi : s.code[i]? = some line) :
    Yields (lineAt i) s wanted ↔ wanted line s := by
  have hlt : i < s.code.length := (List.getElem?_eq_some_iff.1 hi).1
  simp only [lineAt, yields_bind, yields_get, yields_need, at?, index?_ofNat hlt, Option.bind_some, hi,
    Option.some.injEq, exists_eq_left']

theorem yields_nextLine {line : String} {rest : List String} {wanted : String → Sheet → Prop} (hs : s.index = i)
    (ht : s.texts.drop (i + 1) = line :: rest) :
    Yields nextLine s wanted ↔ wanted line { s with index := i + 1 } := by
  constructor
  · rintro ⟨_, _, hok, hw⟩
    rw [nextLine_eq hs ht] at hok
    cases hok
    exact hw
  · intro hw
    exact ⟨_, _, nextLine_eq hs ht, hw⟩

/-- The text of a line is set, at the depth of its block. -/
theorem yields_setText {text : String} {wanted : Unit → Sheet → Prop} (hs : s.index = i)
    (hi : i < s.code.length) : Yields (setText text) s wanted ↔
      wanted () { s with code := s.code.modify i fun line => { line with text := indented s.indent text } } := by
  rw [setText, yields_bind, yields_get, hs, yields_changeLine hi, ← hs]

/-- What one line keeps, given the lines to come: the step through a function without inner blocks. Each step
goes one line on, and the lines read what they read before. -/
structure Straight (outer : Scope) (keeps : List String → Scope → Sheet → Prop) : Prop where
  indent : ∀ {rest scope s}, keeps rest scope s → s.indent = 1
  step : ∀ {line rest scope s}, keeps (line :: rest) scope s →
    Yields (substituteLine line scope outer {}) { s with index := s.index + 1 } fun result t =>
      result.2.2 = {} ∧ Yields (setText result.1) t fun _ u =>
        u.index = s.index + 1 → u.texts = s.texts → keeps rest result.2.1 u

variable {outer : Scope} {keeps : List String → Scope → Sheet → Prop}

/-- What each line keeps, all lines keep. -/
theorem Straight.yields_substituteLines (h : Straight outer keeps) : ∀ {rest : List String} {bound i : Nat}
    {scope : Scope} {s : Sheet}, rest.length < bound → s.index = i →
    s.texts.drop (i + 1) = rest ++ ["\x7d"] → (∀ text ∈ rest, text ≠ "\x7b" ∧ text ≠ "\x7d") →
    keeps rest scope s → Yields (substituteLines bound outer scope {}) s fun result t => result.2 = {} ∧
      ∃ u, keeps [] result.1 u ∧ u.texts = s.texts ∧ u.index = i + rest.length ∧
        t = { u with index := i + rest.length + 1 }
  | [], bound + 1, i, scope, s, _, hi, ht, _, hk => by
    rw [substituteLines, yields_bind, yields_nextLine hi ht, if_pos rfl, yields_pure]
    exact ⟨rfl, s, hk, rfl, by simp [hi], rfl⟩
  | line :: rest, bound + 1, i, scope, s, hb, hi, ht, hp, hk => by
    have hline := hp line (by simp)
    rw [substituteLines, yields_bind, yields_nextLine hi ht, if_neg hline.2, if_neg hline.1, yields_bind]
    obtain ⟨⟨text, scope', writes⟩, t, hok, hw, hset⟩ := h.step hk
    rw [hi] at hok
    refine ⟨_, t, hok, ?_⟩
    obtain ⟨_, u, hok', hk'⟩ := hset
    dsimp only at hw hok' hk' ⊢
    rw [hw, yields_bind]
    refine ⟨_, u, hok', ?_⟩
    have ht1 := (still_substituteLine line scope outer {} { s with index := i + 1 }).of_ok hok
    have ht2 := (still_setText text t).of_ok hok'
    have hui : u.index = ((i + 1 : Nat) : Int) := by rw [ht2.1, ht1.1, Int.natCast_succ]
    have hut : u.texts = s.texts := ht2.2.trans ht1.2
    have hdrop : u.texts.drop (i + 1 + 1) = rest ++ ["\x7d"] := by
      have htail := congrArg List.tail ht
      rwa [List.tail_drop, List.cons_append, List.tail_cons, ← hut] at htail
    have hkeeps := hk' (by rw [hui, hi, Int.natCast_succ]) hut
    refine (h.yields_substituteLines (by simp at hb; omega) hui hdrop (fun text hm => hp text (by simp [hm]))
      hkeeps).mono ?_
    rintro final v ⟨hfw, w, hkw, htw, hiw, rfl⟩
    have hlen : ((i + 1 : Nat) : Int) + rest.length = i + (line :: rest).length := by
      rw [List.length_cons]
      omega
    rw [hlen] at hiw ⊢
    exact ⟨hfw, w, hkw, htw.trans hut, hiw, rfl⟩

/-- The sheet when the block of the function has been opened. -/
def opened (s : Sheet) : Sheet :=
  { s with code := s.code.modify 0 fun line => { line with text := "\x7b" }, indent := 1 }

/-- The sheet when the block of the function has been closed, after a number of lines. -/
def closed (count : Nat) (s : Sheet) : Sheet :=
  { s with
    code := s.code.modify (count + 1) fun line => { line with text := "\x7d" }
    index := count + 1
    indent := 0 }

/-- Where a function starts says nothing about its code. -/
theorem yields_startContext (name : String) (declarer : Option String) (s : Sheet) :
    Yields (startContext name declarer) s fun context t => t = { s with contexts := t.contexts, console := t.console } ∧
      context = (s.contexts.start name declarer).1.getD 0 := by
  simp only [startContext, yields_bind, yields_get, yields_modify]
  split
  · next hstart => exact yields_pure.2 ⟨rfl, by simp [show (s.contexts.start name declarer).1 = _ from hstart]⟩
  · next hstart =>
    rw [yields_bind, yields_say, yields_pure]
    exact ⟨rfl, by simp [show (s.contexts.start name declarer).1 = _ from hstart]⟩

/-- A function whose context is known starts there. -/
theorem yields_startContext_known {name : String} {declarer : Option String} {context : Int} {contexts : Contexts}
    (h : s.contexts.start name declarer = (some context, contexts)) {wanted : Int → Sheet → Prop} :
    Yields (startContext name declarer) s wanted ↔ wanted context { s with contexts } := by
  have hstart : (HasContexts.contexts s).start name declarer = (some context, contexts) := h
  simp only [startContext, yields_bind, yields_get, yields_modify, hstart, yields_pure]
  rfl

/-- The block of a function is opened. -/
theorem yields_enterBlock (hi : s.index = 0) (hd : s.indent = 0) (hlen : 0 < s.code.length) {outer : Scope}
    {wanted : Scope → Sheet → Prop} :
    Yields (enterBlock .function outer) s wanted ↔ wanted outer (opened s) := by
  rw [enterBlock, if_neg (by decide)]
  simp only [yields_bind, yields_pure]
  rw [yields_setText hi hlen, shiftIndent, yields_modify, hd]
  rfl

/-- The block of a function is closed. -/
theorem yields_leaveBlock {count : Nat} (hi : s.index = ((count + 1 : Nat) : Int)) (hd : s.indent = 1)
    (hlen : count + 1 < s.code.length) {outer scope : Scope} {wanted : Sheet → Prop} (hw : wanted (closed count s)) :
    Yields (leaveBlock .function outer scope {}) s fun _ t => wanted t := by
  have hsettle : Yields (settleContext .function scope outer) (closed count s) fun _ u => wanted u := by
    obtain ⟨line, hline⟩ : ∃ line, (closed count s).code[count]? = some line :=
      ⟨_, List.getElem?_eq_getElem (by simp [closed]; omega)⟩
    have hindex : (closed count s).index - 1 = (count : Int) := by simp [closed]
    rw [settleContext, yields_bind, yields_get, yields_bind, hindex, yields_lineAt hline]
    simpa using hw
  simp only [leaveBlock, yields_bind, shiftIndent, yields_modify]
  rw [@yields_setText { s with indent := s.indent + -1 } (count + 1) _ _ hi hlen]
  have hclosed : { s with
      indent := s.indent + -1
      code := s.code.modify (count + 1) fun line => { line with text := indented (s.indent + -1) "\x7d" } } =
        closed count s := by
    rw [closed, hd, hi]
    rfl
  rw [hclosed, if_neg (by decide), yields_bind, recordWrites, yields_pure]
  split
  · exact yields_pure.2 hw
  · exact hsettle

/-- What the lines of a function keep, from its start in a context to its end. -/
theorem yields_substituteAll_straight {name : String} {declarer : Option String} {texts : List String}
    {wanted : Sheet → Prop} (hi : s.index = 0) (hd : s.indent = 0)
    (ht : s.texts = "\x7b" :: (texts ++ ["\x7d"])) (hp : ∀ text ∈ texts, text ≠ "\x7b" ∧ text ≠ "\x7d")
    (hstart : Yields (startContext name declarer) s fun context t => ∃ keeps,
      Straight (Scope.setContext {} context) keeps ∧ keeps texts (Scope.setContext {} context) (opened t) ∧
      ∀ scope u, keeps [] scope u → u.index = texts.length → wanted (closed texts.length u)) :
    Yields (substituteAll name declarer) s fun _ t => wanted t := by
  have hlen : ∀ {t : Sheet}, t.texts = s.texts → t.code.length = texts.length + 2 := by
    intro t htt
    have hl := congrArg List.length (htt.trans ht)
    simpa [Sheet.texts] using hl
  obtain ⟨context, t, hok, keeps, hs, hk, hw⟩ := hstart
  obtain ⟨hti, htt⟩ := (still_startContext name declarer s).of_ok hok
  have htd : t.indent = 0 := by rw [((yields_startContext name declarer s).of_ok hok).1, hd]
  have hopen : (opened t).texts = s.texts := by
    rw [← htt]
    apply List.ext_getElem?
    intro j
    simp only [Sheet.texts, opened, List.getElem?_map, List.getElem?_modify]
    split <;> cases t.code[j]? <;> rfl
  have hlines := @Straight.yields_substituteLines _ _ hs texts ((t.code.length - t.index).toNat + 1) 0 _ (opened t)
    (by rw [hlen htt, hti, hi]; omega) (hti.trans hi) (by rw [hopen, ht]; rfl) hp hk
  obtain ⟨⟨scope, writes⟩, v, hok', hwrites, u, hku, hut, hui, rfl⟩ := hlines
  have hulen := hlen (hut.trans hopen)
  rw [substituteAll, yields_bind]
  refine ⟨context, t, hok, ?_⟩
  have hkind : blockKind (t.code.map (·.text)) t.index = .ok .function := by rw [blockKind, if_pos (hti.trans hi)]
  simp only [substituteBlock, withinBlock, yields_bind, yields_get, yields_ofExcept, hkind]
  refine ⟨.function, rfl, ?_⟩
  rw [yields_enterBlock (hti.trans hi) htd (by rw [hlen htt]; omega)]
  refine ⟨_, _, hok', ?_⟩
  have hwrites : writes = {} := hwrites
  subst hwrites
  have hindent : u.indent = 1 := hs.indent hku
  refine Yields.mono (@yields_leaveBlock { u with index := ((0 : Nat) : Int) + texts.length + 1 } texts.length ?_
    hindent ?_ _ _ (fun w => w = closed texts.length u) ?_) ?_
  · simp
  · exact (by omega : texts.length + 1 < u.code.length)
  · simp [closed]
  · rintro _ w rfl
    rw [if_neg (by simp [closed, hulen]; omega), yields_pure]
    exact hw scope u hku (by simpa using hui)

/-! ## Lines without contexts -/

/-- References to scopes are found by what follows alone. -/
theorem forward_scopeReference : Forward scopeReference where
  blind _ _ := rfl
  leaves := by
    intro c cs a rest h
    obtain ⟨after, hafter, h⟩ := Option.bind_eq_some_iff.1 h
    have happ : after.takeWhile (· != ']') ++ after.dropWhile (· != ']') = after := List.takeWhile_append_dropWhile ..
    have hs := eq_append_of_after? hafter
    change c :: cs = 'S' :: ("cope[".toList ++ after) at hs
    rw [List.cons.injEq] at hs
    split at h
    · cases h
    · next d more hdrop _ =>
      cases h
      refine ⟨"cope[".toList ++ after.takeWhile (· != ']') ++ [d], ?_⟩
      rw [hdrop] at happ
      rw [hs.2, List.append_assoc, List.append_assoc, List.singleton_append, happ]
    · cases h

theorem scopeReference_eq_none {c : Char} (hc : c ≠ 'S') (cs : List Char) :
    scopeReference none (c :: cs) = none := by
  have hscope := after?_toList_eq_none (by decide : "Scope[".toList = 'S' :: ['c', 'o', 'p', 'e', '[']) hc cs
  rw [scopeReference, hscope, Option.bind_none]

/-- A text without the first letter of a reference has none. -/
theorem pieces_scopeReference {text : List Char} (h : 'S' ∉ text) (rest : List Char) :
    pieces scopeReference (text ++ rest) = text.map .plain ++ pieces scopeReference rest :=
  forward_scopeReference.pieces_append (fun _ hc cs => scopeReference_eq_none (fun he => h (he ▸ hc)) cs) rest

theorem yields_resolveScopes_plain {line : String} {scope : Scope} {wanted : String → Sheet → Prop}
    (h : 'S' ∉ line.toList) : Yields (resolveScopes line scope outer) s wanted ↔ wanted line s := by
  have hpieces : pieces scopeReference line.toList = line.toList.map .plain := by
    have happ := pieces_scopeReference h []
    simpa [pieces, scan] using happ
  simp only [resolveScopes, substituteM, hpieces, substituteM_go_plain, yields_bind, yields_pure, String.ofList_toList]

theorem scopeReference_hit {name : List Char} (hne : name ≠ []) (hc : ']' ∉ name) (rest : List Char) :
    scopeReference none ("Scope[".toList ++ (name ++ ']' :: rest)) = some (String.ofList name, rest) := by
  have hrun : ∀ c ∈ name, (c != ']') = true := by
    intro c hm
    simp only [bne_iff_ne]
    rintro rfl
    exact hc hm
  have hend : ∀ c ∈ (']' :: rest).head?, (c != ']') = false := by simp
  rw [scopeReference, after?_append, Option.bind_some, takeWhile_run hrun hend, dropWhile_run hrun hend]
  obtain ⟨c, cs, rfl⟩ := List.exists_cons_of_ne_nil hne
  rfl

/-- A line with one reference. -/
theorem yields_resolveScopes {scope : Scope} {before name after : List Char} {wanted : String → Sheet → Prop}
    (hb : 'S' ∉ before) (ha : 'S' ∉ after) (hne : name ≠ []) (hc : ']' ∉ name) :
    Yields (resolveScopes (String.ofList (before ++ ("Scope[".toList ++ (name ++ ']' :: after)))) scope outer) s
    wanted ↔ Yields (resolveScope scope outer (String.ofList name)) s fun cs t =>
        wanted (String.ofList (before ++ (cs ++ after))) t := by
  have hafter : pieces scopeReference after = after.map .plain := by
    have happ := pieces_scopeReference ha []
    simpa [pieces, scan] using happ
  have hhit := forward_scopeReference.pieces_hit (scopeReference_hit hne hc after)
  have hpieces : pieces scopeReference (before ++ ("Scope[".toList ++ (name ++ ']' :: after))) =
      before.map .plain ++ (.hit (String.ofList name) :: after.map .plain) := by
    rw [pieces_scopeReference hb, ← hafter]
    exact congrArg _ hhit
  simp only [resolveScopes, substituteM, String.toList_ofList, hpieces, substituteM_go_append, substituteM_go_plain,
    substituteM.go, yields_bind, yields_pure]

/-- A line that neither changes nor captures a context has its references resolved and no more. -/
theorem yields_resolveLine {line : String} {scope : Scope} {wanted : String × Scope → Sheet → Prop}
    (hp : 'P' ∉ line.toList) (hw : 'w' ∉ line.toList) : Yields (resolveLine line scope outer) s wanted ↔
      Yields (resolveScopes line scope outer) s fun line t => wanted (line, scope) t := by
  have hpop : has line "PopContext" = false := has_of_notMem (by decide) hp
  have hpush : has line "PushContext" = false := has_of_notMem (by decide) hp
  have hnew : has line "new func" = false := has_of_notMem (by decide) hw
  simp only [resolveLine, hpop, hpush, hnew, Bool.or_false, Bool.false_eq_true, if_false, yields_bind, yields_pure]

/-- A line without the letters of a context stays as it is. -/
theorem yields_resolveLine_plain {line : String} {scope : Scope} {wanted : String × Scope → Sheet → Prop}
    (h : ∀ c ∈ ['P', 'S', 'w'], c ∉ line.toList) :
    Yields (resolveLine line scope outer) s wanted ↔ wanted (line, scope) s := by
  rw [yields_resolveLine (h 'P' (by simp)) (h 'w' (by simp)), yields_resolveScopes_plain (h 'S' (by simp))]

/-! ## Assignments -/

/-- A place that no value reads can be written without further ado. -/
theorem yields_overwriteReaders {name : String} {wanted : Unit → Sheet → Prop} :
    ∀ {bindings : List (String × Binding)}, (∀ bound i, (bound, .register i) ∈ bindings →
      occursIn name.toList (s.register i).value.toList = false) →
    (Yields (overwriteReaders name bindings) s wanted ↔ wanted () s)
  | [], _ => by rw [overwriteReaders, yields_pure]
  | (_, .context _) :: rest, h => by
    rw [overwriteReaders]
    exact yields_overwriteReaders fun bound i hm => h bound i (List.mem_cons_of_mem _ hm)
  | (bound, .register i) :: rest, h => by
    rw [overwriteReaders]
    simp only [register, yields_bind, yields_get, yields_pure, h bound i List.mem_cons_self, Bool.false_eq_true,
      if_false]
    exact yields_overwriteReaders fun bound i hm => h bound i (List.mem_cons_of_mem _ hm)

end Substitution.SheetM

def Function.sheet (f : Function) (code : List CodeLine) (desk : Desk) : Substitution.Sheet :=
  { code, pool := f.pool, contexts := desk.contexts, console := desk.console }

open Substitution in
/-- What substitution does to a function is what it does to its code. -/
theorem Function.yields_substitute {f : Function} {code : List CodeLine} {desk : Desk} (hc : f.code = some code)
    {wanted : Function → Desk → Prop} (h : Yields (SheetM.substituteAll f.name f.declarer) (f.sheet code desk)
      fun _ t => wanted { f with code := some t.code } { desk with contexts := t.contexts, console := t.console }) :
    Yields f.substitute desk wanted := by
  obtain ⟨_, t, hok, hw⟩ := h
  refine ⟨_, _, ?_, hw⟩
  rw [sheet] at hok
  simp only [substitute, hc, hok]

theorem Function.lift_straight {f : Function} {lines : List CodeLine} {texts : List String}
    (hc : f.code = some lines) (hh : f.handlers = some {}) (h : List.Forall₂ States lines texts)
    (console : Console) :
    f.lift console = .ok { f with code := some (inBraces (rendering lines texts)) } console := by
  have hy : Yields f.lift console fun g after =>
      g = { f with code := some (inBraces (rendering lines texts)) } ∧ after = console := by
    rw [lift, yields_bind, yields_need]
    refine ⟨{}, hh, ?_⟩
    rw [yields_bind, yields_need]
    refine ⟨lines, hc, ?_⟩
    rw [yields_bind]
    exact ⟨_, _, liftCode_straight h f.name console, yields_pure.2 ⟨rfl, rfl⟩⟩
  obtain ⟨_, _, hok, rfl, rfl⟩ := hy
  exact hok

open Substitution in
/-- What the lines of a function keep, once it is lifted. -/
theorem Function.yields_substitute_straight {f : Function} {lines : List CodeLine} {texts : List String}
    (h : List.Forall₂ States lines texts) {desk : Desk} {wanted : Sheet → Prop}
    (hstart : Yields (startContext f.name f.declarer) (f.sheet (inBraces (rendering lines texts)) desk)
      fun context t => ∃ keeps,
        SheetM.Straight (Scope.setContext {} context) keeps ∧
        keeps texts (Scope.setContext {} context) (SheetM.opened t) ∧
        ∀ scope u, keeps [] scope u → u.index = texts.length → wanted (SheetM.closed texts.length u)) :
    Yields ({ f with code := some (inBraces (rendering lines texts)) } : Function).substitute desk fun g desk' =>
      ∃ t, wanted t ∧ g = { f with code := some t.code } ∧
        desk' = { desk with contexts := t.contexts, console := t.console } := by
  refine Function.yields_substitute rfl ?_
  refine (SheetM.yields_substituteAll_straight rfl rfl ?_ (not_brace_of_states h) hstart).mono ?_
  · simp [Sheet.texts, sheet, inBraces, rendered_rendering h, CodeLine.added]
  · intro _ t ht
    exact ⟨t, ht, rfl, rfl⟩

end Bytelift
