import Bytelift.Proofs.Lexical.Lines

/-! Slots are looked up in the right contexts. The functions of a program are decompiled from the outermost one
inward, and each one finds the context in which it starts; so the number that an access shows is that of the
context its depth leads to. -/

namespace Bytelift.Lexical

open Run Text Instruction Substitution Substitution.SheetM

/-! ## Constants -/

theorem readsPool_anyReference : ReadsPool Function.anyReference where
  blind _ _ := rfl
  leaves := by
    intro c cs a rest h
    rcases (Option.orElse_eq_some _ _ _).1 h with h | ⟨_, h⟩
    · obtain ⟨⟨ds, more⟩, hds, he⟩ := Option.map_eq_some_iff.1 h
      cases he
      obtain ⟨after, hafter, hds⟩ := Option.bind_eq_some_iff.1 hds
      obtain ⟨⟨digits, left⟩, hdigits, he⟩ := Option.map_eq_some_iff.1 hds
      cases he
      obtain ⟨claimed, rfl⟩ := bracketed?_leaves hdigits
      have hs := eq_append_of_after? hafter
      exact ⟨"onstPoolLiteral".toList ++ claimed, by rw [List.append_assoc]; exact (List.cons.inj hs).2⟩
    · obtain ⟨⟨ds, more⟩, hds, he⟩ := Option.map_eq_some_iff.1 h
      cases he
      exact readsPool_poolReference.leaves hds
  marked := by
    intro s h
    have hliteral : after? "ConstPoolLiteral".toList s = none := by
      cases hs : after? "ConstPoolLiteral".toList s with
      | none => rfl
      | some rest =>
        have happ : "ConstPoolLiteral".toList ++ rest = "ConstPool".toList ++ ("Literal".toList ++ rest) := rfl
        rw [eq_append_of_after? hs, happ, after?_append] at h
        cases h
    rw [Function.anyReference, Function.literalReference, hliteral, Option.bind_none, Option.map_none,
      readsPool_poolReference.marked h]
    rfl

theorem anyReference_poolText (index : Nat) :
    Function.anyReference none (poolText index).toList = some ((false, toString index), []) := by
  have hliteral : Function.literalReference none (poolText index).toList = none := by
    have hchars : (poolText index).toList = "ConstPool".toList ++ '[' :: ((toString index).toList ++ [']']) := by
      simp [poolText, bracketed]
    rw [Function.literalReference, hchars]
    rfl
  rw [Function.anyReference, hliteral, poolReference_poolText]
  rfl

theorem Apart.append {a b : List Char} (ha : Apart a) (hb : Apart b) : Apart (a ++ b) := by
  induction a with
  | nil => exact hb
  | cons c cs ih =>
    refine ⟨fun hc => ?_, ih ha.2⟩
    obtain ⟨d, hd, hne⟩ := ha.1 hc
    cases cs with
    | nil => cases hd
    | cons e es => exact ⟨d, hd, hne⟩

theorem apart_scopeText (k : Nat) : Apart (scopeText k).toList :=
  apart_of_notMem (notMem_scopeText (by decide) (by decide) (by decide) k)

theorem apart_slotText (k slot : Nat) : Apart (slotText k slot).toList :=
  apart_of_notMem (notMem_slotText (by decide) (by decide) (by decide) k slot)

/-- Constants are put in for a value, if it is a reference to the pool. -/
theorem substituteM_constantText (f : Function) (globals : Globals) {head : List Char} (hh : Apart head)
    {value : Value} (hv : value.Readable) :
    ∃ put, substituteM Function.anyReference (f.constantText globals) (head ++ value.text.toList) = .ok (head ++ put) ∧
      ((∀ index, value ≠ .closure index) → put = value.text.toList) := by
  have hplain : Apart value.text.toList → ∃ put,
      substituteM Function.anyReference (f.constantText globals) (head ++ value.text.toList) = .ok (head ++ put) ∧
        ((∀ index, value ≠ .closure index) → put = value.text.toList) := by
    intro hapart
    refine ⟨value.text.toList, ?_, fun _ => rfl⟩
    have hpieces := readsPool_anyReference.pieces_apart (hh.append hapart) []
    rw [List.append_nil] at hpieces
    rw [substituteM, hpieces, show pieces Function.anyReference [] = [] from rfl, List.append_nil, substituteM_go_plain]
    rfl
  cases value with
  | unset => exact hplain (by simp [Value.text, Apart])
  | context k => exact hplain (apart_scopeText k)
  | slot k slot => exact hplain (apart_slotText k slot)
  | closure index =>
    obtain ⟨put, hput⟩ : ∃ put, f.constantText globals (false, toString index) = .ok put := by
      simp only [Function.constantText, number_toString hv, bind, Except.bind]
      split
      · exact ⟨_, rfl⟩
      · exact ⟨_, rfl⟩
    refine ⟨put, ?_, fun hne => absurd rfl (hne index)⟩
    have hchars : (poolText index).toList = 'C' :: ("onstPool".toList ++ (bracketed index).toList) := by
      simp [poolText]
    have hreference := anyReference_poolText index
    have hpieces := readsPool_anyReference.pieces_apart hh (poolText index).toList
    rw [hchars] at hreference
    rw [Value.text, substituteM, hpieces, hchars, readsPool_anyReference.pieces_hit hreference, substituteM_go_append,
      substituteM_go_plain]
    simp only [pieces, scan, substituteM.go, hput, bind, Except.bind, pure, Except.pure, List.append_nil]

/-- How an access shows in the end: as a slot of a context. -/
def Shown (k : Nat) (slot : Nat) : Direction → String → Prop
  | .load, text => text = "\tACCU = " ++ slotText k slot
  | .store, text => ∃ value, text = "\t" ++ slotText k slot ++ " = " ++ value

variable {g : Setting} {n : Nat} {op : Op}

theorem Setting.apart_target (g : Setting) (n : Nat) (op : Op) : Apart ("\t" ++ (g.target n op ++ " = ")).toList := by
  have htarget : Apart (g.target n op).toList := by
    have haccumulator : Apart "ACCU".toList := by simp [Apart]
    rcases op with _ | _ | ⟨_ | _, slot, depth⟩
    case access.store => exact apart_slotText _ slot
    all_goals exact haccumulator
  have htab : Apart "\t".toList := apart_of_notMem (by decide)
  have hequals : Apart " = ".toList := apart_of_notMem (by decide)
  rw [String.toList_append, String.toList_append]
  exact htab.append (htarget.append hequals)

/-- Constants are put in after the equals sign only. -/
theorem Setting.Says.putConstantsIn {line : CodeLine} (h : g.Says n op line.text) (f : Function) (globals : Globals) :
    ∃ text, f.putConstantsIn globals line = .ok { line with text } ∧
      ∀ direction slot depth, op = .access direction slot depth →
        Shown (g.numberAt n depth) slot direction text := by
  obtain ⟨value, hv, hvalue, htext⟩ := h
  obtain ⟨put, hok, hput⟩ := substituteM_constantText f globals (g.apart_target n op) hv
  have hchars : line.text.toList = ("\t" ++ (g.target n op ++ " = ")).toList ++ value.text.toList := by
    rw [htext]
    simp
  have hshown : ∀ direction slot depth, op = .access direction slot depth → ∀ tail : List Char,
      ((∀ index, value ≠ .closure index) → tail = value.text.toList) → Shown (g.numberAt n depth) slot direction
        (String.ofList (("\t" ++ (g.target n op ++ " = ")).toList ++ tail)) := by
    rintro direction slot depth rfl tail htail
    cases direction with
    | load =>
      have hslot : value = .slot (g.numberAt n depth) slot := hvalue (by simp [Setting.source])
      rw [htail (by simp [hslot]), hslot, Shown, ← String.toList_inj]
      simp [Setting.target, Value.text]
    | store =>
      refine ⟨String.ofList tail, ?_⟩
      rw [← String.toList_inj]
      simp [Setting.target]
  rw [Function.putConstantsIn]
  split
  · refine ⟨_, ?_, fun direction slot depth he => hshown direction slot depth he put hput⟩
    rw [hchars, hok]
    rfl
  · refine ⟨line.text, rfl, fun direction slot depth he => ?_⟩
    have hsame := hshown direction slot depth he value.text.toList fun _ => rfl
    rwa [← hchars, String.ofList_toList] at hsame

/-- What is put into each line is put into all lines. -/
theorem putConstantsInAll_ok {f : Function} {globals : Globals} {lines : List CodeLine} {wanted : Nat → String → Prop}
    (h : ∀ j line, lines[j]? = some line → ∃ text, f.putConstantsIn globals line = .ok { line with text } ∧
      wanted j text) :
    ∃ result, f.putConstantsInAll globals lines = .ok result ∧ result.length = lines.length ∧
      ∀ j line, result[j]? = some line → wanted j line.text := by
  induction lines generalizing wanted with
  | nil => exact ⟨[], rfl, rfl, by simp⟩
  | cons line lines ih =>
    obtain ⟨text, hfirst, htext⟩ := h 0 line rfl
    obtain ⟨result, hrest, hlength, hresult⟩ := @ih (fun j => wanted (j + 1)) fun j other hj => h (j + 1) other hj
    refine ⟨{ line with text } :: result, ?_, by simp [hlength], ?_⟩
    · rw [Function.putConstantsInAll, hfirst, hrest]
      rfl
    · intro j other hj
      cases j with
      | zero =>
        cases hj
        exact htext
      | succ j => exact hresult j other hj

theorem declareGlobals_append {f : Function} {globals : Globals} {lines rest : List CodeLine}
    (h : ∀ line ∈ lines, has line.text "DeclareGlobals(" = false) :
    f.declareGlobals globals (lines ++ rest) = f.declareGlobals globals rest := by
  induction lines with
  | nil => rfl
  | cons line lines ih =>
    rw [List.cons_append, Function.declareGlobals, h line List.mem_cons_self]
    exact ih fun other hm => h other (List.mem_cons_of_mem _ hm)

theorem Setting.Says.declaresNone {text : String} (h : g.Says n op text) : 'D' ∉ text.toList := by
  obtain ⟨value, _, _, rfl⟩ := h
  have htarget : 'D' ∉ (g.target n op).toList := by
    rcases op with _ | _ | ⟨_ | _, slot, depth⟩
    case access.store => exact notMem_slotText (by decide) (by decide) (by decide) _ slot
    all_goals exact (by decide : 'D' ∉ "ACCU".toList)
  have hvalue : 'D' ∉ value.text.toList := by
    cases value with
    | unset => exact (by decide : 'D' ∉ "ACCU".toList)
    | context k => exact notMem_scopeText (by decide) (by decide) (by decide) k
    | slot k slot => exact notMem_slotText (by decide) (by decide) (by decide) k slot
    | closure index => exact notMem_poolText (by decide) (by decide) (by decide) index
  have htab : 'D' ∉ "\t".toList := by decide
  have hequals : 'D' ∉ " = ".toList := by decide
  simp only [String.toList_append, List.mem_append, not_or]
  exact ⟨htab, ⟨htarget, hequals⟩, hvalue⟩

/-! ## One function -/

/-- The accesses of a function show the contexts that a numbering gives, from where it starts. -/
def Addressed (all : List Creation) (m : Member) (start : Chain) (f : Function) : Prop :=
  ∀ line direction slot depth, m.ops[line]? = some (.access direction slot depth) →
    ∃ shown, f.lines[line + 1]? = some shown ∧
      Shown (innermost all ((m.chainAt start line).drop (depth.getD 0))) slot direction shown.text

theorem Ended.cases {t : Sheet} (h : Ended g t) {j : Nat} {line : CodeLine} (hline : t.code[j]? = some line) :
    line.text = "\x7b" ∧ j = 0 ∨ line.text = "\x7d" ∧ j = g.member.ops.length + 1 ∨
      ∃ i op, j = i + 1 ∧ g.member.ops[i]? = some op ∧ g.Says i op line.text := by
  have hwritten : t.written[j]? = some line.text := by rw [Sheet.written, List.getElem?_map, hline]; rfl
  have hlt : j < g.member.ops.length + 2 := by
    rw [← h.size]
    exact (List.getElem?_eq_some_iff.1 hwritten).1
  cases j with
  | zero =>
    rw [h.opened] at hwritten
    exact Or.inl ⟨(Option.some.inj hwritten).symm, rfl⟩
  | succ i =>
    by_cases hi : i = g.member.ops.length
    · rw [hi, h.closed] at hwritten
      exact Or.inr (Or.inl ⟨(Option.some.inj hwritten).symm, by rw [hi]⟩)
    · obtain ⟨op, hop⟩ : ∃ op, g.member.ops[i]? = some op := ⟨_, List.getElem?_eq_getElem (by omega)⟩
      obtain ⟨text, htext, hstates⟩ := h.said i op hop
      rw [hwritten] at htext
      cases htext
      exact Or.inr (Or.inr ⟨i, op, rfl, hop, hstates⟩)

theorem Ended.takeUpGlobals {t : Sheet} (h : Ended g t) {f : Function} (hc : f.code = some t.code)
    (globals : Globals) : f.takeUpGlobals globals = .ok (false, globals) := by
  have hplain : ∀ line ∈ t.code, 'D' ∉ line.text.toList := by
    intro line hm
    obtain ⟨j, hline⟩ := List.getElem?_of_mem hm
    rcases h.cases hline with ⟨he, _⟩ | ⟨he, _⟩ | ⟨i, op, _, _, hstates⟩
    · rw [he]
      decide
    · rw [he]
      decide
    · exact hstates.declaresNone
  rw [Function.takeUpGlobals, Function.needCode, hc, ← List.append_nil t.code]
  exact declareGlobals_append fun line hm => has_of_notMem (by decide) (hplain line hm)

theorem Ended.putConstants {t : Sheet} (h : Ended g t) {f : Function} (hc : f.code = some t.code)
    (globals : Globals) : ∃ result, f.putConstants globals = .ok result ∧ Addressed g.all g.member g.start result := by
  let wanted : Nat → String → Prop := fun j text => ∀ i direction slot depth, j = i + 1 →
    g.member.ops[i]? = some (.access direction slot depth) → Shown (g.numberAt i depth) slot direction text
  have hbrace : ∀ {line : CodeLine}, 'C' ∉ line.text.toList →
      f.putConstantsIn globals line = .ok { line with text := line.text } := by
    intro line hline
    rw [Function.putConstantsIn, has_of_notMem (by decide) hline]
    rfl
  have heach : ∀ j line, t.code[j]? = some line →
      ∃ text, f.putConstantsIn globals line = .ok { line with text } ∧ wanted j text := by
    intro j line hline
    rcases h.cases hline with ⟨he, hj⟩ | ⟨he, hj⟩ | ⟨i, op, hj, hop, hstates⟩
    · refine ⟨_, hbrace (by rw [he]; decide), ?_⟩
      intro i direction slot depth hi
      omega
    · refine ⟨_, hbrace (by rw [he]; decide), ?_⟩
      intro i direction slot depth hi hop
      have hlt := (List.getElem?_eq_some_iff.1 hop).1
      omega
    · obtain ⟨text, hok, hshown⟩ := hstates.putConstantsIn f globals
      refine ⟨text, hok, ?_⟩
      intro i' direction slot depth hi hop'
      obtain rfl : i = i' := by omega
      exact hshown direction slot depth (Option.some.inj (hop.symm.trans hop'))
  obtain ⟨result, hall, hlength, hresult⟩ := putConstantsInAll_ok heach
  refine ⟨{ f with code := some result }, ?_, ?_⟩
  · simp only [Function.putConstants, Function.needCode, hc, bind, Except.bind, hall]
    rfl
  · intro line direction slot depth hop
    have hlt : line < g.member.ops.length := (List.getElem?_eq_some_iff.1 hop).1
    have hsize := h.size
    rw [Sheet.written, List.length_map] at hsize
    obtain ⟨shown, hshown⟩ : ∃ shown, result[line + 1]? = some shown := ⟨_, List.getElem?_eq_getElem (by omega)⟩
    exact ⟨shown, hshown, hresult _ shown hshown line direction slot depth rfl hop⟩

/-- A function is decompiled, from where it starts. -/
theorem Setting.yields_decompile (g : Setting) {desk : Desk} (hconsole : desk.console = g.console)
    (hstart : Yields (startContext g.member.name g.member.declarer)
      (g.member.function.sheet (inBraces (rendering g.member.code (g.member.ops.map Op.text))) desk) fun context t =>
        t.console = desk.console ∧ context = innermost g.made g.start ∧ World g.stands t.contexts g.made g.given ∧
        Linked t.contexts g.made g.start) :
    Yields g.member.function.decompile desk fun f desk' => desk'.console = desk.console ∧
      World g.stands desk'.contexts (g.made ++ g.member.creations) (g.givenAt g.member.ops.length) ∧
      Addressed g.all g.member g.start f := by
  have hlift := Function.lift_straight g.member.coded g.member.unguarded g.member.states desk.console
  rw [Function.decompile, yields_bind, yields_on]
  refine ⟨_, _, hlift, yields_bind.2 ((g.yields_substitute hconsole hstart).mono ?_)⟩
  rintro f desk' ⟨t, ht, rfl, rfl⟩
  obtain ⟨result, hput, haddressed⟩ :=
    ht.putConstants (f := { g.member.function with code := some t.code }) rfl desk.globals
  have hglobals := ht.takeUpGlobals (f := { g.member.function with code := some t.code }) rfl desk.globals
  simp only [yields_bind, yields_get, yields_ofExcept, hglobals, Except.ok.injEq, exists_eq_left', yields_modify, hput]
  exact ⟨ht.console.trans hconsole.symm, ht.world, haddressed⟩

/-! ## All functions -/

/-- The contexts that functions make, those of the last one first. -/
def creations (members : List Member) : List Creation := members.reverse.flatMap Member.creations

theorem creations_cons (m : Member) (members : List Member) :
    creations (m :: members) = creations members ++ m.creations := by
  simp [creations]

theorem creations_append (before after : List Member) :
    creations (before ++ after) = creations after ++ creations before := by
  simp [creations]

theorem mem_creations {members : List Member} {c : Creation} (h : c ∈ creations members) :
    ∃ m ∈ members, c.function = m.name := by
  obtain ⟨m, hm, hc⟩ := List.mem_flatMap.1 h
  exact ⟨m, List.mem_reverse.1 hm, (Member.mem_created hc).1⟩

section Captures

variable {name : String}

theorem Setting.givenAt_succ_of_ne (h : g.member.captured? n ≠ some name) :
    g.givenAt (n + 1) name = g.givenAt n name := by
  rw [Setting.givenAt]
  cases hother : g.member.captured? n with
  | none => rfl
  | some other =>
    have hne : name ≠ other := by
      rintro rfl
      exact h hother
    exact Function.update_of_ne hne _ _

theorem Setting.givenAt_of_captured {line : Nat} (hc : g.member.captured? line = some name)
    (honce : ∀ line', g.member.captured? line' = some name → line' = line) {n : Nat} (hn : line < n) :
    g.givenAt n name = some (g.chainAt line) := by
  induction n with
  | zero => cases hn
  | succ n ih =>
    by_cases he : n = line
    · subst he
      simp only [Setting.givenAt, hc, Function.update_self]
    · rw [Setting.givenAt_succ_of_ne fun h => he (honce n h), ih (by omega)]

theorem Setting.givenAt_of_not_captured (hc : ∀ line, g.member.captured? line ≠ some name) (n : Nat) :
    g.givenAt n name = g.given name := by
  induction n with
  | zero => rfl
  | succ n ih => rw [Setting.givenAt_succ_of_ne (hc n), ih]

end Captures

namespace Program

variable {p : Program} {before done : List Member} {m : Member}

/-- A function is listed before the one that declares it. -/
theorem mem_before (hp : p.members = before ++ m :: done) {inner : Member} (hi : inner ∈ p.members)
    (hd : inner.declarer = some m.name) : inner ∈ before := by
  have hnodup : (before ++ m :: done).Nodup := hp ▸ p.names.of_map
  have hm : m ∈ p.members := hp ▸ List.mem_append_right _ List.mem_cons_self
  have hlast : m ∉ done := (List.nodup_cons.1 (List.nodup_append.1 hnodup).2.1).1
  obtain ⟨front, back, hsplit⟩ := List.append_of_mem hi
  rcases p.nested front inner back hsplit with ⟨_, hnone⟩ | ⟨outer, ho, hsome⟩
  · rw [hnone] at hd
    cases hd
  · have hom : outer ∈ p.members := hsplit ▸ List.mem_append_right _ (List.mem_cons_of_mem _ ho)
    cases eq_of_name hom hm (Option.some.inj (hsome.symm.trans hd))
    rcases List.append_eq_append_iff.1 (hp.symm.trans hsplit) with ⟨between, _, hrest⟩ | ⟨between, hbefore, hrest⟩
    · cases between with
      | nil =>
        rw [(List.cons.inj hrest).2] at hlast
        exact absurd ho hlast
      | cons first between =>
        rw [(List.cons.inj hrest).2] at hlast
        exact absurd (List.mem_append_right _ (List.mem_cons_of_mem _ ho)) hlast
    · cases between with
      | nil =>
        rw [← (List.cons.inj hrest).2] at hlast
        exact absurd ho hlast
      | cons first between =>
        rw [hbefore, (List.cons.inj hrest).1]
        exact List.mem_append_right _ List.mem_cons_self

/-- A context is made at a line of a function, in the contexts around the line. -/
def Stands (p : Program) (c : Creation) (outside : Chain) : Prop :=
  ∃ m ∈ p.members, ∃ start, p.Starts m start ∧ c.function = m.name ∧ outside = m.chainAt start c.line

/-- What is known when the functions from some place on have been decompiled. -/
structure Stage (p : Program) (done : List Member) (contexts : Contexts) (given : String → Option Chain) : Prop where
  world : World p.Stands contexts (creations done) given
  started : ∀ m ∈ done, ∃ chain, given m.name = some chain ∧ p.Starts m chain
  captured : ∀ m ∈ p.members, m ∉ done → ∀ chain, given m.name = some chain → p.Starts m chain
  pending : ∀ m ∈ p.members, m ∉ done → given m.name = none →
    ∀ outer ∈ done, ∀ line, outer.captured? line ≠ some m.name
  empty : done = [] → contexts.functions.isEmpty = true

theorem stage_nil (p : Program) : Stage p [] {} fun _ => none where
  world := world_nil
  started := by simp
  captured := by simp
  pending := by simp
  empty _ := rfl

variable {contexts : Contexts} {given : String → Option Chain}

/-- A function finds where it starts. -/
theorem Stage.start (h : Stage p done contexts given) (hp : p.members = before ++ m :: done) :
    ∃ chain given', p.Starts m chain ∧ given' m.name = some chain ∧ (∀ name, name ≠ m.name → given' name = given name) ∧
      (contexts.start m.name m.declarer).1 = some (innermost (creations done) chain : Int) ∧
      World p.Stands (contexts.start m.name m.declarer).2 (creations done) given' ∧
      Linked (contexts.start m.name m.declarer).2 (creations done) chain := by
  have hm : m ∈ p.members := hp ▸ List.mem_append_right _ List.mem_cons_self
  have hlast : m ∉ done := by
    have hnodup : (before ++ m :: done).Nodup := hp ▸ p.names.of_map
    exact (List.nodup_cons.1 (List.nodup_append.1 hnodup).2.1).1
  have hlookup := h.world.functions m.name
  cases hg : given m.name with
  | some chain =>
    rw [hg, Option.map_some] at hlookup
    have hstart : contexts.start m.name m.declarer = (some (innermost (creations done) chain : Int), contexts) := by
      rw [Contexts.start, hlookup]
    rw [hstart]
    exact ⟨chain, given, h.captured m hm hlast chain hg, hg, fun _ _ => rfl, rfl, h.world, h.world.linked _ _ hg⟩
  | none =>
    rw [hg, Option.map_none] at hlookup
    -- A function that was not captured starts where its declarer starts; the outermost one has none.
    obtain ⟨chain, hstarts, hlinked, hstart⟩ : ∃ chain, p.Starts m chain ∧ Linked contexts (creations done) chain ∧
        contexts.start m.name m.declarer = (some (innermost (creations done) chain : Int),
          contexts.setFunction m.name (innermost (creations done) chain)) := by
      rcases p.nested before m done hp with ⟨hnil, hdeclarer⟩ | ⟨outer, houter, hdeclarer⟩
      · refine ⟨[], .outermost hdeclarer, trivial, ?_⟩
        rw [Contexts.start, hlookup, h.empty hnil]
        rfl
      · obtain ⟨chain, hchain, hstarts⟩ := h.started outer houter
        have hfound := h.world.functions outer.name
        rw [hchain, Option.map_some] at hfound
        have hfilled : contexts.functions.isEmpty = false := by
          cases hentries : contexts.functions.entries with
          | nil => rw [Table.get?, hentries] at hfound; cases hfound
          | cons entry entries => rw [Table.isEmpty, hentries]; rfl
        have hom : outer ∈ p.members := hp ▸ List.mem_append_right _ (List.mem_cons_of_mem _ houter)
        refine ⟨chain, .inherited hom hdeclarer hstarts (h.pending m hm hlast hg outer houter),
          h.world.linked _ _ hchain, ?_⟩
        simp only [Contexts.start, hlookup, hfilled, hdeclarer, Option.bind_some, hfound, Bool.false_eq_true, if_false]
    rw [hstart]
    exact ⟨chain, Function.update given m.name (some chain), hstarts, Function.update_self ..,
      fun name hne => Function.update_of_ne hne _ _, rfl, h.world.setFunction hlinked m.name, hlinked.congr rfl⟩

/-- A function adds what it captures and the contexts that it makes. -/
theorem Stage.next (h : Stage p done contexts given) (hp : p.members = before ++ g.member :: done)
    (hstarts : p.Starts g.member g.start) (hself : g.given g.member.name = some g.start)
    (hother : ∀ name, name ≠ g.member.name → g.given name = given name) {contexts' : Contexts}
    (hworld : World p.Stands contexts' (creations done ++ g.member.creations) (g.givenAt g.member.ops.length)) :
    Stage p (g.member :: done) contexts' (g.givenAt g.member.ops.length) := by
  have hm : g.member ∈ p.members := hp ▸ List.mem_append_right _ List.mem_cons_self
  have hnodup : (before ++ g.member :: done).Nodup := hp ▸ p.names.of_map
  have hapart := List.nodup_append.1 hnodup
  -- What the function captures for stands before it in the listing.
  have hbefore : ∀ {x : Member}, x ∈ p.members → ∀ {line}, g.member.captured? line = some x.name → x ∈ before := by
    intro x hx line hline
    obtain ⟨inner, hi, hname, hdeclarer⟩ := p.declared g.member hm line x.name hline
    cases eq_of_name hi hx hname
    exact mem_before hp hi hdeclarer
  have hkept : ∀ {x : Member}, x ∈ g.member :: done → ∀ line, g.member.captured? line ≠ some x.name := by
    intro x hx line hline
    have hxm : x ∈ p.members := hp ▸ List.mem_append_right _ hx
    exact hapart.2.2 x (hbefore hxm hline) x hx rfl
  have hne : ∀ {x : Member}, x ∈ p.members → x ≠ g.member → x.name ≠ g.member.name :=
    fun hx hxm he => hxm (eq_of_name hx hm he)
  have hcaught : ∀ {x : Member} {line}, g.member.captured? line = some x.name →
      g.givenAt g.member.ops.length x.name = some (g.chainAt line) := by
    intro x line hline
    refine Setting.givenAt_of_captured hline (fun line' hline' => p.once _ hm _ _ _ hline' hline) ?_
    by_contra hlt
    rw [Member.captured?, List.getElem?_eq_none (by omega)] at hline
    cases hline
  constructor
  · rw [creations_cons]
    exact hworld
  · intro x hx
    rw [Setting.givenAt_of_not_captured (hkept hx)]
    rcases List.mem_cons.1 hx with rfl | hd
    · exact ⟨g.start, hself, hstarts⟩
    · have hxm : x ∈ p.members := hp ▸ List.mem_append_right _ hx
      rw [hother x.name (hne hxm fun he => (List.nodup_cons.1 hapart.2.1).1 (he ▸ hd))]
      exact h.started x hd
  · intro x hx hnot chain hchain
    rw [List.mem_cons, not_or] at hnot
    by_cases hc : ∃ line, g.member.captured? line = some x.name
    · obtain ⟨line, hline⟩ := hc
      obtain ⟨inner, hi, hname, hdeclarer⟩ := p.declared g.member hm line x.name hline
      cases eq_of_name hi hx hname
      rw [hcaught hline] at hchain
      cases hchain
      exact .captured hm hdeclarer hstarts hline
    · rw [Setting.givenAt_of_not_captured fun line hline => hc ⟨line, hline⟩, hother x.name (hne hx hnot.1)] at hchain
      exact h.captured x hx hnot.2 chain hchain
  · intro x hx hnot hnone outer houter line hline
    rw [List.mem_cons, not_or] at hnot
    have hmissed : ∀ line, g.member.captured? line ≠ some x.name := by
      intro line hline
      rw [hcaught hline] at hnone
      cases hnone
    rcases List.mem_cons.1 houter with rfl | hd
    · exact hmissed line hline
    · rw [Setting.givenAt_of_not_captured hmissed, hother x.name (hne hx hnot.1)] at hnone
      exact h.pending x hx hnot.2 hnone outer hd line hline
  · intro hnil
    cases hnil

def Settled (p : Program) (functions : Functions) (m : Member) : Prop :=
  ∃ start f, p.Starts m start ∧ functions.get? m.name = some f ∧ Addressed (creations p.members) m start f

/-- One function is decompiled. -/
theorem Stage.yields_decompile {desk : Desk} (h : Stage p done desk.contexts given)
    (hp : p.members = before ++ m :: done) : Yields m.function.decompile desk fun f desk' =>
      desk'.console = desk.console ∧ (∃ given', Stage p (m :: done) desk'.contexts given') ∧
      ∃ start, p.Starts m start ∧ Addressed (creations p.members) m start f := by
  obtain ⟨chain, given', hstarts, hself, hother, hcontext, hworld, hlinked⟩ := h.start hp
  have hfresh : ∀ c ∈ creations done, c.function ≠ m.name := by
    intro c hc he
    obtain ⟨d, hd, hname⟩ := mem_creations hc
    have hnodup := hp ▸ p.names
    rw [List.map_append, List.map_cons] at hnodup
    exact (List.nodup_cons.1 (List.nodup_append.1 hnodup).2.1).1 (List.mem_map.2 ⟨d, hd, hname.symm.trans he⟩)
  have hincluded : creations done ++ m.creations <+: creations p.members := by
    rw [hp, creations_append, creations_cons]
    exact List.prefix_append _ _
  let g : Setting := ⟨m, creations done, creations p.members, chain, given', desk.console, hfresh, hincluded,
    p.Stands, fun _ => ⟨m, hp ▸ List.mem_append_right _ List.mem_cons_self, chain, hstarts, rfl, rfl⟩⟩
  refine (g.yields_decompile rfl ?_).mono ?_
  · rw [yields_startContext_known (Prod.ext hcontext rfl)]
    exact ⟨rfl, rfl, hworld, hlinked⟩
  · rintro f desk' ⟨hconsole, hworld', haddressed⟩
    exact ⟨hconsole, ⟨_, Stage.next (g := g) h hp hstarts hself hother hworld'⟩, chain, hstarts, haddressed⟩

/-- The functions before some place are decompiled, the last one first. -/
theorem Stage.yields_decompileEach {before done : List Member} (hp : p.members = before ++ done)
    {functions : Functions} {desk : Desk} {given : String → Option Chain} (h : Stage p done desk.contexts given)
    (hleft : ∀ m ∈ before, functions.get? m.name = some m.function) (hdone : ∀ m ∈ done, p.Settled functions m) :
    Yields (decompileEach (before.map Member.name).reverse functions) desk fun functions' desk' =>
      desk'.console = desk.console ∧ (∃ given', World p.Stands desk'.contexts (creations p.members) given') ∧
      ∀ m ∈ p.members, p.Settled functions' m := by
  induction before using List.reverseRecOn generalizing done functions desk given with
  | nil =>
    rw [List.nil_append] at hp
    rw [List.map_nil, List.reverse_nil, decompileEach, yields_pure]
    exact ⟨rfl, ⟨given, hp ▸ h.world⟩, fun m hm => hdone m (hp ▸ hm)⟩
  | append_singleton before m ih =>
    rw [List.append_assoc, List.singleton_append] at hp
    rw [List.map_append, List.map_singleton, List.reverse_append, List.reverse_singleton, List.singleton_append,
      decompileEach, hleft m (by simp)]
    simp only [yields_bind]
    obtain ⟨f, desk', hok, hconsole, ⟨given', hstage⟩, start, hstarts, haddressed⟩ := h.yields_decompile hp
    refine ⟨f, desk', hok, ?_⟩
    have hnodup := hp ▸ p.names
    rw [List.map_append, List.map_cons, List.nodup_append] at hnodup
    refine (ih hp hstage ?_ ?_).mono ?_
    · intro x hx
      have hne : m.name ≠ x.name := fun he =>
        hnodup.2.2 x.name (List.mem_map.2 ⟨x, hx, rfl⟩) m.name List.mem_cons_self he.symm
      rw [Table.get?_put, if_neg hne, hleft x (List.mem_append_left _ hx)]
    · intro x hx
      rcases List.mem_cons.1 hx with rfl | hd
      · exact ⟨start, f, hstarts, by rw [Table.get?_put, if_pos rfl], haddressed⟩
      · obtain ⟨start', f', hstarts', hf', haddressed'⟩ := hdone x hd
        have hne : m.name ≠ x.name := fun he =>
          (List.nodup_cons.1 hnodup.2.1).1 (List.mem_map.2 ⟨x, hd, he.symm⟩)
        exact ⟨start', f', hstarts', by rw [Table.get?_put, if_neg hne, hf'], haddressed'⟩
    · rintro functions' desk'' ⟨hc, hrest⟩
      exact ⟨hc.trans hconsole, hrest⟩

theorem get?_functions {m : Member} (h : m ∈ p.members) : p.functions.get? m.name = some m.function := by
  have hnodup : p.functions.keys.Nodup := by
    rw [Table.keys, functions, List.map_map]
    exact p.names
  rw [Table.get?_eq_some hnodup]
  exact List.mem_map.2 ⟨m, h, rfl⟩

theorem keys_functions (p : Program) : p.functions.keys = p.members.map Member.name := by
  rw [Table.keys, functions, List.map_map]
  rfl

theorem mem_creations_of_create {m : Member} (hm : m ∈ p.members) {line : Nat} {kind : Kind}
    (h : m.ops[line]? = some (.create kind)) : ⟨m.name, line⟩ ∈ creations p.members := by
  have hlt : line < m.ops.length := (List.getElem?_eq_some_iff.1 h).1
  refine List.mem_flatMap.2 ⟨m, List.mem_reverse.2 hm, List.mem_map.2 ⟨line, List.mem_filter.2 ?_, rfl⟩⟩
  rw [h]
  exact ⟨List.mem_range.2 hlt, rfl⟩

/-- The functions of a program are decompiled without a fault and without a word about a missing context. Each
starts in one chain of contexts, contexts that are made by different lines have different numbers, a line that makes
a context enters it under its number from the context around the line, and an access shows the number of the context
that its depth leads to, or 0 if it leads out of all contexts. -/
theorem decompileAll_addresses (p : Program) (globals : Globals) (console : Console) :
    ∃ functions desk, decompileAll p.functions { globals, console } = .ok functions desk ∧
      desk.console = console.printLine s!"Decompiling {p.members.length} functions." ∧
      desk.contexts.last = (creations p.members).length ∧
      (∀ m ∈ p.members, ∀ m' ∈ p.members, ∀ line line' kind kind', m.ops[line]? = some (.create kind) →
        m'.ops[line']? = some (.create kind') →
        number (creations p.members) ⟨m.name, line⟩ = number (creations p.members) ⟨m'.name, line'⟩ →
        m = m' ∧ line = line') ∧
      ∀ m ∈ p.members, ∃ start f, (∀ other, p.Starts m other ↔ other = start) ∧
        functions.get? m.name = some f ∧
        (∀ line kind, m.ops[line]? = some (.create kind) →
          desk.contexts.parents.get? (number (creations p.members) ⟨m.name, line⟩) =
            some (innermost (creations p.members) (m.chainAt start line) : Int)) ∧
        Addressed (creations p.members) m start f := by
  have hrun : Yields (decompileAll p.functions) { globals, console } fun functions desk =>
      desk.console = console.printLine s!"Decompiling {p.members.length} functions." ∧
      (∃ given, World p.Stands desk.contexts (creations p.members) given) ∧ ∀ m ∈ p.members, p.Settled functions m := by
    have hsize : p.functions.size = p.members.length := by simp [Table.size, functions]
    rw [decompileAll, yields_bind, yields_say, keys_functions, hsize]
    exact Stage.yields_decompileEach (List.append_nil _).symm (stage_nil p) (fun m hm => get?_functions hm) (by simp)
  obtain ⟨functions, desk, hok, hconsole, ⟨given, hworld⟩, hsettled⟩ := hrun
  refine ⟨functions, desk, hok, hconsole, hworld.last, ?_, ?_⟩
  · intro m hm m' hm' line line' kind kind' hline _ he
    obtain ⟨hname, rfl⟩ := Creation.mk.inj (number_inj (mem_creations_of_create hm hline) he)
    exact ⟨eq_of_name hm hm' hname, rfl⟩
  · intro m hm
    obtain ⟨start, f, hstarts, hf, haddressed⟩ := hsettled m hm
    refine ⟨start, f, fun other => ⟨fun hother => hother.unique hstarts, ?_⟩, hf, ?_, haddressed⟩
    · rintro rfl
      exact hstarts
    · intro line kind hline
      obtain ⟨_, ⟨m', hm', start', hstarts', hname, rfl⟩, _, hparent⟩ :=
        hworld.entered _ (mem_creations_of_create hm hline)
      cases eq_of_name hm hm' hname
      cases hstarts.unique hstarts'
      exact hparent

/-! ## A function within a block of another -/

def aroundCode : List CodeLine :=
  [{ instruction := "CreateFunctionContext [1], [2]" }, { instruction := "CreateBlockContext [3]" },
    { instruction := "CreateClosure [0], [0], #2" }, { instruction := "StaCurrentContextSlot [4]" }]

def withinCode : List CodeLine :=
  [{ instruction := "CreateFunctionContext [0], [1]" }, { instruction := "LdaContextSlot <context>, [2], [0]" },
    { instruction := "LdaContextSlot <context>, [4], [1]" }, { instruction := "StaContextSlot <context>, [5], [2]" },
    { instruction := "LdaContextSlot <context>, [6], [7]" }]

/-- It makes two contexts, and a function within the second one. -/
def around : Member where
  function :=
    { name := "around", pool := some ["within"], handlers := some {}, code := some aroundCode }
  pool := ["within"]
  code := aroundCode
  ops := [.create .function, .create .block, .closure 0, .access .store 4 none]
  pooled := rfl
  unguarded := rfl
  coded := rfl
  spelled := .cons ⟨by decide, ["[1]", "[2]"], by decide⟩ <| .cons ⟨by decide, ["[3]"], by decide⟩ <|
    .cons ⟨by decide, ["[0]", "#2"], by decide⟩ <| .cons ⟨by decide, [], by decide⟩ .nil
  readable := by decide
  entries := by simp

/-- It looks slots up in its own context, in those around it, and further out than there are any. -/
def within : Member where
  function :=
    { name := "within", declarer := some "around", pool := some [], handlers := some {}, code := some withinCode }
  pool := []
  code := withinCode
  ops := [.create .function, .access .load 2 (some 0), .access .load 4 (some 1), .access .store 5 (some 2),
    .access .load 6 (some 7)]
  pooled := rfl
  unguarded := rfl
  coded := rfl
  spelled := .cons ⟨by decide, ["[0]", "[1]"], by decide⟩ <| .cons ⟨by decide, [], by decide⟩ <|
    .cons ⟨by decide, [], by decide⟩ <| .cons ⟨by decide, [], by decide⟩ <| .cons ⟨by decide, [], by decide⟩ .nil
  readable := by decide
  entries := by simp

theorem captured?_within (line : Nat) : within.captured? line = none := by
  match line with
  | 0 | 1 | 2 | 3 | 4 | _ + 5 => rfl

theorem captured?_around {line : Nat} {name : String} (h : around.captured? line = some name) :
    line = 2 ∧ name = "within" := by
  match line with
  | 2 => exact ⟨rfl, (Option.some.inj h).symm⟩
  | 0 | 1 | 3 | _ + 4 => cases h

def blockProgram : Program where
  members := [within, around]
  names := by decide
  nested before m after h := by
    rcases before with _ | ⟨first, _ | ⟨second, before⟩⟩
    · obtain ⟨rfl, rfl⟩ := List.cons.inj h
      exact Or.inr ⟨around, List.mem_cons_self, rfl⟩
    · obtain ⟨_, h⟩ := List.cons.inj h
      obtain ⟨rfl, rfl⟩ := List.cons.inj h
      exact Or.inl ⟨rfl, rfl⟩
    · simp at h
  declared m hm line name h := by
    rcases List.mem_cons.1 hm with rfl | hm
    · rw [captured?_within] at h
      cases h
    · cases List.mem_singleton.1 hm
      exact ⟨within, List.mem_cons_self, (captured?_around h).2.symm, rfl⟩
  once m hm line line' name h h' := by
    rcases List.mem_cons.1 hm with rfl | hm
    · rw [captured?_within] at h
      cases h
    · cases List.mem_singleton.1 hm
      rw [(captured?_around h).1, (captured?_around h').1]

/-- The function starts in the context of the block in which it is made. -/
theorem starts_within : blockProgram.Starts within [⟨"around", 1⟩, ⟨"around", 0⟩] :=
  @Starts.captured blockProgram within around [] 2 (by simp [blockProgram]) rfl (.outermost rfl) rfl

/-- The contexts are numbered 1 and 2 around the function and 3 within it; the slots that the function looks up
one, two and seven steps out are in the contexts 2 and 1 and outside of all. -/
theorem decompileAll_addresses_blockProgram : ∃ functions desk f,
    decompileAll blockProgram.functions {} = .ok functions desk ∧ desk.contexts.last = 3 ∧
    desk.contexts.parents.get? 3 = some 2 ∧ functions.get? "within" = some f ∧
    (∃ line, f.lines[2]? = some line ∧ line.text = "\tACCU = Scope[3][2]") ∧
    (∃ line, f.lines[3]? = some line ∧ line.text = "\tACCU = Scope[2][4]") ∧
    (∃ line value, f.lines[4]? = some line ∧ line.text = "\tScope[1][5]" ++ " = " ++ value) ∧
    ∃ line, f.lines[5]? = some line ∧ line.text = "\tACCU = Scope[0][6]" := by
  obtain ⟨functions, desk, hok, _, hlast, _, hall⟩ := decompileAll_addresses blockProgram {} {}
  obtain ⟨start, f, hstart, hf, hentered, haddressed⟩ := hall within (by simp [blockProgram])
  obtain rfl := (hstart _).1 starts_within
  refine ⟨functions, desk, f, hok, hlast, hentered 0 .function rfl, hf, ?_, ?_, ?_, ?_⟩
  · exact haddressed 1 .load 2 (some 0) rfl
  · exact haddressed 2 .load 4 (some 1) rfl
  · obtain ⟨line, hline, value, hvalue⟩ := haddressed 3 .store 5 (some 2) rfl
    exact ⟨line, value, hline, hvalue⟩
  · exact haddressed 4 .load 6 (some 7) rfl

end Program

/-! ## Depths that are too long to be read -/

def readerLine (depth : Nat) : CodeLine :=
  { instruction := "LdaContextSlot" ++ " " ++ ("<context>" ++ ", " ++ ("[0]" ++ ", " ++ bracketed depth)) }

def reader (depth : Nat) : Function where
  name := "f"
  pool := some []
  handlers := some {}
  code := some [readerLine depth]

theorem spelled_readerLine (depth : Nat) : Op.Spelled (.access .load 0 (some depth)) (readerLine depth) := by
  have hcomma : ", ".toList = ',' :: [' '] := rfl
  have hlast : ',' ∉ (bracketed depth).toList := notMem_bracketed (by decide) (by decide) depth
  have hcut : cutAt? (readerLine depth).instruction " " =
      some ("LdaContextSlot", "<context>" ++ ", " ++ ("[0]" ++ ", " ++ bracketed depth)) :=
    cutAt?_append (show " ".toList = ' ' :: [] from rfl) (by decide) _
  have hsplit : split ("<context>" ++ ", " ++ ("[0]" ++ ", " ++ bracketed depth)) ", " =
      ["<context>", "[0]", bracketed depth] := by
    rw [split_append_mark hcomma (by decide), split_append_mark hcomma (by decide), split_eq_singleton hcomma hlast]
  constructor
  · rw [Instruction.operator, parts, hcut]
    rfl
  · refine ⟨[], ?_⟩
    rw [Instruction.operands, parts, hcut]
    exact hsplit

theorem not_yields_resolveScope {s : Sheet} {scope outer : Scope} {depth : Nat} {wanted : List Char → Sheet → Prop}
    (hd : ¬Short depth) : ¬Yields (resolveScope scope outer (Op.context (some depth))) s wanted := by
  have hne : Op.context (some depth) ≠ "CURRENT" := by simp [Op.context, ← String.toList_inj]
  rw [resolveScope, if_neg hne, split_context]
  simp only [yields_bind, SheetM.number, readInt?_toString_eq, if_neg hd, yields_need]
  rintro ⟨_, _, _, _, h, _⟩
  cases h

theorem not_yields_substituteLine {s : Sheet} {scope outer : Scope} {depth : Nat}
    {wanted : String × Scope × Writes → Sheet → Prop} (hd : ¬Short depth) :
    ¬Yields (substituteLine (Op.access .load 0 (some depth)).text scope outer {}) s wanted := by
  have htext : (Op.access .load 0 (some depth)).text = "ACCU = " ++ Op.reference 0 (some depth) ++ "" := by simp
  rw [substituteLine, yields_bind, htext, yields_resolveLine_reference
    (forall_mem_of_all (by decide)) (forall_mem_of_all (by decide))]
  exact not_yields_resolveScope hd

/-- The line of the function has its context resolved, which cannot be done. -/
theorem not_yields_substituteAll {depth : Nat} (h : ¬Short depth) (desk : Desk) (hc : desk.contexts = {}) :
    ¬Yields (substituteAll "f" none) ((reader depth).sheet
      (inBraces (rendering [readerLine depth] [(Op.access .load 0 (some depth)).text])) desk) fun _ _ => True := by
  have htext := not_brace_of_states (.cons (spelled_readerLine depth).states .nil) _ List.mem_cons_self
  intro hrun
  have hstart : ((reader depth).sheet (inBraces (rendering [readerLine depth]
      [(Op.access .load 0 (some depth)).text])) desk).contexts.start "f" none =
        (some 0, Contexts.setFunction {} "f" 0) := by
    rw [Function.sheet, hc]
    rfl
  rw [substituteAll, yields_bind, yields_startContext_known hstart] at hrun
  simp only [substituteBlock, withinBlock, yields_bind, yields_get, yields_ofExcept] at hrun
  obtain ⟨kind, hkind, hrun⟩ := hrun
  cases hkind
  rw [yields_enterBlock rfl rfl (by simp [Function.sheet, inBraces])] at hrun
  rw [substituteLines, yields_bind, @yields_nextLine _ 0 _ ["\x7d"] _ rfl rfl, if_neg htext.2, if_neg htext.1,
    yields_bind] at hrun
  exact not_yields_substituteLine h hrun

theorem fails_reader {depth : Nat} (h : ¬Short depth) : Run.fails (decompileAll ⟨[("f", reader depth)]⟩) {} = true := by
  have hlift := Function.lift_straight (f := reader depth) rfl rfl (.cons (spelled_readerLine depth).states .nil)
  by_contra hfails
  obtain ⟨functions, desk, hok⟩ := Run.exists_ok (Bool.eq_false_iff.2 hfails)
  have hrun : Yields (decompileAll ⟨[("f", reader depth)]⟩) {} fun _ _ => True := ⟨_, _, hok, trivial⟩
  have hkeys : (Table.keys (⟨[("f", reader depth)]⟩ : Functions)).reverse = ["f"] := rfl
  have hget : Table.get? (⟨[("f", reader depth)]⟩ : Functions) "f" = some (reader depth) := rfl
  simp only [decompileAll, hkeys, yields_bind, yields_say, decompileEach, hget, Function.decompile, yields_on] at hrun
  obtain ⟨lifted, console, hlifted, result, desk', hresult, _⟩ := hrun
  rw [hlift] at hlifted
  cases hlifted
  simp only [Function.substitute] at hresult
  split at hresult
  · next hsheet => exact not_yields_substituteAll h _ rfl ⟨_, _, hsheet, trivial⟩
  · cases hresult

/-- A depth of one digit more than can be read. -/
theorem decompileAll_long_depth : Run.fails (decompileAll ⟨[("f", reader (10 ^ digitLimit))]⟩) {} = true :=
  fails_reader fun h => Nat.lt_irrefl _ (short_iff.1 h)

end Bytelift.Lexical
