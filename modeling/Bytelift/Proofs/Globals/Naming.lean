import Bytelift.Proofs.Globals.Declaration
import Bytelift.Proofs.Lexical.Addressing
import Bytelift.Proofs.Listing.Text
import Bytelift.Proofs.Slot.Reference

/-! Globals are named alike in all functions. The function that is decompiled first declares them, before constants are
put into any line. -/

namespace Bytelift

open Run Text Substitution Instruction
open Globals (Listed declaration ofListed nameOf quote IsLabel resolve_ofListed)
open Slot (IsNumber)

namespace Function

/-! ## References -/

/-- A reference to the pool as it is written. -/
def written (literal : Bool) (index : String) : List Char :=
  (if literal then "ConstPoolLiteral" else "ConstPool").toList ++ '[' :: (index.toList ++ [']'])

variable {s t : List Char} {literal : Bool} {index : String} {f : Function} {put : Bool → String → List Char → Prop}

theorem bracketed_after {mark rest : List Char} : ((after? mark s).bind fun t => (bracketed? t).map fun e =>
    (String.ofList e.1, e.2)) = some (index, rest) ↔
      IsNumber index ∧ s = mark ++ '[' :: (index.toList ++ [']']) ++ rest := by
  constructor
  · intro h
    obtain ⟨t, ht, hinside⟩ := Option.bind_eq_some_iff.1 h
    obtain ⟨e, he, hpair⟩ := Option.map_eq_some_iff.1 hinside
    obtain ⟨hne, hd, rfl⟩ := bracketed?_eq_some.1 he
    cases hpair
    exact ⟨⟨by simpa using hne, by simpa using hd⟩, by simp [eq_append_of_after? ht]⟩
  · rintro ⟨hi, rfl⟩
    have hinside : bracketed? ('[' :: (index.toList ++ ']' :: rest)) = some (index.toList, rest) :=
      bracketed?_eq_some.2 ⟨hi.filled, hi.decimal, rfl⟩
    simp [after?_append, hinside]

theorem anyReference_eq_some {before : Option Char} {rest : List Char} :
    anyReference before s = some ((literal, index), rest) ↔ IsNumber index ∧ s = written literal index ++ rest := by
  constructor
  · intro h
    rcases (Option.orElse_eq_some _ _ _).1 h with h | ⟨_, h⟩
    all_goals
      obtain ⟨e, he, hpair⟩ := Option.map_eq_some_iff.1 h
      cases hpair
      exact bracketed_after.1 he
  · rintro ⟨hi, rfl⟩
    have hread := fun mark => @bracketed_after _ index mark rest |>.2 ⟨hi, rfl⟩
    cases literal with
    | true => exact congrArg (fun read => (read.map fun e => ((true, e.1), e.2)) <|> _) (hread _)
    | false => exact congrArg (Option.map fun e => ((false, e.1), e.2)) (hread _)

/-- A text with something put in for each reference, and all else as it was. -/
inductive Rendered (put : Bool → String → List Char → Prop) : List Char → List Char → Prop
  | nil : Rendered put [] []
  | plain {c : Char} {s t : List Char} (h : ∀ literal index rest, IsNumber index → c :: s ≠
      written literal index ++ rest) (hs : Rendered put s t) : Rendered put (c :: s) (c :: t)
  | reference {literal : Bool} {index : String} {s t x : List Char} (hi : IsNumber index)
      (hx : put literal index x) (hs : Rendered put s t) : Rendered put (written literal index ++ s) (x ++ t)

theorem rendered_self (h : ¬"ConstPool".toList <:+: s) : Rendered put s s := by
  induction s with
  | nil => exact .nil
  | cons c s ih =>
    refine .plain (fun literal index rest _ he => h ?_) (ih fun hin => h (List.infix_cons hin))
    rw [he]
    cases literal
    · exact ⟨[], _, rfl⟩
    · exact ⟨[], _, rfl⟩

theorem rendered_substituteM {act : Bool × String → Except Fault (List Char)} (s : List Char)
    (h : ∀ e ∈ hits anyReference s, ∃ x, act e = .ok x ∧ put e.1 e.2 x) :
    ∃ t, substituteM anyReference act s = .ok t ∧ Rendered put s t := by
  have hr := Lexical.readsPool_anyReference.toForward
  induction s using hr.induction with
  | nil => exact ⟨[], rfl, .nil⟩
  | plain c cs hnone ih =>
    obtain ⟨t, ht, hs⟩ := ih (by rwa [hr.hits_plain hnone] at h)
    refine ⟨c :: t, ?_, .plain (fun literal index rest hi he => ?_) hs⟩
    · rw [substituteM, hr.pieces_plain hnone, substituteM.go, ← substituteM, ht]
      rfl
    · rw [anyReference_eq_some.2 ⟨hi, he⟩] at hnone
      cases hnone
  | hit c cs a rest hread ih =>
    rw [hr.hits_hit hread, List.forall_mem_cons] at h
    obtain ⟨hi, he⟩ := anyReference_eq_some.1 hread
    obtain ⟨x, hx, hput⟩ := h.1
    obtain ⟨t, ht, hs⟩ := ih h.2
    refine ⟨x ++ t, ?_, he ▸ .reference hi hput hs⟩
    rw [substituteM, hr.pieces_hit hread, substituteM.go, ← substituteM, ht, hx]
    rfl

/-! ## Constants -/

/-- What a function shows for a reference, given what has been declared. -/
def Shows (f : Function) (listed : List Listed) (literal : Bool) (index : String) (shown : List Char) : Prop :=
  ∃ n, number index = .ok n ∧ match f.constant? n with
    | none => shown = written literal index
    | some constant => if literal then shown = constant.toList else
        ∀ name, IsLabel name → name ≠ "" → constant = quote name → shown = (nameOf listed name).toList

variable {listed : List Listed} {g : Globals} {lines : List CodeLine}

/-- Every index that is referred to can be read. -/
def Readable (f : Function) : Prop :=
  ∀ line ∈ f.lines, ∀ e ∈ hits anyReference line.text.toList, (readInt? e.2).isSome

theorem shows_constantText (hl : ∀ e ∈ listed, e.Fits) {e : Bool × String} (h : (readInt? e.2).isSome) :
    ∃ x, f.constantText (ofListed listed) e = .ok x ∧ f.Shows listed e.1 e.2 x := by
  obtain ⟨literal, index⟩ := e
  obtain ⟨n, hread⟩ := Option.isSome_iff_exists.1 h
  have hn : number index = .ok n := by rw [number, hread]
  simp only [constantText, Shows, hn, bind, Except.bind, Except.ok.injEq, exists_eq_left']
  cases f.constant? n with
  | none =>
    refine ⟨_, rfl, ?_⟩
    cases literal <;> simp [written]
  | some constant =>
    cases literal with
    | true => exact ⟨_, rfl, rfl⟩
    | false =>
      refine ⟨_, rfl, ?_⟩
      rintro name hname hne rfl
      exact congrArg String.toList (resolve_ofListed hl hname hne)

theorem rendered_putConstantsIn {line : CodeLine} (h : ∀ e ∈ hits anyReference line.text.toList,
      ∃ x, f.constantText g e = .ok x ∧ put e.1 e.2 x) :
    ∃ text, f.putConstantsIn g line = .ok { line with text } ∧ Rendered put line.text.toList text.toList := by
  by_cases hin : has line.text "ConstPool" = true
  · obtain ⟨t, ht, hr⟩ := rendered_substituteM _ h
    refine ⟨String.ofList t, ?_, by simpa using hr⟩
    rw [putConstantsIn, if_pos hin, ht]
    rfl
  · refine ⟨line.text, ?_, rendered_self fun hinf => hin (has_eq_true.2 hinf)⟩
    rw [putConstantsIn, if_neg hin]
    rfl

/-- A line of a function with constants in place of the references. -/
def ShowsLine (f : Function) (listed : List Listed) (j : Nat) (text : String) : Prop :=
  ∃ line, f.lines[j]? = some line ∧ Rendered (f.Shows listed) line.text.toList text.toList

/-! ## Functions -/

/-- A function before the constants are put in. -/
def draft (f : Function) : Run Desk Function := do
  (← Run.on Desk.console (fun desk console => { desk with console }) f.lift).substitute

/-- What has been declared has no part in a draft. -/
theorem decompile_of_draft {d : Function} {desk desk' : Desk} {g' : Globals} {b : Bool}
    (h : f.draft desk = .ok d desk') (hg : d.declareGlobals g d.lines = .ok (b, g'))
    (hl : d.putConstantsInAll g' d.lines = .ok lines) :
    f.decompile { desk with globals := g } = .ok { d with code := some lines } { desk' with globals := g' } := by
  obtain ⟨lifted, middle, hlift, hsubstitute⟩ := bind_eq_ok.1 h
  have hon : Run.on Desk.console (fun desk console => { desk with console }) f.lift { desk with globals := g } =
      .ok lifted { middle with globals := g } := by
    unfold Run.on at hlift ⊢
    split at hlift <;> cases hlift
    next hact => rw [hact]
  have hput : substitute lifted { middle with globals := g } = .ok d { desk' with globals := g } ∧
      d.code = some d.lines := by
    unfold substitute at hsubstitute ⊢
    split at hsubstitute
    · cases hsubstitute
    · dsimp only at hsubstitute
      split at hsubstitute <;> cases hsubstitute
      next hsheet =>
      refine ⟨?_, rfl⟩
      dsimp only
      rw [hsheet]
  rw [decompile, bind_of_ok hon, bind_of_ok hput.1]
  change EStateM.bind (ofExcept (d.takeUpGlobals g)) _ _ = _
  rw [takeUpGlobals, needCode, hput.2]
  change EStateM.bind (ofExcept (d.declareGlobals g d.lines)) _ _ = _
  rw [hg]
  change ofExcept (d.putConstants g') _ = _
  rw [putConstants, needCode, hput.2]
  change ofExcept (d.putConstantsInAll g' d.lines >>= _) _ = _
  rw [hl]
  rfl

/-- What the lines that declare globals refer to first. -/
def declared (f : Function) : List (Option String) :=
  (f.lines.filter fun line => has line.text "DeclareGlobals(").map fun line =>
    ((hits literalReference (strip line.text).toList).head?.bind readInt?).bind f.constant?

theorem declareGlobals_of_none (h : f.declared = []) : f.declareGlobals g f.lines = .ok (false, g) := by
  have hnone := List.filter_eq_nil_iff.1 (List.map_eq_nil_iff.1 h)
  rw [← List.append_nil f.lines, Lexical.declareGlobals_append fun line hm => by simpa using hnone line hm]
  rfl

theorem declareGlobals_of_declared (h : f.declared = [some (declaration listed)]) :
    ∃ b, f.declareGlobals {} f.lines = .ok (b, ofListed listed) := by
  obtain ⟨line, rest, hone, hline, hnil⟩ := List.map_eq_cons_iff.1 h
  obtain ⟨before, after, hlines, hbefore, hhas, hafter⟩ := List.filter_eq_cons_iff.1 hone
  obtain ⟨n, hn, hconstant⟩ := Option.bind_eq_some_iff.1 hline
  obtain ⟨index, hindex, hread⟩ := Option.bind_eq_some_iff.1 hn
  have hnumber : number index = .ok n := by rw [number, hread]
  rw [List.map_eq_nil_iff.1 hnil] at hafter
  rw [hlines, Lexical.declareGlobals_append fun other hm => by simpa using hbefore other hm, declareGlobals, hhas,
    ofListed]
  simp only [hindex, hnumber, bind, Except.bind, hconstant]
  cases hd : ({} : Globals).declare (declaration listed) with
  | mk some_declared g =>
    cases some_declared with
    | true => exact ⟨true, rfl⟩
    | false =>
      refine ⟨false, ?_⟩
      rw [← List.append_nil after]
      exact Lexical.declareGlobals_append fun other hm => by simpa using List.filter_eq_nil_iff.1 hafter other hm

/-- A function in which constants are shown, and its draft: line for line, with something in place of each reference. -/
def RenderedAs (listed : List Listed) (d shown : String × Function) : Prop :=
  shown.1 = d.1 ∧ shown.2.lines.length = d.2.lines.length ∧
    ∀ j line, shown.2.lines[j]? = some line → d.2.ShowsLine listed j (CodeLine.text line)

/-- A function is decompiled once it is drafted and the globals are known. -/
theorem decompile_rendered (hl : ∀ e ∈ listed, e.Fits) {d : Function} {desk desk' : Desk} {b : Bool}
    (h : f.draft desk = .ok d desk') (hd : d.Readable)
    (hg : d.declareGlobals g d.lines = .ok (b, ofListed listed)) (name : String) :
    ∃ r, RenderedAs listed (name, d) (name, r) ∧ f.decompile { desk with globals := g } =
      .ok r { desk' with globals := ofListed listed } := by
  have heach : ∀ j line, d.lines[j]? = some line → ∃ text, d.putConstantsIn
      (ofListed listed) line = .ok { line with text } ∧ d.ShowsLine listed j text := by
    intro j line hj
    obtain ⟨text, hok, hr⟩ := rendered_putConstantsIn fun e he =>
      shows_constantText hl (hd line (List.mem_of_getElem? hj) e he)
    exact ⟨text, hok, line, hj, hr⟩
  obtain ⟨shown, hshown, hlength, hall⟩ := Lexical.putConstantsInAll_ok heach
  exact ⟨{ d with code := some shown }, ⟨rfl, hlength, hall⟩, decompile_of_draft h hg hshown⟩

/-! ## All functions -/

/-- What is made of functions; the last one comes first. -/
def each (act : Function → Run Desk Function) : List (String × Function) → Run Desk (List (String × Function))
  | [] => return []
  | e :: rest => do
    let others ← each act rest
    return (e.1, ← act e.2) :: others

def draftAll (functions : Functions) : Run Desk (List (String × Function)) := do
  say s!"Decompiling {functions.size} functions."
  each draft functions.entries

/-- The last one of the functions declares the globals. -/
def Declaring (listed : List Listed) (drafts : List (String × Function)) : Prop :=
  (∀ d ∈ drafts.dropLast, d.2.declared = []) ∧
    (∃ root ∈ drafts.getLast?, root.2.declared = [some (declaration listed)]) ∧ ∀ d ∈ drafts, d.2.Readable

variable {act : Function → Run Desk Function} {left es drafts : List (String × Function)} {desk desk' : Desk}

theorem each_cons {e : String × Function} : each act (e :: es) desk = .ok drafts desk' ↔ ∃ others r middle,
    each act es desk = .ok others middle ∧ act e.2 middle = .ok r desk' ∧ drafts = (e.1, r) :: others := by
  constructor
  · intro h
    obtain ⟨others, middle, hothers, h⟩ := bind_eq_ok.1 h
    obtain ⟨r, _, hr, h⟩ := bind_eq_ok.1 h
    cases h
    exact ⟨others, r, middle, hothers, hr, rfl⟩
  · rintro ⟨others, r, middle, hothers, hr, rfl⟩
    exact bind_eq_ok.2 ⟨_, _, hothers, bind_eq_ok.2 ⟨_, _, hr, rfl⟩⟩

theorem get?_put_middle {e : String × Function} (hkey : e.1 ∉ left.map (·.1)) (r : Function) :
    Table.get? ⟨left ++ e :: es⟩ e.1 = some e.2 ∧ Table.put ⟨left ++ e :: es⟩ e.1 r = ⟨left ++ (e.1, r) :: es⟩ := by
  simp only [Table.get?, Table.put, Table.mk.injEq]
  induction left with
  | nil => simp [Table.findEntry, Table.putEntry]
  | cons x left ih =>
    simp only [List.map_cons, List.mem_cons, not_or] at hkey
    simpa [Table.findEntry, Table.putEntry, Ne.symm hkey.1] using ih hkey.2

theorem decompileEach_eq (hk : ((left ++ es).map (·.1)).Nodup) (names : List String) :
    decompileEach ((es.map (·.1)).reverse ++ names) ⟨left ++ es⟩ =
      each decompile es >>= fun shown => decompileEach names ⟨left ++ shown⟩ := by
  induction es generalizing left names with
  | nil => rfl
  | cons e rest ih =>
    have hrest := @ih (left ++ [e]) (by simpa using hk) (e.1 :: names)
    have hkey : e.1 ∉ left.map (·.1) := by
      rw [List.map_append, List.nodup_append] at hk
      exact fun hm => hk.2.2 e.1 hm e.1 (by simp) rfl
    simp only [List.append_assoc, List.singleton_append] at hrest
    rw [List.map_cons, List.reverse_cons, List.append_assoc, List.singleton_append, hrest, each]
    simp only [bind_assoc, pure_bind]
    congr 1
    funext others
    simp only [decompileEach, (get?_put_middle hkey e.2).1]
    congr 1
    funext r
    rw [(get?_put_middle hkey r).2]

theorem each_decompile (hl : ∀ e ∈ listed, e.Fits) (h : each draft es desk = .ok drafts desk')
    (hd : Declaring listed drafts) : ∃ shown, List.Forall₂ (RenderedAs listed) drafts shown ∧
      each decompile es { desk with globals := {} } = .ok shown { desk' with globals := ofListed listed } := by
  induction es generalizing drafts desk' with
  | nil =>
    cases h
    obtain ⟨-, ⟨root, hnone, -⟩, -⟩ := hd
    cases hnone
  | cons e rest ih =>
    obtain ⟨drafts, d, middle, hrest, hdraft, rfl⟩ := each_cons.1 h
    obtain ⟨hothers, ⟨root, hlast, hroot⟩, hread⟩ := hd
    obtain ⟨hreadable, hread⟩ := List.forall_mem_cons.1 hread
    cases rest with
    | nil =>
      cases hrest
      cases hlast
      obtain ⟨b, hg⟩ := declareGlobals_of_declared hroot
      obtain ⟨r, hr, hrun⟩ := decompile_rendered hl hdraft hreadable hg e.1
      exact ⟨[(e.1, r)], .cons hr .nil, each_cons.2 ⟨[], r, _, rfl, hrun, rfl⟩⟩
    | cons x rest =>
      obtain ⟨_, _, _, _, _, rfl⟩ := each_cons.1 hrest
      obtain ⟨hnone, hothers⟩ := List.forall_mem_cons.1 hothers
      obtain ⟨shown, hshown, hruns⟩ := ih hrest ⟨hothers, ⟨root, by simpa using hlast, hroot⟩, hread⟩
      obtain ⟨r, hr, hrun⟩ := decompile_rendered hl hdraft hreadable (declareGlobals_of_none hnone) e.1
      exact ⟨(e.1, r) :: shown, .cons hr hshown, each_cons.2 ⟨shown, r, _, hruns, hrun, rfl⟩⟩

/-- All functions are decompiled, and they show the names that the first one declares. -/
theorem decompileAll_shows_declared (hl : ∀ e ∈ listed, e.Fits) {functions : Functions} (hk : functions.keys.Nodup)
    {contexts : Contexts} {console : Console} (h : draftAll functions { contexts, console } = .ok drafts desk')
    (hd : Declaring listed drafts) :
    Yields (decompileAll functions) { contexts, console } fun result _ =>
      List.Forall₂ (RenderedAs listed) drafts result.entries := by
  obtain ⟨_, said, hsay, hdrafts⟩ := bind_eq_ok.1 h
  obtain ⟨shown, hshown, hrun⟩ := each_decompile hl hdrafts hd
  have hnames := @decompileEach_eq [] functions.entries hk []
  rw [List.append_nil] at hnames
  cases hsay
  exact ⟨⟨shown⟩, _, (congrFun hnames _).trans (bind_of_ok hrun), hshown⟩

def coded (instructions : List String) : List CodeLine := instructions.map fun instruction => { instruction }

def reading : Function :=
  { name := "func_f_0x2", declarer := some "func_start_0x1", pool := some ["\"a\"", "\"f\""], handlers := some {},
    code := some <| coded ["LdaGlobal [0], [0]", "Star r0", "LdaGlobal [1], [2]", "Return"] }

def declaring : Function :=
  { name := "func_start_0x1", pool := some ["[\"a\", func_f_0x2]"], handlers := some {},
    code := some <| coded ["LdaConstant [0]", "Star r1", "Mov <closure>, r2", "CallRuntime [DeclareGlobals], r1-r2",
      "LdaUndefined", "Return"] }

def pair : Functions := ⟨[(reading.name, reading), (declaring.name, declaring)]⟩

instance (f : Function) : Decidable f.Readable := List.decidableBAll _ _

instance (listed : List Listed) (drafts : List (String × Function)) : Decidable (Declaring listed drafts) :=
  inferInstanceAs (Decidable (_ ∧ _ ∧ _))

theorem decompileAll_shows_declared_pair : ∃ drafts desk, draftAll pair {} = .ok drafts desk ∧
    Yields (decompileAll pair) {} fun result _ =>
      List.Forall₂ (RenderedAs [.string "a", .function "f" "2"]) drafts result.entries := by
  have hrun : Run.fails (do
      if Declaring [.string "a", .function "f" "2"] (← draftAll pair) then return () else throw .noCode) {} =
      false := by decide +kernel
  obtain ⟨_, _, hok⟩ := Run.exists_ok hrun
  obtain ⟨drafts, desk, hdrafts, hchecked⟩ := bind_eq_ok.1 hok
  have hd : Declaring [.string "a", .function "f" "2"] drafts := by
    by_contra hnot
    rw [if_neg hnot] at hchecked
    cases hchecked
  exact ⟨drafts, desk, hdrafts, decompileAll_shows_declared (by decide) (by decide) hdrafts hd⟩

def referring (n : Nat) : Function := { name := "f", code := some [{ text := Lexical.poolText n }] }

/-- An index of one digit more than can be read. -/
theorem putConstants_fails_longIndex : ((referring (10 ^ digitLimit)).putConstants {}).isOk = false := by
  have hlong : ¬Short (10 ^ digitLimit) := fun hs => Nat.lt_irrefl _ (short_iff.1 hs)
  generalize 10 ^ digitLimit = n at hlong ⊢
  have hread := Lexical.anyReference_poolText n
  obtain ⟨c, cs, hs⟩ : ∃ c cs, (Lexical.poolText n).toList = c :: cs :=
    List.exists_cons_of_ne_nil (by simp [Lexical.poolText])
  rw [hs] at hread
  cases h : (referring n).putConstants {} with
  | error => rfl
  | ok f =>
    obtain ⟨lines, hlines, h⟩ := except_bind_eq_ok.1 h
    cases hlines
    obtain ⟨shown, hshown, -⟩ := except_bind_eq_ok.1 h
    obtain ⟨line, hline, -⟩ := except_bind_eq_ok.1 hshown
    rw [putConstantsIn, Lexical.poolText, if_pos (has_opening (by decide) _), ← Lexical.poolText, hs] at hline
    obtain ⟨text, htext, -⟩ := except_bind_eq_ok.1 hline
    rw [substituteM, Lexical.readsPool_anyReference.pieces_hit hread] at htext
    obtain ⟨x, hx, -⟩ := except_bind_eq_ok.1 htext
    obtain ⟨m, hm, -⟩ := except_bind_eq_ok.1 hx
    rw [number, readInt?_toString_eq, if_neg hlong] at hm
    cases hm

end Function

end Bytelift
