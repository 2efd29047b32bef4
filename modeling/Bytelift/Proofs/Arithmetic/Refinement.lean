import Bytelift.Proofs.Arithmetic.Lines
import Mathlib.Data.Int.Bitwise

/-! Straight-line arithmetic keeps its meaning. Whatever lines are hidden once values are put in, running the
lines that show returns what the instructions return. -/

namespace Bytelift

open Run Text Instruction Substitution

def Function.shown (f : Function) : List String := (f.lines.filter (·.shows)).map (·.text)

namespace Arithmetic

variable {α : Type} {m : Meaning α} {args : Nat → α} {env env' : Env α} {ops : List Op}

/-! ## Running the lines -/

theorem interpret_perform : ∀ {told : List (Place × Expr)} {env : Env α},
    perform (·.1) (fun env s => s.2.value? m env) told env = some env' → ∀ rest,
    interpret m (told.map (fun s => "\t" ++ (say s).line) ++ rest) env = interpret m rest env'
  | [], env, h, rest => by
    cases h
    rfl
  | (p, e) :: told, env, h, rest => by
    obtain ⟨v, hv, h⟩ := Option.bind_eq_some_iff.1 h
    have hwithin : "\t" ++ (say (p, e)).line = within (p.chars ++ (" = ".toList ++ e.chars)) := by
      rw [line_say, ← String.toList_inj]
      simp [within]
    rw [List.map_cons, List.cons_append, hwithin, interpret, read?_assign]
    change ((e.value? m env).bind fun v => interpret m _ (env.set p v)) = _
    rw [show e.value? m env = some v from hv, Option.bind_some, Env.set_eq]
    exact interpret_perform h rest

theorem interpret_result (e : Expr) (rest : List String) :
    interpret m (("\treturn " ++ e.text) :: rest) env = e.value? m env := by
  have hwithin : "\treturn " ++ e.text = within ("return ".toList ++ e.chars) := by
    rw [← String.toList_inj]
    simp [within, Expr.text]
  rw [hwithin, interpret, read?_result]
  rfl

/-- A place that keeps its value is not given it by a line that is hidden. -/
theorem settled_shown {marked : List ((Place × Expr) × Bool)} (hm : marked.map (·.1) = Trail.told [] ops)
    (ho : Orderly [] ops) (hh : ∀ s, (s, false) ∈ marked → (say s).Stands)
    (hf : Faithful m args (ops.foldl Trail.extend []) env) {q : Place}
    (hq : Trail.Settled (ops.foldl Trail.extend []) q) : ¬∃ e, ((q, e), false) ∈ marked := by
  rintro ⟨e, he⟩
  have hconstant : isConstant q.text e.text = true := (hh _ he).2
  have hmem : (q, e) ∈ Trail.told [] ops := hm ▸ List.mem_map_of_mem he
  cases q with
  | accumulator =>
    obtain ⟨_, _, hc⟩ := hq
    rw [Trail.isConstant_accumulator] at hc
    cases hc
  | slot s =>
    cases s with
    | argument n => exact hf.unwritten n (List.mem_map_of_mem (Trail.mem_foldl_extend.2 (Or.inr hmem)))
    | register n =>
      obtain ⟨e', he', hc⟩ := hq
      have he' := (Trail.mem_foldl_extend.1 he').resolve_left (by simp)
      have hsymm : Std.Symm fun s t : Place × Expr => s.1 = t.1 → s.1 = .accumulator :=
        ⟨fun a b hab hba => hba ▸ hab hba.symm⟩
      have hsame : (Place.slot (.register n), e) = (.slot (.register n), e') := by
        by_contra hne
        cases (@Trail.told_once ops [] ho).2.forall hmem he' hne rfl
      cases hsame
      rw [hconstant] at hc
      cases hc

/-- Going through the lines of the instructions, and then running what shows. -/
theorem interpret_finish (m : Meaning α) (args : Nat → α) {code : List CodeLine}
    (hv : ∀ line ∈ code, line.visible = true) (hl : code.length = ops.length + 1) (ho : Orderly [] ops) :
    ∃ value, execute m ops (given args) = some value ∧ interpret m (Substitution.shown ((Page.start (inBraces code)).run
      ((ops.map fun op => say (op.target, op.value)).map (·.line) ++ ["return ACCU"])).finish) (given args) =
        some value := by
  obtain ⟨env, hfaithful, hperform, hexecute, haccumulator⟩ := (faithful_nil m args).run ho
  obtain ⟨value, hvalue⟩ := hfaithful.valued _ haccumulator
  have hstart : Trail.On [] (Page.start (inBraces code)) := ⟨rfl, fun _ => rfl⟩
  obtain ⟨hsay, hon⟩ := hstart.run (faithful_nil m args).grounded ho
  obtain ⟨⟨k, e⟩, hk⟩ : ∃ known, (ops.foldl Trail.extend []).knownAt .accumulator = some known := by
    cases hk : (ops.foldl Trail.extend []).knownAt .accumulator with
    | some known => exact ⟨known, rfl⟩
    | none =>
      obtain ⟨e, _, hc⟩ := Trail.exists_of_knownAt_eq_none haccumulator hk
      rw [Trail.isConstant_accumulator] at hc
      cases hc
  have hknown := hfaithful.known (Option.map_eq_some_iff.2 ⟨_, hk, rfl⟩)
  obtain ⟨older, hsuffix, _⟩ := Trail.knownAt_eq_some hk
  have hheld := hon.held .accumulator
  rw [hk] at hheld
  obtain ⟨marked, result, hmarked, hshown, hhidden, hresult⟩ := Page.shown_finish hv (by simpa using hl)
    (fun s hs => by obtain ⟨op, _, rfl⟩ := List.mem_map.1 hs; exact sound_say _) hsay (fun s _ => sound_say s)
    (by rw [List.map_map]; exact hheld) rfl
  have hsettled : ∀ {s : Place × Expr}, s ∈ ops.foldl Trail.extend [] → ∀ {seen env' : Env α},
      (∀ q, (¬∃ e, ((q, e), false) ∈ marked) → seen q = env' q) → s.2.value? m seen = s.2.value? m env' :=
    fun hs _ _ hseen => Expr.value?_congr m fun q hq =>
      hseen q (settled_shown hmarked ho hhidden hfaithful (hfaithful.grounded.settled hs q hq))
  have hmem : ∀ {s b}, (s, b) ∈ marked → s ∈ ops.foldl Trail.extend [] := fun hs =>
    Trail.mem_foldl_extend.2 (Or.inr (hmarked ▸ List.mem_map_of_mem hs))
  obtain ⟨seen, hseen, hagree⟩ := @perform_shown _ _ _ _ _ _ (fun q => ∃ e, ((q, e), false) ∈ marked) marked _ env
    (given args) (fun s hs => ⟨s.2, hs⟩) (fun s hs _ _ => hsettled (hmem hs)) (fun _ _ => rfl) (hmarked ▸ hperform)
  refine ⟨value, hexecute.trans hvalue, ?_⟩
  have hopen : ∀ rest env, interpret m ("\x7b" :: rest) env = interpret m rest env := fun _ _ => rfl
  rw [hshown, hopen, interpret_perform hseen]
  rcases hresult with rfl | ⟨⟨p, e'⟩, hp, _, hne, he, rfl⟩
  · rw [interpret_result, hsettled (hsuffix.subset List.mem_cons_self) hagree, hknown, hvalue]
  · have hother : p ≠ .accumulator := fun h => hne (by rw [h]; rfl)
    have hnot : ¬∃ e, ((p, e), false) ∈ marked := by
      rintro ⟨e', he'⟩
      refine @shown_once _ _ (·.1) marked p ?_ _ _ hp rfl he' rfl
      rw [hmarked]
      exact (@Trail.told_once ops [] ho).2.imp fun h hst hs => hother (hs.symm.trans (h hst))
    cases Expr.text_injective he
    rw [show (say (p, e)).name = (Expr.place p).text from rfl, interpret_result, Expr.value?, hagree p hnot, ← hvalue,
      ← hknown]
    cases p with
    | accumulator => exact absurd rfl hother
    | slot s =>
      cases s with
      | argument n => exact absurd (List.mem_map_of_mem (hmem hp)) (hfaithful.unwritten n)
      | register n => exact (hfaithful.kept (hmem hp)).symm

/-! ## From instructions to pseudocode -/

/-- Straight-line arithmetic, where what is read was written before and no register is written twice, is
decompiled without a fault; and the lines that show then return, for all arguments, the value that the
instructions return. -/
theorem interpret_shown_eq_execute (m : Meaning α) (args : Nat → α) {f : Function} {lines : List CodeLine}
    {last : CodeLine} {ops : List Op} (hc : f.code = some (lines ++ [last])) (hh : f.handlers = some {})
    (hv : ∀ line ∈ lines ++ [last], line.visible = true) (hl : List.Forall₂ (fun line op => op.Spelled line) lines ops)
    (hr : operator last = "Return") (ho : Orderly [] ops) (desk : Desk) :
    ∃ lifted result desk' value, f.lift desk.console = .ok lifted desk.console ∧
      lifted.substitute desk = .ok result desk' ∧ execute m ops (given args) = some value ∧
      interpret m result.shown (given args) = some value := by
  have hstates : List.Forall₂ States (lines ++ [last])
      (ops.map (fun op => String.ofList op.chars) ++ ["return ACCU"]) := by
    refine List.rel_append (List.forall₂_map_right_iff.2 (hl.imp fun _ op h => h.states)) ?_
    exact .cons (states_return hr) .nil
  have hcount : (rendering (lines ++ [last]) (ops.map (fun op => String.ofList op.chars) ++ ["return ACCU"])).length =
      ops.length + 1 := by
    simpa using congrArg List.length (rendered_rendering hstates)
  have hresolves : List.Forall₂ (Page.Resolves (f.startIn desk))
      (ops.map (fun op => String.ofList op.chars) ++ ["return ACCU"])
      ((ops.map fun op => say (op.target, op.value)).map (·.line) ++ ["return ACCU"]) := by
    refine List.rel_append ?_ (.cons (Page.resolves_plain (by simp) _) .nil)
    rw [List.map_map, List.forall₂_map_left_iff, List.forall₂_map_right_iff]
    refine List.forall₂_same.2 fun op _ => ?_
    rw [Function.comp_apply, line_say]
    refine Page.resolves_plain (fun c hc => ?_) _
    have hout := forall_mem_of_all (P := fun c => c.isDigit = false ∧ c ∉ '=' :: marks) (by decide) c hc
    rw [String.toList_ofList]
    exact op.notMem_chars hout.1 hout.2
  obtain ⟨lifted, desk', hlift, hsubstitute⟩ := Function.substitute_straight hc hh hstates hresolves
  obtain ⟨value, hexecute, hinterpret⟩ := interpret_finish m args (visible_rendering hv _) hcount ho
  exact ⟨lifted, _, desk', value, hlift, hsubstitute, hexecute, hinterpret⟩

/-! ## Integers -/

def integers : Meaning Int where
  number := id
  apply
    | .add => (· + ·)
    | .sub => (· - ·)
    | .mul => (· * ·)
    | .mod => Int.tmod
    | .bitAnd => Int.land
    | .bitOr => Int.lor
    | .bitXor => Int.xor

/-- Instructions that compute from an argument, with values that are known and others that are not. -/
def doublingLines : List CodeLine :=
  [{ instruction := "Ldar a0" }, { instruction := "Add a0, [0]" }, { instruction := "Star r0" },
    { instruction := "LdaSmi [7]" }, { instruction := "Star r1" }, { instruction := "Ldar r0" },
    { instruction := "Mul r1, [1]" }, { instruction := "SubSmi [-3], [2]" }, { instruction := "Star r2" }]

def doubling : Function where
  name := "f"
  handlers := some {}
  code := some (doublingLines ++ [{ instruction := "Return" }])

def doublingOps : List Op :=
  [.load (.argument 0), .binary .add (.argument 0), .store 0, .number 7, .store 1, .load (.register 0),
    .binary .mul (.register 1), .immediate .sub (-3), .store 2]

theorem spelled_doubling : List.Forall₂ (fun line op => Op.Spelled op line) doublingLines doublingOps :=
  .cons ⟨by decide, [], by decide⟩ <| .cons ⟨by decide, ["[0]"], by decide⟩ <| .cons ⟨by decide, [], by decide⟩ <|
    .cons ⟨by decide, [], by decide⟩ <| .cons ⟨by decide, [], by decide⟩ <| .cons ⟨by decide, [], by decide⟩ <|
    .cons ⟨by decide, ["[1]"], by decide⟩ <| .cons ⟨by decide, ["[2]"], by decide⟩ <|
    .cons ⟨by decide, [], by decide⟩ .nil

theorem interpret_shown_doubling : Orderly [] doublingOps ∧
    List.Forall₂ (fun line op => Op.Spelled op line) doublingLines doublingOps ∧
    execute integers doublingOps (given fun _ => 5) = some 73 ∧
    ∃ lifted result desk', doubling.lift {} = .ok lifted {} ∧ lifted.substitute {} = .ok result desk' ∧
      interpret integers result.shown (given fun _ => 5) = some 73 := by
  have ho : Orderly [] doublingOps := by decide
  have hexecute : execute integers doublingOps (given fun _ => 5) = some 73 := by decide
  obtain ⟨lifted, result, desk', value, hlift, hsubstitute, hvalue, hresult⟩ :=
    interpret_shown_eq_execute integers (fun _ => 5) (f := doubling) rfl rfl (by decide) spelled_doubling
      (by decide) ho {}
  rw [hexecute] at hvalue
  cases hvalue
  exact ⟨ho, spelled_doubling, hexecute, lifted, result, desk', hlift, hsubstitute, hresult⟩

end Arithmetic

end Bytelift
