import Bytelift.Proofs.Lexical.Program
import Bytelift.Proofs.Straight

/-! The lines of a function under substitution. The current context of the scope is the innermost one of the
chain around the line, a line that makes a context adds to the chain, and a slot is looked up along it. -/

namespace Bytelift.Lexical

open Run Text Instruction Substitution Substitution.SheetM

/-! ## References -/

section References

variable {s : Sheet} {scope outer : Scope}

theorem split_context (depth : Nat) : split (Op.context (some depth)) "-" = ["CURRENT", toString depth] := by
  have hno : '-' ∉ (toString depth).toList := fun hm => ne_of_mem_toString hm (by decide) rfl
  have hchars : (Op.context (some depth)).toList = "CURRENT".toList ++ '-' :: (toString depth).toList := by
    rw [Op.context, String.toList_append]
    rfl
  have hmark : "-".toList = ['-'] := rfl
  rw [split, hchars, hmark, splitAll_append, splitAll_of_notMem (by decide), splitAll_of_notMem hno]
  simp only [List.singleton_append, List.map_cons, List.map_nil, String.ofList_toList]

theorem yields_number {n : Nat} (h : Short n) {wanted : Int → Sheet → Prop} :
    Yields (SheetM.number (toString n)) s wanted ↔ wanted n s := by
  rw [SheetM.number, readInt?_toString_eq, if_pos h, yields_need]
  simp only [Option.some.injEq, exists_eq_left']

/-- The context that an access names is found by going outward from the current one. -/
theorem yields_resolveScope {current : Int} {depth : Option Nat} {wanted : List Char → Sheet → Prop}
    (hc : scope.get? contextName = some (.context current)) (hs : scope.get? "CURRENT" = none)
    (ho : outer.get? "CURRENT" = none) (hd : ∀ d ∈ depth, Short d) :
    Yields (resolveScope scope outer (Op.context depth)) s wanted ↔
      wanted ("Scope[" ++ toString (s.contexts.outward current (depth.getD 0)) ++ "]").toList s := by
  have hcurrent : ∀ {wanted : Int → Sheet → Prop}, Yields (currentContext scope) s wanted ↔ wanted current s := by
    intro wanted
    rw [currentContext, hc]
    exact yields_pure
  cases depth with
  | none =>
    rw [resolveScope, if_pos (show Op.context none = "CURRENT" from rfl), yields_bind, hcurrent, yields_pure]
    rfl
  | some depth =>
    have hne : Op.context (some depth) ≠ "CURRENT" := by simp [Op.context, ← String.toList_inj]
    rw [resolveScope, if_neg hne, split_context]
    simp only [namedContext, heldContext?, hs, ho, yields_bind, hcurrent, yields_pure, Option.getD_none,
      yields_number (hd depth rfl), yields_get, Int.toNat_natCast, Option.getD_some]
    rfl

end References

/-! ## References to the constant pool -/

/-- A recogniser of references to the constant pool. -/
structure ReadsPool {α : Type} (r : Recogniser α) : Prop extends Forward r where
  marked : ∀ {s}, after? "ConstPool".toList s = none → r none s = none

/-- No reference to the pool starts in a text, whatever follows it: a `C` in it is followed by another letter. -/
def Apart : List Char → Prop
  | [] => True
  | c :: cs => (c = 'C' → ∃ d ∈ cs.head?, d ≠ 'o') ∧ Apart cs

theorem apart_of_notMem {text : List Char} (h : 'C' ∉ text) : Apart text := by
  induction text with
  | nil => trivial
  | cons c cs ih =>
    rw [List.mem_cons, not_or] at h
    exact ⟨fun he => absurd he.symm h.1, ih h.2⟩

theorem ReadsPool.pieces_apart {α : Type} {r : Recogniser α} (hr : ReadsPool r) {text : List Char} (h : Apart text)
    (rest : List Char) : pieces r (text ++ rest) = text.map .plain ++ pieces r rest := by
  induction text with
  | nil => rfl
  | cons c cs ih =>
    have hnone : after? "ConstPool".toList (c :: (cs ++ rest)) = none := by
      by_cases hc : c = 'C'
      · subst hc
        obtain ⟨d, hd, hne⟩ := h.1 rfl
        obtain ⟨ds, rfl⟩ : ∃ ds, cs = d :: ds := by
          cases cs with
          | nil => cases hd
          | cons e es => exact ⟨es, by rw [Option.mem_some_iff.1 hd]⟩
        simp [after?, hne.symm]
      · have hne : ¬ 'C' = c := fun he => hc he.symm
        simp [after?, hne]
    rw [List.cons_append, hr.pieces_plain (hr.marked hnone), ih h.2]
    rfl

def poolText (index : Nat) : String := "ConstPool" ++ bracketed index

theorem bracketed?_bracketed (n : Nat) : bracketed? (bracketed n).toList = some ((toString n).toList, []) := by
  have hchars : (bracketed n).toList = ['['] ++ ((toString n).toList ++ [']']) := by
    simp [bracketed]
  have hends : Ends [']'] := ends_cons (by decide)
  rw [hchars, bracketed?, after?_append, Option.bind_some, digits?_toString n hends]
  rfl

theorem bracketed?_leaves {s ds rest : List Char} (h : bracketed? s = some (ds, rest)) :
    ∃ claimed, s = claimed ++ rest := by
  obtain ⟨after, hafter, h⟩ := Option.bind_eq_some_iff.1 h
  obtain ⟨⟨_, more⟩, hdigits, h⟩ := Option.bind_eq_some_iff.1 h
  obtain ⟨last, hlast, he⟩ := Option.map_eq_some_iff.1 h
  cases he
  refine ⟨['['] ++ ds ++ [']'], ?_⟩
  rw [eq_append_of_after? hafter, (digits?_eq_some hdigits).1, eq_append_of_after? hlast]
  simp

theorem readsPool_poolReference : ReadsPool poolReference where
  blind _ _ := rfl
  leaves := by
    intro c cs a rest h
    obtain ⟨after, hafter, h⟩ := Option.bind_eq_some_iff.1 h
    obtain ⟨⟨ds, more⟩, hds, he⟩ := Option.map_eq_some_iff.1 h
    cases he
    obtain ⟨claimed, rfl⟩ := bracketed?_leaves hds
    have hs := eq_append_of_after? hafter
    exact ⟨"onstPool".toList ++ claimed, by rw [List.append_assoc]; exact (List.cons.inj hs).2⟩
  marked h := by rw [poolReference, h, Option.bind_none]

theorem poolReference_poolText (index : Nat) :
    poolReference none (poolText index).toList = some (toString index, []) := by
  rw [poolText, String.toList_append, poolReference, after?_append, Option.bind_some, bracketed?_bracketed,
    Option.map_some]
  simp only [String.ofList_toList]

/-! ## One function -/

def scopeText (k : Nat) : String := "Scope[" ++ toString k ++ "]"

def slotText (k slot : Nat) : String := scopeText k ++ bracketed slot

/-- What the accumulator can hold. -/
inductive Value where
  | unset
  | context (k : Nat)
  | slot (k slot : Nat)
  | closure (index : Nat)
  deriving DecidableEq, Repr

namespace Value

def text : Value → String
  | .unset => "ACCU"
  | .context k => scopeText k
  | .slot k i => slotText k i
  | .closure index => poolText index

def Readable : Value → Prop
  | .closure index => Short index
  | _ => True

end Value

/-- What stays the same while one function is gone through. -/
structure Setting where
  member : Member
  /-- The contexts that were made before, and those that are made in the end. -/
  made : List Creation
  all : List Creation
  start : Chain
  given : String → Option Chain
  console : Console
  fresh : ∀ c ∈ made, c.function ≠ member.name
  included : made ++ member.creations <+: all
  /-- Where each context is made. -/
  stands : Creation → Chain → Prop
  placed : ∀ n, stands ⟨member.name, n⟩ (member.chainAt start n)

namespace Setting

variable (g : Setting)

def madeAt (n : Nat) : List Creation := g.made ++ g.member.created n

def chainAt (n : Nat) : Chain := g.member.chainAt g.start n

def givenAt : Nat → String → Option Chain
  | 0 => g.given
  | n + 1 =>
    match g.member.captured? n with
    | some name => Function.update (givenAt n) name (some (g.chainAt n))
    | none => givenAt n

/-- The number of the context that lies a number of steps out of a line. -/
def numberAt (n : Nat) (depth : Option Nat) : Nat := innermost g.all ((g.chainAt n).drop (depth.getD 0))

def target (n : Nat) : Op → String
  | .access .store slot depth => slotText (g.numberAt n depth) slot
  | _ => "ACCU"

/-- What stands for the value in the line, before the accumulator is read. -/
def source (n : Nat) : Op → Value
  | .create _ => .context (g.numberAt n none)
  | .closure index => .closure index
  | .access .load slot depth => .slot (g.numberAt n depth) slot
  | .access .store _ _ => .unset

/-- What a line reads as in the end. -/
def Says (n : Nat) (op : Op) (text : String) : Prop :=
  ∃ value : Value, value.Readable ∧ (g.source n op ≠ .unset → value = g.source n op) ∧
    text = "\t" ++ (g.target n op ++ " = " ++ value.text)

variable {g} {n : Nat} {op : Op}

theorem madeAt_included (hn : n ≤ g.member.ops.length) : g.madeAt n <+: g.all :=
  ((List.prefix_append_right_inj g.made).2 (Member.created_append hn)).trans g.included

theorem madeAt_succ (h : g.member.ops[n]? = some op) :
    g.madeAt (n + 1) = g.madeAt n ++ if op.creates then [⟨g.member.name, n⟩] else [] := by
  rw [madeAt, Member.created_succ, h, madeAt, List.append_assoc]
  rfl

theorem chainAt_succ (h : g.member.ops[n]? = some op) :
    g.chainAt (n + 1) = (if op.creates then [⟨g.member.name, n⟩] else []) ++ g.chainAt n := by
  rw [chainAt, Member.chainAt, Member.created_succ, h, Option.any_some, List.reverse_append, chainAt, Member.chainAt,
    List.append_assoc]
  cases op.creates <;> rfl

theorem givenAt_succ (h : g.member.ops[n]? = some op) (hc : ∀ index, op ≠ .closure index) :
    g.givenAt (n + 1) = g.givenAt n := by
  have hnone : g.member.captured? n = none := by
    rw [Member.captured?, h]
    cases op with
    | closure index => exact absurd rfl (hc index)
    | create _ | access _ _ _ => rfl
  rw [givenAt, hnone]

theorem fresh_line (n : Nat) : (⟨g.member.name, n⟩ : Creation) ∉ g.madeAt n := by
  intro hm
  rcases List.mem_append.1 hm with hm | hm
  · exact g.fresh _ hm rfl
  · exact Nat.lt_irrefl n (Member.mem_created hm).2

end Setting

/-- The contexts at a line. -/
structure Within (g : Setting) (n : Nat) (scope : Scope) (s : Sheet) : Prop where
  world : World g.stands s.contexts (g.madeAt n) (g.givenAt n)
  linked : Linked s.contexts (g.madeAt n) (g.chainAt n)
  current : scope.get? contextName = some (.context (innermost (g.madeAt n) (g.chainAt n)))

variable {g : Setting} {n : Nat} {op : Op} {scope outer : Scope} {s : Sheet}

/-- What is found by going outward. -/
theorem Within.outward (h : Within g n scope s) (hn : n ≤ g.member.ops.length) (depth : Option Nat) :
    s.contexts.outward (innermost (g.madeAt n) (g.chainAt n)) (depth.getD 0) = g.numberAt n depth := by
  obtain ⟨new, hall⟩ := Setting.madeAt_included hn
  rw [h.world.outward h.linked, Setting.numberAt, ← hall, innermost_append (h.linked.drop _)]

theorem Within.next (h : Within g n scope s) (hop : g.member.ops[n]? = some op) (hc : op.creates = false)
    (hn : ∀ index, op ≠ .closure index) : Within g (n + 1) scope s := by
  have hmade : g.madeAt (n + 1) = g.madeAt n := by rw [Setting.madeAt_succ hop, hc]; simp
  have hchain : g.chainAt (n + 1) = g.chainAt n := by rw [Setting.chainAt_succ hop, hc]; simp
  have hgiven : g.givenAt (n + 1) = g.givenAt n := Setting.givenAt_succ hop hn
  exact ⟨by rw [hmade, hgiven]; exact h.world, by rw [hmade, hchain]; exact h.linked,
    by rw [hmade, hchain]; exact h.current⟩

theorem context_ne_nil (depth : Option Nat) : (Op.context depth).toList ≠ [] := by
  cases depth <;> simp [Op.context]

theorem notMem_context {c : Char} (hd : c.isDigit = false) (hc : c ∉ "CURRENT-".toList) (depth : Option Nat) :
    c ∉ (Op.context depth).toList := by
  intro hm
  cases depth with
  | none => exact hc (List.mem_append_left ['-'] hm)
  | some depth =>
    rw [Op.context, String.toList_append] at hm
    rcases List.mem_append.1 hm with hm | hm
    · exact hc hm
    · exact ne_of_mem_toString hm hd rfl

theorem notMem_bracketed {c : Char} (hd : c.isDigit = false) (hc : c ∉ ['[', ']']) (n : Nat) :
    c ∉ (bracketed n).toList := by
  intro hm
  rw [bracketed, String.toList_append, String.toList_append] at hm
  rcases List.mem_append.1 hm with hm | hm
  · rcases List.mem_append.1 hm with hm | hm
    · exact hc (List.mem_cons.2 (Or.inl (List.mem_singleton.1 hm)))
    · exact ne_of_mem_toString hm hd rfl
  · exact hc (List.mem_cons_of_mem _ hm)

/-! ## Resolving the contexts of a line -/

def Setting.resolved (g : Setting) (n : Nat) (op : Op) : String := g.target n op ++ " = " ++ (g.source n op).text

/-- A reference to a slot gets the number of its context. -/
theorem Within.yields_resolveScope (h : Within g n scope s) (hn : n ≤ g.member.ops.length)
    (hs : scope.get? "CURRENT" = none) (ho : outer.get? "CURRENT" = none) {depth : Option Nat}
    (hd : ∀ d ∈ depth, Short d) {wanted : List Char → Sheet → Prop} :
    Yields (resolveScope scope outer (Op.context depth)) s wanted ↔ wanted (scopeText (g.numberAt n depth)).toList
    s := by
  rw [Lexical.yields_resolveScope h.current hs ho hd, h.outward hn]
  rfl

/-- A line around one reference to a slot. -/
theorem yields_resolveLine_reference {slot : Nat} {depth : Option Nat} {before after : String}
    (hb : ∀ c ∈ ['P', 'S', 'w'], c ∉ before.toList) (ha : ∀ c ∈ ['P', 'S', 'w'], c ∉ after.toList)
    {wanted : String × Scope → Sheet → Prop} :
    Yields (resolveLine (before ++ Op.reference slot depth ++ after) scope outer) s wanted ↔
      Yields (resolveScope scope outer (Op.context depth)) s fun cs t =>
        wanted (before ++ (String.ofList cs ++ bracketed slot) ++ after, scope) t := by
  have hchars : before ++ Op.reference slot depth ++ after = String.ofList (before.toList ++ ("Scope[".toList ++
      ((Op.context depth).toList ++ ']' :: ((bracketed slot).toList ++ after.toList)))) := by
    rw [← String.toList_inj]
    simp [Op.reference]
  have hletters : ∀ c ∈ ['P', 'S', 'w'], c.isDigit = false ∧ c ∉ ['[', ']'] ∧ c ∉ "CURRENT-".toList :=
    forall_mem_of_all (by decide)
  have hslot : ∀ c ∈ ['P', 'S', 'w'], c ∉ (bracketed slot).toList ++ after.toList := by
    intro c hc hm
    exact (List.mem_append.1 hm).elim (notMem_bracketed (hletters c hc).1 (hletters c hc).2.1 slot) (ha c hc)
  have hline : ∀ c ∈ ['P', 'w'], c ∉ (before ++ Op.reference slot depth ++ after).toList := by
    have hscope : ∀ c ∈ ['P', 'w'], c ∈ ['P', 'S', 'w'] ∧ c ∉ "Scope[".toList := forall_mem_of_all (by decide)
    intro c hc hm
    have hletter := (hscope c hc).1
    rw [hchars, String.toList_ofList] at hm
    simp only [List.mem_append, List.mem_cons] at hm
    rcases hm with hm | hm | hm | rfl | hm
    · exact hb c hletter hm
    · exact (hscope c hc).2 hm
    · exact notMem_context (hletters c hletter).1 (hletters c hletter).2.2 depth hm
    · revert hletter
      decide
    · exact hslot c hletter (List.mem_append.2 hm)
  have hresult : ∀ cs : List Char, String.ofList (before.toList ++ (cs ++ ((bracketed slot).toList ++ after.toList))) =
      before ++ (String.ofList cs ++ bracketed slot) ++ after := by
    intro cs
    rw [← String.toList_inj]
    simp
  rw [yields_resolveLine (hline 'P' (by simp)) (hline 'w' (by simp)), hchars,
    yields_resolveScopes (hb 'S' (by simp)) (hslot 'S' (by simp)) (context_ne_nil depth)
      (notMem_context (by decide) (by decide) depth), String.ofList_toList]
  simp only [hresult]

theorem Within.yields_resolveLine_access (h : Within g n scope s) {direction : Direction} {slot : Nat}
    {depth : Option Nat} (hop : g.member.ops[n]? = some (.access direction slot depth))
    (hs : scope.get? "CURRENT" = none) (ho : outer.get? "CURRENT" = none)
    {wanted : String × Scope → Sheet → Prop} :
    Yields (resolveLine (Op.access direction slot depth).text scope outer) s wanted ↔
      wanted (g.resolved n (.access direction slot depth), scope) s := by
  have hn : n ≤ g.member.ops.length := Nat.le_of_lt (List.getElem?_eq_some_iff.1 hop).1
  have hd : ∀ d ∈ depth, Short d := by
    rintro d rfl
    exact g.member.readable _ (List.mem_of_getElem? hop)
  cases direction with
  | load =>
    have htext : (Op.access .load slot depth).text = "ACCU = " ++ Op.reference slot depth ++ "" := by simp
    have hresolved : g.resolved n (.access .load slot depth) =
        "ACCU = " ++ slotText (g.numberAt n depth) slot ++ "" := by
      rw [← String.toList_inj]
      simp [Setting.resolved, Setting.target, Setting.source, Value.text]
    rw [htext, hresolved, yields_resolveLine_reference (forall_mem_of_all (by decide))
      (forall_mem_of_all (by decide)), h.yields_resolveScope hn hs ho hd, String.ofList_toList]
    rfl
  | store =>
    have htext : (Op.access .store slot depth).text = "" ++ Op.reference slot depth ++ " = ACCU" := by simp
    have hresolved : g.resolved n (.access .store slot depth) =
        "" ++ slotText (g.numberAt n depth) slot ++ " = ACCU" := by
      rw [← String.toList_inj]
      simp [Setting.resolved, Setting.target, Setting.source, Value.text]
    rw [htext, hresolved, yields_resolveLine_reference (forall_mem_of_all (by decide))
      (forall_mem_of_all (by decide)), h.yields_resolveScope hn hs ho hd, String.ofList_toList]
    rfl

/-- A line that makes a context. -/
theorem Within.yields_resolveLine_create (h : Within g n scope s) {kind : Kind}
    (hop : g.member.ops[n]? = some (.create kind)) (hs : scope.get? "CURRENT" = none)
    (ho : outer.get? "CURRENT" = none) :
    Yields (resolveLine (Op.create kind).text scope outer) s fun result t =>
      result.1 = g.resolved n (.create kind) ∧ Within g (n + 1) result.2 t ∧ t = { s with contexts := t.contexts } ∧
        ∃ k, result.2 = scope.setContext k := by
  have hn : n + 1 ≤ g.member.ops.length := (List.getElem?_eq_some_iff.1 hop).1
  have hchange : (has (Op.create kind).text "PopContext" || has (Op.create kind).text "PushContext") = true ∧
      has (Op.create kind).text "PushContext" = true := by
    cases kind <;> decide +kernel
  obtain ⟨hnumber, hworld, hlinked⟩ := h.world.enter h.linked (Setting.fresh_line n) (g.placed n)
  have hmade := Setting.madeAt_succ hop
  have hchain := Setting.chainAt_succ hop
  have hgiven : g.givenAt (n + 1) = g.givenAt n := Setting.givenAt_succ hop (by simp)
  rw [Op.creates, if_pos rfl] at hmade hchain
  rw [List.singleton_append] at hchain
  rw [← hmade, ← hchain] at hnumber hlinked
  rw [← hmade, ← hgiven] at hworld
  rw [resolveLine, hchange.1, if_pos rfl, changeContext, currentContext, h.current]
  have hnext : Within g (n + 1) (scope.setContext (innermost (g.madeAt (n + 1)) (g.chainAt (n + 1))))
      { s with contexts := (s.contexts.enter (innermost (g.madeAt n) (g.chainAt n))).2 } :=
    ⟨hworld, hlinked, by simp [Scope.setContext]⟩
  have hunnamed : (scope.setContext (innermost (g.madeAt (n + 1)) (g.chainAt (n + 1)))).get? "CURRENT" = none := by
    simpa [Scope.setContext, contextName] using hs
  have hnew : has "ACCU = Scope[CURRENT-1]" "new func" = false := by decide +kernel
  have hline : "ACCU = Scope[CURRENT-1]" = String.ofList ("ACCU = ".toList ++ ("Scope[".toList ++
      ((Op.context (some 1)).toList ++ ']' :: []))) := by decide +kernel
  have hshort : Short 1 := by decide
  simp only [yields_bind, yields_pure, hchange.2, if_true, yields_get, yields_modify, hnumber, hnew,
    Bool.false_eq_true, if_false]
  rw [hline, yields_resolveScopes (by decide) (by simp) (context_ne_nil _) (notMem_context (by decide) (by decide) _),
    String.ofList_toList, hnext.yields_resolveScope hn hunnamed ho (by simpa using hshort)]
  refine ⟨?_, hnext, rfl, _, rfl⟩
  have houter : g.numberAt (n + 1) (some 1) = g.numberAt n none := by
    rw [Setting.numberAt, hchain]
    rfl
  rw [houter, ← String.toList_inj]
  simp [Setting.resolved, Setting.target, Setting.source, Value.text]

/-- The pool entry that a closure is made from. -/
theorem hits_closure (index : Nat) : (hits poolReference (Op.closure index).text.toList).head? =
    some (toString index) := by
  have happ : (Op.closure index).text.toList = "ACCU = new func ".toList ++ (poolText index).toList := by
    simp [poolText]
  have hapart : Apart "ACCU = new func ".toList := by simp [Apart]
  have hpool : (poolText index).toList = 'C' :: ("onstPool".toList ++ (bracketed index).toList) := by
    simp [poolText]
  have hreference := poolReference_poolText index
  rw [hpool] at hreference
  rw [hits, happ, readsPool_poolReference.pieces_apart hapart, hpool, readsPool_poolReference.pieces_hit hreference]
  rfl

theorem notMem_poolText {c : Char} (hd : c.isDigit = false) (hb : c ∉ ['[', ']']) (hc : c ∉ "ConstPool".toList)
    (index : Nat) : c ∉ (poolText index).toList := by
  intro hm
  rw [poolText, String.toList_append] at hm
  exact (List.mem_append.1 hm).elim hc (notMem_bracketed hd hb index)

theorem replace_closure (index : Nat) :
    replace (Op.closure index).text " new func " " " = "ACCU = " ++ poolText index := by
  have hchars : (Op.closure index).text.toList =
      "ACCU ".toList ++ '=' :: (' ' :: "new func ".toList ++ (poolText index).toList) := by
    simp [poolText]
  have hmark : " new func ".toList = ' ' :: "new func ".toList := rfl
  have hw : 'w' ∈ ' ' :: "new func ".toList := by decide
  rw [← String.toList_inj, replace_eq, hchars, hmark, swap_append (by decide), swap_eq_self hw (by decide),
    swap_hit (after?_append _ _), swap_eq_self hw (notMem_poolText (by decide) (by decide) (by decide) index)]
  simp

theorem has_closure (index : Nat) : has (Op.closure index).text "new func" = true := by
  have hchars : (Op.closure index).text.toList = "ACCU = new func ConstPool".toList ++ (bracketed index).toList := by
    simp
  rw [has, hchars]
  rfl

/-- A line that makes a function hands it the current context. -/
theorem Within.yields_resolveLine_closure (h : Within g n scope s) {index : Nat}
    (hop : g.member.ops[n]? = some (.closure index)) (hpool : s.pool = some g.member.pool) :
    Yields (resolveLine (Op.closure index).text scope outer) s fun result t =>
      result.1 = g.resolved n (.closure index) ∧ Within g (n + 1) result.2 t ∧ t = { s with contexts := t.contexts } ∧
        result.2 = scope := by
  have hmem : .closure index ∈ g.member.ops := List.mem_of_getElem? hop
  have hshort : Short index := g.member.readable _ hmem
  obtain ⟨name, hname⟩ : ∃ name, g.member.pool[index]? = some name :=
    ⟨_, List.getElem?_eq_getElem (g.member.entries index hmem)⟩
  have hpush : (has (Op.closure index).text "PopContext" || has (Op.closure index).text "PushContext") = false := by
    have hx : 'x' ∉ (Op.closure index).text.toList := by
      rw [Op.text_closure, String.toList_append, List.mem_append, not_or]
      exact ⟨by decide, notMem_bracketed (by decide) (by decide) index⟩
    rw [has_of_notMem (by decide) hx, has_of_notMem (by decide) hx]
    rfl
  have hS : 'S' ∉ ("ACCU = " ++ poolText index).toList := by
    rw [String.toList_append, List.mem_append, not_or]
    exact ⟨by decide, notMem_poolText (by decide) (by decide) (by decide) index⟩
  have hmade : g.madeAt (n + 1) = g.madeAt n := by rw [Setting.madeAt_succ hop]; simp [Op.creates]
  have hchain : g.chainAt (n + 1) = g.chainAt n := by rw [Setting.chainAt_succ hop]; simp [Op.creates]
  have hgiven : g.givenAt (n + 1) = Function.update (g.givenAt n) name (some (g.chainAt n)) := by
    rw [Setting.givenAt, Member.captured?, hop]
    simp only [hname]
  rw [resolveLine, hpush]
  simp only [Bool.false_eq_true, if_false, yields_bind, yields_pure, has_closure, if_true, captureContext, hits_closure,
    yields_number hshort, yields_get, hpool, yields_need, Option.some.injEq, exists_eq_left', Int.toNat_natCast, hname,
    currentContext, h.current, yields_modify, replace_closure]
  rw [yields_resolveScopes_plain hS]
  refine ⟨?_, ⟨?_, ?_, ?_⟩, rfl, trivial⟩
  · rw [← String.toList_inj]
    simp [Setting.resolved, Setting.target, Setting.source, Value.text]
  · rw [hmade, hgiven]
    exact h.world.setFunction h.linked name
  · rw [hmade, hchain]
    exact h.linked.congr rfl
  · rw [hmade, hchain]
    exact h.current

/-- The contexts of a line are resolved, and the line has its effect on them. -/
theorem Within.yields_resolveOp (h : Within g n scope s) (hop : g.member.ops[n]? = some op)
    (hs : scope.get? "CURRENT" = none) (ho : outer.get? "CURRENT" = none) (hpool : s.pool = some g.member.pool) :
    Yields (resolveLine op.text scope outer) s fun result t =>
      result.1 = g.resolved n op ∧ Within g (n + 1) result.2 t ∧ t = { s with contexts := t.contexts } ∧
        (result.2 = scope ∨ ∃ k, result.2 = scope.setContext k) := by
  cases op with
  | create kind =>
    refine (h.yields_resolveLine_create hop hs ho).mono ?_
    intro result t ht
    exact ⟨ht.1, ht.2.1, ht.2.2.1, Or.inr ht.2.2.2⟩
  | closure index =>
    refine (h.yields_resolveLine_closure hop hpool).mono ?_
    intro result t ht
    exact ⟨ht.1, ht.2.1, ht.2.2.1, Or.inl ht.2.2.2⟩
  | access direction slot depth =>
    rw [h.yields_resolveLine_access hop hs ho]
    exact ⟨rfl, h.next hop rfl (by simp), rfl, Or.inl rfl⟩

/-! ## Reading the accumulator -/

/-- How far a function has been gone through: what its lines say, and what the accumulator holds. -/
structure Filled (g : Setting) (n : Nat) (scope : Scope) (s : Sheet) : Prop where
  indent : s.indent = 1
  size : s.code.length = g.member.ops.length + 2
  pool : s.pool = some g.member.pool
  console : s.console = g.console
  unnamed : scope.get? "CURRENT" = none
  held : ∀ name i, (name, .register i) ∈ scope.entries → name = "ACCU"
  accumulator : ∀ binding, scope.get? "ACCU" = some binding → ∃ i, ∃ value : Value, ∃ k : Nat, binding = .register i ∧
    s.registers[i]? = some { value := value.text, writtenAt := [(k : Int)] } ∧ value.Readable ∧ k < s.code.length
  opened : s.written[0]? = some "\x7b"
  said : ∀ j op, j < n → g.member.ops[j]? = some op → ∃ text, s.written[j + 1]? = some text ∧ g.Says j op text

theorem Filled.congr {t : Sheet} (h : Filled g n scope s) (hd : t.indent = s.indent) (hp : t.pool = s.pool)
    (hc : t.console = s.console) (hr : t.registers = s.registers) (hw : t.written = s.written) :
    Filled g n scope t := by
  have hlength : t.code.length = s.code.length := by simpa [Sheet.written] using congrArg List.length hw
  constructor
  · rw [hd, h.indent]
  · rw [hlength, h.size]
  · rw [hp, h.pool]
  · rw [hc, h.console]
  · exact h.unnamed
  · exact h.held
  · rw [hr, hlength]
    exact h.accumulator
  · rw [hw, h.opened]
  · rw [hw]
    exact h.said

theorem Filled.setContext (h : Filled g n scope s) (k : Int) : Filled g n (scope.setContext k) s :=
  { h with
    unnamed := by simpa [Scope.setContext, contextName] using h.unnamed
    held := by
      intro name i hm
      rcases Table.mem_of_mem_put hm with ⟨_, hb⟩ | hm
      · cases hb
      · exact h.held name i hm
    accumulator := by simpa [Scope.setContext, contextName] using h.accumulator }

/-- What the accumulator stands for. -/
theorem Filled.yields_readPlace (h : Filled g n scope s) : Yields (readPlace scope "ACCU") s fun cs t =>
    ∃ value : Value, value.Readable ∧ cs = value.text.toList ∧ Filled g n scope t ∧ t.contexts = s.contexts := by
  unfold readPlace
  cases hget : scope.get? "ACCU" with
  | none => exact yields_pure.2 ⟨.unset, trivial, rfl, h, rfl⟩
  | some binding =>
    obtain ⟨i, value, k, rfl, hr, hv, hk⟩ := h.accumulator binding hget
    have hregister : s.register i = { value := value.text, writtenAt := [(k : Int)] } := by
      rw [Sheet.register, hr]
      rfl
    simp only [registerOf, register, yields_bind, yields_pure, yields_get, hregister, Bool.false_eq_true, if_false,
      List.head?_cons, yields_need, Option.some.injEq, exists_eq_left']
    rw [setVisible, yields_changeLine hk]
    exact ⟨value, hv, rfl, h.congr rfl rfl rfl rfl (written_modify k fun _ => rfl), rfl⟩

theorem notMem_scopeText {c : Char} (hd : c.isDigit = false) (hb : c ∉ ['[', ']']) (hc : c ∉ "Scope".toList)
    (k : Nat) : c ∉ (scopeText k).toList := by
  have hchars : (scopeText k).toList = "Scope".toList ++ (bracketed k).toList := by simp [scopeText, bracketed]
  rw [hchars, List.mem_append, not_or]
  exact ⟨hc, notMem_bracketed hd hb k⟩

theorem notMem_slotText {c : Char} (hd : c.isDigit = false) (hb : c ∉ ['[', ']']) (hc : c ∉ "Scope".toList)
    (k slot : Nat) : c ∉ (slotText k slot).toList := by
  rw [slotText, String.toList_append, List.mem_append, not_or]
  exact ⟨notMem_scopeText hd hb hc k, notMem_bracketed hd hb slot⟩

/-- A text without the first letters of places reads none. -/
theorem pieces_place {text : List Char} (h : ∀ c ∈ openings, c ∉ text) (rest : List Char) :
    pieces place (text ++ rest) = text.map .plain ++ pieces place rest :=
  forward_place.pieces_append (fun c hc cs => place_eq_none (fun ho => h c ho hc) cs) rest

/-- A value that is not the accumulator itself reads no place. -/
theorem pieces_value {value : Value} (hv : value ≠ .unset) :
    pieces place value.text.toList = value.text.toList.map .plain := by
  have hopen : ∀ c ∈ openings, c.isDigit = false ∧ c ∉ ['[', ']'] ∧ c ∉ "Scope".toList ∧ c ∉ "onstPool".toList :=
    forall_mem_of_all (by decide)
  have hplain : ∀ {text : List Char}, (∀ c ∈ openings, c ∉ text) → pieces place text = text.map .plain := by
    intro text h
    have happ := pieces_place h []
    simpa [pieces, scan] using happ
  cases value with
  | unset => exact absurd rfl hv
  | context k =>
    exact hplain fun c hc => notMem_scopeText (hopen c hc).1 (hopen c hc).2.1 (hopen c hc).2.2.1 k
  | slot k slot =>
    exact hplain fun c hc => notMem_slotText (hopen c hc).1 (hopen c hc).2.1 (hopen c hc).2.2.1 k slot
  | closure index =>
    have hchars : (Value.closure index).text.toList = 'C' :: ("onstPool".toList ++ (bracketed index).toList) := by
      simp [Value.text, poolText]
    have hnone : place none ('C' :: ("onstPool".toList ++ (bracketed index).toList)) = none := rfl
    rw [hchars, forward_place.pieces_plain hnone, hplain]
    · rfl
    · intro c hc
      rw [List.mem_append, not_or]
      exact ⟨(hopen c hc).2.2.2, notMem_bracketed (hopen c hc).1 (hopen c hc).2.1 index⟩

/-- The accumulator takes a value. -/
theorem Filled.yields_assign (h : Filled g n scope s) (ho : outer.get? "ACCU" = none) {k : Nat} (hi : s.index = k)
    (hk : k < s.code.length) {value : Value} (hv : value.Readable) :
    Yields (assign "ACCU" value.text scope outer {}) s fun result t => result.2 = {} ∧ Filled g n result.1 t ∧
      t.contexts = s.contexts ∧ result.1.get? contextName = scope.get? contextName := by
  have hidle : ∀ bound i, (bound, .register i) ∈ (scope.erase "ACCU").entries →
      occursIn "ACCU".toList (s.register i).value.toList = false := by
    intro bound i hm
    have hname := h.held bound i (Table.mem_of_mem_erase hm)
    simp [Table.erase, hname] at hm
  have hconstant : isConstant "ACCU" value.text = true := by
    rw [isConstant, if_pos (by decide)]
  rw [assign, yields_bind, noteWrite, ho, yields_pure, yields_bind, yields_overwriteReaders hidle, hconstant,
    if_pos rfl, yields_bind, yields_get, yields_bind]
  refine ⟨_, _, rfl, yields_pure.2 ⟨rfl, ?_, rfl, ?_⟩⟩
  · refine { h with unnamed := ?_, held := ?_, accumulator := ?_ }
    · simpa using h.unnamed
    · intro name i hm
      rcases Table.mem_of_mem_put hm with ⟨hname, _⟩ | hm
      · exact hname
      · exact h.held name i (Table.mem_of_mem_erase hm)
    · intro binding hb
      rw [Table.get?_put, if_pos rfl] at hb
      cases hb
      refine ⟨_, value, k, rfl, ?_, hv, hk⟩
      rw [← hi]
      exact List.getElem?_concat_length
  · simp [contextName]

theorem assignment?_accumulator (text : String) : assignment? ("ACCU" ++ " = " ++ text) = some ("ACCU", text) := by
  have hchars : ("ACCU" ++ " = " ++ text).toList = "ACCU".toList ++ (" = ".toList ++ text.toList) := by simp
  have hplace : place? ("ACCU".toList ++ (" = ".toList ++ text.toList)) =
      some ("ACCU".toList, " = ".toList ++ text.toList) := rfl
  simp only [assignment?, hchars, hplace, Option.bind_some, after?_append, Option.map_some, String.ofList_toList]

theorem mem_of_mem_strip {text : String} {c : Char} (h : c ∈ (strip text).toList) : c ∈ text.toList := by
  rw [strip, String.toList_ofList, trimBoth, trimEnd, List.mem_reverse] at h
  have hmem := List.mem_reverse.1 ((List.dropWhile_sublist _).subset h)
  exact (List.dropWhile_sublist _).subset hmem

/-- A line that stores to a slot. -/
theorem Filled.yields_readStore (h : Filled g n scope s) (k slot : Nat) :
    Yields (readLine (slotText k slot ++ " = " ++ "ACCU") scope outer {}) s fun result t => result.2 = (scope, {}) ∧
      ∃ value : Value, value.Readable ∧ result.1 = slotText k slot ++ " = " ++ value.text ∧
        Filled g n scope t ∧ t.contexts = s.contexts := by
  have hchars : (slotText k slot ++ " = " ++ "ACCU").toList =
      ((slotText k slot).toList ++ " = ".toList) ++ "ACCU".toList := by simp
  have hassignment : assignment? (slotText k slot ++ " = " ++ "ACCU") = none := by
    have hhead : (slotText k slot ++ " = " ++ "ACCU").toList = 'S' :: ("cope".toList ++ ((bracketed k).toList ++
        ((bracketed slot).toList ++ " = ACCU".toList))) := by simp [slotText, scopeText, bracketed]
    rw [assignment?, hhead]
    rfl
  have hstrip : strip (slotText k slot ++ " = " ++ "ACCU") ≠ "return ACCU" := by
    intro he
    have hr : 'r' ∈ (strip (slotText k slot ++ " = " ++ "ACCU")).toList := he ▸ (by decide)
    have hmem := mem_of_mem_strip hr
    rw [hchars] at hmem
    rcases List.mem_append.1 hmem with hmem | hmem
    · rcases List.mem_append.1 hmem with hmem | hmem
      · exact notMem_slotText (by decide) (by decide) (by decide) k slot hmem
      · revert hmem
        decide
    · revert hmem
      decide
  have hpieces : pieces place (slotText k slot ++ " = " ++ "ACCU").toList =
      ((slotText k slot).toList ++ " = ".toList).map .plain ++ [.hit "ACCU"] := by
    have hopen : ∀ c ∈ openings, c.isDigit = false ∧ c ∉ ['[', ']'] ∧ c ∉ "Scope".toList ∧ c ∉ " = ".toList :=
      forall_mem_of_all (by decide)
    rw [hchars, pieces_place]
    · rfl
    · intro c hc
      rw [List.mem_append, not_or]
      exact ⟨notMem_slotText (hopen c hc).1 (hopen c hc).2.1 (hopen c hc).2.2.1 k slot, (hopen c hc).2.2.2⟩
  simp only [readLine, hassignment, returnStored?, if_pos hstrip, yields_bind, yields_pure, readPlaces, substituteM,
    hpieces, substituteM_go_append, substituteM_go_plain, substituteM.go, List.append_nil]
  refine h.yields_readPlace.mono ?_
  rintro cs t ⟨value, hv, rfl, hf, hc⟩
  refine ⟨trivial, value, hv, ?_, hf, hc⟩
  rw [← String.toList_inj]
  simp

/-- A line is given its value, with what the accumulator holds put in. -/
theorem Filled.yields_readLine (h : Filled g n scope s) (hop : g.member.ops[n]? = some op)
    (ho : outer.get? "ACCU" = none) (hi : s.index = ((n + 1 : Nat) : Int)) :
    Yields (readLine (g.resolved n op) scope outer {}) s fun result t => result.2.2 = {} ∧
      g.Says n op ("\t" ++ result.1) ∧ Filled g n result.2.1 t ∧ t.contexts = s.contexts ∧
      result.2.1.get? contextName = scope.get? contextName := by
  have hn : n < g.member.ops.length := (List.getElem?_eq_some_iff.1 hop).1
  by_cases hsource : g.source n op = .unset
  · obtain ⟨slot, depth, rfl⟩ : ∃ slot depth, op = .access .store slot depth := by
      rcases op with _ | _ | ⟨_ | _, slot, depth⟩
      case access.store => exact ⟨slot, depth, rfl⟩
      all_goals simp [Setting.source] at hsource
    refine (h.yields_readStore _ slot).mono ?_
    rintro ⟨text, result⟩ t ⟨rfl, value, hv, rfl, hf, hc⟩
    exact ⟨rfl, ⟨value, hv, fun hne => absurd rfl hne, rfl⟩, hf, hc, rfl⟩
  · have htarget : g.target n op = "ACCU" := by
      rcases op with _ | _ | ⟨_ | _, slot, depth⟩
      case access.store => simp [Setting.source] at hsource
      all_goals rfl
    have hreadable : (g.source n op).Readable := by
      cases op with
      | closure index => exact g.member.readable _ (List.mem_of_getElem? hop)
      | create _ => trivial
      | access direction _ _ => cases direction <;> trivial
    have hread : ∀ {wanted : String → Sheet → Prop},
        Yields (readPlaces (g.source n op).text scope) s wanted ↔ wanted (g.source n op).text s := by
      intro wanted
      simp only [readPlaces, substituteM, pieces_value hsource, substituteM_go_plain, yields_bind, yields_pure,
        String.ofList_toList]
    simp only [readLine, Setting.resolved, htarget, assignment?_accumulator, yields_bind, hread]
    refine (h.yields_assign ho hi (by rw [h.size]; omega) hreadable).mono ?_
    rintro ⟨scope', writes⟩ t ⟨rfl, hf, hc, hcontext⟩
    exact yields_pure.2 ⟨rfl, ⟨g.source n op, hreadable, fun _ => rfl, by rw [htarget]⟩, hf, hc, hcontext⟩

/-! ## From line to line -/

/-- The text of a line is set. -/
theorem Filled.yields_setText (h : Filled g n scope s) (hop : g.member.ops[n]? = some op)
    (hi : s.index = ((n + 1 : Nat) : Int)) {text : String} (ht : g.Says n op ("\t" ++ text)) :
    Yields (setText text) s fun _ t => Filled g (n + 1) scope t ∧ t.contexts = s.contexts := by
  have hn : n < g.member.ops.length := (List.getElem?_eq_some_iff.1 hop).1
  have hlt : n + 1 < s.code.length := by rw [h.size]; omega
  have hindented : indented s.indent text = "\t" ++ text := by
    obtain ⟨value, _, _, he⟩ := ht
    have hne : text.isEmpty = false := by
      rw [(String.append_right_inj _).1 he]
      simp
    rw [h.indent, indented, hne]
    rfl
  obtain ⟨line, hline⟩ : ∃ line, s.code[n + 1]? = some line := ⟨_, List.getElem?_eq_getElem hlt⟩
  rw [SheetM.yields_setText hi hlt, hindented]
  have hwritten : ∀ j, (Sheet.written { s with code := s.code.modify (n + 1) fun line =>
      { line with text := "\t" ++ text } })[j]? = if j = n + 1 then some ("\t" ++ text) else s.written[j]? := by
    intro j
    simp only [Sheet.written, List.getElem?_map]
    by_cases hj : j = n + 1
    · subst hj
      rw [if_pos rfl, List.getElem?_modify_eq, hline]
      rfl
    · rw [if_neg hj, List.getElem?_modify_ne _ _ fun he => hj he.symm]
  refine ⟨{ h with size := ?_, accumulator := ?_, opened := ?_, said := ?_ }, rfl⟩
  · rw [List.length_modify, h.size]
  · rw [List.length_modify]
    exact h.accumulator
  · rw [hwritten, if_neg (by omega), h.opened]
  · intro j other hj hother
    rw [hwritten]
    by_cases hjn : j = n
    · subst hjn
      rw [hop] at hother
      cases hother
      exact ⟨_, if_pos rfl, ht⟩
    · rw [if_neg (by omega)]
      exact h.said j other (by omega) hother

/-- What holds before each line of a function, with the lines to come. -/
def Reached (g : Setting) (rest : List String) (scope : Scope) (s : Sheet) : Prop :=
  ∃ n : Nat, s.index = n ∧ rest = (g.member.ops.drop n).map Op.text ∧ Within g n scope s ∧ Filled g n scope s

theorem straight_reached (g : Setting) (context : Int) : Straight (Scope.setContext {} context) (Reached g) where
  indent := by
    rintro rest scope s ⟨n, _, _, _, hf⟩
    exact hf.indent
  step := by
    rintro line rest scope s ⟨n, hi, hrest, hw, hf⟩
    obtain ⟨op, ops, hops⟩ : ∃ op ops, g.member.ops.drop n = op :: ops :=
      List.exists_cons_of_ne_nil fun he => by simp [he] at hrest
    rw [hops, List.map_cons, List.cons.injEq] at hrest
    obtain ⟨rfl, rfl⟩ := hrest
    have hop : g.member.ops[n]? = some op := by
      have hhead := congrArg List.head? hops
      rwa [List.head?_drop] at hhead
    have houter : ∀ name, name ≠ contextName → (Scope.setContext {} context).get? name = none := by
      intro name hne
      rw [Scope.setContext, Table.get?_put, if_neg hne.symm]
      rfl
    have hindex : s.index + 1 = ((n + 1 : Nat) : Int) := by rw [hi]; rfl
    have hstart : Within g n scope { s with index := s.index + 1 } := ⟨hw.world, hw.linked, hw.current⟩
    rw [substituteLine, yields_bind]
    refine (hstart.yields_resolveOp hop hf.unnamed (houter _ (by decide)) hf.pool).mono ?_
    rintro ⟨_, scope'⟩ t ⟨rfl, hw', ht, hscope⟩
    have hf' : Filled g n scope' t := by
      have hsame : Filled g n scope t := hf.congr (by rw [ht]) (by rw [ht]) (by rw [ht]) (by rw [ht]) (by rw [ht]; rfl)
      rcases hscope with he | ⟨k, he⟩
      · rw [show scope' = scope from he]
        exact hsame
      · rw [show scope' = scope.setContext k from he]
        exact hsame.setContext k
    have hti : t.index = ((n + 1 : Nat) : Int) := by rw [ht]; exact hindex
    obtain ⟨⟨text, final, writes⟩, u, hok, hwrites, hstates, hfilled, hcontexts, hcurrent⟩ :=
      hf'.yields_readLine hop (houter _ (by decide)) hti
    refine ⟨_, u, hok, hwrites, ?_⟩
    have hui : u.index = ((n + 1 : Nat) : Int) := ((still_readLine _ _ _ _ t).of_ok hok).1.trans hti
    refine (hfilled.yields_setText hop hui hstates).mono ?_
    rintro _ v ⟨hv, hvc⟩ hvi _
    refine ⟨n + 1, by rw [hvi, hindex], by rw [← List.tail_drop, hops, List.tail_cons], ⟨?_, ?_, ?_⟩, hv⟩
    · rw [hvc, hcontexts]
      exact hw'.world
    · rw [hvc, hcontexts]
      exact hw'.linked
    · exact hcurrent.trans hw'.current

/-- What holds when a function has been gone through. -/
structure Ended (g : Setting) (t : Sheet) : Prop where
  world : World g.stands t.contexts (g.made ++ g.member.creations) (g.givenAt g.member.ops.length)
  console : t.console = g.console
  size : t.written.length = g.member.ops.length + 2
  opened : t.written[0]? = some "\x7b"
  closed : t.written[g.member.ops.length + 1]? = some "\x7d"
  said : ∀ j op, g.member.ops[j]? = some op → ∃ text, t.written[j + 1]? = some text ∧ g.Says j op text

theorem Reached.ended (h : Reached g [] scope s) (hi : s.index = g.member.ops.length) :
    Ended g (closed g.member.ops.length s) := by
  obtain ⟨n, hn, _, hw, hf⟩ := h
  obtain rfl : n = g.member.ops.length := by
    rw [hn] at hi
    exact Int.ofNat.inj hi
  obtain ⟨line, hline⟩ : ∃ line, s.code[g.member.ops.length + 1]? = some line :=
    ⟨_, List.getElem?_eq_getElem (by rw [hf.size]; omega)⟩
  have hother : ∀ j, j ≠ g.member.ops.length + 1 →
      (Sheet.written (closed g.member.ops.length s))[j]? = s.written[j]? := by
    intro j hj
    simp only [Sheet.written, closed, List.getElem?_map]
    rw [List.getElem?_modify_ne _ _ fun he => hj he.symm]
  refine ⟨hw.world, hf.console, ?_, ?_, ?_, ?_⟩
  · simp [Sheet.written, closed, hf.size]
  · rw [hother 0 (by omega), hf.opened]
  · simp only [Sheet.written, closed, List.getElem?_map]
    rw [List.getElem?_modify_eq, hline]
    rfl
  · intro j op hop
    have hj : j < g.member.ops.length := (List.getElem?_eq_some_iff.1 hop).1
    rw [hother (j + 1) (by omega)]
    exact hf.said j op hj hop

/-- Before the first line. -/
theorem reached_opened (hc : s.code = inBraces (rendering g.member.code (g.member.ops.map Op.text)))
    (hstates : List.Forall₂ States g.member.code (g.member.ops.map Op.text)) (hi : s.index = 0)
    (hp : s.pool = some g.member.pool) (hconsole : s.console = g.console)
    (hworld : World g.stands s.contexts g.made g.given) (hlinked : Linked s.contexts g.made g.start) :
    Reached g (g.member.ops.map Op.text) (Scope.setContext {} (innermost g.made g.start)) (opened s) := by
  have hmade : g.madeAt 0 = g.made := List.append_nil _
  have hcount : (rendering g.member.code (g.member.ops.map Op.text)).length = g.member.ops.length := by
    simpa using congrArg List.length (rendered_rendering hstates)
  have hother : ∀ name, name ≠ contextName →
      (Scope.setContext {} (innermost g.made g.start)).get? name = none := by
    intro name hne
    rw [Scope.setContext, Table.get?_put, if_neg hne.symm]
    rfl
  refine ⟨0, hi, rfl, ⟨?_, ?_, ?_⟩, ⟨rfl, ?_, hp, hconsole, hother _ (by decide), ?_, ?_, ?_, ?_⟩⟩
  · rw [hmade]
    exact hworld
  · rw [hmade]
    exact hlinked
  · rw [hmade, Scope.setContext, Table.get?_put, if_pos rfl]
    rfl
  · simp [opened, hc, inBraces, hcount]
  · intro name i hm
    rcases Table.mem_of_mem_put hm with ⟨_, hb⟩ | hm
    · cases hb
    · cases hm
  · intro binding hb
    rw [hother _ (by decide)] at hb
    cases hb
  · rw [Sheet.written, opened, hc]
    rfl
  · intro j op hj
    cases hj

/-- A function is gone through, from where it starts. -/
theorem Setting.yields_substitute (g : Setting) {desk : Desk} (hconsole : desk.console = g.console)
    (hstart : Yields (startContext g.member.name g.member.declarer)
      (g.member.function.sheet (inBraces (rendering g.member.code (g.member.ops.map Op.text))) desk) fun context t =>
        t.console = desk.console ∧ context = innermost g.made g.start ∧ World g.stands t.contexts g.made g.given ∧
        Linked t.contexts g.made g.start) :
    Yields ({ g.member.function with
        code := some (inBraces (rendering g.member.code (g.member.ops.map Op.text))) } : Function).substitute desk
      fun f desk' => ∃ t, Ended g t ∧ f = { g.member.function with code := some t.code } ∧
        desk' = { desk with contexts := t.contexts, console := t.console } := by
  have hstates := g.member.states
  refine Function.yields_substitute_straight hstates ?_
  obtain ⟨context, t, hok, htc, rfl, hworld, hlinked⟩ := hstart
  have ht := ((yields_startContext _ _ _).of_ok hok).1
  refine ⟨_, t, hok, Reached g, straight_reached g _, ?_, ?_⟩
  · refine reached_opened (by rw [ht]; rfl) hstates (by rw [ht]; rfl) ?_ (htc.trans hconsole) hworld hlinked
    rw [ht, ← g.member.pooled]
    rfl
  · intro scope u hu hi
    rw [List.length_map] at hi ⊢
    exact hu.ended hi

end Bytelift.Lexical
