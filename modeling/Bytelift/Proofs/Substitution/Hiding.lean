import Bytelift.Function
import Bytelift.Proofs.Substitution.Frame

/-! A hidden line is never lost. A line is hidden only when the value it gives to a place is put into a later
line; that line may be hidden in its turn, but then its own value, with the other inside it, has been put
into a line after it. -/

namespace Bytelift.Substitution

open Run Text

/-- A line of pseudocode, at some depth, that gives a value to a place. -/
def Assigns (text place value : String) : Prop :=
  IsPlace place ∧ ∃ depth : Nat,
    text = String.ofList (List.replicate depth '\t') ++ (place ++ " = " ++ value)

/-! ## Where the values of hidden lines are -/

/-- The value of a line has been put into a later one, and there into the value that this line can pass on, if
it has any. -/
def Handed (values : Nat → Option String) (written : List String) (n k : Nat) (value : String) : Prop :=
  ∃ j, k < j ∧ j < n ∧ ∃ text, written[j]? = some text ∧ value.toList <:+: text.toList ∧
    ∀ w, values j = some w → value.toList <:+: w.toList

/-- What is known when the lines before `n` have their texts: `values` tells what each line may pass on, which
is known before `m`, and the values of hidden lines are in later lines or in the text that is pending. -/
structure Traced (values : Nat → Option String) (n m : Nat) (pending : List Char) (s : Sheet) : Prop where
  fresh : ∀ k, m ≤ k → values k = none
  first : values 0 = none
  assigned : ∀ k < n, ∀ v, values k = some v →
    ∃ text place, s.written[k]? = some text ∧ Assigns text place v
  held : ∀ r ∈ s.registers, r.overwritten = false →
    ∃ k : Nat, r.writtenAt.head? = some (k : Int) ∧ values k = some r.value
  hidden : ∀ k, s.Hides k → k < n ∧ ∃ v, values k = some v ∧
    (v.toList <:+: pending ∨ Handed values s.written n k v)

namespace Traced

variable {values : Nat → Option String} {n m : Nat} {pending : List Char} {s t : Sheet}

theorem mild (h : Traced values n m pending s) (hm : Milder s t) : Traced values n m pending t where
  fresh := h.fresh
  first := h.first
  assigned := hm.written ▸ h.assigned
  held r hr ho := by
    obtain ⟨q, hq, hqo, hqv, hqk⟩ := hm.registers r hr ho
    obtain ⟨k, hk, hv⟩ := h.held q hq hqo
    exact ⟨k, hqk _ hk, hqv ▸ hv⟩
  hidden k hk := hm.written ▸ h.hidden k (hm.hides k hk)

theorem pending_mono (h : Traced values n m pending s) {more : List Char} (hp : pending <:+: more) :
    Traced values n m more s where
  fresh := h.fresh
  first := h.first
  assigned := h.assigned
  held := h.held
  hidden k hk := by
    obtain ⟨hn, v, hv, hin⟩ := h.hidden k hk
    exact ⟨hn, v, hv, hin.imp_left fun hi => hi.trans hp⟩

/-- The line under way gets a value that it may pass on. -/
theorem assign (h : Traced values n n pending s) (hn : 0 < n) (hi : s.index = n) (value : String) :
    Traced (Function.update values n (some value)) n (n + 1) pending
      { s with registers := s.registers ++ [{ value, writtenAt := [s.index] }] } := by
  have hne : ∀ k < n, Function.update values n (some value) k = values k := fun k hk =>
    Function.update_of_ne (by omega) _ _
  have hlt : ∀ {k v}, values k = some v → k < n := by
    intro k v hv
    by_contra hk
    rw [h.fresh k (by omega)] at hv
    cases hv
  constructor
  · intro k hk
    rw [Function.update_of_ne (by omega), h.fresh k (by omega)]
  · rw [hne 0 hn, h.first]
  · intro k hk v hv
    exact h.assigned k hk v (hne k hk ▸ hv)
  · intro r hr ho
    rcases List.mem_append.1 hr with hr | hr
    · obtain ⟨k, hk, hv⟩ := h.held r hr ho
      exact ⟨k, hk, by rw [hne k (hlt hv), hv]⟩
    · rw [List.mem_singleton.1 hr]
      exact ⟨n, congrArg some hi, Function.update_self ..⟩
  · intro k hk
    obtain ⟨hn, v, hv, hin⟩ := h.hidden k hk
    refine ⟨hn, v, by rw [hne k hn, hv], hin.imp_right ?_⟩
    rintro ⟨j, hkj, hjn, text, htext, hi, hw⟩
    exact ⟨j, hkj, hjn, text, htext, hi, fun w hj => hw w (hne j hjn ▸ hj)⟩

/-- A line may be hidden once its value is in the text that is pending. -/
theorem hide (h : Traced values n n pending s) {k : Nat} {v : String} (hv : values k = some v)
    (hp : v.toList <:+: pending) :
    Traced values n n pending
      { s with code := s.code.modify k fun line => { line with visible := false } } := by
  have hwritten : Sheet.written { s with code := s.code.modify k fun line => { line with visible := false } } =
      s.written := SheetM.written_modify k fun _ => rfl
  refine ⟨h.fresh, h.first, hwritten ▸ h.assigned, h.held, ?_⟩
  rintro j ⟨line, hline, hhidden⟩
  rw [hwritten]
  rw [List.getElem?_modify] at hline
  obtain ⟨old, hold, rfl⟩ := Option.map_eq_some_iff.1 hline
  by_cases hkj : k = j
  · subst hkj
    refine ⟨?_, v, hv, Or.inl hp⟩
    by_contra hk
    rw [h.fresh k (by omega)] at hv
    cases hv
  · rw [if_neg hkj] at hhidden
    exact h.hidden j ⟨old, hold, hhidden⟩

/-- The line under way gets its text, which holds what was pending; if the line may pass on a value, that
holds it too. -/
theorem text (h : Traced values n m pending s) (hm : m ≤ n + 1) {body : String} (depth : Int)
    (hp : pending <:+: body.toList) (hv : ∀ v, values n = some v → pending <:+: v.toList ∧
      ∃ place, IsPlace place ∧ body = place ++ " = " ++ v) (hlt : n < s.code.length) :
    Traced values (n + 1) (n + 1) [] { s with code := s.code.modify n fun line =>
      { line with text := SheetM.indented depth body } } := by
  have hwritten : ∀ k, (Sheet.written { s with code := s.code.modify n fun line =>
      { line with text := SheetM.indented depth body } })[k]? =
        if n = k then some (SheetM.indented depth body) else s.written[k]? := by
    intro k
    simp only [Sheet.written, List.getElem?_map, List.getElem?_modify]
    split
    · next he =>
      subst he
      rw [List.getElem?_eq_getElem hlt]
      rfl
    · cases s.code[k]? <;> rfl
  have hbody : body.toList <:+: (SheetM.indented depth body).toList := by
    unfold SheetM.indented
    split
    · next he =>
      obtain rfl := String.isEmpty_iff.1 he
      exact List.infix_rfl
    · rw [String.toList_append]
      exact (List.suffix_append _ _).isInfix
  constructor
  · intro k hk
    exact h.fresh k (by omega)
  · exact h.first
  · intro k hk v hkv
    rw [hwritten]
    split
    · next he =>
      subst he
      obtain ⟨_, place, hplace, rfl⟩ := hv v hkv
      refine ⟨_, place, rfl, hplace, depth.toNat, ?_⟩
      unfold SheetM.indented
      rw [if_neg (by simp)]
    · exact h.assigned k (by omega) v hkv
  · exact h.held
  · rintro k ⟨line, hline, hhidden⟩
    rw [List.getElem?_modify] at hline
    obtain ⟨old, hold, rfl⟩ := Option.map_eq_some_iff.1 hline
    have hold' : old.visible = false := by
      split at hhidden <;> exact hhidden
    obtain ⟨hk, v, hkv, hin⟩ := h.hidden k ⟨old, hold, hold'⟩
    refine ⟨by omega, v, hkv, Or.inr ?_⟩
    rcases hin with hin | ⟨j, hkj, hjn, other, hother, hi, hw⟩
    · refine ⟨n, hk, by omega, _, by rw [hwritten, if_pos rfl], (hin.trans hp).trans hbody, ?_⟩
      intro w hw
      exact hin.trans (hv w hw).1
    · exact ⟨j, hkj, by omega, other, by rw [hwritten, if_neg (by omega), hother], hi, hw⟩

/-- A hidden line assigns a value to a place, and a line that shows has this value in it: of the lines that
it was passed on to, the last one is not hidden. -/
theorem exists_shown (h : Traced values n n [] s) {k : Nat} (hk : s.Hides k) :
    ∃ text place value, s.written[k]? = some text ∧ Assigns text place value ∧
      ∃ j other, s.written[j]? = some other ∧ ¬s.Hides j ∧ value.toList <:+: other.toList := by
  have hlast : ∀ (d k : Nat), n - k = d → s.Hides k → ∃ v, values k = some v ∧
      ∃ j other, s.written[j]? = some other ∧ ¬s.Hides j ∧ v.toList <:+: other.toList := by
    intro d
    induction d using Nat.strongRecOn with
    | ind d ih =>
      intro k hd hk
      obtain ⟨hn, v, hv, hin⟩ := h.hidden k hk
      rcases hin with hin | ⟨j, hkj, hjn, text, htext, hi, hw⟩
      · -- an empty value is anywhere, so in the first line, which is never hidden
        obtain ⟨line, hline, _⟩ := hk
        have hlt : 0 < s.written.length := by
          have hk := (List.getElem?_eq_some_iff.1 hline).1
          simp only [Sheet.written, List.length_map]
          omega
        refine ⟨v, hv, 0, s.written[0], List.getElem?_eq_getElem hlt, ?_, ?_⟩
        · intro hfirst
          obtain ⟨_, w, hw, _⟩ := h.hidden 0 hfirst
          rw [h.first] at hw
          cases hw
        · rw [List.infix_nil.1 hin]
          exact List.nil_infix
      · by_cases hj : s.Hides j
        · obtain ⟨w, hvw, i, other, hother, hshown, hiw⟩ := ih (n - j) (by omega) j rfl hj
          exact ⟨v, hv, i, other, hother, hshown, (hw w hvw).trans hiw⟩
        · exact ⟨v, hv, j, text, htext, hj, hi⟩
  obtain ⟨v, hv, hshown⟩ := hlast (n - k) k rfl hk
  obtain ⟨text, place, htext, ha⟩ := h.assigned k (h.hidden k hk).1 v hv
  exact ⟨text, place, v, htext, ha, hshown⟩

end Traced

namespace SheetM

variable {values : Nat → Option String} {n m : Nat} {pending : List Char} {s t : Sheet}

/-- Hiding a line puts its value into the text that is pending. -/
theorem traced_readPlace (h : Traced values n n pending s) {scope : Scope} {name : String} {text : List Char}
    (hok : readPlace scope name s = .ok text t) : Traced values n n (pending ++ text) t := by
  have hgrown := h.pending_mono (List.prefix_append pending text).isInfix
  have hy : Yields (readPlace scope name) s fun a u => a = text ∧ u = t := ⟨_, _, hok, rfl, rfl⟩
  unfold readPlace at hy
  split at hy
  · obtain ⟨_, rfl⟩ := yields_pure.1 hy
    exact hgrown
  · next binding _ =>
    cases binding with
    | context _ => simp [registerOf] at hy
    | register i =>
      simp only [registerOf, register, yields_bind, yields_pure, yields_get, yields_ite] at hy
      split at hy
      · obtain ⟨_, u, hshow, rfl, rfl⟩ := hy
        exact hgrown.mild (mild_showAll _ _ _ _ hshow)
      · next ho =>
        simp only [yields_need] at hy
        obtain ⟨first, hfirst, _, u, hhide, rfl, rfl⟩ := hy
        have hr : s.register i ∈ s.registers := by
          unfold Sheet.register at hfirst ⊢
          cases hi : s.registers[i]? with
          | none =>
            rw [hi] at hfirst
            cases hfirst
          | some r => exact List.mem_of_getElem? hi
        obtain ⟨k, hk, hv⟩ := h.held _ hr (by simpa using ho)
        rw [hk] at hfirst
        cases hfirst
        obtain ⟨j, hj, rfl⟩ := changeLine_eq_ok hhide
        rw [eq_of_index? hj]
        exact hgrown.hide hv (List.suffix_append _ _).isInfix

theorem traced_readPlaces (h : Traced values n n [] s) {scope : Scope} {line text : String}
    (hok : readPlaces line scope s = .ok text t) : Traced values n n text.toList t := by
  have hgo : ∀ (ps : List (Piece String)) {pending : List Char} {s : Sheet} {out : List Char} {t : Sheet},
      Traced values n n pending s → substituteM.go (readPlace scope) ps s = .ok out t →
      Traced values n n (pending ++ out) t := by
    intro ps
    induction ps with
    | nil =>
      intro pending s out t h hok
      cases hok
      exact h.pending_mono (List.prefix_append _ _).isInfix
    | cons p ps ih =>
      intro pending s out t h hok
      cases p with
      | plain c =>
        obtain ⟨rest, u, hrest, hok⟩ := bind_eq_ok.1 hok
        cases hok
        have htail := ih (h.pending_mono (List.prefix_append pending [c]).isInfix) hrest
        rwa [List.append_assoc] at htail
      | hit name =>
        obtain ⟨put, u, hput, hok⟩ := bind_eq_ok.1 hok
        obtain ⟨rest, v, hrest, hok⟩ := bind_eq_ok.1 hok
        cases hok
        have htail := ih (traced_readPlace h hput) hrest
        rwa [List.append_assoc] at htail
  obtain ⟨out, u, hout, hok⟩ := bind_eq_ok.1 hok
  cases hok
  rw [String.toList_ofList]
  exact hgo _ h hout

/-- The text of the line under way is known: it holds what is pending, and so does the value that the line may
pass on. -/
def Ready (s : Sheet) (n : Nat) (text : String) : Prop :=
  ∃ values m pending, Traced values n m pending s ∧ m ≤ n + 1 ∧ pending <:+: text.toList ∧
    ∀ v, values n = some v → pending <:+: v.toList ∧ ∃ place, IsPlace place ∧ text = place ++ " = " ++ v

/-- A text that the line does not pass on. -/
theorem Ready.of_traced (h : Traced values n n pending s) {text : String} (hp : pending <:+: text.toList) :
    Ready s n text := by
  refine ⟨values, n, pending, h, by omega, hp, ?_⟩
  intro v hv
  rw [h.fresh n (le_refl n)] at hv
  cases hv

theorem ready_assign {name value : String} (h : Traced values n n value.toList s) (hn : 0 < n)
    (hi : s.index = n) (hname : IsPlace name) {scope outer : Scope} {writes : Writes}
    {result : Scope × Writes} (hok : assign name value scope outer writes s = .ok result t) :
    Ready t n (name ++ " = " ++ value) := by
  have hin : value.toList <:+: (name ++ " = " ++ value).toList := by
    rw [String.toList_append]
    exact (List.suffix_append _ _).isInfix
  obtain ⟨_, u, hnote, hok⟩ := bind_eq_ok.1 hok
  obtain ⟨_, w, hover, hok⟩ := bind_eq_ok.1 hok
  have hw := (h.mild (mild_noteWrite _ _ _ _ _ _ hnote)).mild (mild_overwriteReaders _ _ _ _ _ hover)
  have hwi : w.index = n := by
    rw [((still_overwriteReaders _ _ u).of_ok hover).1, ((still_noteWrite _ _ _ s).of_ok hnote).1, hi]
  split at hok
  · obtain ⟨_, _, hget, hok⟩ := bind_eq_ok.1 hok
    cases hget
    obtain ⟨_, _, hadd, hok⟩ := bind_eq_ok.1 hok
    cases hadd
    cases hok
    refine ⟨_, n + 1, _, hw.assign hn hwi value, le_refl _, hin, ?_⟩
    intro v hv
    rw [Function.update_self] at hv
    cases hv
    exact ⟨List.infix_refl _, name, hname, rfl⟩
  · cases hok
    exact .of_traced hw hin

theorem ready_readLine (h : Traced values n n [] s) (hn : 0 < n) (hi : s.index = n) {line text : String}
    {scope outer scope' : Scope} {writes writes' : Writes}
    (hok : readLine line scope outer writes s = .ok (text, scope', writes') t) : Ready t n text := by
  unfold readLine at hok
  cases hassign : assignment? line with
  | none =>
    rw [hassign] at hok
    obtain ⟨stored, u, hstored, hok⟩ := bind_eq_ok.1 hok
    have hu := h.mild (mild_returnStored? _ _ _ _ _ hstored)
    cases stored with
    | some stored =>
      cases hok
      exact .of_traced hu List.nil_infix
    | none =>
      obtain ⟨read, w, hread, hok⟩ := bind_eq_ok.1 hok
      cases hok
      exact .of_traced (traced_readPlaces hu hread) (List.infix_refl _)
  | some assigned =>
    rw [hassign] at hok
    obtain ⟨value, u, hread, hok⟩ := bind_eq_ok.1 hok
    obtain ⟨result, w, hresult, hok⟩ := bind_eq_ok.1 hok
    cases hok
    have hui : u.index = n := ((still_readPlaces _ _ s).of_ok hread).1.trans hi
    exact ready_assign (traced_readPlaces h hread) hn hui (assignment?_eq_some hassign) hresult

/-! ## The whole run -/

/-- All lines before the current one have their texts, and what was hidden is in them. -/
def Before (s : Sheet) : Prop := ∃ values, ∃ n : Nat, Traced values n n [] s ∧ s.index = n

def After (s : Sheet) : Prop := ∃ values, ∃ n : Nat, Traced values (n + 1) (n + 1) [] s ∧ s.index = n

theorem Before.mild (h : Before s) (hm : Milder s t) (hi : t.index = s.index) : Before t := by
  obtain ⟨values, n, ht, hn⟩ := h
  exact ⟨values, n, ht.mild hm, hi.trans hn⟩

theorem After.mild (h : After s) (hm : Milder s t) (hi : t.index = s.index) : After t := by
  obtain ⟨values, n, ht, hn⟩ := h
  exact ⟨values, n, ht.mild hm, hi.trans hn⟩

theorem Before.ready (h : Before s) (text : String) : ∃ n : Nat, s.index = n ∧ Ready s n text := by
  obtain ⟨values, n, ht, hn⟩ := h
  exact ⟨n, hn, .of_traced ht List.nil_infix⟩

theorem after_setText {text : String} (h : Ready s n text) (hi : s.index = n)
    (hok : setText text s = .ok () t) : After t := by
  obtain ⟨values, m, pending, ht, hm, hp, hv⟩ := h
  have hindex := ((still_setText text s).of_ok hok).1
  obtain ⟨_, _, hget, hok⟩ := bind_eq_ok.1 hok
  cases hget
  obtain ⟨i, hlt, rfl⟩ := changeLine_eq_ok hok
  rw [hi] at hlt
  have hin := eq_of_index? hlt
  subst hin
  exact ⟨values, i, ht.text hm s.indent hp hv (index?_lt hlt), hindex.trans hi⟩

theorem before_nextLine (h : After s) {line : String} (hok : nextLine s = .ok line t) :
    Before t ∧ 0 < t.index := by
  obtain ⟨values, n, ht, hn⟩ := h
  have hmild := mild_nextLine _ _ _ hok
  obtain ⟨_, _, hmove, hok⟩ := bind_eq_ok.1 hok
  cases hmove
  have hrest : Still (do
      let sheet ← get
      if sheet.code.length ≤ sheet.index then
        say "Error decompiling \x7bself.sfi.name\x7d, no more lines."
      return (← lineAt sheet.index).rendered : SheetM String) := by grind
  have hi : t.index = ((n + 1 : Nat) : Int) := by
    rw [((hrest _).of_ok hok).1]
    simp [hn]
  exact ⟨⟨values, n + 1, ht.mild hmild, hi⟩, by omega⟩

theorem after_substituteLine (h : Before s) (hpos : 0 < s.index) {line text : String}
    {scope outer scope' : Scope} {writes writes' : Writes} {u : Sheet}
    (hok : substituteLine line scope outer writes s = .ok (text, scope', writes') u)
    (htext : setText text u = .ok () t) : After t := by
  obtain ⟨values, n, ht, hn⟩ := h
  obtain ⟨resolved, w, hresolved, hread⟩ := bind_eq_ok.1 hok
  have hwi : w.index = n := ((still_resolveLine _ _ _ s).of_ok hresolved).1.trans hn
  have hready := ready_readLine (ht.mild (mild_resolveLine _ _ _ _ _ _ hresolved)) (by omega) hwi hread
  exact after_setText hready (((still_readLine _ _ _ _ w).of_ok hread).1.trans hwi) htext

/-- Once the current line has its text, what stays at the line and shows nothing less may follow. -/
theorem After.then {α : Type} (h : After s) {act : SheetM α} (hm : Mild act) (hs : Still act) {a : α}
    (hok : act s = .ok a t) : After t := h.mild (hm _ _ _ hok) ((hs s).of_ok hok).1

theorem after_enterBlock (h : Before s) {kind : BlockKind} {outer scope : Scope}
    (hok : enterBlock kind outer s = .ok scope t) : After t := by
  have hopened : ∀ {u v : Sheet} {inner : Scope}, Before u → (do
      setText "\x7b"
      shiftIndent 1
      return inner : SheetM Scope) u = .ok scope v → After v := by
    intro u v inner hu hrest
    obtain ⟨_, w, htext, hrest⟩ := bind_eq_ok.1 hrest
    obtain ⟨n, hn, hready⟩ := hu.ready "\x7b"
    have hbrace := after_setText hready hn htext
    refine hbrace.then (mild_bind (mild_shiftIndent 1) fun _ => mild_pure inner) ?_ hrest
    exact still_bind (still_shiftIndent 1) fun _ => still_pure inner
  unfold enterBlock at hok
  split at hok
  · obtain ⟨inner, u, hloop, hok⟩ := bind_eq_ok.1 hok
    exact hopened (h.mild (mild_loopScope _ _ _ _ hloop) ((still_loopScope _ s).of_ok hloop).1) hok
  · exact hopened h hok

theorem after_leaveBlock (h : Before s) {kind : BlockKind} {outer scope result : Scope} {writes : Writes}
    (hok : leaveBlock kind outer scope writes s = .ok result t) : After t := by
  obtain ⟨_, u, hshift, hok⟩ := bind_eq_ok.1 hok
  obtain ⟨_, v, htext, hok⟩ := bind_eq_ok.1 hok
  obtain ⟨n, hn, hready⟩ := (h.mild (mild_shiftIndent _ _ _ _ hshift)
    ((still_shiftIndent _ s).of_ok hshift).1).ready "\x7d"
  refine (after_setText hready hn htext).then ?_ ?_ hok
  · grind
  · grind

theorem after_withinBlock {lines : Scope → Scope → SheetM (Scope × Writes)} (hlines : ∀ outer scope s result t,
    After s → lines outer scope s = .ok result t → Before t) (h : Before s) {outer scope : Scope}
    (hok : withinBlock lines outer s = .ok scope t) : After t := by
  obtain ⟨_, _, hget, hok⟩ := bind_eq_ok.1 hok
  cases hget
  obtain ⟨kind, s₁, hkind, hok⟩ := bind_eq_ok.1 hok
  obtain ⟨_, _, rfl, rfl⟩ := yields_ofExcept.1
    (⟨kind, s₁, hkind, rfl, rfl⟩ : Yields (Run.ofExcept _) s fun a u => a = kind ∧ u = s₁)
  obtain ⟨inner, s₂, henter, hok⟩ := bind_eq_ok.1 hok
  obtain ⟨⟨closing, writes⟩, s₃, hclosing, hleave⟩ := bind_eq_ok.1 hok
  exact after_leaveBlock (hlines _ _ _ _ _ (after_enterBlock h henter) hclosing) hleave

theorem before_substituteLines : ∀ (bound : Nat) {s t : Sheet} {outer scope : Scope} {writes : Writes}
    {result : Scope × Writes}, After s → substituteLines bound outer scope writes s = .ok result t → Before t
  | 0, _, _, _, _, _, _, _, hok => by cases hok
  | bound + 1, s, t, outer, scope, writes, result, h, hok => by
    obtain ⟨line, u, hnext, hok⟩ := bind_eq_ok.1 hok
    obtain ⟨hu, hpos⟩ := before_nextLine h hnext
    split at hok
    · cases hok
      exact hu
    split at hok
    · obtain ⟨_, w, hblock, hok⟩ := bind_eq_ok.1 hok
      refine before_substituteLines bound (after_withinBlock ?_ hu hblock) hok
      intro outer scope s result t hs hlines
      exact before_substituteLines bound hs hlines
    · obtain ⟨⟨text, scope', writes'⟩, w, hline, hok⟩ := bind_eq_ok.1 hok
      obtain ⟨_, x, htext, hok⟩ := bind_eq_ok.1 hok
      exact before_substituteLines bound (after_substituteLine hu hpos hline htext) hok

theorem after_substituteBlock (h : Before s) {outer scope : Scope}
    (hok : substituteBlock outer s = .ok scope t) : After t := by
  obtain ⟨_, _, hget, hok⟩ := bind_eq_ok.1 hok
  cases hget
  exact after_withinBlock (fun _ _ _ _ _ hs hlines => before_substituteLines _ hs hlines) h hok

theorem after_substituteAll (h : Before s) {name : String} {declarer : Option String}
    (hok : substituteAll name declarer s = .ok () t) : After t := by
  obtain ⟨context, u, hstart, hok⟩ := bind_eq_ok.1 hok
  obtain ⟨scope, v, hblock, hok⟩ := bind_eq_ok.1 hok
  have hu := h.mild (mild_startContext _ _ _ _ _ hstart) ((still_startContext _ _ s).of_ok hstart).1
  exact (after_substituteBlock hu hblock).then (by grind) (by grind) hok

end SheetM

end Bytelift.Substitution

namespace Bytelift

open Substitution Substitution.SheetM

/-- If all lines of a function show before values are put in for the places, then each line that is hidden
afterwards assigns a value to a place, and this value stands in a line that shows. -/
theorem hidden_value_shown {f g : Function} {desk desk' : Desk}
    (hv : ∀ line ∈ f.lines, line.visible = true) (hok : f.substitute desk = .ok g desk') :
    ∀ line ∈ g.lines, line.visible = false → ∃ place value, Assigns line.text place value ∧
      ∃ other ∈ g.lines, other.visible = true ∧ value.toList <:+: other.text.toList := by
  unfold Function.substitute at hok
  split at hok
  · cases hok
  next code hcode =>
  dsimp only at hok
  split at hok
  · next t hall =>
    cases hok
    have hbefore : Before { code, pool := f.pool, contexts := desk.contexts, console := desk.console } := by
      refine ⟨fun _ => none, 0, ⟨fun _ _ => rfl, rfl, fun _ _ _ h => (by cases h), by simp, ?_⟩, rfl⟩
      rintro k ⟨line, hline, hhidden⟩
      rw [hv line (by simpa [Function.lines, hcode] using List.mem_of_getElem? hline)] at hhidden
      cases hhidden
    obtain ⟨values, n, ht, _⟩ := after_substituteAll hbefore hall
    intro line hline hhidden
    obtain ⟨k, hk⟩ := List.mem_iff_getElem?.1 hline
    obtain ⟨text, place, value, htext, hassigns, j, other, hother, hshown, hin⟩ :=
      ht.exists_shown ⟨line, hk, hhidden⟩
    simp only [Sheet.written, List.getElem?_map, Option.map_eq_some_iff] at htext hother
    obtain ⟨line', hline', rfl⟩ := htext
    obtain ⟨shown, hj, rfl⟩ := hother
    obtain rfl : line = line' := Option.some.inj (hk.symm.trans hline')
    refine ⟨place, value, hassigns, shown, List.mem_of_getElem? hj, ?_, hin⟩
    by_contra hvisible
    exact hshown ⟨shown, hj, by simpa using hvisible⟩
  · cases hok

/-- A value that goes from the accumulator into a register, from there into a sum, and with the sum into
another register. -/
def passedOn : Function where
  name := "f"
  code := some (["\x7b", "ACCU = 5", "r0 = ACCU", "ACCU = (r0 + a0)", "r1 = ACCU", "return ACCU", "\x7d"].map
    CodeLine.added)

theorem hidden_value_shown_passedOn : (∀ line ∈ passedOn.lines, line.visible = true) ∧
    ∃ g desk, passedOn.substitute {} = .ok g desk ∧
      g.lines.map (·.visible) = [true, false, false, false, true, true, true] ∧
      ∀ line ∈ g.lines, line.visible = false → ∃ place value, Assigns line.text place value ∧
        ∃ other ∈ g.lines, other.visible = true ∧ value.toList <:+: other.text.toList := by
  have hv : ∀ line ∈ passedOn.lines, line.visible = true := by decide
  have hrun : (match passedOn.substitute {} with
      | .ok g _ => some (g.lines.map (·.visible))
      | .error _ _ => none) = some [true, false, false, false, true, true, true] := by decide +kernel
  split at hrun
  · next g desk hok => exact ⟨hv, g, desk, hok, Option.some.inj hrun, hidden_value_shown hv hok⟩
  · cases hrun

end Bytelift
