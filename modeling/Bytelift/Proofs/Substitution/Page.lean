import Bytelift.Proofs.Straight

/-! Straight-line code under substitution, as a function of its lines. Every line is gone through once, in order;
what the places hold on the way tells the text of each line and which of them show. -/

namespace Bytelift

namespace Substitution

open Run Text

/-- What a place holds: a value, the line that gave it, and whether a place in it has been written since. -/
structure Held where
  value : String
  line : Nat
  stale : Bool := false

/-- Lines on their way: what the places hold, the code, and the line that has been come to. -/
structure Page where
  held : String → Option Held
  code : List CodeLine
  count : Nat

namespace Page

def stand (page : Page) (name : String) : String :=
  match page.held name with
  | some h => if h.stale then name else h.value
  | none => name

def put (page : Page) (text : String) : String :=
  String.ofList (substitute place (fun name => (page.stand name).toList) text.toList)

/-- Reading a place hides the line of its value, or shows it if the value stands no more. -/
def touch (page : Page) (name : String) : Page :=
  match page.held name with
  | some h => { page with code := page.code.modify h.line fun line => { line with visible := h.stale } }
  | none => page

def read (page : Page) (names : List String) : Page := names.foldl touch page

/-- A place takes a value. What other places hold stands no more if the place occurs in it. -/
def give (page : Page) (name value : String) : Page :=
  { page with
    held := fun q =>
      if q = name then if isConstant name value then some { value, line := page.count } else none
      else (page.held q).map fun h => { h with stale := h.stale || occursIn name.toList h.value.toList } }

def write (page : Page) (text : String) : Page :=
  { page with code := page.code.modify page.count fun line => { line with text := SheetM.indented 1 text } }

/-- The register that a value was last stored in, among lines of which the last one comes first. -/
def storedIn (value : String) : List CodeLine → Option String
  | [] => none
  | line :: lines =>
    if !line.shows then storedIn value lines
    else match SheetM.store? (strip line.text) with
      | some (name, stored) => if stored = value then some name else storedIn value lines
      | none => if opensWith (strip line.text) "ACCU = " then none else storedIn value lines

/-- The register that a line returns for the accumulator. -/
def returned? (page : Page) (line : String) : Option String :=
  if strip line ≠ "return ACCU" then none
  else match page.held "ACCU" with
    | none => none
    | some h => if h.stale then none else storedIn h.value (page.code.take page.count).reverse

def reads (page : Page) (line : String) : List String :=
  match assignment? line with
  | some (_, value) => hits place value.toList
  | none => if (page.returned? line).isSome then [] else hits place line.toList

def said (page : Page) (line : String) : String :=
  match assignment? line with
  | some (name, value) => name ++ " = " ++ page.put value
  | none =>
    match page.returned? line with
    | some name => "return " ++ name
    | none => page.put line

def step (page : Page) (line : String) : Page :=
  let read := page.read (page.reads line)
  write (match assignment? line with
    | some (name, value) => read.give name (page.put value)
    | none => read) (page.said line)

def next (page : Page) : Page := { page with count := page.count + 1 }

def run (page : Page) (lines : List String) : Page := lines.foldl (fun page line => page.next.step line) page

/-! ## Places in texts -/

section Texts

variable {page : Page} {name : String} {text rest : List Char}

theorem place?_append (h : IsPlace name) (hr : Ends rest) : place? (name.toList ++ rest) =
    some (name.toList, rest) := by
  rcases h with rfl | ⟨lead, hlead, ds, hne, hd, hname⟩
  · rfl
  · have hnumbered : numbered? lead (lead.toList ++ (ds ++ rest)) = some (lead.toList ++ ds, rest) := by
      rw [numbered?, after?_append, Option.bind_some, digits?_run hne hd hr]
      rfl
    rw [hname, List.append_assoc, place?, register?]
    simp only [List.mem_cons, List.not_mem_nil, or_false] at hlead
    rcases hlead with rfl | rfl | rfl
    · rw [hnumbered]
      rfl
    · rw [hnumbered]
      rfl
    · rw [hnumbered]
      rfl

theorem assignment?_append (h : IsPlace name) (value : String) :
    assignment? (name ++ " = " ++ value) = some (name, value) := by
  have hends : Ends (" = ".toList ++ value.toList) := ends_cons (by decide)
  have hplace := place?_append h hends
  simp only [assignment?, String.toList_append, List.append_assoc, hplace, Option.bind_some, after?_append,
    Option.map_some, String.ofList_toList]

/-- A text without the first letters of places names none. -/
theorem substitute_bare (h : ∀ c ∈ text, c ∉ openings) (f : String → List Char) :
    substitute place f (text ++ rest) = text ++ substitute place f rest ∧
      hits place (text ++ rest) = hits place rest := by
  have hpieces := forward_place.pieces_append (fun c hc cs => place_eq_none (h c hc) cs) rest
  constructor
  · rw [substitute, hpieces, List.flatMap_append, List.flatMap_map]
    simp [substitute]
  · rw [hits, hpieces, List.filterMap_append, List.filterMap_map]
    simp [hits]

theorem put_append {before : String} (h : ∀ c ∈ before.toList, c ∉ openings) (text : String) :
    page.put (before ++ text) = before ++ page.put text := by
  rw [← String.toList_inj]
  simp [put, (substitute_bare h _).1]

theorem exists_opening (h : IsPlace name) : ∃ d ∈ openings, ∃ ds, name.toList = d :: ds := by
  rcases h with rfl | ⟨lead, hlead, ds, _, _, hname⟩
  · exact ⟨'A', by decide, _, rfl⟩
  · simp only [List.mem_cons, List.not_mem_nil, or_false] at hlead
    rcases hlead with rfl | rfl | rfl
    · exact ⟨'C', by decide, _, hname⟩
    · exact ⟨'r', by decide, _, hname⟩
    · exact ⟨'a', by decide, _, hname⟩

end Texts

/-! ## What a step leaves alone -/

variable {page : Page} {scope : Scope} {s : Sheet} {name text value line : String}

theorem touch_held : (page.touch name).held = page.held := by
  unfold touch
  split <;> rfl

theorem touch_count : (page.touch name).count = page.count := by
  unfold touch
  split <;> rfl

theorem length_touch : (page.touch name).code.length = page.code.length := by
  unfold touch
  split
  · exact List.length_modify ..
  · rfl

theorem read_eq (page : Page) (names : List String) : (page.read names).held = page.held ∧
    (page.read names).count = page.count ∧ (page.read names).code.length = page.code.length := by
  unfold read
  induction names generalizing page with
  | nil => exact ⟨rfl, rfl, rfl⟩
  | cons name names ih =>
    obtain ⟨hh, hc, hl⟩ := ih (page.touch name)
    exact ⟨hh.trans touch_held, hc.trans touch_count, hl.trans length_touch⟩

/-! ## The sheet -/

/-- The sheet is where the page is: it has the same code, and its scope binds the places that hold something. -/
structure Tracks (page : Page) (scope : Scope) (s : Sheet) : Prop where
  code : s.code = page.code
  indent : s.indent = 1
  index : s.index = page.count
  inside : ∀ {name h}, page.held name = some h → h.line < page.code.length
  bound : ∀ {name h}, page.held name = some h → ∃ i, scope.get? name = some (.register i) ∧
    s.registers[i]? = some { value := h.value, overwritten := h.stale, writtenAt := [(h.line : Int)] }
  free : ∀ {name}, page.held name = none → name ≠ contextName → scope.get? name = none

/-- Two sheets that differ in nothing but the code and the registers. -/
def Beside (s t : Sheet) : Prop := t = { s with code := t.code, registers := t.registers }

theorem Beside.trans {s t u : Sheet} (h : Beside s t) (h' : Beside t u) : Beside s u := by
  obtain ⟨⟩ := s
  obtain ⟨⟩ := t
  obtain ⟨⟩ := u
  simp_all [Beside]

theorem ne_contextName (h : IsPlace name) : name ≠ contextName := by
  rintro rfl
  rcases h with h | ⟨lead, hlead, ds, _, _, h⟩
  · exact absurd h (by decide)
  · simp only [List.mem_cons, List.not_mem_nil, or_false] at hlead
    rcases hlead with rfl | rfl | rfl <;> simp [contextName] at h

theorem isPlace_of_mem_hits {text : List Char} {name : String} (hm : name ∈ hits place text) : IsPlace name := by
  induction text using forward_place.induction with
  | nil => simp [hits, pieces, scan] at hm
  | plain c cs hr ih => exact ih (forward_place.hits_plain hr ▸ hm)
  | hit c cs first rest hr ih =>
    rw [forward_place.hits_hit hr] at hm
    rcases List.mem_cons.1 hm with rfl | hm
    · obtain ⟨⟨chars, _⟩, hplace, he⟩ := Option.map_eq_some_iff.1 hr
      cases he
      exact (place?_eq_some hplace).2
    · exact ih hm

namespace Tracks

theorem yields_readPlace (h : Tracks page scope s) (hname : IsPlace name) :
    Yields (SheetM.readPlace scope name) s fun cs t => cs = (page.stand name).toList ∧
      Tracks (page.touch name) scope t ∧ Beside s t := by
  unfold SheetM.readPlace stand touch
  cases hheld : page.held name with
  | none =>
    rw [h.free hheld (ne_contextName hname), yields_pure]
    exact ⟨rfl, h, rfl⟩
  | some held =>
    obtain ⟨i, hi, hr⟩ := h.bound hheld
    have hregister : s.register i =
        { value := held.value, overwritten := held.stale, writtenAt := [(held.line : Int)] } := by
      rw [Sheet.register, hr]
      rfl
    have hlt : held.line < s.code.length := h.code ▸ h.inside hheld
    have htouched : ∀ visible, Tracks { page with
        code := page.code.modify held.line fun line => { line with visible } } scope
        { s with code := s.code.modify held.line fun line => { line with visible } } := fun visible =>
      ⟨by rw [h.code], h.indent, h.index, fun hh => by simpa using h.inside hh, h.bound, h.free⟩
    rw [hi]
    simp only [SheetM.registerOf, SheetM.register, yields_bind, yields_pure, yields_get, hregister]
    cases hs : held.stale with
    | true =>
      simp only [if_true, SheetM.showAll, yields_bind, yields_pure]
      rw [SheetM.setVisible, SheetM.yields_changeLine hlt]
      exact ⟨by simp, htouched true, rfl⟩
    | false =>
      simp only [Bool.false_eq_true, if_false, List.head?_cons, yields_bind, yields_need, yields_pure,
        Option.some.injEq,
        exists_eq_left']
      rw [SheetM.setVisible, SheetM.yields_changeLine hlt]
      exact ⟨by simp, htouched false, rfl⟩

theorem stand_touch (page : Page) (name : String) : (page.touch name).stand = page.stand := by
  funext q
  rw [stand, stand, touch_held]

/-- Reading a text puts in what stands for its places. -/
theorem yields_readPlaces (h : Tracks page scope s) (text : String) :
    Yields (SheetM.readPlaces text scope) s fun read t => read = page.put text ∧
      Tracks (page.read (hits place text.toList)) scope t ∧ Beside s t := by
  have hgo : ∀ (chars : List Char), (∀ name ∈ hits place chars, IsPlace name) → ∀ {page : Page} {s : Sheet},
      Tracks page scope s → Yields (substituteM place (SheetM.readPlace scope) chars) s fun cs t =>
        cs = substitute place (fun name => (page.stand name).toList) chars ∧
        Tracks ((hits place chars).foldl touch page) scope t ∧ Beside s t := by
    intro chars
    induction chars using forward_place.induction with
    | nil =>
      intro _ page s h
      exact yields_pure.2 ⟨rfl, h, rfl⟩
    | plain c cs hr ih =>
      intro hplaces page s h
      rw [forward_place.hits_plain hr] at hplaces ⊢
      rw [forward_place.substitute_plain _ hr, substituteM, forward_place.pieces_plain hr, substituteM.go, yields_bind]
      refine (ih hplaces h).mono ?_
      rintro rest t ⟨rfl, ht⟩
      exact yields_pure.2 ⟨rfl, ht⟩
    | hit c cs name rest hr ih =>
      intro hplaces page s h
      rw [forward_place.hits_hit hr] at hplaces ⊢
      rw [forward_place.substitute_hit _ hr, substituteM, forward_place.pieces_hit hr, substituteM.go, yields_bind]
      refine (h.yields_readPlace (hplaces name List.mem_cons_self)).mono ?_
      rintro first t ⟨rfl, ht, hst⟩
      rw [yields_bind]
      refine (ih (fun q hq => hplaces q (List.mem_cons_of_mem _ hq)) ht).mono ?_
      rintro more u ⟨rfl, hu, htu⟩
      rw [stand_touch]
      exact yields_pure.2 ⟨rfl, hu, hst.trans htu⟩
  rw [SheetM.readPlaces, yields_bind]
  refine (hgo _ (fun _ => isPlace_of_mem_hits) h).mono ?_
  rintro cs t ⟨rfl, ht⟩
  exact yields_pure.2 ⟨rfl, ht⟩

/-! ## Assignments -/

/-- A register with its value marked, if that has a place in it. -/
def marked (name : String) (among : Bool) (r : Register) : Register :=
  { r with overwritten := r.overwritten || (among && occursIn name.toList r.value.toList) }

theorem marked_marked (name : String) (first second : Bool) (r : Register) :
    marked name second (marked name first r) = marked name (first || second) r := by
  cases first <;> cases second <;> simp [marked]

/-- The registers that are bound are marked if they have a place in their value. -/
theorem yields_overwriteReaders (name : String) : ∀ (bindings : List (String × Binding)) {s : Sheet},
    Yields (SheetM.overwriteReaders name bindings) s fun _ t => t = { s with registers := t.registers } ∧
      ∀ i r, s.registers[i]? = some r →
        t.registers[i]? = some (marked name (bindings.any fun b => b.2 = .register i) r)
  | [], s => by
    rw [SheetM.overwriteReaders, yields_pure]
    exact ⟨rfl, fun i r hr => by simpa [marked] using hr⟩
  | (_, .context _) :: rest, s => by
    rw [SheetM.overwriteReaders]
    refine (yields_overwriteReaders name rest).mono ?_
    rintro _ t ⟨ht, hr⟩
    exact ⟨ht, by simpa using hr⟩
  | (bound, .register j) :: rest, s => by
    -- the register at the head is marked first, then those of the others
    have hrest : ∀ registers : List Register, (∀ i r, s.registers[i]? = some r →
        registers[i]? = some (marked name (decide (Binding.register j = .register i)) r)) →
        Yields (SheetM.overwriteReaders name rest) { s with registers } fun _ t =>
          t = { s with registers := t.registers } ∧ ∀ i r, s.registers[i]? = some r → t.registers[i]? =
            some (marked name (((bound, Binding.register j) :: rest).any fun b => b.2 = .register i) r) := by
      intro registers hregisters
      refine (yields_overwriteReaders name rest).mono ?_
      rintro _ t ⟨ht, hr⟩
      refine ⟨ht, fun i r hi => ?_⟩
      rw [hr i _ (hregisters i r hi), marked_marked, List.any_cons]
    rw [SheetM.overwriteReaders]
    simp only [SheetM.register, yields_bind, yields_get, yields_pure]
    split
    · next ho =>
      rw [yields_bind, SheetM.changeRegister, yields_modify]
      refine hrest _ fun i r hi => ?_
      by_cases hj : j = i
      · subst hj
        rw [Sheet.register, hi, Option.getD_some] at ho
        simp [marked, hi, ho]
      · simp [marked, List.getElem?_modify_ne, hj, hi]
    · next ho =>
      refine hrest _ fun i r hi => ?_
      by_cases hj : j = i
      · subst hj
        rw [Sheet.register, hi, Option.getD_some] at ho
        simp [marked, hi, ho]
      · simp [marked, hj, hi]

/-- A place takes a value. -/
theorem yields_assign {outer : Scope} (h : Tracks page scope s) (hname : IsPlace name)
    (hsize : page.count < page.code.length) (hout : outer.get? name = none) (value : String) :
    Yields (SheetM.assign name value scope outer {}) s fun result t => result.2 = {} ∧
      Tracks (page.give name value) result.1 t ∧ Beside s t ∧
      result.1.get? contextName = scope.get? contextName := by
  rw [SheetM.assign, yields_bind, SheetM.noteWrite, hout, yields_pure, yields_bind]
  refine (yields_overwriteReaders name (scope.erase name).entries).mono ?_
  rintro _ t ⟨ht, hmarked⟩
  have hne := ne_contextName hname
  -- what the other places hold, once the place has been written
  have hothers : ∀ {q held}, q ≠ name → (page.held q).map (fun h => { h with
      stale := h.stale || occursIn name.toList h.value.toList }) = some held → ∃ i,
        (scope.erase name).get? q = some (.register i) ∧ t.registers[i]? =
          some { value := held.value, overwritten := held.stale, writtenAt := [(held.line : Int)] } := by
    intro q held hq hheld
    obtain ⟨old, hold, rfl⟩ := Option.map_eq_some_iff.1 hheld
    obtain ⟨i, hi, hr⟩ := h.bound hold
    have hget : (scope.erase name).get? q = some (.register i) := by rw [Table.get?_erase, if_neg (Ne.symm hq), hi]
    have hany : (scope.erase name).entries.any (fun b => b.2 = .register i) = true := by
      rw [List.any_eq_true]
      exact ⟨_, Table.mem_of_get? hget, by simp⟩
    exact ⟨i, hget, by rw [hmarked i _ hr, hany]; simp [marked]⟩
  have hfree : ∀ {q}, q ≠ name → (page.held q).map (fun h => { h with
      stale := h.stale || occursIn name.toList h.value.toList }) = none → q ≠ contextName →
        (scope.erase name).get? q = none := by
    intro q hq hheld hc
    rw [Table.get?_erase, if_neg (Ne.symm hq)]
    exact h.free (by simpa using hheld) hc
  have hin : ∀ {q held}, (page.held q).map (fun h => { h with
      stale := h.stale || occursIn name.toList h.value.toList }) = some held → held.line < page.code.length := by
    intro q held hheld
    obtain ⟨old, hold, rfl⟩ := Option.map_eq_some_iff.1 hheld
    exact @h.inside q old hold
  have hbeside : Beside s t := by
    obtain ⟨⟩ := s
    obtain ⟨⟩ := t
    simp_all [Beside]
  have hcode : t.code = page.code := by rw [ht, h.code]
  have hindent : t.indent = 1 := by rw [ht, h.indent]
  have hindex : t.index = page.count := by rw [ht, h.index]
  split
  · next hc =>
    rw [yields_bind, yields_get, yields_bind]
    refine ⟨_, _, rfl, yields_pure.2 ⟨rfl, ⟨hcode, hindent, hindex, ?_, ?_, ?_⟩, hbeside.trans rfl, ?_⟩⟩
    · intro q held hheld
      simp only [give, hc, if_true] at hheld
      split at hheld
      · cases hheld
        exact hsize
      · exact hin hheld
    · intro q held hheld
      simp only [give, hc, if_true] at hheld
      split at hheld
      · next hq =>
        cases hheld
        exact ⟨t.registers.length, by rw [hq, Table.get?_put, if_pos rfl],
          by simp [hindex]⟩
      · next hq =>
        obtain ⟨i, hi, hr⟩ := hothers hq hheld
        refine ⟨i, by rw [Table.get?_put, if_neg (Ne.symm hq), hi], ?_⟩
        rw [List.getElem?_append_left (List.getElem?_eq_some_iff.1 hr).1, hr]
    · intro q hheld hcontext
      simp only [give, hc, if_true] at hheld
      split at hheld
      · cases hheld
      · next hq =>
        rw [Table.get?_put, if_neg (Ne.symm hq)]
        exact hfree hq hheld hcontext
    · rw [Table.get?_put, if_neg hne, Table.get?_erase, if_neg hne]
  · next hc =>
    refine yields_pure.2 ⟨rfl, ⟨hcode, hindent, hindex, ?_, ?_, ?_⟩, hbeside, ?_⟩
    · intro q held hheld
      simp only [give, hc] at hheld
      split at hheld
      · cases hheld
      · exact hin hheld
    · intro q held hheld
      simp only [give, hc] at hheld
      split at hheld
      · cases hheld
      · next hq => exact hothers hq hheld
    · intro q hheld hcontext
      simp only [give, hc] at hheld
      split at hheld
      · next hq => rw [hq, Table.get?_erase, if_pos rfl]
      · next hq => exact hfree hq hheld hcontext
    · rw [Table.get?_erase, if_neg hne]

/-! ## The return -/

theorem findStore_eq (value : String) : ∀ {n : Nat}, n ≤ s.code.length →
    SheetM.findStore value n s = .ok (storedIn value (s.code.take n).reverse) s
  | 0, _ => rfl
  | n + 1, hn => by
    obtain ⟨line, hline⟩ : ∃ line, s.code[n]? = some line := ⟨_, List.getElem?_eq_getElem hn⟩
    have hearlier := findStore_eq value (n := n) (by omega)
    have htake : (s.code.take (n + 1)).reverse = line :: (s.code.take n).reverse := by
      rw [List.take_add_one, hline]
      simp
    have hy : Yields (SheetM.findStore value (n + 1)) s fun found t =>
        found = storedIn value (s.code.take (n + 1)).reverse ∧ t = s := by
      have hrest : Yields (SheetM.findStore value n) s fun found t =>
          found = storedIn value (s.code.take n).reverse ∧ t = s := ⟨_, _, hearlier, rfl, rfl⟩
      rw [SheetM.findStore, yields_bind, SheetM.yields_lineAt hline, htake, storedIn]
      cases line.shows with
      | false => exact hrest
      | true =>
        simp only [Bool.not_true, Bool.false_eq_true, if_false]
        cases SheetM.store? (strip line.text) with
        | some stored =>
          dsimp only
          split
          · exact yields_pure.2 ⟨rfl, rfl⟩
          · exact hrest
        | none =>
          dsimp only
          split
          · exact yields_pure.2 ⟨rfl, rfl⟩
          · exact hrest
    obtain ⟨_, _, hok, rfl, rfl⟩ := hy
    exact hok

theorem yields_returnStored? (h : Tracks page scope s) (hsize : page.count < page.code.length) (line : String) :
    Yields (SheetM.returnStored? line scope) s fun found t =>
      found = (page.returned? line).map ("return " ++ ·) ∧ t = s := by
  unfold SheetM.returnStored? returned?
  split
  · exact yields_pure.2 ⟨rfl, rfl⟩
  · cases hheld : page.held "ACCU" with
    | none =>
      rw [h.free hheld (by decide)]
      exact yields_pure.2 ⟨rfl, rfl⟩
    | some held =>
      obtain ⟨i, hi, hr⟩ := h.bound hheld
      have hregister : s.register i =
          { value := held.value, overwritten := held.stale, writtenAt := [(held.line : Int)] } := by
        rw [Sheet.register, hr]
        rfl
      rw [hi]
      simp only [SheetM.register, yields_bind, yields_get, yields_pure, hregister]
      split
      · exact yields_pure.2 ⟨rfl, rfl⟩
      · rw [yields_bind, yields_get, yields_bind, h.index, Int.toNat_natCast]
        refine ⟨_, _, findStore_eq held.value (by rw [h.code]; omega), yields_pure.2 ⟨?_, rfl⟩⟩
        rw [h.code]

/-! ## Lines -/

/-- One line does to the sheet what it does to the page. -/
theorem yields_readLine {outer : Scope} (h : Tracks page scope s) (hsize : page.count < page.code.length)
    (hout : ∀ name, IsPlace name → outer.get? name = none) (line : String) :
    Yields (SheetM.readLine line scope outer {}) s fun result t => result.2.2 = {} ∧
      result.2.1.get? contextName = scope.get? contextName ∧
      Yields (SheetM.setText result.1) t fun _ u => Tracks (page.step line) result.2.1 u ∧
        Beside s u := by
  have hset : ∀ {page : Page} {scope : Scope} {t : Sheet}, page.count < page.code.length → Tracks page scope t →
      Beside s t → ∀ text, Yields (SheetM.setText text) t fun _ u => Tracks (page.write text) scope u ∧
        Beside s u := by
    intro page scope t hsize h ht text
    rw [SheetM.yields_setText h.index (by rw [h.code]; exact hsize)]
    refine ⟨⟨by rw [write, h.code, h.indent], h.indent, h.index, ?_, h.bound, h.free⟩, ht.trans rfl⟩
    intro name held hheld
    rw [write, List.length_modify]
    exact h.inside hheld
  have hread : ∀ names, (page.read names).count < (page.read names).code.length := fun names => by
    rw [(page.read_eq names).2.1, (page.read_eq names).2.2]
    exact hsize
  unfold SheetM.readLine step reads said
  cases ha : assignment? line with
  | none =>
    dsimp only
    rw [yields_bind]
    refine (h.yields_returnStored? hsize line).mono ?_
    rintro found t ⟨rfl, rfl⟩
    cases page.returned? line with
    | some name => exact yields_pure.2 ⟨rfl, rfl, hset hsize h rfl _⟩
    | none =>
      rw [Option.map_none, yields_bind]
      refine (h.yields_readPlaces line).mono ?_
      rintro text u ⟨rfl, hu, hut⟩
      exact yields_pure.2 ⟨rfl, rfl, hset (hread _) hu hut _⟩
  | some assigned =>
    obtain ⟨name, value⟩ := assigned
    have hname := assignment?_eq_some ha
    simp only [yields_bind, yields_pure]
    refine (h.yields_readPlaces value).mono ?_
    rintro text t ⟨rfl, ht, hst⟩
    refine (ht.yields_assign hname (hread _) (hout name hname) _).mono ?_
    rintro ⟨scope', writes⟩ u ⟨hw, hu, hut, hcontext⟩
    exact ⟨hw, hcontext, @hset ((page.read _).give name (page.put value)) _ _ (hread _) hu (hst.trans hut) _⟩

end Tracks

/-! ## What a line leaves alone -/

@[simp] theorem next_count (page : Page) : page.next.count = page.count + 1 := rfl

@[simp] theorem next_code (page : Page) : page.next.code = page.code := rfl

@[simp] theorem next_held (page : Page) : page.next.held = page.held := rfl

@[simp] theorem step_count (page : Page) (line : String) : (page.step line).count = page.count := by
  unfold step
  split <;> exact (page.read_eq _).2.1

theorem step_code (page : Page) (line : String) : (page.step line).code =
    (page.read (page.reads line)).code.modify page.count fun l =>
      { l with text := SheetM.indented 1 (page.said line) } := by
  have hcount := (page.read_eq (page.reads line)).2.1
  unfold step
  split <;> simp only [write, give, hcount]

theorem length_step (page : Page) (line : String) : (page.step line).code.length = page.code.length := by
  rw [step_code, List.length_modify]
  exact (page.read_eq _).2.2

theorem held_step_assign (h : assignment? line = some (name, value)) :
    (page.step line).held = (page.give name (page.put value)).held := by
  simp only [step, h, write, give, (page.read_eq _).1, (page.read_eq _).2.1]

theorem held_step_other (h : assignment? line = none) : (page.step line).held = page.held := by
  simp only [step, h, write, (page.read_eq _).1]

theorem said_assign (h : assignment? line = some (name, value)) :
    page.said line = name ++ " = " ++ page.put value := by
  rw [said, h]

theorem said_other (h : assignment? line = none) (hr : page.returned? line = none) : page.said line =
    page.put line := by
  rw [said, h, hr]

/-- What is found is stored by a line that shows. -/
theorem exists_of_storedIn {value name : String} : ∀ {lines : List CodeLine},
    storedIn value lines = some name → ∃ line ∈ lines, line.visible = true ∧
      SheetM.store? (strip line.text) = some (name, value)
  | [], h => by cases h
  | line :: lines, h => by
    have hlater : storedIn value lines = some name → ∃ line' ∈ line :: lines, line'.visible = true ∧
        SheetM.store? (strip line'.text) = some (name, value) := fun h =>
      (exists_of_storedIn h).imp fun _ hl => ⟨List.mem_cons_of_mem _ hl.1, hl.2⟩
    rw [storedIn] at h
    cases hshows : line.shows with
    | false =>
      rw [hshows] at h
      exact hlater h
    | true =>
      rw [CodeLine.shows, Bool.and_eq_true] at hshows
      simp only [CodeLine.shows, hshows, Bool.not_true, Bool.and_self, Bool.false_eq_true, if_false] at h
      split at h
      · next stored hstore =>
        split at h
        · next he =>
          cases h
          exact ⟨line, List.mem_cons_self, hshows.1, he ▸ hstore⟩
        · exact hlater h
      · split at h
        · cases h
        · exact hlater h

/-- The accumulator is returned as what stands for it, or as a register that it was stored in. -/
theorem said_return {h : Held} (hheld : page.held "ACCU" = some h) (hs : h.stale = false) :
    page.said "return ACCU" = "return " ++ h.value ∨
      ∃ name, page.said "return ACCU" = "return " ++ name ∧ page.reads "return ACCU" = [] ∧
        storedIn h.value (page.code.take page.count).reverse = some name := by
  have ha : assignment? "return ACCU" = none := rfl
  have hreturned : page.returned? "return ACCU" = storedIn h.value (page.code.take page.count).reverse := by
    rw [returned?, if_neg (by decide), hheld]
    simp [hs]
  cases hstored : storedIn h.value (page.code.take page.count).reverse with
  | some name =>
    rw [hstored] at hreturned
    exact Or.inr ⟨name, by rw [said, ha, hreturned], by rw [reads, ha, hreturned]; rfl, rfl⟩
  | none =>
    rw [hstored] at hreturned
    have hpieces : pieces place "return ACCU".toList = "return ".toList.map .plain ++ [.hit "ACCU"] := rfl
    left
    rw [said_other ha hreturned, put, substitute, hpieces, ← String.toList_inj]
    simp [stand, hheld, hs]

/-- Reading changes the lines of the values that are read, and of these only whether they show. -/
theorem code_read {k : Nat} {names : List String} : ∀ {page : Page},
    (∀ name ∈ names, ∀ h, page.held name = some h → h.line ≠ k) → (page.read names).code[k]? = page.code[k]? := by
  induction names with
  | nil => exact fun _ => rfl
  | cons first names ih =>
    intro page hk
    rw [read, List.foldl_cons, ← read, ih]
    · unfold touch
      split
      · next h hheld => exact List.getElem?_modify_ne _ _ (hk first List.mem_cons_self h hheld)
      · rfl
    · rw [touch_held]
      exact fun name hm => hk name (List.mem_cons_of_mem _ hm)

theorem text_read {k : Nat} {names : List String} : ∀ {page : Page},
    ((page.read names).code[k]?).map (·.text) = (page.code[k]?).map (·.text) := by
  induction names with
  | nil => exact rfl
  | cons first names ih =>
    intro page
    rw [read, List.foldl_cons, ← read, ih]
    unfold touch
    split
    · rw [List.getElem?_modify]
      split <;> cases page.code[k]? <;> rfl
    · rfl

theorem code_step {k : Nat} (hk : k ≠ page.count)
    (hr : ∀ name ∈ page.reads line, ∀ h, page.held name = some h → h.line ≠ k) :
    (page.step line).code[k]? = page.code[k]? := by
  rw [step_code, List.getElem?_modify_ne _ _ hk.symm, code_read hr]

theorem text_step {k : Nat} (hk : k ≠ page.count) :
    ((page.step line).code[k]?).map (·.text) = (page.code[k]?).map (·.text) := by
  rw [step_code, List.getElem?_modify_ne _ _ hk.symm, text_read]

/-- What a place holds after a line, the line gave to it; or it held that before, and the line did not write the
place, nor any other that a value that still stands has in it. -/
theorem held_step {h : Held} (hh : (page.step line).held name = some h) :
    (∃ value, assignment? line = some (name, value) ∧ isConstant name (page.put value) = true ∧
      h = { value := page.put value, line := page.count }) ∨
    ∃ old, page.held name = some old ∧ h = { old with stale := h.stale } ∧
      ∀ written value, assignment? line = some (written, value) → written ≠ name ∧
        h.stale = (old.stale || occursIn written.toList old.value.toList) := by
  cases ha : assignment? line with
  | none =>
    rw [held_step_other ha] at hh
    exact Or.inr ⟨h, hh, rfl, by simp⟩
  | some assigned =>
    obtain ⟨written, value⟩ := assigned
    rw [held_step_assign ha] at hh
    simp only [give] at hh
    split at hh
    · next hname =>
      subst hname
      split at hh
      · next hc =>
        cases hh
        exact Or.inl ⟨value, rfl, hc, rfl⟩
      · cases hh
    · next hname =>
      obtain ⟨old, hold, rfl⟩ := Option.map_eq_some_iff.1 hh
      refine Or.inr ⟨old, hold, rfl, ?_⟩
      intro other more he
      cases he
      exact ⟨Ne.symm hname, rfl⟩

/-- All values are of lines that have been gone through. -/
def Behind (page : Page) : Prop := ∀ name h, page.held name = some h → h.line ≤ page.count

theorem Behind.step (h : page.Behind) (line : String) : (page.next.step line).Behind := by
  intro name held hheld
  rw [step_count, next_count]
  rcases held_step hheld with ⟨_, _, _, rfl⟩ | ⟨old, hold, he, _⟩
  · exact le_rfl
  · rw [he]
    exact (h name old hold).trans (Nat.le_succ _)

/-- The line that has been come to gets its text. -/
theorem Behind.code_step_self (h : page.Behind) (line : String) :
    (page.next.step line).code[page.count + 1]? =
      (page.code[page.count + 1]?).map fun l => { l with text := SheetM.indented 1 (page.next.said line) } := by
  have hread : (page.next.read (page.next.reads line)).code[page.count + 1]? = page.code[page.count + 1]? :=
    code_read fun name _ held hheld he => by
      have := h name held hheld
      omega
  rw [step_code, next_count, List.getElem?_modify_eq, hread]
  rfl

section Run

variable {lines : List String} {k : Nat}

@[simp] theorem run_nil : page.run [] = page := rfl

theorem run_cons : page.run (line :: lines) = (page.next.step line).run lines := rfl

theorem run_append (more : List String) : page.run (lines ++ more) = (page.run lines).run more :=
  List.foldl_append

theorem run_count : (page.run lines).count = page.count + lines.length := by
  induction lines generalizing page with
  | nil => rfl
  | cons line lines ih =>
    rw [run_cons, ih, step_count, List.length_cons, next_count]
    omega

theorem length_run : (page.run lines).code.length = page.code.length := by
  induction lines generalizing page with
  | nil => rfl
  | cons line lines ih => rw [run_cons, ih, length_step, next_code]

theorem Behind.run (h : page.Behind) : (page.run lines).Behind := by
  induction lines generalizing page with
  | nil => exact h
  | cons line lines ih => exact ih (h.step line)

/-- What a line that has been gone through says stays. -/
theorem run_text (hk : k ≤ page.count) :
    ((page.run lines).code[k]?).map (·.text) = (page.code[k]?).map (·.text) := by
  induction lines generalizing page with
  | nil => rfl
  | cons line lines ih =>
    rw [run_cons, ih (by simp; omega), text_step (by simp; omega), next_code]

/-- A line that no place holds the value of stays as it is. -/
theorem run_code (hk : k ≤ page.count) (hfree : ∀ name h, page.held name = some h → h.line ≠ k) :
    (page.run lines).code[k]? = page.code[k]? := by
  induction lines generalizing page with
  | nil => rfl
  | cons line lines ih =>
    have hstep : (page.next.step line).code[k]? = page.code[k]? :=
      code_step (by simp; omega) fun name _ => hfree name
    rw [run_cons, ih (by simp; omega), hstep]
    · intro name held hheld he
      rcases held_step hheld with ⟨_, _, _, rfl⟩ | ⟨old, hold, heq, _⟩
      · simp only [next_count] at he
        omega
      · rw [heq] at he
        exact hfree name old hold he

/-- A line to come is as it was. -/
theorem Behind.run_ahead (h : page.Behind) (hk : page.count + lines.length < k) :
    (page.run lines).code[k]? = page.code[k]? := by
  induction lines generalizing page with
  | nil => rfl
  | cons line lines ih =>
    rw [List.length_cons] at hk
    rw [run_cons, ih (h.step line) (by simp; omega)]
    refine code_step (by simp; omega) fun name _ held hheld he => ?_
    have := h name held hheld
    omega

end Run

/-! ## Functions -/

/-- A line whose contexts are resolved in the same way wherever it stands. -/
def Resolves (context : Int) (line resolved : String) : Prop :=
  ∀ (scope outer : Scope) (s : Sheet), scope.get? contextName = some (.context context) →
    SheetM.resolveLine line scope outer s = .ok (resolved, scope) s

theorem resolves_plain {line : String} (h : ∀ c ∈ ['P', 'S', 'w'], c ∉ line.toList) (context : Int) :
    Resolves context line line := by
  intro scope outer s _
  obtain ⟨_, _, hok, rfl, rfl⟩ := (@SheetM.yields_resolveLine_plain s outer line scope
    (fun result t => result = (line, scope) ∧ t = s) h).2 ⟨rfl, rfl⟩
  exact hok

/-- The code of a function when its block has been opened. -/
def start (code : List CodeLine) : Page where
  held _ := none
  code := code.modify 0 fun line => { line with text := "\x7b" }
  count := 0

theorem behind_start (code : List CodeLine) : (start code).Behind := by
  intro name h hh
  cases hh

theorem text_start {code : List CodeLine} {line : CodeLine} (h : (start code).code[0]? = some line) :
    line.text = "\x7b" := by
  rw [start, List.getElem?_modify_eq] at h
  obtain ⟨first, _, rfl⟩ := Option.map_eq_some_iff.1 h
  rfl

theorem visible_start {lines : List CodeLine} (h : ∀ line ∈ lines, line.visible = true) {k : Nat} {line : CodeLine}
    (hk : (start (inBraces lines)).code[k]? = some line) : line.visible = true := by
  rw [start, List.getElem?_modify] at hk
  obtain ⟨old, hold, rfl⟩ := Option.map_eq_some_iff.1 hk
  have hvisible : old.visible = true := by
    rcases List.mem_cons.1 (List.mem_of_getElem? hold) with rfl | hm
    · rfl
    · rcases List.mem_append.1 hm with hm | hm
      · exact h old hm
      · rw [List.mem_singleton.1 hm]
        rfl
  split <;> exact hvisible

def finish (page : Page) : List CodeLine :=
  page.code.modify (page.count + 1) fun line => { line with text := "\x7d" }

theorem finish_code (page : Page) {k : Nat} (hk : k ≤ page.count) : page.finish[k]? = page.code[k]? :=
  List.getElem?_modify_ne _ _ (by omega)

def Reaches (context : Int) (final : Page) (rest : List String) (scope : Scope) (s : Sheet) : Prop :=
  ∃ page resolved, Tracks page scope s ∧ scope.get? contextName = some (.context context) ∧
    page.count + rest.length < page.code.length ∧ List.Forall₂ (Resolves context) rest resolved ∧
    page.run resolved = final

theorem straight_reaches (context : Int) (final : Page) :
    SheetM.Straight (Scope.setContext {} context) (Reaches context final) where
  indent := by
    rintro rest scope s ⟨page, _, h, _⟩
    exact h.indent
  step := by
    rintro line rest scope s ⟨page, _, h, hcontext, hsize, hall, hfinal⟩
    obtain ⟨first, resolved, hfirst, hresolved, rfl⟩ := List.forall₂_cons_left_iff.1 hall
    rw [List.length_cons] at hsize
    have hroom : page.next.count + rest.length < page.next.code.length := by
      change page.count + 1 + rest.length < page.code.length
      omega
    have hnext : Tracks page.next scope { s with index := s.index + 1 } :=
      ⟨h.code, h.indent, by simp [next, h.index], h.inside, h.bound, h.free⟩
    have hout : ∀ name, IsPlace name → (Scope.setContext {} context).get? name = none := by
      intro name hname
      rw [Scope.setContext, Table.get?_put, if_neg (ne_contextName hname).symm]
      rfl
    rw [SheetM.substituteLine, yields_bind]
    refine ⟨_, _, hfirst scope _ _ hcontext, ?_⟩
    refine (hnext.yields_readLine (by omega) hout first).mono ?_
    rintro ⟨text, scope', writes⟩ t ⟨hwrites, hcontext', hset⟩
    refine ⟨hwrites, hset.mono ?_⟩
    rintro _ u ⟨hu, _⟩ _ _
    exact ⟨_, resolved, hu, hcontext'.trans hcontext, by rwa [step_count, length_step], hresolved, hfinal⟩

end Page

end Substitution

def Function.startIn (f : Function) (desk : Desk) : Int := (desk.contexts.start f.name f.declarer).1.getD 0

open Substitution Run in
/-- Substitution in a function without inner blocks goes through its lines. -/
theorem Function.substitute_page {f : Function} {code : List CodeLine} {lines resolved : List String} {desk : Desk}
    (hc : f.code = some code) (ht : code.map (·.rendered) = "\x7b" :: (lines ++ ["\x7d"]))
    (hp : ∀ line ∈ lines, line ≠ "\x7b" ∧ line ≠ "\x7d")
    (hr : List.Forall₂ (Page.Resolves (f.startIn desk)) lines resolved) :
    ∃ desk', f.substitute desk = .ok { f with code := some ((Page.start code).run resolved).finish } desk' := by
  have hlength : code.length = lines.length + 2 := by simpa using congrArg List.length ht
  have hstart : Yields (startContext f.name f.declarer) (f.sheet code desk) fun context t => ∃ keeps,
      SheetM.Straight (Scope.setContext {} context) keeps ∧
      keeps lines (Scope.setContext {} context) (SheetM.opened t) ∧
      ∀ scope u, keeps [] scope u → u.index = lines.length →
        (SheetM.closed lines.length u).code = ((Page.start code).run resolved).finish := by
    refine (SheetM.yields_startContext f.name f.declarer _).mono ?_
    rintro context t ⟨hst, hcontext⟩
    have htcode : t.code = code := by rw [hst]; rfl
    refine ⟨_, Page.straight_reaches context ((Page.start code).run resolved), ?_, ?_⟩
    · refine ⟨Page.start code, resolved, ⟨?_, rfl, ?_, ?_, ?_, ?_⟩, ?_, ?_, hcontext ▸ hr, rfl⟩
      · rw [SheetM.opened, htcode]
        rfl
      · rw [SheetM.opened, hst]
        rfl
      · intro name h hh
        cases hh
      · intro name h hh
        cases hh
      · intro name _ hne
        rw [Scope.setContext, Table.get?_put, if_neg hne.symm]
        rfl
      · rw [Scope.setContext, Table.get?_put, if_pos rfl]
      · simp [Page.start, hlength]
    · rintro scope u ⟨page, more, hu, _, _, hmore, hfinal⟩ hindex
      cases List.forall₂_nil_left_iff.1 hmore
      have hcount : page.count = lines.length := by
        have hi := hu.index
        rw [hindex] at hi
        exact_mod_cast hi.symm
      rw [← hfinal, Page.run_nil, Page.finish, hcount, SheetM.closed, hu.code]
  have hall : Yields (SheetM.substituteAll f.name f.declarer) (f.sheet code desk) fun _ t =>
      t.code = ((Page.start code).run resolved).finish :=
    SheetM.yields_substituteAll_straight rfl rfl ht hp hstart
  have hsubstitute : Yields f.substitute desk fun g _ =>
      g = { f with code := some ((Page.start code).run resolved).finish } :=
    Function.yields_substitute hc (hall.mono fun _ t hcode => by rw [hcode])
  obtain ⟨_, desk', hok, rfl⟩ := hsubstitute
  exact ⟨desk', hok⟩

open Substitution Instruction in
/-- Code without jumps is lifted, and substitution then goes through its lines. -/
theorem Function.substitute_straight {f : Function} {code : List CodeLine} {texts resolved : List String} {desk : Desk}
    (hc : f.code = some code) (hh : f.handlers = some {}) (hs : List.Forall₂ States code texts)
    (hr : List.Forall₂ (Page.Resolves (f.startIn desk)) texts resolved) :
    ∃ lifted desk', f.lift desk.console = .ok lifted desk.console ∧ lifted.substitute desk =
      .ok { f with code := some ((Page.start (inBraces (rendering code texts))).run resolved).finish } desk' := by
  obtain ⟨desk', hok⟩ := @Function.substitute_page { f with code := some (inBraces (rendering code texts)) }
    (inBraces (rendering code texts)) texts resolved desk rfl
    (by simp [inBraces, rendered_rendering hs, CodeLine.added]) (not_brace_of_states hs) hr
  exact ⟨_, desk', Function.lift_straight hc hh hs desk.console, hok⟩

end Bytelift
