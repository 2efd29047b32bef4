import Bytelift.Proofs.Substitution.Page

/-! Straight-line code in which every line gives a name a value. What is known of such code when substitution has
gone through it are its values, with what the places hold put in, and which of its lines show: none is hidden but
one that gives a place a value that may stand for it. -/

namespace Bytelift.Substitution

open Run Text

/-- A line that gives a name a value. -/
structure Statement where
  name : String
  value : String

namespace Statement

variable {s : Statement} {page : Page}

def line (s : Statement) : String := s.name ++ " = " ++ s.value

def Named (name : String) : Prop :=
  IsPlace name ∨ name ≠ "" ∧ ∀ c ∈ name.toList, c ∉ openings ∧ isBlank c = false

structure Sound (s : Statement) : Prop where
  named : Named s.name
  filled : s.value ≠ ""
  ended : ∀ c ∈ s.value.toList.getLast?, isBlank c = false

theorem toList_line : s.line.toList = s.name.toList ++ (" = ".toList ++ s.value.toList) := by
  simp only [line, String.toList_append, List.append_assoc]

theorem Named.exists_head {name : String} (h : Named name) : ∃ c cs, name.toList = c :: cs ∧ isBlank c = false := by
  rcases h with hplace | ⟨hne, hbare⟩
  · obtain ⟨c, hc, cs, hcs⟩ := Page.exists_opening hplace
    exact ⟨c, cs, hcs, forall_mem_of_all (P := fun c => isBlank c = false) (by decide) c hc⟩
  · obtain ⟨c, cs, hcs⟩ := List.exists_cons_of_ne_nil (show name.toList ≠ [] by simpa using hne)
    exact ⟨c, cs, hcs, (hbare c (hcs ▸ List.mem_cons_self)).2⟩

theorem Sound.strip_line (h : s.Sound) {before : List Char} (hb : ∀ c ∈ before, isBlank c = true) :
    strip (String.ofList before ++ s.line) = s.line := by
  obtain ⟨c, cs, hcs, hc⟩ := h.named.exists_head
  have hvalue : s.value.toList ≠ [] := by simpa using h.filled
  have htrim := @trimBoth_eq isBlank before s.line.toList [] hb (by simp) ?_ ?_ (by simp [toList_line, hcs])
  · rw [List.append_nil] at htrim
    rw [strip, String.toList_append, String.toList_ofList, htrim, String.ofList_toList]
  · rw [toList_line, hcs]
    intro d hd
    cases hd
    exact hc
  · rw [toList_line, List.getLast?_append_of_ne_nil _ (by simp), List.getLast?_append_of_ne_nil _ hvalue]
    exact h.ended

theorem place?_bare {rest : List Char} {name : String} (hne : name ≠ "")
    (hbare : ∀ c ∈ name.toList, c ∉ openings ∧ isBlank c = false) : place? (name.toList ++ rest) = none := by
  obtain ⟨c, cs, hcs⟩ := List.exists_cons_of_ne_nil (show name.toList ≠ [] by simpa using hne)
  have hplace := place_eq_none (hbare c (hcs ▸ List.mem_cons_self)).1 (cs ++ rest)
  rw [hcs, List.cons_append]
  rwa [place, Option.map_eq_none_iff] at hplace

theorem assignment?_bare (hne : s.name ≠ "") (hbare : ∀ c ∈ s.name.toList, c ∉ openings ∧ isBlank c = false) :
    assignment? s.line = none := by
  rw [assignment?, toList_line, place?_bare hne hbare, Option.bind_none]

/-- The line says its name and its value, with what the places hold put in. -/
theorem Sound.said_line (h : s.Sound) : page.said s.line = line { s with value := page.put s.value } := by
  rcases h.named with hplace | ⟨hne, hbare⟩
  · exact Page.said_assign (Page.assignment?_append hplace _)
  · have ha := assignment?_bare hne hbare
    have hreturned : page.returned? s.line = none := by
      have hstrip := @Sound.strip_line s h [] (by simp)
      rw [show String.ofList [] = "" from rfl, String.empty_append] at hstrip
      obtain ⟨c, cs, hcs⟩ := List.exists_cons_of_ne_nil (show s.name.toList ≠ [] by simpa using hne)
      rw [Page.returned?, hstrip, if_pos]
      intro he
      have hr := congrArg String.toList he
      rw [toList_line, hcs] at hr
      obtain rfl : c = 'r' := (List.cons.inj hr).1
      exact (hbare 'r' (hcs ▸ List.mem_cons_self)).1 (by decide)
    rw [Page.said_other ha hreturned]
    refine Page.put_append (fun c hc => ?_) _
    rw [String.toList_append, List.mem_append] at hc
    rcases hc with hc | hc
    · exact (hbare c hc).1
    · exact forall_mem_of_all (P := fun c => c ∉ openings) (l := " = ".toList) (by decide) c hc

/-- Only a register is found to be stored to, and it is the one that the line gives its value. -/
theorem Sound.of_store? (h : s.Sound) {name value : String}
    (hs : SheetM.store? (strip ("\t" ++ s.line)) = some (name, value)) :
    IsPlace s.name ∧ s.name ≠ "ACCU" ∧ name = s.name ∧ value = s.value := by
  have hregister : register? s.line.toList = none ∨ IsPlace s.name ∧ s.name ≠ "ACCU" ∧
      register? s.line.toList = some (s.name.toList, " = ".toList ++ s.value.toList) := by
    rw [toList_line]
    rcases h.named with hplace | ⟨hne, hbare⟩
    · have hends : Ends (" = ".toList ++ s.value.toList) := ends_cons (by decide)
      have hfound := Page.place?_append hplace hends
      rcases hplace with hname | ⟨lead, hlead, ds, hd, hdecimal, hname⟩
      · left
        rw [hname]
        rfl
      · rw [place?, hname] at hfound
        simp only [List.mem_cons, List.not_mem_nil, or_false] at hlead
        rcases hlead with rfl | rfl | rfl
        · left
          rw [hname]
          rfl
        · refine Or.inr ⟨Or.inr ⟨"r", by simp, ds, hd, hdecimal, hname⟩, ?_, hname ▸ hfound⟩
          rintro he
          rw [he] at hname
          cases hname
        · refine Or.inr ⟨Or.inr ⟨"a", by simp, ds, hd, hdecimal, hname⟩, ?_, hname ▸ hfound⟩
          rintro he
          rw [he] at hname
          cases hname
    · left
      have hnone := @place?_bare (" = ".toList ++ s.value.toList) _ hne hbare
      rw [place?, Option.orElse_eq_none, Option.orElse_eq_none] at hnone
      exact hnone.2.2
  rw [show "\t" = String.ofList ['\t'] from rfl, h.strip_line (List.forall_mem_singleton.2 (by decide)),
    SheetM.store?] at hs
  rcases hregister with hnone | ⟨hplace, hne, hsome⟩
  · rw [hnone] at hs
    cases hs
  · simp only [hsome, Option.bind_some, after?_append] at hs
    split at hs
    · cases hs
    · cases hs
      exact ⟨hplace, hne, String.ofList_toList, String.ofList_toList⟩

end Statement

def shown (lines : List CodeLine) : List String := (lines.filter (·.shows)).map (·.text)

theorem shown_cons {line : CodeLine} {lines : List CodeLine} (h : line.text ≠ "") :
    shown (line :: lines) = if line.visible then line.text :: shown lines else shown lines := by
  have hshows : line.shows = line.visible := by simp [CodeLine.shows, h]
  rw [shown, List.filter_cons, hshows]
  split <;> rfl

theorem drop_eq_cons {lines : List CodeLine} {k : Nat} {line : CodeLine} (h : lines[k]? = some line) :
    lines.drop k = line :: lines.drop (k + 1) := by
  obtain ⟨hlt, rfl⟩ := List.getElem?_eq_some_iff.1 h
  exact List.drop_eq_getElem_cons hlt

def Statement.Stands (s : Statement) : Prop := IsPlace s.name ∧ isConstant s.name s.value = true

/-- A line that says a statement. It is hidden only if the value may stand for the name. -/
structure Says (line : CodeLine) (s : Statement) : Prop where
  text : line.text = "\t" ++ s.line
  hidden : line.visible = false → s.Stands

namespace Page

variable {page : Page}

def statements (page : Page) : List Statement → List Statement
  | [] => []
  | s :: rest => { s with value := page.put s.value } :: (page.next.step s.line).statements rest

theorem length_statements : ∀ (page : Page) (all : List Statement), (page.statements all).length = all.length
  | _, [] => rfl
  | page, s :: rest => by rw [statements, List.length_cons, length_statements _ rest, List.length_cons]

theorem indented_eq {text : String} (h : text ≠ "") : SheetM.indented 1 text = "\t" ++ text := by
  rw [SheetM.indented, if_neg (by simpa using h)]
  rfl

/-- Each line says its statement in the end, whatever comes after it. -/
theorem Behind.tells : ∀ {all : List Statement} {page : Page}, page.Behind → (∀ s ∈ all, s.Sound) →
    (∀ k line, page.count < k → page.code[k]? = some line → line.visible = true) →
    page.count + all.length < page.code.length → ∀ more k s, (page.statements all)[k]? = some s →
    ∃ line, ((page.run (all.map (·.line))).run more).code[page.count + k + 1]? = some line ∧ Says line s
  | [], _, _, _, _, _, _, _, _, hk => by cases hk
  | first :: rest, page, hb, hs, hv, hl, more, k, s, hk => by
    rw [List.length_cons] at hl
    rw [List.map_cons, run_cons]
    cases k with
    | zero =>
      cases hk
      have hself := hb.code_step_self first.line
      obtain ⟨old, hold⟩ : ∃ old, page.code[page.count + 1]? = some old := ⟨_, List.getElem?_eq_getElem (by omega)⟩
      rw [hold, Option.map_some, (hs _ List.mem_cons_self).said_line, indented_eq (by simp [Statement.line])] at hself
      have htext := @run_text (page.next.step first.line) (rest.map (·.line) ++ more) (page.count + 1) (by simp)
      rw [← run_append]
      rw [hself, Option.map_some] at htext
      obtain ⟨line, hline, htext⟩ := Option.map_eq_some_iff.1 htext
      refine ⟨line, hline, htext, fun hhidden => ?_⟩
      by_contra hheld
      -- no place holds the line, so that it is not hidden later
      have hfree : ∀ name h, (page.next.step first.line).held name = some h → h.line ≠ page.count + 1 := by
        intro name h hh he
        rcases held_step hh with ⟨value, ha, hc, rfl⟩ | ⟨old, hold, heq, _⟩
        · rcases (hs _ List.mem_cons_self).named with hplace | ⟨hne, hbare⟩
          · rw [Statement.line, assignment?_append hplace] at ha
            cases ha
            exact hheld ⟨hplace, hc⟩
          · rw [Statement.assignment?_bare hne hbare] at ha
            cases ha
        · have hbehind := hb name old hold
          rw [heq] at he
          change old.line = _ at he
          omega
      rw [run_code (by simp) hfree, hself] at hline
      cases hline
      have hvisible := hv _ old (by omega) hold
      rw [show old.visible = false from hhidden] at hvisible
      cases hvisible
    | succ k =>
      have hahead : ∀ {j}, page.count + 1 < j → (page.next.step first.line).code[j]? = page.code[j]? := fun hj =>
        @Behind.run_ahead page [first.line] _ hb hj
      have hlater := Behind.tells (hb.step first.line) (fun s hm => hs s (List.mem_cons_of_mem _ hm))
        (fun j line hj hline => hv j line (by simp at hj; omega) (by rwa [hahead (by simpa using hj)] at hline))
        (by rw [length_step]; simp; omega) more k s hk
      rwa [show (page.next.step first.line).count + k + 1 = page.count + (k + 1) + 1 by simp; omega] at hlater

section Shown

variable {σ : Type} {say : σ → Statement} {code : List CodeLine} {all : List Statement}

/-- Which of the lines that say statements show. -/
theorem exists_marked : ∀ {told : List σ} {k : Nat},
    (∀ j t, told[j]? = some t → ∃ line, code[k + j]? = some line ∧ Says line (say t)) →
    ∃ marked : List (σ × Bool), marked.map (·.1) = told ∧ (∀ t, (t, false) ∈ marked → (say t).Stands) ∧
      (∀ (j : Nat) t line, told[j]? = some t → code[k + j]? = some line → (t, line.visible) ∈ marked) ∧
      shown (code.drop k) = ((marked.filter (·.2)).map (·.1)).map (fun t => "\t" ++ (say t).line) ++
        shown (code.drop (k + told.length))
  | [], k, _ => ⟨[], rfl, by simp, by simp, by simp⟩
  | t :: told, k, h => by
    obtain ⟨line, hline, hshape⟩ := h 0 t rfl
    obtain ⟨marked, hmarked, hhidden, hmem, hshown⟩ := @exists_marked told (k + 1) fun j t ht => by
      rw [Nat.add_right_comm]
      exact h (j + 1) t ht
    refine ⟨(t, line.visible) :: marked, by rw [List.map_cons, hmarked], ?_, ?_, ?_⟩
    · intro t' hm
      rcases List.mem_cons.1 hm with he | hm
      · obtain ⟨rfl, hv⟩ := Prod.mk.inj he
        exact hshape.hidden hv.symm
      · exact hhidden t' hm
    · intro j t' line' ht hline'
      cases j with
      | zero =>
        cases ht
        cases hline.symm.trans hline'
        exact List.mem_cons_self
      | succ j => exact List.mem_cons_of_mem _ (hmem j t' line' ht (by rwa [Nat.add_right_comm]))
    · rw [Nat.add_zero] at hline
      rw [drop_eq_cons hline, shown_cons (by simp [hshape.text]), hshown, List.length_cons, ← Nat.add_assoc,
        Nat.add_right_comm, List.filter_cons]
      cases line.visible with
      | true => simp [hshape.text]
      | false => simp

/-- The accumulator is returned as what stands for it, or as a register that a line gives this value and that shows. -/
theorem Behind.returns {page : Page} {told : List Statement} (hb : page.Behind) (hcount : page.count = told.length)
    (hopen : ∀ line : CodeLine, page.code[0]? = some line → line.text = "\x7b") (htold : ∀ s ∈ told, s.Sound)
    (hshape : ∀ j s, told[j]? = some s → ∃ line, page.code[j + 1]? = some line ∧ Says line s)
    {last : CodeLine} (hlast : page.code[told.length + 1]? = some last) {h : Held} (hh : page.held "ACCU" = some h)
    (hs : h.stale = false) : ∃ result,
      (page.run ["return ACCU"]).code[told.length + 1]? = some { last with text := "\treturn " ++ result } ∧
      (result = h.value ∨ ∃ (j : Nat) (s : Statement) (line : CodeLine), told[j]? = some s ∧
        (page.run ["return ACCU"]).code[j + 1]? = some line ∧ line.visible = true ∧ IsPlace s.name ∧ s.name ≠ "ACCU" ∧
        s.value = h.value ∧ result = s.name) := by
  have hself := hb.code_step_self "return ACCU"
  rw [hcount, hlast, Option.map_some] at hself
  have htext : ∀ {result : String}, SheetM.indented 1 ("return " ++ result) = "\treturn " ++
    result := fun {result} => by
    rw [indented_eq (by simp [← String.toList_inj]), ← String.append_assoc]
    rfl
  rcases @said_return page.next _ hh hs with hsaid | ⟨name, hsaid, hreads, hstored⟩
  · rw [hsaid, htext] at hself
    exact ⟨h.value, hself, Or.inl rfl⟩
  · rw [hsaid, htext] at hself
    refine ⟨name, hself, Or.inr ?_⟩
    obtain ⟨line, hm, hshows, hstore⟩ := exists_of_storedIn hstored
    obtain ⟨j, hj⟩ := List.mem_iff_getElem?.1 (List.mem_reverse.1 hm)
    rw [List.getElem?_take, next_count, hcount] at hj
    split at hj
    · next hlt =>
      cases j with
      | zero =>
        rw [hopen line hj] at hstore
        cases hstore
      | succ j =>
        obtain ⟨s, hjs⟩ : ∃ s, told[j]? = some s := ⟨_, List.getElem?_eq_getElem (by omega)⟩
        obtain ⟨_, hline, hshape⟩ := hshape j s hjs
        cases hj.symm.trans hline
        rw [hshape.text] at hstore
        obtain ⟨hplace, hne, hname, hvalue⟩ := (htold s (List.mem_of_getElem? hjs)).of_store? hstore
        have hkept : (page.next.step "return ACCU").code[j + 1]? = page.code[j + 1]? :=
          code_step (by simp [hcount]; omega) (by simp [hreads])
        exact ⟨j, s, line, hjs, hkept.trans hline, hshows, hplace, hne, hvalue.symm, hname⟩
    · cases hj

/-- Going through all statements and then the return of the accumulator: what shows in the end. A value is returned
that stands for the accumulator, or a register that a line gives this value and that shows. -/
theorem shown_finish {told : List σ} (hv : ∀ line ∈ code, line.visible = true) (hl : code.length = all.length + 1)
    (hall : ∀ s ∈ all, s.Sound) (ht : (start (inBraces code)).statements all = told.map say)
    (htold : ∀ t ∈ told, (say t).Sound) {h : Held}
    (hh : ((start (inBraces code)).run (all.map (·.line))).held "ACCU" = some h) (hs : h.stale = false) :
    ∃ (marked : List (σ × Bool)) (result : String), marked.map (·.1) = told ∧
      shown ((start (inBraces code)).run (all.map (·.line) ++ ["return ACCU"])).finish =
        "\x7b" :: (((marked.filter (·.2)).map (·.1)).map (fun t => "\t" ++ (say t).line) ++
          ["\treturn " ++ result, "\x7d"]) ∧
      (∀ t, (t, false) ∈ marked → (say t).Stands) ∧
      (result = h.value ∨ ∃ t, (t, true) ∈ marked ∧ IsPlace (say t).name ∧ (say t).name ≠ "ACCU" ∧
        (say t).value = h.value ∧ result = (say t).name) := by
  have hshows : ∀ k (line : CodeLine), (start (inBraces code)).code[k]? = some line → line.visible = true :=
    fun k line hk => visible_start hv hk
  have hlength : (start (inBraces code)).code.length = all.length + 3 := by simp [start, inBraces, hl]
  have hzero : (start (inBraces code)).count = 0 := rfl
  have hopen : ∀ line : CodeLine, (start (inBraces code)).code[0]? = some line → line.text = "\x7b" :=
    fun _ => text_start
  have hnone : ∀ name, (start (inBraces code)).held name = none := fun _ => rfl
  have hbehind := behind_start (inBraces code)
  generalize start (inBraces code) = page at *
  have hcount : (page.run (all.map (·.line))).count = all.length := by
    rw [run_count, hzero, List.length_map, Nat.zero_add]
  have hshape := hbehind.tells hall (fun k line _ => hshows k line) (by omega)
  have hnumber : told.length = all.length := by rw [← page.length_statements all, ht, List.length_map]
  rw [run_append]
  have hbefore := @Behind.run page (all.map (·.line)) hbehind
  generalize hafter : page.run (all.map (·.line)) = after at *
  have hsame : ∀ {k}, k ≤ all.length + 1 → (after.run ["return ACCU"]).finish[k]? =
      (after.run ["return ACCU"]).code[k]? := fun hk => finish_code _ (by rwa [run_count, hcount])
  obtain ⟨first, hfirst⟩ : ∃ first, page.code[0]? = some first := ⟨_, List.getElem?_eq_getElem (by omega)⟩
  obtain ⟨last, hlast⟩ : ∃ last, page.code[all.length + 1]? = some last := ⟨_, List.getElem?_eq_getElem (by omega)⟩
  obtain ⟨close, hclose⟩ : ∃ close, page.code[all.length + 2]? = some close := ⟨_, List.getElem?_eq_getElem (by omega)⟩
  have hkept : ∀ more, (after.run more).code[0]? = some first := fun more => by
    rw [← hafter, ← run_append, run_code (by omega) (fun name h hh => by rw [hnone] at hh; cases hh), hfirst]
  have hline : ∀ more j t, told[j]? = some t → ∃ line, (after.run more).code[j + 1]? = some line ∧
    Says line (say t) := by
    intro more j t hj
    have hj : (page.statements all)[j]? = some (say t) := by rw [ht, List.getElem?_map, hj, Option.map_some]
    simpa only [hzero, Nat.zero_add] using hshape more j _ hj
  have hafterSays : ∀ j s, (told.map say)[j]? = some s → ∃ line, after.code[j + 1]? = some line ∧ Says line s := by
    intro j s hj
    rw [List.getElem?_map] at hj
    obtain ⟨t, hjt, rfl⟩ := Option.map_eq_some_iff.1 hj
    exact hline [] j t hjt
  obtain ⟨result, hreturn, hresult⟩ := hbefore.returns (by rw [hcount, List.length_map, hnumber])
    (fun line hl => by cases (hkept []).symm.trans hl; exact hopen _ hfirst)
    (fun s hm => by obtain ⟨t, htm, rfl⟩ := List.mem_map.1 hm; exact htold t htm) hafterSays (by
      rw [← hafter, List.length_map, hnumber, hbehind.run_ahead (by simp [hzero]), hlast]) hh hs
  rw [List.length_map, hnumber, ← hsame le_rfl] at hreturn
  obtain ⟨marked, hmarked, hhidden, hmem, hshown⟩ := @exists_marked σ say (after.run ["return ACCU"]).finish told 1
    fun j t hj => by
      have hlt := (List.getElem?_eq_some_iff.1 hj).1
      rw [Nat.add_comm, hsame (by omega)]
      exact hline _ j t hj
  refine ⟨marked, result, hmarked, ?_, hhidden, hresult.imp id ?_⟩
  · have hstart := (hsame (by omega : 0 ≤ all.length + 1)).trans (hkept ["return ACCU"])
    have hend : (after.run ["return ACCU"]).finish[all.length + 1 + 1]? = some { close with text := "\x7d" } := by
      rw [finish, run_count, hcount, List.length_singleton, List.getElem?_modify_eq, ← hafter, ← run_append,
        hbehind.run_ahead (by simp [hzero]), hclose]
      rfl
    have hsize : (after.run ["return ACCU"]).finish.length ≤ all.length + 1 + 1 + 1 := by
      rw [finish, List.length_modify, length_run, ← hafter, length_run, hlength]
    rw [← @List.drop_zero _ (finish _), drop_eq_cons hstart, shown_cons (by rw [hopen _ hfirst]; decide),
      hshows _ _ hfirst,
      if_pos rfl, hopen _ hfirst, Nat.zero_add, hshown, hnumber, Nat.add_comm 1, drop_eq_cons hreturn,
      shown_cons (by simp), if_pos (hshows _ _ hlast), drop_eq_cons hend, shown_cons (by simp),
      if_pos (hshows _ _ hclose), List.drop_of_length_le hsize]
    rfl
  · rintro ⟨j, s, line, hj, hline, hvisible, hrest⟩
    rw [List.getElem?_map] at hj
    obtain ⟨t, hjt, rfl⟩ := Option.map_eq_some_iff.1 hj
    have hlt := (List.getElem?_eq_some_iff.1 hjt).1
    rw [← hsame (by omega), Nat.add_comm] at hline
    exact ⟨t, hvisible ▸ hmem j t line hjt hline, hrest⟩

end Shown

end Page

/-! ## Running what shows -/

section Running

variable {α N σ : Type} {name : σ → N} {value? : (N → Option α) → σ → Option α}

def perform [DecidableEq N] (name : σ → N) (value? : (N → Option α) → σ → Option α) :
    List σ → (N → Option α) → Option (N → Option α)
  | [], env => some env
  | s :: rest, env => (value? env s).bind fun x => perform name value? rest (Function.update env (name s) (some x))

/-- Statements may be left out if the others have the same values whatever the names are worth that those give values.
-/
theorem perform_shown [DecidableEq N] {hidden : N → Prop} : ∀ {marked : List (σ × Bool)} {env env' seen : N → Option α},
    (∀ s, (s, false) ∈ marked → hidden (name s)) →
    (∀ s, (s, true) ∈ marked → ∀ env env', (∀ n, ¬hidden n → env n = env' n) → value? env s = value? env' s) →
    (∀ n, ¬hidden n → seen n = env n) → perform name value? (marked.map (·.1)) env = some env' →
    ∃ seen', perform name value? ((marked.filter (·.2)).map (·.1)) seen = some seen' ∧ ∀ n, ¬hidden n → seen' n = env' n
  | [], env, env', seen, _, _, hseen, hrun => by
    cases hrun
    exact ⟨seen, rfl, hseen⟩
  | (s, true) :: marked, env, env', seen, hh, hv, hseen, hrun => by
    obtain ⟨x, hx, hrun⟩ := Option.bind_eq_some_iff.1 hrun
    have hvalue : value? seen s = some x := (hv s List.mem_cons_self _ _ hseen).trans hx
    obtain ⟨seen', hrun', hseen'⟩ := @perform_shown _ hidden marked _ env' (Function.update seen (name s) (some x))
      (fun t ht => hh t (List.mem_cons_of_mem _ ht)) (fun t ht => hv t (List.mem_cons_of_mem _ ht)) (fun n hn => by
        by_cases hname : n = name s
        · rw [hname, Function.update_self, Function.update_self]
        · rw [Function.update_of_ne hname, Function.update_of_ne hname, hseen n hn]) hrun
    refine ⟨seen', ?_, hseen'⟩
    rw [List.filter_cons_of_pos rfl, List.map_cons, perform, hvalue]
    exact hrun'
  | (s, false) :: marked, env, env', seen, hh, hv, hseen, hrun => by
    obtain ⟨x, _, hrun⟩ := Option.bind_eq_some_iff.1 hrun
    refine @perform_shown _ hidden marked _ env' seen (fun t ht => hh t (List.mem_cons_of_mem _ ht))
      (fun t ht => hv t (List.mem_cons_of_mem _ ht)) (fun n hn => ?_) hrun
    have hname : n ≠ name s := fun he => hn (he ▸ hh s List.mem_cons_self)
    exact (hseen n hn).trans (Function.update_of_ne hname _ _).symm

/-- A name that is given one value only is not given it by a hidden statement as well. -/
theorem shown_once {marked : List (σ × Bool)} {n : N}
    (h : (marked.map (·.1)).Pairwise fun s t => name s = name t → name s ≠ n) {s t : σ} (hs : (s, true) ∈ marked)
    (hn : name s = n) (ht : (t, false) ∈ marked) : name t ≠ n := by
  rintro he
  have hsymm : Std.Symm fun a b : σ × Bool => name a.1 = name b.1 → name a.1 ≠ n :=
    ⟨fun a b hab hba => hba ▸ hab hba.symm⟩
  rw [List.pairwise_map] at h
  exact h.forall hs ht (by simp) (hn.trans he.symm) hn

end Running

end Bytelift.Substitution
