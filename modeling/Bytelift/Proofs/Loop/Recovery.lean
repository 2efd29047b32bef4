import Bytelift.Proofs.Loop.Numbering

/-! Nests of loops are recovered. Every loop is shown as one, and its exit by a keyword: that of the loop, or
that of a loop around it that claims the exit. -/

namespace Bytelift

open Run Text Instruction

namespace Loop

/-! ## What a nest is printed as -/

/-- The lines that a nest is shown as, if it stands in some loops. -/
def printed (offsets : List Offset) : List Loop → List Loop → List String
  | _, [] => []
  | outer, l :: inside => "while (true)" :: "\x7b" :: (shown l.condition ++
      ("if (!ACCU) " ++ exitWord offsets outer l) :: (shown l.body ++
        (printed offsets (outer ++ [l]) inside ++ (shown l.rest ++ ["\x7d"]))))

def marks (l : Loop) : List Offset := [l.head.offset, l.test.offset, l.back.offset]

theorem marks_mem {loops : List Loop} {l : Loop} (hl : l ∈ loops) {o : Offset} (ho : o ∈ l.marks) :
    o ∈ offsetsOf (code loops) := by
  have hhead := l.head_mem
  simp only [marks, List.mem_cons, List.not_mem_nil, or_false] at ho
  rcases ho with rfl | rfl | rfl
  · exact List.mem_map_of_mem (mem_code hl (by simp only [List.mem_append] at hhead ⊢; tauto))
  · exact List.mem_map_of_mem (mem_code hl (by simp))
  · exact List.mem_map_of_mem (mem_code hl (by simp))

theorem code_sublist (l : Loop) (inner : List Loop) : (code inner).Sublist (code (l :: inner)) := by
  have hmiddle : (code inner).Sublist (l.body ++ (code inner ++ (l.rest ++ [l.back]))) :=
    (List.sublist_append_left _ _).trans (List.sublist_append_right _ _)
  exact (hmiddle.cons _).trans (List.sublist_append_right _ _)

/-- The lines of a condition after the first are neither where the loop is entered nor its test. -/
theorem tail_unmarked {l : Loop} (hn : (offsetsOf (l.condition ++ [l.test])).Nodup) :
    ∀ line ∈ l.condition.tail, line.offset ≠ l.head.offset ∧ line.offset ≠ l.test.offset := by
  unfold head
  cases hc : l.condition with
  | nil => simp
  | cons first more =>
    rw [hc] at hn
    simp only [offsetsOf, List.cons_append, List.map_cons, List.map_append, List.map_nil, List.nodup_cons,
      List.mem_append, not_or] at hn
    intro line hm
    have hline : line.offset ∈ offsetsOf more := List.mem_map_of_mem hm
    refine ⟨fun he => hn.1.1 (he ▸ hline), fun he => ?_⟩
    exact (List.nodup_append.1 hn.2).2.2 _ hline _ (by simp) he

/-- The marks of a loop are not in the loop inside it, and its other lines are neither. -/
theorem unmarked {l : Loop} {inner : List Loop} (hn : (offsetsOf (code (l :: inner))).Nodup) :
    (∀ o ∈ l.marks, o ∉ offsetsOf (code inner)) ∧ ∀ line ∈ l.condition.tail ++ l.body ++ l.rest,
      line.offset ∈ offsetsOf (code (l :: inner)) ∧ line.offset ∉ l.marks ∧
        line.offset ∉ offsetsOf (code inner) := by
  have hparts : offsetsOf (code (l :: inner)) = offsetsOf (l.condition ++ [l.test]) ++
      (offsetsOf l.body ++ (offsetsOf (code inner) ++ (offsetsOf l.rest ++ [l.back.offset]))) := by
    simp [code, offsetsOf]
  rw [hparts] at hn
  obtain ⟨hentry, hn, hafter⟩ := List.nodup_append.1 hn
  obtain ⟨_, hn, hbody⟩ := List.nodup_append.1 hn
  obtain ⟨_, hn, hinner⟩ := List.nodup_append.1 hn
  obtain ⟨_, _, hrest⟩ := List.nodup_append.1 hn
  simp only [List.mem_append, List.mem_singleton] at hafter hbody hinner hrest
  have hhead : l.head.offset ∈ offsetsOf (l.condition ++ [l.test]) := List.mem_map_of_mem l.head_mem
  have htest : l.test.offset ∈ offsetsOf (l.condition ++ [l.test]) := List.mem_map_of_mem (by simp)
  simp only [marks, List.mem_cons, List.not_mem_nil, or_false, not_or]
  refine ⟨?_, ?_⟩
  · rintro o (rfl | rfl | rfl) hm
    · exact hafter _ hhead _ (Or.inr (Or.inl hm)) rfl
    · exact hafter _ htest _ (Or.inr (Or.inl hm)) rfl
    · exact hinner _ hm _ (Or.inr rfl) rfl
  · intro line hline
    rw [hparts]
    simp only [List.mem_append]
    rcases List.mem_append.1 hline with hline | hline
    rcases List.mem_append.1 hline with hline | hline
    · have hin : line.offset ∈ offsetsOf (l.condition ++ [l.test]) :=
        List.mem_map_of_mem (List.mem_append_left _ (List.mem_of_mem_tail hline))
      obtain ⟨hnehead, hnetest⟩ := tail_unmarked hentry line hline
      exact ⟨by tauto, ⟨hnehead, hnetest, hafter _ hin _ (by tauto)⟩, fun hm => hafter _ hin _ (by tauto) rfl⟩
    · have hin : line.offset ∈ offsetsOf l.body := List.mem_map_of_mem hline
      exact ⟨by tauto, ⟨(hafter _ hhead _ (Or.inl hin)).symm, (hafter _ htest _ (Or.inl hin)).symm,
        hbody _ hin _ (by tauto)⟩, fun hm => hbody _ hin _ (Or.inl hm) rfl⟩
    · have hin : line.offset ∈ offsetsOf l.rest := List.mem_map_of_mem hline
      exact ⟨by tauto, ⟨(hafter _ hhead _ (by tauto)).symm, (hafter _ htest _ (by tauto)).symm, hrest _ hin _ rfl⟩,
        fun hm => hinner _ hm _ (Or.inl hin) rfl⟩

/-! ## The texts of the lines -/

/-- A nest whose jumps have been gathered, to be handled in some order. -/
structure Gathered (loops : List Loop) (flow : Flow) (order : List Nat) : Prop where
  sound : flow.Sound
  numbered : Numbered loops flow
  sorted : Sorted loops flow order
  stands : ∀ l ∈ loops, l.Stands flow.offsets
  nested : loops.Pairwise Encloses

def turning (flow : Flow) (order : List Nat) : List Nat := order.filter fun i => (flow.jump i).kind = .loop

def laid (flow : Flow) (order : List Nat) (lines : List CodeLine) : List String :=
  lines.flatMap fun line => shownLines (flow.wrappedText (turning flow order) line.offset (textOf line))

namespace Gathered

variable {loops outer inner : List Loop} {flow : Flow} {order : List Nat} {l : Loop}

theorem exists_turning (g : Gathered loops flow order) {p : Jump → Prop} {q : Loop → Prop}
    (hpq : ∀ l i, l.Turns flow i → (p (flow.jump i) ↔ q l)) :
    (∃ i ∈ turning flow order, p (flow.jump i)) ↔ ∃ l ∈ loops, q l := by
  constructor
  · rintro ⟨i, hi, hp⟩
    simp only [turning, List.mem_filter, decide_eq_true_eq, g.sorted.mem] at hi
    obtain ⟨l, hl, ht⟩ := g.numbered.turns_of_kind hi.1 hi.2
    exact ⟨l, hl, (hpq l i ht).1 hp⟩
  · rintro ⟨l, hl, hq⟩
    obtain ⟨i, hi⟩ := g.numbered.turns l hl
    refine ⟨i, ?_, (hpq l i hi).2 hq⟩
    simp [turning, g.sorted.mem, hi.lt, hi.kind]

theorem starts_iff (g : Gathered loops flow order) (o : Offset) :
    (∃ i ∈ turning flow order, (flow.jump i).start = o) ↔ ∃ l ∈ loops, l.head.offset = o :=
  @exists_turning loops flow order g (fun j => j.start = o) (fun l => l.head.offset = o)
    fun _ _ ht => by rw [ht.start]

theorem stops_iff (g : Gathered loops flow order) (o : Offset) :
    (∃ i ∈ turning flow order, (flow.jump i).stop = o) ↔ ∃ l ∈ loops, l.back.offset = o :=
  @exists_turning loops flow order g (fun j => j.stop = o) (fun l => l.back.offset = o)
    fun _ _ ht => by rw [ht.stop]

theorem wordAt?_test (g : Gathered loops flow order) (he : loops = outer ++ l :: inner) :
    flow.wordAt? (turning flow order) l.test.offset = some (exitWord flow.offsets outer l) := by
  obtain ⟨t, ht⟩ := g.numbered.exits l (by simp [he])
  have hget : (flow.table .test).get? l.test.offset = some t := by
    rw [g.sound.lookup, g.sound.filed _ _ _ (by simp)]
    exact ⟨(g.numbered.jumps t ht.lt).1, ht.kind, ht.start⟩
  rw [Flow.wordAt?, hget, Option.bind_some]
  exact word?_eq g.numbered g.sound.toFiling g.sorted g.stands g.nested he ht

theorem wordAt?_eq_none (g : Gathered loops flow order) {o : Offset} (ho : ∀ l ∈ loops, l.test.offset ≠ o) :
    flow.wordAt? (turning flow order) o = none := by
  have hget : (flow.table .test).get? o = none := by
    rw [Option.eq_none_iff_forall_ne_some]
    intro t ht
    obtain ⟨hopen, hk, hs⟩ := (g.sound.filed _ _ _ (by simp)).1 (g.sound.lookup.1 ht)
    obtain ⟨l, hl, he⟩ := g.numbered.exits_of_kind hopen.1 hk
    exact ho l hl (he.start.symm.trans hs)
  rw [Flow.wordAt?, hget, Option.bind_none]

/-! Nothing but its own test is where a loop is entered, and nothing at all where it ends. -/

theorem head_ne_back (g : Gathered loops flow order) {r : Loop} (hl : l ∈ loops) (hr : r ∈ loops) :
    l.head.offset ≠ r.back.offset := by
  intro he
  have hopens := (g.stands l hl).opens
  have hlt := test_lt_back g.stands g.nested hr hl
  rw [he] at hopens
  omega

theorem test_ne_back (g : Gathered loops flow order) {r : Loop} (hl : l ∈ loops) (hr : r ∈ loops) :
    l.test.offset ≠ r.back.offset := by
  intro he
  have hlt := test_lt_back g.stands g.nested hr hl
  rw [he] at hlt
  omega

theorem eq_of_head_eq_test (g : Gathered loops flow order) {r : Loop} (hl : l ∈ loops) (hr : r ∈ loops)
    (he : l.head.offset = r.test.offset) : l = r := by
  have hopens := (g.stands l hl).opens
  have hopens' := (g.stands r hr).opens
  rw [he] at hopens
  rcases encloses_or g.nested hl hr with heq | henc | henc
  · exact heq
  · have hlt := henc.1
    omega
  · have hlt := henc.1
    rw [he] at hlt
    omega

theorem wrappedText_unmarked (g : Gathered loops flow order) {o : Offset} (ho : ∀ l ∈ loops, o ∉ l.marks)
    (text : String) : flow.wrappedText (turning flow order) o text = text := by
  simp only [marks, List.mem_cons, List.not_mem_nil, or_false, not_or] at ho
  have hstart : ¬∃ l ∈ loops, l.head.offset = o := fun ⟨l, hl, he⟩ => (ho l hl).1 he.symm
  have hstop : ¬∃ l ∈ loops, l.back.offset = o := fun ⟨l, hl, he⟩ => (ho l hl).2.2 he.symm
  have hword := g.wordAt?_eq_none fun l hl he => (ho l hl).2.1 he.symm
  rw [← g.starts_iff] at hstart
  rw [← g.stops_iff] at hstop
  simp [Flow.wrappedText, hstart, hstop, hword, exitText]

theorem wrappedText_head (g : Gathered loops flow order) (hl : l ∈ loops)
    (hne : l.head.offset ≠ l.test.offset) (text : String) :
    flow.wrappedText (turning flow order) l.head.offset text = "while (true)\n\x7b\n" ++ text := by
  have hstart := (g.starts_iff l.head.offset).2 ⟨l, hl, rfl⟩
  have hstop : ¬∃ r ∈ loops, r.back.offset = l.head.offset := fun ⟨r, hr, he⟩ => g.head_ne_back hl hr he.symm
  have hword := @wordAt?_eq_none loops flow order g l.head.offset fun r hr he => by
    obtain rfl := g.eq_of_head_eq_test hl hr he.symm
    exact hne he.symm
  rw [← g.stops_iff] at hstop
  simp [Flow.wrappedText, hstart, hstop, hword, exitText]

theorem wrappedText_test (g : Gathered loops flow order) (he : loops = outer ++ l :: inner) (text : String) :
    flow.wrappedText (turning flow order) l.test.offset text =
      (if l.head.offset = l.test.offset then "while (true)\n\x7b\n" else "") ++
        (text ++ (" " ++ exitWord flow.offsets outer l)) := by
  have hl : l ∈ loops := by simp [he]
  have hstart : (∃ i ∈ turning flow order, (flow.jump i).start = l.test.offset) ↔
      l.head.offset = l.test.offset := by
    rw [g.starts_iff]
    constructor
    · rintro ⟨r, hr, hsame⟩
      obtain rfl := g.eq_of_head_eq_test hr hl hsame
      exact hsame
    · exact fun hsame => ⟨l, hl, hsame⟩
  have hstop : ¬∃ r ∈ loops, r.back.offset = l.test.offset := fun ⟨r, hr, he⟩ => g.test_ne_back hl hr he.symm
  rw [← g.stops_iff] at hstop
  simp [Flow.wrappedText, hstart, hstop, g.wordAt?_test he, exitText]

theorem wrappedText_back (g : Gathered loops flow order) (hl : l ∈ loops) (text : String) :
    flow.wrappedText (turning flow order) l.back.offset text = closeText text := by
  have hstart : ¬∃ r ∈ loops, r.head.offset = l.back.offset := fun ⟨r, hr, he⟩ => g.head_ne_back hr hl he
  have hstop := (g.stops_iff l.back.offset).2 ⟨l, hl, rfl⟩
  have hword := @wordAt?_eq_none loops flow order g l.back.offset fun r hr he => g.test_ne_back hr hl he
  rw [← g.starts_iff] at hstart
  simp [Flow.wrappedText, hstart, hstop, hword, exitText]

/-! ## The lines of the nest -/

theorem laid_append (lines more : List CodeLine) :
    laid flow order (lines ++ more) = laid flow order lines ++ laid flow order more :=
  List.flatMap_append

theorem laid_unmarked (g : Gathered loops flow order) {lines : List CodeLine}
    (h : ∀ line ∈ lines, ∀ l ∈ loops, line.offset ∉ l.marks) : laid flow order lines = shown lines :=
  List.flatMap_congr fun line hl => by rw [g.wrappedText_unmarked (h line hl)]

theorem shownLines_exit (offsets : List Offset) (outer : List Loop) (l : Loop) :
    shownLines ("if (!ACCU)" ++ (" " ++ exitWord offsets outer l)) =
      ["if (!ACCU) " ++ exitWord offsets outer l] := by
  unfold exitWord
  split <;> decide

theorem laid_head (g : Gathered loops flow order) (he : loops = outer ++ l :: inner)
    (hn : (offsetsOf (l.condition ++ [l.test])).Nodup)
    (hc : ∀ line ∈ l.condition.tail, ∀ r ∈ loops, line.offset ∉ r.marks) (ht : textOf l.test = "if (!ACCU)") :
    laid flow order (l.condition ++ [l.test]) = "while (true)" :: "\x7b" ::
      (shown l.condition ++ ["if (!ACCU) " ++ exitWord flow.offsets outer l]) := by
  have hl : l ∈ loops := by simp [he]
  have htest := g.wrappedText_test he "if (!ACCU)"
  cases hcond : l.condition with
  | nil =>
    have hhead : l.head = l.test := by simp [head, hcond]
    rw [hhead, if_pos rfl] at htest
    simp only [laid, List.nil_append, List.flatMap_cons, List.flatMap_nil, List.append_nil]
    rw [ht, htest, shownLines_while, shownLines_exit, shown, List.flatMap_nil, List.nil_append]
  | cons first more =>
    have hhead : l.head = first := by simp [head, hcond]
    have hne : l.head.offset ≠ l.test.offset := by
      rw [hcond] at hn
      rw [hhead]
      intro hsame
      simp [offsetsOf, hsame] at hn
    rw [if_neg hne] at htest
    rw [hcond, List.tail_cons] at hc
    have hfirst := g.wrappedText_head hl hne (textOf first)
    have hmore := g.laid_unmarked hc
    simp only [laid, shown, hhead] at hmore hfirst ⊢
    rw [List.cons_append, List.flatMap_cons, List.flatMap_append, hfirst, shownLines_while, hmore,
      List.flatMap_cons, List.flatMap_nil, ht, htest, String.empty_append, shownLines_exit, List.append_nil,
      List.flatMap_cons]
    simp

theorem laid_back (g : Gathered loops flow order) (hl : l ∈ loops) (ht : textOf l.back = "") :
    laid flow order [l.back] = ["\x7d"] := by
  simp only [laid, List.flatMap_cons, List.flatMap_nil, List.append_nil]
  rw [ht, g.wrappedText_back hl]
  decide

/-- Once all its loops are wrapped, a nest shows what it is printed as. -/
theorem laid_code (g : Gathered loops flow order)
    (ht : ∀ l ∈ loops, textOf l.test = "if (!ACCU)" ∧ textOf l.back = "") : ∀ (outer inside : List Loop),
    loops = outer ++ inside → (∀ l ∈ outer, ∀ o ∈ l.marks, o ∉ offsetsOf (code inside)) →
    (offsetsOf (code inside)).Nodup → laid flow order (code inside) = printed flow.offsets outer inside
  | outer, [], _, _, _ => rfl
  | outer, l :: inside, he, hout, hn => by
    have hl : l ∈ loops := by simp [he]
    obtain ⟨hmarks, hplain⟩ := unmarked hn
    have hsub : (offsetsOf (code inside)).Sublist (offsetsOf (code (l :: inside))) := (code_sublist l inside).map _
    have hunmarked : ∀ line ∈ l.condition.tail ++ l.body ++ l.rest, ∀ r ∈ loops, line.offset ∉ r.marks := by
      intro line hline r hr hm
      obtain ⟨hin, hown, hinner⟩ := hplain line hline
      rw [he, List.mem_append, List.mem_cons] at hr
      rcases hr with hr | rfl | hr
      · exact hout r hr _ hm hin
      · exact hown hm
      · exact hinner (marks_mem hr hm)
    have hinner := laid_code g ht (outer ++ [l]) inside (by simp [he]) (by
      intro r hr o ho hm
      rcases List.mem_append.1 hr with hr | hr
      · exact hout r hr o ho (hsub.subset hm)
      · exact hmarks o (List.mem_singleton.1 hr ▸ ho) hm) (hn.sublist hsub)
    have hparts : code (l :: inside) = l.condition ++ [l.test] ++
      (l.body ++ (code inside ++ (l.rest ++ [l.back]))) := by
      simp [code]
    rw [hparts, offsetsOf, List.map_append] at hn
    obtain ⟨hentry, htail, hapart⟩ := List.nodup_append.1 hn
    rw [hparts, laid_append, laid_append l.body, laid_append (code inside), laid_append l.rest,
      g.laid_head he hentry (fun line hm => hunmarked line (by simp [hm])) (ht l hl).1,
      g.laid_unmarked (fun line hm => hunmarked line (by simp [hm])), hinner,
      g.laid_unmarked (fun line hm => hunmarked line (by simp [hm])), g.laid_back hl (ht l hl).2, printed]
    simp

/-- Nothing is written on the lines around the nest. -/
theorem laid_around (g : Gathered loops flow order) {before after : List CodeLine}
    (ht : ∀ l ∈ loops, textOf l.test = "if (!ACCU)" ∧ textOf l.back = "")
    (hn : (offsetsOf (before ++ (code loops ++ after))).Nodup) :
    laid flow order (before ++ (code loops ++ after)) =
      shown before ++ (printed flow.offsets [] loops ++ shown after) := by
  rw [offsetsOf, List.map_append, List.map_append] at hn
  obtain ⟨_, hn, hbefore⟩ := List.nodup_append.1 hn
  obtain ⟨hcode, _, hafter⟩ := List.nodup_append.1 hn
  rw [laid_append, laid_append, g.laid_code ht [] loops rfl (by simp) hcode, g.laid_unmarked, g.laid_unmarked]
  · intro line hline l hl hm
    exact hafter _ (marks_mem hl hm) _ (List.mem_map_of_mem hline) rfl
  · intro line hline l hl hm
    exact hbefore _ (List.mem_map_of_mem hline) _ (List.mem_append_left _ (marks_mem hl hm)) rfl

/-- The loops of a gathered nest are wrapped in their order. -/
theorem yields_handleJumps (g : Gathered loops flow order) (hl : flow.Looped) :
    Yields (FlowM.handleJumps order) flow fun _ result => flow.Wrapping (turning flow order) result := by
  refine Flow.Wrapping.run hl g.sound order [] (.start g.sound hl.unhandled) g.sorted.nodup ?_ ?_
  · intro i hi
    exact ⟨(g.sorted.mem i).1 hi, by simp⟩
  · -- each test comes after its own loop, which claims it
    intro t ht hk
    obtain ⟨l, hl, hexits⟩ := g.numbered.exits_of_kind ((g.sorted.mem t).1 ht) hk
    obtain ⟨i, hi⟩ := g.numbered.turns l hl
    refine ⟨i, hi.kind, ?_, Or.inr (g.sorted.own l hl i t hi hexits)⟩
    rw [verdict?_self (g.stands l hl) hi hexits]
    simp

end Gathered

/-! ## Laying out the code -/

/-- Code with a nest in it: the lines of the nest file its jumps, and all others are statements. -/
structure Holds (loops : List Loop) (code : List CodeLine) : Prop where
  ascending : Ascending (offsetsOf code)
  stands : ∀ l ∈ loops, l.Stands (offsetsOf code)
  nested : loops.Pairwise Encloses
  renderable : ∀ line ∈ code, Renderable line
  filed : code.filterMap filed? = loops.map testJump ++ loops.reverse.map loopJump

theorem holds_of_compiled {loops : List Loop} {before after : List CodeLine} {last : CodeLine}
    (ha : Ascending (offsetsOf (before ++ (code loops ++ last :: after))))
    (hc : Compiled loops last.offset) (hp : ∀ line ∈ before ++ last :: after, (statement? line).isSome) :
    Holds loops (before ++ (code loops ++ last :: after)) := by
  obtain ⟨hstands, hnested⟩ := stands_of_compiled ha (offsetsOf before) (offsetsOf after) hc
    (by simp [offsetsOf])
  have hall := compiled_mem hc
  have hplain := fun l hl => (hall l hl).1
  have hfiled : ∀ l ∈ loops, filed? l.test = some l.testJump ∧ filed? l.back = some l.loopJump :=
    fun l hl => filed?_of_stands ha (hstands l hl) (hall l hl).2.1 (hall l hl).2.2
  refine ⟨ha, hstands, hnested, ?_, ?_⟩
  · intro line hm
    rcases List.mem_append.1 hm with hm | hm
    · exact Or.inl (hp line (List.mem_append_left _ hm))
    rcases List.mem_append.1 hm with hm | hm
    · exact renderable_code hplain hfiled line hm
    · exact Or.inl (hp line (List.mem_append_right _ hm))
  · rw [List.filterMap_append, List.filterMap_append, filterMap_filed? hplain hfiled,
      filterMap_filed?_plain fun line hm => hp line (List.mem_append_left _ hm),
      filterMap_filed?_plain fun line hm => hp line (List.mem_append_right _ hm), List.nil_append,
      List.append_nil]

namespace Holds

open JumpTables

variable {loops : List Loop} {code rendered : List CodeLine} {t : JumpTables Jump} {drawn : Flow}
  {name : String} {console : Console}

theorem entriesOf_eq (h : Holds loops code) (k : JumpKind) : entriesOf code k =
    if k = .loop then loops.reverse.map fun l => (l.head.offset, l.loopJump)
    else if k = .test then loops.map fun l => (l.test.offset, l.testJump) else [] := by
  rw [entriesOf, h.filed, List.filter_append, List.filter_map, List.filter_map]
  by_cases hl : k = .loop
  · subst hl
    simp [Function.comp_def, loopJump, testJump]
  · by_cases ht : k = .test
    · subst ht
      simp [Function.comp_def, loopJump, testJump]
    · simp [Function.comp_def, loopJump, testJump, Ne.symm hl, Ne.symm ht, hl, ht]

theorem nodup_entriesOf (h : Holds loops code) (k : JumpKind) : ((entriesOf code k).map (·.1)).Nodup := by
  obtain ⟨hheads, htests⟩ := nodup_of_nested h.stands h.nested
  rw [h.entriesOf_eq]
  split
  · rw [List.map_map, List.map_reverse, List.nodup_reverse]
    exact hheads
  split
  · rw [List.map_map]
    exact htests
  · simp

theorem all_eq (h : Holds loops code) (ht : ∀ k, (t.table k).entries = entriesOf code k) :
    t.all = loops.reverse.map loopJump ++ loops.map testJump := by
  have hvalues : ∀ k, (t.table k).values = (entriesOf code k).map (·.2) := fun k => by rw [Table.values, ht]
  rw [all, toList_eq, List.flatMap_map]
  simp [JumpKind.filed, hvalues, h.entriesOf_eq, Function.comp_def]

theorem casesAhead (h : Holds loops code) : CasesAhead code := by
  intro line hl c hc
  unfold casesAt at hc
  split at hc
  · next hf =>
    rcases h.renderable line hl with hs | ⟨j, hj, _⟩
    · simp [statement?, hf] at hs
    · obtain ⟨kind, text, target, hf', _⟩ := form?_of_filed? hj
      rw [hf] at hf'
      cases hf'
  · cases hc

/-- The jumps of the nest are gathered with the outer loops first, as far as they are told apart. -/
theorem yields_gather (h : Holds loops code) (he : Entered (Origin code {}) t)
    (ht : ∀ k, (t.table k).entries = entriesOf code k) (hr : List.Forall₂ Renders code rendered)
    (hsort : ∀ o ∈ offsetsOf code, (Binary64.nearestWhole? o.value).isSome) :
    Yields FlowM.gather (Flow.ofTables name rendered t console) fun order drawn =>
      Gathered loops drawn order ∧ drawn.Looped ∧ drawn.offsets = offsetsOf code ∧ drawn.code = rendered := by
  obtain ⟨hfresh, ho⟩ := @Flow.fresh_of_entered name code rendered {} console t he h.ascending h.casesAhead
    (by intro e hm; cases hm) hr
  have hlisted := @Flow.listed_ofTables name rendered t console _ he
  have hjumps : (Flow.ofTables name rendered t console).jumps = loops.reverse.map loopJump ++ loops.map testJump :=
    h.all_eq ht
  have hsortable : ∀ o ∈ offsetsOf code, FlowM.Sortable o := fun o hm => ⟨h.ascending.numbers o hm, hsort o hm⟩
  have hnumbered := fun drawn hd =>
    @numbered_of_drawing loops (offsetsOf code) _ drawn h.ascending h.stands h.nested ho hjumps hd
  refine (FlowM.yields_gather_sorted hfresh hlisted ?_ ?_).mono ?_
  · intro i hi
    by_cases hlt : i < loops.length
    · obtain ⟨l, _, hjump⟩ := jump_of_lt hjumps hlt
      exact Or.inr (Or.inl (Or.inl (by rw [hjump]; rfl)))
    · obtain ⟨l, hl, hjump⟩ := jump_of_le hjumps (by omega) hi
      refine Or.inr (Or.inr ⟨l.back.offset, ?_⟩)
      rw [hjump, ho]
      exact (h.stands l (List.mem_of_getElem? hl)).exits
  · intro drawn hd i hi
    obtain ⟨_, l, hl, hturns | hexits⟩ := (hnumbered drawn hd).jumps i (hd.length ▸ hi)
    · rw [hturns.start, hturns.stop]
      exact ⟨hsortable _ (h.stands l hl).head, hsortable _ (h.stands l hl).exits.left⟩
    · rw [hexits.start, hexits.stop]
      exact ⟨hsortable _ (h.stands l hl).test, hsortable _ (h.stands l hl).exits.left⟩
  · rintro order drawn ⟨hd, hperm, hranked⟩
    have hall : (Flow.ofTables name rendered t console).tables.all = List.range drawn.jumps.length := by
      rw [hd.length]
      exact all_numberFrom t
    have hoffsets := hd.offsets.trans ho
    have hsound := hd.sound hfresh
    have hstands : ∀ l ∈ loops, l.Stands drawn.offsets := hoffsets ▸ h.stands
    rw [hall] at hperm hranked
    refine ⟨⟨hsound, hnumbered drawn hd, ?_, hstands, h.nested⟩, ?_, hoffsets, hd.code⟩
    · exact sorted_of_gather (hnumbered drawn hd) h.stands hsortable hperm hranked
    · exact (hnumbered drawn hd).looped hsound.toFiling hstands h.nested hd.unhandled

/-- Laying out the code wraps all loops of the nest. -/
theorem yields_layOut (h : Holds loops code) (he : Entered (Origin code {}) t)
    (ht : ∀ k, (t.table k).entries = entriesOf code k) (hr : List.Forall₂ Renders code rendered)
    (hsort : ∀ o ∈ offsetsOf code, (Binary64.nearestWhole? o.value).isSome) :
    Yields FlowM.layOut (Flow.ofTables name rendered t console) fun _ result => ∃ drawn order,
      Gathered loops drawn order ∧ drawn.offsets = offsetsOf code ∧
        result.code = unfoldCode (rendered.map fun line =>
          line.reading (drawn.wrappedText (turning drawn order) line.offset line.rendered)) := by
  simp only [FlowM.layOut, yields_bind]
  refine (h.yields_gather he ht hr hsort).mono ?_
  rintro order drawn ⟨hg, hlooped, hoffsets, hcode⟩
  rw [FlowM.yields_dropReceivers_none hg.sound]
  · refine (hg.yields_handleJumps hlooped).mono ?_
    intro _ result hw
    simp only [FlowM.unfoldLines, yields_modify]
    refine ⟨drawn, order, hg, hoffsets, ?_⟩
    rw [hw.code, hcode]
  · intro i hi
    rcases hlooped.kinds i hi.1 with hk | hk <;> simp [hk]

/-- Code with a nest in it shows the nest as it is printed. -/
theorem shows {before after : List CodeLine} (h : Holds loops (before ++ (Loop.code loops ++ after)))
    (ht : ∀ l ∈ loops, textOf l.test = "if (!ACCU)" ∧ textOf l.back = "")
    (hsort : ∀ o ∈ offsetsOf (before ++ (Loop.code loops ++ after)), (Binary64.nearestWhole? o.value).isSome) :
    Yields (liftCode name (before ++ (Loop.code loops ++ after)) {}) console fun out _ =>
      (out.map (·.rendered)).filter (· ≠ "") = "\x7b" :: (shown before ++
        (printed (offsetsOf (before ++ (Loop.code loops ++ after))) [] loops ++ (shown after ++ ["\x7d"]))) := by
  have hempty : ∀ k, ((guardTables {}).table k).entries = [] := by
    intro k
    cases k <;> simp [guardTables, JumpTables.table, JumpTables.get?]
  obtain ⟨rendered, recorder, hrender, htext, hentries⟩ :=
    @yields_renderLines_files (before ++ (Loop.code loops ++ after)) { tables := guardTables {}, console }
      h.renderable fun k => by
        rw [Table.keys, hempty]
        exact h.nodup_entriesOf k
  simp only [hempty, List.nil_append] at hentries
  obtain ⟨hentered, hrenders⟩ := entered_of_renderLines _ (fun _ hl => hl) entered_guardTables hrender
  obtain ⟨_, flow, hlay, drawn, order, hg, hoffsets, hcode⟩ :=
    @yields_layOut loops _ rendered recorder.tables name recorder.console h hentered hentries hrenders hsort
  refine ⟨flow.code, flow.console, ?_, ?_⟩
  · unfold liftCode
    rw [hrender]
    dsimp only
    rw [hlay]
  · change (flow.code.map (·.rendered)).filter (· ≠ "") = _
    rw [hcode, shown_unfoldCode, htext, List.map_map, List.flatMap_map]
    change "\x7b" :: (laid drawn order (before ++ (Loop.code loops ++ after)) ++ ["\x7d"]) = _
    rw [hg.laid_around ht h.ascending.nodup, hoffsets]
    simp

end Holds

/-- The texts that the jumps of a loop read as. -/
theorem texts_of_compiled {loops : List Loop} {exit : Offset} (hc : Compiled loops exit) :
    ∀ l ∈ loops, textOf l.test = "if (!ACCU)" ∧ textOf l.back = "" := by
  intro l hl
  obtain ⟨_, htest, hback⟩ := compiled_mem hc l hl
  simp [textOf, htest.named, hback.named, form?_jumpIfFalse, form?_jumpLoop]

end Loop

open Loop in
/-- A nest of loops is shown loop by loop, however deep it is. The exit of a loop is shown as a break, but for
one that a loop around it claims: one that can be told to start before it, and that ends no more than five
lines after it, but not within the first five lines of all. -/
theorem liftCode_shows_nest {name : String} {before after : List CodeLine} {loops : List Loop} {last : CodeLine}
    {console : Console} (hc : Compiled loops last.offset)
    (hp : ∀ line ∈ before ++ last :: after, (statement? line).isSome)
    (ha : Ascending (offsetsOf (before ++ (code loops ++ last :: after))))
    (hs : ∀ o ∈ offsetsOf (before ++ (code loops ++ last :: after)), (Binary64.nearestWhole? o.value).isSome) :
    ∃ out console', liftCode name (before ++ (code loops ++ last :: after)) {} console = .ok out console' ∧
      (out.map (·.rendered)).filter (· ≠ "") = "\x7b" :: (shown before ++
        (printed (offsetsOf (before ++ (code loops ++ last :: after))) [] loops ++
          (shown (last :: after) ++ ["\x7d"]))) :=
  (holds_of_compiled ha hc hp).shows (texts_of_compiled hc) hs

def looseNest : List Loop :=
  [{ condition := [zeroAt 0], test := { offset := .number 2, instruction := "JumpIfFalse [28] (0x1e @ 30)" },
     body := [zeroAt 4], rest := [zeroAt 14, zeroAt 16, zeroAt 18, zeroAt 20, zeroAt 22],
     back := { offset := .number 24, instruction := "JumpLoop [24] (0x0 @ 0)" } },
   { condition := [], test := { offset := .number 6, instruction := "JumpIfFalse [8] (0xe @ 14)" },
     body := [zeroAt 8], rest := [], back := { offset := .number 10, instruction := "JumpLoop [4] (0x6 @ 6)" } }]

theorem compiled_looseNest : Loop.Compiled looseNest (.number 30) :=
  ⟨by decide, ⟨by decide, 30, rfl, rfl⟩, ⟨by decide, 0, rfl, rfl⟩, by decide, ⟨by decide, 14, rfl, rfl⟩,
    ⟨by decide, 6, rfl, rfl⟩, trivial⟩

theorem liftCode_shows_looseNest : Loop.Compiled looseNest (.number 30) ∧
    Ascending (offsetsOf (Loop.code looseNest ++ [returnAt 30])) ∧
    ∃ out console', liftCode "f" (Loop.code looseNest ++ [returnAt 30]) {} {} = .ok out console' ∧
      (out.map (·.rendered)).filter (· ≠ "") =
        ["\x7b", "while (true)", "\x7b", "ACCU = 0", "if (!ACCU) break", "ACCU = 0", "while (true)", "\x7b",
          "if (!ACCU) break", "ACCU = 0", "\x7d", "ACCU = 0", "ACCU = 0", "ACCU = 0", "ACCU = 0", "ACCU = 0", "\x7d",
          "return ACCU", "\x7d"] := by
  have ha : Ascending (offsetsOf (Loop.code looseNest ++ [returnAt 30])) := by decide
  obtain ⟨out, console', hok, hshown⟩ := @liftCode_shows_nest "f" [] [] looseNest (returnAt 30) {}
    compiled_looseNest (by decide) ha (by decide +kernel)
  exact ⟨compiled_looseNest, ha, out, console', hok, hshown.trans (by decide +kernel)⟩

def tightNest : List Loop :=
  [{ condition := [{ offset := .number 0, instruction := "Ldar r0" }],
     test := { offset := .number 2, instruction := "JumpIfFalse [20] (0x1 @ 20)" },
     body := [zeroAt 4], rest := [{ offset := .number 14, instruction := "Star r2" }],
     back := { offset := .number 18, instruction := "JumpLoop [1] (0x1 @ 0)" } },
   { condition := [{ offset := .number 6, instruction := "Ldar r1" }],
     test := { offset := .number 8, instruction := "JumpIfFalse [14] (0x1 @ 14)" },
     body := [{ offset := .number 10, instruction := "Star r1" }], rest := [],
     back := { offset := .number 12, instruction := "JumpLoop [1] (0x1 @ 6)" } }]

theorem compiled_tightNest : Loop.Compiled tightNest (.number 20) :=
  ⟨by decide, ⟨by decide, 20, rfl, rfl⟩, ⟨by decide, 0, rfl, rfl⟩, by decide, ⟨by decide, 14, rfl, rfl⟩,
    ⟨by decide, 6, rfl, rfl⟩, trivial⟩

/-- The exit of a loop is not always a break: the outer loop takes that of the inner one for a continue. -/
theorem liftCode_shows_continue : Loop.Compiled tightNest (.number 20) ∧
    Ascending (offsetsOf (Loop.code tightNest ++ [returnAt 20])) ∧
    ∃ out console', liftCode "f" (Loop.code tightNest ++ [returnAt 20]) {} {} = .ok out console' ∧
      (out.map (·.rendered)).filter (· ≠ "") =
        ["\x7b", "while (true)", "\x7b", "ACCU = r0", "if (!ACCU) break", "ACCU = 0", "while (true)", "\x7b",
          "ACCU = r1", "if (!ACCU) continue", "r1 = ACCU", "\x7d", "r2 = ACCU", "\x7d", "return ACCU", "\x7d"] := by
  have ha : Ascending (offsetsOf (Loop.code tightNest ++ [returnAt 20])) := by decide
  have hholds := @Loop.holds_of_compiled tightNest [] [] (returnAt 20) ha compiled_tightNest (by decide)
  obtain ⟨out, console', hok, hshown⟩ := @Loop.Holds.shows tightNest "f" {} [] [returnAt 20] hholds
    (Loop.texts_of_compiled compiled_tightNest) (by decide +kernel)
  exact ⟨compiled_tightNest, ha, out, console', hok, hshown.trans (by decide +kernel)⟩

end Bytelift
