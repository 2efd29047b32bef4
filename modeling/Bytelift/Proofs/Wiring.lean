import Bytelift.Proofs.Lifting
import Bytelift.Proofs.Text.Numeral
import Mathlib.Data.List.Flatten

/-! Code made of statements and of jumps among them, told piece by piece. Each piece names the jumps that its
lines are handled as; so a function is lifted as soon as its pieces fit together and its jumps are handled. -/

namespace Bytelift

open Run Text Instruction

theorem jumpsTo_iff {name : String} {goal : Offset} {line : CodeLine} : JumpsTo name goal line ↔
    operator line = name ∧ (jumpTarget (operands line)).toOption.map Offset.number = some goal := by
  constructor
  · intro h
    obtain ⟨target, ht, rfl⟩ := h.aimed
    exact ⟨h.named, by rw [ht]; rfl⟩
  · intro h
    obtain ⟨hn, ht⟩ := h
    refine ⟨hn, ?_⟩
    cases hj : jumpTarget (operands line) with
    | error fault => simp [hj, Except.toOption] at ht
    | ok target => exact ⟨target, rfl, by simpa [hj, Except.toOption] using ht.symm⟩

instance {name : String} {goal : Offset} {line : CodeLine} : Decidable (JumpsTo name goal line) :=
  decidable_of_iff _ jumpsTo_iff.symm

def jumpAt (operator : String) (offset goal : Int) : CodeLine :=
  { offset := .number offset, instruction := operator ++ " [0] (0x1 @ " ++ toString goal ++ ")" }

theorem jumpsTo_jumpAt {name : String} {goal : Nat} (hblank : ' ' ∉ name.toList) (hdot : '.' ∉ name.toList)
    (hs : Short goal) (offset : Int) : JumpsTo name (.number goal) (jumpAt name offset goal) := by
  have hplain : ∀ c, c.isDigit = false → c ≠ ')' → c ∉ (toString goal ++ ")").toList := by
    intro c hc hne hm
    rw [String.toList_append, List.mem_append] at hm
    rcases hm with hm | hm
    · exact Bool.eq_false_iff.1 hc (isDigit_of_mem_toString hm)
    · exact hne (by simpa using hm)
  have hmark : " ".toList = [' '] := by decide
  have hline : (jumpAt name offset goal).instruction = name ++ " " ++ ("[0]" ++ " " ++ ("(0x1" ++ " " ++
      ("@" ++ " " ++ (toString goal ++ ")")))) := by
    have hgoal : toString (goal : Int) = toString goal := rfl
    rw [jumpAt, hgoal, ← String.toList_inj]
    simp
  have hparts : parts (jumpAt name offset goal).instruction = (name, ["[0]" ++ " " ++ ("(0x1" ++ " " ++
      ("@" ++ " " ++ (toString goal ++ ")")))]) := by
    rw [hline, parts, cutAt?_append hmark hblank]
    dsimp only
    rw [split_eq_singleton (by decide : ".".toList = ['.']) hdot,
      split_eq_singleton (by decide : ", ".toList = [',', ' '])]
    · rfl
    · simpa using hplain ',' (by decide) (by decide)
  refine ⟨congrArg Prod.fst hparts, goal, ?_, rfl⟩
  have hnumeral : dropLast (toString goal ++ ")") = toString goal := by
    rw [← String.toList_inj]
    simp [dropLast]
  rw [operands, hparts, jumpTarget, List.getLast?_singleton]
  dsimp only
  rw [split_append_mark hmark (by decide), split_append_mark hmark (by decide), split_append_mark hmark (by decide),
    split_eq_singleton hmark (hplain ' ' (by decide) (by decide))]
  rw [List.getLastD_cons, List.getLastD_cons, List.getLastD_cons, List.getLastD_cons, List.getLastD_nil, hnumeral,
    number_toString hs]

/-- The first of some lines stands right after the line before them. -/
theorem adjacent_headD (before after : List Offset) (gate : Offset) (lines : List CodeLine) (last : CodeLine) :
    Adjacent (before ++ gate :: (offsetsOf (lines ++ [last]) ++ after)) gate (lines.headD last).offset := by
  cases lines with
  | nil => exact ⟨before, after, rfl⟩
  | cons line lines => exact ⟨before, offsetsOf (lines ++ [last]) ++ after, rfl⟩

/-- Lines that go with the others, and the jumps that they are handled as, in the order of the lines. -/
structure Wired (offsets : List Offset) (lines : List CodeLine) (jumps : List Jump) : Prop where
  walks : ∀ line ∈ lines, Walks offsets line
  drawn : List.Forall₂ (Flow.DrawnFrom offsets) (lines.filterMap filed?) jumps

namespace Wired

variable {offsets : List Offset} {lines more : List CodeLine} {jumps further : List Jump} {line : CodeLine}
  {name text : String} {kind : JumpKind} {goal stop : Offset}

theorem plain (h : ∀ line ∈ lines, (statement? line).isSome) : Wired offsets lines [] where
  walks line hl := Or.inl (h line hl)
  drawn := by
    rw [Loop.filterMap_filed?_plain h]
    exact .nil

theorem append (h : Wired offsets lines jumps) (h' : Wired offsets more further) :
    Wired offsets (lines ++ more) (jumps ++ further) where
  walks line hl := (List.mem_append.1 hl).elim (h.walks line) (h'.walks line)
  drawn := by
    rw [List.filterMap_append]
    exact List.rel_append h.drawn h'.drawn

theorem cons (h : Wired offsets [line] jumps) (h' : Wired offsets lines further) :
    Wired offsets (line :: lines) (jumps ++ further) := h.append h'

theorem flatMap {α : Type} {xs : List α} {code : α → List CodeLine} {made : α → List Jump}
    (h : ∀ x ∈ xs, Wired offsets (code x) (made x)) : Wired offsets (xs.flatMap code) (xs.flatMap made) := by
  induction xs with
  | nil => exact plain (by simp)
  | cons x xs ih => exact (h x (by simp)).append (ih fun y hy => h y (List.mem_cons_of_mem x hy))

/-- A jump forward is handled as one that stops on the line before its goal. -/
theorem ahead (ha : Ascending offsets) (hj : JumpsTo name goal line) (hf : form? name = some (.jump kind text))
    (hk : kind = .test ∨ kind = .skip) (hl : line.offset ∈ offsets) (hle : line.offset.value ≤ stop.value)
    (hstop : Adjacent offsets stop goal) : Wired offsets [line] [{ kind, start := line.offset, stop }] := by
  have hlt : line.offset.value < goal.value := Int.lt_of_le_of_lt hle (hstop.lt ha)
  have hfiled := hj.filed?_ahead hf (ha.numbers _ hl) (Int.le_of_lt hlt)
  refine ⟨List.forall_mem_singleton.2 (Or.inr ⟨_, hfiled, ?_, hl, hstop.right, Offset.ne_of_lt hlt⟩), ?_⟩
  · rcases hk with hk | hk <;> simp [hk]
  · rw [List.filterMap_cons_some hfiled]
    refine .cons ⟨rfl, Or.inr ⟨?_, hstop⟩⟩ .nil
    rcases hk with hk | hk <;> simp [Flow.Fixed, hk]

/-- A jump back is handled as it is. -/
theorem back (ha : Ascending offsets) (hj : JumpsTo "JumpLoop" goal line) (hl : line.offset ∈ offsets)
    (hg : goal ∈ offsets) (hlt : goal.value < line.offset.value) :
    Wired offsets [line] [{ kind := .loop, start := goal, stop := line.offset }] := by
  have hfiled := hj.filed?_back Loop.form?_jumpLoop (ha.numbers _ hl) hlt
  refine ⟨List.forall_mem_singleton.2 (Or.inr ⟨_, hfiled, by simp, hg, hl, Offset.ne_of_lt hlt⟩), ?_⟩
  rw [List.filterMap_cons_some hfiled]
  exact .cons ⟨rfl, Or.inl ⟨Or.inl rfl, rfl⟩⟩ .nil

/-- The jumps of a kind start where they were filed. -/
theorem starts_eq (h : Wired offsets lines jumps) (k : JumpKind) :
    (entriesOf lines k).map (·.1) = (jumps.filter (·.kind = k)).map (·.start) := by
  obtain ⟨_, hdrawn⟩ := h
  rw [entriesOf, List.map_map]
  generalize lines.filterMap filed? = recorded at hdrawn
  induction hdrawn with
  | nil => rfl
  | @cons j d js ds hd _ ih =>
    obtain ⟨hsame, _⟩ := hd
    rw [hsame]
    by_cases hk : j.kind = k
    · simpa [hk] using ih
    · simpa [hk] using ih

/-- No two jumps are alike, if no two loops have the same head. -/
theorem nodup (h : Wired offsets lines jumps) (hn : (offsetsOf lines).Nodup)
    (hl : ((jumps.filter (·.kind = .loop)).map (·.start)).Nodup) : jumps.Nodup := by
  rw [List.nodup_iff_sublist]
  intro j htwice
  have hstarts : ((jumps.filter (·.kind = j.kind)).map (·.start)).Nodup := by
    by_cases hk : j.kind = .loop
    · rw [hk]
      exact hl
    · rw [← h.starts_eq]
      exact hn.sublist (starts_sublist hk lines)
  have hpair := (htwice.filter (·.kind = j.kind)).map (·.start)
  exact absurd (hstarts.sublist hpair) (by simp)

end Wired

/-- A test: the lines that make the comparison, and the jump. -/
structure Comparison where
  lines : List CodeLine
  jump : CodeLine

namespace Comparison

def code (t : Comparison) : List CodeLine := t.lines ++ [t.jump]

def testJump (stop : Offset) (t : Comparison) : Jump := { kind := .test, start := t.jump.offset, stop }

@[simp] theorem start_testJump (stop : Offset) (t : Comparison) : (t.testJump stop).start = t.jump.offset := rfl

@[simp] theorem stop_testJump (stop : Offset) (t : Comparison) : (t.testJump stop).stop = stop := rfl

@[simp] theorem kind_testJump (stop : Offset) (t : Comparison) : (t.testJump stop).kind = .test := rfl

end Comparison

/-! ## Which jump is handled when -/

namespace Flow

variable {flow : Flow} {lines code : List CodeLine} {pending tests : List Jump} {handlers : List (Offset × Offset)}
  {order : List Nat}

/-- Some of the open tests, as their table lists them. -/
theorem Stage.openAs_filter (h : flow.Stage lines pending handlers) (ho : flow.TestsInOrder) (p : Jump → Bool)
    (hm : ∀ j, j ∈ tests ↔ j ∈ pending ∧ j.kind = .test ∧ p j = true)
    (hp : tests.Pairwise fun a b => a.start.value < b.start.value) :
    List.Forall₂ flow.OpenAs ((flow.table .test).values.filter fun i => p (flow.jump i)) tests := by
  have hopen : ∀ i ∈ (flow.table .test).values, flow.Open i ∧ (flow.jump i).kind = .test := fun i hi =>
    (h.sound.mem_values (by simp)).1 hi
  have hstarts : ((flow.table .test).values.map flow.jump).map (·.start) = (flow.table .test).keys := by
    rw [List.map_map, Table.values, List.map_map, Table.keys]
    refine List.map_congr_left fun e he => ?_
    exact ((h.sound.filed .test e.1 e.2 (by simp)).1 he).2.2
  have hgrows : (((flow.table .test).values.map flow.jump).filter p).Pairwise fun a b => a.start.value <
    b.start.value := by
    unfold TestsInOrder at ho
    rw [← hstarts, List.pairwise_map] at ho
    exact ho.filter p
  have hirreflexive : ∀ {js : List Jump}, js.Pairwise (fun a b => a.start.value < b.start.value) → js.Nodup := by
    intro js hjs
    refine hjs.imp fun {a b} hlt he => ?_
    rw [he] at hlt
    exact Int.lt_irrefl _ hlt
  have hperm : (((flow.table .test).values.map flow.jump).filter p).Perm tests := by
    refine (List.perm_ext_iff_of_nodup (hirreflexive hgrows) (hirreflexive hp)).2 fun j => ?_
    rw [hm, h.mem, List.mem_filter, List.mem_map]
    constructor
    · intro hj
      obtain ⟨⟨i, hi, rfl⟩, hpi⟩ := hj
      exact ⟨⟨i, (hopen i hi).1, rfl⟩, (hopen i hi).2, hpi⟩
    · intro hj
      obtain ⟨⟨i, hi, rfl⟩, hk, hpi⟩ := hj
      exact ⟨⟨i, (h.sound.mem_values (by simp)).2 ⟨hi, hk⟩, rfl⟩, hpi⟩
  have heq : ((flow.table .test).values.map flow.jump).filter p = tests :=
    hperm.eq_of_pairwise (fun a b _ _ hab hba => absurd hab (Int.not_lt.2 (Int.le_of_lt hba))) hgrows hp
  rw [List.filter_map] at heq
  rw [← heq, List.forall₂_map_right_iff]
  exact List.forall₂_same.2 fun i hi => ⟨(hopen i (List.mem_of_mem_filter hi)).1, rfl⟩

/-- All of them. -/
theorem Stage.openAs_tests (h : flow.Stage lines pending handlers) (ho : flow.TestsInOrder)
    (hm : ∀ j, j ∈ tests ↔ j ∈ pending ∧ j.kind = .test)
      (hp : tests.Pairwise fun a b => a.start.value < b.start.value) :
    List.Forall₂ flow.OpenAs (flow.table .test).values tests := by
  have hall := h.openAs_filter ho (fun _ => true) (fun j => by simp [hm]) hp
  rwa [List.filter_true] at hall

/-- A jump that is sorted and listed before all others is handled first. -/
theorem Readied.first_handled {i : Nat} (h : flow.Readied code {} order) (hi : i < flow.jumps.length)
    (hall : ∀ k, k < flow.jumps.length → k ≠ i →
      (flow.jump i).Ranked (flow.jump k) ∧ (flow.jump i).FiledBefore (flow.jump k)) : ∃ later, order = i :: later := by
  obtain ⟨earlier, later, rfl⟩ := List.append_of_mem ((h.mem i).2 hi)
  cases earlier with
  | nil => exact ⟨later, rfl⟩
  | cons k earlier =>
    have hn := h.nodup
    have hne : k ≠ i := by
      rw [List.cons_append, List.nodup_cons] at hn
      intro he
      exact hn.1 (by simp [he])
    have hk : k < flow.jumps.length := (h.mem k).1 (by simp)
    obtain ⟨hranked, hfiled⟩ := hall k hk hne
    exact absurd ((pair_sublist_iff hn).2 (by simp)) (not_pair_sublist hn (h.tied i k hi hk hranked hfiled))

end Flow

/-- If handling one jump lays out all there is, and those before and after it need no statement, then handling all
of them does. -/
theorem FlowM.yields_handleJumps_one {flow : Flow} {earlier later : List Nat} {i : Nat} {laid : List CodeLine}
    {rest : List Jump} (h : flow.Sound) (hlt : ∀ k ∈ earlier ++ i :: later, k < flow.jumps.length)
    (hearlier : ∀ k ∈ earlier, flow.Open k → (flow.jump k).Quiet)
    (hi : Yields (handleJump i) flow fun _ result => flow.Follows result ∧ result.Stage laid rest [])
    (hrest : ∀ j ∈ rest, j.Quiet) :
    Yields (handleJumps (earlier ++ i :: later)) flow fun _ result => result.code = laid := by
  rw [yields_handleJumps_append]
  refine (yields_handleJumps_quiet h earlier (fun k hk => hlt k (by simp [hk])) hearlier).mono ?_
  intro _ middle he
  rw [he, handleJumps, yields_bind]
  refine hi.mono ?_
  intro _ result hresult
  obtain ⟨hfollows, hstage⟩ := hresult
  refine (yields_handleJumps_quiet hstage.sound later ?_ ?_).mono ?_
  · intro k hk
    rw [hfollows.length]
    exact hlt k (by simp [hk])
  · intro k _ hopen
    exact hrest _ ((hstage.mem _).2 ⟨k, hopen, rfl⟩)
  · intro _ final hfinal
    rw [hfinal, hstage.reads]

/-! ## Lifting -/

variable {name : String} {code laid : List CodeLine} {jumps : List Jump} {console : Console}

theorem Wired.recordable (hw : Wired (offsetsOf code) code jumps) (ha : Ascending (offsetsOf code))
    (hl : ((jumps.filter (·.kind = .loop)).map (·.start)).Nodup) :
    Recordable code {} ∧ List.Forall₂ (Flow.DrawnFrom (offsetsOf code)) (jumpsOf code {}) jumps := by
  have harms : code.flatMap armsOf = [] :=
    List.flatMap_eq_nil_iff.2 fun line hm => (hw.walks line hm).armsOf_eq_nil
  constructor
  · refine recordable_of_fits ha (fun line hm => (hw.walks line hm).fits) ?_ ?_ (by simp)
    · rw [headers, hw.starts_eq]
      exact hl
    · rw [harms]
      exact List.nodup_nil
  · rw [jumpsOf, harms, List.append_nil]
    exact hw.drawn

/-- A function of statements and jumps among them is lifted to the lines that its handlers leave. -/
theorem liftCode_of_wired {wanted : List CodeLine → Prop} (ha : Ascending (offsetsOf code))
    (hw : Wired (offsetsOf code) code jumps) (hl : ((jumps.filter (·.kind = .loop)).map (·.start)).Nodup)
    (hs : ∀ o ∈ offsetsOf code, (Binary64.nearestWhole? o.value).isSome)
    (hh : ∀ flow order, flow.Readied code {} order → flow.Stage (asRead code) jumps [] →
      Yields (FlowM.handleJumps order) flow fun _ result => wanted result.code) :
    ∃ laid console', wanted laid ∧ liftCode name code {} console = .ok (unfoldCode laid) console' := by
  obtain ⟨hrecordable, hdrawn⟩ := hw.recordable ha hl
  exact liftCode_of_readied ⟨hrecordable, hs⟩ fun flow order hr =>
    hh flow order hr (hr.stage (hw.nodup ha.nodup hl) hdrawn)

/-- It is not lifted if a jump stops at an offset that is too large to be sorted by. -/
theorem fails_of_wired (ha : Ascending (offsetsOf code)) (hw : Wired (offsetsOf code) code jumps)
    (hl : ((jumps.filter (·.kind = .loop)).map (·.start)).Nodup) {j : Jump} (hj : j ∈ jumps) {n : Int}
    (hstop : j.stop = .number n) (hlarge : Binary64.nearestWhole? n = none) :
    Run.fails (liftCode name code {}) console = true := by
  obtain ⟨hrecordable, hdrawn⟩ := hw.recordable ha hl
  obtain ⟨recorded, hmem, hd⟩ := forall₂_mem_left hdrawn.flip hj
  refine fails_liftCode hrecordable hmem hd fun key hkey => ?_
  obtain ⟨_, _, hkey⟩ := except_bind_eq_ok.1 hkey
  obtain ⟨_, hneed, _⟩ := except_bind_eq_ok.1 hkey
  rw [hstop, FlowM.sortKey.need, hlarge] at hneed
  cases hneed

/-- It shows these lines in one pair of braces. -/
theorem shows_of_wired (ha : Ascending (offsetsOf code)) (hw : Wired (offsetsOf code) code jumps)
    (hl : ((jumps.filter (·.kind = .loop)).map (·.start)).Nodup)
    (hs : ∀ o ∈ offsetsOf code, (Binary64.nearestWhole? o.value).isSome)
    (hh : ∀ flow order, flow.Readied code {} order → flow.Stage (asRead code) jumps [] →
      Yields (FlowM.handleJumps order) flow fun _ result => result.code = laid) :
    ∃ out console', liftCode name code {} console = .ok out console' ∧
      (out.map (·.rendered)).filter (· ≠ "") = "\x7b" :: (shownOf laid ++ ["\x7d"]) := by
  obtain ⟨_, console', rfl, hok⟩ := @liftCode_of_wired name code jumps console (· = laid) ha hw hl hs hh
  refine ⟨_, console', hok, ?_⟩
  rw [shown_unfoldCode]
  rfl

end Bytelift
