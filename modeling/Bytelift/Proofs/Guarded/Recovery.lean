import Bytelift.Proofs.Guarded.Layout
import Mathlib.Data.List.Flatten

/-! Guarded code is recovered but for the ends of its blocks. A block that the code starts with is closed where it
ends. All others are closed together, before the handler: the lines after them stand inside them. -/

namespace Bytelift

open Run Text Instruction

theorem number_value {offsets : List Offset} (h : Ascending offsets) {o : Offset} (ho : o ∈ offsets) :
    Offset.number o.value = o := Offset.eq_of_value rfl (h.numbers o ho) rfl

/-! ## The order of the jumps -/

/-- One jump comes before another: it starts earlier, or stops earlier. -/
def Jump.Before (a b : Jump) : Prop :=
  a.start.value < b.start.value ∨ a.start = b.start ∧ a.stop.value < b.stop.value

/-- An offset that is its own sort key. -/
def Offset.Exact (o : Offset) : Prop := Binary64.nearestWhole? o.value = some o.value

instance (o : Offset) : Decidable o.Exact := inferInstanceAs (Decidable (Binary64.nearestWhole? o.value = some o.value))

theorem Offset.Exact.key_eq {o : Offset} (h : o.Exact) : o.key = o.value := by
  rw [Offset.key, h, Option.getD_some]

theorem Jump.Before.ranked {a b : Jump} (h : a.Before b) (has : a.start.Exact) (hae : a.stop.Exact)
    (hbs : b.start.Exact) (hbe : b.stop.Exact) : a.Ranked b ∧ ¬b.Ranked a := by
  unfold Jump.Ranked Jump.rank
  simp only [has.key_eq, hae.key_eq, hbs.key_eq, hbe.key_eq]
  rcases h with h | ⟨hs, h⟩
  · omega
  · rw [hs]
    omega

/-- One jump is handled before another: it is ranked before it, or as high and listed before it. -/
def Jump.Precedes (a b : Jump) : Prop := a.Ranked b ∧ (¬b.Ranked a ∨ a.FiledBefore b)

theorem Jump.FiledBefore.asymm {a b : Jump} (h : a.FiledBefore b) : ¬b.FiledBefore a := by
  intro h'
  rcases h with ⟨ha, hb⟩ | ⟨ha, hb⟩ <;> rcases h' with ⟨hb', _⟩ | ⟨hb', ha'⟩
  · simp [hb'] at hb
  · simp [ha] at ha'
  · simp [hb'] at hb
  · simp only [ha, hb', reduceCtorEq, true_and, false_or] at ha' hb
    omega

theorem Jump.Precedes.asymm {a b : Jump} (h : a.Precedes b) : ¬b.Precedes a := by
  intro h'
  exact (h.2.resolve_left (not_not.2 h'.1)).asymm (h'.2.resolve_left (not_not.2 h.1))

/-- Jumps of which each precedes the next ones are handled in their order. -/
theorem Flow.Readied.openAs_precedes {code lines : List CodeLine} {handlers : Handlers} {flow : Flow} {order : List Nat}
    (h : flow.Readied code handlers order) {jumps : List Jump} (hs : flow.Stage lines jumps [])
    (hp : jumps.Pairwise Jump.Precedes) : List.Forall₂ flow.OpenAs order jumps := by
  have hopen : ∀ i ∈ order, flow.Open i := fun i hi => h.opens i ((h.mem i).1 hi)
  have hmap : (order.map flow.jump).Perm jumps := by
    refine (List.perm_ext_iff_of_nodup (h.nodup.map_on fun i hi j hj he => ?_) hs.distinct).2 fun j => ?_
    · exact hs.sound.once i j (hopen i hi).1 (hopen j hj).1 (by rw [he]) (by rw [he])
    · rw [hs.mem, List.mem_map]
      exact exists_congr fun i => and_congr_left fun _ => (h.mem i).trans ⟨h.opens i, fun ho => ho.1⟩
  have heq : order.map flow.jump = jumps := by
    -- in both lists no jump precedes one before it
    refine @List.Perm.eq_of_pairwise _ (fun a b => ¬b.Precedes a) _ _ ?_ ?_ ?_ hmap
    · intro a b ha hb hab hba
      by_contra hne
      have : Std.Symm fun a b : Jump => a.Precedes b ∨ b.Precedes a := ⟨fun _ _ => Or.symm⟩
      have hapart : jumps.Pairwise fun a b => a.Precedes b ∨ b.Precedes a := hp.imp Or.inl
      exact (hapart.forall (hmap.mem_iff.1 ha) hb hne).elim hba hab
    · rw [List.pairwise_map, List.pairwise_iff_forall_sublist]
      intro a b hab hr
      have ha := (h.mem a).1 (hab.subset (by simp))
      have hb := (h.mem b).1 (hab.subset (by simp))
      refine not_pair_sublist h.nodup hab ?_
      rcases hr.2 with hnot | hfiled
      · exact h.ranked b a hb ha hr.1 hnot
      · exact h.tied b a hb ha hr.1 hfiled
    · exact hp.imp Jump.Precedes.asymm
  rw [← heq, List.forall₂_map_right_iff]
  exact List.forall₂_same.2 fun i hi => ⟨hopen i hi, rfl⟩

/-- Jumps whose ranks all differ are handled in the order of their ranks. -/
theorem Flow.Readied.openAs {code lines : List CodeLine} {handlers : Handlers} {flow : Flow} {order : List Nat}
    (h : flow.Readied code handlers order) {jumps : List Jump} (hs : flow.Stage lines jumps [])
    (hp : jumps.Pairwise fun a b => a.Ranked b ∧ ¬b.Ranked a) : List.Forall₂ flow.OpenAs order jumps :=
  h.openAs_precedes hs (hp.imp fun hr => ⟨hr.1, Or.inl hr.2⟩)

/-! ## What guarded code is printed as -/

open Loop (shown)

namespace Block

def printed : Block → List String
  | when _ body _ => "if (ACCU)" :: "\x7b" :: shown body
  | turns head entry exit body _ => "while (true)" :: "\x7b" ::
      (shown (head :: entry) ++ (exit.toList.map (fun _ => "if (!ACCU) break") ++ shown body))

end Block

namespace Part

def printedOpen : Part → List String
  | line l => shown [l]
  | block b => b.printed ++ shown [b.last]

/-- The lines of a part. A block closes after its last line, or before it if there is a brace in it. -/
def printed : Part → List String
  | line l => shown [l]
  | block b => b.printed ++ if has (textOf b.last) "\x7b" then "\x7d" :: shown [b.last] else shown [b.last] ++ ["\x7d"]

end Part

/-- What guarded code is printed as: a block at its start is closed where it ends; the others stay open up to the
handler, and as many braces close them there. -/
def TryCatch.printed (g : TryCatch) : List String :=
  "try" :: "\x7b" :: (g.first.printed ++ (g.rest.flatMap Part.printedOpen ++
    (List.replicate (g.rest.countP Part.isBlock) "\x7d" ++
      "\x7d" :: "catch" :: "\x7b" :: (shown (g.handler ++ [g.last]) ++ ["\x7d"]))))

/-! ## The code -/

namespace Block

/-- A block as it is compiled, if it goes on at an offset. -/
def Compiled : Block → Offset → Prop
  | when test body last, next =>
    JumpsTo "JumpIfFalse" next test ∧ ∀ line ∈ body ++ [last], (statement? line).isSome
  | turns head entry exit body back, next =>
    JumpsTo "JumpLoop" head.offset back ∧ (∀ line ∈ exit.toList, JumpsTo "JumpIfFalse" next line) ∧
      ∀ line ∈ head :: (entry ++ body), (statement? line).isSome

def recorded : Block → Offset → List Jump
  | when test _ _, next => [{ kind := .test, start := test.offset, stop := next }]
  | turns head _ exit _ back, next =>
    exit.toList.map (fun line => { kind := .test, start := line.offset, stop := next }) ++
      [{ kind := .loop, start := head.offset, stop := back.offset }]

def drawn : Block → List Jump
  | when test body last => [(when test body last).jump]
  | turns head entry exit body back => (turns head entry exit body back).exits ++
      [(turns head entry exit body back).jump]

/-- Where a block stands among the lines of a function. -/
structure Stands (b : Block) (next : Offset) (offsets : List Offset) : Prop where
  ascending : Ascending offsets
  mem : ∀ line ∈ b.code, line.offset ∈ offsets
  ends : b.Ends
  last : Adjacent offsets b.last.offset next

variable {b : Block} {next : Offset} {offsets : List Offset}

theorem perm_drawn (b : Block) : b.drawn.Perm (b.jump :: b.exits) := by
  cases b with
  | when test body last => exact .refl _
  | turns head entry exit body back => exact List.perm_append_comm

namespace Compiled

/-- A test in a block is filed as a jump to where the block goes on. -/
theorem filed?_test (hs : b.Stands next offsets) {line : CodeLine} (hl : line ∈ b.first :: b.inner)
    (hj : JumpsTo "JumpIfFalse" next line) :
    filed? line = some { kind := .test, start := line.offset, stop := next } := by
  have hmem : line ∈ b.code := by
    rw [code, ← List.cons_append]
    exact List.mem_append_left _ hl
  refine hj.filed?_ahead form?_jumpIfFalse (hs.ascending.numbers _ (hs.mem line hmem)) ?_
  exact Int.le_of_lt (Int.lt_trans (hs.ends line hl) (hs.last.lt hs.ascending))

theorem filterMap_filed?_eq (hc : b.Compiled next) (hs : b.Stands next offsets) :
    b.code.filterMap filed? = b.recorded next := by
  cases b with
  | when test body last =>
    obtain ⟨htest, hplain⟩ := hc
    have hfiled : filed? test = some { kind := .test, start := test.offset, stop := next } :=
      filed?_test hs List.mem_cons_self htest
    change (test :: (body ++ [last])).filterMap filed? = _
    rw [List.filterMap_cons_some hfiled, Loop.filterMap_filed?_plain hplain]
    rfl
  | turns head entry exit body back =>
    obtain ⟨hback, hexit, hplain⟩ := hc
    simp only [List.mem_cons, List.mem_append] at hplain
    have hfiled : ∀ line ∈ exit.toList, filed? line = some { kind := .test, start := line.offset, stop := next } := by
      intro line hl
      exact filed?_test hs (List.mem_cons_of_mem _ (by simp [inner, hl])) (hexit line hl)
    have hloop := hback.filed?_back Loop.form?_jumpLoop (hs.ascending.numbers _ (hs.mem back (by simp [code, last])))
      (hs.ends head (by simp [first]))
    have hexits : exit.toList.filterMap filed? =
        exit.toList.map fun line => { kind := .test, start := line.offset, stop := next } := by
      rw [List.filterMap_congr hfiled]
      exact congrFun List.filterMap_eq_map _
    change (head :: ((entry ++ (exit.toList ++ body)) ++ [back])).filterMap filed? = _
    rw [List.filterMap_cons_none (filed?_of_statement? (hplain head (Or.inl rfl))), List.filterMap_append,
      List.filterMap_append, List.filterMap_append, hexits,
      Loop.filterMap_filed?_plain fun line hl => hplain line (Or.inr (Or.inl hl)),
      Loop.filterMap_filed?_plain fun line hl => hplain line (Or.inr (Or.inr hl)), List.filterMap_cons_some hloop]
    simp [recorded]

/-- A line of a block is a statement, a test that leaves the block, or the jump back to its first line. -/
theorem line_cases (hc : b.Compiled next) {line : CodeLine} (hl : line ∈ b.code) : (statement? line).isSome ∨
    (line ∈ b.first :: b.inner ∧ JumpsTo "JumpIfFalse" next line) ∨
      line = b.last ∧ JumpsTo "JumpLoop" b.first.offset line := by
  cases b with
  | when test body last =>
    obtain ⟨htest, hplain⟩ := hc
    rcases List.mem_cons.1 hl with rfl | hl
    · exact Or.inr (Or.inl ⟨List.mem_cons_self, htest⟩)
    · exact Or.inl (hplain line hl)
  | turns head entry exit body back =>
    obtain ⟨hback, hexit, hplain⟩ := hc
    simp only [code, first, inner, last, List.mem_cons, List.mem_append, List.not_mem_nil, or_false] at hl hplain
    rcases hl with hl | (hl | hl | hl) | rfl
    · exact Or.inl (hplain line (Or.inl hl))
    · exact Or.inl (hplain line (Or.inr (Or.inl hl)))
    · exact Or.inr (Or.inl ⟨by simp [inner, hl], hexit line hl⟩)
    · exact Or.inl (hplain line (Or.inr (Or.inr hl)))
    · exact Or.inr (Or.inr ⟨rfl, hback⟩)

theorem walks (hc : b.Compiled next) (hs : b.Stands next offsets) : ∀ line ∈ b.code, Walks offsets line := by
  intro line hl
  rcases hc.line_cases hl with hplain | ⟨hin, hj⟩ | ⟨rfl, hj⟩
  · exact Or.inl hplain
  · have hlt := Int.lt_trans (hs.ends line hin) (hs.last.lt hs.ascending)
    exact Or.inr ⟨_, filed?_test hs hin hj, by simp, hs.mem line hl, hs.last.right, Offset.ne_of_lt hlt⟩
  · have hlt := hs.ends b.first List.mem_cons_self
    have hfiled := hj.filed?_back Loop.form?_jumpLoop (hs.ascending.numbers _ (hs.mem _ hl)) hlt
    exact Or.inr ⟨_, hfiled, by simp, hs.mem b.first (by simp [code]), hs.mem _ hl, Offset.ne_of_lt hlt⟩

end Compiled

theorem drawnFrom (hs : b.Stands next offsets) : List.Forall₂ (Flow.DrawnFrom offsets) (b.recorded next) b.drawn := by
  have htest : ∀ line : CodeLine, Flow.DrawnFrom offsets { kind := .test, start := line.offset, stop := next }
      { kind := .test, start := line.offset, stop := b.last.offset } := fun line =>
    ⟨rfl, Or.inr ⟨by simp [Flow.Fixed], hs.last⟩⟩
  cases b with
  | when test body last => exact .cons (htest test) .nil
  | turns head entry exit body back =>
    refine List.rel_append ?_ (.cons ⟨rfl, Or.inl ⟨Or.inl rfl, rfl⟩⟩ .nil)
    rw [exits, List.forall₂_map_left_iff, List.forall₂_map_right_iff]
    exact List.forall₂_same.2 fun line _ => htest line

theorem exits_sublist (b : Block) : (b.exits.map (·.start)).Sublist (offsetsOf b.inner) := by
  cases b with
  | when test body last => exact List.nil_sublist _
  | turns head entry exit body back =>
    simp only [exits, inner, offsetsOf, List.map_append, List.map_map]
    exact (List.sublist_append_left _ _).trans (List.sublist_append_right _ _)

/-- The loop that a block is recorded as starts with its first line. -/
theorem headers_sublist (b : Block) (next : Offset) :
    (((b.recorded next).filter (·.kind = .loop)).map (·.start)).Sublist (offsetsOf b.code) := by
  have hfirst : [b.first.offset].Sublist (offsetsOf b.code) := by simp [offsetsOf, code]
  cases b with
  | when test body last => exact List.nil_sublist _
  | turns head entry exit body back =>
    have hnone : (exit.toList.map fun line : CodeLine =>
      ({ kind := .test, start := line.offset, stop := next } : Jump)).filter (·.kind = .loop) = [] := by
      rw [List.filter_eq_nil_iff]
      intro j hj
      obtain ⟨line, _, rfl⟩ := List.mem_map.1 hj
      simp
    rw [recorded, List.filter_append, hnone]
    exact hfirst

end Block

/-! ## The parts of guarded code -/

namespace Part

/-- Where a list of parts starts, if it goes on at an offset. -/
def startOf : List Part → Offset → Offset
  | [], finish => finish
  | p :: _, _ => p.first.offset

def withNext : List Part → Offset → List (Part × Offset)
  | [], _ => []
  | p :: parts, finish => (p, startOf parts finish) :: withNext parts finish

theorem map_fst_withNext (parts : List Part) (finish : Offset) : (withNext parts finish).map (·.1) = parts := by
  induction parts with
  | nil => rfl
  | cons p parts ih => rw [withNext, List.map_cons, ih]

theorem flatMap_withNext {α : Type} (f : Part → List α) (parts : List Part) (finish : Offset) :
    (withNext parts finish).flatMap (fun x => f x.1) = parts.flatMap f := by
  rw [← List.flatMap_map, map_fst_withNext]

def Compiled : Part → Offset → Prop
  | line l, _ => (statement? l).isSome
  | block b, next => b.Compiled next

def recorded : Part → Offset → List Jump
  | line _, _ => []
  | block b, next => b.recorded next

def drawn : Part → List Jump
  | line _ => []
  | block b => b.drawn

/-- The block of a part stands among the lines of a function. -/
def Stands (offsets : List Offset) (x : Part × Offset) : Prop := ∀ b, x.1 = block b → b.Stands x.2 offsets

theorem stands_withNext {offsets after : List Offset} (ha : Ascending offsets) {finish : Offset} :
    ∀ {parts : List Part} {before : List Offset},
      offsets = before ++ (offsetsOf (parts.flatMap code) ++ finish :: after) →
      ∀ x ∈ withNext parts finish, Stands offsets x
  | [], _, _ => by simp [withNext]
  | p :: parts, before, he => by
    have hmore : offsets = before ++ (offsetsOf p.code ++ (offsetsOf (parts.flatMap code) ++ finish :: after)) := by
      rw [he, List.flatMap_cons, offsetsOf, List.map_append, List.append_assoc]
      rfl
    refine List.forall_mem_cons.2 ⟨?_, ?_⟩
    · rintro b rfl
      have hnext : ∃ more, offsetsOf (parts.flatMap code) ++ finish :: after = startOf parts finish :: more := by
        cases parts with
        | nil => exact ⟨after, rfl⟩
        | cons q parts => cases q <;> exact ⟨_, rfl⟩
      obtain ⟨more, hnext⟩ := hnext
      refine ⟨ha, fun line hl => ?_, Block.ends_of_ascending (hmore ▸ ha), before ++ offsetsOf (b.first :: b.inner),
        more, ?_⟩
      · rw [hmore]
        exact List.mem_append_right _ (List.mem_append_left _ (List.mem_map_of_mem hl))
      · rw [hmore, hnext]
        simp [code, Block.code, offsetsOf]
    · rw [← List.append_assoc] at hmore
      exact stands_withNext ha hmore

theorem first_mem (p : Part) : p.first ∈ p.code := by
  cases p with
  | line l => exact List.mem_singleton_self l
  | block b => exact List.mem_cons_self

variable {offsets : List Offset} {x : Part × Offset}

theorem filterMap_filed?_eq (hc : x.1.Compiled x.2) (hs : Stands offsets x) :
    x.1.code.filterMap filed? = x.1.recorded x.2 := by
  obtain ⟨p, next⟩ := x
  cases p with
  | line l => exact List.filterMap_cons_none (filed?_of_statement? hc)
  | block b => exact hc.filterMap_filed?_eq (hs b rfl)

theorem walks (hc : x.1.Compiled x.2) (hs : Stands offsets x) : ∀ line ∈ x.1.code, Walks offsets line := by
  obtain ⟨p, next⟩ := x
  cases p with
  | line l => exact List.forall_mem_singleton.2 (Or.inl hc)
  | block b => exact hc.walks (hs b rfl)

theorem drawnFrom (hs : Stands offsets x) : List.Forall₂ (Flow.DrawnFrom offsets) (x.1.recorded x.2) x.1.drawn := by
  obtain ⟨p, next⟩ := x
  cases p with
  | line l => exact .nil
  | block b => exact Block.drawnFrom (hs b rfl)

theorem perm_drawn (p : Part) : p.drawn.Perm p.jumps := by
  cases p with
  | line l => exact .refl _
  | block b => exact b.perm_drawn

theorem headers_sublist (p : Part) (next : Offset) :
    (((p.recorded next).filter (·.kind = .loop)).map (·.start)).Sublist (offsetsOf p.code) := by
  cases p with
  | line l => exact List.nil_sublist _
  | block b => exact b.headers_sublist next

/-- The jumps of a part start at different lines of it, the first one apart. -/
theorem passive_sublist (p : Part) : (p.first.offset :: p.passive.map (·.start)).Sublist (offsetsOf p.code) := by
  cases p with
  | line l => exact .refl _
  | block b => exact (b.exits_sublist.trans (by simp [offsetsOf])).cons_cons _

theorem jumps_sublist (p : Part) : (p.jumps.map (·.start)).Sublist (offsetsOf p.code) := by
  cases p with
  | line l => exact List.nil_sublist _
  | block b => exact (block b).passive_sublist

/-- A test of a part stands before the last line of its block. -/
theorem test_before {p : Part} {j : Jump} (hj : j ∈ p.jumps) (hk : j.kind = .test) :
    ∃ b, p = block b ∧ ∃ line ∈ b.first :: b.inner, j.start = line.offset := by
  cases p with
  | line l => cases hj
  | block b =>
    rcases List.mem_cons.1 hj with rfl | hj
    · exact ⟨b, rfl, b.first, List.mem_cons_self, rfl⟩
    · obtain ⟨_, _, line, hl, hstart⟩ := Block.exit_mem hj
      exact ⟨b, rfl, line, List.mem_cons_of_mem _ hl, hstart⟩

theorem kind_ne_skip {p : Part} {j : Jump} (hj : j ∈ p.jumps) : j.kind ≠ .skip := by
  cases p with
  | line l => cases hj
  | block b =>
    rcases List.mem_cons.1 hj with rfl | hj
    · cases b <;> simp [Block.jump, Block.kind]
    · simp [(Block.exit_mem hj).1]

theorem stop_mem {p : Part} {j : Jump} (hj : j ∈ p.jumps) : j.stop ∈ offsetsOf p.code := by
  cases p with
  | line l => cases hj
  | block b =>
    have hlast : b.last.offset ∈ offsetsOf b.code := List.mem_map_of_mem (by simp [Block.code])
    rcases List.mem_cons.1 hj with rfl | hj
    · exact hlast
    · obtain ⟨_, hstop, _⟩ := Block.exit_mem hj
      exact hstop ▸ hlast

end Part

/-! ## A function with guarded code in it -/

namespace TryCatch

def parts (g : TryCatch) : List Part := g.first :: g.rest

/-- Guarded code as it is compiled, if it is left for an offset: the jump over the handler goes there. -/
structure Compiled (g : TryCatch) (finish : Offset) : Prop where
  parts : ∀ x ∈ Part.withNext g.parts g.skip.offset, x.1.Compiled x.2
  skips : JumpsTo "Jump" finish g.skip
  handles : ∀ line ∈ g.handler ++ [g.last], (statement? line).isSome

/-- The handler table of a function with this guarded code: from its first line up to a line, to the first line of
the handler. -/
def handlers (g : TryCatch) (upTo : Int) : Handlers :=
  ⟨[((g.handler.headD g.last).offset.value, g.first.first.offset.value, upTo)]⟩

variable {g : TryCatch} {before after : List CodeLine} {finish : CodeLine} {upTo : Int}

/-- Where the lines of guarded code stand among those of a function. -/
structure Stands (g : TryCatch) (finish : Offset) (offsets : List Offset) : Prop where
  ascending : Ascending offsets
  code : (offsetsOf g.code).Sublist offsets
  parts : ∀ x ∈ Part.withNext g.parts g.skip.offset, Part.Stands offsets x
  inside : ∀ line ∈ g.parts.flatMap Part.code, line.offset.value < g.skip.offset.value
  skip : Adjacent offsets g.skip.offset (g.handler.headD g.last).offset
  last : Adjacent offsets g.last.offset finish
  forward : g.skip.offset.value < g.last.offset.value

theorem code_eq (g : TryCatch) : g.code = g.parts.flatMap Part.code ++ g.skip :: (g.handler ++ [g.last]) := by
  simp [code, parts]

theorem stands (ha : Ascending (offsetsOf (before ++ (g.code ++ finish :: after)))) :
    g.Stands finish.offset (offsetsOf (before ++ (g.code ++ finish :: after))) := by
  have hparts : offsetsOf (before ++ (g.code ++ finish :: after)) = offsetsOf before ++
      (offsetsOf (g.parts.flatMap Part.code) ++ g.skip.offset :: (offsetsOf (g.handler ++ [g.last]) ++
        finish.offset :: offsetsOf after)) := by
    simp [offsetsOf, code_eq]
  obtain ⟨more, hmore⟩ : ∃ more, offsetsOf (g.handler ++ [g.last]) = (g.handler.headD g.last).offset :: more := by
    cases g.handler with
    | nil => exact ⟨[], rfl⟩
    | cons line lines => exact ⟨offsetsOf (lines ++ [g.last]), rfl⟩
  have hsplit := hparts.trans (List.append_assoc _ _ _).symm
  refine ⟨ha, ?_, Part.stands_withNext ha hparts, ?_, ?_, ?_, ?_⟩
  · rw [offsetsOf, offsetsOf, List.map_append, List.map_append]
    exact (List.sublist_append_left _ _).trans (List.sublist_append_right _ _)
  · intro line hl
    exact ha.lt_of_append hsplit (List.mem_append_right _ (List.mem_map_of_mem hl)) List.mem_cons_self
  · refine ⟨offsetsOf before ++ offsetsOf (g.parts.flatMap Part.code), more ++ finish.offset :: offsetsOf after, ?_⟩
    rw [hparts, hmore]
    simp
  · refine ⟨offsetsOf before ++ (offsetsOf (g.parts.flatMap Part.code) ++ g.skip.offset :: offsetsOf g.handler),
      offsetsOf after, ?_⟩
    rw [hparts]
    simp [offsetsOf]
  · exact (hsplit ▸ ha).lt_of_split (by simp [offsetsOf])

theorem first_mem (g : TryCatch) : g.first.first.offset ∈ offsetsOf g.code :=
  List.mem_map_of_mem (List.mem_append_left _ g.first.first_mem)

theorem skip_mem (g : TryCatch) : g.skip.offset ∈ offsetsOf g.code := by simp [offsetsOf, code]

theorem last_mem (g : TryCatch) : g.last.offset ∈ offsetsOf g.code := by simp [offsetsOf, code]

/-- The jumps of guarded code are made in their order. -/
theorem before_jumps (ha : Ascending (offsetsOf g.code)) : g.jumps.Pairwise Jump.Before := by
  have hstarts : (g.first.first.offset :: (g.first.passive ++ (g.rest.flatMap Part.jumps ++
      [skipJump g.skip g.last.offset])).map (·.start)).Sublist (offsetsOf g.code) := by
    have hrest : ((g.rest.flatMap Part.jumps).map (·.start)).Sublist (offsetsOf (g.rest.flatMap Part.code)) := by
      rw [offsetsOf, List.map_flatMap, List.map_flatMap]
      exact .flatMap_right _ fun p _ => p.jumps_sublist
    simp only [code, offsetsOf, List.map_append, ← List.cons_append]
    refine g.first.passive_sublist.append (hrest.append ?_)
    simp [skipJump]
  have hgrows := ((ha.sublist hstarts).grows)
  rw [List.pairwise_cons, List.pairwise_map] at hgrows
  have hlatter : (g.guardJump :: (g.first.passive ++ (g.rest.flatMap Part.jumps ++
      [skipJump g.skip g.last.offset]))).Pairwise Jump.Before :=
    List.pairwise_cons.2 ⟨fun j hj => Or.inl (hgrows.1 _ (List.mem_map_of_mem hj)), hgrows.2.imp Or.inl⟩
  have hactive : ∀ a ∈ g.first.active, a.start = g.first.first.offset ∧ a.stop.value < g.skip.offset.value := by
    cases hfirst : g.first with
    | line l => simp [Part.active]
    | block b =>
      have hskip := (@first_ends g [] [] (by simpa using ha) b hfirst).2.2
      exact List.forall_mem_singleton.2 ⟨rfl, hskip⟩
  have hone : g.first.active.Pairwise Jump.Before := by cases g.first <;> simp [Part.active]
  refine List.pairwise_append.2 ⟨hone, hlatter, fun a haction => ?_⟩
  obtain ⟨hstart, hstop⟩ := hactive a haction
  refine List.forall_mem_cons.2 ⟨Or.inr ⟨hstart, hstop⟩, fun j hj => Or.inl ?_⟩
  rw [hstart]
  exact hgrows.1 _ (List.mem_map_of_mem hj)

/-- As they are recorded, the parts' jumps stand between that of the range and the skip. -/
theorem perm_drawn (g : TryCatch) : (g.guardJump ::
    (g.parts.flatMap Part.drawn ++ [skipJump g.skip g.last.offset])).Perm g.jumps := by
  have hdrawn : (g.parts.flatMap Part.drawn).Perm (g.parts.flatMap Part.jumps) :=
    List.Perm.flatMap_left _ fun p _ => p.perm_drawn
  refine ((hdrawn.append_right _).cons _).trans ?_
  refine (List.Perm.of_eq ?_).trans List.perm_middle.symm
  simp [parts, Part.jumps]

theorem jump_cases {j : Jump} (hj : j ∈ g.jumps) :
    (∃ p ∈ g.parts, j ∈ p.jumps) ∨ j = g.guardJump ∨ j = skipJump g.skip g.last.offset := by
  rcases List.mem_cons.1 (g.perm_drawn.mem_iff.2 hj) with hj | hj
  · exact Or.inr (Or.inl hj)
  rcases List.mem_append.1 hj with hj | hj
  · obtain ⟨p, hp, hj⟩ := List.mem_flatMap.1 hj
    exact Or.inl ⟨p, hp, p.perm_drawn.mem_iff.1 hj⟩
  · exact Or.inr (Or.inr (List.mem_singleton.1 hj))

/-- The jumps of guarded code lead from lines of it to lines of it. -/
theorem jump_mem {j : Jump} (hj : j ∈ g.jumps) : j.start ∈ offsetsOf g.code ∧ j.stop ∈ offsetsOf g.code := by
  rcases jump_cases hj with ⟨p, hp, hj⟩ | rfl | rfl
  · have hin : ∀ line ∈ p.code, line.offset ∈ offsetsOf g.code := by
      intro line hl
      rw [code_eq]
      exact List.mem_map_of_mem (List.mem_append_left _ (List.mem_flatMap.2 ⟨p, hp, hl⟩))
    obtain ⟨line, hl, hstart⟩ := Part.start_mem hj
    obtain ⟨other, ho, hstop⟩ := List.mem_map.1 (Part.stop_mem hj)
    exact ⟨hstart ▸ hin line hl, hstop ▸ hin other ho⟩
  · exact ⟨g.first_mem, g.skip_mem⟩
  · exact ⟨g.skip_mem, g.last_mem⟩

/-- No test stands right before the jump over the handler. -/
theorem not_adjacent {offsets : List Offset} (hs : g.Stands finish.offset offsets) {a b : Jump} (ha : a ∈ g.jumps)
    (hb : b ∈ g.jumps) (hak : a.kind = .test) (hbk : b.kind = .skip) : ¬Adjacent offsets a.start b.start := by
  have hskip : b = skipJump g.skip g.last.offset := by
    rcases jump_cases hb with ⟨p, _, hj⟩ | rfl | rfl
    · exact absurd hbk (Part.kind_ne_skip hj)
    · cases hbk
    · rfl
  rcases jump_cases ha with ⟨p, hp, hj⟩ | rfl | rfl
  · obtain ⟨c, rfl, line, hl, hstart⟩ := Part.test_before hj hak
    have hlastLine : c.last ∈ g.parts.flatMap Part.code :=
      List.mem_flatMap.2 ⟨_, hp, by simp [Part.code, Block.code]⟩
    rw [← Part.map_fst_withNext g.parts g.skip.offset] at hp
    obtain ⟨x, hx, hpart⟩ := List.mem_map.1 hp
    have hstands := hs.parts x hx c hpart
    have hlast := hstands.mem c.last (by simp [Block.code])
    have hends := hstands.ends line hl
    rw [hskip, hstart]
    intro hadj
    rcases hadj.le_or_le hs.ascending hlast with hle | hle
    · omega
    · exact absurd (hs.inside c.last hlastLine) (Int.not_lt.2 hle)
  · cases hak
  · cases hak

namespace Compiled

theorem filed?_skip {offsets : List Offset} (hc : g.Compiled finish.offset) (hs : g.Stands finish.offset offsets) :
    filed? g.skip = some (skipJump g.skip finish.offset) := by
  refine hc.skips.filed?_ahead form?_jump (hs.ascending.numbers _ hs.skip.left) ?_
  exact Int.le_of_lt (Int.lt_trans hs.forward (hs.last.lt hs.ascending))

/-- The jumps that are filed for a function with guarded code in it. -/
theorem filterMap_filed?_eq {offsets : List Offset} (hc : g.Compiled finish.offset)
    (hs : g.Stands finish.offset offsets) (hp : ∀ line ∈ before ++ finish :: after, (statement? line).isSome) :
    (before ++ (g.code ++ finish :: after)).filterMap filed? =
      (Part.withNext g.parts g.skip.offset).flatMap (fun x => x.1.recorded x.2) ++ [skipJump g.skip finish.offset] := by
  have hparts : (g.parts.flatMap Part.code).filterMap filed? =
      (Part.withNext g.parts g.skip.offset).flatMap fun x => x.1.recorded x.2 := by
    rw [← Part.flatMap_withNext Part.code g.parts g.skip.offset, List.filterMap_flatMap]
    exact List.flatMap_congr fun x hx => Part.filterMap_filed?_eq (hc.parts x hx) (hs.parts x hx)
  rw [code_eq, List.filterMap_append, List.filterMap_append, List.filterMap_append, hparts,
    List.filterMap_cons_some (hc.filed?_skip hs), Loop.filterMap_filed?_plain hc.handles,
    Loop.filterMap_filed?_plain fun line hl => hp line (List.mem_append_left _ hl),
    Loop.filterMap_filed?_plain fun line hl => hp line (List.mem_append_right _ hl)]
  simp

/-- The lines of guarded code go with the others. -/
theorem walks {offsets : List Offset} (hc : g.Compiled finish.offset) (hs : g.Stands finish.offset offsets) :
    ∀ line ∈ g.code, Walks offsets line := by
  intro line hl
  rw [code_eq] at hl
  rcases List.mem_append.1 hl with hl | hl
  · rw [← Part.flatMap_withNext Part.code g.parts g.skip.offset] at hl
    obtain ⟨x, hx, hl⟩ := List.mem_flatMap.1 hl
    exact Part.walks (hc.parts x hx) (hs.parts x hx) line hl
  rcases List.mem_cons.1 hl with rfl | hl
  · refine Or.inr ⟨_, hc.filed?_skip hs, by simp [skipJump], hs.skip.left, hs.last.right, Offset.ne_of_lt ?_⟩
    exact Int.lt_trans hs.forward (hs.last.lt hs.ascending)
  · exact Or.inl (hc.handles line hl)

theorem walks_all {offsets : List Offset} (hc : g.Compiled finish.offset) (hs : g.Stands finish.offset offsets)
    (hp : ∀ line ∈ before ++ finish :: after, (statement? line).isSome) :
    ∀ line ∈ before ++ (g.code ++ finish :: after), Walks offsets line := by
  intro line hl
  rcases List.mem_append.1 hl with hl | hl
  · exact Or.inl (hp line (List.mem_append_left _ hl))
  rcases List.mem_append.1 hl with hl | hl
  · exact hc.walks hs line hl
  · exact Or.inl (hp line (List.mem_append_right _ hl))

theorem flatMap_armsOf_eq {offsets : List Offset} (hc : g.Compiled finish.offset) (hs : g.Stands finish.offset offsets)
    (hp : ∀ line ∈ before ++ finish :: after, (statement? line).isSome) :
    (before ++ (g.code ++ finish :: after)).flatMap armsOf = [] :=
  List.flatMap_eq_nil_iff.2 fun line hl => (hc.walks_all hs hp line hl).armsOf_eq_nil

/-- The loops of guarded code start at different lines. -/
theorem nodup_headers {offsets : List Offset} (hc : g.Compiled finish.offset) (hs : g.Stands finish.offset offsets)
    (hp : ∀ line ∈ before ++ finish :: after, (statement? line).isSome) :
    (headers (before ++ (g.code ++ finish :: after))).Nodup := by
  have hloops : (headers (before ++ (g.code ++ finish :: after))).Sublist (offsetsOf (g.parts.flatMap Part.code)) := by
    rw [headers, entriesOf, hc.filterMap_filed?_eq hs hp, List.filter_append, List.map_append, List.map_append,
      List.map_map, ← Part.flatMap_withNext Part.code g.parts g.skip.offset, offsetsOf, List.map_flatMap,
      List.filter_flatMap, List.map_flatMap]
    have hskip : ([skipJump g.skip finish.offset].filter (·.kind = .loop)) = [] := by simp [skipJump]
    rw [hskip, List.map_nil, List.map_nil, List.append_nil]
    exact .flatMap_right _ fun x _ => x.1.headers_sublist x.2
  refine ((hs.ascending.sublist hs.code).nodup.sublist ?_).sublist hloops
  rw [code_eq, offsetsOf, offsetsOf, List.map_append]
  exact List.sublist_append_left _ _

/-- A function with guarded code in it is liftable. -/
theorem liftable (hc : g.Compiled finish.offset) (hp : ∀ line ∈ before ++ finish :: after, (statement? line).isSome)
    (ha : Ascending (offsetsOf (before ++ (g.code ++ finish :: after))))
    (hsort : ∀ o ∈ offsetsOf (before ++ (g.code ++ finish :: after)), (Binary64.nearestWhole? o.value).isSome) :
    Liftable (before ++ (g.code ++ finish :: after)) (g.handlers upTo) := by
  have hs := stands ha
  have hwalks := hc.walks_all hs hp
  refine ⟨recordable_of_fits ha (fun line hl => (hwalks line hl).fits) (hc.nodup_headers hs hp) ?_ ?_, hsort⟩
  · rw [hc.flatMap_armsOf_eq hs hp]
    exact List.nodup_nil
  have hfirst := hs.code.subset g.first_mem
  refine List.forall_mem_singleton.2 ⟨?_, ?_, ?_⟩
  · rw [number_value ha hfirst]
    exact hfirst
  · rw [number_value ha hs.skip.right]
    exact hs.skip.right
  · have hbefore : g.first.first.offset.value < g.skip.offset.value := by
      exact hs.inside g.first.first (List.mem_flatMap.2 ⟨g.first, by simp [TryCatch.parts], g.first.first_mem⟩)
    exact Int.lt_trans hbefore (hs.skip.lt ha)

variable {flow : Flow} {order : List Nat}

/-- A function with guarded code in it, as the handlers find it. -/
theorem stage (hc : g.Compiled finish.offset) (hp : ∀ line ∈ before ++ finish :: after, (statement? line).isSome)
    (h : flow.Readied (before ++ (g.code ++ finish :: after)) (g.handlers upTo) order) :
    flow.Stage (asRead before ++ (asRead g.code ++ asRead (finish :: after))) g.jumps [] := by
  have ha : Ascending (offsetsOf (before ++ (g.code ++ finish :: after))) := h.offsets ▸ h.sound.ascending
  have hs := stands ha
  have hguards : ((guardTables (g.handlers upTo)).table .guarded).values =
      [{ kind := .guarded, start := g.first.first.offset, stop := (g.handler.headD g.last).offset }] := by
    rw [← number_value ha (hs.code.subset g.first_mem), ← number_value ha hs.skip.right]
    rfl
  have hdrawn : List.Forall₂ (Flow.DrawnFrom (offsetsOf (before ++ (g.code ++ finish :: after))))
      (jumpsOf (before ++ (g.code ++ finish :: after)) (g.handlers upTo))
      (g.guardJump :: (g.parts.flatMap Part.drawn ++ [skipJump g.skip g.last.offset])) := by
    rw [jumpsOf, hguards, hc.filterMap_filed?_eq hs hp, hc.flatMap_armsOf_eq hs hp, List.append_nil,
      ← Part.flatMap_withNext Part.drawn g.parts g.skip.offset]
    have hparts : List.Forall₂ (Flow.DrawnFrom (offsetsOf (before ++ (g.code ++ finish :: after))))
        ((Part.withNext g.parts g.skip.offset).flatMap fun x => x.1.recorded x.2)
        ((Part.withNext g.parts g.skip.offset).flatMap fun x => x.1.drawn) := by
      refine List.rel_flatMap (R := fun x y => x = y ∧ x ∈ Part.withNext g.parts g.skip.offset)
        (List.forall₂_same.2 fun x hx => ⟨rfl, hx⟩) ?_
      rintro x _ ⟨rfl, hx⟩
      exact Part.drawnFrom (hs.parts x hx)
    refine .cons ⟨rfl, Or.inr ⟨by simp [Flow.Fixed], hs.skip⟩⟩ (List.rel_append hparts (.cons ?_ .nil))
    exact ⟨rfl, Or.inr ⟨by simp [Flow.Fixed, skipJump], hs.last⟩⟩
  have hnodup : g.jumps.Nodup := (before_jumps (ha.sublist hs.code)).imp fun {a b} hb he => by
    subst he
    rcases hb with hb | ⟨_, hb⟩ <;> exact Int.lt_irrefl _ hb
  simpa using (h.stage (g.perm_drawn.nodup_iff.2 hnodup) hdrawn).perm g.perm_drawn

/-- Handled in the order of their ranks, the jumps of guarded code lay it out. -/
theorem yields_handleJumps (hc : g.Compiled finish.offset)
    (hp : ∀ line ∈ before ++ finish :: after, (statement? line).isSome)
    (he : ∀ o ∈ offsetsOf (before ++ (g.code ++ finish :: after)), o.Exact)
    (h : flow.Readied (before ++ (g.code ++ finish :: after)) (g.handlers upTo) order) :
    Yields (FlowM.handleJumps order) flow fun _ result =>
      result.code = asRead before ++ (g.laid ++ asRead (finish :: after)) := by
  have hstage := hc.stage hp h
  have ha : Ascending (offsetsOf (before ++ (g.code ++ finish :: after))) := h.offsets ▸ h.sound.ascending
  have hs := stands ha
  have hexact : ∀ j ∈ g.jumps, j.start.Exact ∧ j.stop.Exact := by
    intro j hj
    obtain ⟨hstart, hstop⟩ := jump_mem hj
    exact ⟨he _ (hs.code.subset hstart), he _ (hs.code.subset hstop)⟩
  have hranked : g.jumps.Pairwise fun a b => a.Ranked b ∧ ¬b.Ranked a := by
    refine (before_jumps (ha.sublist hs.code)).imp_of_mem fun {a b} ham hbm hb => ?_
    exact hb.ranked (hexact a ham).1 (hexact a ham).2 (hexact b hbm).1 (hexact b hbm).2
  have hspaced : flow.Spaced := by
    have hmem : ∀ i, i < flow.jumps.length → flow.jump i ∈ g.jumps := fun i hi =>
      (hstage.mem _).2 ⟨i, h.opens i hi, rfl⟩
    intro i j hi hj hik hjk
    rw [h.offsets]
    exact not_adjacent hs (hmem i hi) (hmem j hj) hik hjk
  exact TryCatch.yields_handleJumps hstage hspaced (h.openAs hstage hranked)

end Compiled

end TryCatch

/-! ## What is shown -/

theorem shownLines_try (text : String) : shownLines ("try\n\x7b\n" ++ text) = "try" :: "\x7b" :: shownLines text := by
  have hopen : "try\n\x7b\n" = "try\n\x7b" ++ "\n" := by decide
  have hshown : shownLines "try\n\x7b" = ["try", "\x7b"] := by decide
  rw [hopen, shownLines_join, hshown]
  rfl

/-- Blocks that close on a line with a brace in it close before it, one brace for each. -/
theorem shownLines_closeText_iterate {text : String} (h : has text "\x7b" = true) (n : Nat) :
    shownLines (closeText^[n] text) = List.replicate n "\x7d" ++ shownLines text := by
  have hbrace : ∀ n, has (closeText^[n] text) "\x7b" = true := by
    intro n
    induction n with
    | zero => exact h
    | succ n ih => rw [Function.iterate_succ_apply', has_closeText, ih]
  induction n with
  | zero => rfl
  | succ n ih =>
    rw [Function.iterate_succ_apply', shownLines_closeText, if_pos (hbrace n), ih]
    rfl

namespace Block

theorem Compiled.shown_opened {b : Block} {next : Offset} (hc : b.Compiled next) :
    shownLines b.opening.rendered ++ shownOf b.within = b.printed := by
  cases b with
  | when test body last =>
    have htext : shownLines (openText "if (!ACCU)") = ["if (ACCU)", "\x7b"] := by decide
    simp [opening, within, printed, hc.1.textOf_eq form?_jumpIfFalse, htext]
  | turns head entry exit body back =>
    have htext : shownLines "if (!ACCU) break" = ["if (!ACCU) break"] := by decide
    have hexit : shownOf (exit.toList.map fun line => line.reading (textOf line ++ " break")) =
        exit.toList.map fun _ => "if (!ACCU) break" := by
      cases exit with
      | none => rfl
      | some line => simp [(hc.2.1 line (by simp)).textOf_eq form?_jumpIfFalse, htext]
    simp [opening, within, printed, Loop.shownLines_while, hexit, shown]

end Block

namespace Part

variable {p : Part} {next : Offset}

theorem Compiled.shown_opened (hc : p.Compiled next) : shownOf p.opened = p.printedOpen := by
  cases p with
  | line l => exact shownOf_asRead [l]
  | block b =>
    have hb := Block.Compiled.shown_opened hc
    simp only [opened, printedOpen, shownOf_cons, shownOf_append, shownOf_asRead, ← List.append_assoc, hb]

theorem Compiled.shown_closed (hc : p.Compiled next) :
    shownLines p.heading.rendered ++ shownOf p.following = p.printed := by
  cases p with
  | line l => simp [heading, following, printed, shown]
  | block b =>
    have hb := Block.Compiled.shown_opened hc
    simp only [heading, following, printed, shownOf_cons, shownOf_append, shownOf_nil, ← List.append_assoc, hb,
      CodeLine.rendered_reading, shownLines_closeText, List.append_nil]
    simp [shown]

end Part

namespace TryCatch

variable {g : TryCatch} {before after : List CodeLine} {finish : CodeLine} {upTo : Int}

/-- Laid out, guarded code shows what it is printed as. -/
theorem Compiled.shown_laid {next : Offset} (hc : g.Compiled next) : shownOf g.laid = g.printed := by
  have hpart : ∀ p ∈ g.parts, ∃ next, p.Compiled next := by
    intro p hp
    rw [← Part.map_fst_withNext g.parts g.skip.offset] at hp
    obtain ⟨x, hx, rfl⟩ := List.mem_map.1 hp
    exact ⟨x.2, hc.parts x hx⟩
  have hfirst : shownLines g.first.heading.rendered ++ shownOf g.first.following = g.first.printed := by
    obtain ⟨next, hnext⟩ := hpart g.first (by simp [TryCatch.parts])
    exact hnext.shown_closed
  have hrest : shownOf (g.rest.flatMap Part.opened) = g.rest.flatMap Part.printedOpen := by
    rw [shownOf, List.flatMap_assoc]
    refine List.flatMap_congr fun p hp => ?_
    obtain ⟨next, hnext⟩ := hpart p (by simp [TryCatch.parts, hp])
    exact hnext.shown_opened
  have hcatch : shownLines "\n\x7d\ncatch\n\x7b" = ["\x7d", "catch", "\x7b"] := by decide
  have hend : ∀ text, shownLines (text ++ FlowM.blockEnd) = shownLines text ++ ["\x7d"] := by
    intro text
    rw [shownLines_append (by decide : FlowM.blockEnd = "\n" ++ "\x7d\n")]
    rfl
  have hskip : textOf g.skip = "" := hc.skips.textOf_eq form?_jump
  rw [laid, shownOf_cons, CodeLine.rendered_reading, shownLines_try, shownOf_append, shownOf_append, shownOf_cons,
    hrest, CodeLine.rendered_reading, hskip, String.empty_append, shownLines_closeText_iterate (by decide), hcatch,
    shownOf_append,
    shownOf_asRead, shownOf_cons, CodeLine.rendered_reading, hend, printed, ← hfirst]
  simp [shown]

/-- A function with guarded code in it shows it as it is printed. -/
theorem Compiled.shows {name : String} {console : Console} (hc : g.Compiled finish.offset)
    (hp : ∀ line ∈ before ++ finish :: after, (statement? line).isSome)
    (hl : Liftable (before ++ (g.code ++ finish :: after)) (g.handlers upTo))
    (he : ∀ o ∈ offsetsOf (before ++ (g.code ++ finish :: after)), o.Exact) :
    ∃ out console', liftCode name (before ++ (g.code ++ finish :: after)) (g.handlers upTo) console = .ok out console' ∧
      (out.map (·.rendered)).filter (· ≠ "") = "\x7b" :: (shown before ++
        (g.printed ++ (shown (finish :: after) ++ ["\x7d"]))) := by
  obtain ⟨out, console', hok, hshown⟩ := @shows_of_readied name _ _ _ console hl fun _ _ hr =>
    hc.yields_handleJumps hp he hr
  rw [shownOf_append, shownOf_append, hc.shown_laid, shownOf_asRead, shownOf_asRead, List.append_assoc,
    List.append_assoc] at hshown
  exact ⟨out, console', hok, hshown⟩

end TryCatch

/-- Guarded code is shown with its handler, whatever blocks it has. A block that it starts with is closed where it
ends; every other stays open up to the handler, so the lines after it are shown inside it. -/
theorem liftCode_shows_guarded {name : String} {before after : List CodeLine} {g : TryCatch} {finish : CodeLine}
    {upTo : Int} {console : Console} (hc : g.Compiled finish.offset)
    (hp : ∀ line ∈ before ++ finish :: after, (statement? line).isSome)
    (ha : Ascending (offsetsOf (before ++ (g.code ++ finish :: after))))
    (he : ∀ o ∈ offsetsOf (before ++ (g.code ++ finish :: after)), o.Exact) :
    ∃ out console', liftCode name (before ++ (g.code ++ finish :: after)) (g.handlers upTo) console = .ok out console' ∧
      (out.map (·.rendered)).filter (· ≠ "") = "\x7b" :: (shown before ++
        (g.printed ++ (shown (finish :: after) ++ ["\x7d"]))) :=
  hc.shows hp (hc.liftable hp ha fun o ho => by rw [he o ho]; rfl) he

/-- Guarded code that starts with a conditional, with a loop and another line after it. -/
def mixedTry : TryCatch where
  first := .block (.when { offset := .number 2, instruction := "JumpIfFalse [4] (0x1 @ 6)" } []
    { offset := .number 4, instruction := "LdaNull" })
  rest := [.block (.turns { offset := .number 6, instruction := "Ldar r0" } []
      (some { offset := .number 8, instruction := "JumpIfFalse [6] (0x1 @ 14)" })
      [{ offset := .number 10, instruction := "Star r1" }]
      { offset := .number 12, instruction := "JumpLoop [6] [0] (0x1 @ 6)" }),
    .line { offset := .number 14, instruction := "Star r2" }]
  skip := { offset := .number 16, instruction := "Jump [6] (0x1 @ 22)" }
  handler := [{ offset := .number 18, instruction := "Star r3" }]
  last := { offset := .number 20, instruction := "Star r4" }

theorem compiled_mixedTry : mixedTry.Compiled (.number 22) where
  parts := by
    have hline : ∀ line ∈ [({ offset := .number 14, instruction := "Star r2" } : CodeLine)],
        (statement? line).isSome := by decide +kernel
    have hexit : ∀ line ∈ (some { offset := .number 8, instruction := "JumpIfFalse [6] (0x1 @ 14)" }).toList,
        JumpsTo "JumpIfFalse" (.number 14) line := List.forall_mem_singleton.2 ⟨by decide, 14, rfl, rfl⟩
    refine List.forall_mem_cons.2 ⟨⟨⟨by decide, 6, rfl, rfl⟩, by decide +kernel⟩, ?_⟩
    refine List.forall_mem_cons.2 ⟨⟨⟨by decide, 6, rfl, rfl⟩, hexit, by decide +kernel⟩, ?_⟩
    exact List.forall_mem_singleton.2 (hline _ (by simp))
  skips := ⟨by decide, 22, rfl, rfl⟩
  handles := by decide +kernel

theorem liftCode_shows_mixedTry : mixedTry.Compiled (.number 22) ∧ ∃ out console',
    liftCode "f" (zeroAt 0 :: (mixedTry.code ++ [returnAt 22])) (mixedTry.handlers 16) {} = .ok out console' ∧
      (out.map (·.rendered)).filter (· ≠ "") =
        ["\x7b", "ACCU = 0", "try", "\x7b", "if (ACCU)", "\x7b", "ACCU = null", "\x7d", "while (true)", "\x7b",
        "ACCU = r0",
          "if (!ACCU) break", "r1 = ACCU", "r2 = ACCU", "\x7d", "\x7d", "catch", "\x7b", "r3 = ACCU", "r4 = ACCU",
          "\x7d", "return ACCU", "\x7d"] := by
  have hc := compiled_mixedTry
  obtain ⟨out, console', hok, hshown⟩ := @liftCode_shows_guarded "f" [zeroAt 0] [] mixedTry (returnAt 22) 16 {} hc
    (by decide +kernel) (by decide +kernel) (by decide +kernel)
  exact ⟨hc, out, console', hok, hshown.trans (by decide +kernel)⟩

def testedTry : TryCatch where
  first := .line { offset := .number 2, instruction := "Ldar r0" }
  rest := [.block (.when { offset := .number 4, instruction := "JumpIfFalse [6] (0x1 @ 10)" }
      [{ offset := .number 6, instruction := "LdaNull" }] { offset := .number 8, instruction := "Star r1" }),
    .line { offset := .number 10, instruction := "Ldar r2" }, .line { offset := .number 12, instruction := "Star r3" }]
  skip := { offset := .number 14, instruction := "Jump [6] (0x1 @ 20)" }
  handler := [{ offset := .number 16, instruction := "Star r4" }]
  last := { offset := .number 18, instruction := "Star r5" }

theorem compiled_testedTry : testedTry.Compiled (.number 20) where
  parts := by
    have hline : ∀ line ∈ [({ offset := .number 2, instruction := "Ldar r0" } : CodeLine),
        { offset := .number 10, instruction := "Ldar r2" }, { offset := .number 12, instruction := "Star r3" }],
        (statement? line).isSome := by decide +kernel
    refine List.forall_mem_cons.2 ⟨hline _ (by simp), ?_⟩
    refine List.forall_mem_cons.2 ⟨⟨⟨by decide, 10, rfl, rfl⟩, by decide +kernel⟩, ?_⟩
    exact List.forall_mem_cons.2 ⟨hline _ (by simp), List.forall_mem_singleton.2 (hline _ (by simp))⟩
  skips := ⟨by decide, 20, rfl, rfl⟩
  handles := by decide +kernel

/-- Not every block is closed where it ends: the lines between this conditional and the handler are shown inside
it. -/
theorem liftCode_shows_strayLines : testedTry.Compiled (.number 20) ∧ ∃ out console',
    liftCode "f" (zeroAt 0 :: (testedTry.code ++ [returnAt 20])) (testedTry.handlers 14) {} = .ok out console' ∧
      (out.map (·.rendered)).filter (· ≠ "") =
        ["\x7b", "ACCU = 0", "try", "\x7b", "ACCU = r0", "if (ACCU)", "\x7b", "ACCU = null", "r1 = ACCU", "ACCU = r2",
          "r3 = ACCU", "\x7d", "\x7d", "catch", "\x7b", "r4 = ACCU", "r5 = ACCU", "\x7d", "return ACCU", "\x7d"] := by
  have hc := compiled_testedTry
  have hp : ∀ line ∈ [zeroAt 0] ++ [returnAt 20], (statement? line).isSome := by decide +kernel
  have he : ∀ o ∈ offsetsOf ([zeroAt 0] ++ (testedTry.code ++ [returnAt 20])), o.Exact := by decide +kernel
  have hl : Liftable ([zeroAt 0] ++ (testedTry.code ++ [returnAt 20])) (testedTry.handlers 14) :=
    hc.liftable hp (by decide +kernel) (by decide +kernel)
  obtain ⟨out, console', hok, hshown⟩ := @TryCatch.Compiled.shows testedTry [zeroAt 0] [] (returnAt 20) 14 "f"
    {} hc hp hl he
  exact ⟨hc, out, console', hok, hshown.trans (by decide +kernel)⟩

end Bytelift
