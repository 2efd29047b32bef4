import Bytelift.Proofs.Loop.Wrapping
import Bytelift.Proofs.Rendering

/-! Nests of while loops, and the code they are compiled to. The test of a loop goes right past the jump back
that ends the loop; inside the loop there may be one more, with statements around it. -/

namespace Bytelift

open Run Instruction

/-- A while loop over the lines of its code: its condition and the test that leaves it, its body up to the loop
inside it and from there on, and the jump back to its first line. -/
structure Loop where
  condition : List CodeLine
  test : CodeLine
  body : List CodeLine
  rest : List CodeLine
  back : CodeLine

namespace Loop

def head (l : Loop) : CodeLine := l.condition.headD l.test

def resume (l : Loop) : CodeLine := l.rest.headD l.back

/-- The lines of a nest, where a loop comes before the one inside it. -/
def code : List Loop → List CodeLine
  | [] => []
  | l :: inner => l.condition ++ l.test :: (l.body ++ (code inner ++ (l.rest ++ [l.back])))

/-- The jumps of a nest go where they should, if it is left for an offset, and all other lines are
statements. -/
def Compiled : List Loop → Offset → Prop
  | [], _ => True
  | l :: inner, exit => (∀ line ∈ l.condition ++ l.body ++ l.rest, (statement? line).isSome) ∧
      JumpsTo "JumpIfFalse" exit l.test ∧ JumpsTo "JumpLoop" l.head.offset l.back ∧
      Compiled inner l.resume.offset

def exit (l : Loop) : Offset := .number ((jumpTarget (operands l.test)).toOption.getD 0)

def loopJump (l : Loop) : Jump := { kind := .loop, start := l.head.offset, stop := l.back.offset }

def testJump (l : Loop) : Jump := { kind := .test, start := l.test.offset, stop := l.exit }

def shown (lines : List CodeLine) : List String := lines.flatMap fun line => shownLines (textOf line)

theorem shownLines_while (text : String) :
    shownLines ("while (true)\n\x7b\n" ++ text) = "while (true)" :: "\x7b" :: shownLines text := by
  have hmark : "while (true)\n\x7b\n" = "while (true)\n\x7b" ++ "\n" := by decide
  have hopen : shownLines "while (true)\n\x7b" = ["while (true)", "\x7b"] := by decide
  rw [hmark, String.append_assoc, shownLines_append rfl, hopen, List.cons_append, List.singleton_append]

theorem form?_jumpLoop : form? "JumpLoop" = some (.jump (.other "JumpLoop") "") := by decide

theorem head_mem (l : Loop) : l.head ∈ l.condition ++ [l.test] := by
  unfold head
  cases l.condition <;> simp

/-- A line that a loop of the nest is made of is a line of the nest. -/
theorem mem_code {loops : List Loop} {l : Loop} (hl : l ∈ loops) {line : CodeLine}
    (h : line ∈ l.condition ++ [l.test] ++ l.body ++ l.rest ++ [l.back]) : line ∈ code loops := by
  induction loops with
  | nil => cases hl
  | cons outer inner ih =>
    simp only [List.mem_append, List.mem_singleton] at h
    simp only [code, List.mem_append, List.mem_cons, List.not_mem_nil, or_false]
    rcases List.mem_cons.1 hl with rfl | hl
    · tauto
    · have hin := ih hl
      tauto

/-! ## Where the loops stand -/

/-- Where a loop stands among the lines. -/
structure Stands (offsets : List Offset) (l : Loop) : Prop where
  head : l.head.offset ∈ offsets
  test : l.test.offset ∈ offsets
  opens : l.head.offset.value ≤ l.test.offset.value
  turns : l.test.offset.value < l.back.offset.value
  exits : Adjacent offsets l.back.offset l.exit

def Encloses (outer inner : Loop) : Prop :=
  outer.test.offset.value < inner.head.offset.value ∧ inner.back.offset.value < outer.back.offset.value

end Loop

theorem Ascending.lt_of_append {offsets before after : List Offset} (h : Ascending offsets)
    (he : offsets = before ++ after) {a b : Offset} (ha : a ∈ before) (hb : b ∈ after) : a.value < b.value :=
  (List.pairwise_append.1 (he ▸ h.grows)).2.2 a ha b hb

namespace Loop

variable {loops : List Loop} {offsets : List Offset} {exit : Offset}

theorem exit_eq {l : Loop} {o : Offset} (h : JumpsTo "JumpIfFalse" o l.test) : l.exit = o := by
  obtain ⟨target, ht, rfl⟩ := h.aimed
  simp [Loop.exit, ht, Except.toOption]

/-- Each loop of a nest stands among its lines, inside those before it. -/
theorem stands_of_compiled (ha : Ascending offsets) (before after : List Offset) (hc : Compiled loops exit)
    (ho : offsets = before ++ (offsetsOf (code loops) ++ exit :: after)) :
    (∀ l ∈ loops, l.Stands offsets) ∧ loops.Pairwise Encloses := by
  induction loops generalizing before after exit with
  | nil => simp
  | cons l inner ih =>
    obtain ⟨_, htest, _, hinner⟩ := hc
    obtain ⟨more, hmore⟩ : ∃ more, offsetsOf (l.rest ++ [l.back]) = l.resume.offset :: more := by
      unfold resume
      cases l.rest with
      | nil => exact ⟨[], rfl⟩
      | cons line rest => exact ⟨offsetsOf (rest ++ [l.back]), rfl⟩
    have hsplit : offsets = before ++ (offsetsOf l.condition ++ l.test.offset :: (offsetsOf l.body ++
        (offsetsOf (code inner) ++ (offsetsOf (l.rest ++ [l.back]) ++ exit :: after)))) := by
      rw [ho]
      simp [code, offsetsOf]
    obtain ⟨hstands, hnested⟩ := ih (before ++ (offsetsOf l.condition ++ l.test.offset :: offsetsOf l.body))
      (more ++ exit :: after) hinner (by rw [hsplit, hmore]; simp)
    -- the lines parted before the test, after it, and after the loop inside
    have hbefore := hsplit.trans (List.append_assoc _ _ _).symm
    have hafter := hbefore.trans (List.append_cons _ _ _)
    have hlast := (hafter.trans (List.append_assoc _ _ _).symm).trans (List.append_assoc _ _ _).symm
    have hback : l.back.offset ∈ offsetsOf (l.rest ++ [l.back]) := by simp [offsetsOf]
    have hhead : l.head.offset ∈ offsetsOf l.condition ∨ l.head.offset = l.test.offset := by
      rcases List.mem_append.1 l.head_mem with hm | hm
      · exact Or.inl (List.mem_map_of_mem hm)
      · exact Or.inr (congrArg CodeLine.offset (List.mem_singleton.1 hm))
    refine ⟨List.forall_mem_cons.2 ⟨⟨?_, ?_, ?_, ?_, ?_⟩, hstands⟩, List.pairwise_cons.2 ⟨?_, hnested⟩⟩
    · rcases hhead with hm | he
      · simp [hsplit, hm]
      · simp [hsplit, he]
    · simp [hsplit]
    · rcases hhead with hm | he
      · exact Int.le_of_lt (ha.lt_of_append hbefore (List.mem_append_right _ hm) (by simp))
      · exact Int.le_of_eq (congrArg Offset.value he)
    · exact ha.lt_of_append hafter (by simp) (by simp [hback])
    · rw [exit_eq htest]
      refine ⟨before ++ (offsetsOf l.condition ++ l.test.offset :: (offsetsOf l.body ++
        (offsetsOf (code inner) ++ offsetsOf l.rest))), after, ?_⟩
      rw [hsplit]
      simp [offsetsOf]
    · intro r hr
      have hrhead : r.head.offset ∈ offsetsOf (code inner) :=
        List.mem_map_of_mem (mem_code hr (by have := r.head_mem; simp at this ⊢; tauto))
      have hrback : r.back.offset ∈ offsetsOf (code inner) := List.mem_map_of_mem (mem_code hr (by simp))
      exact ⟨ha.lt_of_append hafter (by simp) (by simp [hrhead]),
        ha.lt_of_append hlast (by simp [hrback]) (by simp [hback])⟩

/-! ## What the loops record -/

theorem compiled_mem (hc : Compiled loops exit) : ∀ l ∈ loops,
    (∀ line ∈ l.condition ++ l.body ++ l.rest, (statement? line).isSome) ∧
      JumpsTo "JumpIfFalse" l.exit l.test ∧ JumpsTo "JumpLoop" l.head.offset l.back := by
  induction loops generalizing exit with
  | nil => simp
  | cons l inner ih =>
    obtain ⟨hplain, htest, hback, hinner⟩ := hc
    exact List.forall_mem_cons.2 ⟨⟨hplain, exit_eq htest ▸ htest, hback⟩, ih hinner⟩

/-- A loop files what it should: its test a jump forward, and the jump back a loop. -/
theorem filed?_of_stands (ha : Ascending offsets) {l : Loop} (hs : l.Stands offsets)
    (htest : JumpsTo "JumpIfFalse" l.exit l.test) (hback : JumpsTo "JumpLoop" l.head.offset l.back) :
    filed? l.test = some l.testJump ∧ filed? l.back = some l.loopJump := by
  have hnumber := ha.numbers
  have hbefore := hs.opens
  have hturn := hs.turns
  have hexit := hs.exits.lt ha
  refine ⟨?_, ?_⟩
  · obtain ⟨target, ht, he⟩ := htest.aimed
    have hlt : (Offset.number target).lt? l.test.offset = some false := by
      rw [← he, Offset.lt?_of_number (hnumber _ hs.exits.right) (hnumber _ hs.test), Option.some.injEq,
        decide_eq_false_iff_not]
      omega
    simp [filed?, htest.named, form?_jumpIfFalse, ht, hlt, testJump, he]
  · obtain ⟨target, ht, he⟩ := hback.aimed
    have hlt : (Offset.number target).lt? l.back.offset = some true := by
      rw [← he, Offset.lt?_of_number (hnumber _ hs.head) (hnumber _ hs.exits.left), Option.some.injEq,
        decide_eq_true_eq]
      omega
    simp [filed?, hback.named, form?_jumpLoop, ht, hlt, loopJump, he]

theorem filterMap_filed?_plain {lines : List CodeLine} (h : ∀ line ∈ lines, (statement? line).isSome) :
    lines.filterMap filed? = [] := by
  rw [List.filterMap_eq_nil_iff]
  exact fun line hl => filed?_of_statement? (h line hl)

/-- The tests are filed from the outside in, and then the loops from the inside out. -/
theorem filterMap_filed? (hplain : ∀ l ∈ loops, ∀ line ∈ l.condition ++ l.body ++ l.rest, (statement? line).isSome)
    (hfiled : ∀ l ∈ loops, filed? l.test = some l.testJump ∧ filed? l.back = some l.loopJump) :
    (code loops).filterMap filed? = loops.map testJump ++ loops.reverse.map loopJump := by
  induction loops with
  | nil => rfl
  | cons l inner ih =>
    obtain ⟨hl, hinner⟩ := List.forall_mem_cons.1 hplain
    obtain ⟨⟨htest, hback⟩, hrest⟩ := List.forall_mem_cons.1 hfiled
    have hcondition := @filterMap_filed?_plain l.condition fun line hm => hl line (by simp [hm])
    have hbody := @filterMap_filed?_plain l.body fun line hm => hl line (by simp [hm])
    have hafter := @filterMap_filed?_plain l.rest fun line hm => hl line (by simp [hm])
    simp [code, List.filterMap_append, hcondition, hbody, hafter, htest, hback, ih hinner hrest]

theorem renderable_code (hplain : ∀ l ∈ loops, ∀ line ∈ l.condition ++ l.body ++ l.rest, (statement? line).isSome)
    (hfiled : ∀ l ∈ loops, filed? l.test = some l.testJump ∧ filed? l.back = some l.loopJump) :
    ∀ line ∈ code loops, Renderable line := by
  induction loops with
  | nil => simp [code]
  | cons l inner ih =>
    obtain ⟨hl, hinner⟩ := List.forall_mem_cons.1 hplain
    obtain ⟨⟨htest, hback⟩, hrest⟩ := List.forall_mem_cons.1 hfiled
    have hjump : Renderable l.test ∧ Renderable l.back :=
      ⟨Or.inr ⟨_, htest, by simp [testJump, JumpKind.filed]⟩, Or.inr ⟨_, hback, by simp [loopJump, JumpKind.filed]⟩⟩
    have hparts := ih hinner hrest
    intro line hm
    simp only [code, List.mem_append, List.mem_cons, List.not_mem_nil, or_false] at hm
    rcases hm with hm | rfl | hm | hm | hm | rfl
    · exact Or.inl (hl line (by simp [hm]))
    · exact hjump.1
    · exact Or.inl (hl line (by simp [hm]))
    · exact hparts line hm
    · exact Or.inl (hl line (by simp [hm]))
    · exact hjump.2

/-- The heads of the loops, and their tests, stand at different lines. -/
theorem nodup_of_nested (hs : ∀ l ∈ loops, l.Stands offsets) (hn : loops.Pairwise Encloses) :
    (loops.map fun l => l.head.offset).Nodup ∧ (loops.map fun l => l.test.offset).Nodup := by
  refine ⟨List.pairwise_map.2 (hn.imp_of_mem ?_), List.pairwise_map.2 (hn.imp_of_mem ?_)⟩
  · intro outer inner ho _ he heq
    have hopens := (hs outer ho).opens
    have htest := he.1
    rw [heq] at hopens
    omega
  · intro outer inner _ hi he heq
    have hopens := (hs inner hi).opens
    have htest := he.1
    rw [heq] at htest
    omega

end Loop

end Bytelift
