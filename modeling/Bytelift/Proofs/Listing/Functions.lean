import Bytelift.Proofs.Listing.Entries
import Bytelift.Proofs.Table
import Mathlib.Data.List.Basic

/-! Functions, read back. Each line of a function is told from the others by what it holds, so it has to be
shown what a line does not hold: most lines lack a letter of the marks before theirs. -/

namespace Bytelift.Listing

open Text Run FeedM

/-! ## Marks that a line does not hold -/

theorem has_of_chars {line mark : String} {allowed : List Char} (hl : ∀ c ∈ line.toList, c ∈ allowed)
    (hm : mark.toList.any (· ∉ allowed) = true) : has line mark = false := by
  obtain ⟨c, hc, hout⟩ := List.any_eq_true.1 hm
  exact has_of_notMem hc fun h => of_decide_eq_true hout (hl c h)

theorem has_counted {opening mark : String} {c : Char} (hm : c ∈ mark.toList)
    (hc : c ∉ opening.toList ∧ c.isDigit = false) (n : Nat) : has (opening ++ toString n) mark = false := by
  refine has_of_notMem hm ?_
  rw [String.toList_append, List.mem_append, not_or]
  exact ⟨hc.1, fun hd => ne_of_mem_toString hd hc.2 rfl⟩

theorem has_sized {opening mark : String} {c : Char} (hm : c ∈ mark.toList)
    (hc : c ∉ opening.toList ∧ c.isDigit = false ∧ c ∉ ")".toList) (n : Nat) :
    has (opening ++ toString n ++ ")") mark = false := by
  refine has_of_notMem hm ?_
  rw [String.toList_append, String.toList_append, List.mem_append, List.mem_append, not_or, not_or]
  exact ⟨⟨hc.1, fun hd => ne_of_mem_toString hd hc.2.1 rfl⟩, hc.2.2⟩

/-- Only an empty list has the size nothing. -/
theorem has_size {opening : String} {a : List Char} (ho : opening.toList = a ++ "size = ".toList)
    (ha : '=' ∉ a) (n : Nat) : has (opening ++ toString n ++ ")") "size = 0" = decide (n = 0) := by
  have hline : (opening ++ toString n ++ ")").toList =
      (a ++ "size ".toList) ++ '=' :: (' ' :: ((toString n).toList ++ [')'])) := by
    rw [String.toList_append, String.toList_append, ho]
    simp
  by_cases hn : n = 0
  · subst hn
    rw [decide_eq_true rfl, has_eq_true, hline]
    exact ⟨a, [')'], by simp⟩
  · rw [decide_eq_false hn, has_eq_false]
    rintro ⟨before, after, he⟩
    -- The line has one equals sign, so the mark's own is it, and the number would begin with a zero.
    have hsplit : (a ++ "size ".toList) ++ '=' :: (' ' :: ((toString n).toList ++ [')'])) =
        (before ++ "size ".toList) ++ '=' :: (' ' :: '0' :: after) := by
      rw [← hline, ← he]
      simp
    have hdigits : '=' ∉ ' ' :: ((toString n).toList ++ [')']) := by
      simp only [List.mem_cons, List.mem_append, List.not_mem_nil, or_false, not_or]
      exact ⟨by decide, fun hc => ne_of_mem_toString hc (by decide) rfl, by decide⟩
    rw [List.append_cons_inj_of_notMem (by simp [ha]) hdigits] at hsplit
    have hzero : (toString n).toList ++ [')'] = '0' :: after := (List.cons.inj hsplit.2.2).2
    refine hn (eq_zero_of_head?_toDigits ?_)
    obtain ⟨c, cs, hs⟩ := List.exists_cons_of_ne_nil (toList_toString_ne_nil n)
    rw [hs, List.cons_append] at hzero
    rw [← toList_toString, hs, (List.cons.inj hzero).1]
    rfl

/-- What stands before an instruction, up to the last blank. -/
theorem Operation.exists_lead (o : Operation) : ∃ lead, o.line.toList = lead ++ ' ' :: o.text.toList ∧
    ∀ c ∈ lead, c ∈ ' ' :: '@' :: ':' :: addressChars := by
  obtain ⟨bytes, b, hb⟩ := List.eq_nil_or_concat o.bytes |>.resolve_left o.nonempty
  refine ⟨o.address.text.toList ++ (" @ ".toList ++ ((column o.offset.value).toList ++ (" : ".toList ++
    (bytes.flatMap Byte.chars ++ [b.high, b.low])))), ?_, ?_⟩
  · simp [Operation.line, Operation.opcode, hb, Byte.chars]
  · have hbyte (b : Byte) : b.high ∈ addressChars ∧ b.low ∈ addressChars :=
      ⟨mem_addressChars b.hexadecimal.1, mem_addressChars b.hexadecimal.2⟩
    have hdigit {c : Char} (hc : c ∈ addressChars) : c ∈ ' ' :: '@' :: ':' :: addressChars :=
      List.mem_cons_of_mem _ (List.mem_cons_of_mem _ (List.mem_cons_of_mem _ hc))
    have hmarks : ∀ c ∈ " @ ".toList ++ " : ".toList, c ∈ ' ' :: '@' :: ':' :: addressChars :=
      forall_mem_of_all (by decide)
    intro c hc
    simp only [List.mem_append, List.mem_flatMap] at hc
    rcases hc with hc | hc | hc | hc | ⟨b, _, hc⟩ | hc
    · exact hdigit (Address.mem_chars hc)
    · exact hmarks c (List.mem_append_left _ hc)
    · exact (List.mem_cons.1 (mem_chars_of_mem_column hc)).elim (fun he => he ▸ List.mem_cons_self) hdigit
    · exact hmarks c (List.mem_append_right _ hc)
    · simp only [Byte.chars, List.mem_cons, List.not_mem_nil, or_false] at hc
      rcases hc with rfl | rfl | rfl
      · exact hdigit (hbyte b).1
      · exact hdigit (hbyte b).2
      · exact List.mem_cons_self
    · simp only [List.mem_cons, List.not_mem_nil, or_false] at hc
      rcases hc with rfl | rfl
      · exact hdigit (hbyte b).1
      · exact hdigit (hbyte b).2

/-- A mark in the line of an instruction is one in the instruction. -/
theorem Operation.has_line (o : Operation) {mark : String} {p q : Char} {s : List Char} (hm : mark.toList = p :: q :: s)
    (hout : p ∉ ' ' :: '@' :: ':' :: addressChars ∨ q ∉ ' ' :: '@' :: ':' :: addressChars)
    (h : has (" " ++ o.text) mark = false) : has o.line mark = false := by
  obtain ⟨lead, hline, hlead⟩ := o.exists_lead
  rw [has_eq_false, hm] at h ⊢
  intro hi
  rw [hline] at hi
  refine h ?_
  rw [String.toList_append]
  change p :: q :: s <:+: ' ' :: o.text.toList
  rcases hout with hp | hq
  · exact infix_append_of_notMem (fun hc => hp (hlead p hc)) hi
  · refine infix_append_of_second (fun hc => hq (hlead q hc)) ?_ hi
    simp only [List.head?_cons, Option.mem_def, Option.some.injEq]
    rintro rfl
    exact hq List.mem_cons_self

namespace Frame

variable (f : Frame)

theorem has_start_line {mark : String} (hm : mark ∈ leadingMarks) : has f.start.line mark = false := by
  have htext := f.unmarked mark hm
  have hspace {p : Char} {s : List Char} (hs : mark.toList = p :: s) (hp : p ∉ [' ']) :
      has (" " ++ f.start.text) mark = false := by
    rw [has_eq_false, hs] at htext ⊢
    rw [String.toList_append]
    exact fun hi => htext (infix_append_of_notMem hp hi)
  simp only [leadingMarks, List.mem_cons, List.not_mem_nil, or_false] at hm
  rcases hm with rfl | rfl | rfl | rfl
  · exact f.start.has_line rfl (Or.inl (by decide)) (hspace rfl (by decide))
  · exact f.start.has_line rfl (Or.inl (by decide)) (hspace rfl (by decide))
  · exact f.start.has_line rfl (Or.inr (by decide)) (hspace rfl (by decide))
  · exact f.start.has_line rfl (Or.inl (by decide)) (hspace rfl (by decide))

theorem has_start_line_handler (h : f.handlers ≠ []) : has f.start.line " -> " = false :=
  f.start.has_line rfl (Or.inr (by decide)) (f.noHandler h)

/-- Distinct handlers fill a table in their order. -/
theorem putAll_handlers : ({} : Instruction.Handlers).putAll (f.handlers.map Handler.entry) =
    ⟨f.handlers.map Handler.entry⟩ := by
  have hkeys : (({} : Instruction.Handlers).keys ++ (f.handlers.map Handler.entry).map (·.1)).Nodup := by
    have hmap : (f.handlers.map Handler.entry).map (·.1) = (f.handlers.map (·.target.value)).map Int.ofNat := by
      simp [Handler.entry]
    rw [hmap]
    exact List.Pairwise.map Int.ofNat (fun _ _ hne he => hne (Int.ofNat.inj he)) f.distinct
  have hentries := Table.putAll_of_nodup hkeys
  cases hput : ({} : Instruction.Handlers).putAll (f.handlers.map Handler.entry)
  rw [hput] at hentries
  simpa using hentries

end Frame

/-! ## Handlers and code -/

section Runs

variable {fit : Matcher} {line : String} {lines : List String} {bound : Nat} {feed : Feed} {functions : Functions}

theorem yields_handlersFrom (hfit : fit.Lawful) {handlers : List Handler} {table : Instruction.Handlers}
    (hline : has line " -> " = false) (hb : handlers.length < bound)
    (h : Fresh feed (handlers.map Handler.line ++ line :: lines) functions) :
    Yields (handlersFrom fit bound table) feed fun found t =>
      found = table.putAll (handlers.map Handler.entry) ∧ Ahead t (line :: lines) functions := by
  induction handlers generalizing bound table feed with
  | nil =>
    obtain ⟨bound, rfl⟩ := Nat.exists_eq_add_one_of_ne_zero (Nat.ne_zero_of_lt hb)
    rw [handlersFrom, yields_bind]
    refine yields_line (yields_next_fresh h fun t ht hl => ⟨rfl, ?_⟩)
    rw [hline, if_neg (by simp), yields_bind]
    exact yields_setAgain ht hl fun u hu => yields_pure.2 ⟨rfl, hu⟩
  | cons x rest ih =>
    obtain ⟨bound, rfl⟩ := Nat.exists_eq_add_one_of_ne_zero (Nat.ne_zero_of_lt hb)
    have hhas : has x.line " -> " = true := by
      rw [has_eq_true]
      exact ⟨("(" ++ column x.first.value ++ "," ++ column x.last.value ++ ") ").toList,
        (" " ++ column x.target.value ++ " (" ++ x.note).toList, by simp [Handler.line]⟩
    rw [List.map_cons, List.cons_append] at h
    rw [handlersFrom, yields_bind]
    refine yields_line (yields_next h.ahead fun t ht => ⟨rfl, ?_⟩)
    rw [if_pos hhas, yields_bind, handler_line hfit, yields_ofExcept]
    exact ⟨_, rfl, ih (by simpa using hb) ht⟩

theorem yields_instructionsFrom_line {o : Operation} {wanted : List CodeLine → Feed → Prop}
    (h : Yields (FeedM.line .endOfListing) feed fun next t => Yields (instructionsFrom bound next) t
      fun found u => wanted (o.codeLine :: found) u) :
    Yields (instructionsFrom (bound + 1) o.line) feed wanted := by
  have hhas : has o.line " @ " = true := by
    rw [has_eq_true]
    exact ⟨o.address.text.toList, (column o.offset.value ++ " : " ++ o.opcode ++ o.text).toList, by
      simp [Operation.line]⟩
  rw [instructionsFrom, if_pos hhas, yields_bind, instruction_line, yields_ofExcept]
  refine ⟨_, rfl, ?_⟩
  rw [yields_bind]
  refine h.mono fun next t ht => ?_
  rw [yields_bind]
  exact ht.mono fun found u hu => yields_pure.2 hu

theorem yields_instructionsFrom {o : Operation} {rest : List Operation} (hline : has line " @ " = false)
    (hb : rest.length + 1 < bound) (h : Fresh feed (rest.map Operation.line ++ line :: lines) functions) :
    Yields (instructionsFrom bound o.line) feed fun found t =>
      found = (o :: rest).map Operation.codeLine ∧ Ahead t (line :: lines) functions := by
  obtain ⟨bound, rfl⟩ := Nat.exists_eq_add_one_of_ne_zero (Nat.ne_zero_of_lt hb)
  induction rest generalizing bound o feed with
  | nil =>
    obtain ⟨bound, rfl⟩ : ∃ b, bound = b + 1 := ⟨bound - 1, by simp at hb; omega⟩
    refine yields_instructionsFrom_line (yields_line (yields_next_fresh h fun t ht hl => ⟨rfl, ?_⟩))
    rw [instructionsFrom, hline, if_neg (by simp), yields_bind]
    exact yields_setAgain ht hl fun u hu => yields_pure.2 ⟨rfl, hu⟩
  | cons x rest ih =>
    obtain ⟨bound, rfl⟩ : ∃ b, bound = b + 1 := ⟨bound - 1, by simp at hb; omega⟩
    rw [List.map_cons, List.cons_append] at h
    refine yields_instructionsFrom_line (yields_line (yields_next h.ahead fun t ht => ⟨rfl, ?_⟩))
    refine (ih ht bound (by simpa using hb)).mono ?_
    rintro _ u ⟨rfl, hu⟩
    exact ⟨rfl, hu⟩

end Runs

/-! ## The lines of a function -/

section FunctionLine

variable {fit : Matcher} {entry : Entry} {label : String} {g : Function} {feed : Feed} {functions : Functions}
  {wanted : Function → Feed → Prop} {more : List String}

theorem yields_silentLine {line : String}
    (hs : ∀ mark ∈ leadingMarks ++ ["@    0 : ", "[SharedFunctionInfo]", "[BytecodeArray]"], has line mark = false)
    (hw : wanted g feed) : Yields (functionLine fit entry label g line) feed wanted := by
  simp only [leadingMarks, List.cons_append, List.nil_append, List.forall_mem_cons] at hs
  simp only [functionLine, hs, Bool.false_eq_true, if_false, Bool.or_self, yields_pure]
  exact hw

theorem yields_addressLine (hfit : fit.Lawful) (a : Address)
    (hw : wanted { g with name := functionName label a.text } feed) :
    Yields (functionLine fit entry label g (a.text ++ ": [SharedFunctionInfo] in OldSpace")) feed wanted := by
  have hchars : ∀ c ∈ (a.text ++ ": [SharedFunctionInfo] in OldSpace").toList,
      c ∈ addressChars ++ ": [SharedFunctionInfo] in OldSpace".toList := by
    intro c hc
    rw [String.toList_append, List.mem_append] at hc
    rw [List.mem_append]
    exact hc.imp_left Address.mem_chars
  have hnot : ∀ mark ∈ leadingMarks ++ ["@    0 : "],
      mark.toList.any (· ∉ addressChars ++ ": [SharedFunctionInfo] in OldSpace".toList) = true := by decide
  have hlacks := fun mark hm => has_of_chars hchars (hnot mark hm)
  have hhas : has (a.text ++ ": [SharedFunctionInfo] in OldSpace") "[SharedFunctionInfo]" = true := by
    rw [has_eq_true, String.toList_append]
    exact ⟨a.text.toList ++ ": ".toList, " in OldSpace".toList, by simp⟩
  simp only [leadingMarks, List.cons_append, List.nil_append, List.forall_mem_cons] at hlacks
  simp only [functionLine, hlacks, hhas, Bool.false_eq_true, if_false, Bool.true_or, if_true, yields_bind,
    address_line hfit, yields_ofExcept, Except.ok.injEq, exists_eq_left', yields_pure]
  exact hw

theorem yields_parameterLine (hfit : fit.Lawful) (n : Number)
    (hw : wanted { g with parameters := some (.number n.value) } feed) :
    Yields (functionLine fit entry label g ("Parameter count " ++ toString n.value)) feed wanted := by
  rw [functionLine, if_pos (has_opening (by decide) _), yields_bind, parameterCount_line hfit, yields_ofExcept]
  exact ⟨_, rfl, yields_pure.2 hw⟩

theorem yields_registerLine (hfit : fit.Lawful) (n : Number) (hw : wanted { g with registers := some n.value } feed) :
    Yields (functionLine fit entry label g ("Register count " ++ toString n.value)) feed wanted := by
  have hlacks : has ("Register count " ++ toString n.value) "Parameter count" = false :=
    has_counted (c := 'P') (by decide) (by decide) _
  rw [functionLine, hlacks, if_neg (by simp), if_pos (has_opening (by decide) _), yields_bind, registerCount_line hfit,
    yields_ofExcept]
  exact ⟨_, rfl, yields_pure.2 hw⟩

theorem yields_poolLine (hfit : fit.Lawful) {pool : List (Nat × Item)} (hmore : Follows more)
    (hread : ReadsAll (entry (some g.name)) g.name pool)
    (h : Fresh feed (Frame.poolLines (size pool) (entryLines 0 pool) ++ more) functions) :
    Yields (functionLine fit entry label g ("Constant pool (size = " ++ toString (size pool) ++ ")")) feed
    fun found t =>
      found = { g with pool := some (texts pool) } ∧ Ahead t more (filed functions (functionsOf g.name pool)) := by
  have hlacks : has ("Constant pool (size = " ++ toString (size pool) ++ ")") "Parameter count" = false ∧
      has ("Constant pool (size = " ++ toString (size pool) ++ ")") "Register count" = false :=
    ⟨has_sized (c := 'P') (by decide) (by decide) _, has_sized (c := 'R') (by decide) (by decide) _⟩
  have hhas : has ("Constant pool (size = " ++ toString (size pool) ++ ")") "Constant pool" = true := by
    rw [String.append_assoc]
    exact has_opening (by decide) _
  have hzero : has ("Constant pool (size = " ++ toString (size pool) ++ ")") "size = 0" = decide (size pool = 0) :=
    has_size (a := "Constant pool (".toList) rfl (by decide) _
  simp only [functionLine, hlacks, hhas, Bool.false_eq_true, if_false, if_true, constantPool, hzero]
  cases pool with
  | nil =>
    rw [yields_bind]
    exact yields_pure.2 (yields_pure.2 ⟨by rw [texts], h.ahead⟩)
  | cons e rest =>
    have hnonzero : size (e :: rest) ≠ 0 := by
      rw [size_cons]
      omega
    rw [Frame.poolLines, if_neg hnonzero] at h
    rw [decide_eq_false hnonzero, if_neg (by simp), yields_bind]
    refine (yields_entries hfit hmore hread h.ahead).mono ?_
    rintro _ t ⟨rfl, ht⟩
    exact yields_pure.2 ⟨rfl, ht⟩

theorem yields_handlerLine (hfit : fit.Lawful) (f : Frame)
    (h : Fresh feed (handlerLines f.handlers ++ f.start.line :: more) functions) :
    Yields (functionLine fit entry label g ("Handler Table (size = " ++ toString f.handlers.length ++ ")")) feed
      fun found t => found = { g with handlers := some ⟨f.handlers.map Handler.entry⟩ } ∧
        Ahead t (f.start.line :: more) functions := by
  have hlacks : has ("Handler Table (size = " ++ toString f.handlers.length ++ ")") "Parameter count" = false ∧
      has ("Handler Table (size = " ++ toString f.handlers.length ++ ")") "Register count" = false ∧
      has ("Handler Table (size = " ++ toString f.handlers.length ++ ")") "Constant pool" = false :=
    ⟨has_sized (c := 'P') (by decide) (by decide) _, has_sized (c := 'R') (by decide) (by decide) _,
      has_sized (c := 'C') (by decide) (by decide) _⟩
  have hhas : has ("Handler Table (size = " ++ toString f.handlers.length ++ ")") "Handler Table" = true := by
    rw [String.append_assoc]
    exact has_opening (by decide) _
  have hzero : has ("Handler Table (size = " ++ toString f.handlers.length ++ ")") "size = 0" =
      decide (f.handlers.length = 0) := has_size (a := "Handler Table (".toList) rfl (by decide) _
  simp only [functionLine, hlacks, hhas, Bool.false_eq_true, if_false, if_true, handlerTable, hzero]
  rw [yields_bind]
  by_cases hempty : f.handlers = []
  · rw [hempty] at h ⊢
    exact yields_pure.2 (yields_pure.2 ⟨rfl, h.ahead⟩)
  · have hlength : f.handlers.length ≠ 0 := by simpa using hempty
    rw [handlerLines, List.isEmpty_eq_false_iff.2 hempty, if_neg (by simp), List.cons_append] at h
    rw [decide_eq_false hlength, if_neg (by simp), yields_bind]
    refine yields_next h.ahead fun t ht => ?_
    rw [yields_bind, yields_get]
    have hbound := ht.ahead.length_lt_bound
    refine (yields_handlersFrom hfit (f.has_start_line_handler hempty) (by simp at hbound; omega) ht).mono ?_
    rintro _ u ⟨rfl, hu⟩
    rw [yields_pure, f.putAll_handlers]
    exact ⟨rfl, hu⟩

theorem yields_codeLine (f : Frame) {line : String} (hline : has line " @ " = false)
    (h : Fresh feed (f.rest.map Operation.line ++ line :: more) functions) :
    Yields (functionLine fit entry label g f.start.line) feed fun found t =>
      found = { g with code := some (f.code.map Operation.codeLine) } ∧ Ahead t (line :: more) functions := by
  have hlacks := fun mark hm => @Frame.has_start_line f mark hm
  have hhas : has f.start.line "@    0 : " = true := by
    have hzero : (column 0).toList = "   0".toList := by decide
    rw [has_eq_true]
    exact ⟨f.start.address.text.toList ++ [' '], (f.start.opcode ++ f.start.text).toList, by
      simp [Operation.line, f.atZero, hzero]⟩
  simp only [leadingMarks, List.forall_mem_cons] at hlacks
  simp only [functionLine, hlacks, hhas, Bool.false_eq_true, if_false, if_true, instructions]
  rw [yields_bind, yields_bind, yields_get]
  have hbound := h.ahead.length_lt_bound
  refine (yields_instructionsFrom hline (by simp at hbound; omega) h).mono ?_
  rintro _ t ⟨rfl, ht⟩
  exact yields_pure.2 ⟨rfl, ht⟩

end FunctionLine

end Bytelift.Listing
