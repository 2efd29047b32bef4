import Bytelift.Proofs.Listing.Written

/-! Each line of a listing is read as what it was written for. -/

namespace Bytelift.Listing

open Text

/-! ## Numbers -/

/-- A number is read whatever spaces stand before it. -/
theorem number_spaced {n k : Nat} {s : String} (h : Short n)
    (hs : s.toList = List.replicate k ' ' ++ (toString n).toList) : Instruction.number s = .ok (n : Int) := by
  have hblank : ∀ c ∈ List.replicate k ' ', isNumeralBlank c = true := by
    intro c hc
    rw [List.eq_of_mem_replicate hc]
    decide
  have hread := @readInt?_toString n h (List.replicate k ' ') [] hblank (by simp)
  rw [List.append_nil, ← hs, String.ofList_toList] at hread
  rw [Instruction.number, hread]

theorem number_column (n : Number) : Instruction.number (column n.value) = .ok (n.value : Int) :=
  number_spaced n.short (toList_column n.value)

/-! ## Counts, addresses and handlers -/

section Gaps

variable {fit : Matcher} (hfit : fit.Lawful)
include hfit

theorem countAfter_append {opening rest : String} (hne : rest ≠ "") :
    countAfter fit opening (opening ++ rest) = Instruction.number rest := by
  simp [countAfter, firstGap, hfit.last opening rest hne, bind, Except.bind]

theorem parameterCount_line (n : Number) :
    parameterCount fit ("Parameter count " ++ toString n.value) = .ok (n.value : Int) := by
  rw [parameterCount, countAfter_append hfit (by simp), number_toString n.short]

theorem registerCount_line (n : Number) :
    registerCount fit ("Register count " ++ toString n.value) = .ok (n.value : Int) := by
  rw [registerCount, countAfter_append hfit (by simp), number_toString n.short]

theorem length_line {n : Nat} (h : Short n) : length fit ("- length: " ++ toString n) = .ok (n : Int) := by
  have hline : "- length: " ++ toString n = "- length:" ++ (" " ++ toString n) := by
    rw [← String.append_assoc]
    rfl
  have hnumber : Instruction.number (" " ++ toString n) = .ok (n : Int) := by
    refine number_spaced (k := 1) h ?_
    rw [String.toList_append]
    rfl
  rw [length, hline, countAfter_append hfit (by simp), hnumber]

theorem address_line (a : Address) :
    address fit (a.text ++ ": [SharedFunctionInfo] in OldSpace") = .ok a.text := by
  have hne : a.text ≠ "" := fun he => by simpa [he] using a.toList_text
  have hcolon : ∀ c ∈ addressChars, foldCase ':' ≠ foldCase c := forall_mem_of_all (by decide)
  have hspace := hfit.last "] in " "OldSpace" (by decide)
  have hkind := hfit.gap_of_notMem ": [" "SharedFunctionInfo" (by decide) (p := ']') rfl
    (forall_mem_of_all (by decide)) hspace
  have hgaps : fit ⟨"", [": [", "] in ", ""]⟩ (a.text ++ ": [SharedFunctionInfo] in OldSpace") =
      some [a.text, "SharedFunctionInfo", "OldSpace"] := by
    rw [← String.empty_append (s := a.text ++ _)]
    exact hfit.gap_of_notMem "" a.text hne (p := ':') rfl (fun c hc => hcolon c (Address.mem_chars hc)) hkind
  simp [address, firstGap, hgaps]

theorem handler_line (h : Handler) : handler fit h.line = .ok h.entry := by
  have hfold : ∀ c ∈ ' ' :: addressChars,
      foldCase ',' ≠ foldCase c ∧ foldCase ')' ≠ foldCase c ∧ foldCase '(' ≠ foldCase c :=
    forall_mem_of_all (by decide)
  have hmark (n : Nat) := fun c (hc : c ∈ (column n).toList) => hfold c (mem_chars_of_mem_column hc)
  have hcolumn (n : Nat) : column n ≠ "" := fun he => column_ne_nil n (by rw [he]; rfl)
  have hnote := hfit.last " (" h.note h.isLine.opens.ne_empty
  -- The column may hold spaces, and the mark after it begins with one: its second character decides.
  have htarget : fit ⟨")  -> ", [" (", ""]⟩ (")  -> " ++ ((" " ++ column h.target.value) ++ (" (" ++ h.note))) =
      some [" " ++ column h.target.value, h.note] := by
    refine hfit.gap _ _ _ _ _ _ (by simp) (fun c cs hc => ?_) hnote
    cases cs with
    | nil => simp [afterBlind?, (hfold ' ' List.mem_cons_self).2.2]
    | cons d ds =>
      have hd : d ∈ (" " ++ column h.target.value).toList.tail := hc.subset (by simp)
      rw [String.toList_append] at hd
      simp [afterBlind?, (hmark _ d hd).2.2]
  have hlast := hfit.gap_of_notMem "," _ (hcolumn h.last.value) (p := ')') rfl
    (fun c hc => (hmark _ c hc).2.1) htarget
  have hfirst := hfit.gap_of_notMem "(" _ (hcolumn h.first.value) (p := ',') rfl
    (fun c hc => (hmark _ c hc).1) hlast
  have htargetValue : Instruction.number (" " ++ column h.target.value) = .ok (h.target.value : Int) := by
    refine number_spaced (k := 4 - (toString h.target.value).length + 1) h.target.short ?_
    rw [String.toList_append, toList_column, List.replicate_succ]
    rfl
  have hline : h.line = "(" ++ (column h.first.value ++ ("," ++ (column h.last.value ++ (")  -> " ++
      ((" " ++ column h.target.value) ++ (" (" ++ h.note)))))) := by
    simp only [Handler.line, String.append_assoc]
  simp [handler, hline, hfirst, htargetValue, number_column, Handler.entry, bind, Except.bind, pure, Except.pure]

end Gaps

/-! ## Instructions -/

theorem opcodeAndText?_eq_none {s : List Char} (h : opensWithByte s = false) : opcodeAndText? s = none := by
  unfold opcodeAndText?
  split
  · simp only [opensWithByte] at h
    simp [h]
  · rfl

theorem instructionText?_eq {s : String} (h : IsLine s) : instructionText? s.toList = some s.toList := by
  obtain ⟨c, hc, hb⟩ := h.opens
  obtain ⟨cs, hs⟩ := List.head?_eq_some_iff.1 (Option.mem_def.1 hc)
  have hspace : s.toList.dropWhile (· == ' ') = s.toList := by
    have hne : c ≠ ' ' := by
      rintro rfl
      exact absurd hb (by decide)
    simp [hs, hne]
  have hbreak : ∀ c ∈ s.toList, (c != '\n') = true := fun c hc => by simpa using (h.unbroken c hc).1
  have hrest : restOfLine? s.toList = some s.toList := by
    have htake := @takeWhile_run (· != '\n') s.toList [] hbreak (by simp)
    have hdrop := @dropWhile_run (· != '\n') s.toList [] hbreak (by simp)
    rw [List.append_nil] at htake hdrop
    have hne : s.toList.isEmpty = false := by simp [hs]
    simp only [restOfLine?, htake, hdrop, hne]
    rfl
  simp [instructionText?, hspace, hrest]

theorem opcodeAndText?_eq {bytes : List Byte} (hne : bytes ≠ []) {s : String} (h : IsLine s)
    (hw : opensWithByte s.toList = false) :
    opcodeAndText? (bytes.flatMap Byte.chars ++ s.toList) = some (bytes.flatMap Byte.chars, s.toList) := by
  induction bytes with
  | nil => exact absurd rfl hne
  | cons b bs ih =>
    simp only [List.flatMap_cons, Byte.chars, List.cons_append, List.nil_append, opcodeAndText?]
    cases bs with
    | nil => simp [b.hexadecimal, opcodeAndText?_eq_none hw, instructionText?_eq h]
    | cons b' bs' =>
      rw [ih (by simp)]
      simp [b.hexadecimal]

theorem instructionParts?_append {lead rest offset tail opcode text : List Char} (hne : lead ≠ [])
    (hat : ∀ c ∈ lead, (c != '@') = true)
    (hoffset : Substitution.digits? (rest.dropWhile (· == ' ')) = some (offset, " : ".toList ++ tail))
    (htail : opcodeAndText? tail = some (opcode, text)) :
    instructionParts? (lead ++ '@' :: ' ' :: rest) = some (offset, opcode, text) := by
  obtain ⟨c, cs, rfl⟩ := List.exists_cons_of_ne_nil hne
  unfold instructionParts?
  rw [takeWhile_run hat (by simp), dropWhile_run hat (by simp)]
  simp only [hoffset, Option.bind_some, after?_append, htail, Option.map_some]

/-- The spaces of a column are passed over, and its digits are found. -/
theorem digits?_column (n : Nat) {rest : List Char} (hr : Ends rest) :
    Substitution.digits? (((column n).toList ++ rest).dropWhile (· == ' ')) = some ((toString n).toList, rest) := by
  have hspaces : ∀ c ∈ List.replicate (4 - (toString n).length) ' ', (c == ' ') = true := by
    intro c hc
    simp [List.eq_of_mem_replicate hc]
  have hdigit : ∀ c ∈ ((toString n).toList ++ rest).head?, (c == ' ') = false := by
    intro c hc
    have hmem : c ∈ (toString n).toList := by
      rw [List.head?_append, Option.mem_def, Option.or_eq_some_iff] at hc
      rcases hc with hc | ⟨hc, _⟩
      · exact List.mem_of_mem_head? hc
      · exact absurd (List.head?_eq_none_iff.1 hc) (toList_toString_ne_nil n)
    simpa using ne_of_mem_toString hmem (by decide)
  rw [toList_column, List.append_assoc, dropWhile_run hspaces hdigit, digits?_toString n hr]

theorem instruction_line (o : Operation) : instruction o.line = .ok o.codeLine := by
  have hline : o.line.toList = (o.address.text.toList ++ [' ']) ++ '@' :: ' ' ::
      ((column o.offset.value).toList ++ (" : ".toList ++ (o.bytes.flatMap Byte.chars ++ o.text.toList))) := by
    simp [Operation.line, Operation.opcode]
  have hat : ∀ c ∈ o.address.text.toList ++ [' '], (c != '@') = true := by
    have hchars : ∀ c ∈ addressChars, (c != '@') = true := forall_mem_of_all (by decide)
    intro c hc
    rw [List.mem_append, List.mem_singleton] at hc
    rcases hc with hc | rfl
    · exact hchars c (Address.mem_chars hc)
    · decide
  have hparts := instructionParts?_append (by simp) hat (digits?_column o.offset.value (ends_cons (by decide)))
    (opcodeAndText?_eq o.nonempty o.isLine o.wordy)
  rw [← hline] at hparts
  have hnumber : number (toString o.offset.value).toList = .ok (o.offset.value : Int) := by
    rw [number, String.ofList_toList, number_toString o.offset.short]
  simp only [instruction, hparts, hnumber, bind, Except.bind, String.ofList_toList]
  rfl

/-! ## Constants -/

theorem ofDescription_string (n : Nat) (text : String) :
    Constant.ofDescription ("<String[" ++ toString n ++ "]: " ++ "#" ++ (text ++ ">")) =
      .value (quoteConstant text) := by
  have hopens : opensWith ("<String[" ++ toString n ++ "]: " ++ "#" ++ (text ++ ">")) "<String" = true := by
    simp [opensWith, after?]
  have hfirst : '#' ∉ ("<String[" ++ toString n ++ "]: ").toList := by
    intro hc
    simp only [String.toList_append, List.mem_append] at hc
    rcases hc with (hc | hc) | hc
    · exact absurd hc (by decide)
    · exact ne_of_mem_toString hc (by decide) rfl
    · exact absurd hc (by decide)
  have hpast : pastFirst ("<String[" ++ toString n ++ "]: " ++ "#" ++ (text ++ ">")) "#" = text ++ ">" := by
    rw [pastFirst, cutAt?_append rfl hfirst]
  have hcloses : closesWith (text ++ ">") ">" = true := by
    simp [closesWith, after?]
  have hdrop : dropLast (text ++ ">") = text := by
    simp [dropLast]
  simp only [Constant.ofDescription, hopens, hpast, hcloses, hdrop, if_true]

theorem ofDescription_oddball (kind : String) :
    Constant.ofDescription ("<Odd Oddball: " ++ kind ++ ">") = .value "null" := by
  simp [Constant.ofDescription, opensWith, after?]

theorem ofDescription_array (kind : ArrayKind) (n : Nat) :
    Constant.ofDescription ("<" ++ kind.name ++ "[" ++ toString n ++ "]>") = .array := by
  cases kind <;> simp [Constant.ofDescription, opensWith, after?, ArrayKind.name]

theorem ofDescription_object (n : Nat) :
    Constant.ofDescription ("<ObjectBoilerplateDescription[" ++ toString n ++ "]>") = .object := by
  simp [Constant.ofDescription, opensWith, after?]

theorem ofDescription_function (label : Label) :
    Constant.ofDescription ("<SharedFunctionInfo" ++ " " ++ (label.text ++ ">")) = .function label.text := by
  have hpast : pastFirst ("<SharedFunctionInfo" ++ " " ++ (label.text ++ ">")) " " = label.text ++ ">" := by
    rw [pastFirst, cutAt?_append rfl (by decide)]
  have htrim : trimEnd (fun c => c == '>' || c == ' ') (label.text ++ ">").toList = label.text.toList := by
    have hhead : ∀ c ∈ label.text.toList.reverse.head?, (c == '>' || c == ' ') = false := by
      simpa [List.head?_reverse] using label.ending
    have hrun := @dropWhile_run (fun c => c == '>' || c == ' ') ['>'] label.text.toList.reverse (by simp) hhead
    rw [trimEnd, String.toList_append, List.reverse_append]
    exact (congrArg List.reverse hrun).trans (List.reverse_reverse _)
  have hopens : opensWith ("<SharedFunctionInfo" ++ " " ++ (label.text ++ ">")) "<String" = false ∧
      opensWith ("<SharedFunctionInfo" ++ " " ++ (label.text ++ ">")) "<SharedFunctionInfo" = true := by
    simp [opensWith, after?]
  simp only [Constant.ofDescription, hopens, has_within, hpast, htrim, if_true, Bool.false_eq_true, if_false,
    String.ofList_toList]

def Item.constant : Item → Constant
  | .bare text => .value text.text
  | .string _ text => .value (quoteConstant text.text)
  | .oddball _ _ => .value "null"
  | .array _ _ _ _ => .array
  | .object _ _ => .object
  | .function _ label _ _ => .function label.text

theorem lastIndex?_indexText (i extra : Nat) (rest : List Char) :
    lastIndex? ((indexText i extra).toList ++ ':' :: rest) =
      some ((toString (i + extra)).toList, ':' :: rest) := by
  have hcolon : Ends (':' :: rest) := ends_cons (by decide)
  unfold indexText lastIndex?
  split
  · next h =>
    subst h
    rw [digits?_toString i hcolon]
    rfl
  · next h =>
    have hdash : Ends ('-' :: ((toString (i + extra)).toList ++ ':' :: rest)) := ends_cons (by decide)
    have hs : (toString i ++ "-" ++ toString (i + extra)).toList ++ ':' :: rest =
        (toString i).toList ++ '-' :: ((toString (i + extra)).toList ++ ':' :: rest) := by
      simp
    rw [hs, digits?_toString i hdash, Option.bind_some]
    exact digits?_toString _ hcolon

theorem text?_eq {s : String} (hu : Unbroken s) (hne : s ≠ "") : text? s.toList = some s.toList := by
  have hbreak : ∀ c ∈ s.toList, (c != '\n') = true := fun c hc => by simpa using (hu c hc).1
  have htake := @takeWhile_run (· != '\n') s.toList [] hbreak (by simp)
  rw [List.append_nil] at htake
  unfold text?
  rw [htake]
  split
  · next he => exact absurd (String.toList_eq_nil_iff.1 he) hne
  · rfl

theorem description?_kept {a : Address} {what : String} (hu : Unbroken (kept a what)) (hne : what ≠ "") :
    description? (kept a what).toList = some what.toList := by
  have hkept : (kept a what).toList = "0x".toList ++ (a.digits ++ ' ' :: what.toList) := by
    simp [kept, Address.toList_text]
  obtain ⟨c, cs, hd⟩ := List.exists_cons_of_ne_nil a.nonempty
  have hspace : ∀ c ∈ (' ' :: what.toList).head?, isHexDigit c = false := by simp; decide
  unfold description?
  rw [hkept, after?_append, Option.bind_some, takeWhile_run a.hexadecimal hspace,
    dropWhile_run a.hexadecimal hspace, hd]
  exact text?_eq hu.of_append hne

theorem description?_bare (b : Bare) : description? b.text.toList = none := by
  have hnone : after? "0x".toList b.text.toList = none := by
    simpa [opensWith] using b.plain
  rw [description?, hnone, Option.bind_none]

theorem constantParts?_eq {i extra : Nat} {what : String} :
    constantParts? (indexText i extra ++ ": " ++ what).toList =
      match description? what.toList with
      | some text => some ((toString (i + extra)).toList, .ofDescription (String.ofList text))
      | none => (text? what.toList).map fun text => ((toString (i + extra)).toList, .value (String.ofList text)) := by
  have hs : (indexText i extra ++ ": " ++ what).toList = (indexText i extra).toList ++ ':' :: ' ' :: what.toList := by
    simp
  rw [constantParts?, hs, lastIndex?_indexText, Option.bind_some]
  rfl

theorem constantParts?_kept {i extra : Nat} {a : Address} {what : String} (hu : Unbroken (kept a what))
    (hne : what ≠ "") :
    constantParts? (indexText i extra ++ ": " ++ kept a what).toList =
      some ((toString (i + extra)).toList, .ofDescription what) := by
  simp only [constantParts?_eq, description?_kept hu hne, String.ofList_toList]

theorem Item.constantParts?_entryLine (i extra : Nat) (item : Item) :
    constantParts? (entryLine i extra item).toList = some ((toString (i + extra)).toList, item.constant) := by
  have hu := item.unbroken_description
  unfold entryLine
  cases item with
  | bare b =>
    simp only [Item.description, constantParts?_eq, description?_bare, text?_eq b.unbroken b.closes.ne_empty,
      Option.map_some, String.ofList_toList, Item.constant]
  | string a text => rw [Item.description, constantParts?_kept hu (by simp), ofDescription_string, Item.constant]
  | oddball a kind => rw [Item.description, constantParts?_kept hu (by simp), ofDescription_oddball, Item.constant]
  | array a kind entries closed =>
    rw [Item.description, constantParts?_kept hu (by simp), ofDescription_array, Item.constant]
  | object a entries => rw [Item.description, constantParts?_kept hu (by simp), ofDescription_object, Item.constant]
  | function a label frame pool =>
    rw [Item.description, constantParts?_kept hu (by simp), ofDescription_function, Item.constant]

theorem constant_entryLine {i extra : Nat} (h : Short (i + extra)) (item : Item) :
    constant (entryLine i extra item) = .ok (((i + extra : Nat) : Int) + 1, item.constant) := by
  have hnumber : number (toString (i + extra)).toList = .ok ((i + extra : Nat) : Int) := by
    rw [number, String.ofList_toList, number_toString h]
  simp only [constant, item.constantParts?_entryLine, hnumber]
  rfl

end Bytelift.Listing
