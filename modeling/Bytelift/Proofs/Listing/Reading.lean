import Bytelift.Proofs.Listing.Functions

/-! Reading undoes writing. A listing that is written out for a tree of functions is read without a fault,
and what is filed are the functions of the tree, each after those in its pool. The induction is on the
bound of the reader: each level of nesting takes a line, so an entry with fewer lines than the bound is read
whatever it holds. -/

namespace Bytelift.Listing

open Text Run FeedM

/-! ## Functions -/

section FunctionLines

variable {fit : Matcher} {entry : Entry} {label : String} {g : Function} {bound : Nat} {feed : Feed}
  {functions : Functions} {wanted : Function → Feed → Prop} {more : List String}

theorem ne_end {line : String} {c : Char} (hc : c ∈ line.toList) (he : c ∉ "End SharedFunctionInfo".toList) :
    line ≠ "End SharedFunctionInfo" := by
  rintro rfl
  exact he hc

theorem yields_functionLines_step {line : String} {lines : List String} (hne : line ≠ "End SharedFunctionInfo")
    (h : Ahead feed (line :: lines) functions)
    (hw : ∀ t, Fresh t lines functions → Yields (functionLine fit entry label g line) t fun found u =>
      Yields (functionLines fit entry label bound found) u wanted) :
    Yields (functionLines fit entry label (bound + 1) g) feed wanted := by
  rw [functionLines, yields_bind]
  refine yields_next h fun t ht => ?_
  simp only [if_neg hne, yields_bind]
  exact hw t ht

theorem yields_functionLines_remarks (remarks : List Remark) (hb : remarks.length < bound)
    (h : Ahead feed (remarks.map Remark.text ++ "End SharedFunctionInfo" :: more) functions)
    (hw : ∀ t, Fresh t more functions → wanted g t) : Yields (functionLines fit entry label bound g) feed wanted := by
  induction remarks generalizing bound feed with
  | nil =>
    obtain ⟨bound, rfl⟩ := Nat.exists_eq_add_one_of_ne_zero (Nat.ne_zero_of_lt hb)
    rw [functionLines, yields_bind]
    exact yields_next h fun t ht => yields_pure.2 (hw t ht)
  | cons r rest ih =>
    obtain ⟨bound, rfl⟩ := Nat.exists_eq_add_one_of_ne_zero (Nat.ne_zero_of_lt hb)
    refine yields_functionLines_step r.inner h fun t ht => ?_
    have hmarks : ∀ mark ∈ leadingMarks ++ ["@    0 : ", "[SharedFunctionInfo]", "[BytecodeArray]"],
        mark ∈ leadingMarks ++ ["@    0 : ", "[SharedFunctionInfo]", "[BytecodeArray]", " @ "] := by decide
    exact yields_silentLine (fun mark hm => r.silent mark (hmarks mark hm)) (ih (by simpa using hb) ht.ahead)

/-- A function is read up to its last line. -/
theorem yields_functionLines_body (hfit : fit.Lawful) (f : Frame) {pool : List (Nat × Item)} {name : String}
    {declarer : Option String} (hlabel : label ≠ "") (hb : f.remarks.length + 7 ≤ bound)
    (hread : ReadsAll (entry (some (f.name label))) (f.name label) pool)
    (h : Ahead feed (f.body (size pool) (entryLines 0 pool) ++ more) functions) :
    Yields (functionLines fit entry label bound { name, declarer }) feed fun found t =>
      found = f.function label declarer (texts pool) ∧
        Fresh t more (filed functions (functionsOf (f.name label) pool)) := by
  obtain ⟨bound, rfl⟩ : ∃ b, bound = b + 6 := ⟨bound - 6, by omega⟩
  obtain ⟨line, lines, hlines, hline⟩ : ∃ line lines,
      f.remarks.map Remark.text ++ "End SharedFunctionInfo" :: more = line :: lines ∧ has line " @ " = false := by
    cases f.remarks with
    | nil => exact ⟨_, _, rfl, by decide⟩
    | cons r rest => exact ⟨_, _, rfl, r.silent _ (by simp)⟩
  have hbody : f.body (size pool) (entryLines 0 pool) ++ more =
      (f.address.text ++ ": [SharedFunctionInfo] in OldSpace") ::
      ("Parameter count " ++ toString f.parameters.value) :: ("Register count " ++ toString f.registers.value) ::
      ("Constant pool (size = " ++ toString (size pool) ++ ")") ::
      (Frame.poolLines (size pool) (entryLines 0 pool) ++
        ("Handler Table (size = " ++ toString f.handlers.length ++ ")") :: (handlerLines f.handlers ++
          f.start.line :: (f.rest.map Operation.line ++ line :: lines))) := by
    rw [← hlines]
    simp [Frame.body, Frame.code]
  rw [hbody] at h
  have hname : functionName label f.address.text = f.name label := by
    simp [functionName, Frame.name, hlabel]
  refine yields_functionLines_step (ne_end (c := ':') (by simp) (by decide)) h fun t₁ h₁ => ?_
  refine yields_addressLine hfit f.address ?_
  rw [hname]
  refine yields_functionLines_step (ne_end (c := 'P') (by simp) (by decide)) h₁.ahead fun t₂ h₂ => ?_
  refine yields_parameterLine hfit f.parameters ?_
  refine yields_functionLines_step (ne_end (c := 'R') (by simp) (by decide)) h₂.ahead fun t₃ h₃ => ?_
  refine yields_registerLine hfit f.registers ?_
  refine yields_functionLines_step (ne_end (c := '(') (by simp) (by decide)) h₃.ahead fun t₄ h₄ => ?_
  have hfollows : Follows (("Handler Table (size = " ++ toString f.handlers.length ++ ")") ::
      (handlerLines f.handlers ++ f.start.line :: (f.rest.map Operation.line ++ line :: lines))) := by
    refine ⟨_, _, rfl, fun he => ?_⟩
    have hmem : '(' ∈ ("Handler Table (size = " ++ toString f.handlers.length ++ ")").toList := by simp
    rw [he] at hmem
    exact absurd hmem (by decide)
  refine (yields_poolLine hfit hfollows hread h₄).mono ?_
  rintro _ t₅ ⟨rfl, h₅⟩
  refine yields_functionLines_step (ne_end (c := '(') (by simp) (by decide)) h₅ fun t₆ h₆ => ?_
  refine (yields_handlerLine hfit f h₆).mono ?_
  rintro _ t₇ ⟨rfl, h₇⟩
  refine yields_functionLines_step (ne_end (c := '@') (by simp [Operation.line]) (by decide)) h₇ fun t₈ h₈ => ?_
  refine (yields_codeLine f hline h₈).mono ?_
  rintro _ t₉ ⟨rfl, h₉⟩
  rw [← hlines] at h₉
  exact yields_functionLines_remarks f.remarks (by omega) h₉ fun t ht => ⟨rfl, ht⟩

/-- A function is read and filed, after those in its pool. Its first line may have been read before. -/
theorem yields_function (hfit : fit.Lawful) (f : Frame) {pool : List (Nat × Item)} {declarer : Option String}
    {start : List String} (hstart : start = [] ∨ start = ["Start SharedFunctionInfo"]) (hlabel : label ≠ "")
    (hread : ReadsAll (entry (some (f.name label))) (f.name label) pool)
    (h : Ahead feed (start ++ (f.body (size pool) (entryLines 0 pool) ++ more)) functions) :
    Yields (function fit register entry label declarer) feed fun found t => found = f.name label ∧
      Fresh t more (filed functions (functionsOf (f.name label) pool ++
        [f.function label declarer (texts pool)])) := by
  have hbound : f.remarks.length + 8 ≤ feed.bound := by
    have hlt := h.length_lt_bound
    simp only [Frame.body, Frame.code, List.length_append, List.length_cons, List.length_map, List.length_nil] at hlt
    omega
  have hlines : Yields (functionLines fit entry label feed.bound { name := "func_unknown", declarer }) feed
      fun found t => found = f.function label declarer (texts pool) ∧
        Fresh t more (filed functions (functionsOf (f.name label) pool)) := by
    rcases hstart with rfl | rfl
    · exact yields_functionLines_body hfit f hlabel (by omega) hread h
    · obtain ⟨bound, hb⟩ := Nat.exists_eq_add_one_of_ne_zero (show feed.bound ≠ 0 by omega)
      rw [hb] at hbound ⊢
      refine yields_functionLines_step (by decide) h fun t ht => ?_
      exact yields_silentLine (by decide) (yields_functionLines_body hfit f hlabel (by omega) hread ht.ahead)
  unfold function
  rw [yields_bind, yields_get, yields_bind]
  refine hlines.mono ?_
  rintro _ t ⟨rfl, ht⟩
  rw [yields_bind]
  unfold register
  rw [yields_modify]
  have hcomplete : (f.function label declarer (texts pool)).isComplete = true := rfl
  rw [if_pos hcomplete, yields_pure, filed_append]
  refine ⟨rfl, ht.rest, ?_⟩
  rw [ht.catalogue]
  rfl

end FunctionLines

/-! ## Entries -/

theorem length_lines_lt {i : Nat} {entries : List (Nat × Item)} {e : Nat × Item} (he : e ∈ entries) :
    e.2.lines.length < (entryLines i entries).length := by
  induction entries generalizing i with
  | nil => cases he
  | cons d rest ih =>
    rw [entryLines, List.length_cons, List.length_append]
    rcases List.mem_cons.1 he with rfl | he
    · omega
    · have hlt := ih (i := i + d.1 + 1) he
      omega

theorem mem_sizesOf {entries : List (Nat × Item)} {e : Nat × Item} (he : e ∈ entries) {n : Nat}
    (hn : n ∈ e.2.sizes) : n ∈ sizesOf entries := by
  induction entries with
  | nil => cases he
  | cons d rest ih =>
    rw [sizesOf, List.mem_append]
    rcases List.mem_cons.1 he with rfl | he
    · exact Or.inl hn
    · exact Or.inr (ih he)

theorem Frame.length_entryLines_le (f : Frame) (pool : List (Nat × Item)) :
    (entryLines 0 pool).length ≤ (f.body (size pool) (entryLines 0 pool)).length := by
  have hpool : (entryLines 0 pool).length ≤ (poolLines (size pool) (entryLines 0 pool)).length := by
    cases pool with
    | nil => simp [entryLines]
    | cons e rest => simp [poolLines]
  simp only [Frame.body, List.length_append]
  omega

section Lawful

variable {fit : Matcher} (hfit : fit.Lawful)
include hfit

/-- An entry is read with a bound above the number of its lines. -/
theorem reads_entryWithin {bound : Nat} {item : Item} (hb : item.lines.length < bound)
    (hsizes : ∀ n ∈ item.sizes, Short n) {declarer : String} {i extra : Nat} (hindex : Short (i + extra)) :
    Reads (entryWithin fit register bound (some declarer)) declarer i extra item := by
  induction bound generalizing item declarer i extra with
  | zero => exact absurd hb (Nat.not_lt_zero _)
  | succ bound ih =>
    intro feed more functions h hmore
    -- What the lists within the entry hold is shorter than the entry.
    have hinner {entries : List (Nat × Item)} (hl : (entryLines 0 entries).length ≤ bound)
        (hs : ∀ n ∈ size entries :: sizesOf entries, Short n) (outer : String) :
        ReadsAll (entryWithin fit register bound (some outer)) outer entries := by
      refine ⟨hs _ List.mem_cons_self, fun j e he hj => ?_⟩
      exact ih (Nat.lt_of_lt_of_le (length_lines_lt he) hl)
        (fun n hn => hs n (List.mem_cons_of_mem _ (mem_sizesOf he hn))) hj
    rw [entryWithin, yields_bind]
    refine yields_line (yields_next h fun t ht => ⟨rfl, ?_⟩)
    rw [yields_bind, constant_entryLine hindex, yields_ofExcept]
    refine ⟨_, rfl, ?_⟩
    cases item with
    | bare b => exact yields_pure.2 ⟨by rw [Item.text], ht.ahead⟩
    | string a text => exact yields_pure.2 ⟨by rw [Item.text], ht.ahead⟩
    | oddball a kind => exact yields_pure.2 ⟨by rw [Item.text], ht.ahead⟩
    | array a kind entries closed =>
      rw [Item.sizes] at hsizes
      rw [Item.lines, spelledOut] at hb
      simp only [List.length_append, List.length_cons] at hb
      change Yields (array _ _ >>= _) t _
      rw [yields_bind]
      refine (yields_array hfit hmore (hinner (by omega) hsizes declarer) ht.ahead).mono ?_
      rintro _ u ⟨rfl, hu⟩
      exact yields_pure.2 ⟨rfl, hu⟩
    | object a entries =>
      rw [Item.sizes] at hsizes
      rw [Item.lines, spelledOut] at hb
      simp only [List.length_append, List.length_cons] at hb
      change Yields (object _ _ >>= _) t _
      rw [yields_bind]
      refine (yields_object hfit (hinner (by omega) hsizes declarer) ht.ahead).mono ?_
      rintro _ u ⟨rfl, hu⟩
      exact yields_pure.2 ⟨rfl, hu⟩
    | function a label f pool =>
      rw [Item.sizes] at hsizes
      have hpool : (entryLines 0 pool).length ≤ bound := by
        rw [Item.lines, List.length_cons] at hb
        exact Nat.le_trans (f.length_entryLines_le pool) (by omega)
      change Yields (function _ _ _ label.text _ >>= _) t _
      rw [yields_bind]
      refine (yields_function hfit f (Or.inr rfl) label.nonempty (hinner hpool hsizes (f.name label.text))
        ht.ahead).mono ?_
      rintro _ u ⟨rfl, hu⟩
      rw [yields_pure, Item.text]
      exact ⟨rfl, hu.ahead⟩

theorem reads_entry {item : Item} (hsizes : ∀ n ∈ item.sizes, Short n) {declarer : String} {i extra : Nat}
    (hindex : Short (i + extra)) : Reads (FeedM.entry fit register (some declarer)) declarer i extra item := by
  intro feed more functions h hmore
  have hbound := h.length_lt_bound
  simp only [List.length_cons, List.length_append] at hbound
  unfold FeedM.entry
  rw [yields_bind, yields_get]
  exact reads_entryWithin hfit (by omega) hsizes hindex h hmore

/-! ## Listings -/

/-- The first line comes twice if a line was asked for again in what was read before. -/
theorem Tree.yields_listing (t : Tree) (hsizes : ∀ n ∈ t.sizes, Short n) (before : Catalogue) :
    Yields (listing fit register) { rest := t.lines, catalogue := before } fun _ u =>
      Fresh u [] (filed before.functions t.functions) := by
  rw [Tree.sizes, List.forall_mem_cons] at hsizes
  have hread : ReadsAll (FeedM.entry fit register (some (t.frame.name "start"))) (t.frame.name "start") t.pool :=
    ⟨hsizes.1, fun i e he hi => reads_entry hfit (fun n hn => hsizes.2 n (mem_sizesOf he hn)) hi⟩
  unfold listing
  rw [yields_bind, yields_get, yields_bind, seekStart, yields_bind]
  refine ⟨_, _, rfl, ?_⟩
  beta_reduce
  rw [if_pos rfl, yields_pure, yields_bind]
  obtain ⟨start, hstart, hahead⟩ : ∃ start, (start = [] ∨ start = ["Start SharedFunctionInfo"]) ∧
      Ahead
        { rest := t.frame.body (size t.pool) (entryLines 0 t.pool), last := some "Start SharedFunctionInfo",
          catalogue := before }
        (start ++ (t.frame.body (size t.pool) (entryLines 0 t.pool) ++ [])) before.functions := by
    obtain ⟨functions, _ | _⟩ := before
    · exact ⟨[], .inl rfl, .fresh ⟨by simp, rfl⟩⟩
    · exact ⟨["Start SharedFunctionInfo"], .inr rfl, .held rfl (by simp) rfl⟩
  refine (yields_function hfit t.frame hstart (by decide) hread hahead).mono ?_
  rintro _ v ⟨rfl, hv⟩
  exact yields_pure.2 hv

/-- **Reading undoes writing.** The listing of a tree whose lists can be counted is read without a fault,
whatever was read before it, and the functions of the tree are filed, each after those in its pool. -/
theorem Tree.read_text (t : Tree) (hsizes : ∀ n ∈ t.sizes, Short n) (before : Catalogue) :
    ∃ catalogue, read fit t.text before = .ok () catalogue ∧ catalogue.again = false ∧
      catalogue.functions = before.functions.putAll (t.functions.map fun f => (f.name, f)) ∧
      ((before.functions.keys ++ t.functions.map Function.name).Nodup →
        catalogue.functions.entries = before.functions.entries ++ t.functions.map fun f => (f.name, f)) := by
  obtain ⟨_, feed, hrun, hfeed⟩ := t.yields_listing hfit hsizes before
  have hread : read fit t.text before = .ok () feed.catalogue := by
    unfold read
    rw [Tree.text, Feed.ofText_join t.isLine_lines, hrun]
  refine ⟨feed.catalogue, hread, by rw [hfeed.catalogue], by rw [hfeed.catalogue]; rfl, fun hnames => ?_⟩
  rw [hfeed.catalogue]
  refine Table.putAll_of_nodup ?_
  rw [List.map_map]
  exact hnames

end Lawful

namespace Tree

/-! A function that guards its first instruction, with a repeated entry, an array whose last entry is an
object, and a function of its own. -/

def guardedFrame (address : Address) : Frame where
  address := address
  parameters := ⟨2, by decide⟩
  registers := ⟨1, by decide⟩
  handlers := [⟨⟨0, by decide⟩, ⟨2, by decide⟩, ⟨2, by decide⟩, "prediction=0, data=1)", isLine_of_decide (by decide)⟩]
  distinct := by decide
  start := ⟨address, ⟨0, by decide⟩, [⟨'0', 'b', by decide⟩, ⟨'0', '3', by decide⟩], by simp, "Ldar a0",
    isLine_of_decide (by decide), by decide⟩
  atZero := rfl
  unmarked := show ∀ mark ∈ leadingMarks, has "Ldar a0" mark = false by decide
  noHandler := fun _ => show has (" " ++ "Ldar a0") " -> " = false by decide
  rest := [⟨address, ⟨2, by decide⟩, [⟨'A', '9', by decide⟩], by simp, "Return",
  isLine_of_decide (by decide), by decide⟩]
  remarks := [⟨"Source Position Table (size = 0)", isLine_of_decide (by decide), by decide, by decide⟩]

def nestedTree : Tree :=
  let one : Address := ⟨['1'], by decide, List.all_eq_true.1 (by decide)⟩
  let two : Address := ⟨['2', 'f'], by decide, List.all_eq_true.1 (by decide)⟩
  { frame := guardedFrame one
    pool := [
      (1, .string one ⟨"Hello ", by decide⟩),
      (0, .array two .fixed [
        (0, .bare ⟨"-3", by decide, by decide, by decide⟩),
        (0, .object two [(0, .bare ⟨"2", by decide, by decide, by decide⟩), (1, .oddball one ⟨"null", by decide⟩)])]
          false),
      (0, .function two ⟨"g", by decide, by decide, by simp⟩ (guardedFrame two) [(0, .array one .boilerplate [] true)])]
        }

theorem read_text_nestedTree : (∀ n ∈ nestedTree.sizes, Short n) ∧
    ∃ catalogue, read Format.fit? nestedTree.text { again := true } = .ok () catalogue ∧ catalogue.again = false ∧
      catalogue.functions.entries = nestedTree.functions.map (fun f => (f.name, f)) ∧
      nestedTree.functions.map (fun f => (f.name, f.pool)) =
        [("func_g_0x2f", some ["[]"]),
          ("func_start_0x1", some ["\"Hello \"", "\"Hello \"", "[-3, \x7bnull: null\x7d]", "func_g_0x2f"])] := by
  have hsizes : ∀ n ∈ nestedTree.sizes, Short n := by decide
  refine ⟨hsizes, ?_⟩
  obtain ⟨catalogue, hread, hagain, _, hentries⟩ := nestedTree.read_text Format.fit?_lawful hsizes { again := true }
  exact ⟨catalogue, hread, hagain, hentries (by decide), by decide⟩

end Tree

/-! An instruction that begins like a byte is not read as it was written: its first word goes to the opcode. -/

def byteLikeLines : List String := ["Start SharedFunctionInfo", "0x1: [SharedFunctionInfo] in OldSpace",
  "Parameter count 1", "Register count 0", "Constant pool (size = 0)", "Handler Table (size = 0)",
  "0x2 @    0 : 0b ad r0", "Trailer", "End SharedFunctionInfo"]

/-- The opcodes and the instructions of the functions that were read. -/
def Catalogue.codes (catalogue : Catalogue) : List (List (String × String)) :=
  catalogue.functions.values.map fun f => f.lines.map fun l => (l.opcode, l.instruction)

/-- The codes of a listing, unless there is a fault in it. -/
def codesRead (text : String) : Option (List (List (String × String))) :=
  match read Format.fit? text {} with
  | .ok _ catalogue => some catalogue.codes
  | .error _ _ => none

theorem codesRead_join {lines : List String} (h : ∀ l ∈ lines, IsLine l) :
    codesRead (String.join (lines.map (· ++ "\n"))) =
      match FeedM.listing Format.fit? FeedM.register { rest := lines } with
      | .ok _ feed => some feed.catalogue.codes
      | .error _ _ => none := by
  unfold codesRead read
  rw [Feed.ofText_join h]
  cases FeedM.listing Format.fit? FeedM.register { rest := lines } <;> rfl

theorem codesRead_byteLikeLines :
    codesRead (String.join (byteLikeLines.map (· ++ "\n"))) = some [[("0b ad ", "r0")]] := by
  have hlines : ∀ l ∈ byteLikeLines, Unbroken l ∧ Opens l ∧ Closes l := by decide
  rw [codesRead_join fun l hl => isLine_of_decide (hlines l hl)]
  decide +kernel

end Bytelift.Listing
