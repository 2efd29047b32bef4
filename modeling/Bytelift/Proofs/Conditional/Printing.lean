import Bytelift.Proofs.Brace.Text
import Bytelift.Proofs.Conditional.Layout

/-! The texts of a program. Before any conditional is laid out, its lines read as the instructions do; once all
are, its lines read as the program is printed, but for empty lines. -/

namespace Bytelift

open Run Text Instruction

/-! ## The lines that a text shows -/

def shownLines (text : String) : List String := (split text "\n").filter (· ≠ "")

theorem shownLines_append {x h : String} (hx : x = "\n" ++ h) (t : String) :
    shownLines (t ++ x) = shownLines t ++ shownLines h := by
  unfold shownLines
  rw [split_append hx, List.filter_append]

theorem CodeLine.shown_unfold (line : CodeLine) :
    (line.unfold.map (·.rendered)).filter (· ≠ "") = shownLines line.rendered := by
  obtain ⟨first, more, hs⟩ := List.exists_cons_of_ne_nil (split_ne_nil line.rendered)
  have hadded : ((more.filter (· ≠ "")).map CodeLine.added).map (·.rendered) =
      more.filter (· ≠ "") := by
    rw [List.map_map]
    exact List.map_id _
  unfold CodeLine.unfold shownLines
  rw [hs]
  dsimp only
  rw [List.map_cons, hadded, List.filter_cons, List.filter_cons, List.filter_filter]
  simp

theorem shown_unfoldCode (code : List CodeLine) :
    ((unfoldCode code).map (·.rendered)).filter (· ≠ "") =
      "\x7b" :: (code.flatMap (fun line => shownLines line.rendered) ++ ["\x7d"]) := by
  have hinner : ((code.flatMap CodeLine.unfold).map (·.rendered)).filter (· ≠ "") =
      code.flatMap fun line => shownLines line.rendered := by
    induction code with
    | nil => rfl
    | cons line code ih =>
      rw [List.flatMap_cons, List.map_append, List.filter_append, line.shown_unfold, ih]
      rfl
  unfold unfoldCode
  rw [List.map_cons, List.map_append, List.filter_cons_of_pos (by simp [CodeLine.added]),
    List.filter_append, hinner]
  rfl

/-! ## What a line reads as -/

namespace Instruction

theorem Form.ReadsAs.unique {operands : List String} {text other : String} {form : Form}
    (h : form.ReadsAs operands text) (h' : form.ReadsAs operands other) : text = other := by
  cases form with
  | statement parts => exact Except.ok.inj (h.symm.trans h')
  | jump kind shown => exact h.trans h'.symm
  | cases => exact h.trans h'.symm
  | intrinsic => exact Except.ok.inj (h.symm.trans h')

/-- The only thing that a line is rendered as. -/
def Settles (line result : CodeLine) : Prop := ∀ other, Renders line other → other = result

theorem settles_of_form {line : CodeLine} {text : String} {form : Form}
    (hf : form? (operator line) = some form) (hr : form.ReadsAs (operands line) text) :
    Settles line (line.reading text) := by
  intro other ho
  obtain ⟨shown, hs, rfl⟩ := ho
  rw [(hs form hf).unique hr]
  rfl

theorem eq_of_settles {code rendered lines : List CodeLine} (hr : List.Forall₂ Renders code rendered)
    (hl : List.Forall₂ Settles code lines) : rendered = lines := by
  induction hr generalizing lines with
  | nil =>
    cases hl
    rfl
  | cons hr _ ih =>
    cases hl with
    | cons hs hl => rw [hs _ hr, ih hl]

end Instruction

/-! ## Closing blocks on a statement -/

theorem Instruction.States.close {line : CodeLine} {text : String} (h : States line text) (k : Nat) :
    '\x7b' ∉ (closeText^[k] text).toList ∧
      shownLines (closeText^[k] text) = text :: List.replicate k "\x7d" := by
  induction k with
  | zero =>
    refine ⟨h.plain _ (by simp), ?_⟩
    rw [Function.iterate_zero_apply, shownLines, split_of_notMem (h.plain _ (by simp))]
    simp [h.filled]
  | succ k ih =>
    obtain ⟨hbrace, hshown⟩ := ih
    have hhas : has (closeText^[k] text) "\x7b" = false := has_of_notMem (by decide) hbrace
    have hclose : closeText (closeText^[k] text) = closeText^[k] text ++ FlowM.blockEnd := by
      simp [closeText, hhas]
    rw [Function.iterate_succ_apply', hclose]
    refine ⟨?_, ?_⟩
    · rw [String.toList_append, List.mem_append, not_or]
      exact ⟨hbrace, by decide⟩
    · rw [shownLines_append (by decide : FlowM.blockEnd = "\n" ++ "\x7d\n"), hshown, List.replicate_succ',
        List.cons_append]
      rfl

namespace Source

/-- The lines of a program as its instructions read, with a number of blocks closed on the last one. -/
def lines : Source → Nat → List CodeLine
  | .simple line text, k => [line.reading (closeText^[k] text)]
  | .when test body, k => test.reading "if (!ACCU)" :: body.lines k
  | .either test first skip second, k =>
    test.reading "if (!ACCU)" :: (first.lines 0 ++ skip.reading "" :: second.lines k)
  | .seq first second, k => first.lines 0 ++ second.lines k

/-- The lines of a program with all its conditionals laid out. -/
def laid : Source → Nat → List CodeLine
  | .simple line text, k => [line.reading (closeText^[k] text)]
  | .when test body, k => test.reading (openText "if (!ACCU)") :: body.laid (k + 1)
  | .either test first skip second, k => test.reading (openText "if (!ACCU)") ::
      (first.laid 0 ++ skip.reading (elseText "") :: second.laid (k + 1))
  | .seq first second, k => first.laid 0 ++ second.laid k

@[simp] theorem offsets_lines (p : Source) (k : Nat) : offsetsOf (p.lines k) = offsetsOf p.code := by
  induction p generalizing k with
  | simple line text => rfl
  | when test body ih =>
    have hbody := ih k
    simp only [offsetsOf, lines, code, List.map_cons] at hbody ⊢
    rw [hbody]
    rfl
  | either test first skip second ih ih' =>
    have hfirst := ih 0
    have hsecond := ih' k
    simp only [offsetsOf, lines, code, List.map_cons, List.map_append, List.cons_append] at hfirst hsecond ⊢
    rw [hfirst, hsecond]
    rfl
  | seq first second ih ih' =>
    have hfirst := ih 0
    have hsecond := ih' k
    simp only [offsetsOf, lines, code, List.map_append] at hfirst hsecond ⊢
    rw [hfirst, hsecond]

@[simp] theorem offsets_laid (p : Source) (k : Nat) : offsetsOf (p.laid k) = offsetsOf p.code := by
  induction p generalizing k with
  | simple line text => rfl
  | when test body ih =>
    have hbody := ih (k + 1)
    simp only [offsetsOf, laid, code, List.map_cons] at hbody ⊢
    rw [hbody]
    rfl
  | either test first skip second ih ih' =>
    have hfirst := ih 0
    have hsecond := ih' (k + 1)
    simp only [offsetsOf, laid, code, List.map_cons, List.map_append, List.cons_append] at hfirst hsecond ⊢
    rw [hfirst, hsecond]
    rfl
  | seq first second ih ih' =>
    have hfirst := ih 0
    have hsecond := ih' k
    simp only [offsetsOf, laid, code, List.map_append] at hfirst hsecond ⊢
    rw [hfirst, hsecond]

/-- Around a program, a conditional closes a block on its last line. -/
theorem map_edit_lines {p : Source} {s : Span} (hn : (offsetsOf p.code).Nodup)
    (hs : ∀ o ∈ s.own, o ∉ offsetsOf p.code) (hc : s.close = p.last) (k : Nat) :
    (p.lines k).map s.edit = p.lines (k + 1) := by
  have hline : ∀ (line : CodeLine) (text : String), line.offset ∉ s.own → line.offset ≠ s.close →
      s.edit (line.reading text) = line.reading text := by
    intro line text hown hne
    rw [Span.edit_reading, Span.change_of_notMem (by simp [Span.places, hown, hne])]
    rfl
  -- what comes before the last line is not closed
  have hkeep : ∀ (q : Source) (k : Nat), (∀ o ∈ offsetsOf q.code, o ∉ s.own ∧ o ≠ s.close) →
      (q.lines k).map s.edit = q.lines k := by
    intro q k hq
    refine Span.map_edit_of_notMem fun o ho hm => ?_
    rw [offsets_lines] at hm
    rcases List.mem_cons.1 ho with he | ho
    · exact (hq o hm).2 he
    · exact (hq o hm).1 ho
  induction p generalizing k with
  | simple line text =>
    have hown : line.offset ∉ s.own := fun hm => hs _ hm (by simp)
    have hclose : line.offset = s.close := hc.symm
    simp only [lines, List.map_cons, List.map_nil, Span.edit_reading, Span.change_of_notMem_own hown,
      if_pos hclose, Function.iterate_succ_apply']
  | when test body ih =>
    rw [offsets_when, List.nodup_cons] at hn
    simp only [offsets_when, List.mem_cons, not_or] at hs
    have hne : test.offset ≠ s.close := fun he => hn.1 (he.trans hc ▸ body.last_mem)
    rw [lines, List.map_cons, ih hn.2 (fun o ho => (hs o ho).2) hc k,
      hline _ _ (fun hm => (hs _ hm).1 rfl) hne]
    rfl
  | either test first skip second _ ih =>
    rw [offsets_either, List.nodup_cons, List.nodup_append, List.nodup_cons] at hn
    obtain ⟨htest, _, ⟨hskip, hsecond⟩, hdisjoint⟩ := hn
    simp only [List.mem_append, List.mem_cons, not_or] at htest
    simp only [offsets_either, List.mem_cons, List.mem_append, not_or] at hs
    have hlast : s.close ∈ offsetsOf second.code := hc ▸ second.last_mem
    have hfirst := hkeep first 0 fun o ho => ⟨fun hm => (hs o hm).2.1 ho,
      hdisjoint o ho _ (List.mem_cons_of_mem _ hlast)⟩
    rw [lines, List.map_cons, List.map_append, List.map_cons, hfirst,
      ih hsecond (fun o ho => (hs o ho).2.2.2) hc k,
      hline _ _ (fun hm => (hs _ hm).1 rfl) fun he => htest.2.2 (he ▸ hlast),
      hline _ _ (fun hm => (hs _ hm).2.2.1 rfl) fun he => hskip (he ▸ hlast)]
    rfl
  | seq first second _ ih =>
    rw [offsets_seq, List.nodup_append] at hn
    simp only [offsets_seq, List.mem_append, not_or] at hs
    have hfirst := hkeep first 0 fun o ho => ⟨fun hm => (hs o hm).1 ho,
      fun he => hn.2.2 o ho _ second.last_mem (he.trans hc)⟩
    rw [lines, List.map_append, hfirst, ih hn.2.1 (fun o ho => (hs o ho).2) hc k]
    rfl

/-- A program leaves the lines of another alone. -/
theorem editAll_of_disjoint {p : Source} {code : List CodeLine}
    (h : ∀ o ∈ offsetsOf p.code, o ∉ offsetsOf code) : Span.editAll p.spans code = code :=
  Span.editAll_of_notMem fun s hs o ho => h o (p.places_mem s hs o ho)

/-- Laid out one after the other, the conditionals of a program give all of it laid out. -/
theorem editAll_lines {p : Source} (hn : (offsetsOf p.code).Nodup) (k : Nat) :
    Span.editAll p.spans (p.lines k) = p.laid k := by
  induction p generalizing k with
  | simple line text => rfl
  | when test body ih =>
    rw [offsets_when, List.nodup_cons] at hn
    have hbody := @map_edit_lines body ⟨test.offset, none, body.last⟩ hn.2 (by
      intro o ho
      rw [List.mem_singleton.1 ho]
      exact hn.1) rfl k
    have hopen : Span.change ⟨test.offset, none, body.last⟩ test.offset = openText := if_pos rfl
    have htest := @editAll_of_disjoint body [test.reading (openText "if (!ACCU)")] (by
      intro o ho hm
      rw [List.mem_singleton.1 hm] at ho
      exact hn.1 ho)
    change Span.editAll body.spans ((test.reading _ :: body.lines k).map _) = _
    rw [List.map_cons, hbody, Span.edit_reading, hopen, ← List.singleton_append, Span.editAll_lines,
      htest, ih hn.2 (k + 1)]
    rfl
  | either test first skip second ih ih' =>
    rw [offsets_either, List.nodup_cons, List.nodup_append, List.nodup_cons] at hn
    obtain ⟨htest, hfirst, ⟨hskip, hsecond⟩, hdisjoint⟩ := hn
    simp only [List.mem_append, List.mem_cons, not_or] at htest
    have hown : ∀ o ∈ Span.own ⟨test.offset, some skip.offset, second.last⟩,
        o ∉ offsetsOf first.code ∧ o ∉ offsetsOf second.code := by
      intro o ho
      simp only [Span.own, Option.toList_some, List.mem_cons, List.not_mem_nil, or_false] at ho
      rcases ho with rfl | rfl
      · exact ⟨htest.1, htest.2.2⟩
      · exact ⟨fun hm => hdisjoint _ hm _ List.mem_cons_self rfl, hskip⟩
    -- what the conditional itself writes
    have hopen : Span.change ⟨test.offset, some skip.offset, second.last⟩ test.offset = openText := if_pos rfl
    have hsplit : Span.change ⟨test.offset, some skip.offset, second.last⟩ skip.offset = elseText := by
      rw [Span.change, if_neg (Ne.symm htest.2.1), if_pos rfl]
    have hthen := @Span.map_edit_of_notMem ⟨test.offset, some skip.offset, second.last⟩ (first.lines 0) (by
      intro o ho hm
      rw [offsets_lines] at hm
      rcases List.mem_cons.1 ho with he | ho
      · exact hdisjoint o hm _ (List.mem_cons_of_mem _ second.last_mem) he
      · exact (hown o ho).1 hm)
    have helse := @map_edit_lines second ⟨test.offset, some skip.offset, second.last⟩ hsecond
      (fun o ho => (hown o ho).2) rfl k
    -- what those inside it leave alone
    have hjumps : ∀ (p : Source) (text shown : String), test.offset ∉ offsetsOf p.code →
        skip.offset ∉ offsetsOf p.code → Span.editAll p.spans [test.reading text] = [test.reading text] ∧
          Span.editAll p.spans [skip.reading shown] = [skip.reading shown] := by
      intro p text shown ht hs
      refine ⟨editAll_of_disjoint fun o ho hm => ?_, editAll_of_disjoint fun o ho hm => ?_⟩
      · rw [List.mem_singleton.1 hm] at ho
        exact ht ho
      · rw [List.mem_singleton.1 hm] at ho
        exact hs ho
    obtain ⟨htest1, hskip1⟩ := hjumps first (openText "if (!ACCU)") (elseText "") htest.1
      fun hm => hdisjoint _ hm _ List.mem_cons_self rfl
    obtain ⟨htest2, hskip2⟩ := hjumps second (openText "if (!ACCU)") (elseText "") htest.2.2 hskip
    have hsecond1 := @editAll_of_disjoint first (second.lines (k + 1)) (by
      intro o ho hm
      rw [offsets_lines] at hm
      exact hdisjoint o ho o (List.mem_cons_of_mem _ hm) rfl)
    have hfirst2 := @editAll_of_disjoint second (first.laid 0) (by
      intro o ho hm
      rw [offsets_laid] at hm
      exact hdisjoint o hm o (List.mem_cons_of_mem _ ho) rfl)
    change Span.editAll (first.spans ++ second.spans)
      ((test.reading _ :: (first.lines 0 ++ skip.reading _ :: second.lines k)).map _) = _
    rw [List.map_cons, List.map_append, List.map_cons, Span.edit_reading, Span.edit_reading, hopen, hsplit,
      hthen, helse, Span.editAll_append, ← List.singleton_append, ← @List.singleton_append _ (skip.reading _)]
    simp only [Span.editAll_lines, htest1, htest2, hskip1, hskip2, hsecond1, hfirst2, ih hfirst 0,
      ih' hsecond (k + 1)]
    rfl
  | seq first second ih ih' =>
    rw [offsets_seq, List.nodup_append] at hn
    have hsecond := @editAll_of_disjoint first (second.lines k) (by
      intro o ho hm
      rw [offsets_lines] at hm
      exact hn.2.2 o ho o hm rfl)
    have hfirst := @editAll_of_disjoint second (first.laid 0) (by
      intro o ho hm
      rw [offsets_laid] at hm
      exact hn.2.2 o hm o ho rfl)
    rw [spans, lines, Span.editAll_append, Span.editAll_lines, ih hn.1 0, hsecond, Span.editAll_lines,
      hfirst, ih' hn.2.1 k]
    rfl

theorem shown_openText : shownLines (openText "if (!ACCU)") = ["if (ACCU)", "\x7b"] := by decide

theorem shown_elseText : shownLines (elseText "") = ["\x7d", "else", "\x7b"] := by decide

/-- Laid out, a program shows what it is printed as, and then the ends of the blocks that end with it. -/
theorem shown_laid {p : Source} {exit : Offset} (h : p.Compiled exit) (k : Nat) :
    (p.laid k).flatMap (fun line => shownLines line.rendered) = p.printed ++ List.replicate k "\x7d" := by
  induction p generalizing exit k with
  | simple line text =>
    have hshown := (h.close k).2
    simpa [laid, printed, CodeLine.reading] using hshown
  | when test body ih =>
    rw [laid, List.flatMap_cons, ih h.2, List.replicate_succ, printed]
    simp [CodeLine.reading, shown_openText]
  | either test first skip second ih ih' =>
    rw [laid, List.flatMap_cons, List.flatMap_append, List.flatMap_cons, ih h.2.1, ih' h.2.2.2,
      List.replicate_succ, printed]
    simp [CodeLine.reading, shown_openText, shown_elseText]
  | seq first second ih ih' =>
    rw [laid, List.flatMap_append, ih h.1, ih' h.2, printed]
    simp

end Source

end Bytelift
