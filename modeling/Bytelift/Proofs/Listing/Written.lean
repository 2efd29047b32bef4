import Bytelift.Proofs.Listing.Text

/-! What the parts of a listing are made of. Every line of a listing that is written out is a single line,
with no blanks around it. -/

namespace Bytelift.Listing

open Text

/-! ## Digits -/

def addressChars : List Char := "x0123456789abcdefABCDEF".toList

theorem mem_addressChars {c : Char} (h : isHexDigit c = true) : c ∈ addressChars := by
  have hbound : c.toNat < 128 := by
    simp only [isHexDigit, Bool.or_eq_true, Bool.and_eq_true, decide_eq_true_eq, Char.le_def] at h
    have hz : c.val ≤ 'f'.val := by
      rcases h with (h | h) | h
      · exact Nat.le_trans h.2 (by decide)
      · exact h.2
      · exact Nat.le_trans h.2 (by decide)
    exact Nat.lt_of_le_of_lt hz (by decide)
  have htable : ∀ n < 128, isHexDigit (Char.ofNat n) = true → Char.ofNat n ∈ addressChars := by decide
  rw [← Char.ofNat_toNat c] at h ⊢
  exact htable c.toNat hbound h

namespace Address

theorem toList_text (a : Address) : a.text.toList = '0' :: 'x' :: a.digits := String.toList_ofList

theorem mem_chars {a : Address} {c : Char} (hc : c ∈ a.text.toList) : c ∈ addressChars := by
  rw [toList_text, List.mem_cons, List.mem_cons] at hc
  rcases hc with rfl | rfl | hc
  · decide
  · decide
  · exact mem_addressChars (a.hexadecimal c hc)

end Address

/-! ## Numbers -/

theorem opens_toString (n : Nat) : Opens (toString n) := by
  obtain ⟨c, cs, hs⟩ := List.exists_cons_of_ne_nil (toList_toString_ne_nil n)
  have hc : c ∈ (toString n).toList := hs ▸ List.mem_cons_self
  exact ⟨c, by rw [hs]; rfl, isBlank_of_isDigit (isDigit_of_mem_toString hc)⟩

theorem closes_toString (n : Nat) : Closes (toString n) := by
  obtain ⟨c, hs⟩ := List.getLast?_isSome.2 (toList_toString_ne_nil n) |> Option.isSome_iff_exists.1
  exact ⟨c, hs, isBlank_of_isDigit (isDigit_of_mem_toString (List.mem_of_getLast? hs))⟩

theorem toList_column (n : Nat) :
    (column n).toList = List.replicate (4 - (toString n).length) ' ' ++ (toString n).toList := by
  simp [column]

theorem mem_addressChars_of_isDigit {c : Char} (h : c.isDigit = true) : c ∈ addressChars := by
  have hbounds : '0' ≤ c ∧ c ≤ '9' := by simpa [Char.isDigit, Char.le_def] using h
  exact mem_addressChars (by simp [isHexDigit, hbounds])

theorem mem_chars_of_mem_column {n : Nat} {c : Char} (hc : c ∈ (column n).toList) : c ∈ ' ' :: addressChars := by
  rw [toList_column, List.mem_append] at hc
  rcases hc with hc | hc
  · rw [List.eq_of_mem_replicate hc]
    exact List.mem_cons_self
  · exact List.mem_cons_of_mem _ (mem_addressChars_of_isDigit (isDigit_of_mem_toString hc))

theorem column_ne_nil (n : Nat) : (column n).toList ≠ [] := by
  simp [toList_column]

/-! ## Lines -/

theorem Address.unbroken (a : Address) : Unbroken a.text := by
  have hchars : ∀ c ∈ addressChars, c ≠ '\n' ∧ c ≠ '\r' := forall_mem_of_all (by decide)
  intro c hc
  exact hchars c (mem_chars hc)

theorem Address.opens (a : Address) : Opens a.text := ⟨'0', by simp [toList_text], by decide⟩

theorem unbroken_column (n : Nat) : Unbroken (column n) := by
  have hchars : ∀ c ∈ ' ' :: addressChars, c ≠ '\n' ∧ c ≠ '\r' := forall_mem_of_all (by decide)
  intro c hc
  exact hchars c (mem_chars_of_mem_column hc)

theorem Operation.isLine_line (o : Operation) : IsLine o.line where
  unbroken := by
    have hopcode : Unbroken o.opcode := by
      have hchars : ∀ c ∈ addressChars, c ≠ '\n' ∧ c ≠ '\r' := forall_mem_of_all (by decide)
      intro c hc
      rw [Operation.opcode, String.toList_ofList, List.mem_flatMap] at hc
      obtain ⟨b, _, hc⟩ := hc
      simp only [Byte.chars, List.mem_cons, List.not_mem_nil, or_false] at hc
      rcases hc with rfl | rfl | rfl
      · exact hchars _ (mem_addressChars b.hexadecimal.1)
      · exact hchars _ (mem_addressChars b.hexadecimal.2)
      · decide
    exact ((((o.address.unbroken.append (by decide)).append (unbroken_column _)).append (by decide)).append
      hopcode).append o.isLine.unbroken
  opens := ((((o.address.opens.append _).append _).append _).append _).append _
  closes := o.isLine.closes.append _

theorem Handler.isLine_line (h : Handler) : IsLine h.line where
  unbroken :=
    ((((((Unbroken.append (by decide) (unbroken_column _)).append (by decide)).append (unbroken_column _)).append
      (by decide)).append (Unbroken.append (by decide) (unbroken_column _))).append (by decide)).append
        h.isLine.unbroken
  opens := (((((((show Opens "(" by decide).append _).append _).append _).append _).append _).append _).append _
  closes := h.isLine.closes.append _

theorem isLine_count {opening : String} (hu : Unbroken opening) (ho : Opens opening) (n : Nat) :
    IsLine (opening ++ toString n) :=
  ⟨hu.append (unbroken_toString n), ho.append _, (closes_toString n).append _⟩

theorem IsLine.append {s t : String} (h : IsLine s) (hu : Unbroken t) (hc : Closes t) : IsLine (s ++ t) :=
  ⟨h.unbroken.append hu, h.opens.append t, hc.append s⟩

theorem isLine_of_decide {s : String} (h : Unbroken s ∧ Opens s ∧ Closes s) : IsLine s := ⟨h.1, h.2.1, h.2.2⟩

theorem isLine_handlerLines (handlers : List Handler) : ∀ l ∈ handlerLines handlers, IsLine l := by
  unfold handlerLines
  split
  · simp
  · rw [List.forall_mem_cons, List.forall_mem_map]
    exact ⟨isLine_of_decide (by decide), fun h _ => h.isLine_line⟩

/-- The lines of a function, if those of its pool are lines. -/
theorem Frame.isLine_body (f : Frame) (size : Nat) {entries : List String} (h : ∀ l ∈ entries, IsLine l) :
    ∀ l ∈ f.body size entries, IsLine l := by
  have hpool : ∀ l ∈ poolLines size entries, IsLine l := by
    unfold poolLines
    split
    · simp
    · rw [List.forall_mem_cons]
      exact ⟨isLine_count (by decide) (by decide) size, h⟩
  simp only [Frame.body, List.forall_mem_append, List.forall_mem_cons, List.forall_mem_map, List.not_mem_nil,
    false_imp_iff, implies_true, and_true]
  refine ⟨⟨⟨f.address.unbroken.append (by decide), f.address.opens.append _, Closes.append _ (by decide)⟩, ?_, ?_, ?_⟩,
    ⟨⟨⟨⟨hpool, ?_⟩, isLine_handlerLines _⟩, fun o _ => o.isLine_line⟩, fun r _ => r.isLine⟩, ?_⟩
  · exact isLine_count (by decide) (by decide) _
  · exact isLine_count (by decide) (by decide) _
  · exact (isLine_count (by decide) (by decide) _).append (by decide) (by decide)
  · exact (isLine_count (by decide) (by decide) _).append (by decide) (by decide)
  · exact isLine_of_decide (by decide)

theorem isLine_spelledOut {what : String} (hu : Unbroken what) (hc : Closes what) (size : Nat)
    {entries : List String} (h : ∀ l ∈ entries, IsLine l) : ∀ l ∈ spelledOut what size entries, IsLine l := by
  simp only [spelledOut, List.forall_mem_append, List.forall_mem_cons, List.not_mem_nil, false_imp_iff,
    implies_true, and_true]
  refine ⟨⟨Unbroken.append (by decide) hu, Opens.append (by decide) _, hc.append _⟩,
    isLine_count (by decide) (by decide) size, h,
    ⟨Unbroken.append (by decide) hu, Opens.append (by decide) _, hc.append _⟩⟩

theorem unbroken_kept (a : Address) {what : String} (h : Unbroken what) : Unbroken (kept a what) :=
  (a.unbroken.append (by decide)).append h

theorem Item.unbroken_description (item : Item) : Unbroken item.description := by
  cases item with
  | bare b => exact b.unbroken
  | string a text =>
    exact unbroken_kept a ((((Unbroken.append (by decide) (unbroken_toString _)).append (by decide)).append
      (by decide)).append (text.unbroken.append (by decide)))
  | oddball a kind => exact unbroken_kept a ((Unbroken.append (by decide) kind.unbroken).append (by decide))
  | array a kind entries closed =>
    have hname : Unbroken kind.name := by cases kind <;> decide
    exact unbroken_kept a ((((Unbroken.append (by decide) hname).append (by decide)).append
      (unbroken_toString _)).append (by decide))
  | object a entries =>
    exact unbroken_kept a ((Unbroken.append (by decide) (unbroken_toString _)).append (by decide))
  | function a label frame pool =>
    exact unbroken_kept a ((Unbroken.append (by decide) (by decide)).append (label.unbroken.append (by decide)))

theorem Item.closes_description (item : Item) : Closes item.description := by
  have hclose : Closes ">" ∧ Closes "]>" := by decide
  cases item with
  | bare b => exact b.closes
  | string a text => exact Closes.append _ (Closes.append _ (Closes.append _ hclose.1))
  | oddball a kind => exact Closes.append _ (Closes.append _ hclose.1)
  | array a kind entries closed => exact Closes.append _ (Closes.append _ hclose.2)
  | object a entries => exact Closes.append _ (Closes.append _ hclose.2)
  | function a label frame pool => exact Closes.append _ (Closes.append _ (Closes.append _ hclose.1))

theorem isLine_entryLine (i extra : Nat) (item : Item) : IsLine (entryLine i extra item) := by
  have hindex : Unbroken (indexText i extra) ∧ Opens (indexText i extra) := by
    unfold indexText
    split
    · exact ⟨unbroken_toString i, opens_toString i⟩
    · exact ⟨((unbroken_toString i).append (by decide)).append (unbroken_toString _),
        ((opens_toString i).append _).append _⟩
  exact ⟨(hindex.1.append (by decide)).append item.unbroken_description, (hindex.2.append _).append _,
    item.closes_description.append _⟩

mutual

theorem Item.isLine_lines : ∀ (item : Item), ∀ l ∈ item.lines, IsLine l
  | .bare _ | .string _ _ | .oddball _ _ => by simp [Item.lines]
  | .array a kind entries closed => by
    have hname : Unbroken kind.name ∧ Closes kind.name := by cases kind <;> decide
    rw [Item.lines, List.forall_mem_append]
    refine ⟨isLine_spelledOut hname.1 hname.2 _ (isLine_entryLines 0 entries), ?_⟩
    cases closed with
    | false => simp
    | true => simpa using isLine_of_decide (by decide)
  | .object a entries => by
    rw [Item.lines]
    exact isLine_spelledOut (by decide) (by decide) _ (isLine_entryLines 0 entries)
  | .function a label frame pool => by
    rw [Item.lines, List.forall_mem_cons]
    exact ⟨isLine_of_decide (by decide), frame.isLine_body _ (isLine_entryLines 0 pool)⟩

theorem isLine_entryLines : ∀ (i : Nat) (entries : List (Nat × Item)), ∀ l ∈ entryLines i entries, IsLine l
  | _, [] => by simp [entryLines]
  | i, (extra, item) :: rest => by
    rw [entryLines, List.forall_mem_cons, List.forall_mem_append]
    exact ⟨isLine_entryLine i extra item, item.isLine_lines, isLine_entryLines _ rest⟩

end

theorem Tree.isLine_lines (t : Tree) : ∀ l ∈ t.lines, IsLine l := by
  rw [Tree.lines, List.forall_mem_cons]
  exact ⟨isLine_of_decide (by decide), t.frame.isLine_body _ (isLine_entryLines 0 t.pool)⟩

end Bytelift.Listing
