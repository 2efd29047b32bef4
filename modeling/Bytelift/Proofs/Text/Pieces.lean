import Bytelift.Text.Scan

/-! Texts in pieces. Most recognisers do not look back at what stands before a piece; the pieces of a text are
then those of its parts, as long as no piece reaches from one part into the next. -/

namespace Bytelift.Text

variable {α : Type}

/-- A recogniser that does not look back, and that leaves what follows the piece it claims. -/
structure Forward (r : Recogniser α) : Prop where
  blind : ∀ before s, r before s = r none s
  leaves : ∀ {c cs a rest}, r none (c :: cs) = some (a, rest) → ∃ claimed, cs = claimed ++ rest

namespace Forward

variable {r : Recogniser α}

theorem scan_eq (h : Forward r) (s : List Char) (before : Option Char) (covered : Nat) :
    scan r before covered s = pieces r (s.drop covered) := by
  unfold pieces
  induction s generalizing before covered with
  | nil => cases covered <;> simp [scan]
  | cons c cs ih =>
    cases covered with
    | zero => simp [scan, h.blind before]
    | succ covered => simpa [scan] using ih (some c) covered

theorem pieces_plain (h : Forward r) {c : Char} {cs : List Char} (hr : r none (c :: cs) = none) :
    pieces r (c :: cs) = .plain c :: pieces r cs := by
  rw [pieces, scan]
  simp only [hr]
  rw [h.scan_eq, List.drop_zero]

theorem pieces_hit (h : Forward r) {c : Char} {cs rest : List Char} {a : α}
    (hr : r none (c :: cs) = some (a, rest)) : pieces r (c :: cs) = .hit a :: pieces r rest := by
  obtain ⟨claimed, rfl⟩ := h.leaves hr
  rw [pieces, scan]
  simp only [hr]
  rw [h.scan_eq, List.length_append, Nat.add_sub_cancel, List.drop_left]

/-- A text where nothing is recognised stands for itself. -/
theorem pieces_append (h : Forward r) {s : List Char} (hs : ∀ c ∈ s, ∀ cs, r none (c :: cs) = none)
    (rest : List Char) : pieces r (s ++ rest) = s.map .plain ++ pieces r rest := by
  induction s with
  | nil => rfl
  | cons c s ih =>
    rw [List.cons_append, h.pieces_plain (hs c (by simp) _), ih fun d hd => hs d (by simp [hd])]
    rfl

/-- A text is gone through piece by piece. -/
theorem induction (h : Forward r) {motive : List Char → Prop} (nil : motive [])
    (plain : ∀ c cs, r none (c :: cs) = none → motive cs → motive (c :: cs))
    (hit : ∀ c cs a rest, r none (c :: cs) = some (a, rest) → motive rest → motive (c :: cs)) (s : List Char) :
    motive s := by
  induction hn : s.length using Nat.strongRecOn generalizing s with
  | ind n ih =>
    cases s with
    | nil => exact nil
    | cons c cs =>
      subst hn
      cases hr : r none (c :: cs) with
      | none => exact plain c cs hr (ih _ (by simp) cs rfl)
      | some found =>
        obtain ⟨claimed, hclaimed⟩ := h.leaves hr
        have hlt : found.2.length < (c :: cs).length := by
          simp only [hclaimed, List.length_cons, List.length_append]
          omega
        exact hit c cs found.1 found.2 hr (ih _ hlt found.2 rfl)

theorem hits_plain (h : Forward r) {c : Char} {cs : List Char} (hr : r none (c :: cs) = none) :
    hits r (c :: cs) = hits r cs := by
  simp [hits, h.pieces_plain hr]

theorem hits_hit (h : Forward r) {c : Char} {cs rest : List Char} {a : α}
    (hr : r none (c :: cs) = some (a, rest)) : hits r (c :: cs) = a :: hits r rest := by
  simp [hits, h.pieces_hit hr]

theorem substitute_plain (h : Forward r) (f : α → List Char) {c : Char} {cs : List Char}
    (hr : r none (c :: cs) = none) : substitute r f (c :: cs) = c :: substitute r f cs := by
  simp [substitute, h.pieces_plain hr]

theorem substitute_hit (h : Forward r) (f : α → List Char) {c : Char} {cs rest : List Char} {a : α}
    (hr : r none (c :: cs) = some (a, rest)) : substitute r f (c :: cs) = f a ++ substitute r f rest := by
  simp [substitute, h.pieces_hit hr]

end Forward

/-! ## Replacing the pieces -/

section Replace

variable {m : Type → Type} [Monad m] [LawfulMonad m] (f : α → m (List Char))

theorem substituteM_go_append (ps qs : List (Piece α)) :
    substituteM.go f (ps ++ qs) = do
      let first ← substituteM.go f ps
      let second ← substituteM.go f qs
      return first ++ second := by
  induction ps with
  | nil => simp [substituteM.go]
  | cons p ps ih =>
    cases p with
    | plain c => simp [substituteM.go, ih]
    | hit a => simp only [List.cons_append, substituteM.go, ih, bind_assoc, pure_bind, List.append_assoc]

theorem substituteM_go_plain (s : List Char) : substituteM.go f (s.map .plain) = pure s := by
  induction s with
  | nil => rfl
  | cons c s ih => simp [substituteM.go, ih]

end Replace

end Bytelift.Text
