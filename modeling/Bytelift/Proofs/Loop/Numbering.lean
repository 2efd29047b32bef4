import Bytelift.Proofs.Loop.Nest

/-! The jumps of a nest once they are drawn back, and the order they are handled in: a loop comes before its
own test, and before the loops inside it. So a test is claimed by the first loop around it that ends not many
lines after its own, and only then by its own loop. -/

namespace Bytelift

open Run Instruction

namespace Loop

/-! ## The jumps of a nest -/

/-- A jump is the one back to the head of a loop. -/
structure Turns (flow : Flow) (l : Loop) (i : Nat) : Prop where
  lt : i < flow.jumps.length
  kind : (flow.jump i).kind = .loop
  start : (flow.jump i).start = l.head.offset
  stop : (flow.jump i).stop = l.back.offset

/-- A jump is the test of a loop, drawn back to the end of the loop. -/
structure Exits (flow : Flow) (l : Loop) (t : Nat) : Prop where
  lt : t < flow.jumps.length
  kind : (flow.jump t).kind = .test
  start : (flow.jump t).start = l.test.offset
  stop : (flow.jump t).stop = l.back.offset

/-- The jumps of the code are those of the loops, numbered from the inside out and then the tests. -/
structure Numbered (loops : List Loop) (flow : Flow) : Prop where
  jumps : ∀ i, i < flow.jumps.length → flow.Open i ∧ ∃ l ∈ loops, l.Turns flow i ∨ l.Exits flow i
  turns : ∀ l ∈ loops, ∃ i, l.Turns flow i
  exits : ∀ l ∈ loops, ∃ t, l.Exits flow t
  inward : ∀ i j, i < j → j < flow.jumps.length → (flow.jump i).kind = .loop → (flow.jump j).kind = .loop →
    (flow.jump j).start.value < (flow.jump i).start.value
  first : ∀ i t, i < flow.jumps.length → t < flow.jumps.length → (flow.jump i).kind = .loop →
    (flow.jump t).kind = .test → i < t

section Numbered

variable {loops : List Loop} {offsets : List Offset} {flow drawn : Flow}

theorem jump_of_lt (hj : flow.jumps = loops.reverse.map loopJump ++ loops.map testJump) {i : Nat}
    (hi : i < loops.length) : ∃ l, loops.reverse[i]? = some l ∧ flow.jump i = l.loopJump := by
  have hlen : i < loops.reverse.length := by simpa using hi
  refine ⟨loops.reverse[i], List.getElem?_eq_getElem hlen, ?_⟩
  rw [Flow.jump, hj, List.getElem?_append_left (by simpa using hi), List.getElem?_map,
    List.getElem?_eq_getElem hlen]
  rfl

theorem jump_of_le (hj : flow.jumps = loops.reverse.map loopJump ++ loops.map testJump) {i : Nat}
    (hi : loops.length ≤ i) (hlt : i < flow.jumps.length) :
    ∃ l, loops[i - loops.length]? = some l ∧ flow.jump i = l.testJump := by
  have hlen : i - loops.length < loops.length := by
    simp only [hj, List.length_append, List.length_map, List.length_reverse] at hlt
    omega
  refine ⟨loops[i - loops.length], List.getElem?_eq_getElem hlen, ?_⟩
  rw [Flow.jump, hj, List.getElem?_append_right (by simpa using hi), List.getElem?_map]
  simp [List.getElem?_eq_getElem hlen]

/-- A loop stays as it was recorded. -/
theorem turns_of_drawing (hs : ∀ l ∈ loops, l.Stands offsets)
    (hj : flow.jumps = loops.reverse.map loopJump ++ loops.map testJump) (hd : Flow.Drawing flow [] drawn)
    {i : Nat} (hi : i < loops.length) :
    drawn.Open i ∧ ∃ l, loops.reverse[i]? = some l ∧ l.Turns drawn i := by
  obtain ⟨l, hl, hjump⟩ := jump_of_lt hj hi
  have hmem : l ∈ loops := List.mem_reverse.1 (List.mem_of_getElem? hl)
  have hlt : i < flow.jumps.length := by
    simp only [hj, List.length_append, List.length_map, List.length_reverse]
    omega
  have hne : (flow.jump i).start ≠ (flow.jump i).stop := by
    intro he
    have hopens := (hs l hmem).opens
    have hturns := (hs l hmem).turns
    rw [hjump] at he
    have hv := congrArg Offset.value he
    simp only [loopJump] at hv
    omega
  rcases hd.drawn i hlt (by simp) with hself | ⟨_, hopen, hfix | hmoved⟩
  · exact absurd hself.1 hne
  · refine ⟨hopen, l, hl, hopen.1, ?_, ?_, ?_⟩ <;> rw [hfix.2, hjump] <;> rfl
  · exact absurd (Or.inl (by rw [hjump]; rfl)) hmoved.1

/-- A test is drawn back to the end of its loop. -/
theorem exits_of_drawing (ha : Ascending offsets) (hs : ∀ l ∈ loops, l.Stands offsets)
    (ho : flow.offsets = offsets) (hj : flow.jumps = loops.reverse.map loopJump ++ loops.map testJump)
    (hd : Flow.Drawing flow [] drawn) {i : Nat} (hi : loops.length ≤ i) (hlt : i < flow.jumps.length) :
    drawn.Open i ∧ ∃ l, loops[i - loops.length]? = some l ∧ l.Exits drawn i := by
  obtain ⟨l, hl, hjump⟩ := jump_of_le hj hi hlt
  have hmem : l ∈ loops := List.mem_of_getElem? hl
  have hexits := (hs l hmem).exits
  have hne : (flow.jump i).start ≠ (flow.jump i).stop := by
    intro he
    have hturns := (hs l hmem).turns
    have hexit := hexits.lt ha
    rw [hjump] at he
    have hv := congrArg Offset.value he
    simp only [testJump] at hv
    omega
  rcases hd.drawn i hlt (by simp) with hself | ⟨_, hopen, hfix | hmoved⟩
  · exact absurd hself.1 hne
  · rcases hfix.1 with hk | hk <;> rw [hjump] at hk <;> cases hk
  · refine ⟨hopen, l, hl, hopen.1, ?_, ?_, ?_⟩
    · rw [hd.kind, hjump]
      rfl
    · rw [hd.start, hjump]
      rfl
    · have hadj := hmoved.2
      rw [ho, hjump] at hadj
      exact hadj.left_unique ha hexits

theorem numbered_of_drawing (ha : Ascending offsets) (hs : ∀ l ∈ loops, l.Stands offsets)
    (hn : loops.Pairwise Encloses) (ho : flow.offsets = offsets)
    (hj : flow.jumps = loops.reverse.map loopJump ++ loops.map testJump)
    (hd : Flow.Drawing flow [] drawn) : Numbered loops drawn := by
  have hlength : flow.jumps.length = loops.length + loops.length := by simp [hj]
  have hloop := fun i hi => @turns_of_drawing loops offsets flow drawn hs hj hd i hi
  have htest := fun i hi hlt => @exits_of_drawing loops offsets flow drawn ha hs ho hj hd i hi hlt
  have hkind : ∀ i, i < drawn.jumps.length → ((drawn.jump i).kind = .loop ↔ i < loops.length) ∧
      ((drawn.jump i).kind = .test ↔ loops.length ≤ i) := by
    intro i hi
    by_cases hlt : i < loops.length
    · obtain ⟨_, l, _, hl⟩ := hloop i hlt
      simp [hl.kind, hlt]
    · obtain ⟨_, l, _, hl⟩ := htest i (by omega) (hd.length ▸ hi)
      simp [hl.kind, hlt]
      omega
  exact
    { jumps := by
        intro i hi
        by_cases hlt : i < loops.length
        · obtain ⟨hopen, l, hm, hl⟩ := hloop i hlt
          exact ⟨hopen, l, List.mem_reverse.1 (List.mem_of_getElem? hm), Or.inl hl⟩
        · obtain ⟨hopen, l, hm, hl⟩ := htest i (by omega) (hd.length ▸ hi)
          exact ⟨hopen, l, List.mem_of_getElem? hm, Or.inr hl⟩
      turns := by
        intro l hl
        obtain ⟨i, hi, he⟩ := List.getElem_of_mem (List.mem_reverse.2 hl)
        obtain ⟨_, l', hm, hl'⟩ := hloop i (by simpa using hi)
        rw [List.getElem?_eq_getElem hi, he] at hm
        exact ⟨i, Option.some.inj hm ▸ hl'⟩
      exits := by
        intro l hl
        obtain ⟨i, hi, he⟩ := List.getElem_of_mem hl
        obtain ⟨_, l', hm, hl'⟩ := htest (i + loops.length) (by omega) (by omega)
        rw [Nat.add_sub_cancel, List.getElem?_eq_getElem hi, he] at hm
        exact ⟨_, Option.some.inj hm ▸ hl'⟩
      inward := by
        intro i j hij hj hik hjk
        have hi := (hkind i (by omega)).1.1 hik
        have hj := (hkind j hj).1.1 hjk
        obtain ⟨_, inner, hin, hinner⟩ := hloop i hi
        obtain ⟨_, outer, hout, houter⟩ := hloop j hj
        have hmem : outer ∈ loops := List.mem_reverse.1 (List.mem_of_getElem? hout)
        obtain ⟨hi', rfl⟩ := List.getElem?_eq_some_iff.1 hin
        obtain ⟨hj', rfl⟩ := List.getElem?_eq_some_iff.1 hout
        have hencloses := List.pairwise_iff_getElem.1 (List.pairwise_reverse.2 hn) i j hi' hj' hij
        have hopens := (hs _ hmem).opens
        rw [hinner.start, houter.start]
        exact Int.lt_of_le_of_lt hopens hencloses.1
      first := by
        intro i t hi ht hik htk
        have hi := (hkind i hi).1.1 hik
        have ht := (hkind t ht).2.1 htk
        omega }

/-- Of two loops of a nest one is inside the other. -/
theorem encloses_or (hn : loops.Pairwise Encloses) {l r : Loop} (hl : l ∈ loops) (hr : r ∈ loops) :
    l = r ∨ l.Encloses r ∨ r.Encloses l := by
  by_cases hsame : l = r
  · exact Or.inl hsame
  · have hsymm : Std.Symm fun l r : Loop => l.Encloses r ∨ r.Encloses l := ⟨fun _ _ => Or.symm⟩
    have hall : loops.Pairwise fun l r : Loop => l.Encloses r ∨ r.Encloses l := hn.imp Or.inl
    exact Or.inr (hall.forall hl hr hsame)

/-- Every test of a nest comes before every jump back. -/
theorem test_lt_back (hs : ∀ l ∈ loops, l.Stands offsets) (hn : loops.Pairwise Encloses) {l r : Loop}
    (hl : l ∈ loops) (hr : r ∈ loops) : r.test.offset.value < l.back.offset.value := by
  have hturns := (hs l hl).turns
  have hturns' := (hs r hr).turns
  have hopens := (hs l hl).opens
  rcases encloses_or hn hl hr with rfl | he | he
  · exact hturns
  · exact Int.lt_trans hturns' he.2
  · have htest := he.1
    omega

theorem Numbered.turns_of_kind (h : Numbered loops flow) {i : Nat} (hi : i < flow.jumps.length)
    (hk : (flow.jump i).kind = .loop) : ∃ l ∈ loops, l.Turns flow i := by
  obtain ⟨_, l, hl, ht | he⟩ := h.jumps i hi
  · exact ⟨l, hl, ht⟩
  · rw [he.kind] at hk
    cases hk

theorem Numbered.exits_of_kind (h : Numbered loops flow) {i : Nat} (hi : i < flow.jumps.length)
    (hk : (flow.jump i).kind = .test) : ∃ l ∈ loops, l.Exits flow i := by
  obtain ⟨_, l, hl, ht | he⟩ := h.jumps i hi
  · rw [ht.kind] at hk
    cases hk
  · exact ⟨l, hl, he⟩

theorem Numbered.looped (h : Numbered loops flow) (hf : flow.Filing)
    (hs : ∀ l ∈ loops, l.Stands flow.offsets) (hn : loops.Pairwise Encloses)
    (hu : ∀ o j, ¬flow.Filed .handler o j) : flow.Looped where
  kinds := by
    intro i hi
    obtain ⟨_, l, _, ht | he⟩ := h.jumps i hi
    · exact Or.inl ht.kind
    · exact Or.inr he.kind
  untouched i hi := (h.jumps i hi).1
  rooted := by
    intro i hi hk
    obtain ⟨l, hl, ht⟩ := h.turns_of_kind hi hk
    exact ht.start ▸ (hs l hl).head
  ends := by
    intro i j hi hj hk heq
    obtain ⟨l, hl, ht⟩ := h.turns_of_kind hi hk
    obtain ⟨_, r, hr, ht' | he⟩ := h.jumps j hj
    · have hlt := test_lt_back hs hn hl hr
      have hopens := (hs r hr).opens
      rw [ht.stop, ht'.start] at heq
      rw [heq] at hopens
      omega
    · have hlt := test_lt_back hs hn hl hr
      rw [ht.stop, he.start] at heq
      rw [heq] at hlt
      omega
  apart := by
    intro i j hi hj hik hjk heq
    obtain ⟨l, hl, ht⟩ := h.turns_of_kind hi hik
    obtain ⟨r, hr, ht'⟩ := h.turns_of_kind hj hjk
    rw [ht.stop, ht'.stop] at heq
    have hsame : l = r := by
      rcases encloses_or hn hl hr with he | he | he
      · exact he
      · have hlt := he.2
        rw [heq] at hlt
        omega
      · have hlt := he.2
        rw [heq] at hlt
        omega
    subst hsame
    exact hf.once i j hi hj (hik.trans hjk.symm) (ht.start.trans ht'.start.symm)
  unhandled := hu

/-! ## What the loops say about the tests -/

/-- The end of a loop is within the last lines of a loop around it. -/
def Near (offsets : List Offset) (outer inner : Loop) : Prop :=
  5 ≤ offsets.idxOf outer.back.offset ∧
    offsets.idxOf outer.back.offset ≤ offsets.idxOf inner.back.offset + 5

instance (offsets : List Offset) (outer inner : Loop) : Decidable (outer.Near offsets inner) :=
  inferInstanceAs (Decidable (_ ∧ _))

variable {l r : Loop} {i t : Nat}

theorem verdict?_self (hs : l.Stands offsets) (hi : l.Turns flow i) (ht : l.Exits flow t) :
    (flow.jump i).verdict? offsets (flow.jump t) = some "break" := by
  refine if_pos ?_
  unfold Jump.Leaves
  rw [hi.start, hi.stop, ht.start, ht.stop]
  exact ⟨hs.opens, hs.turns, Int.le_refl _⟩

theorem verdict?_inner (hs : l.Stands offsets) (hs' : r.Stands offsets) (he : l.Encloses r)
    (hi : l.Turns flow i) (ht : r.Exits flow t) :
    (flow.jump i).verdict? offsets (flow.jump t) =
      if l.Near offsets r then some "continue" else none := by
  have hopens := hs.opens
  have hopens' := hs'.opens
  obtain ⟨htest, hback⟩ := he
  have hleaves : ¬(flow.jump i).Leaves (flow.jump t) := by
    unfold Jump.Leaves
    rw [hi.stop, ht.stop]
    omega
  have hresumes : (flow.jump i).Resumes offsets (flow.jump t) ↔ l.Near offsets r := by
    unfold Jump.Resumes Near
    rw [hi.start, hi.stop, ht.start, ht.stop]
    exact ⟨fun h => h.2.2, fun h => ⟨by omega, hback, h⟩⟩
  unfold Jump.verdict?
  rw [if_neg hleaves]
  exact if_congr hresumes rfl rfl

theorem verdict?_outer (he : r.Encloses l) (hi : l.Turns flow i) (ht : r.Exits flow t) :
    (flow.jump i).verdict? offsets (flow.jump t) = none := by
  have htest := he.1
  rw [Flow.verdict?_eq_none]
  unfold Jump.Leaves Jump.Resumes
  rw [hi.start, ht.start]
  omega

/-! ## The order of the loops -/

/-- The jumps of a nest in the order they are handled in: a loop before its own test, and an outer loop before
an inner one if they are told apart. -/
structure Sorted (loops : List Loop) (flow : Flow) (order : List Nat) : Prop where
  nodup : order.Nodup
  mem : ∀ i, i ∈ order ↔ i < flow.jumps.length
  own : ∀ l ∈ loops, ∀ i t, l.Turns flow i → l.Exits flow t → [i, t].Sublist order
  outer : ∀ l ∈ loops, ∀ r ∈ loops, l.Encloses r → ∀ i j, l.Turns flow i → r.Turns flow j →
    ([i, j].Sublist order ↔ l.head.offset.key < r.head.offset.key)

theorem sorted_of_gather (h : Numbered loops flow) (hs : ∀ l ∈ loops, l.Stands offsets)
    (hsort : ∀ o ∈ offsets, FlowM.Sortable o) {order : List Nat}
    (hp : order.Perm (List.range flow.jumps.length))
    (hranked : ∀ a ∈ List.range flow.jumps.length, ∀ b ∈ List.range flow.jumps.length,
      (flow.jump a).Ranked (flow.jump b) →
        ([a, b].Sublist (List.range flow.jumps.length) ∨ ¬(flow.jump b).Ranked (flow.jump a)) →
        [a, b].Sublist order) : Sorted loops flow order := by
  have hnodup : order.Nodup := hp.nodup_iff.2 List.nodup_range
  have hlisted : ∀ a b, a < b → b < flow.jumps.length → [a, b].Sublist (List.range flow.jumps.length) := by
    intro a b hab hb
    exact pair_sublist_of_pairwise List.pairwise_lt_range (List.mem_range.2 (by omega))
      (List.mem_range.2 hb) (by omega) (by omega)
  have hkey : ∀ a ∈ offsets, ∀ b ∈ offsets, a.value ≤ b.value → a.key ≤ b.key :=
    fun a ha b hb => FlowM.key_le (hsort a ha) (hsort b hb)
  refine ⟨hnodup, fun i => by rw [hp.mem_iff, List.mem_range], ?_, ?_⟩
  · intro l hl i t hi ht
    refine hranked i (List.mem_range.2 hi.lt) t (List.mem_range.2 ht.lt) ?_
      (Or.inl (hlisted i t (h.first i t hi.lt ht.lt hi.kind ht.kind) ht.lt))
    unfold Jump.Ranked Jump.rank
    rw [hi.start, hi.stop, ht.start, ht.stop]
    have hle := hkey _ (hs l hl).head _ (hs l hl).test (hs l hl).opens
    simp only
    omega
  · intro l hl r hr he i j hi hj
    obtain ⟨htest, hback⟩ := he
    have hopens := (hs l hl).opens
    have hstart : (flow.jump i).rank = (l.head.offset.key, l.back.offset.key) := by
      rw [Jump.rank, hi.start, hi.stop]
    have hstart' : (flow.jump j).rank = (r.head.offset.key, r.back.offset.key) := by
      rw [Jump.rank, hj.start, hj.stop]
    constructor
    · intro hsub
      by_contra hnot
      -- the inner loop was recorded first, and stays first
      have hle := hkey _ (hs l hl).head _ (hs r hr).head (by omega)
      have hle' := hkey _ (hs r hr).exits.left _ (hs l hl).exits.left (Int.le_of_lt hback)
      have hnumber : j < i := by
        by_contra hij
        have hne : i ≠ j := by
          rintro rfl
          exact (List.nodup_cons.1 (hnodup.sublist hsub)).1 (by simp)
        have hin := h.inward i j (by omega) hj.lt hi.kind hj.kind
        rw [hi.start, hj.start] at hin
        omega
      refine not_pair_sublist hnodup hsub (hranked j (List.mem_range.2 hj.lt) i (List.mem_range.2 hi.lt) ?_
        (Or.inl (hlisted j i hnumber hi.lt)))
      unfold Jump.Ranked
      rw [hstart, hstart']
      simp only
      omega
    · intro hlt
      refine hranked i (List.mem_range.2 hi.lt) j (List.mem_range.2 hj.lt) ?_ (Or.inr ?_)
      · unfold Jump.Ranked
        rw [hstart, hstart']
        exact Or.inl hlt
      · unfold Jump.Ranked
        rw [hstart, hstart']
        simp only
        omega

/-! ## The keyword of a test -/

/-- A loop takes the exit of one inside it for its own continue. -/
def Claims (offsets : List Offset) (outer inner : Loop) : Prop :=
  outer.head.offset.key < inner.head.offset.key ∧ outer.Near offsets inner

instance (offsets : List Offset) (outer inner : Loop) : Decidable (outer.Claims offsets inner) :=
  inferInstanceAs (Decidable (_ ∧ _))

/-- The keyword of the exit of a loop that stands in some others. -/
def exitWord (offsets : List Offset) (outer : List Loop) (l : Loop) : String :=
  if ∃ o ∈ outer, o.Claims offsets l then "continue" else "break"

/-- A loop of a nest is in those before it, and in no others. -/
theorem mem_outer_iff {outer inner : List Loop} (hn : (outer ++ l :: inner).Pairwise Encloses) (o : Loop) :
    o ∈ outer ↔ o ∈ outer ++ l :: inner ∧ o.Encloses l := by
  have hback : ∀ a b : Loop, a.Encloses b → b.back.offset.value < a.back.offset.value := fun _ _ h => h.2
  rw [List.pairwise_append, List.pairwise_cons] at hn
  constructor
  · intro ho
    exact ⟨List.mem_append_left _ ho, hn.2.2 o ho l (by simp)⟩
  · rintro ⟨ho, he⟩
    have hlt := hback _ _ he
    rcases List.mem_append.1 ho with ho | ho
    · exact ho
    rcases List.mem_cons.1 ho with rfl | ho
    · omega
    · have hlt' := hback _ _ (hn.2.1.1 o ho)
      omega

/-- The test of a loop goes to one around it that is wrapped before it and ends near it, or else to the loop
itself. -/
theorem word?_eq (h : Numbered loops flow) (hf : flow.Filing) {order : List Nat} (ho : Sorted loops flow order)
    (hs : ∀ l ∈ loops, l.Stands flow.offsets) (hn : loops.Pairwise Encloses) {outer inner : List Loop}
    (he : loops = outer ++ l :: inner) (ht : l.Exits flow t) :
    flow.word? (order.filter fun i => (flow.jump i).kind = .loop) t =
      some (exitWord flow.offsets outer l) := by
  have hl : l ∈ loops := by simp [he]
  have hiff : ∀ o, o ∈ outer ↔ o ∈ loops ∧ o.Encloses l := by
    intro o
    rw [he] at hn ⊢
    exact mem_outer_iff hn o
  obtain ⟨i, hi⟩ := h.turns l hl
  have hmem : i ∈ order.filter fun i => (flow.jump i).kind = .loop := by simp [ho.mem, hi.lt, hi.kind]
  have hnodup := ho.nodup.filter fun i => decide ((flow.jump i).kind = .loop)
  obtain ⟨before, after, hsplit⟩ := List.append_of_mem hmem
  rw [hsplit] at hnodup
  have hfirst : ∀ j, j ∈ before ↔ [j, i].Sublist (order.filter fun i => (flow.jump i).kind = .loop) := by
    intro j
    rw [hsplit, pair_sublist_iff hnodup]
  -- what the loops that are wrapped before this one say about its test
  have htold : ∀ j ∈ before, (flow.jump j).verdict? flow.offsets (flow.jump t) = none ∨
      (flow.jump j).verdict? flow.offsets (flow.jump t) = some "continue" ∧
        ∃ o ∈ outer, o.Claims flow.offsets l := by
    intro j hj
    have hsub := (hfirst j).1 hj
    have hin : j ∈ order.filter fun i => (flow.jump i).kind = .loop := hsub.subset (by simp)
    simp only [List.mem_filter, decide_eq_true_eq, ho.mem] at hin
    obtain ⟨o, hom, hturns⟩ := h.turns_of_kind hin.1 hin.2
    rcases encloses_or hn hom hl with rfl | hencloses | hencloses
    · have hsame := hf.once j i hturns.lt hi.lt (hturns.kind.trans hi.kind.symm)
        (hturns.start.trans hi.start.symm)
      subst hsame
      exact absurd (hnodup.sublist (hsplit ▸ hsub)) (by simp)
    · have hkey := (ho.outer o hom l hl hencloses j i hturns hi).1 (hsub.trans List.filter_sublist)
      rw [verdict?_inner (hs o hom) (hs l hl) hencloses hturns ht]
      by_cases hnear : o.Near flow.offsets l
      · exact Or.inr ⟨if_pos hnear, o, (hiff o).2 ⟨hom, hencloses⟩, hkey, hnear⟩
      · exact Or.inl (if_neg hnear)
    · exact Or.inl (verdict?_outer hencloses hturns ht)
  have hbefore : before.findSome? (fun j => (flow.jump j).verdict? flow.offsets (flow.jump t)) =
      if ∃ o ∈ outer, o.Claims flow.offsets l then some "continue" else none := by
    split
    · next hclaimed =>
      obtain ⟨o, hout, hclaims⟩ := hclaimed
      obtain ⟨hom, hencloses⟩ := (hiff o).1 hout
      obtain ⟨j, hj⟩ := h.turns o hom
      have hsub := (ho.outer o hom l hl hencloses j i hj hi).2 hclaims.1
      have hsub := hsub.filter fun i => decide ((flow.jump i).kind = .loop)
      simp only [List.filter_cons, hj.kind, hi.kind, List.filter_nil, decide_true, if_true] at hsub
      cases hfound : before.findSome? fun j => (flow.jump j).verdict? flow.offsets (flow.jump t) with
      | none =>
        have hnone := List.findSome?_eq_none_iff.1 hfound j ((hfirst j).2 hsub)
        rw [verdict?_inner (hs o hom) (hs l hl) hencloses hj ht, if_pos hclaims.2] at hnone
        cases hnone
      | some word =>
        obtain ⟨k, hk, hword⟩ := List.exists_of_findSome?_eq_some hfound
        rcases htold k hk with hverdict | ⟨hverdict, _⟩
        · rw [hverdict] at hword
          cases hword
        · exact hword.symm.trans hverdict
    · next hunclaimed =>
      refine List.findSome?_eq_none_iff.2 fun j hj => ?_
      exact (htold j hj).resolve_right fun hc => hunclaimed hc.2
  unfold Flow.word?
  rw [hsplit, List.findSome?_append, hbefore, List.findSome?_cons, verdict?_self (hs l hl) hi ht]
  unfold exitWord
  split <;> rfl

end Numbered

end Loop

end Bytelift
