import Bytelift.Proofs.Flow.State

/-! Gathering the jumps. A jump is recorded with the line that it goes to; drawn back, it stops on the line
before that, and a jump to itself is done. Each jump is drawn back by itself, whatever the order. -/

namespace Bytelift

open Run

namespace Flow

def Recorded (offsets : List Offset) (j : Jump) : Prop :=
  match j.kind with
  | .test | .skip | .receiver => j.start ∈ offsets ∧ j.stop.isNumber ∧ j.start.value ≤ j.stop.value
  | .guarded => j.start.isNumber ∧ j.stop.isNumber ∧ j.start.value < j.stop.value
  | .loop => j.start.isNumber ∧ j.stop ∈ offsets ∧ j.start.value < j.stop.value
  | .arm => j.start ∈ offsets ∧ (∃ arm, j.arm = some arm ∧ arm.lastStart ∈ offsets) ∧
      (j.stop = .number (-1) ∨ j.stop ∈ offsets ∧ j.start.value < j.stop.value)
  | .handler | .other _ => False

/-- Code whose jumps are as they were recorded. -/
structure Fresh (flow : Flow) : Prop extends Filing flow where
  untouched : ∀ i, i < flow.jumps.length → (flow.jump i).done = false
  recorded : ∀ i, i < flow.jumps.length → Recorded flow.offsets (flow.jump i)
  unhandled : ∀ o i, ¬flow.Filed .handler o i

/-- A jump stays as it was recorded, if it is a loop or an arm. -/
def Fixed (j : Jump) : Prop := j.kind = .loop ∨ j.kind = .arm

/-- A jump that can be drawn back: it goes to itself, or it stays, or a line precedes the one it goes to. -/
def Drawable (flow : Flow) (i : Nat) : Prop :=
  (flow.jump i).start = (flow.jump i).stop ∨ Fixed (flow.jump i) ∨
    ∃ a, Adjacent flow.offsets a (flow.jump i).stop

/-- What has become of a jump that was drawn back. -/
def DrawnBack (flow result : Flow) (i : Nat) : Prop :=
  (flow.jump i).start = (flow.jump i).stop ∧ ¬result.Open i ∧
    (result.jump i).stop = (flow.jump i).stop ∨
  (flow.jump i).start ≠ (flow.jump i).stop ∧ result.Open i ∧
    (Fixed (flow.jump i) ∧ result.jump i = flow.jump i ∨
      ¬Fixed (flow.jump i) ∧ Adjacent flow.offsets (result.jump i).stop (flow.jump i).stop)

/-- Some of the jumps have been drawn back, and the others still wait for it. -/
structure Drawing (flow : Flow) (waiting : List Nat) (result : Flow) : Prop
    extends Follows flow result where
  filing : result.Filing
  code : result.code = flow.code
  arm : ∀ i, (result.jump i).arm = (flow.jump i).arm
  unhandled : ∀ o i, ¬result.Filed .handler o i
  waits : ∀ i ∈ waiting, result.jump i = flow.jump i
  drawn : ∀ i, i < flow.jumps.length → i ∉ waiting → DrawnBack flow result i

theorem Recorded.kind_recorded {offsets : List Offset} {j : Jump} (h : Recorded offsets j) :
    j.kind ∈ JumpKind.recorded := by
  unfold Recorded at h
  cases hk : j.kind <;> simp_all [JumpKind.recorded]

theorem Filed.retired_unhandled {flow : Flow} {i : Nat} (hk : (flow.jump i).kind ∈ JumpKind.recorded)
    (h : ∀ o j, ¬flow.Filed .handler o j) (o : Offset) (j : Nat) :
    ¬(flow.retired i).Filed .handler o j := by
  rw [filed_retired hk]
  intro hf
  exact h o j hf.1

namespace Drawing

variable {flow middle : Flow} {i : Nat} {rest : List Nat}

theorem step_retired (h : Drawing flow (i :: rest) middle) (hi : i < flow.jumps.length) (hn : i ∉ rest)
    (he : (flow.jump i).start = (flow.jump i).stop) : Drawing flow rest (middle.retired i) := by
  have hlen : i < middle.jumps.length := h.length ▸ hi
  exact
    { toFollows := h.toFollows.trans (onward_retired middle i).toFollows
      filing := h.filing.retired hlen
      code := h.code
      arm := by simpa using h.arm
      unhandled := Filed.retired_unhandled (h.filing.kinds i hlen) h.unhandled
      waits := by
        intro j hj
        have hne : i ≠ j := by
          rintro rfl
          exact hn hj
        rw [jump_retired hlen, if_neg hne]
        exact h.waits j (List.mem_cons_of_mem i hj)
      drawn := by
        intro j hj hm
        unfold DrawnBack
        rw [open_retired hlen, jump_retired hlen]
        by_cases hij : i = j
        · subst hij
          refine Or.inl ⟨he, fun hf => hf.2 rfl, ?_⟩
          rw [if_pos rfl, h.waits i (by simp)]
        · have hd := h.drawn j hj (by simp [hm, Ne.symm hij])
          unfold DrawnBack at hd
          simpa [hij] using hd }

theorem step_moved (h : Drawing flow (i :: rest) middle) (hi : i < flow.jumps.length) (hn : i ∉ rest)
    (hd : (flow.jump i).done = false) (hne : (flow.jump i).start ≠ (flow.jump i).stop)
    (hf : ¬Fixed (flow.jump i)) {a : Offset} (ha : Adjacent flow.offsets a (flow.jump i).stop) :
    Drawing flow rest (middle.moved i a) := by
  have hlen : i < middle.jumps.length := h.length ▸ hi
  have hwait := h.waits i (by simp)
  exact
    { offsets := h.offsets
      length := by simpa using h.length
      kind := by simpa [hlen] using h.kind
      start := by simpa [hlen] using h.start
      tests := h.tests
      filing := h.filing.moved hlen a
      code := h.code
      arm := by
        intro j
        rw [jump_moved hlen]
        split
        · next he => exact he ▸ h.arm i
        · exact h.arm j
      unhandled := h.unhandled
      waits := by
        intro j hj
        have hij : i ≠ j := by
          rintro rfl
          exact hn hj
        rw [jump_moved hlen, if_neg hij]
        exact h.waits j (List.mem_cons_of_mem i hj)
      drawn := by
        intro j hj hm
        unfold DrawnBack
        rw [open_moved hlen, jump_moved hlen]
        by_cases hij : i = j
        · subst hij
          refine Or.inr ⟨hne, ⟨hlen, by rw [hwait, hd]⟩, Or.inr ⟨hf, ?_⟩⟩
          simpa using ha
        · have hd := h.drawn j hj (by simp [hm, Ne.symm hij])
          unfold DrawnBack at hd
          simpa [hij] using hd }

theorem step_fixed (h : Drawing flow (i :: rest) middle) (hi : i < flow.jumps.length)
    (hd : (flow.jump i).done = false) (hne : (flow.jump i).start ≠ (flow.jump i).stop)
    (hf : Fixed (flow.jump i)) : Drawing flow rest middle where
  toFollows := h.toFollows
  filing := h.filing
  code := h.code
  arm := h.arm
  unhandled := h.unhandled
  waits j hj := h.waits j (List.mem_cons_of_mem i hj)
  drawn := by
    intro j hj hm
    by_cases hij : j = i
    · subst hij
      have hwait := h.waits j (by simp)
      exact Or.inr ⟨hne, ⟨h.length ▸ hi, by rw [hwait, hd]⟩, Or.inl ⟨hf, hwait⟩⟩
    · exact h.drawn j hj (by simp [hm, hij])

end Drawing

/-- Once all jumps are drawn back, the code is sound. -/
theorem Drawing.sound {flow result : Flow} (h : Drawing flow [] result) (hf : flow.Fresh) :
    result.Sound where
  toFiling := h.filing
  aimed := by
    intro i hi
    have hlen : i < flow.jumps.length := h.length ▸ hi.1
    have hrec := hf.recorded i hlen
    rcases h.drawn i hlen (by simp) with hd | ⟨hne, _, hd⟩
    · exact absurd hi hd.2.1
    have hkind := h.kind i
    have hstart := h.start i
    rw [h.offsets]
    rcases hd with ⟨hfix, hsame⟩ | ⟨hfix, hadj⟩
    · rw [hsame]
      unfold Recorded at hrec
      unfold Aimed
      rcases hfix with hk | hk
      · rw [hk] at hrec ⊢
        exact hrec
      · rw [hk] at hrec ⊢
        exact hrec
    · -- the line that it went to is after the one it stops on now
      have hasc := hf.ascending
      have hlt := hadj.lt hasc
      unfold Recorded at hrec
      unfold Aimed
      rw [hkind, hstart]
      have hforward : (flow.jump i).start ∈ flow.offsets → (flow.jump i).stop.isNumber →
          (flow.jump i).start.value ≤ (flow.jump i).stop.value →
          (flow.jump i).start.value ≤ (result.jump i).stop.value := by
        intro hs he hle
        rcases hadj.le_or_le hasc hs with hor | hor
        · exact hor
        · exact absurd (Offset.eq_of_value (hasc.numbers _ hs) he (by omega)) hne
      cases hk : (flow.jump i).kind with
      | test | skip | receiver =>
        rw [hk] at hrec
        exact ⟨hrec.1, hadj.left, hforward hrec.1 hrec.2.1 hrec.2.2, _, hadj.right, hlt⟩
      | guarded =>
        rw [hk] at hrec
        exact ⟨hrec.1, hadj.left, fun hs => hforward hs hrec.2.1 (by omega)⟩
      | loop => exact absurd (Or.inl hk) hfix
      | arm => exact absurd (Or.inr hk) hfix
      | handler | other => simp [hk] at hrec
  handlers := by
    intro o i hi
    exact absurd hi (h.unhandled o i)

end Flow

namespace FlowM

open Flow

variable {flow : Flow}

/-- Drawing jumps back succeeds just if each of them can be drawn back. -/
theorem yields_drawBack (hf : flow.Fresh) : ∀ (is : List Nat) {middle : Flow}
    {wanted : Unit → Flow → Prop}, Drawing flow is middle → is.Nodup →
      (∀ i ∈ is, i < flow.jumps.length) →
      (∀ result, Drawing flow [] result → wanted () result) →
      ((∀ i ∈ is, flow.Drawable i) ↔ Yields (drawBack is) middle wanted)
  | [], middle, wanted, h, _, _, hw => by simpa [drawBack] using hw middle h
  | i :: is, middle, wanted, h, hd, hall, hw => by
    have hi := hall i (by simp)
    simp only [List.nodup_cons] at hd
    have hrest : ∀ j ∈ is, j < flow.jumps.length := fun j hj => hall j (List.mem_cons_of_mem i hj)
    have hopen := hf.untouched i hi
    have hwait := h.waits i (by simp)
    have hlen : i < middle.jumps.length := h.length ▸ hi
    simp only [drawBack, yields_bind, yields_jump, hwait, List.forall_mem_cons]
    split
    · next he =>
      rw [yields_bind, yields_retire (h.filing.kinds i hlen),
        ← yields_drawBack hf is (h.step_retired hi hd.1 he) hd.2 hrest hw]
      exact and_iff_right (Or.inl he)
    · next he =>
      split
      · next hk =>
        have hfix : ¬Fixed (flow.jump i) := by
          unfold Fixed
          simp only [Bool.and_eq_true, decide_eq_true_eq] at hk
          tauto
        rw [yields_bind, yields_neighbour]
        constructor
        · intro hdraw
          obtain ⟨hdi, hdrest⟩ := hdraw
          obtain ⟨a, ha⟩ := (hdi.resolve_left he).resolve_left hfix
          have hnb : middle.neighbour (flow.jump i).stop (-1) = .ok a :=
            neighbour_neg_one h.filing.ascending (h.offsets ▸ ha)
          refine ⟨a, hnb, ?_⟩
          rw [yields_bind, yields_setStop]
          exact (yields_drawBack hf is (h.step_moved hi hd.1 hopen he hfix ha) hd.2 hrest hw).1 hdrest
        · intro hy
          obtain ⟨a, hnb, hy⟩ := hy
          have ha := h.offsets ▸ adjacent_of_neighbour h.filing.ascending hnb
          rw [yields_bind, yields_setStop] at hy
          exact ⟨Or.inr (Or.inr ⟨a, ha⟩),
            (yields_drawBack hf is (h.step_moved hi hd.1 hopen he hfix ha) hd.2 hrest hw).2 hy⟩
      · next hk =>
        have hfix : Fixed (flow.jump i) := by
          unfold Fixed
          simp only [Bool.and_eq_true, decide_eq_true_eq] at hk
          tauto
        rw [← yields_drawBack hf is (h.step_fixed hi hopen he hfix) hd.2 hrest hw]
        exact and_iff_right (Or.inr (Or.inl hfix))

/-! ## Sorting -/

theorem map_sortKeys {is : List Nat} {keyed : List ((Int × Int) × Nat)}
    (h : sortKeys flow is = .ok keyed) : keyed.map (·.2) = is := by
  induction is generalizing keyed with
  | nil =>
    cases h
    rfl
  | cons i is ih =>
    rw [sortKeys] at h
    cases hk : sortKey (flow.jump i) with
    | error e => simp [hk, bind, Except.bind] at h
    | ok key =>
      cases hr : sortKeys flow is with
      | error e => simp [hk, hr, bind, Except.bind] at h
      | ok rest =>
        simp only [hk, hr, bind, Except.bind, pure, Except.pure, Except.ok.injEq] at h
        rw [← h, List.map_cons, ih hr]

/-- An offset counts for a number that jumps can be sorted by. -/
def Sortable (o : Offset) : Prop := o.isNumber ∧ (Binary64.nearestWhole? o.value).isSome

theorem exists_sortKey {j : Jump} (hs : Sortable j.start) (he : Sortable j.stop) :
    ∃ key, sortKey j = .ok key := by
  have hneed : ∀ o, Sortable o → ∃ key, sortKey.need o = .ok key := by
    intro o ho
    obtain ⟨key, hkey⟩ := Option.isSome_iff_exists.1 ho.2
    rw [Offset.eq_number ho.1]
    exact ⟨key, by simp [sortKey.need, hkey]⟩
  obtain ⟨first, hfirst⟩ := hneed _ hs
  obtain ⟨second, hsecond⟩ := hneed _ he
  exact ⟨(first, second), by simp [sortKey, hfirst, hsecond, bind, Except.bind, pure, Except.pure]⟩

theorem exists_sortKeys {is : List Nat} (h : ∀ i ∈ is, ∃ key, sortKey (flow.jump i) = .ok key) :
    ∃ keyed, sortKeys flow is = .ok keyed := by
  induction is with
  | nil => exact ⟨[], rfl⟩
  | cons i is ih =>
    obtain ⟨key, hkey⟩ := h i (by simp)
    obtain ⟨keyed, hkeyed⟩ := ih fun j hj => h j (List.mem_cons_of_mem i hj)
    exact ⟨(key, i) :: keyed, by simp [sortKeys, hkey, hkeyed, bind, Except.bind, pure, Except.pure]⟩

/-! ## All jumps -/

/-- The tables list every jump, and each once. -/
structure Listed (flow : Flow) : Prop where
  nodup : flow.tables.all.Nodup
  mem : ∀ i, i ∈ flow.tables.all ↔ i < flow.jumps.length

theorem Listed.drawing (h : Listed flow) (hf : flow.Fresh) : Drawing flow flow.tables.all flow where
  toFollows := (Onward.refl flow).toFollows
  filing := hf.toFiling
  code := rfl
  arm _ := rfl
  unhandled := hf.unhandled
  waits _ _ := rfl
  drawn i hi hn := absurd ((h.mem i).2 hi) hn

theorem sorted_perm (keyed : List ((Int × Int) × Nat)) : ((keyed.mergeSort fun a b =>
    a.1.1 < b.1.1 || (a.1.1 = b.1.1 && a.1.2 ≤ b.1.2)).map (·.2)).Perm (keyed.map (·.2)) :=
  (List.mergeSort_perm _ _).map _

/-- What is gathered, if anything is. -/
theorem gather_ok (hf : flow.Fresh) (hl : Listed flow) {order : List Nat} {result : Flow}
    (h : gather flow = .ok order result) :
    Drawing flow [] result ∧ order.Perm flow.tables.all := by
  have hdrawing := hl.drawing hf
  have hlen := fun i hi => (hl.mem i).1 hi
  have hy : Yields gather flow fun a t => a = order ∧ t = result := ⟨order, result, h, rfl, rfl⟩
  simp only [gather, yields_bind, yields_get, yields_ofExcept, yields_pure] at hy
  have hdraw := (@yields_drawBack flow hf _ flow (fun _ _ => True) hdrawing hl.nodup hlen
    fun _ _ => trivial).2 (hy.mono fun _ _ _ => trivial)
  obtain ⟨_, drawn, hok, keyed, hkeys, horder, hresult⟩ := hy
  have hd := ((@yields_drawBack flow hf _ flow (fun _ drawn => Drawing flow [] drawn) hdrawing hl.nodup
    hlen fun _ hr => hr).1 hdraw).of_ok hok
  subst hresult horder
  rw [← map_sortKeys hkeys]
  exact ⟨hd, sorted_perm keyed⟩

theorem yields_gather (hf : flow.Fresh) (hl : Listed flow)
    (hdraw : ∀ i, i < flow.jumps.length → flow.Drawable i)
    (hsort : ∀ result, Drawing flow [] result → ∀ i, i < flow.jumps.length →
      Sortable (result.jump i).start ∧ Sortable (result.jump i).stop) :
    Yields gather flow fun order result =>
      Drawing flow [] result ∧ order.Perm flow.tables.all := by
  simp only [gather, yields_bind, yields_get, yields_ofExcept, yields_pure]
  refine (yields_drawBack hf _ (hl.drawing hf) hl.nodup (fun i hi => (hl.mem i).1 hi) ?_).1
    fun i hi => hdraw i ((hl.mem i).1 hi)
  intro result hd
  obtain ⟨keyed, hkeyed⟩ := @exists_sortKeys result flow.tables.all fun i hi =>
    have hs := hsort result hd i ((hl.mem i).1 hi)
    exists_sortKey hs.1 hs.2
  refine ⟨keyed, hkeyed, hd, ?_⟩
  rw [← map_sortKeys hkeyed]
  exact sorted_perm keyed

end FlowM

end Bytelift
