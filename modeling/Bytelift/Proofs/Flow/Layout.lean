import Bytelift.Proofs.Flow.Gather
import Bytelift.Proofs.Flow.Test

/-! Laying out the jumps of a function, one after the other. Whatever a jump overlaps with, the code is sound
after it, so the next one finds what it needs. -/

namespace Bytelift

open Run Text

namespace Flow

/-- Some lines have been cleared, and some jumps retired. -/
inductive Cleared : Flow → Flow → Prop
  | none (flow : Flow) : Cleared flow flow
  | clear {flow result : Flow} {o : Offset} (rest : Cleared (flow.revised o fun _ => "") result) :
      Cleared flow result
  | retire {flow result : Flow} {i : Nat} (hi : i < flow.jumps.length)
      (rest : Cleared (flow.retired i) result) : Cleared flow result

theorem Cleared.trans {flow middle result : Flow} (h : Cleared flow middle)
    (h' : Cleared middle result) : Cleared flow result := by
  induction h with
  | none => exact h'
  | clear _ ih => exact .clear (ih h')
  | retire hi _ ih => exact .retire hi (ih h')

theorem Cleared.onward {flow result : Flow} (h : Cleared flow result) : Onward flow result := by
  induction h with
  | none => exact .refl _
  | clear _ ih => exact (onward_revised _ _ _).trans ih
  | retire _ _ ih => exact (onward_retired _ _).trans ih

theorem Sound.cleared {flow result : Flow} (h : flow.Sound) (hc : Cleared flow result) :
    result.Sound := by
  induction hc with
  | none => exact h
  | clear _ ih => exact ih (h.revised _ _)
  | retire hi _ ih => exact ih (h.retired hi)

/-- Whatever is filed is a jump. -/
theorem Sound.lt_of_filed {flow : Flow} (h : flow.Sound) {k : JumpKind} {o : Offset} {i : Nat}
    (hf : flow.Filed k o i) : i < flow.jumps.length := by
  by_cases hk : k = .handler
  · subst hk
    have hkind := (h.handlers o i hf).2.1
    by_contra hlen
    rw [Flow.jump, List.getElem?_eq_none (by omega)] at hkind
    cases hkind
  · exact ((h.filed k o i hk).1 hf).1.1

/-- What is said does not matter. -/
theorem Sound.said {flow : Flow} (h : flow.Sound) (console : Console) :
    ({ flow with console } : Flow).Sound where
  lines := h.lines
  ascending := h.ascending
  distinct := h.distinct
  kinds := h.kinds
  filed := h.filed
  once := h.once
  apart := h.apart
  aimed := h.aimed
  handlers := h.handlers

/-- Blocks that are opened before a line are opened before a line of the code. -/
def Rooted (flow : Flow) : Prop := ∀ i, i < flow.jumps.length →
  (flow.jump i).kind = .loop ∨ (flow.jump i).kind = .guarded → (flow.jump i).start ∈ flow.offsets

theorem Rooted.follows {flow result : Flow} (h : flow.Rooted) (hf : Follows flow result) :
    result.Rooted := by
  intro i hi hk
  rw [hf.offsets, hf.start]
  rw [hf.kind] at hk
  exact h i (hf.length ▸ hi) hk

/-- No line that makes a skip stands right after one that makes a test. -/
def Spaced (flow : Flow) : Prop := ∀ i j, i < flow.jumps.length → j < flow.jumps.length →
  (flow.jump i).kind = .test → (flow.jump j).kind = .skip →
    ¬Adjacent flow.offsets (flow.jump i).start (flow.jump j).start

def Armless (flow : Flow) : Prop := ∀ i, i < flow.jumps.length → (flow.jump i).kind ≠ .arm

theorem Spaced.follows {flow result : Flow} (h : flow.Spaced) (hf : Follows flow result) :
    result.Spaced := by
  intro i j hi hj hik hjk
  rw [hf.offsets, hf.start, hf.start]
  rw [hf.kind] at hik hjk
  exact h i j (hf.length ▸ hi) (hf.length ▸ hj) hik hjk

theorem Spaced.not_skipAfterTest {flow : Flow} (h : flow.Spaced) : ¬flow.SkipAfterTest := by
  intro hn
  obtain ⟨i, j, hi, hik, hj, hjk, hadj⟩ := hn
  exact h i j hi.1 hj.1 hik hjk hadj

theorem Armless.follows {flow result : Flow} (h : flow.Armless) (hf : Follows flow result) :
    result.Armless := by
  intro i hi
  rw [hf.kind]
  exact h i (hf.length ▸ hi)

end Flow

namespace FlowM

open Flow

variable {flow : Flow}

/-! ## Receivers -/

theorem yields_retireAt {o : Offset} : ∀ (ks : List JumpKind) {flow : Flow}, flow.Sound →
    Yields (retireAt o ks) flow fun _ result => flow.Cleared result
  | [], flow, _ => by simpa [retireAt] using Cleared.none flow
  | k :: ks, flow, h => by
    have hget : (flow.tables.get? k).bind (·.get? o) = (flow.table k).get? o := by
      unfold Flow.table
      cases flow.tables.get? k <;> rfl
    simp only [retireAt, yields_bind, yields_get, hget]
    cases hi : (flow.table k).get? o with
    | none => exact yields_retireAt ks h
    | some i =>
      have hlen := h.lt_of_filed (h.lookup.1 hi)
      simp only [yields_bind]
      rw [yields_retire (h.kinds i hlen)]
      refine (yields_retireAt ks (h.retired hlen)).mono ?_
      intro _ result hc
      exact .retire hlen hc

def linesAfter (offsets : List Offset) (o : Offset) : List Offset :=
  offsets.filter fun x => decide (o.value < x.value)

theorem length_linesAfter_lt {offsets : List Offset} {a b : Offset} (h : Adjacent offsets a b)
    (ha : Ascending offsets) : (linesAfter offsets b).length < (linesAfter offsets a).length := by
  have hlt := h.lt ha
  have he : linesAfter offsets b = (linesAfter offsets a).filter fun x =>
      decide (b.value < x.value) := by
    unfold linesAfter
    rw [List.filter_filter]
    apply List.filter_congr
    intro x _
    by_cases hx : b.value < x.value
    · have hax : a.value < x.value := by omega
      simp [hx, hax]
    · simp [hx]
  rw [he, List.length_filter_lt_length_iff_exists]
  exact ⟨b, List.mem_filter.2 ⟨h.right, by simpa using hlt⟩, by simp⟩

theorem yields_clearLines {stop : Offset} : ∀ (bound : Nat) (o : Offset) {flow : Flow}, flow.Sound →
    o ∈ flow.offsets → stop ∈ flow.offsets → o.value ≤ stop.value →
    (linesAfter flow.offsets o).length < bound →
    Yields (clearLines bound o stop) flow fun _ result => flow.Cleared result
  | 0, _, _, _, _, _, _, hb => absurd hb (by omega)
  | bound + 1, o, flow, h, ho, hs, hle, hb => by
    simp only [clearLines, yields_bind]
    rw [yields_revise h ho]
    split
    · next hne =>
      have hlt : o.value < stop.value := by
        have hv : o.value ≠ stop.value := fun hv =>
          hne (Offset.eq_of_value (h.ascending.numbers _ ho) (h.ascending.numbers _ hs) hv)
        omega
      obtain ⟨next, hnext⟩ := h.ascending.exists_next ho hs hlt
      have hless := length_linesAfter_lt hnext h.ascending
      -- nothing lies between the line and the next, so the stop is not passed
      have hle' : next.value ≤ stop.value := by
        rcases hnext.le_or_le h.ascending hs with hor | hor <;> omega
      simp only [yields_bind, yields_neighbour]
      refine ⟨next, neighbour_one h.ascending hnext, ?_⟩
      refine (yields_retireAt JumpKind.filed (h.revised o fun _ => "")).mono ?_
      intro _ middle hc
      have hon := hc.onward
      refine (yields_clearLines bound next ((h.revised _ _).cleared hc) ?_ ?_ hle' ?_).mono ?_
      · exact hon.offsets ▸ hnext.right
      · exact hon.offsets ▸ hs
      · rw [hon.offsets, offsets_revised]
        omega
      · intro _ result hr
        exact .clear (hc.trans hr)
    · exact yields_pure.2 (.clear (.none _))

theorem yields_clearReceivers : ∀ (is : List Nat) {flow : Flow}, flow.Sound →
    (∀ i ∈ is, i < flow.jumps.length ∧ (flow.jump i).start ∈ flow.offsets ∧
      (flow.jump i).stop ∈ flow.offsets ∧ (flow.jump i).start.value ≤ (flow.jump i).stop.value) →
    Yields (clearReceivers is) flow fun _ result => flow.Cleared result
  | [], flow, _, _ => by simpa [clearReceivers] using Cleared.none flow
  | i :: is, flow, h, hall => by
    obtain ⟨hlen, hs, he, hle⟩ := hall i (by simp)
    have hbound : (linesAfter flow.offsets (flow.jump i).start).length < flow.offsets.length + 1 := by
      have hfilter := List.length_filter_le (fun x =>
        decide ((flow.jump i).start.value < x.value)) flow.offsets
      unfold linesAfter
      omega
    simp only [clearReceivers, yields_bind, yields_jump, yields_get]
    refine (yields_clearLines _ _ h hs he hle hbound).mono ?_
    intro _ middle hc
    have hsound := h.cleared hc
    have hlen' : i < middle.jumps.length := hc.onward.length ▸ hlen
    rw [yields_retire (hsound.kinds i hlen')]
    have hclear := hc.trans (.retire hlen' (.none _))
    refine (yields_clearReceivers is (hsound.retired hlen') ?_).mono ?_
    · intro j hj
      have hon := hclear.onward
      rw [hon.length, hon.offsets, hon.start, hon.stop]
      exact hall j (List.mem_cons_of_mem i hj)
    · intro _ result hr
      exact hclear.trans hr

theorem yields_dropReceivers (h : flow.Sound) :
    Yields dropReceivers flow fun _ result => flow.Cleared result := by
  simp only [dropReceivers, yields_bind, yields_get]
  refine yields_clearReceivers _ h ?_
  intro i hi
  have hm : i ∈ (flow.table .receiver).values := by simpa [Flow.table, JumpTables.get?] using hi
  rw [h.mem_values (by simp)] at hm
  have ha := h.aimed i hm.1
  unfold Aimed at ha
  rw [hm.2] at ha
  exact ⟨hm.1.1, ha.1, ha.2.1, ha.2.2.1⟩

/-! ## One jump after the other -/

theorem guardedWith_kept (h : flow.Sound) {i : Nat} (hi : flow.Open i) :
    flow.Kept (flow.guardedWith i ((flow.table .skip).get? (flow.jump i).stop)) := by
  have hopen := h.kept.revised (flow.jump i).start ("try\n\x7b\n" ++ ·)
  cases hskip : (flow.table .skip).get? (flow.jump i).stop with
  | none => exact (hopen.revised _ _).retired hi.1
  | some skip =>
    obtain ⟨hso, hsk, _⟩ := (h.filed _ _ _ (by simp)).1 (h.lookup.1 hskip)
    have hclosed := (hopen.revised (flow.jump skip).start (· ++ "\n\x7d\ncatch\n\x7b")).revised
      (flow.jump skip).stop (· ++ blockEnd)
    have hfiled : flow.Kept (((flow.revised (flow.jump i).start ("try\n\x7b\n" ++ ·)).revised
        (flow.jump skip).start (· ++ "\n\x7d\ncatch\n\x7b")).revised (flow.jump skip).stop
          (· ++ blockEnd) |>.withHandler skip) :=
      { hclosed with sound := hclosed.sound.withHandler ⟨hso, Or.inr hsk⟩ hsk }
    exact (hfiled.retired hso.1).retired (by simpa using hi.1)

theorem yields_handleJump (h : flow.Sound) (hne : Offset.number (-1) ∉ flow.offsets)
    (hr : flow.Rooted) {i : Nat} (hi : i < flow.jumps.length) :
    Yields (handleJump i) flow fun _ result => flow.Kept result := by
  simp only [handleJump, yields_bind, yields_jump]
  split
  · exact yields_pure.2 h.kept
  · next hd =>
    have hopen : flow.Open i := ⟨hi, by simpa using hd⟩
    split
    · next hk =>
      rw [yields_bind]
      refine (yields_wrapLoop h hopen hk (hr i hi (Or.inl hk))).mono ?_
      intro _ result hw
      obtain ⟨closed, _, _, hex⟩ := hw
      exact yields_pure.2 ((((h.kept.revised _ _).closedAt closed).retired hi).exits hex)
    · next hk =>
      rw [yields_bind]
      refine yields_wrapGuarded h hopen hk (hr i hi (Or.inr hk)) ?_
      exact yields_pure.2 (guardedWith_kept h hopen)
    · next hk =>
      rw [yields_bind]
      refine (yields_handleArm h hne hopen hk).mono ?_
      intro _ result hkept
      exact yields_pure.2 hkept
    · next hk =>
      refine (yields_handleTest h ⟨hopen, hk⟩).mono ?_
      intro _ result hkept
      exact hkept.1
    · next hk =>
      rw [yields_bind]
      refine (yields_isIdle h ⟨hopen, Or.inr hk⟩).mono ?_
      intro _ result hsame
      rw [yields_pure, hsame]
      exact h.kept
    · simp only [yields_bind, yields_get, yields_say]
      exact ⟨⟨rfl, rfl, fun _ => rfl, fun _ => rfl, .refl _⟩, h.said _⟩

theorem yields_handleJumps : ∀ (is : List Nat) {flow : Flow}, flow.Sound →
    Offset.number (-1) ∉ flow.offsets → flow.Rooted → (∀ i ∈ is, i < flow.jumps.length) →
    Yields (handleJumps is) flow fun _ result => flow.Kept result
  | [], flow, h, _, _, _ => by simpa [handleJumps] using h.kept
  | i :: is, flow, h, hne, hr, hall => by
    simp only [handleJumps, yields_bind]
    refine (yields_handleJump h hne hr (hall i (by simp))).mono ?_
    intro _ middle hk
    refine (yields_handleJumps is hk.sound (hk.offsets ▸ hne) (hr.follows hk.toFollows) ?_).mono ?_
    · intro j hj
      rw [hk.length]
      exact hall j (List.mem_cons_of_mem i hj)
    · intro _ result hk'
      exact ⟨hk.toFollows.trans hk'.toFollows, hk'.sound⟩

/-! ## What one jump makes of the code -/

theorem mem_of_yields_revise {o : Offset} {f : String → String} (h : flow.Sound)
    {wanted : Unit → Flow → Prop} (hy : Yields (revise o f) flow wanted) : o ∈ flow.offsets := by
  by_contra hm
  rw [h.lines] at hm
  simp [revise, (@reviseLast_eq_none o f flow.code hm).1] at hy

/-- What handling a jump makes of code in which no skip follows a test, unless the jump is an arm. -/
inductive Handled (flow : Flow) (i : Nat) : Flow → Prop
  | idle : Handled flow i flow
  | loop {closed : Offset} {result : Flow} (hi : flow.Open i) (hk : (flow.jump i).kind = .loop)
      (hs : (flow.jump i).start ∈ flow.offsets) (hc : closed ∈ flow.offsets)
      (hlt : (flow.jump i).start.value < closed.value)
      (hex : (((flow.revised (flow.jump i).start ("while (true)\n\x7b\n" ++ ·)).closedAt closed).retired
        i).Exits result) : Handled flow i result
  | guarded (hi : flow.Open i) (hk : (flow.jump i).kind = .guarded)
      (hs : (flow.jump i).start ∈ flow.offsets) :
      Handled flow i (flow.guardedWith i ((flow.table .skip).get? (flow.jump i).stop))
  | test {result : Flow} (hi : flow.Test i) (hc : Conditional flow i result) : Handled flow i result
  | said (console : Console) : Handled flow i { flow with console }

theorem Handled.kept {i : Nat} {result : Flow} (h : Handled flow i result) (hs : flow.Sound) :
    flow.Kept result := by
  cases h with
  | idle => exact hs.kept
  | loop hi _ _ _ _ hex => exact (((hs.kept.revised _ _).closedAt _).retired hi.1).exits hex
  | guarded hi _ _ => exact guardedWith_kept hs hi
  | test hi hc => exact hc.kept hs hi.1
  | said console => exact ⟨⟨rfl, rfl, fun _ => rfl, fun _ => rfl, .refl _⟩, hs.said console⟩

theorem handled_of_ok (h : flow.Sound) {i : Nat} (hi : i < flow.jumps.length)
    (harm : (flow.jump i).kind ≠ .arm) (hn : ¬flow.SkipAfterTest) {result : Flow}
    (hok : handleJump i flow = .ok () result) : Handled flow i result := by
  have hy : Yields (handleJump i) flow fun _ r => r = result := ⟨(), result, hok, rfl⟩
  simp only [handleJump, yields_bind, yields_jump] at hy
  split at hy
  · rw [yields_pure] at hy
    exact hy ▸ .idle
  · next hd =>
    have hopen : flow.Open i := ⟨hi, by simpa using hd⟩
    split at hy
    · next hk =>
      have hs : (flow.jump i).start ∈ flow.offsets := by
        simp only [wrapLoop, yields_bind, yields_jump, hk, ne_eq, not_true_eq_false, if_false] at hy
        exact mem_of_yields_revise h hy
      obtain ⟨_, middle, hm, hr⟩ := yields_bind.1 hy
      rw [yields_pure] at hr
      obtain ⟨closed, hc, hlt, hex⟩ := (yields_wrapLoop h hopen hk hs).of_ok hm
      exact .loop hopen hk hs hc hlt (hr ▸ hex)
    · next hk =>
      have hs : (flow.jump i).start ∈ flow.offsets := by
        simp only [wrapGuarded, yields_bind, yields_jump, hk, ne_eq, not_true_eq_false, if_false] at hy
        exact mem_of_yields_revise h hy
      obtain ⟨_, middle, hm, hr⟩ := yields_bind.1 hy
      rw [yields_pure] at hr
      have hg := (@yields_wrapGuarded flow h i hopen hk hs (fun _ r =>
        r = flow.guardedWith i ((flow.table .skip).get? (flow.jump i).stop)) rfl).of_ok hm
      rw [← hr, hg]
      exact .guarded hopen hk hs
    · next hk => exact absurd hk harm
    · next hk =>
      obtain ⟨_, middle, hm, hr⟩ := hy
      have hc := ((yields_handleTest h ⟨hopen, hk⟩).of_ok hm).2 hn
      exact .test ⟨hopen, hk⟩ (hr ▸ hc)
    · next hk =>
      obtain ⟨_, middle, hm, hr⟩ := yields_bind.1 hy
      rw [yields_pure] at hr
      rw [← hr, (yields_isIdle h ⟨hopen, Or.inr hk⟩).of_ok hm]
      exact .idle
    · simp only [yields_bind, yields_get, yields_say] at hy
      exact hy ▸ .said _

end FlowM

end Bytelift
