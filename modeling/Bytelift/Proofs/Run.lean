import Bytelift.Console

/-! Runs, reasoned about from the outside. `Yields` says that a run ends without a fault and how; it is
taken apart along the steps of the run, so that each action needs one statement and its callers never
open it. `Keeps` says what a run does to its state however it ends. -/

namespace Bytelift

theorem except_bind_eq_ok {α β : Type} {x : Except Fault α} {f : α → Except Fault β} {b : β} :
    x >>= f = .ok b ↔ ∃ a, x = .ok a ∧ f a = .ok b := by
  cases x with
  | ok a =>
    constructor
    · intro h
      exact ⟨a, rfl, h⟩
    · intro h
      obtain ⟨_, he, h⟩ := h
      cases he
      exact h
  | error e =>
    constructor
    · intro h
      cases h
    · intro h
      obtain ⟨_, he, _⟩ := h
      cases he

namespace Run

variable {σ α β : Type}

/-- The run ends without a fault, with a result and a state as wanted. -/
def Yields (act : Run σ α) (s : σ) (wanted : α → σ → Prop) : Prop :=
  ∃ a t, act s = .ok a t ∧ wanted a t

section Yields

variable {s : σ} {wanted : β → σ → Prop}

theorem Yields.mono {act : Run σ α} {first second : α → σ → Prop} (h : Yields act s first)
    (hi : ∀ a t, first a t → second a t) : Yields act s second := by
  obtain ⟨a, t, he, hw⟩ := h
  exact ⟨a, t, he, hi a t hw⟩

theorem Yields.of_ok {act : Run σ α} {first : α → σ → Prop} (h : Yields act s first) {a : α} {t : σ}
    (he : act s = .ok a t) : first a t := by
  obtain ⟨b, u, hb, hw⟩ := h
  rw [he] at hb
  cases hb
  exact hw

@[simp] theorem yields_pure {b : β} : Yields (pure b) s wanted ↔ wanted b s := by
  constructor
  · rintro ⟨_, _, he, hw⟩
    cases he
    exact hw
  · intro hw
    exact ⟨b, s, rfl, hw⟩

theorem bind_eq_ok {x : Run σ α} {f : α → Run σ β} {b : β} {t : σ} :
    (x >>= f) s = .ok b t ↔ ∃ a u, x s = .ok a u ∧ f a u = .ok b t := by
  change EStateM.bind x f s = _ ↔ _
  unfold EStateM.bind
  cases hx : x s with
  | ok a u =>
    constructor
    · intro h
      exact ⟨a, u, rfl, h⟩
    · rintro ⟨_, _, he, h⟩
      cases he
      exact h
  | error e u => simp

theorem bind_of_ok {x : Run σ α} {f : α → Run σ β} {a : α} {t : σ} (h : x s = .ok a t) : (x >>= f) s = f a t := by
  change EStateM.bind x f s = _
  unfold EStateM.bind
  rw [h]

theorem bind_of_error {x : Run σ α} {f : α → Run σ β} {fault : Fault} {t : σ} (h : x s = .error fault t) :
    (x >>= f) s = .error fault t := by
  change EStateM.bind x f s = _
  unfold EStateM.bind
  rw [h]

/-- A run that starts in the same way from two states goes on in the same way. -/
theorem bind_congr_state {x : Run σ α} {f : α → Run σ β} {t : σ} (h : x s = x t) : (x >>= f) s = (x >>= f) t := by
  change EStateM.bind x f s = EStateM.bind x f t
  unfold EStateM.bind
  rw [h]

@[simp] theorem yields_bind {x : Run σ α} {f : α → Run σ β} :
    Yields (x >>= f) s wanted ↔ Yields x s fun a t => Yields (f a) t wanted := by
  constructor
  · rintro ⟨b, t, he, hw⟩
    obtain ⟨a, u, hx, hf⟩ := bind_eq_ok.1 he
    exact ⟨a, u, hx, b, t, hf, hw⟩
  · rintro ⟨a, u, hx, b, t, hf, hw⟩
    exact ⟨b, t, bind_eq_ok.2 ⟨a, u, hx, hf⟩, hw⟩

@[simp] theorem yields_map {x : Run σ α} {f : α → β} :
    Yields (f <$> x) s wanted ↔ Yields x s fun a t => wanted (f a) t := by
  rw [← bind_pure_comp, yields_bind]
  simp

@[simp] theorem yields_get {wanted : σ → σ → Prop} :
    Yields (get : Run σ σ) s wanted ↔ wanted s s := by
  constructor
  · rintro ⟨_, _, he, hw⟩
    cases he
    exact hw
  · intro hw
    exact ⟨s, s, rfl, hw⟩

@[simp] theorem yields_modify {f : σ → σ} {wanted : PUnit → σ → Prop} :
    Yields (modify f : Run σ PUnit) s wanted ↔ wanted ⟨⟩ (f s) := by
  constructor
  · rintro ⟨_, _, he, hw⟩
    cases he
    exact hw
  · intro hw
    exact ⟨⟨⟩, f s, rfl, hw⟩

@[simp] theorem yields_throw {e : Fault} : ¬Yields (throw e : Run σ β) s wanted := by
  rintro ⟨_, _, he, _⟩
  cases he

@[simp] theorem yields_need {e : Fault} {o : Option β} :
    Yields (need e o) s wanted ↔ ∃ b, o = some b ∧ wanted b s := by
  cases o <;> simp [need]

@[simp] theorem yields_ofExcept {r : Except Fault β} :
    Yields (ofExcept r) s wanted ↔ ∃ b, r = .ok b ∧ wanted b s := by
  cases r <;> simp [ofExcept]

@[simp] theorem yields_say [HasConsole σ] {line : String} {wanted : PUnit → σ → Prop} :
    Yields (say line) s wanted ↔
      wanted ⟨⟩ (HasConsole.setConsole s ((HasConsole.console s).printLine line)) := yields_modify

/-- A run on a part of the state. -/
theorem yields_on {τ : Type} {part : σ → τ} {put : σ → τ → σ} {act : Run τ β} :
    Yields (on part put act) s wanted ↔ Yields act (part s) fun b t => wanted b (put s t) := by
  constructor
  · rintro ⟨b, t, he, hw⟩
    unfold on at he
    split at he
    · next hact =>
      cases he
      exact ⟨_, _, hact, hw⟩
    · cases he
  · rintro ⟨b, t, hact, hw⟩
    refine ⟨b, put s t, ?_, hw⟩
    unfold on
    rw [hact]

theorem yields_ite {c : Prop} [Decidable c] {x y : Run σ β} :
    Yields (if c then x else y) s wanted ↔ if c then Yields x s wanted else Yields y s wanted := by
  split <;> rfl

end Yields

/-- Whether a run ends with a fault. -/
def fails (act : Run σ α) (s : σ) : Bool :=
  match act s with
  | .ok _ _ => false
  | .error _ _ => true

theorem exists_ok {act : Run σ α} {s : σ} (h : fails act s = false) : ∃ a t, act s = .ok a t := by
  unfold fails at h
  cases he : act s with
  | ok a t => exact ⟨a, t, rfl⟩
  | error e t => simp [he] at h

def fault? (act : Run σ α) (s : σ) : Option Fault :=
  match act s with
  | .ok _ _ => none
  | .error fault _ => some fault

/-- The state in which a run ends, with or without a fault. -/
def final (act : Run σ α) (s : σ) : σ :=
  match act s with
  | .ok _ t => t
  | .error _ t => t

theorem final_of_ok {act : Run σ α} {s t : σ} {a : α} (h : act s = .ok a t) : final act s = t := by
  unfold final
  rw [h]

theorem final_of_error {act : Run σ α} {s t : σ} {fault : Fault} (h : act s = .error fault t) :
    final act s = t := by
  unfold final
  rw [h]

end Run

end Bytelift
