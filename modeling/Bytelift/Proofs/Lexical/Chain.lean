import Bytelift.Context
import Bytelift.Proofs.Table
import Mathlib.Data.List.Nodup
import Mathlib.Logic.Function.Basic

/-! Contexts and the numbers they get. A context is told by the line that makes it; its number is its place
among those made so far, and the contexts around it form a chain, along which the parents lead outward. -/

namespace Bytelift.Lexical

/-- A context, by the function and the line that make it. -/
structure Creation where
  function : String
  line : Nat
  deriving DecidableEq, Repr

/-- Contexts within one another, the innermost first. -/
abbrev Chain := List Creation

/-- The number of a context: they are counted from 1 on as they are made. -/
def number (made : List Creation) (c : Creation) : Nat := made.idxOf c + 1

/-- The number of the innermost context of a chain; 0 stands for what lies outside all contexts. -/
def innermost (made : List Creation) : Chain → Nat
  | [] => 0
  | c :: _ => number made c

theorem number_append {made : List Creation} {c : Creation} (h : c ∈ made) (new : List Creation) :
    number (made ++ new) c = number made c := by
  rw [number, number, List.idxOf_append_of_mem h]

theorem number_last {made : List Creation} {c : Creation} (h : c ∉ made) :
    number (made ++ [c]) c = made.length + 1 := by
  rw [number, List.idxOf_append_of_notMem h]
  simp

theorem number_inj {made : List Creation} {c d : Creation} (hc : c ∈ made) (h : number made c = number made d) :
    c = d := (List.idxOf_inj hc).1 (Nat.succ.inj h)

/-- Each context of the chain was made within the next one. -/
def Linked (contexts : Contexts) (made : List Creation) : Chain → Prop
  | [] => True
  | c :: outside => c ∈ made ∧ contexts.parent (number made c) = innermost made outside ∧
    Linked contexts made outside

/-- What is known of the contexts: how many there are, what each was entered from under its number, and where the
functions known so far start. -/
structure World (stands : Creation → Chain → Prop) (contexts : Contexts) (made : List Creation)
    (given : String → Option Chain) : Prop where
  last : contexts.last = made.length
  nodup : made.Nodup
  numbered : ∀ k parent, contexts.parents.get? k = some parent → 1 ≤ k ∧ k ≤ made.length
  entered : ∀ c ∈ made, ∃ outside, stands c outside ∧ Linked contexts made outside ∧
    contexts.parents.get? (number made c) = some (innermost made outside : Int)
  functions : ∀ name, contexts.functions.get? name = (given name).map fun chain => (innermost made chain : Int)
  linked : ∀ name chain, given name = some chain → Linked contexts made chain

variable {stands : Creation → Chain → Prop} {contexts : Contexts} {made : List Creation}
  {given : String → Option Chain} {chain : Chain} {c : Creation}

theorem world_nil : World stands {} [] fun _ => none where
  last := rfl
  nodup := .nil
  numbered k parent h := by cases h
  entered c h := by cases h
  functions _ := rfl
  linked name chain h := by cases h

theorem innermost_append (h : Linked contexts made chain) (new : List Creation) :
    innermost (made ++ new) chain = innermost made chain := by
  cases chain with
  | nil => rfl
  | cons c outside => exact number_append h.1 new

theorem innermost_le (h : Linked contexts made chain) : innermost made chain ≤ made.length := by
  cases chain with
  | nil => exact Nat.zero_le _
  | cons c outside => exact List.idxOf_lt_length_iff.2 h.1

theorem Linked.drop (h : Linked contexts made chain) (n : Nat) : Linked contexts made (chain.drop n) := by
  induction n generalizing chain with
  | zero => exact h
  | succ n ih =>
    cases chain with
    | nil => exact h
    | cons c outside => exact ih h.2.2

theorem World.parent_zero (h : World stands contexts made given) : contexts.parent 0 = 0 := by
  cases hp : contexts.parents.get? 0 with
  | none => simp [Contexts.parent, hp]
  | some parent => exact absurd (h.numbered 0 parent hp).1 (by omega)

/-- Going outward along the parents is going outward along the chain. -/
theorem World.outward (h : World stands contexts made given) (hl : Linked contexts made chain) (steps : Nat) :
    contexts.outward (innermost made chain) steps = innermost made (chain.drop steps) := by
  induction steps generalizing chain with
  | zero => rfl
  | succ steps ih =>
    cases chain with
    | nil =>
      have hstay := @ih [] trivial
      rw [List.drop_nil] at hstay
      rw [Contexts.outward, List.drop_nil]
      change contexts.outward (contexts.parent 0) steps = _
      rw [h.parent_zero]
      exact hstay
    | cons c outside =>
      rw [Contexts.outward, List.drop_succ_cons, ← ih hl.2.2, ← hl.2.1]
      rfl

/-! ## Making a context -/

theorem World.parent_enter (h : World stands contexts made given) (current : Int) {k : Int} (hk : k ≤ made.length) :
    (contexts.enter current).2.parent k = contexts.parent k := by
  have hne : (contexts.last : Int) + 1 ≠ k := by rw [h.last]; omega
  simp [Contexts.enter, Contexts.parent, hne]

theorem World.linked_enter (h : World stands contexts made given) (current : Int) (hl : Linked contexts made chain) :
    Linked (contexts.enter current).2 (made ++ [c]) chain := by
  induction chain with
  | nil => trivial
  | cons d outside ih =>
    have hle : (number made d : Int) ≤ made.length := by
      have := @innermost_le contexts made (d :: outside) hl
      exact Int.ofNat_le.2 this
    refine ⟨List.mem_append_left _ hl.1, ?_, ih hl.2.2⟩
    rw [number_append hl.1, h.parent_enter current hle, hl.2.1, innermost_append hl.2.2]

/-- A new context gets a new number, and is linked to the one in which it is made. -/
theorem World.enter (h : World stands contexts made given) (hl : Linked contexts made chain) (hc : c ∉ made)
    (hs : stands c chain) : (contexts.enter (innermost made chain)).1 = innermost (made ++ [c]) (c :: chain) ∧
    World stands (contexts.enter (innermost made chain)).2 (made ++ [c]) given ∧
    Linked (contexts.enter (innermost made chain)).2 (made ++ [c]) (c :: chain) := by
  have hnumber : (contexts.enter (innermost made chain)).1 = innermost (made ++ [c]) (c :: chain) := by
    rw [innermost, number_last hc]
    simp [Contexts.enter, h.last]
  have hlast : ((number (made ++ [c]) c : Nat) : Int) = contexts.last + 1 := by
    rw [number_last hc, h.last]
    rfl
  refine ⟨hnumber, ⟨?_, ?_, ?_, ?_, ?_, ?_⟩, ?_, ?_, h.linked_enter _ hl⟩
  · simp [Contexts.enter, h.last]
  · exact List.nodup_append.2 ⟨h.nodup, List.nodup_singleton c, by
      intro a ha b hb
      rw [List.mem_singleton.1 hb]
      rintro rfl
      exact hc ha⟩
  · intro k parent hk
    simp only [Contexts.enter, Table.get?_put, h.last] at hk
    rw [List.length_append, List.length_singleton]
    split at hk
    · next he => omega
    · have := h.numbered k parent hk
      omega
  · intro d hd
    rcases List.mem_append.1 hd with hd | hd
    · obtain ⟨outside, hstands, hlinked, hparent⟩ := h.entered d hd
      refine ⟨outside, hstands, h.linked_enter _ hlinked, ?_⟩
      have hle := (h.numbered _ _ hparent).2
      have hne : (contexts.last : Int) + 1 ≠ number made d := by rw [h.last]; omega
      simp [Contexts.enter, number_append hd, innermost_append hlinked, hne, hparent]
    · obtain rfl := List.mem_singleton.1 hd
      refine ⟨chain, hs, h.linked_enter _ hl, ?_⟩
      simp [Contexts.enter, hlast, innermost_append hl]
  · intro name
    have hfunctions := h.functions name
    simp only [Contexts.enter]
    rw [hfunctions]
    cases hg : given name with
    | none => rfl
    | some start => rw [Option.map_some, Option.map_some, innermost_append (h.linked name start hg)]
  · intro name start hg
    exact h.linked_enter _ (h.linked name start hg)
  · exact List.mem_append_right _ (List.mem_singleton_self c)
  · rw [innermost_append hl]
    simp [Contexts.enter, Contexts.parent, hlast]

/-! ## Where functions start -/

/-- Only the parents count. -/
theorem Linked.congr {contexts' : Contexts} (h : Linked contexts made chain)
    (hp : contexts'.parents = contexts.parents) : Linked contexts' made chain := by
  induction chain with
  | nil => trivial
  | cons c outside ih =>
    refine ⟨h.1, ?_, ih h.2.2⟩
    rw [Contexts.parent, hp]
    exact h.2.1

/-- A function is given the context in which it will start. -/
theorem World.setFunction (h : World stands contexts made given) (hl : Linked contexts made chain) (name : String) :
    World stands (contexts.setFunction name (innermost made chain)) made (Function.update given name (some chain)) where
  last := h.last
  nodup := h.nodup
  numbered := h.numbered
  entered d hd := by
    obtain ⟨outside, hstands, hlinked, hparent⟩ := h.entered d hd
    exact ⟨outside, hstands, hlinked.congr rfl, hparent⟩
  functions other := by
    by_cases he : name = other
    · subst he
      simp [Contexts.setFunction]
    · have hne : other ≠ name := fun h => he h.symm
      simp [Contexts.setFunction, he, Function.update_of_ne hne, h.functions other]
  linked other start hg := by
    by_cases he : other = name
    · subst he
      rw [Function.update_self] at hg
      cases hg
      exact hl.congr rfl
    · rw [Function.update_of_ne he] at hg
      exact (h.linked other start hg).congr rfl

end Bytelift.Lexical
