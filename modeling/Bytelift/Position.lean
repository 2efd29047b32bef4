/-! Positions in a list: from zero on, and from the end for negative ones. -/

namespace Bytelift

/-- The index that a position stands for in a list of this size. -/
def index? (size : Nat) (position : Int) : Option Nat :=
  if 0 ≤ position then
    if position < size then some position.toNat else none
  else if 0 ≤ position + size then some (position + size).toNat
  else none

def at? {α : Type} (xs : List α) (position : Int) : Option α :=
  (index? xs.length position).bind fun i => xs[i]?

def changeAt? {α : Type} (xs : List α) (position : Int) (f : α → α) : Option (List α) :=
  (index? xs.length position).map fun i => xs.modify i f

theorem index?_lt {size : Nat} {position : Int} {i : Nat} (h : index? size position = some i) :
    i < size := by
  unfold index? at h
  split at h
  · split at h
    · simp only [Option.some.injEq] at h; omega
    · simp at h
  · split at h
    · simp only [Option.some.injEq] at h; omega
    · simp at h

@[simp] theorem index?_ofNat {size i : Nat} (h : i < size) : index? size (i : Int) = some i := by
  simp [index?, h]

end Bytelift
