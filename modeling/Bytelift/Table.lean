/-! Tables that keep the order in which their keys came. Putting a value under a key that is there keeps
the key's place; a key that was erased and put again goes to the end. -/

namespace Bytelift

structure Table (κ α : Type) where
  entries : List (κ × α) := []
  deriving DecidableEq, Repr

namespace Table

variable {κ α : Type}

instance : Inhabited (Table κ α) := ⟨{}⟩

def keys (t : Table κ α) : List κ := t.entries.map (·.1)

def values (t : Table κ α) : List α := t.entries.map (·.2)

def size (t : Table κ α) : Nat := t.entries.length

def isEmpty (t : Table κ α) : Bool := t.entries.isEmpty

def mapValues {β : Type} (f : α → β) (t : Table κ α) : Table κ β :=
  ⟨t.entries.map fun (k, a) => (k, f a)⟩

variable [DecidableEq κ]

def findEntry (k : κ) : List (κ × α) → Option α
  | [] => none
  | e :: rest => if e.1 = k then some e.2 else findEntry k rest

def get? (t : Table κ α) (k : κ) : Option α := findEntry k t.entries

def contains (t : Table κ α) (k : κ) : Bool := t.entries.any fun e => e.1 = k

def putEntry (k : κ) (a : α) : List (κ × α) → List (κ × α)
  | [] => [(k, a)]
  | e :: rest => if e.1 = k then (k, a) :: rest else e :: putEntry k a rest

def put (t : Table κ α) (k : κ) (a : α) : Table κ α := ⟨putEntry k a t.entries⟩

def erase (t : Table κ α) (k : κ) : Table κ α := ⟨t.entries.filter fun e => e.1 ≠ k⟩

def putAll (t : Table κ α) (entries : List (κ × α)) : Table κ α :=
  entries.foldl (fun t e => t.put e.1 e.2) t

def ofList (entries : List (κ × α)) : Table κ α := ({} : Table κ α).putAll entries

/-- The keys of the first table in their order, then the other's; where both have a key, the second
table's value holds. -/
def merge (t u : Table κ α) : Table κ α := t.putAll u.entries

theorem findEntry_putEntry (k j : κ) (a : α) (es : List (κ × α)) :
    findEntry j (putEntry k a es) = if k = j then some a else findEntry j es := by
  induction es with
  | nil => rfl
  | cons e es ih =>
    by_cases he : e.1 = k
    · by_cases hj : k = j <;> simp [putEntry, findEntry, he, hj]
    · by_cases hj : e.1 = j
      · have hk : ¬k = j := fun h => he (hj.trans h.symm)
        simp only [putEntry, if_neg he, findEntry, if_pos hj, if_neg hk]
      · simp only [putEntry, if_neg he, findEntry, if_neg hj, ih]

theorem findEntry_filter_ne (k j : κ) (es : List (κ × α)) :
    findEntry j (es.filter fun e => e.1 ≠ k) = if k = j then none else findEntry j es := by
  induction es with
  | nil => simp [findEntry]
  | cons e es ih =>
    by_cases he : e.1 = k
    · rw [List.filter_cons_of_neg (by simp [he]), ih]
      by_cases hj : k = j
      · simp [hj]
      · simp [findEntry, he, hj]
    · rw [List.filter_cons_of_pos (by simp [he])]
      by_cases hj : e.1 = j
      · have hk : ¬k = j := fun h => he (hj.trans h.symm)
        simp only [findEntry, if_pos hj, if_neg hk]
      · simp only [findEntry, if_neg hj, ih]

@[simp] theorem get?_put (t : Table κ α) (k j : κ) (a : α) :
    (t.put k a).get? j = if k = j then some a else t.get? j :=
  findEntry_putEntry k j a t.entries

@[simp] theorem get?_erase (t : Table κ α) (k j : κ) :
    (t.erase k).get? j = if k = j then none else t.get? j :=
  findEntry_filter_ne k j t.entries

end Table

end Bytelift
