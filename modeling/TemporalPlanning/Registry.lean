import Std.Data.TreeMap
/-!
Tables whose entries are numbered in order of creation and found again by a key.

Grounded variables, preference names, finite-domain values and graph vertices are all created on
first use and referred to by their position from then on. A registry keeps the entries and an
index from keys to positions, and carries the fact that the two agree; so no two entries have the
same key.
-/
set_option autoImplicit false

namespace TemporalPlanning

/-- A table of entries with distinct keys. -/
structure Registry (κ : Type) [Ord κ] (β : Type) (key : β → κ) where
  entries : Array β
  index : Std.TreeMap κ Nat
  /-- The index maps a key to a position exactly when the entry there has that key. -/
  index_eq_some_iff : ∀ k i, index[k]? = some i ↔ entries[i]?.map key = some k

namespace Registry

variable {κ : Type} [Ord κ] {β : Type} {key : β → κ}

/-- The position of the entry with a key. -/
def find? (r : Registry κ β key) (k : κ) : Option Nat := r.index[k]?

/-- The number of entries. -/
def size (r : Registry κ β key) : Nat := r.entries.size

/-- The entry at a position. -/
def get? (r : Registry κ β key) (i : Nat) : Option β := r.entries[i]?

theorem find?_eq_some_iff (r : Registry κ β key) (k : κ) (i : Nat) :
    r.find? k = some i ↔ (r.get? i).map key = some k :=
  r.index_eq_some_iff k i

/-- Changes an entry without changing its key. -/
def modify (r : Registry κ β key) (i : Nat) (f : β → β) (keeps : ∀ b, key (f b) = key b) :
    Registry κ β key where
  entries := r.entries.modify i f
  index := r.index
  index_eq_some_iff k j := by
    rw [r.index_eq_some_iff, Array.getElem?_modify]
    by_cases h : i = j
    · subst h
      simp [Function.comp_def, keeps]
    · simp [h]

variable [Std.TransOrd κ] [Std.LawfulEqOrd κ]

/-- The table without entries. -/
def empty : Registry κ β key := ⟨#[], ∅, by simp⟩

instance : Inhabited (Registry κ β key) := ⟨empty⟩

/-- The index and the entries still agree when an entry with a new key is added at the end. -/
theorem index_insert_iff (r : Registry κ β key) (b : β) (fresh : r.find? (key b) = none) (k : κ)
    (i : Nat) :
    (r.index.insert (key b) r.entries.size)[k]? = some i ↔
      (r.entries.push b)[i]?.map key = some k := by
  rw [Std.TreeMap.getElem?_insert, Array.getElem?_push]
  by_cases hk : key b = k
  · subst hk
    by_cases hi : i = r.entries.size
    · simp [hi]
    · have hnone : ¬ r.entries[i]?.map key = some (key b) := by
        rw [← r.index_eq_some_iff, show r.index[key b]? = none from fresh]
        simp
      simpa [hi, Ne.symm hi] using hnone
  · have hcmp : ¬ compare (key b) k = .eq := fun h => hk (Std.LawfulEqCmp.eq_of_compare h)
    rw [if_neg hcmp, r.index_eq_some_iff]
    by_cases hi : i = r.entries.size
    · simp [hi, hk]
    · simp [hi]

/-- Adds an entry with a new key at the end. -/
def push (r : Registry κ β key) (b : β) (fresh : r.find? (key b) = none) : Registry κ β key :=
  -- The position is read first, so that the array is not shared when it grows.
  let position := r.entries.size
  ⟨r.entries.push b, r.index.insert (key b) position, r.index_insert_iff b fresh⟩

/-- The position of the entry with the key of `b`, which is added if there is none yet. -/
def intern (r : Registry κ β key) (b : β) : Nat × Registry κ β key :=
  match h : r.find? (key b) with
  | some i => (i, r)
  | none => (r.size, r.push b h)

end Registry

end TemporalPlanning
