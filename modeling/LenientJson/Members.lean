import LenientJson.Text.Basic

/-! Named entries in the order in which their names first appeared. Changing an entry keeps its
place; a new entry goes last. -/
namespace LenientJson

abbrev Members (α : Type) := List (Text × α)

namespace Members

variable {α : Type}

def keys (m : Members α) : List Text := m.map Prod.fst

def find? (key : Text) : Members α → Option α
  | [] => none
  | (k, value) :: rest => if k = key then some value else find? key rest

def insert (key : Text) (value : α) : Members α → Members α
  | [] => [(key, value)]
  | (k, old) :: rest =>
    if k = key then (k, value) :: rest else (k, old) :: insert key value rest

def erase (key : Text) : Members α → Members α
  | [] => []
  | (k, value) :: rest => if k = key then rest else (k, value) :: erase key rest

def merge (older newer : Members α) : Members α :=
  newer.foldl (fun m entry => insert entry.1 entry.2 m) older

@[simp] theorem find?_insert_self (key : Text) (value : α) (m : Members α) :
    find? key (insert key value m) = some value := by
  induction m with
  | nil => simp [insert, find?]
  | cons entry rest ih =>
    obtain ⟨k, old⟩ := entry
    by_cases h : k = key <;> simp [insert, find?, h, ih]

theorem find?_insert_of_ne {key other : Text} (h : other ≠ key) (value : α) (m : Members α) :
    find? other (insert key value m) = find? other m := by
  induction m with
  | nil => simp [insert, find?, Ne.symm h]
  | cons entry rest ih =>
    obtain ⟨k, old⟩ := entry
    by_cases hk : k = key
    · subst hk
      simp [insert, find?, Ne.symm h]
    · rw [insert, if_neg hk, find?, find?, ih]

end Members
end LenientJson
