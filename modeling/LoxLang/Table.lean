/-!
# Tables of names

A finite map from names, as its entries in the order in which the names were first set. Setting a
name again replaces its value in place, so a name occurs once and is never lost.
-/
namespace LoxLang

structure Table (α : Type) where
  entries : List (String × α)
deriving DecidableEq

namespace Table

variable {α : Type}

def empty : Table α := ⟨[]⟩

instance : EmptyCollection (Table α) := ⟨empty⟩

def lookup (name : String) : List (String × α) → Option α
  | [] => none
  | (key, value) :: rest => if key = name then some value else lookup name rest

def replace (name : String) (value : α) : List (String × α) → List (String × α)
  | [] => [(name, value)]
  | (key, old) :: rest =>
    if key = name then (key, value) :: rest else (key, old) :: replace name value rest

/-- The value of a name. -/
def get? (t : Table α) (name : String) : Option α := lookup name t.entries

/-- Gives a name a value, whether it had one or not. -/
def set (t : Table α) (name : String) (value : α) : Table α := ⟨replace name value t.entries⟩

def contains (t : Table α) (name : String) : Bool := (t.get? name).isSome

def names (t : Table α) : List String := t.entries.map Prod.fst

@[simp]
theorem get?_empty (name : String) : (∅ : Table α).get? name = none := rfl

theorem get?_set (t : Table α) (name other : String) (value : α) :
    (t.set name value).get? other = if name = other then some value else t.get? other := by
  unfold set get?
  induction t.entries with
  | nil => simp [replace, lookup]
  | cons entry rest ih =>
    obtain ⟨key, old⟩ := entry
    by_cases hk : key = name
    · subst hk
      by_cases ho : key = other <;> simp [replace, lookup, ho]
    · by_cases ho : key = other
      · subst ho
        simp [replace, lookup, hk, Ne.symm hk]
      · simp [replace, lookup, hk, ho, ih]

@[simp]
theorem get?_set_self (t : Table α) (name : String) (value : α) :
    (t.set name value).get? name = some value := by
  simp [get?_set]

end Table
end LoxLang
