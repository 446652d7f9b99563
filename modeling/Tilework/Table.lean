/-!
# Tables keyed by text

A table lists its entries in the order in which their keys were first put. Putting a key again
replaces its value in place.
-/

namespace Tilework

abbrev Table (α : Type) := List (String × α)

namespace Table

variable {α : Type}

def get? (table : Table α) (key : String) : Option α := (table.find? (·.1 = key)).map (·.2)

def put : Table α → String → α → Table α
  | [], key, value => [(key, value)]
  | (k, v) :: rest, key, value =>
    if k = key then (key, value) :: rest else (k, v) :: put rest key value

def keys (table : Table α) : List String := table.map (·.1)

theorem get?_put_self (table : Table α) (key : String) (value : α) :
    (put table key value).get? key = some value := by
  induction table with
  | nil => simp [put, get?]
  | cons e rest ih =>
    by_cases h : e.1 = key
    · simp [put, get?, h]
    · simpa [put, get?, h] using ih

theorem get?_put_of_ne (table : Table α) {key other : String} (value : α) (h : other ≠ key) :
    (put table key value).get? other = table.get? other := by
  induction table with
  | nil => simp [put, get?, h.symm]
  | cons e rest ih =>
    by_cases hk : e.1 = key
    · simp [put, get?, hk, h.symm]
    · by_cases ho : e.1 = other
      · simp [put, get?, ho, h]
      · simpa [put, get?, hk, ho] using ih

end Table

/-- Texts in ascending order of their characters, which is also the order of their UTF-8 bytes. -/
def ascending (names : List String) : List String := names.mergeSort fun a b => decide (a ≤ b)

end Tilework
