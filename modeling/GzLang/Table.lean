/-!
# Tables

A table maps names to values and remembers the order in which the names were first put. Putting
a value under a known name keeps the name's place.
-/

namespace GzLang

/-- Names with their values, in the order of their first appearance. -/
abbrev Table (α : Type u) := List (String × α)

namespace Table

variable {α : Type u}

def get? (t : Table α) (k : String) : Option α :=
  match t with
  | [] => none
  | (k', v) :: t => if k' = k then some v else get? t k

def has (t : Table α) (k : String) : Bool :=
  (get? t k).isSome

/-- Put a value under a name: in place if the name is known, else at the end. -/
def put (t : Table α) (k : String) (v : α) : Table α :=
  match t with
  | [] => [(k, v)]
  | (k', v') :: t => if k' = k then (k, v) :: t else (k', v') :: put t k v

def keys (t : Table α) : List String :=
  t.map Prod.fst

def values (t : Table α) : List α :=
  t.map Prod.snd

/-- Put all entries of a second table, in its order. -/
def merge (t u : Table α) : Table α :=
  u.foldl (fun t e => put t e.1 e.2) t

/-- The table of a list of entries, a later entry taking the place of an earlier one. -/
def ofList (es : List (String × α)) : Table α :=
  merge [] es

@[simp] theorem get?_nil (k : String) : get? ([] : Table α) k = none := rfl

@[simp] theorem get?_put_self (t : Table α) (k : String) (v : α) : get? (put t k v) k = some v := by
  induction t with
  | nil => simp [put, get?]
  | cons e t ih => by_cases h : e.1 = k <;> simp [put, get?, h, ih]

theorem get?_put_of_ne (t : Table α) {k j : String} (h : k ≠ j) (v : α) :
    get? (put t k v) j = get? t j := by
  induction t with
  | nil => simp [put, get?, h]
  | cons e t ih =>
    by_cases hk : e.1 = k
    · simp [put, get?, hk, h]
    · simp [put, get?, hk, ih]

/-- Putting keeps the order of the names and adds a new one at the end. -/
theorem keys_put (t : Table α) (k : String) (v : α) :
    keys (put t k v) = if k ∈ keys t then keys t else keys t ++ [k] := by
  induction t with
  | nil => simp [put, keys]
  | cons e t ih =>
    by_cases h : e.1 = k
    · simp [put, keys, h]
    · have h' : ¬ k = e.1 := fun e' => h e'.symm
      simp only [keys] at ih
      simp only [put, keys, h, if_false, List.map_cons, ih, List.mem_cons, h', false_or]
      split <;> simp_all

end Table

end GzLang
