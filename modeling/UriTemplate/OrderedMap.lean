import UriTemplate.Text.Basic

/-! # Ordered maps — entries under names, in order of insertion

    A map is the list of its entries.  Reading finds the first entry of a name;
    the operations that build a map keep one entry a name, except where a caller
    hands in a list with repetitions on purpose. -/

namespace UriTemplate

/-- Entries under names, in order. -/
abbrev OrderedMap (α : Type) := List (Text × α)

namespace OrderedMap

variable {α : Type}

/-- The names, in order. -/
def keys (m : OrderedMap α) : List Text := m.map (·.1)

/-- The entry of a name. -/
def get? (m : OrderedMap α) (k : Text) : Option α :=
  match m with
  | [] => none
  | (l, a) :: m => if l = k then some a else get? m k

/-- Is there an entry of that name? -/
def contains (m : OrderedMap α) (k : Text) : Bool := (get? m k).isSome

/-- Set the entry of a name, in its place if it has one and at the end otherwise. -/
def insert (m : OrderedMap α) (k : Text) (a : α) : OrderedMap α :=
  match m with
  | [] => [(k, a)]
  | (l, b) :: m => if l = k then (k, a) :: m else (l, b) :: insert m k a

/-- Set every entry of `entries` in turn: each name has its first place and last entry. -/
def ofList (entries : List (Text × α)) : OrderedMap α :=
  entries.foldl (fun m e => insert m e.1 e.2) []

/-- Keep the first entry of each name. -/
def firsts (entries : List (Text × α)) : OrderedMap α :=
  match entries with
  | [] => []
  | e :: entries => e :: (firsts entries).filter (·.1 ≠ e.1)

/-- Reading after setting. -/
theorem get?_insert (m : OrderedMap α) (k l : Text) (a : α) :
    get? (insert m k a) l = if k = l then some a else get? m l := by
  induction m with
  | nil => simp [insert, get?]
  | cons e m ih =>
      obtain ⟨j, b⟩ := e
      by_cases hj : j = k
      · subst hj
        by_cases hl : j = l <;> simp [insert, get?, hl]
      · by_cases hl : j = l
        · subst hl
          simp [insert, get?, hj, Ne.symm hj]
        · simp [insert, get?, hj, hl, ih]

/-- A name that is not there is set at the end. -/
theorem insert_of_get?_eq_none {m : OrderedMap α} {k : Text} (h : get? m k = none) (a : α) :
    insert m k a = m ++ [(k, a)] := by
  induction m with
  | nil => rfl
  | cons e m ih =>
      rw [get?] at h
      split at h
      · cases h
      · next hne => rw [insert, if_neg hne, ih h, List.cons_append]

end OrderedMap

end UriTemplate
