import UriTemplate.OrderedMap
import UriTemplate.Value.Scalar

/-! # Values of variables — scalars, lists and associative arrays

    What a variable stands for is a scalar, a list of values or an associative
    array.  A value is undefined when it holds no defined scalar at any depth
    (`Value.isUndefined`); the empty text is defined.  `Value.prune` drops the
    undefined members one level down, and the value itself when nothing is left. -/

namespace UriTemplate

/-- The value of a variable.  An associative array may repeat a key. -/
inductive Value where
  | scalar (s : Scalar)
  | list (items : List Value)
  | assoc (pairs : List (Text × Value))
deriving Repr

namespace Value

mutual

/-- Does the value hold no defined scalar? -/
def isUndefined : Value → Bool
  | scalar s => s.isNull
  | list items => areUndefined items
  | assoc pairs => membersUndefined pairs

/-- Are all values of a list undefined? -/
def areUndefined : List Value → Bool
  | [] => true
  | v :: items => v.isUndefined && areUndefined items

/-- Are all members of an associative array undefined? -/
def membersUndefined : List (Text × Value) → Bool
  | [] => true
  | (_, v) :: pairs => v.isUndefined && membersUndefined pairs

end

/-- A list is undefined when all its items are. -/
theorem areUndefined_eq_all (items : List Value) : areUndefined items = items.all isUndefined := by
  induction items with
  | nil => rfl
  | cons v items ih => simp [areUndefined, ih]

/-- An associative array is undefined when all its members are. -/
theorem membersUndefined_eq_all (pairs : List (Text × Value)) :
    membersUndefined pairs = pairs.all (·.2.isUndefined) := by
  induction pairs with
  | nil => rfl
  | cons p pairs ih => obtain ⟨k, v⟩ := p; simp [membersUndefined, ih]

/-- The value without its undefined members, unless it is undefined. -/
def prune (v : Value) : Option Value :=
  if v.isUndefined then none
  else
    match v with
    | scalar s => some (scalar s)
    | list items => some (list (items.filter (!·.isUndefined)))
    | assoc pairs => some (assoc (pairs.filter (!·.2.isUndefined)))

/-- A scalar holding a text. -/
def ofText (s : Text) : Value := scalar (.text s)

/-- A list of texts. -/
def ofTexts (texts : List Text) : Value := list (texts.map ofText)

/-- The keys of an associative array, repetitions included. -/
def keys? : Value → Option (List Text)
  | assoc pairs => some (pairs.map (·.1))
  | _ => none

end Value

end UriTemplate
