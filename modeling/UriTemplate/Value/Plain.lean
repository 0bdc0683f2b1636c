import UriTemplate.Text.Quoted
import UriTemplate.Value.Basic

/-! # Plain values — what a reader of a result sees

    A plain value has texts where a value has scalars, and a map where it has an
    associative array: a repeated key keeps its first place and its last member.
    `Plain.quoted` shows a plain value inside a message. -/

namespace UriTemplate

/-- Texts, lists and maps, or nothing. -/
inductive Plain where
  | null
  | text (s : Text)
  | list (items : List Plain)
  | map (entries : List (Text × Plain))
deriving Repr

namespace Plain

/-- Texts in a row, with a comma and a blank between them. -/
def spaced (parts : List Text) : Text := List.intercalate [',', ' '] parts

mutual

/-- A plain value as it is shown in a message. -/
def quoted : Plain → Text
  | null => ['N', 'o', 'n', 'e']
  | text s => s.quoted
  | list items => .char '[' :: spaced (quotedItems items) ++ [.char ']']
  | map entries => .char '\x7b' :: spaced (quotedEntries entries) ++ [.char '\x7d']

/-- The items of a list as they are shown. -/
def quotedItems : List Plain → List Text
  | [] => []
  | p :: items => p.quoted :: quotedItems items

/-- The entries of a map as they are shown. -/
def quotedEntries : List (Text × Plain) → List Text
  | [] => []
  | (k, p) :: entries =>
      (Text.quoted k ++ .char ':' :: .char ' ' :: p.quoted) :: quotedEntries entries

end

end Plain

namespace Value

mutual

/-- The plain value of a value. -/
def toPlain : Value → Plain
  | scalar s => .text s.toText
  | list items => .list (plainItems items)
  | assoc pairs => .map (OrderedMap.ofList (plainEntries pairs))

/-- The plain values of a list. -/
def plainItems : List Value → List Plain
  | [] => []
  | v :: items => v.toPlain :: plainItems items

/-- The plain values of the members of an associative array, under their keys. -/
def plainEntries : List (Text × Value) → List (Text × Plain)
  | [] => []
  | (k, v) :: pairs => (k, v.toPlain) :: plainEntries pairs

end

/-- Nothing is the plain value of an absent value. -/
def plainOf : Option Value → Plain
  | none => .null
  | some v => v.toPlain

end Value

end UriTemplate
