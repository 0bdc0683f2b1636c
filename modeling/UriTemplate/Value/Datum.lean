import UriTemplate.Value.Plain

/-! # Data from the caller — and the values they are taken for

    A caller hands in scalars, lists, tuples and maps, nested at will, or a value
    already made.  `Datum.toValue` says what each is taken for.  With keyword lists
    on, a sequence made only of pairs, that is of tuples of two, is an associative
    array; otherwise every sequence is a list.  A null inside a sequence or a map
    keeps its place, so that pruning sees it; a null by itself is no value at all
    (`Datum.coerce`). -/

namespace UriTemplate

/-- What a caller hands in for a variable.  Anything can be the first item of a pair and so
    serve as a key, and then it counts by its text; what is no scalar has the text that the
    caller's system makes of it.  A map is only ever read under the texts of its keys, for which
    scalars do. -/
inductive Datum where
  | scalar (s : Scalar)
  | list (items : List Datum) (text : Text := [])
  | tuple (items : List Datum) (text : Text := [])
  | map (entries : List (Scalar × Datum)) (text : Text := [])
  | value (v : Value) (text : Text := [])
deriving Repr

namespace Datum

/-- The text of a datum that serves as a key. -/
def keyText : Datum → Text
  | scalar s => s.toText
  | value (.scalar s) _ => s.toText
  | list _ text | tuple _ text | map _ text | value _ text => text

/-- A tuple of two? -/
def isPair : Datum → Bool
  | tuple [_, _] _ => true
  | _ => false

/-- Is the sequence a keyword list? -/
def areKeywords (items : List Datum) : Bool := !items.isEmpty && items.all isPair

mutual

/-- The value a datum is taken for. -/
def toValue (keywordLists : Bool) : Datum → Value
  | scalar s => .scalar s
  | list items _ | tuple items _ =>
      if keywordLists && areKeywords items then .assoc (pairsOf keywordLists items)
      else .list (itemsOf keywordLists items)
  | map entries _ => .assoc (membersOf keywordLists entries)
  | value v _ => v

/-- The values of a sequence. -/
def itemsOf (keywordLists : Bool) : List Datum → List Value
  | [] => []
  | d :: items => d.toValue keywordLists :: itemsOf keywordLists items

/-- The keys and members of a keyword list. -/
def pairsOf (keywordLists : Bool) : List Datum → List (Text × Value)
  | [] => []
  | tuple [k, d] _ :: items => (k.keyText, d.toValue keywordLists) :: pairsOf keywordLists items
  | _ :: items => pairsOf keywordLists items

/-- The keys and members of a map. -/
def membersOf (keywordLists : Bool) : List (Scalar × Datum) → List (Text × Value)
  | [] => []
  | (k, d) :: entries => (k.toText, d.toValue keywordLists) :: membersOf keywordLists entries

end

/-- The value of a datum, none if it is null. -/
def coerce (keywordLists : Bool) : Datum → Option Value
  | scalar .null => none
  | d => some (d.toValue keywordLists)

end Datum

end UriTemplate
