import UriTemplate.Match.Item
import UriTemplate.Template.Basic

/-! # Allocation — which variable takes which items

    The variables of a positional expression take items from the left.  An exploded
    variable takes a run of pairs, a run of single texts, or one list.  Any other
    takes one item, except that the last one takes all that is left when there is
    more than one.  A pair is no value for a variable that is not exploded: it is
    left for an exploded variable further on, and without one it is refused, at
    once where pairs are refused (`refusesPairs`) and as a left-over item elsewhere.

    If a name is repeated, the first variable of that name decides. -/

namespace UriTemplate

/-- Values found for variables; none where there was nothing to find. -/
abbrev Bindings := OrderedMap (Option Value)

namespace Item

/-- The pairs that the items begin with, and the rest. -/
def takePairs : List Item → List (Text × Value) × List Item
  | ⟨.pair key member, _⟩ :: items => ((key, member) :: (takePairs items).1, (takePairs items).2)
  | items => ([], items)

/-- The single texts that the items begin with, and the rest. -/
def takeTexts : List Item → List Text × List Item
  | ⟨.text s, _⟩ :: items => (s :: (takeTexts items).1, (takeTexts items).2)
  | items => ([], items)

/-- The texts of all items, for a variable that takes no pair. -/
def absorb (name : Text) : List Item → Except MatchError (List Text)
  | [] => .ok []
  | ⟨.text s, _⟩ :: items => (absorb name items).map (s :: ·)
  | ⟨.list texts, _⟩ :: items => (absorb name items).map (texts ++ ·)
  | ⟨.pair _ _, position⟩ :: _ => .error ⟨.unexpectedPair name, some position⟩

/-- What an exploded variable takes from items that begin with `item`. -/
def takeExploded (item : Item) (items : List Item) : Value × List Item :=
  match item.content with
  | .pair key member => (.assoc ((key, member) :: (takePairs items).1), (takePairs items).2)
  | .list texts => (.ofTexts texts, items)
  | .text s => (.ofTexts (s :: (takeTexts items).1), (takeTexts items).2)

/-- The value of a single item for a variable that is not exploded; an empty text is none. -/
def single? (item : Item) : Option Value :=
  match item.content with
  | .text [] => none
  | .text s => some (.ofText s)
  | .list texts => some (.ofTexts texts)
  | .pair _ _ => none

/-- What a variable that is not exploded takes from items that begin with `item`, before the
    variables `later`. -/
def takeSingle (refusesPairs : Bool) (v : VarSpec) (later : List VarSpec) (item : Item)
    (items : List Item) : Except MatchError (Option Value × List Item) :=
  match item.content with
  | .pair _ _ =>
      if refusesPairs && !later.any (·.explode) then
        .error ⟨.unexpectedPair v.name, some item.position⟩
      else .ok (none, item :: items)
  | _ =>
      if later.isEmpty && !items.isEmpty then
        (absorb v.name (item :: items)).map fun texts => (some (.ofTexts texts), [])
      else .ok (item.single?, items)

end Item

namespace VarSpec

/-- What a variable takes from the items, before the variables `later`. -/
def take (refusesPairs : Bool) (v : VarSpec) (later : List VarSpec) :
    List Item → Except MatchError (Option Value × List Item)
  | [] => .ok (none, [])
  | item :: items =>
      if v.explode then
        let (value, rest) := item.takeExploded items
        .ok (some value, rest)
      else item.takeSingle refusesPairs v later items

/-- What each variable takes from the items, in order.  Items that are left are refused. -/
def takeAll (refusesPairs : Bool) : List VarSpec → List Item → Except MatchError Bindings
  | [], [] => .ok []
  | [], item :: items => .error ⟨.extraItems (items.length + 1), some item.position⟩
  | v :: later, items =>
      match v.take refusesPairs later items with
      | .error e => .error e
      | .ok (value, rest) =>
          (takeAll refusesPairs later rest).map ((v.name, value.bind Value.prune) :: ·)

end VarSpec

namespace Item

/-- The items handed out to the variables, the first of each name deciding. -/
def allocate (refusesPairs : Bool) (specs : List VarSpec) (items : List Item) :
    Except MatchError Bindings :=
  (VarSpec.takeAll refusesPairs specs items).map OrderedMap.firsts

end Item

end UriTemplate
