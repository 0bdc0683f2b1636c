import UriTemplate.Fault
import UriTemplate.Operator
import UriTemplate.Value.Basic

/-! # Items — what a positional expression finds in a URL

    A simple expression is a row of items between commas, a path expression a row of
    items between slashes, after its leading slash.  An item with an equals sign is
    a pair; in a path, where commas do not separate items, an item or the member of
    a pair may be a list.  Everything is decoded only after it has been taken
    apart, so encoded separators are part of the texts. -/

namespace UriTemplate

/-- How the items of a positional expression are laid out. -/
inductive ItemLayout where
  | commas
  | slashes
deriving DecidableEq, Repr

/-- What an item holds. -/
inductive ItemContent where
  | text (s : Text)
  | list (texts : List Text)
  | pair (key : Text) (member : Value)
deriving Repr

/-- An item, and the offset at which it begins. -/
structure Item where
  content : ItemContent
  position : Int
deriving Repr

namespace ItemLayout

/-- The layout that the operator's items are read in. -/
def ofOperator : Operator → ItemLayout
  | .pathSegment => slashes
  | _ => commas

/-- What stands between items. -/
def separator : ItemLayout → CodePoint
  | commas => ','
  | slashes => '/'

/-- Can an item be a list? -/
def hasLists : ItemLayout → Bool
  | commas => false
  | slashes => true

end ItemLayout

/-- A value that was read: a list if lists are allowed and there is a comma, else a text. -/
def Value.ofRaw (lists : Bool) (raw : Text) : Value :=
  if lists ∧ .char ',' ∈ raw then ofTexts ((raw.splitOn (.char ',')).map Percent.decode)
  else ofText (Percent.decode raw)

namespace ItemContent

/-- What a raw item holds. -/
def ofRaw (lists : Bool) (raw : Text) : Except MatchCause ItemContent :=
  match raw.cut '=' with
  | (key, some member) =>
      if .char '=' ∈ member then .error (.repeatedEquals raw)
      else .ok (pair (Percent.decode key) (Value.ofRaw lists member))
  | (_, none) =>
      if lists ∧ .char ',' ∈ raw then .ok (list ((raw.splitOn (.char ',')).map Percent.decode))
      else .ok (text (Percent.decode raw))

end ItemContent

namespace Item

/-- The items of raw texts that stand in a row from `offset` on, one separator apart. -/
def ofRaws (lists : Bool) (offset : Int) : List Text → Except MatchError (List Item)
  | [] => .ok []
  | raw :: raws =>
      match ItemContent.ofRaw lists raw with
      | .error cause => .error ⟨cause, some offset⟩
      | .ok content =>
          (ofRaws lists (offset + raw.length + 1) raws).map (⟨content, offset⟩ :: ·)

/-- The items of the stretch of a URL that begins at `offset`.  An empty stretch has none; in
    a path the first character is the leading slash. -/
def read (layout : ItemLayout) (stretch : Text) (offset : Int) : Except MatchError (List Item) :=
  match stretch, layout with
  | [], _ => .ok []
  | stretch, .commas => ofRaws false offset (stretch.splitOn (.char ','))
  | _ :: stretch, .slashes => ofRaws true (offset + 1) (stretch.splitOn (.char '/'))

end Item

end UriTemplate
