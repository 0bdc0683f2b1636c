import UriTemplate.Operator
import UriTemplate.Template.VarSpec

/-! # Templates — literals and expressions

    A template is a sequence of segments: text kept as it is, and expressions that
    apply an operator to variables.  `Expression.toText` and `Segment.toText` write
    them as they stand in the source of a template. -/

namespace UriTemplate

/-- How a template renders and matches. -/
structure Config where
  /-- A sequence of pairs is an associative array. -/
  keywordLists : Bool := true
  /-- Query parameters that no variable takes are refused. -/
  strictQuery : Bool := false
deriving DecidableEq, Repr

/-- An operator applied to variables.  By itself it may have none; in a template it has one or
    more (`Template.nonempty`). -/
structure Expression where
  operator : Operator
  specs : List VarSpec
deriving DecidableEq, Repr

/-- One part of a template. -/
inductive Segment where
  | literal (text : Text)
  | expression (e : Expression)
deriving DecidableEq, Repr

/-- Does an expression have one variable or more? -/
def Segment.HasVariables : Segment → Prop
  | literal _ => True
  | expression e => e.specs ≠ []

instance : DecidablePred Segment.HasVariables
  | .literal _ => isTrue trivial
  | .expression e => inferInstanceAs (Decidable (e.specs ≠ []))

/-- A template with the text it was read from.  None of its expressions is without variables. -/
structure Template where
  source : Text
  segments : List Segment
  config : Config
  nonempty : ∀ s ∈ segments, s.HasVariables := by decide
deriving DecidableEq, Repr

/-- The expression between its braces. -/
def Expression.toText (e : Expression) : Text :=
  .char '\x7b' :: e.operator.sigil ++
    List.intercalate [.char ','] (e.specs.map VarSpec.toText) ++ [.char '\x7d']

namespace Segment

/-- The segment as it stands in the source. -/
def toText : Segment → Text
  | literal text => text
  | expression e => e.toText

/-- The expression of a segment that is one. -/
def expression? : Segment → Option Expression
  | literal _ => none
  | expression e => some e

/-- Put text before segments: it joins a literal that they begin with. -/
def prepend (text : Text) : List Segment → List Segment
  | literal next :: segments => literal (text ++ next) :: segments
  | segments => literal text :: segments

end Segment

namespace Template

/-- The expressions, in order. -/
def expressions (t : Template) : List Expression := t.segments.filterMap Segment.expression?

/-- The names of the variables, each once, in order of first appearance. -/
def variableNames (t : Template) : List Text :=
  Text.distinct (t.expressions.flatMap fun e => e.specs.map VarSpec.name)

end Template

end UriTemplate
