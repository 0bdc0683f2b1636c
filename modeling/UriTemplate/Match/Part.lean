import UriTemplate.Match.Query

/-! # Parts — a template as the matcher sees it

    Only simple, path and query expressions can be matched.  A template that has
    no others becomes a list of parts: literals, and patterns that find values in a
    stretch of a URL.  Continuations directly after a query expression belong to
    it: their parameters can only be told apart by name, so all are matched as one
    pattern. -/

namespace UriTemplate

/-- Which of its two sigils a query expression begins with. -/
inductive QueryLead where
  | question
  | ampersand
deriving DecidableEq, Repr

/-- An expression that can be matched.  A query may gather the variables of several
    expressions. -/
inductive Pattern where
  | items (layout : ItemLayout) (specs : List VarSpec)
  | query (lead : QueryLead) (groups : List (List VarSpec))
deriving DecidableEq, Repr

/-- One part of a template that can be matched. -/
inductive Part where
  | literal (text : Text)
  | pattern (p : Pattern)
deriving DecidableEq, Repr

namespace Pattern

/-- The pattern of an expression, if it can be matched. -/
def ofExpression? (e : Expression) : Option Pattern :=
  match e.operator with
  | .simple => some (items .commas e.specs)
  | .pathSegment => some (items .slashes e.specs)
  | .query => some (query .question [e.specs])
  | .continuation => some (query .ampersand [e.specs])
  | _ => none

/-- The expression that a pattern amounts to. -/
def toExpression : Pattern → Expression
  | items .commas specs => ⟨.simple, specs⟩
  | items .slashes specs => ⟨.pathSegment, specs⟩
  | query .question groups => ⟨.query, groups.flatten⟩
  | query .ampersand groups => ⟨.continuation, groups.flatten⟩

/-- Can the character stand in a stretch of the pattern, after its lead? -/
def admits (p : Pattern) (c : CodePoint) : Bool :=
  isUnreserved c || c == '%' || c == ',' || c == '=' ||
    match p with
    | items .commas _ => false
    | items .slashes _ => c == '/'
    | query _ _ => c == '&'

/-- Can the character open a stretch of the pattern? -/
def isLead (p : Pattern) (c : CodePoint) : Bool :=
  match p with
  | items .commas _ => p.admits c
  | items .slashes _ => c == '/'
  | query _ _ => c == '?' || c == '&'

/-- The longest stretch of the pattern that a URL begins with.  Without its lead the
    expression has written nothing. -/
def reach (p : Pattern) : Text → Nat
  | [] => 0
  | c :: url => if p.isLead c then (url.takeWhile p.admits).length + 1 else 0

/-- The values that a stretch beginning at `start` gives. -/
def bind (strict : Bool) (p : Pattern) (stretch : Text) (start : Nat) :
    Except MatchError Bindings :=
  match p, stretch with
  | items layout specs, stretch =>
      match Item.read layout stretch start with
      | .error e => .error e
      | .ok found => Item.allocate (layout = .commas) specs found
  | query _ groups, [] =>
      .ok ((Text.distinct (groups.flatten.map VarSpec.name)).map (·, none))
  | query _ groups, _ :: parameters => Query.bind strict groups parameters (start + 1)

end Pattern

namespace Segment

/-- The part that a segment is, or the operator that keeps it from being one. -/
def toPart : Segment → Except Operator Part
  | literal text => .ok (.literal text)
  | expression e =>
      match Pattern.ofExpression? e with
      | some p => .ok (.pattern p)
      | none => .error e.operator

/-- The parts that segments are, or the first operator that cannot be matched. -/
def toParts : List Segment → Except Operator (List Part)
  | [] => .ok []
  | segment :: segments =>
      match segment.toPart with
      | .error operator => .error operator
      | .ok part => (toParts segments).map (part :: ·)

end Segment

namespace Part

/-- Join continuations to a query directly before them.  Every group is of one expression, which in
    a template has a variable. -/
def gather : List Part → List Part
  | [] => []
  | .pattern (.query lead groups) :: parts =>
      match gather parts with
      | .pattern (.query .ampersand later) :: parts =>
          .pattern (.query lead (groups ++ later)) :: parts
      | parts => .pattern (.query lead groups) :: parts
  | part :: parts => part :: gather parts

end Part

namespace Template

/-- Can every expression be matched? -/
def isMatchable (t : Template) : Bool :=
  t.expressions.all fun e => (Pattern.ofExpression? e).isSome

/-- The parts of a template, or the fault of its first expression that cannot be matched. -/
def parts (t : Template) : Except Fault (List Part) :=
  match Segment.toParts t.segments with
  | .ok parts => .ok (Part.gather parts)
  | .error operator => .error (.unsupported operator.sigil t.source)

end Template

end UriTemplate
