import UriTemplate.Text.Quoted

/-! # Faults — everything that can go wrong, and how it is told

    A fault carries its cause as data: what is not a template, where a URL stops
    fitting, what a router refuses.  `Fault.kind` sorts faults into a hierarchy with
    one root; `Fault.message` is the only place that words them. -/

namespace UriTemplate

/-- Why a text is not a template. -/
inductive ParseCause where
  /-- A malformed expression, or a character that may not stand in a literal. -/
  | malformed
  /-- A well-formed expression whose sigil is set aside for later use. -/
  | reservedSigil (sigil : Text)
  /-- A text that is not one variable. -/
  | malformedVariable
  /-- An invalid text, in a caller's words; no words mean a malformed one. -/
  | invalid (detail : Text)
  /-- Any other failure to read a template, in a caller's words. -/
  | general (detail : Text)
deriving DecidableEq, Repr

/-- A text that is not a template, from the problem on. -/
structure ParseError where
  cause : ParseCause
  remaining : Text
deriving DecidableEq, Repr

/-- Why a URL does not fit. -/
inductive MatchCause where
  /-- A pair met a variable that takes single values. -/
  | unexpectedPair (name : Text)
  /-- Items were left when every variable had been served. -/
  | extraItems (count : Int)
  /-- An item has more than one equals sign. -/
  | repeatedEquals (raw : Text)
  /-- A query parameter is a list where a name was expected. -/
  | listInQuery (raw : Text)
  /-- Literal text does not stand where it should; with nothing expected, the URL goes on
      after its end. -/
  | literal (expected found : Text)
  /-- Any other mismatch, in a caller's words. -/
  | general (detail : Text)
deriving DecidableEq, Repr

/-- A URL that does not fit, and the offset at which it stops to, where known. -/
structure MatchError where
  cause : MatchCause
  position : Option Int
deriving DecidableEq, Repr

/-- A URL that no route fits: the source of each route with the error it gave. -/
structure NoMatch where
  url : Text
  attempts : List (Text × MatchError)
deriving DecidableEq, Repr

/-- A fault of any kind. -/
inductive Fault where
  | parse (e : ParseError)
  /-- An operator that cannot be matched, in the template `source`. -/
  | unsupported (operator source : Text)
  /-- A second route under a name. -/
  | nameTaken (name existing rejected : Text)
  | mismatch (e : MatchError)
  | noMatch (e : NoMatch)
  /-- A route added to a router that is complete. -/
  | frozen
  /-- A name under which no route is registered. -/
  | noRoute (name : Text)
  /-- A name that a result does not have. -/
  | noVariable (name : Text)
  /-- A change to a result. -/
  | immutable
  /-- A wrong set-up, in a caller's words. -/
  | configuration (detail : Text)
  /-- Any other fault, in a caller's words. -/
  | general (detail : Text)
deriving DecidableEq, Repr

/-- The kinds of faults. -/
inductive FaultKind where
  | general
  | configuration
  | unsupportedOperator
  | parse
  | invalidTemplate
  | mismatch
  | unexpectedPair
  | extraItems
  | repeatedEquals
  | listInQuery
  | literalMismatch
  | noMatch
  | state
  | lookup
  | immutability
deriving DecidableEq, Repr

/-- The kinds above a kind, the nearest first.  Faults of use, rather than of templates and
    URLs, stand outside the hierarchy. -/
def FaultKind.ancestors : FaultKind → List FaultKind
  | general | state | lookup | immutability => []
  | configuration | parse | mismatch => [general]
  | unsupportedOperator => [configuration, general]
  | invalidTemplate => [parse, general]
  | unexpectedPair | extraItems | repeatedEquals | listInQuery | literalMismatch | noMatch =>
      [mismatch, general]

namespace ParseError

/-- The kind of a failure to read a template. -/
def kind (e : ParseError) : FaultKind :=
  match e.cause with
  | .general _ => .parse
  | _ => .invalidTemplate

/-- What is said of the cause, possibly nothing. -/
def detail (e : ParseError) : Text :=
  match e.cause with
  | .malformed | .invalid [] => "Invalid template".toText
  | .reservedSigil sigil => "Operator ".toText ++ sigil.quoted ++ " is reserved by RFC 6570".toText
  | .malformedVariable => "Invalid variable".toText
  | .invalid detail => detail
  | .general detail => detail

/-- The cause, then the text from the problem on. -/
def message (e : ParseError) : Text :=
  match e.detail with
  | [] => e.remaining.quoted
  | detail => detail ++ .char ':' :: .char ' ' :: e.remaining.quoted

end ParseError

namespace MatchError

/-- The kind of a mismatch. -/
def kind (e : MatchError) : FaultKind :=
  match e.cause with
  | .unexpectedPair _ => .unexpectedPair
  | .extraItems _ => .extraItems
  | .repeatedEquals _ => .repeatedEquals
  | .listInQuery _ => .listInQuery
  | .literal _ _ => .literalMismatch
  | .general _ => .mismatch

/-- What is said of the cause. -/
def detail (e : MatchError) : Text :=
  match e.cause with
  | .unexpectedPair name =>
      "unexpected dict value for non-exploded variable ".toText ++ name.quoted
  | .extraItems count =>
      "extra values: ".toText ++ Text.ofInt count ++
        (if count = 1 then " value" else " values").toText ++ " not bound".toText
  | .repeatedEquals raw => "invalid parameter syntax ".toText ++ raw.quoted
  | .listInQuery raw =>
      "only key/values are accepted in query strings, got ".toText ++ raw.quoted
  | .literal [] found => "unexpected trailing input ".toText ++ found.quoted
  | .literal expected found =>
      "expected ".toText ++ expected.quoted ++ ", found ".toText ++ found.quoted
  | .general detail => detail

/-- The cause, then the offset if it is known. -/
def message (e : MatchError) : Text :=
  match e.position with
  | none => e.detail
  | some p => e.detail ++ " (at offset ".toText ++ Text.ofInt p ++ ")".toText

end MatchError

namespace Fault

/-- The kind of a fault. -/
def kind : Fault → FaultKind
  | parse e => e.kind
  | unsupported _ _ => .unsupportedOperator
  | nameTaken _ _ _ | configuration _ => .configuration
  | mismatch e => e.kind
  | noMatch _ => .noMatch
  | frozen => .state
  | noRoute _ | noVariable _ => .lookup
  | immutable => .immutability
  | general _ => .general

/-- The kind of a fault and the kinds above it. -/
def lineage (f : Fault) : List FaultKind := f.kind :: f.kind.ancestors

/-- A fault in words. -/
def message : Fault → Text
  | parse e => e.message
  | unsupported operator source =>
      "Operator ".toText ++ operator.quoted ++ " in template ".toText ++ source.quoted ++
        " cannot be matched. Only \x7bvar\x7d, \x7b/var\x7d, \x7b?var\x7d".toText ++
        " and \x7b&var\x7d expressions are supported.".toText
  | nameTaken name existing rejected =>
      "Route name ".toText ++ name.quoted ++ " is already used by ".toText ++ existing.quoted ++
        "; cannot register it again for ".toText ++ rejected.quoted ++ ".".toText
  | mismatch e => e.message
  | noMatch e => "no template matches ".toText ++ e.url.quoted
  | frozen => "Cannot add routes after compilation.".toText
  | noRoute name => "No route named ".toText ++ name.quoted ++ ".".toText
  | noVariable name => name
  | immutable => "MatchResult is immutable.".toText
  | configuration detail | general detail => detail

end Fault

end UriTemplate
