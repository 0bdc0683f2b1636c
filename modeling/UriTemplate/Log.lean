import UriTemplate.Fault

/-! # Log records — what the library reports while it works

    A record keeps what happened as data and is worded only when it is read. -/

namespace UriTemplate

/-- The part of the library that a record comes from. -/
inductive Channel where
  | templates
  | matcher
  | routing
deriving DecidableEq, Repr

/-- Something worth reporting. -/
inductive Record where
  /-- A template was read. -/
  | compiled (source : Text) (segments : Nat)
  /-- A stretch of a URL did not do for an expression, which `later` parts of the template
      follow; the stretch begins at `start`. -/
  | stretchRejected (expression : Text) (later start : Nat) (stretch : Text) (error : MatchError)
  /-- A route was added. -/
  | registered (source : Text) (name : Option Text)
  /-- A route did not fit a URL. -/
  | routeRejected (source url : Text) (error : MatchError)
deriving DecidableEq, Repr

namespace Record

/-- The channel that a record belongs to. -/
def channel : Record → Channel
  | compiled _ _ => .templates
  | stretchRejected _ _ _ _ _ => .matcher
  | registered _ _ | routeRejected _ _ _ => .routing

/-- A record in words. -/
def message : Record → Text
  | compiled source segments =>
      "Compiled template ".toText ++ source.quoted ++ " into ".toText ++ Text.ofNat segments ++
        " segment(s)".toText
  | stretchRejected expression _ _ stretch error =>
      expression ++ " rejected ".toText ++ stretch.quoted ++ ": ".toText ++ error.message
  | registered source name =>
      "Registered route ".toText ++ source.quoted ++ " (name=".toText ++
        (match name with
          | some name => name.quoted
          | none => "None".toText) ++ ")".toText
  | routeRejected source url error =>
      "Route ".toText ++ source.quoted ++ " rejected ".toText ++ url.quoted ++ ": ".toText ++
        error.message

end Record

/-- A value, and what was reported while it was found, in order. -/
structure Logged (α : Type) where
  value : α
  records : List Record
deriving Repr

end UriTemplate
