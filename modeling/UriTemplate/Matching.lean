import UriTemplate.Match.Result
import UriTemplate.Match.Search

/-! # Matching — from a URL back to values

    Expansion loses information, so matching recovers values that expand to the
    URL, not always the ones it was expanded from: an associative array that is not
    exploded comes back as a list. -/

namespace UriTemplate

namespace Template

/-- Match a whole URL, reporting every stretch that was turned down. -/
def matchUrl (t : Template) (url : Text) : Logged (Except Fault MatchResult) :=
  match t.parts with
  | .error fault => ⟨.error fault, []⟩
  | .ok parts =>
      let (outcome, trace) := Matching.search t.config.strictQuery parts 0 url .empty
      match outcome with
      | .ok bindings => ⟨.ok ⟨bindings⟩, trace.reported.reverse⟩
      | .error e => ⟨.error (.mismatch e), trace.reported.reverse⟩

/-- Refuse a template that cannot be matched. -/
def requireMatchable (t : Template) : Except Fault Unit := t.parts.map fun _ => ()

end Template

end UriTemplate
