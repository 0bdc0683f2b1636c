import Std.Data.HashMap
import UriTemplate.Log
import UriTemplate.Match.Part

/-! # Search — the split of a URL among the parts of a template

    Parts are matched from the left.  A pattern takes the longest stretch it can,
    unless a literal follows: then every place within reach where the literal
    stands is a possible end (`Pattern.cuts`), tried from the right, and the first
    that lets all later parts match is taken.  If none does, the error of the first
    is reported.

    * `solve` is the search itself, by recursion on the parts;
    * `search` is the same search with a memory: an outcome depends only on how
      many parts are left and on the position, so each such pair is solved once.
      It also reports every stretch that is turned down, once. -/

namespace UriTemplate

namespace Bindings

/-- Values found earlier count first; names without one take a value found later, and names
    not seen before come last. -/
def fill (bound later : Bindings) : Bindings :=
  bound.map (fun entry => (entry.1, entry.2 <|> (OrderedMap.get? later entry.1).join)) ++
    later.filter fun entry => !OrderedMap.contains bound entry.1

end Bindings

/-- A possible end of a stretch: the length of the stretch, and the URL after it. -/
structure Cut where
  length : Nat
  rest : Text
deriving DecidableEq, Repr

namespace Cut

/-- The places, at most `n` code points further on, where `next` stands, the nearest first; the
    current place is `length` code points in. -/
def places (next : Text) (length : Nat) : Nat → Text → List Cut
  | 0, url => if next.isPrefixOf url then [⟨length, url⟩] else []
  | n + 1, url =>
      (if next.isPrefixOf url then [⟨length, url⟩] else []) ++
        match url with
        | [] => []
        | _ :: url => places next (length + 1) n url

end Cut

namespace Pattern

/-- The possible ends of a stretch before the parts `later`, in the order in which they are
    tried. -/
def cuts (p : Pattern) (later : List Part) (url : Text) : Cut × List Cut :=
  let whole : Cut := ⟨p.reach url, url.drop (p.reach url)⟩
  match later with
  | .literal next :: _ =>
      match (Cut.places next 0 (p.reach url) url).reverse with
      | [] => (whole, [])
      | cut :: others => (cut, others)
  | _ => (whole, [])

end Pattern

namespace Matching

/-- What matching comes to. -/
abbrev Outcome := Except MatchError Bindings

/-- A URL must end with the parts. -/
def atEnd (start : Nat) : Text → Outcome
  | [] => .ok []
  | url => .error ⟨.literal [] url, some start⟩

/-- Literal text that does not stand at `start`. -/
def missing (text : Text) (start : Nat) (url : Text) : Outcome :=
  .error ⟨.literal text (url.take text.length), some start⟩

/-- The first success; if there is none, the first failure. -/
def firstSuccess {α ε β : Type} (attempt : α → Except ε β) : α → List α → Except ε β
  | a, [] => attempt a
  | a, b :: others =>
      match attempt a with
      | .ok result => .ok result
      | .error e =>
          match firstSuccess attempt b others with
          | .ok result => .ok result
          | .error _ => .error e

/-- Match parts against `url`, which stands at offset `start` of the whole. -/
def solve (strict : Bool) : List Part → Nat → Text → Outcome
  | [], start, url => atEnd start url
  | .literal text :: later, start, url =>
      match text.isPrefixOf? url with
      | some rest => solve strict later (start + text.length) rest
      | none => missing text start url
  | .pattern p :: later, start, url =>
      let attempt (cut : Cut) : Outcome :=
        match p.bind strict (url.take cut.length) start with
        | .error e => .error e
        | .ok bound => (solve strict later (start + cut.length) cut.rest).map bound.fill
      firstSuccess attempt (p.cuts later url).1 (p.cuts later url).2

/-- What a search remembers: outcomes under the number of parts left and the position; the
    pairs of these that were taken up, and what was reported, both the latest first. -/
structure Trace where
  solved : Std.HashMap (Nat × Nat) Outcome
  entered : List (Nat × Nat)
  reported : List Record

namespace Trace

/-- Nothing solved and nothing reported. -/
def empty : Trace := ⟨∅, [], []⟩

/-- Take up what is to be solved under a key. -/
def enter (trace : Trace) (key : Nat × Nat) : Trace :=
  ⟨trace.solved, key :: trace.entered, trace.reported⟩

/-- Keep the outcome under a key. -/
def keep (trace : Trace) (key : Nat × Nat) (outcome : Outcome) : Trace :=
  ⟨trace.solved.insert key outcome, trace.entered, trace.reported⟩

/-- Report a record. -/
def report (trace : Trace) (record : Record) : Trace :=
  ⟨trace.solved, trace.entered, record :: trace.reported⟩

/-- The outcome under `key`, found with `find` if it is not known. -/
def remember (trace : Trace) (key : Nat × Nat) (find : Trace → Outcome × Trace) : Outcome × Trace :=
  match trace.solved[key]? with
  | some outcome => (outcome, trace)
  | none =>
      let (outcome, trace) := find (trace.enter key)
      (outcome, trace.keep key outcome)

/-- The first success; if there is none, the first failure. -/
def firstSuccess {α : Type} (attempt : α → Trace → Outcome × Trace) :
    α → List α → Trace → Outcome × Trace
  | a, [], trace => attempt a trace
  | a, b :: others, trace =>
      match attempt a trace with
      | (.ok result, trace) => (.ok result, trace)
      | (.error e, trace) =>
          match firstSuccess attempt b others trace with
          | (.ok result, trace) => (.ok result, trace)
          | (.error _, trace) => (.error e, trace)

end Trace

/-- Match parts as `solve` does, remembering outcomes and reporting rejected stretches. -/
def search (strict : Bool) : List Part → Nat → Text → Trace → Outcome × Trace
  | [], start, url, trace => trace.remember (0, start) fun trace => (atEnd start url, trace)
  | .literal text :: later, start, url, trace =>
      trace.remember (later.length + 1, start) fun trace =>
        match text.isPrefixOf? url with
        | some rest => search strict later (start + text.length) rest trace
        | none => (missing text start url, trace)
  | .pattern p :: later, start, url, trace =>
      let attempt (cut : Cut) (trace : Trace) : Outcome × Trace :=
        let stretch := url.take cut.length
        let (outcome, trace) : Outcome × Trace :=
          match p.bind strict stretch start with
          | .error e => (.error e, trace)
          | .ok bound =>
              let (outcome, trace) := search strict later (start + cut.length) cut.rest trace
              (outcome.map bound.fill, trace)
        match outcome with
        | .ok bindings => (.ok bindings, trace)
        | .error e =>
            let record : Record :=
              .stretchRejected p.toExpression.toText later.length start stretch e
            (.error e, trace.report record)
      trace.remember (later.length + 1, start)
        (Trace.firstSuccess attempt (p.cuts later url).1 (p.cuts later url).2)

end Matching

end UriTemplate
