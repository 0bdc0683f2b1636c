import UriTemplate.Fault
import UriTemplate.Match.Allocation
import UriTemplate.Value.Datum

/-! # Match results — the values recovered from a URL

    A result has an entry for every variable of its template, in order, with a value
    or with none.  It is read in plain values, and cannot be changed. -/

namespace UriTemplate

namespace Plain

mutual

/-- Is a plain value the same as a caller's datum?  Nothing is converted, a tuple is not a list,
    and the order of the entries of a map does not matter. -/
def agrees : Plain → Datum → Bool
  | null, .scalar .null => true
  | text s, .scalar (.text t) => s = t
  | list items, .list data _ => itemsAgree items data
  | map entries, .map data _ => entries.length = data.length && entriesAgree entries data
  | _, _ => false

/-- Is each item the same as the datum in its place? -/
def itemsAgree : List Plain → List Datum → Bool
  | [], [] => true
  | p :: items, d :: data => p.agrees d && itemsAgree items data
  | _, _ => false

/-- Does each entry agree with one under the same text? -/
def entriesAgree : List (Text × Plain) → List (Scalar × Datum) → Bool
  | [], _ => true
  | (k, p) :: entries, data =>
      (match data.lookup (.text k) with
        | some d => p.agrees d
        | none => false) && entriesAgree entries data

end

end Plain

/-- The values of the variables of a template. -/
structure MatchResult where
  bindings : Bindings
deriving Repr

namespace MatchResult

/-- The result with these values; a repeated name has its first place and last value. -/
def ofList (entries : List (Text × Option Value)) : MatchResult := ⟨OrderedMap.ofList entries⟩

/-- The names of all variables. -/
def names (r : MatchResult) : List Text := OrderedMap.keys r.bindings

/-- How many variables there are. -/
def size (r : MatchResult) : Nat := r.bindings.length

/-- Is there a variable of that name? -/
def contains (r : MatchResult) (name : Text) : Bool := OrderedMap.contains r.bindings name

/-- The value of a variable, none if it has none or is not there. -/
def value? (r : MatchResult) (name : Text) : Option Value :=
  (OrderedMap.get? r.bindings name).join

/-- The plain value of a variable, if it is there. -/
def get? (r : MatchResult) (name : Text) : Option Plain :=
  (OrderedMap.get? r.bindings name).map Value.plainOf

/-- The plain value of a variable that must be there. -/
def get (r : MatchResult) (name : Text) : Except Fault Plain :=
  match r.get? name with
  | some p => .ok p
  | none => .error (.noVariable name)

/-- Names and plain values of all variables. -/
def entries (r : MatchResult) : List (Text × Plain) :=
  r.bindings.map fun entry => (entry.1, Value.plainOf entry.2)

/-- Names and plain values of the variables that have a value. -/
def matched (r : MatchResult) : List (Text × Plain) :=
  r.bindings.filterMap fun entry => entry.2.map fun v => (entry.1, v.toPlain)

/-- The value of a variable as a list: a single value has one item, an associative array its
    keys, and no value is an empty list. -/
def list (r : MatchResult) (name : Text) : List Plain :=
  match r.value? name with
  | none => []
  | some (.list items) => Value.plainItems items
  | some (.assoc pairs) => pairs.map fun p => .text p.1
  | some (.scalar s) => [.text s.toText]

/-- A result as it is shown in a message. -/
def quoted (r : MatchResult) : Text :=
  "MatchResult(".toText ++ (Plain.map r.entries).quoted ++ [.char ')']

/-- Does a result hold the same plain values as a caller's map? -/
def agrees (r : MatchResult) (d : Datum) : Bool := (Plain.map r.entries).agrees d

/-- A result refuses to have anything put under a name. -/
def assign (_ : MatchResult) (_ : Text) : Except Fault MatchResult := .error .immutable

end MatchResult

end UriTemplate
