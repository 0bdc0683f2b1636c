import UriTemplate.Template.Basic
import UriTemplate.Value.Datum

/-! # Expansion — from a template and data to a URI

    Expansion is total: an undefined variable contributes nothing, and every datum
    has a text.  Each variable of an expression yields parts; the parts of the
    whole expression are joined by the separator of its operator, after its lead,
    and an expression without parts is written as nothing at all. -/

namespace UriTemplate

/-- The data that variables stand for. -/
abbrev Environment := OrderedMap Datum

namespace Environment

/-- Entries under scalar keys, then entries that take precedence.  Keys count by their
    texts, and of equal keys the last wins. -/
def ofEntries (entries : List (Scalar × Datum)) (overrides : List (Text × Datum)) : Environment :=
  OrderedMap.ofList (entries.map (fun e => (e.1.toText, e.2)) ++ overrides)

/-- The value of a variable, undefined parts removed. -/
def value? (env : Environment) (keywordLists : Bool) (name : Text) : Option Value :=
  ((OrderedMap.get? env name).bind (Datum.coerce keywordLists)).bind Value.prune

end Environment

namespace Style

/-- A value with its name, which stands alone before an empty value if the operator has it so. -/
def nameValue (style : Style) (name encoded : Text) : Text :=
  if style.naming = .nonempty ∧ encoded = [] then name else name ++ .char '=' :: encoded

/-- A value with its name if the operator writes names. -/
def part (style : Style) (name encoded : Text) : Text :=
  if style.isNamed then style.nameValue name encoded else encoded

end Style

/-- Texts joined by commas. -/
def commaJoined (texts : List Text) : Text := List.intercalate [.char ','] texts

namespace Value

mutual

/-- A member of a value, encoded; members inside it are joined by commas. -/
def encoded (escaping : Escaping) : Value → Text
  | scalar s => Percent.encode escaping s.toText
  | list items => commaJoined (encodedItems escaping items)
  | assoc pairs => commaJoined (encodedPairs escaping pairs)

/-- The items of a list, encoded. -/
def encodedItems (escaping : Escaping) : List Value → List Text
  | [] => []
  | v :: items => v.encoded escaping :: encodedItems escaping items

/-- The pairs of an associative array, each with a comma between key and member. -/
def encodedPairs (escaping : Escaping) : List (Text × Value) → List Text
  | [] => []
  | (k, v) :: pairs =>
      (Percent.encode escaping k ++ .char ',' :: v.encoded escaping) :: encodedPairs escaping pairs

end

end Value

namespace VarSpec

/-- The parts that a variable with a defined value contributes.  A length cuts scalars only;
    the pairs of an exploded associative array are written with equals signs under every
    operator. -/
def parts (v : VarSpec) (style : Style) : Value → List Text
  | .scalar s =>
      let text := match v.maxLength with
        | some n => s.toText.upTo n
        | none => s.toText
      [style.part v.name (Percent.encode style.escaping text)]
  | .list items =>
      let encoded := Value.encodedItems style.escaping items
      if v.explode then encoded.map (style.part v.name)
      else [style.part v.name (commaJoined encoded)]
  | .assoc pairs =>
      if v.explode then
        pairs.map fun p =>
          style.nameValue (Percent.encode style.escaping p.1) (p.2.encoded style.escaping)
      else [style.part v.name (commaJoined (Value.encodedPairs style.escaping pairs))]

end VarSpec

namespace Expression

/-- The parts of all variables, in order. -/
def parts (e : Expression) (keywordLists : Bool) (env : Environment) : List Text :=
  e.specs.flatMap fun v =>
    match env.value? keywordLists v.name with
    | some value => v.parts e.operator.style value
    | none => []

/-- What an expression is expanded to. -/
def render (e : Expression) (keywordLists : Bool) (env : Environment) : Text :=
  match e.parts keywordLists env with
  | [] => []
  | parts =>
      e.operator.style.lead.toList ++ List.intercalate [e.operator.style.separator] parts

end Expression

namespace Template

/-- What a template is expanded to. -/
def render (t : Template) (env : Environment) : Text :=
  t.segments.flatMap fun
    | .literal text => text
    | .expression e => e.render t.config.keywordLists env

end Template

end UriTemplate
