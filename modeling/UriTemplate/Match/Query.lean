import UriTemplate.Match.Allocation

/-! # Queries — parameters matched by name

    A query is a row of parameters `name=value` between ampersands; empty ones are
    skipped.  Variables take parameters by name, in three rounds:

    * each variable that is not exploded takes the first parameter of its name
      that is still there;
    * each exploded variable takes all parameters of its name that are still there;
    * the first exploded variable that found none takes everything that is left.

    Each round yields findings (`Finding`).  A name can be declared several times,
    in one expression or in several that are matched together; the first finding
    of a value settles which expression decides (`Finding.settle`), and within that
    expression the last one counts. -/

namespace UriTemplate

/-- A query parameter: its decoded name, its value as it stands if there is an equals sign,
    and the offset at which it begins. -/
structure Parameter where
  name : Text
  raw : Option Text
  position : Int
deriving DecidableEq, Repr

namespace Parameter

/-- The decoded value; without an equals sign it is empty. -/
def text (p : Parameter) : Text := Percent.decode (p.raw.getD [])

/-- The parameter that stands at an offset. -/
def ofRaw (raw : Text) (position : Int) : Except MatchError Parameter :=
  match raw.cut '=' with
  | (name, some value) =>
      if .char '=' ∈ value then .error ⟨.repeatedEquals raw, some position⟩
      else .ok ⟨Percent.decode name, some value, position⟩
  | (name, none) =>
      if .char ',' ∈ name then .error ⟨.listInQuery raw, some position⟩
      else .ok ⟨Percent.decode name, none, position⟩

/-- The parameters of raw texts that stand in a row from `offset` on. -/
def ofRaws (offset : Int) : List Text → Except MatchError (List Parameter)
  | [] => .ok []
  | [] :: raws => ofRaws (offset + 1) raws
  | raw :: raws =>
      match ofRaw raw offset with
      | .error e => .error e
      | .ok p => (ofRaws (offset + raw.length + 1) raws).map (p :: ·)

/-- The value of a parameter by itself: none if it is empty, a list if it has commas. -/
def single? (p : Parameter) : Option Value :=
  match p.raw with
  | none | some [] => none
  | some raw => some (.ofRaw true raw)

/-- The first parameter of a name, and the others. -/
def takeFirst (name : Text) : List Parameter → Option Parameter × List Parameter
  | [] => (none, [])
  | p :: ps =>
      if p.name = name then (some p, ps)
      else ((takeFirst name ps).1, p :: (takeFirst name ps).2)

/-- All parameters as an associative array of texts; none if there are none. -/
def assoc? : List Parameter → Option Value
  | [] => none
  | ps => some (.assoc (ps.map fun p => (p.name, .ofText p.text)))

end Parameter

/-- A variable, and which of the expressions matched together declares it. -/
structure Declared (ι : Type) where
  spec : VarSpec
  group : ι
deriving DecidableEq, Repr

/-- What a declared variable found. -/
structure Finding (ι : Type) where
  declared : Declared ι
  value : Option Value
deriving Repr

namespace Finding

variable {ι : Type}

/-- The name of the variable. -/
def name (f : Finding ι) : Text := f.declared.spec.name

/-- The expression that declares the variable. -/
def group (f : Finding ι) : ι := f.declared.group

/-- The first round: the variables that are not exploded, in order. -/
def firstRound : List (Declared ι) → List Parameter → List (Finding ι) × List Parameter
  | [], ps => ([], ps)
  | d :: ds, ps =>
      if d.spec.explode then firstRound ds ps
      else
        let (found, ps) := Parameter.takeFirst d.spec.name ps
        let (findings, ps) := firstRound ds ps
        (⟨d, found.bind Parameter.single?⟩ :: findings, ps)

/-- The second round: the exploded variables whose name occurs, in order; and those whose name
    does not. -/
def secondRound : List (Declared ι) → List Parameter →
    List (Finding ι) × List (Declared ι) × List Parameter
  | [], ps => ([], [], ps)
  | d :: ds, ps =>
      if !d.spec.explode then secondRound ds ps
      else
        match ps.filter (·.name = d.spec.name) with
        | [] =>
            let (findings, unmatched, ps) := secondRound ds ps
            (findings, d :: unmatched, ps)
        | own =>
            let (findings, unmatched, ps) :=
              secondRound ds (ps.filter (·.name ≠ d.spec.name))
            (⟨d, some (.ofTexts (own.map Parameter.text))⟩ :: findings, unmatched, ps)

/-- The third round: the first variable without a value takes what is left. -/
def thirdRound : List (Declared ι) → List Parameter → List (Finding ι) × List Parameter
  | [], ps => ([], ps)
  | d :: ds, ps => (⟨d, Parameter.assoc? ps⟩ :: ds.map (⟨·, none⟩), [])

/-- All findings in order of the rounds, and the parameters that nobody took. -/
def all (ds : List (Declared ι)) (ps : List Parameter) : List (Finding ι) × List Parameter :=
  let (first, ps) := firstRound ds ps
  let (second, unmatched, ps) := secondRound ds ps
  let (third, ps) := thirdRound unmatched ps
  (first ++ second ++ third, ps)

/-- The value of a name: the first finding that has one settles the group, the last one of
    that group counts. -/
def settle [DecidableEq ι] (findings : List (Finding ι)) (name : Text) : Option Value :=
  let own := findings.filter fun f => f.name = name ∧ f.value.isSome
  match own with
  | [] => none
  | f :: _ => (own.filter (·.group = f.group)).getLast?.bind (·.value)

end Finding

namespace Declared

variable {ι : Type}

/-- Declared variables bound to the parameters of a query, each name once, in order of
    declaration.  If `strict`, parameters that nobody took are refused. -/
def bind [DecidableEq ι] (strict : Bool) (ds : List (Declared ι)) (ps : List Parameter) :
    Except MatchError Bindings :=
  let (findings, left) := Finding.all ds ps
  let bindings := (Text.distinct (ds.map (·.spec.name))).map fun name =>
    (name, (Finding.settle findings name).bind Value.prune)
  match strict, left with
  | true, p :: left => .error ⟨.extraItems (left.length + 1), some p.position⟩
  | _, _ => .ok bindings

/-- The variables of expressions matched together, each with the number of its expression. -/
def ofGroups (groups : List (List VarSpec)) : List (Declared Nat) :=
  groups.zipIdx.flatMap fun (specs, group) => specs.map (⟨·, group⟩)

end Declared

/-- Why a query with given groups has no bindings. -/
inductive GroupedFault where
  | query (e : MatchError)
  | tooFewGroups
  | tooManyGroups
deriving DecidableEq, Repr

namespace Query

/-- The parameters of a query that begins at `offset`, its lead left out. -/
def read (query : Text) (offset : Int) : Except MatchError (List Parameter) :=
  Parameter.ofRaws offset (query.splitOn (.char '&'))

/-- Bind the variables of expressions matched together to a query that begins at `offset`. -/
def bind (strict : Bool) (groups : List (List VarSpec)) (query : Text) (offset : Int) :
    Except MatchError Bindings :=
  match read query offset with
  | .error e => .error e
  | .ok ps => Declared.bind strict (Declared.ofGroups groups) ps

/-- Bind variables whose groups are given one by one.  The query is taken apart before the
    groups are counted. -/
def bindGrouped (strict : Bool) (specs : List VarSpec) (groups : List Int) (query : Text)
    (offset : Int) : Except GroupedFault Bindings :=
  match read query offset with
  | .error e => .error (.query e)
  | .ok ps =>
      if groups.length < specs.length then .error .tooFewGroups
      else if specs.length < groups.length then .error .tooManyGroups
      else
        match Declared.bind strict (List.zipWith Declared.mk specs groups) ps with
        | .error e => .error (.query e)
        | .ok bindings => .ok bindings

end Query

end UriTemplate
