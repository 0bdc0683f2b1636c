import UriTemplate.Expansion

/-! # The standard's algorithm — an expression written piece by piece

    RFC 6570 expands an expression in one walk over its variables.  It keeps a single
    result and appends to it: before the first defined variable what the operator
    table has as `first`, before every other one `sep`, then a name, an equals sign or
    what stands in its place, and the value.  Nothing is collected and joined later.

    The definitions of this file are that walk, with the table of appendix A.  They
    share with `Expression.render` only the percent-encoding of texts and the way data
    are taken for values. -/

namespace UriTemplate.Standard

/-- What the operator table has for one operator. -/
structure Row where
  /-- Appended before the first defined variable. -/
  first : Text
  /-- Appended before every other defined variable, and between exploded members. -/
  sep : Text
  /-- Are values written with names? -/
  named : Bool
  /-- Appended to a name whose value is empty. -/
  ifemp : Text
  /-- What is not percent-encoded. -/
  allow : Escaping
deriving DecidableEq, Repr

/-- The operator table. -/
def row : Operator → Row
  | .simple => ⟨[], [','], false, [], .unreserved⟩
  | .reserved => ⟨[], [','], false, [], .reserved⟩
  | .label => ⟨['.'], ['.'], false, [], .unreserved⟩
  | .pathSegment => ⟨['/'], ['/'], false, [], .unreserved⟩
  | .pathParameter => ⟨[';'], [';'], true, [], .unreserved⟩
  | .query => ⟨['?'], ['&'], true, ['='], .unreserved⟩
  | .continuation => ⟨['&'], ['&'], true, ['='], .unreserved⟩
  | .fragment => ⟨['#'], [','], false, [], .reserved⟩

/-- A value in the standard's terms: members may be undefined. -/
inductive Meaning where
  | string (s : Text)
  | list (members : List (Option Text))
  | pairs (members : List (Text × Option Text))
deriving DecidableEq, Repr

namespace Meaning

/-- A string is defined, a composite if one of its members is. -/
def isDefined : Meaning → Bool
  | string _ => true
  | list members => members.any Option.isSome
  | pairs members => members.any (·.2.isSome)

end Meaning

/-- The beginning of a string, if the variable has a length and the string is longer. -/
def shown (v : VarSpec) (s : Text) : Text :=
  match v.maxLength with
  | some n => if n < s.length then s.take n.toNat else s
  | none => s

/-- Append all members, with `between` between two of them. -/
def appendAll {α : Type} (between : Text) (append : Text → α → Text) : Text → List α → Text
  | result, [] => result
  | result, [a] => append result a
  | result, a :: members => appendAll between append (append result a ++ between) members

namespace Row

variable (row : Row)

/-- Append an encoded text. -/
def appendText (result s : Text) : Text := result ++ Percent.encode row.allow s

/-- Append a name with a text: an empty one is written as the table has it. -/
def appendNamed (result name s : Text) : Text :=
  if s = [] then result ++ name ++ row.ifemp
  else row.appendText (result ++ name ++ [.char '=']) s

/-- Append a string, no more of it than the length of the variable allows. -/
def appendString (v : VarSpec) (result s : Text) : Text :=
  if row.named then
    if s = [] then result ++ v.name ++ row.ifemp
    else row.appendText (result ++ v.name ++ [.char '=']) (shown v s)
  else row.appendText result (shown v s)

/-- Append members with commas between them, after the name if values have names.  They are
    empty if nothing would be appended. -/
def appendJoined {α : Type} (name : Text) (append : Text → α → Text) (result : Text)
    (members : List α) : Text :=
  if row.named then
    if appendAll [','] append [] members = [] then result ++ name ++ row.ifemp
    else appendAll [','] append (result ++ name ++ [.char '=']) members
  else appendAll [','] append result members

/-- Append a defined list. -/
def appendList (v : VarSpec) (result : Text) (texts : List Text) : Text :=
  if v.explode then
    if row.named then
      appendAll row.sep (fun result s => row.appendNamed result v.name s) result texts
    else appendAll row.sep row.appendText result texts
  else row.appendJoined v.name row.appendText result texts

/-- Append defined pairs. -/
def appendPairs (v : VarSpec) (result : Text) (pairs : List (Text × Text)) : Text :=
  if v.explode then
    if row.named then
      appendAll row.sep
        (fun result p => row.appendNamed result (Percent.encode row.allow p.1) p.2) result pairs
    else
      appendAll row.sep
        (fun result p => row.appendText (row.appendText result p.1 ++ [.char '=']) p.2) result pairs
  else
    row.appendJoined v.name
      (fun result p => row.appendText (row.appendText result p.1 ++ [.char ',']) p.2) result pairs

/-- Append what a variable stands for; undefined members are passed over. -/
def append (v : VarSpec) (result : Text) : Meaning → Text
  | .string s => row.appendString v result s
  | .list members => row.appendList v result (members.filterMap id)
  | .pairs members => row.appendPairs v result (members.filterMap fun m => m.2.map (m.1, ·))

end Row

/-- The result so far, and whether the first defined variable has been met. -/
structure Progress where
  result : Text
  begun : Bool

/-- Go on to the next variable; an undefined one is passed over. -/
def Row.advance (row : Row) (meaning? : Text → Option Meaning) (p : Progress) (v : VarSpec) :
    Progress :=
  match (meaning? v.name).filter Meaning.isDefined with
  | none => p
  | some m => ⟨row.append v (p.result ++ if p.begun then row.sep else row.first) m, true⟩

/-- The expansion of an expression. -/
def expand (e : Expression) (meaning? : Text → Option Meaning) : Text :=
  (e.specs.foldl ((row e.operator).advance meaning?) ⟨[], false⟩).result

end UriTemplate.Standard

namespace UriTemplate

open Standard

/-- The text of a scalar, unless it is null. -/
def Scalar.text? (s : Scalar) : Option Text := if s.isNull then none else some s.toText

/-- The text of a member that is a scalar. -/
def Value.text? : Value → Option Text
  | scalar s => s.text?
  | _ => none

/-- A value whose members are scalars, in the standard's terms. -/
def Value.meaning? : Value → Option Meaning
  | scalar s => s.text?.map .string
  | list items => some (.list (items.map text?))
  | assoc pairs => some (.pairs (pairs.map fun p => (p.1, p.2.text?)))

/-- What a variable stands for, in the standard's terms. -/
def Environment.meaning? (env : Environment) (keywordLists : Bool) (name : Text) :
    Option Meaning :=
  ((OrderedMap.get? env name).bind (Datum.coerce keywordLists)).bind Value.meaning?

end UriTemplate
