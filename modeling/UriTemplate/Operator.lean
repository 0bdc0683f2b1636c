import UriTemplate.Percent.Basic

/-! # Operators — the eight ways an expression is written

    The character after the opening brace selects the operator.  A `Style` is one
    row of the operator table: what stays unescaped, what stands between the parts
    an expression contributes and before the first of them, and whether the parts
    carry names. -/

namespace UriTemplate

/-- The operator of an expression. -/
inductive Operator where
  | simple
  | reserved
  | fragment
  | label
  | pathSegment
  | pathParameter
  | query
  | continuation
deriving DecidableEq, Repr

/-- Whether parts are values alone or written with names, and how a name stands with an
    empty value: with its equals sign (`always`) or bare (`nonempty`). -/
inductive Naming where
  | values
  | always
  | nonempty
deriving DecidableEq, Repr

/-- How an operator writes the parts of an expression. -/
structure Style where
  escaping : Escaping
  separator : CodePoint
  lead : Option CodePoint
  naming : Naming
deriving DecidableEq, Repr

/-- Do the parts carry names? -/
def Style.isNamed (style : Style) : Bool := style.naming ≠ .values

namespace Operator

/-- All operators. -/
def all : List Operator :=
  [simple, reserved, fragment, label, pathSegment, pathParameter, query, continuation]

/-- The character that selects the operator; the simple one has none. -/
def sigil? : Operator → Option CodePoint
  | simple => none
  | reserved => some '+'
  | fragment => some '#'
  | label => some '.'
  | pathSegment => some '/'
  | pathParameter => some ';'
  | query => some '?'
  | continuation => some '&'

/-- The sigil as a text. -/
def sigil (op : Operator) : Text := op.sigil?.toList

/-- The operator that a sigil selects. -/
def ofSigil? (sigil : Option CodePoint) : Option Operator := all.find? (·.sigil? = sigil)

/-- One of the two operators that write query parameters? -/
def isQuery : Operator → Bool
  | query | continuation => true
  | _ => false

/-- The operator table. -/
def style : Operator → Style
  | simple => ⟨.unreserved, ',', none, .values⟩
  | reserved => ⟨.reserved, ',', none, .values⟩
  | fragment => ⟨.reserved, ',', some '#', .values⟩
  | label => ⟨.unreserved, '.', some '.', .values⟩
  | pathSegment => ⟨.unreserved, '/', some '/', .values⟩
  | pathParameter => ⟨.unreserved, ';', some ';', .nonempty⟩
  | query => ⟨.unreserved, '&', some '?', .always⟩
  | continuation => ⟨.unreserved, '&', some '&', .always⟩

/-- Each operator is the one that its sigil selects. -/
theorem ofSigil?_sigil? (op : Operator) : ofSigil? op.sigil? = some op := by
  cases op <;> rfl

end Operator

end UriTemplate
