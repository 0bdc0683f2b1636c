import UriTemplate.Text.Hex

/-! # Variables — the inside of an expression

    A name is made of word characters and triplets, with single dots between them.
    It may be followed by `*`, which explodes the variable, or by a colon and a
    length from 1 to 9999, which cuts it.  A text is read as a whole: either it is
    one variable, or it is none (`VarSpec.ofText?`). -/

namespace UriTemplate

/-- A variable in an expression, with its modifiers. -/
structure VarSpec where
  name : Text
  explode : Bool := false
  maxLength : Option Int := none
deriving DecidableEq, Repr

/-- Letters, digits and the underscore of ASCII. -/
def isWordChar (c : CodePoint) : Bool := c.isAlphanum || c == '_'

namespace VarSpec

/-- The variable as it is written in an expression; explode is written before a length. -/
def toText (v : VarSpec) : Text :=
  if v.explode then v.name ++ [.char '*']
  else
    match v.maxLength with
    | some n => v.name ++ .char ':' :: Text.ofInt n
    | none => v.name

/-- Is the text the rest of a name?  A dot, and the end, must follow a word character or a
    triplet. -/
def isNameRest (following : Bool) : Text → Bool
  | [] => following
  | '.' :: s => following && isNameRest false s
  | '%' :: h :: l :: s => Hex.isDigit h && Hex.isDigit l && isNameRest true s
  | c :: s => isWordChar c && isNameRest true s

/-- Is the text a name? -/
def isName (s : Text) : Bool := isNameRest false s

/-- A length from 1 to 9999, without leading zeros. -/
def isLength : Text → Bool
  | [] => false
  | c :: s => c ≠ '0' && (c :: s).all CodePoint.isDigit && s.length ≤ 3

/-- Does the character begin a modifier? -/
def isMark (c : CodePoint) : Bool := c == '*' || c == ':'

/-- The variable written as `s`. -/
def ofText? (s : Text) : Option VarSpec :=
  let name := s.takeWhile (!isMark ·)
  if isName name then
    match s.dropWhile (!isMark ·) with
    | [] => some ⟨name, false, none⟩
    | ['*'] => some ⟨name, true, none⟩
    | ':' :: digits =>
        if isLength digits then some ⟨name, false, some (Text.toNat digits)⟩ else none
    | _ => none
  else none

end VarSpec

end UriTemplate
