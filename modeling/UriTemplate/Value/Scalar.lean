import UriTemplate.Decimal.Layout
import UriTemplate.Text.Utf8.Basic

/-! # Scalars — single values and their texts

    A scalar keeps what the caller gave; its text is taken only when it is written
    into a URI.  A member of an enumeration stands for its value but is a value of
    its own: one whose value is null is not itself null. -/

namespace UriTemplate

/-- A single value. -/
inductive Scalar where
  | null
  | bool (b : Bool)
  | int (n : Int)
  | float (x : Binary64)
  | text (s : Text)
  | bytes (b : List UInt8)
  | member (value : Scalar)
deriving DecidableEq, Repr

namespace Scalar

/-- Numbers are positional from `0.0001` to just below `1e16`, and an exponent has at least
    two digits. -/
def numberLayout : Decimal.Layout := ⟨-4, 16, 2⟩

/-- The text of a scalar: nothing for null, lower-case truth values, bytes as UTF-8. -/
def toText : Scalar → Text
  | null => []
  | bool true => ['t', 'r', 'u', 'e']
  | bool false => ['f', 'a', 'l', 's', 'e']
  | int n => Text.ofInt n
  | float x => numberLayout.writeBinary64 x
  | text s => s
  | bytes b => Utf8.decode b
  | member value => value.toText

/-- Only null itself is undefined. -/
def isNull : Scalar → Bool
  | null => true
  | _ => false

end Scalar

end UriTemplate
