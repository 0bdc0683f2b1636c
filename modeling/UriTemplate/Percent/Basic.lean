import UriTemplate.Text.Hex
import UriTemplate.Text.Utf8.Basic

/-! # Percent-encoding — texts in a restricted alphabet

    An escaping says which characters may stand in a URI as they are.  Every other
    code point is written as the triplets `%XX` of its UTF-8 bytes; the percent sign
    itself is never allowed, so a text that is already encoded is encoded again.

    Decoding is lenient: a percent sign that does not begin a triplet stands for
    itself, and the bytes of triplets in a row are read as lossy UTF-8. -/

namespace UriTemplate

/-- Letters, digits and `-._~`, which never need escaping. -/
def isUnreserved (c : CodePoint) : Bool :=
  c.isAlphanum || c == '-' || c == '.' || c == '_' || c == '~'

/-- The general and sub-delimiters of URIs. -/
def isReserved (c : CodePoint) : Bool :=
  c ∈ ([':', '/', '?', '#', '[', ']', '@', '!', '$', '&', '\x27', '(', ')', '*', '+', ',', ';',
    '='] : Text)

/-- Which characters are left as they are. -/
inductive Escaping where
  | unreserved
  | reserved
deriving DecidableEq, Repr

/-- May `c` stand unescaped? -/
def Escaping.allows : Escaping → CodePoint → Bool
  | .unreserved, c => isUnreserved c
  | .reserved, c => isUnreserved c || isReserved c

namespace Percent

/-- A byte as a triplet. -/
def triplet (b : UInt8) : Text := ['%', Hex.upper (b.toNat / 16), Hex.upper (b.toNat % 16)]

/-- One code point, escaped unless it is allowed. -/
def encodeChar (escaping : Escaping) (c : CodePoint) : Text :=
  if escaping.allows c then [c] else (Utf8.encodeChar c).flatMap triplet

/-- A text in the alphabet of `escaping`. -/
def encode (escaping : Escaping) (s : Text) : Text := s.flatMap (encodeChar escaping)

/-- The byte of a triplet with these two digits. -/
def byte? (high low : CodePoint) : Option UInt8 :=
  match Hex.value? high, Hex.value? low with
  | some h, some l => some (UInt8.ofNat (16 * h + l))
  | _, _ => none

/-- Decode a text with a character possibly under way in the triplets before it.  A code point
    that is in no triplet ends it and stands for itself. -/
def decodeFrom : Option Utf8.Pending → Text → Text
  | state, [] => Utf8.finish state
  | state, '%' :: h :: l :: s =>
      match byte? h l with
      | some b => (Utf8.step state b).1 ++ decodeFrom (Utf8.step state b).2 s
      | none => Utf8.finish state ++ .char '%' :: decodeFrom none (h :: l :: s)
  | state, c :: s => Utf8.finish state ++ c :: decodeFrom none s

/-- The text that `s` stands for. -/
def decode (s : Text) : Text := decodeFrom none s

end Percent

end UriTemplate
