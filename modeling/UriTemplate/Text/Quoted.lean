import UriTemplate.Text.Hex
import UriTemplate.Text.Printable

/-! # Quoted text — how a text is shown inside a message

    A text is shown between single quotes, or between double quotes if it holds a
    single quote and no double one.  Inside, a backslash escapes the backslash and
    the quote in use; tab, newline and carriage return have letters; any other
    character that is not printable is written by number, in the shortest of the
    widths two, four and eight that holds it. -/

namespace UriTemplate.Text

/-- The quote that goes around `s`. -/
def quoteMark (s : Text) : CodePoint :=
  if .char '\x27' ∈ s ∧ .char '\x22' ∉ s then '\x22' else '\x27'

/-- One character between quotes `mark`. -/
def quotedChar (mark c : CodePoint) : Text :=
  if c = '\\' ∨ c = mark then ['\\', c]
  else if c = '\t' then ['\\', 't']
  else if c = '\n' then ['\\', 'n']
  else if c = '\r' then ['\\', 'r']
  else if isPrintable c then [c]
  else if c.toNat < 0x100 then '\\' :: 'x' :: Hex.padded 2 c.toNat
  else if c.toNat < 0x10000 then '\\' :: 'u' :: Hex.padded 4 c.toNat
  else '\\' :: 'U' :: Hex.padded 8 c.toNat

/-- `s` between quotes. -/
def quoted (s : Text) : Text :=
  let mark := quoteMark s
  mark :: s.flatMap (quotedChar mark) ++ [mark]

end UriTemplate.Text
