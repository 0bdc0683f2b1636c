import UriTemplate.Text.Basic

/-! # UTF-8 — texts as bytes, and any bytes as a text

    Every text has one sequence of bytes (`Utf8.encode`).  Reading is lossy and
    total: the decoder runs byte by byte, holding at most one character that is
    not yet complete (`Pending`).  A byte that cannot continue it ends it with one
    replacement character and is then read afresh, so each maximal ill-formed
    prefix of a character costs exactly one U+FFFD. -/

namespace UriTemplate.Utf8

/-- The bytes of a code point.  A surrogate has the three bytes that its number would have if it
    were that of a character, which the decoder does not take. -/
def encodeChar : CodePoint → List UInt8
  | .char c => String.utf8EncodeChar c
  | .surrogate n => [0xED, UInt8.ofNat (0xA0 + n / 64), UInt8.ofNat (0x80 + n % 64)]

/-- The bytes of a text. -/
def encode (s : Text) : List UInt8 := s.flatMap encodeChar

/-- What stands for bytes that are no character. -/
def replacement : CodePoint := '\uFFFD'

/-- A character under way: the bits read so far, how many bytes it takes after the next one,
    and the bounds of the six bits that the next one holds.  Only the second byte of some
    leads has narrower bounds than six bits allow: a character is written in no more bytes
    than it needs, and is neither a surrogate nor beyond U+10FFFF. -/
structure Pending where
  value : Nat
  after : Nat
  low : Nat
  high : Nat
deriving DecidableEq, Repr

/-- A character under way whose next byte may hold any six bits. -/
def Pending.open (value after : Nat) : Pending := ⟨value, after, 0x00, 0x3F⟩

/-- Read a byte between characters. -/
def start (b : UInt8) : Text × Option Pending :=
  let n := b.toNat
  if n < 0x80 then ([Char.ofNat n], none)
  else if n < 0xC2 then ([replacement], none)
  else if n < 0xE0 then ([], some (.open (n - 0xC0) 0))
  else if n < 0xF0 then
    ([], some ⟨n - 0xE0, 1, if n = 0xE0 then 0x20 else 0x00, if n = 0xED then 0x1F else 0x3F⟩)
  else if n < 0xF5 then
    ([], some ⟨n - 0xF0, 2, if n = 0xF0 then 0x10 else 0x00, if n = 0xF4 then 0x0F else 0x3F⟩)
  else ([replacement], none)

/-- Can the byte be the next one of the character? -/
def Pending.admits (p : Pending) (b : UInt8) : Bool :=
  0x80 + p.low ≤ b.toNat && b.toNat ≤ 0x80 + p.high

/-- Take the next byte of the character. -/
def Pending.take (p : Pending) (b : UInt8) : Text × Option Pending :=
  let value := p.value * 64 + (b.toNat - 0x80)
  match p.after with
  | 0 => ([Char.ofNat value], none)
  | after + 1 => ([], some (.open value after))

/-- Read one byte: the characters it completes, and the character now under way. -/
def step : Option Pending → UInt8 → Text × Option Pending
  | none, b => start b
  | some p, b =>
      if p.admits b then p.take b else (replacement :: (start b).1, (start b).2)

/-- What the end of the bytes makes of a character under way. -/
def finish : Option Pending → Text
  | none => []
  | some _ => [replacement]

/-- Read bytes in a row: the characters they complete, and the character then under way. -/
def run : Option Pending → List UInt8 → Text × Option Pending
  | state, [] => ([], state)
  | state, b :: bytes =>
      let later := run (step state b).2 bytes
      ((step state b).1 ++ later.1, later.2)

/-- The text of any bytes, ill-formed parts replaced. -/
def decode (bytes : List UInt8) : Text := (run none bytes).1 ++ finish (run none bytes).2

end UriTemplate.Utf8
