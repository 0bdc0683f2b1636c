/-! # Text — sequences of code points and the cuts made in them

    A text is a list of code points; every length, offset and cut in this library
    counts code points.  A code point is a character or a surrogate: the surrogates
    are half of a pair in UTF-16 and no characters by themselves, but a text may
    hold them all the same.  A text without any is well formed
    (`Text.IsWellFormed`).

    Splitting at a separator and joining again are `List.splitOn` and
    `List.intercalate`; this file adds the few cuts that the list library does not
    have:

    * `Text.cut sep s` splits `s` at its first `sep`, if it has one;
    * `Text.upTo n s` keeps `n` code points, or drops `-n` of them when `n < 0`;
    * `Text.distinct` keeps the first appearance of each text of a list. -/

namespace UriTemplate

/-- A code point: a character, or the surrogate U+D800 + `n`, which is none. -/
inductive CodePoint where
  | char (c : Char)
  | surrogate (n : Fin 0x800)
deriving DecidableEq, Repr

namespace CodePoint

/-- A character is a code point. -/
instance : Coe Char CodePoint := ⟨char⟩

/-- The number of a code point. -/
def toNat : CodePoint → Nat
  | char c => c.toNat
  | surrogate n => 0xD800 + n

/-- The character that a code point is, if it is one. -/
def char? : CodePoint → Option Char
  | char c => some c
  | surrogate _ => none

/-- Is it no character? -/
def isSurrogate (c : CodePoint) : Bool := c.char?.isNone

/-- A letter or a digit of ASCII? -/
def isAlphanum (c : CodePoint) : Bool := c.char?.any Char.isAlphanum

/-- A decimal digit of ASCII? -/
def isDigit (c : CodePoint) : Bool := c.char?.any Char.isDigit

end CodePoint

/-- A text is a list of code points. -/
abbrev Text := List CodePoint

namespace Text

/-- Is every code point of the text a character? -/
def IsWellFormed (s : Text) : Prop := ∀ c ∈ s, c.isSurrogate = false

instance : DecidablePred IsWellFormed :=
  fun s => inferInstanceAs (Decidable (∀ c ∈ s, c.isSurrogate = false))

/-- The text of some characters. -/
def ofChars (chars : List Char) : Text := chars.map .char

/-- The characters of a text, its surrogates left out. -/
def chars (s : Text) : List Char := s.filterMap CodePoint.char?

/-- The text before the first `sep`, and the text after it if there is one. -/
def cut (sep : CodePoint) : Text → Text × Option Text
  | [] => ([], none)
  | c :: s =>
      if c = sep then ([], some s)
      else (c :: (cut sep s).1, (cut sep s).2)

/-- The first `n` code points of `s`; a negative `n` leaves that many off the end. -/
def upTo (n : Int) (s : Text) : Text :=
  s.take (if 0 ≤ n then n else s.length + n).toNat

/-- The texts of a list without repetitions, in order of first appearance. -/
def distinct : List Text → List Text
  | [] => []
  | t :: ts => t :: (distinct ts).filter (· ≠ t)

/-- Zeros in a row. -/
def zeros (n : Nat) : Text := List.replicate n '0'

/-- A natural number in decimal digits. -/
def ofNat (n : Nat) : Text := ofChars (Nat.toDigits 10 n)

/-- The number that decimal digits write. -/
def toNat (digits : Text) : Nat := Nat.ofDigitChars 10 digits.chars 0

/-- An integer in decimal digits, with a minus sign when it is negative. -/
def ofInt : Int → Text
  | .ofNat n => ofNat n
  | .negSucc n => '-' :: ofNat (n + 1)

/-- Cutting loses only the separator. -/
theorem eq_of_cut {sep : CodePoint} {s before after : Text}
    (h : cut sep s = (before, some after)) : s = before ++ sep :: after := by
  induction s generalizing before with
  | nil => simp [cut] at h
  | cons c s ih =>
      by_cases hc : c = sep
      · simp only [cut, if_pos hc, Prod.mk.injEq, Option.some.injEq] at h
        simp [← h.1, ← h.2, hc]
      · simp only [cut, if_neg hc, Prod.mk.injEq] at h
        rw [← h.1, List.cons_append, ← ih (Prod.ext rfl h.2)]

/-- A cut is made at the first separator. -/
theorem cut_append {sep : CodePoint} {before : Text} (h : sep ∉ before) (after : Text) :
    cut sep (before ++ sep :: after) = (before, some after) := by
  induction before with
  | nil =>
      rw [List.nil_append, cut, if_pos rfl]
  | cons c before ih =>
      rw [List.mem_cons, not_or] at h
      rw [List.cons_append, cut, if_neg (Ne.symm h.1), ih h.2]

/-- Nothing is cut off a text without the separator. -/
theorem cut_of_not_mem {sep : CodePoint} {s : Text} (h : sep ∉ s) : cut sep s = (s, none) := by
  induction s with
  | nil => rfl
  | cons c s ih =>
      rw [List.mem_cons, not_or] at h
      simp [cut, Ne.symm h.1, ih h.2]

end Text

end UriTemplate

/-- The text of a string, which has characters only. -/
def String.toText (s : String) : UriTemplate.Text := .ofChars s.toList
