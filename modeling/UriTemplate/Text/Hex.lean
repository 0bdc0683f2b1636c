import UriTemplate.Text.Basic

/-! # Hexadecimal digits

    Reading accepts both cases; the two writers differ in case only. -/

namespace UriTemplate.Hex

/-- The value of a hexadecimal digit of either case. -/
def value? : CodePoint → Option Nat
  | .char c =>
      if '0' ≤ c ∧ c ≤ '9' then some (c.toNat - 48)
      else if 'A' ≤ c ∧ c ≤ 'F' then some (c.toNat - 55)
      else if 'a' ≤ c ∧ c ≤ 'f' then some (c.toNat - 87)
      else none
  | .surrogate _ => none

/-- Is `c` a hexadecimal digit? -/
def isDigit (c : CodePoint) : Bool := (value? c).isSome

/-- The upper-case digit of a value below sixteen. -/
def upper (n : Nat) : CodePoint := if n < 10 then Char.ofNat (n + 48) else Char.ofNat (n + 55)

/-- Lower-case digits of `n`, padded with zeros to `width`. -/
def padded (width n : Nat) : Text :=
  let digits := Text.ofChars (Nat.toDigits 16 n)
  Text.zeros (width - digits.length) ++ digits

/-- A written digit reads back. -/
theorem value?_upper {n : Nat} (h : n < 16) : value? (upper n) = some n := by
  have all : ∀ k : Fin 16, value? (upper k) = some k.val := by decide
  exact all ⟨n, h⟩

end UriTemplate.Hex
