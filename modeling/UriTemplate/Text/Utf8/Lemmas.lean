import UriTemplate.Text.Utf8.Basic

/-! # UTF-8 — what the decoder makes of the bytes of a character

    `run_encodeChar`: the bytes of a character are read as that character, and
    nothing is under way after them.  The `step` lemmas say what each single byte
    does; an ASCII byte ends whatever is under way (`step_ascii`). -/

namespace UriTemplate.Utf8

/-- A byte made from a number below 256 has that number as its value. -/
theorem toNat_ofNat_of_lt {n : Nat} (h : n < 256) : (UInt8.ofNat n).toNat = n := by
  rw [UInt8.toNat_ofNat']
  exact Nat.mod_eq_of_lt h

/-- A character under way admits the bytes within its bounds. -/
theorem admits_iff {p : Pending} {b : UInt8} :
    p.admits b = true ↔ 0x80 + p.low ≤ b.toNat ∧ b.toNat ≤ 0x80 + p.high := by
  simp [Pending.admits]

/-- The last byte of a character completes it. -/
theorem step_last {value low high : Nat} {b : UInt8} (hlow : 0x80 + low ≤ b.toNat)
    (hhigh : b.toNat ≤ 0x80 + high) :
    step (some ⟨value, 0, low, high⟩) b
      = ([.char (Char.ofNat (value * 64 + (b.toNat - 0x80)))], none) := by
  rw [step, if_pos (admits_iff.2 ⟨hlow, hhigh⟩)]
  rfl

/-- Any other byte of a character adds its six bits. -/
theorem step_more {value after low high : Nat} {b : UInt8} (hlow : 0x80 + low ≤ b.toNat)
    (hhigh : b.toNat ≤ 0x80 + high) :
    step (some ⟨value, after + 1, low, high⟩) b
      = ([], some (.open (value * 64 + (b.toNat - 0x80)) after)) := by
  rw [step, if_pos (admits_iff.2 ⟨hlow, hhigh⟩)]
  rfl

/-- An ASCII byte ends whatever is under way and is read as itself. -/
theorem step_ascii (state : Option Pending) {b : UInt8} (h : b.toNat < 0x80) :
    step state b = (finish state ++ [.char (Char.ofNat b.toNat)], none) := by
  cases state with
  | none =>
      rw [step, start, if_pos h]
      rfl
  | some p =>
      have hno : ¬ p.admits b = true := by
        rw [admits_iff]
        omega
      rw [step, if_neg hno, start, if_pos h]
      rfl

/-- The lead of two bytes. -/
theorem step_lead_two {b : UInt8} (h : 0xC2 ≤ b.toNat) (h' : b.toNat < 0xE0) :
    step none b = ([], some (.open (b.toNat - 0xC0) 0)) := by
  rw [step, start, if_neg (by omega), if_neg (by omega), if_pos h']

/-- The lead of three bytes. -/
theorem step_lead_three {b : UInt8} (h : 0xE0 ≤ b.toNat) (h' : b.toNat < 0xF0) :
    step none b = ([], some ⟨b.toNat - 0xE0, 1, if b.toNat = 0xE0 then 0x20 else 0x00,
      if b.toNat = 0xED then 0x1F else 0x3F⟩) := by
  rw [step, start, if_neg (by omega), if_neg (by omega), if_neg (by omega), if_pos h']

/-- The lead of four bytes. -/
theorem step_lead_four {b : UInt8} (h : 0xF0 ≤ b.toNat) (h' : b.toNat < 0xF5) :
    step none b = ([], some ⟨b.toNat - 0xF0, 2, if b.toNat = 0xF0 then 0x10 else 0x00,
      if b.toNat = 0xF4 then 0x0F else 0x3F⟩) := by
  rw [step, start, if_neg (by omega), if_neg (by omega), if_neg (by omega),
    if_neg (by omega), if_pos h']

/-- **STREAMING**: the bytes of a character are read as that character. -/
theorem run_encodeChar (c : Char) : run none (encodeChar c) = ([.char c], none) := by
  have hc : c.toNat < 0xD800 ∨ 0xDFFF < c.toNat ∧ c.toNat < 0x110000 := c.valid
  have hofNat : Char.ofNat c.toNat = c := Char.ofNat_toNat c
  rw [encodeChar, String.utf8EncodeChar, show c.val.toNat = c.toNat from rfl]
  generalize c.toNat = v at hc hofNat
  have hlast : (UInt8.ofNat (v % 64 + 128)).toNat = v % 64 + 128 := toNat_ofNat_of_lt (by omega)
  have hnext : (UInt8.ofNat (v / 64 % 64 + 128)).toNat = v / 64 % 64 + 128 :=
    toNat_ofNat_of_lt (by omega)
  split
  · next h =>
      have hlead : (UInt8.ofNat v).toNat = v := toNat_ofNat_of_lt (by omega)
      rw [run, step_ascii none (by omega), hlead, hofNat]
      rfl
  split
  · next h1 h2 =>
      have hlead : (UInt8.ofNat (v / 64 % 32 + 192)).toNat = v / 64 + 192 := by
        rw [toNat_ofNat_of_lt (by omega)]
        omega
      rw [run, step_lead_two (by omega) (by omega), hlead, Pending.open, run,
        step_last (by omega) (by omega), hlast,
        show (v / 64 + 192 - 0xC0) * 64 + (v % 64 + 128 - 0x80) = v by omega, hofNat]
      rfl
  split
  · next h1 h2 h3 =>
      have hlead : (UInt8.ofNat (v / 4096 % 16 + 224)).toNat = v / 4096 + 224 := by
        rw [toNat_ofNat_of_lt (by omega)]
        omega
      rw [run, step_lead_three (by omega) (by omega), hlead, run,
        step_more (by split <;> omega) (by split <;> omega), hnext, Pending.open, run,
        step_last (by omega) (by omega), hlast,
        show ((v / 4096 + 224 - 0xE0) * 64 + (v / 64 % 64 + 128 - 0x80)) * 64
          + (v % 64 + 128 - 0x80) = v by omega, hofNat]
      rfl
  · next h1 h2 h3 =>
      have hlead : (UInt8.ofNat (v / 262144 % 8 + 240)).toNat = v / 262144 + 240 := by
        rw [toNat_ofNat_of_lt (by omega)]
        omega
      have hsecond : (UInt8.ofNat (v / 4096 % 64 + 128)).toNat = v / 4096 % 64 + 128 :=
        toNat_ofNat_of_lt (by omega)
      rw [run, step_lead_four (by omega) (by omega), hlead, run,
        step_more (by split <;> omega) (by split <;> omega), hsecond, Pending.open, run,
        step_more (by omega) (by omega), hnext, Pending.open, run,
        step_last (by omega) (by omega), hlast,
        show (((v / 262144 + 240 - 0xF0) * 64 + (v / 4096 % 64 + 128 - 0x80)) * 64
          + (v / 64 % 64 + 128 - 0x80)) * 64 + (v % 64 + 128 - 0x80) = v by omega, hofNat]
      rfl

end UriTemplate.Utf8
