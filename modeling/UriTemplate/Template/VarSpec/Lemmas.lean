import UriTemplate.Template.VarSpec

/-! # Variables — reading and writing are inverse

    `VarSpec.ofText?_eq_some_iff`: a text is read as a variable exactly when the
    variable is well formed and is written as that text.  So each well-formed
    variable has one written form, and nothing else is read. -/

namespace UriTemplate

namespace Text

/-- The digits are the characters from 48 to 57. -/
theorem toNat_of_isDigit {c : Char} (h : c.isDigit = true) : 48 ≤ c.toNat ∧ c.toNat ≤ 57 := by
  simpa [Char.isDigit, Char.le_def, UInt32.le_iff_toNat_le] using h

/-- A digit is the digit of its value. -/
theorem digitChar_of_isDigit {c : Char} (h : c.isDigit = true) :
    Nat.digitChar (c.toNat - '0'.toNat) = c := by
  have hc := toNat_of_isDigit h
  apply Char.toNat_inj.mp
  rw [Nat.toNat_digitChar_of_lt_ten (by simp; omega)]
  simp
  omega

/-- The value of a digit is below ten. -/
theorem value_lt_ten_of_isDigit {c : Char} (h : c.isDigit = true) : c.toNat - '0'.toNat < 10 := by
  have hc := toNat_of_isDigit h
  simp
  omega

/-- The value of a digit other than the zero is positive. -/
theorem value_pos_of_isDigit {c : Char} (h : c.isDigit = true) (h0 : c ≠ '0') :
    0 < c.toNat - '0'.toNat := by
  have hc := toNat_of_isDigit h
  have hne : c.toNat ≠ 48 := fun he => h0 (Char.toNat_inj.mp he)
  simp
  omega

/-- Digits read after the digits of a positive number are its last digits. -/
theorem toDigits_ofDigitChars (digits : List Char) (n : Nat) (hn : 0 < n)
    (h : ∀ c ∈ digits, c.isDigit = true) :
    Nat.toDigits 10 (Nat.ofDigitChars 10 digits n) = Nat.toDigits 10 n ++ digits := by
  induction digits generalizing n with
  | nil => simp
  | cons c digits ih =>
      have hc := h c List.mem_cons_self
      have hlt := value_lt_ten_of_isDigit hc
      rw [Nat.ofDigitChars_cons, ih _ (by omega) (fun d hd => h d (List.mem_cons_of_mem c hd)),
        ← Nat.toDigits_append_toDigits (by decide) hn hlt, Nat.toDigits_of_lt_base hlt,
        digitChar_of_isDigit hc, List.append_assoc]
      rfl

/-- Digits without a leading zero are the digits of the number read from them. -/
theorem toDigits_ofDigitChars_cons {c : Char} (hc : c.isDigit = true) (h0 : c ≠ '0')
    (digits : List Char) (h : ∀ d ∈ digits, d.isDigit = true) :
    Nat.toDigits 10 (Nat.ofDigitChars 10 (c :: digits) 0) = c :: digits := by
  have hpos := value_pos_of_isDigit hc h0
  rw [Nat.ofDigitChars_cons, Nat.mul_zero, Nat.zero_add,
    toDigits_ofDigitChars digits _ hpos h, Nat.toDigits_of_lt_base (value_lt_ten_of_isDigit hc),
    digitChar_of_isDigit hc]
  rfl

/-- A positive number has no leading zero. -/
theorem head_toDigits_ne_zero (n : Nat) (hn : 0 < n) {c : Char} {digits : List Char}
    (h : Nat.toDigits 10 n = c :: digits) : c ≠ '0' := by
  induction n using Nat.strongRecOn generalizing digits with
  | ind n ih =>
      by_cases hlt : n < 10
      · rw [Nat.toDigits_of_lt_base hlt] at h
        obtain ⟨rfl, -⟩ := List.cons.inj h
        intro h0
        have := congrArg Char.toNat h0
        rw [Nat.toNat_digitChar_of_lt_ten hlt] at this
        simp at this
        omega
      · have hq : 0 < n / 10 := by omega
        have hn' : 10 * (n / 10) + n % 10 = n := Nat.div_add_mod n 10
        rw [← hn', ← Nat.toDigits_append_toDigits (by decide) hq (by omega)] at h
        match hd : Nat.toDigits 10 (n / 10) with
        | [] => exact absurd hd Nat.toDigits_ne_nil
        | d :: ds =>
            rw [hd, List.cons_append] at h
            obtain ⟨rfl, -⟩ := List.cons.inj h
            exact ih (n / 10) (by omega) hq hd

/-- Decimal digits are characters. -/
theorem exists_ofChars_of_isDigit {digits : Text} (h : ∀ c ∈ digits, c.isDigit = true) :
    ∃ chars : List Char, digits = ofChars chars ∧ ∀ c ∈ chars, c.isDigit = true := by
  induction digits with
  | nil => exact ⟨[], rfl, nofun⟩
  | cons c digits ih =>
      obtain ⟨hc, hdigits⟩ := List.forall_mem_cons.1 h
      obtain ⟨chars, rfl, hchars⟩ := ih hdigits
      cases c with
      | char c => exact ⟨c :: chars, rfl, List.forall_mem_cons.2 ⟨hc, hchars⟩⟩
      | surrogate n => cases hc

/-- Characters are the characters of their text. -/
theorem chars_ofChars (chars : List Char) : Text.chars (ofChars chars) = chars := by
  rw [Text.chars, ofChars, List.filterMap_map]
  exact List.filterMap_some

end Text

namespace VarSpec

/-- What an expression can hold: the name is a name, at most one modifier is set, and a length
    is from 1 to 9999. -/
structure IsValid (v : VarSpec) : Prop where
  name : isName v.name = true
  explode : v.explode = true → v.maxLength = none
  maxLength : ∀ n, v.maxLength = some n → 1 ≤ n ∧ n ≤ 9999

/-- A length is the digits of the number read from it. -/
theorem ofNat_of_isLength {digits : Text} (h : isLength digits = true) :
    Text.ofNat (Text.toNat digits) = digits := by
  match digits, h with
  | d :: digits, h =>
      simp only [isLength, Bool.and_eq_true, decide_eq_true_eq, List.all_eq_true] at h
      obtain ⟨⟨hzero, hdigits⟩, -⟩ := h
      obtain ⟨chars, heq, hchars⟩ := Text.exists_ofChars_of_isDigit hdigits
      match chars, heq with
      | c :: s, heq =>
          obtain ⟨hc, hs⟩ := List.forall_mem_cons.1 hchars
          have hne : c ≠ '0' := by
            rintro rfl
            exact hzero (List.cons.inj heq).1
          rw [heq, Text.toNat, Text.ofNat, Text.chars_ofChars,
            Text.toDigits_ofDigitChars_cons hc hne s hs]

/-- The digits of a number are a length exactly when it is from 1 to 9999. -/
theorem isLength_ofNat (n : Nat) : isLength (Text.ofNat n) = true ↔ 1 ≤ n ∧ n ≤ 9999 := by
  have hlen : (Nat.toDigits 10 n).length ≤ 4 ↔ n < 10000 :=
    Nat.length_toDigits_le_iff (by decide) (by decide)
  have hdigit : ∀ d ∈ Nat.toDigits 10 n, d.isDigit = true :=
    fun d hd => Nat.isDigit_of_mem_toDigits (by decide) (by decide) hd
  rw [Text.ofNat, Text.ofChars]
  match hd : Nat.toDigits 10 n with
  | [] => exact absurd hd Nat.toDigits_ne_nil
  | c :: s =>
      rw [hd] at hlen hdigit
      have hall : ((c :: s).map CodePoint.char).all CodePoint.isDigit = true :=
        List.all_eq_true.2 (List.forall_mem_map.2 hdigit)
      have hzero : c ≠ '0' ∧ s.length ≤ 3 ↔ 1 ≤ n ∧ n ≤ 9999 := by
        rw [List.length_cons] at hlen
        refine ⟨fun h => ⟨Nat.pos_of_ne_zero fun hn => ?_, by omega⟩, fun h =>
          ⟨Text.head_toDigits_ne_zero n h.1 hd, by omega⟩⟩
        subst hn
        exact h.1 (List.cons.inj hd).1.symm
      rw [List.map_cons] at hall ⊢
      rw [isLength, hall, ← hzero, List.length_map]
      simp

/-- A class of characters without the asterisk and the colon has no mark. -/
theorem isMark_eq_false {p : CodePoint → Bool} (hstar : p '*' = false) (hcolon : p ':' = false)
    {c : CodePoint} (h : p c = true) : isMark c = false := by
  rw [← Bool.not_eq_true]
  intro hm
  simp only [isMark, Bool.or_eq_true, beq_iff_eq] at hm
  rcases hm with rfl | rfl
  · exact absurd (h.symm.trans hstar) nofun
  · exact absurd (h.symm.trans hcolon) nofun

/-- No mark stands in the rest of a name. -/
theorem isMark_of_isNameRest {following : Bool} {s : Text} (h : isNameRest following s = true) :
    ∀ c ∈ s, isMark c = false := by
  have hword : ∀ c, isWordChar c = true → isMark c = false :=
    fun _ => isMark_eq_false (by decide) (by decide)
  have hhex : ∀ c, Hex.isDigit c = true → isMark c = false :=
    fun _ => isMark_eq_false (by decide) (by decide)
  fun_induction isNameRest following s with
  | case1 => simp
  | case2 following s ih =>
      rw [Bool.and_eq_true] at h
      intro c hc
      rcases List.mem_cons.1 hc with rfl | hc
      · decide
      · exact ih h.2 c hc
  | case3 _ a b s ih =>
      simp only [Bool.and_eq_true] at h
      intro c hc
      simp only [List.mem_cons] at hc
      rcases hc with rfl | rfl | rfl | hc
      · decide
      · exact hhex _ h.1.1
      · exact hhex _ h.1.2
      · exact ih h.2 c hc
  | case4 _ d s _ _ ih =>
      rw [Bool.and_eq_true] at h
      intro c hc
      rcases List.mem_cons.1 hc with rfl | hc
      · exact hword _ h.1
      · exact ih h.2 c hc

/-- A name ends at the mark that follows it. -/
theorem cut_name_append {name : Text} (h : isName name = true) (rest : Text)
    (hrest : rest = [] ∨ ∃ c s, rest = c :: s ∧ isMark c = true) :
    (name ++ rest).takeWhile (!isMark ·) = name ∧
      (name ++ rest).dropWhile (!isMark ·) = rest := by
  have hname : ∀ c ∈ name, (!isMark c) = true := by
    intro c hc
    rw [isMark_of_isNameRest h c hc]
    rfl
  rw [List.takeWhile_append_of_pos hname, List.dropWhile_append_of_pos hname]
  rcases hrest with rfl | ⟨c, s, rfl, hc⟩
  · simp
  · simp [hc]

/-- **WRITTEN, THEN READ**: a well-formed variable is read back. -/
theorem ofText?_toText {v : VarSpec} (h : v.IsValid) : ofText? v.toText = some v := by
  obtain ⟨name, explode, maxLength⟩ := v
  obtain ⟨hname, hexplode, hlength⟩ := h
  cases explode with
  | true =>
      obtain rfl := hexplode rfl
      obtain ⟨ht, hd⟩ := cut_name_append hname ['*'] (.inr ⟨'*', [], rfl, rfl⟩)
      simp only [toText, if_true, ofText?, ht, hd, hname]
  | false =>
      cases maxLength with
      | none =>
          obtain ⟨ht, hd⟩ := cut_name_append hname [] (.inl rfl)
          rw [List.append_nil] at ht hd
          simp [toText, ofText?, ht, hd, hname]
      | some n =>
          obtain ⟨k, rfl⟩ : ∃ k : Nat, n = k := ⟨n.toNat, by have := (hlength n rfl).1; omega⟩
          obtain ⟨ht, hd⟩ := cut_name_append hname (':' :: Text.ofNat k)
            (.inr ⟨':', _, rfl, rfl⟩)
          have hk : isLength (Text.ofNat k) = true :=
            (isLength_ofNat k).2 (by have := hlength k rfl; omega)
          have hnumber : Text.toNat (Text.ofNat k) = k := by
            rw [Text.toNat, Text.ofNat, Text.chars_ofChars,
              Nat.ofDigitChars_toDigits (b := 10) (n := k) (by decide) (by decide)]
          show ofText? (name ++ .char ':' :: Text.ofNat k) = _
          simp only [ofText?, ht, hd, hname, hk, if_true, hnumber]

/-- **READ, THEN WRITTEN**: what is read is well formed and is written as it was read. -/
theorem isValid_toText_of_ofText? {s : Text} {v : VarSpec} (h : ofText? s = some v) :
    v.IsValid ∧ v.toText = s := by
  have hs : s.takeWhile (!isMark ·) ++ s.dropWhile (!isMark ·) = s :=
    List.takeWhile_append_dropWhile
  simp only [ofText?] at h
  split at h
  · rename_i hname
    split at h
    · rename_i hd
      obtain rfl := Option.some.inj h
      exact ⟨⟨hname, nofun, nofun⟩, by rwa [hd, List.append_nil] at hs⟩
    · rename_i hd
      obtain rfl := Option.some.inj h
      exact ⟨⟨hname, fun _ => rfl, nofun⟩, by rwa [hd] at hs⟩
    · rename_i digits hd
      split at h
      · rename_i hlength
        obtain rfl := Option.some.inj h
        have hdigits := ofNat_of_isLength hlength
        refine ⟨⟨hname, nofun, fun n hn => ?_⟩, ?_⟩
        · have := (isLength_ofNat (Text.toNat digits)).1 (by rwa [hdigits])
          obtain rfl := Option.some.inj hn
          omega
        · show _ ++ .char ':' :: Text.ofNat (Text.toNat digits) = s
          rwa [hdigits, ← hd]
      · exact absurd h nofun
    · exact absurd h nofun
  · exact absurd h nofun

/-- A text is read as a variable exactly when the variable is well formed and written so. -/
theorem ofText?_eq_some_iff {s : Text} {v : VarSpec} :
    ofText? s = some v ↔ v.IsValid ∧ v.toText = s :=
  ⟨isValid_toText_of_ofText?, fun ⟨h, hs⟩ => hs ▸ ofText?_toText h⟩

end VarSpec

end UriTemplate
