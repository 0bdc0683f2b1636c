import UriTemplate.Proofs.RoundTrip.Written
import UriTemplate.Proofs.Template.Grammar
import UriTemplate.Proofs.Template.WellFormed

/-! # Productions — the tests of the reader say what the grammar says

    Each production is compared with the function that reads it: character classes
    (`Grammar.oneIn`), names (`Grammar.mem_varname_iff`), lengths, variables
    (`Grammar.mem_varspec_iff`), lists of variables and expressions.  Variables and
    expressions come out as the written forms of well-formed values, so that what was
    proved about writing holds for the grammar as well.

    * **`Node.next?_toText`** — a written expression is read back.
    * **`Grammar.isPrefixFree_word`** — no word of a template begins another one. -/

namespace UriTemplate

open scoped Computability

namespace Grammar

/-! ## Characters -/

/-- One character of a class. -/
def oneIn (p : CodePoint → Bool) : Language CodePoint := {s | ∃ c, s = [c] ∧ p c = true}

theorem mem_oneIn {p : CodePoint → Bool} {s : Text} : s ∈ oneIn p ↔ ∃ c, s = [c] ∧ p c = true :=
  Iff.rfl

theorem range_eq (low high : Nat) :
    range low high = oneIn fun c => low ≤ c.toNat && c.toNat ≤ high := by
  ext s
  simp only [mem_oneIn, Bool.and_eq_true, decide_eq_true_eq]
  rfl

theorem oneOf_eq (cs : List CodePoint) : oneOf cs = oneIn fun c => decide (c ∈ cs) := by
  ext s
  simp only [mem_oneIn, decide_eq_true_eq]
  exact exists_congr fun c => and_comm

theorem oneIn_add (p q : CodePoint → Bool) : oneIn p + oneIn q = oneIn fun c => p c || q c := by
  ext s
  simp only [Language.mem_add, mem_oneIn, Bool.or_eq_true, and_or_left, exists_or]

/-- A character first. -/
theorem mem_oneOf_mul {c : CodePoint} {l : Language CodePoint} {s : Text} :
    s ∈ oneOf [c] * l ↔ ∃ t ∈ l, c :: t = s := by
  rw [Language.mem_mul]
  constructor
  · rintro ⟨_, ⟨d, hd, rfl⟩, t, ht, rfl⟩
    exact ⟨t, ht, congrArg (· :: t) (List.mem_singleton.1 hd).symm⟩
  · rintro ⟨t, ht, rfl⟩
    exact ⟨[c], ⟨c, List.mem_singleton_self c, rfl⟩, t, ht, rfl⟩

/-- A character last. -/
theorem mem_mul_oneIn {p : CodePoint → Bool} {l : Language CodePoint} {s : Text} :
    s ∈ l * oneIn p ↔ ∃ t ∈ l, ∃ c, p c = true ∧ t ++ [c] = s := by
  rw [Language.mem_mul]
  constructor
  · rintro ⟨t, ht, _, ⟨c, rfl, hc⟩, rfl⟩
    exact ⟨t, ht, c, hc, rfl⟩
  · rintro ⟨t, ht, c, hc, rfl⟩
    exact ⟨t, ht, [c], ⟨c, rfl, hc⟩, rfl⟩

/-! ### Classes of the grammar and of the reader -/

/-- Surrogates are beyond the digits and letters. -/
theorem lt_toNat_surrogate (n : Fin 0x800) : 0xD7FF < (CodePoint.surrogate n).toNat :=
  Nat.lt_of_lt_of_le (by decide) (Nat.le_add_right 0xD800 n)

theorem digit_eq : digit = oneIn CodePoint.isDigit := by
  rw [digit, range_eq]
  congr 1
  funext c
  cases c with
  | char c => rfl
  | surrogate n =>
      have hn := lt_toNat_surrogate n
      rw [decide_eq_false (show ¬ (CodePoint.surrogate n).toNat ≤ 0x39 by omega), Bool.and_false]
      rfl

theorem hexDigit_eq : hexDigit = oneIn Hex.isDigit := by
  simp only [hexDigit, digit, range_eq, oneIn_add]
  congr 1
  funext c
  rw [Bool.eq_iff_iff]
  simp only [Bool.or_eq_true, Bool.and_eq_true, decide_eq_true_eq]
  cases c with
  | char c =>
      simp only [Hex.isDigit, Hex.value?, CodePoint.toNat, Char.le_def, UInt32.le_iff_toNat_le,
        Char.toNat]
      split_ifs <;> simp_all
  | surrogate n =>
      have hn := lt_toNat_surrogate n
      have hno : ¬ Hex.isDigit (.surrogate n) = true := Bool.false_ne_true
      rw [iff_false_right hno]
      omega

theorem wordChar_eq : alpha + digit + oneOf ['_'] = oneIn isWordChar := by
  simp only [alpha, digit, range_eq, oneOf_eq, oneIn_add]
  congr 1
  funext c
  rw [Bool.eq_iff_iff]
  simp only [Bool.or_eq_true, Bool.and_eq_true, decide_eq_true_eq, List.mem_singleton]
  cases c with
  | char c =>
      simp [isWordChar, CodePoint.isAlphanum, CodePoint.char?, CodePoint.toNat, Char.isAlphanum,
        Char.isAlpha, Char.isUpper, Char.isLower, Char.isDigit, UInt32.le_iff_toNat_le]
  | surrogate n =>
      have hn := lt_toNat_surrogate n
      have hno : ¬ isWordChar (.surrogate n) = true := Bool.false_ne_true
      rw [iff_false_right hno, or_iff_left (by rintro ⟨⟩)]
      omega

/-- A class of no ranges has no character. -/
theorem oneIn_inRanges_nil : oneIn (inRanges []) = 0 := by
  ext s
  constructor
  · rintro ⟨c, -, hc⟩
    cases hc
  · exact fun h => (Language.notMem_zero s h).elim

/-- A class of ranges is the sum of its ranges. -/
theorem oneIn_inRanges_cons (low high : Nat) (ranges : List (Nat × Nat)) :
    oneIn (inRanges ((low, high) :: ranges)) = range low high + oneIn (inRanges ranges) := by
  rw [range_eq, oneIn_add]
  rfl

theorem ascii_eq : ascii = oneIn (inRanges LiteralKind.asciiRanges) := by
  simp only [ascii, LiteralKind.asciiRanges, oneIn_inRanges_cons, oneIn_inRanges_nil, add_zero,
    add_assoc]

theorem ucschar_eq : ucschar = oneIn (inRanges LiteralKind.ucscharRanges) := by
  simp only [ucschar, LiteralKind.ucscharRanges, oneIn_inRanges_cons, oneIn_inRanges_nil, add_zero,
    add_assoc]

theorem iprivate_eq : iprivate = oneIn (inRanges LiteralKind.iprivateRanges) := by
  simp only [iprivate, LiteralKind.iprivateRanges, oneIn_inRanges_cons, oneIn_inRanges_nil,
    add_zero, add_assoc]

theorem mem_pctEncoded_iff {s : Text} :
    s ∈ pctEncoded ↔
      ∃ h l, s = [.char '%', h, l] ∧ Hex.isDigit h = true ∧ Hex.isDigit l = true := by
  rw [pctEncoded, hexDigit_eq, mem_mul_oneIn]
  constructor
  · rintro ⟨_, ht, l, hl, rfl⟩
    obtain ⟨_, ⟨h, rfl, hh⟩, rfl⟩ := mem_oneOf_mul.1 ht
    exact ⟨h, l, rfl, hh, hl⟩
  · rintro ⟨h, l, rfl, hh, hl⟩
    exact ⟨[.char '%', h], mem_oneOf_mul.2 ⟨[h], ⟨h, rfl, hh⟩, rfl⟩, l, hl, rfl⟩

theorem mem_varchar_iff {s : Text} :
    s ∈ varchar ↔ (∃ c, s = [c] ∧ isWordChar c = true) ∨
      ∃ h l, s = [.char '%', h, l] ∧ Hex.isDigit h = true ∧ Hex.isDigit l = true := by
  rw [varchar, wordChar_eq, Language.mem_add, mem_oneIn, mem_pctEncoded_iff]

/-! ## Variables -/

/-- What may stand in a name behind a dot or at the beginning, and behind a character. -/
def nameRest : Bool → Language CodePoint
  | false => varname
  | true => ((1 + oneOf ['.']) * varchar)∗

/-- A dot may stand before a character. -/
theorem mem_dotted_iff {s : Text} :
    s ∈ (1 + oneOf [.char '.']) * varchar ↔ s ∈ varchar ∨ ∃ w ∈ varchar, .char '.' :: w = s := by
  rw [add_mul, one_mul, Language.mem_add, mem_oneOf_mul]

/-- A name goes on after each of its characters. -/
theorem append_mem_nameRest {w s : Text} (hw : w ∈ varchar) (hs : s ∈ nameRest true)
    (following : Bool) : w ++ s ∈ nameRest following := by
  cases following with
  | false => exact Language.append_mem_mul hw hs
  | true =>
      exact cons_mem_kstar (mem_dotted_iff.2 (Or.inl hw)) hs

theorem isNameRest_append {w : Text} (hw : w ∈ varchar) (following : Bool) (rest : Text) :
    VarSpec.isNameRest following (w ++ rest) = VarSpec.isNameRest true rest := by
  rcases mem_varchar_iff.1 hw with ⟨c, rfl, hc⟩ | ⟨h, l, rfl, hh, hl⟩
  · -- a word character is neither a dot nor a percent sign
    have hdot : c ≠ '.' := by
      rintro rfl
      exact absurd hc (by decide)
    have hpercent : c ≠ '%' := by
      rintro rfl
      exact absurd hc (by decide)
    rw [List.singleton_append, VarSpec.isNameRest, hc, Bool.true_and]
    · exact fun h => absurd h hdot
    · exact fun h l s hc _ => absurd hc hpercent
  · simp [VarSpec.isNameRest, hh, hl]

theorem mem_nameRest_iff {following : Bool} {s : Text} :
    s ∈ nameRest following ↔ VarSpec.isNameRest following s = true := by
  constructor
  · -- the words of a name are taken one by one
    have hrest : ∀ {s : Text}, s ∈ nameRest true → VarSpec.isNameRest true s = true := by
      rintro _ ⟨ws, rfl, hws⟩
      induction ws with
      | nil => rfl
      | cons w ws ih =>
          obtain ⟨hw, hlater⟩ := List.forall_mem_cons.1 hws
          rw [List.flatten_cons]
          rcases mem_dotted_iff.1 hw with hw | ⟨v, hv, rfl⟩
          · rw [isNameRest_append hw]
            exact ih hlater
          · rw [List.cons_append, VarSpec.isNameRest, Bool.true_and, isNameRest_append hv]
            exact ih hlater
    intro hs
    cases following with
    | true => exact hrest hs
    | false =>
        obtain ⟨w, hw, t, ht, rfl⟩ := hs
        rw [isNameRest_append hw]
        exact hrest ht
  · intro h
    fun_induction VarSpec.isNameRest following s with
    | case1 following =>
        subst h
        exact Language.nil_mem_kstar _
    | case2 following s ih =>
        rw [Bool.and_eq_true] at h
        obtain ⟨rfl, h⟩ := h
        -- a dot needs a character behind it
        obtain ⟨w, hw, t, ht, rfl⟩ := ih h
        exact cons_mem_kstar (mem_dotted_iff.2 (Or.inr ⟨w, hw, rfl⟩)) ht
    | case3 following a b s ih =>
        simp only [Bool.and_eq_true] at h
        exact append_mem_nameRest (mem_varchar_iff.2 (Or.inr ⟨a, b, rfl, h.1⟩)) (ih h.2) _
    | case4 following c s _ _ ih =>
        rw [Bool.and_eq_true] at h
        exact append_mem_nameRest (mem_varchar_iff.2 (Or.inl ⟨c, rfl, h.1⟩)) (ih h.2) _

theorem mem_varname_iff {s : Text} : s ∈ varname ↔ VarSpec.isName s = true :=
  @mem_nameRest_iff false s

/-- A digit that is not the zero, and some digits more. -/
def number (more : Nat) : Language CodePoint :=
  {s | ∃ c t, s = c :: t ∧ c ≠ '0' ∧ (c :: t).all CodePoint.isDigit = true ∧ t.length ≤ more}

theorem number_mul (more : Nat) : number more * (1 + digit) = number (more + 1) := by
  rw [mul_add, mul_one, digit_eq]
  ext s
  rw [Language.mem_add, mem_mul_oneIn]
  constructor
  · rintro (⟨c, t, rfl, hc, hall, hlength⟩ | ⟨_, ⟨c, t, rfl, hc, hall, hlength⟩, d, hd, rfl⟩)
    · exact ⟨c, t, rfl, hc, hall, Nat.le_succ_of_le hlength⟩
    · refine ⟨c, t ++ [d], rfl, hc, ?_, ?_⟩
      · rw [← List.cons_append, List.all_append, hall]
        simpa using hd
      · rw [List.length_append]
        exact Nat.succ_le_succ hlength
  · rintro ⟨c, t, rfl, hc, hall, hlength⟩
    rcases List.eq_nil_or_concat' t with rfl | ⟨t, d, rfl⟩
    · exact Or.inl ⟨c, [], rfl, hc, hall, Nat.zero_le more⟩
    · rw [← List.cons_append, List.all_append, Bool.and_eq_true] at hall
      rw [List.length_append] at hlength
      exact Or.inr ⟨c :: t, ⟨c, t, rfl, hc, hall.1, Nat.le_of_succ_le_succ hlength⟩, d,
        by simpa using hall.2, rfl⟩

theorem number_zero : range 0x31 0x39 = number 0 := by
  ext s
  constructor
  · rintro ⟨c, rfl, hlow, hhigh⟩
    refine ⟨c, [], rfl, ?_, ?_, Nat.le_refl 0⟩
    · rintro rfl
      exact absurd hlow (by decide)
    · have hdigit : [c] ∈ digit := ⟨c, rfl, Nat.le_of_succ_le hlow, hhigh⟩
      rw [digit_eq] at hdigit
      obtain ⟨d, hd, hdigit⟩ := hdigit
      rw [List.all_cons, List.all_nil, Bool.and_true, List.singleton_inj.1 hd, hdigit]
  · rintro ⟨c, t, rfl, hc, hall, hlength⟩
    obtain rfl := List.length_eq_zero_iff.1 (Nat.le_zero.1 hlength)
    rw [List.all_cons, List.all_nil, Bool.and_true] at hall
    cases c with
    | char c =>
        have hdigit := Text.toNat_of_isDigit hall
        have hne : c.toNat ≠ 48 := fun h => hc (congrArg CodePoint.char (Char.toNat_inj.1 h))
        exact ⟨c, rfl, Nat.lt_of_le_of_ne hdigit.1 (Ne.symm hne), hdigit.2⟩
    | surrogate n => cases hall

theorem mem_maxLength_iff {s : Text} : s ∈ maxLength ↔ VarSpec.isLength s = true := by
  rw [maxLength, number_zero, number_mul, number_mul, number_mul]
  constructor
  · rintro ⟨c, t, rfl, hc, hall, hlength⟩
    rw [VarSpec.isLength, hall, decide_eq_true hc, decide_eq_true hlength]
    rfl
  · intro h
    cases s with
    | nil => cases h
    | cons c t =>
        simp only [VarSpec.isLength, Bool.and_eq_true, decide_eq_true_eq] at h
        exact ⟨c, t, rfl, h.1.1, h.1.2, h.2⟩

/-- A modifier is an asterisk, or a length behind a colon. -/
theorem mem_modifier_iff {s : Text} :
    s ∈ modifier ↔
      s = [.char '*'] ∨ ∃ digits, VarSpec.isLength digits = true ∧ .char ':' :: digits = s := by
  rw [modifier, Language.mem_add, mem_oneOf_mul]
  simp only [mem_maxLength_iff, oneOf_eq, mem_oneIn, List.mem_singleton, decide_eq_true_eq,
    exists_eq_right]

/-- **VARIABLES**: the texts of the production are the written forms of well-formed variables. -/
theorem mem_varspec_iff {s : Text} : s ∈ varspec ↔ ∃ v : VarSpec, v.IsValid ∧ v.toText = s := by
  rw [varspec, mul_add, mul_one, Language.mem_add, Language.mem_mul]
  simp only [mem_varname_iff, mem_modifier_iff]
  constructor
  · rintro (hname | ⟨name, hname, _, rfl | ⟨digits, hdigits, rfl⟩, rfl⟩)
    · exact ⟨⟨s, false, none⟩, ⟨hname, nofun, nofun⟩, rfl⟩
    · exact ⟨⟨name, true, none⟩, ⟨hname, fun _ => rfl, nofun⟩, rfl⟩
    · have hwritten := VarSpec.ofNat_of_isLength hdigits
      refine ⟨⟨name, false, some (Text.toNat digits)⟩, ⟨hname, nofun, ?_⟩, ?_⟩
      · intro n hn
        have hbound := (VarSpec.isLength_ofNat (Text.toNat digits)).1 (by rwa [hwritten])
        obtain rfl := Option.some.inj hn
        omega
      · show name ++ .char ':' :: Text.ofNat (Text.toNat digits) = _
        rw [hwritten]
  · rintro ⟨⟨name, explode, length⟩, ⟨hname, hexplode, hlength⟩, rfl⟩
    cases explode with
    | true => exact Or.inr ⟨name, hname, ['*'], Or.inl rfl, rfl⟩
    | false =>
        cases length with
        | none => exact Or.inl hname
        | some n =>
            obtain ⟨k, rfl⟩ := Int.eq_ofNat_of_zero_le (Int.le_of_lt (hlength n rfl).1)
            have hk := hlength k rfl
            exact Or.inr ⟨name, hname, ':' :: Text.ofNat k,
              Or.inr ⟨_, (VarSpec.isLength_ofNat k).2 (by omega), rfl⟩, rfl⟩

/-- **LISTS OF VARIABLES**: the texts of the production are the variables of an expression,
    with commas between them. -/
theorem mem_variableList_iff {s : Text} :
    s ∈ variableList ↔
      ∃ specs, AreWellFormed specs ∧
        List.intercalate [.char ','] (specs.map VarSpec.toText) = s := by
  rw [variableList, Language.mem_mul]
  constructor
  · rintro ⟨first, hfirst, _, ⟨ws, rfl, hws⟩, rfl⟩
    obtain ⟨v, hv, rfl⟩ := mem_varspec_iff.1 hfirst
    -- each later word is a comma and a variable
    have hlater : ∃ vs : List VarSpec, (∀ v ∈ vs, v.IsValid) ∧
        (vs.map VarSpec.toText).flatMap (.char ',' :: ·) = ws.flatten := by
      induction ws with
      | nil => exact ⟨[], nofun, rfl⟩
      | cons w ws ih =>
          obtain ⟨hw, hrest⟩ := List.forall_mem_cons.1 hws
          obtain ⟨_, ht, rfl⟩ := mem_oneOf_mul.1 hw
          obtain ⟨u, hu, rfl⟩ := mem_varspec_iff.1 ht
          obtain ⟨us, hus, heq⟩ := ih hrest
          refine ⟨u :: us, List.forall_mem_cons.2 ⟨hu, hus⟩, ?_⟩
          rw [List.map_cons, List.flatMap_cons, heq, List.flatten_cons]
    obtain ⟨vs, hvs, heq⟩ := hlater
    refine ⟨v :: vs, ⟨List.cons_ne_nil v vs, List.forall_mem_cons.2 ⟨hv, hvs⟩⟩, ?_⟩
    rw [List.map_cons, intercalate_cons, heq]
  · rintro ⟨specs, hspecs, rfl⟩
    cases specs with
    | nil => exact absurd rfl hspecs.nonempty
    | cons v vs =>
        obtain ⟨hv, hvs⟩ := List.forall_mem_cons.1 hspecs.valid
        refine ⟨v.toText, mem_varspec_iff.2 ⟨v, hv, rfl⟩, _,
          ⟨(vs.map VarSpec.toText).map (',' :: ·), rfl, ?_⟩, ?_⟩
        · intro w hw
          obtain ⟨t, ht, rfl⟩ := List.mem_map.1 hw
          obtain ⟨u, hu, rfl⟩ := List.mem_map.1 ht
          exact mem_oneOf_mul.2 ⟨_, mem_varspec_iff.2 ⟨u, hvs u hu, rfl⟩, rfl⟩
        · rw [List.map_cons, intercalate_cons, List.flatMap_def]

/-- **EXPRESSIONS**: the texts of the production are the written forms of well-formed
    expressions. -/
theorem mem_expression_iff {sigils : List CodePoint} {s : Text} :
    s ∈ expression sigils ↔ ∃ sigil specs, (∀ c ∈ sigil, c ∈ sigils) ∧ AreWellFormed specs ∧
      (Node.expression sigil specs 0).toText = s := by
  rw [expression, mul_assoc (oneOf ['\x7b']), oneOf_eq ['\x7d'], mem_mul_oneIn]
  simp only [mem_oneOf_mul]
  simp only [Language.mem_mul, mem_variableList_iff]
  constructor
  · rintro ⟨_, ⟨_, ⟨sigil, hsigil, _, ⟨specs, hspecs, rfl⟩, rfl⟩, rfl⟩, c, hc, rfl⟩
    obtain rfl : c = '\x7d' := by simpa using hc
    rcases hsigil with rfl | ⟨c, hc, rfl⟩
    · exact ⟨none, specs, nofun, hspecs, by simp [Node.toText]⟩
    · exact ⟨some c, specs, fun d hd => Option.some.inj hd ▸ hc, hspecs, by simp [Node.toText]⟩
  · rintro ⟨sigil, specs, hsigil, hspecs, rfl⟩
    refine ⟨_, ⟨_, ⟨sigil.toList, ?_, _, ⟨specs, hspecs, rfl⟩, rfl⟩, rfl⟩, '\x7d', by simp, ?_⟩
    · cases sigil with
      | none => exact Or.inl rfl
      | some c => exact Or.inr ⟨c, hsigil c rfl, rfl⟩
    · simp [Node.toText]

end Grammar

/-! ## Written expressions are read back -/

/-- What the written form of a variable is made of. -/
def isSpecChar (c : CodePoint) : Bool := isPlain c || c == '*' || c == ':'

namespace VarSpec

theorem isSpecChar_of_mem_toText {v : VarSpec} (hv : v.IsValid) :
    ∀ c ∈ v.toText, isSpecChar c = true := by
  have hname : ∀ c ∈ v.name, isSpecChar c = true := by
    intro c hc
    rw [isSpecChar, isPlain_of_isNameRest hv.name c hc]
    rfl
  unfold toText
  split
  · exact List.forall_mem_append.2 ⟨hname, List.forall_mem_singleton.2 rfl⟩
  · split
    · next n hn =>
        obtain ⟨k, rfl⟩ := Int.eq_ofNat_of_zero_le (Int.le_of_lt (hv.maxLength n hn).1)
        refine List.forall_mem_append.2 ⟨hname, List.forall_mem_cons.2 ⟨rfl, ?_⟩⟩
        intro c hc
        obtain ⟨d, hd, rfl⟩ := List.mem_map.1 (show c ∈ (Nat.toDigits 10 k).map .char from hc)
        have hdigit : d.isDigit = true := Nat.isDigit_of_mem_toDigits (by decide) (by decide) hd
        simp [isSpecChar, isPlain, isUnreserved, CodePoint.isAlphanum, CodePoint.char?,
          Char.isAlphanum, hdigit]
    · exact hname

/-- A list of variables splits into them. -/
theorem splitOn_intercalate_toText {specs : List VarSpec} (h : AreWellFormed specs) :
    (List.intercalate [.char ','] (specs.map toText)).splitOn (.char ',') = specs.map toText := by
  refine List.splitOn_intercalate (',' : CodePoint) ?_ ?_
  · intro t ht
    obtain ⟨v, hv, rfl⟩ := List.mem_map.1 ht
    exact not_mem_of_forall (isSpecChar_of_mem_toText (h.valid v hv)) (by decide)
  · exact fun hnil => h.nonempty (List.map_eq_nil_iff.1 hnil)

/-- Written variables are read back one by one. -/
theorem mapM_ofText?_toText {specs : List VarSpec} (h : ∀ v ∈ specs, v.IsValid) :
    (specs.map toText).mapM ofText? = some specs := by
  induction specs with
  | nil => rfl
  | cons v specs ih =>
      obtain ⟨hv, hspecs⟩ := List.forall_mem_cons.1 h
      rw [List.map_cons, List.mapM_cons, ofText?_toText hv, ih hspecs]
      rfl

/-- No name begins with a sigil. -/
theorem isSigil_of_isName_cons {c : CodePoint} {s : Text} (h : isName (c :: s) = true) :
    Node.isSigil c = false := by
  obtain ⟨w, hw, t, -, heq⟩ := Language.mem_mul.1 (Grammar.mem_varname_iff.2 h)
  rcases Grammar.mem_varchar_iff.1 hw with ⟨d, rfl, hd⟩ | ⟨a, b, rfl, -⟩
  · obtain ⟨rfl, -⟩ := List.cons.inj heq
    rw [← Bool.not_eq_true]
    intro hsigil
    simp only [Node.isSigil, List.mem_cons, List.not_mem_nil, or_false, decide_eq_true_eq] at hsigil
    rcases hsigil with rfl | rfl | rfl | rfl | rfl | rfl | rfl | rfl | rfl | rfl | rfl | rfl
    all_goals exact absurd hd (by decide)
  · obtain ⟨rfl, -⟩ := List.cons.inj heq
    rfl

/-- A list of variables begins with a name, so not with a sigil. -/
theorem exists_intercalate_toText_eq_cons {specs : List VarSpec} (h : AreWellFormed specs) :
    ∃ c t, List.intercalate [.char ','] (specs.map toText) = c :: t ∧ Node.isSigil c = false := by
  cases specs with
  | nil => exact absurd rfl h.nonempty
  | cons v specs =>
      have hname := (h.valid v List.mem_cons_self).name
      have hwritten : ∃ modifier, v.toText = v.name ++ modifier := by
        unfold toText
        split
        · exact ⟨_, rfl⟩
        · split
          · exact ⟨_, rfl⟩
          · exact ⟨[], (List.append_nil _).symm⟩
      obtain ⟨modifier, hwritten⟩ := hwritten
      rw [List.map_cons, intercalate_cons, hwritten]
      cases hcons : v.name with
      | nil =>
          rw [hcons] at hname
          exact nomatch hname
      | cons c name => exact ⟨c, _, rfl, isSigil_of_isName_cons (hcons ▸ hname)⟩

end VarSpec

namespace Node

/-- What is written between the braces is a sigil and what variables are made of. -/
theorem not_mem_inside {c : CodePoint} (hc : isSigil c = false)
    (hc' : (isSpecChar c || c == ',') = false) {sigil : Option CodePoint}
    (hsigil : ∀ d ∈ sigil, isSigil d = true) {specs : List VarSpec} (h : AreWellFormed specs) :
    c ∉ sigil.toList ++ List.intercalate [.char ','] (specs.map VarSpec.toText) := by
  have hlist : ∀ d ∈ List.intercalate [.char ','] (specs.map VarSpec.toText),
      (isSpecChar d || d == ',') = true := by
    refine forall_mem_intercalate (by decide) ?_
    intro t ht d hd
    obtain ⟨v, hv, rfl⟩ := List.mem_map.1 ht
    rw [VarSpec.isSpecChar_of_mem_toText (h.valid v hv) d hd]
    rfl
  rw [List.mem_append, not_or]
  constructor
  · intro hmem
    have hread := hsigil c (Option.mem_toList.1 hmem)
    rw [hc] at hread
    exact nomatch hread
  · exact not_mem_of_forall hlist hc'

/-- It has no closing brace. -/
theorem closing_not_mem {sigil : Option CodePoint} (hsigil : ∀ c ∈ sigil, isSigil c = true)
    {specs : List VarSpec} (h : AreWellFormed specs) :
    .char '\x7d' ∉ sigil.toList ++ List.intercalate [.char ','] (specs.map VarSpec.toText) :=
  not_mem_inside (by decide) (by decide) hsigil h

/-- A sigil is cut off again. -/
theorem cutSigil_append {sigil : Option CodePoint} (hsigil : ∀ c ∈ sigil, isSigil c = true)
    {c : CodePoint} (hc : isSigil c = false) (t : Text) :
    cutSigil (sigil.toList ++ c :: t) = (sigil, c :: t) := by
  cases sigil with
  | none =>
      show (if isSigil c then _ else _) = _
      rw [hc, if_neg Bool.false_ne_true]
  | some d =>
      show (if isSigil d then _ else _) = _
      rw [if_pos (hsigil d rfl)]
      rfl

/-- **WRITTEN, THEN READ**: a written expression is read back, wherever it stands. -/
theorem next?_toText {sigil : Option CodePoint} (hsigil : ∀ c ∈ sigil, isSigil c = true)
    {specs : List VarSpec} (h : AreWellFormed specs) (written offset : Nat) (rest : Text) :
    next? offset ((expression sigil specs written).toText ++ rest)
      = some (expression sigil specs offset, rest) := by
  have hclosing := closing_not_mem hsigil h
  have hsplit := VarSpec.splitOn_intercalate_toText h
  obtain ⟨c, t, hlist, hc⟩ := VarSpec.exists_intercalate_toText_eq_cons h
  rw [toText, List.append_assoc, List.cons_append, List.cons_append]
  show expression? offset _ = _
  rw [expression?, List.singleton_append, Text.cut_append hclosing]
  simp only [hlist, cutSigil_append hsigil hc]
  rw [← hlist, hsplit, VarSpec.mapM_ofText?_toText h.valid]
  rfl

end Node

/-! ## Words -/

namespace Grammar

/-- How long the word is that a text begins with, told from the first character. -/
def wordLength : Text → Nat
  | '%' :: _ => 3
  | '\x7b' :: s => (Text.cut '\x7d' s).1.length + 2
  | _ => 1

/-- A literal character is neither a percent sign nor an opening brace. -/
theorem exists_ranges (kind : LiteralKind) : kind = .encoded ∨
    ∃ ranges, ofKind kind = oneIn (inRanges ranges) ∧
      (∀ s, kind.run s = (s.takeWhile (inRanges ranges), s.dropWhile (inRanges ranges))) ∧
      inRanges ranges '%' = false ∧ inRanges ranges '\x7b' = false := by
  cases kind with
  | encoded => exact Or.inl rfl
  | ascii => exact Or.inr ⟨_, ascii_eq, fun _ => rfl, by decide, by decide⟩
  | ucschar => exact Or.inr ⟨_, ucschar_eq, fun _ => rfl, by decide, by decide⟩
  | iprivate => exact Or.inr ⟨_, iprivate_eq, fun _ => rfl, by decide, by decide⟩

theorem mem_ofKind_of_mem_literal {s : Text} (h : s ∈ literal) : ∃ kind, s ∈ ofKind kind := by
  rcases h with ((h | h) | h) | h
  · exact ⟨.ascii, h⟩
  · exact ⟨.ucschar, h⟩
  · exact ⟨.iprivate, h⟩
  · exact ⟨.encoded, h⟩

theorem ofKind_le_literal (kind : LiteralKind) : ofKind kind ≤ literal := by
  intro s h
  cases kind with
  | ascii => exact Or.inl (Or.inl (Or.inl h))
  | ucschar => exact Or.inl (Or.inl (Or.inr h))
  | iprivate => exact Or.inl (Or.inr h)
  | encoded => exact Or.inr h

/-- A literal is a triplet, or a character that begins nothing else. -/
theorem mem_literal_cases {s : Text} (h : s ∈ literal) :
    s ∈ pctEncoded ∨ ∃ c, s = [c] ∧ c ≠ '%' ∧ c ≠ '\x7b' := by
  obtain ⟨kind, h⟩ := mem_ofKind_of_mem_literal h
  rcases exists_ranges kind with rfl | ⟨ranges, heq, -, hpercent, hbrace⟩
  · exact Or.inl h
  · rw [heq] at h
    obtain ⟨c, rfl, hc⟩ := h
    refine Or.inr ⟨c, rfl, ?_, ?_⟩
    · rintro rfl
      exact Bool.noConfusion (hc.symm.trans hpercent)
    · rintro rfl
      exact Bool.noConfusion (hc.symm.trans hbrace)

theorem wordLength_append {sigils : List CodePoint} (hsigils : ∀ c ∈ sigils, Node.isSigil c = true)
    {w : Text} (h : w ∈ word sigils) (rest : Text) : wordLength (w ++ rest) = w.length := by
  rcases h with h | h
  · rcases mem_literal_cases h with h | ⟨c, rfl, hpercent, hbrace⟩
    · obtain ⟨a, b, rfl, -⟩ := mem_pctEncoded_iff.1 h
      rfl
    · rw [List.singleton_append, wordLength]
      · rfl
      · exact fun t hc => hpercent (List.cons.inj hc).1
      · exact fun t hc => hbrace (List.cons.inj hc).1
  · obtain ⟨sigil, specs, hsigil, hspecs, rfl⟩ := mem_expression_iff.1 h
    have hclosing := Node.closing_not_mem (fun c hc => hsigils c (hsigil c hc)) hspecs
    rw [Node.toText, List.append_assoc, List.cons_append, List.cons_append, List.singleton_append,
      wordLength, Text.cut_append hclosing]
    simp [Nat.add_assoc]

/-- **WORDS**: no word of a template begins another one. -/
theorem isPrefixFree_word {sigils : List CodePoint}
    (hsigils : ∀ c ∈ sigils, Node.isSigil c = true) : IsPrefixFree (word sigils) where
  ne_nil := by
    rintro w hw rfl
    exact absurd (wordLength_append hsigils hw []) (by decide)
  eq_of_append := by
    intro v hv w hw rest more h
    have hlength : v.length = w.length := by
      rw [← wordLength_append hsigils hv rest, h, wordLength_append hsigils hw more]
    exact List.append_inj_left h hlength

end Grammar

end UriTemplate
