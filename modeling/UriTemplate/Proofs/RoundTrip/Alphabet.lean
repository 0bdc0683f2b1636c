import Mathlib.Data.List.Basic
import UriTemplate.Expansion
import UriTemplate.Percent.Lemmas
import UriTemplate.Template.VarSpec.Lemmas

/-! # Alphabets — which characters an expansion can write

    An encoded text has unreserved characters and percent signs only, so none of the
    separators stands in it (`Percent.isPlain_of_mem_encode`).  The same holds of the
    names of variables (`VarSpec.isPlain_of_isNameRest`).  Members of a value are
    joined by commas and nothing else (`Value.isListed_of_mem_encoded`), and a part of
    an expression has equals signs besides (`VarSpec.isWritten_of_mem_parts`): these
    are the characters that every pattern admits. -/

namespace UriTemplate

/-- An unreserved character or a percent sign. -/
def isPlain (c : CodePoint) : Bool := isUnreserved c || c == '%'

/-- A plain character or a comma. -/
def isListed (c : CodePoint) : Bool := isPlain c || c == ','

/-- A listed character or an equals sign. -/
def isWritten (c : CodePoint) : Bool := isListed c || c == '='

theorem isListed_of_isPlain {c : CodePoint} (h : isPlain c = true) : isListed c = true := by
  rw [isListed, h]
  rfl

theorem isWritten_of_isListed {c : CodePoint} (h : isListed c = true) : isWritten c = true := by
  rw [isWritten, h]
  rfl

/-- A character outside a class is in no text of the class. -/
theorem not_mem_of_forall {q : CodePoint → Bool} {s : Text} (h : ∀ c ∈ s, q c = true)
    {sep : CodePoint} (hsep : q sep = false) : sep ∉ s := by
  intro hmem
  exact Bool.noConfusion ((h sep hmem).symm.trans hsep)

/-- What is neither an equals sign nor on one side of it is not there. -/
theorem not_mem_joined {sep : CodePoint} {key member : Text} (hne : sep ≠ '=') (hkey : sep ∉ key)
    (hmember : sep ∉ member) : sep ∉ key ++ .char '=' :: member := by
  rw [List.mem_append, List.mem_cons, not_or, not_or]
  exact ⟨hkey, hne, hmember⟩

/-- Joining adds the separator only. -/
theorem forall_mem_intercalate {q : CodePoint → Bool} {sep : CodePoint} (hsep : q sep = true)
    {texts : List Text} (h : ∀ s ∈ texts, ∀ c ∈ s, q c = true) :
    ∀ c ∈ List.intercalate [sep] texts, q c = true := by
  induction texts with
  | nil => exact fun c hc => (List.not_mem_nil hc).elim
  | cons s texts ih =>
      obtain ⟨hs, htexts⟩ := List.forall_mem_cons.1 h
      cases texts with
      | nil =>
          rw [List.intercalate_singleton]
          exact hs
      | cons t texts =>
          rw [List.intercalate_cons_cons, List.append_assoc]
          exact List.forall_mem_append.2 ⟨hs, List.forall_mem_cons.2 ⟨hsep, ih htexts⟩⟩

/-- What is in one of the texts is in the joined text. -/
theorem forall_mem_of_intercalate {q : CodePoint → Bool} {sep : CodePoint} {texts : List Text}
    (h : ∀ c ∈ List.intercalate [sep] texts, q c = true) : ∀ s ∈ texts, ∀ c ∈ s, q c = true := by
  induction texts with
  | nil => exact fun s hs => (List.not_mem_nil hs).elim
  | cons s texts ih =>
      cases texts with
      | nil =>
          rw [List.intercalate_singleton] at h
          exact List.forall_mem_singleton.2 h
      | cons t texts =>
          rw [List.intercalate_cons_cons, List.append_assoc] at h
          obtain ⟨hs, hrest⟩ := List.forall_mem_append.1 h
          exact List.forall_mem_cons.2 ⟨hs, ih (List.forall_mem_cons.1 hrest).2⟩

/-- Splitting adds nothing. -/
theorem forall_mem_splitOn {q : CodePoint → Bool} (sep : CodePoint) {s : Text}
    (h : ∀ c ∈ s, q c = true) : ∀ piece ∈ s.splitOn sep, ∀ c ∈ piece, q c = true := by
  have hjoined : List.intercalate [sep] (s.splitOn sep) = s := List.intercalate_splitOn sep
  rw [← hjoined] at h
  exact forall_mem_of_intercalate h

namespace Hex

/-- Written digits are unreserved. -/
theorem isUnreserved_upper {n : Nat} (h : n < 16) : isUnreserved (upper n) = true := by
  have all : ∀ k : Fin 16, isUnreserved (upper k) = true := by decide
  exact all ⟨n, h⟩

/-- Digits of either case are ASCII characters. -/
theorem exists_of_isDigit {c : CodePoint} (h : isDigit c = true) :
    ∃ d : Char, c = d ∧ d.toNat < 128 := by
  cases c with
  | surrogate n => cases h
  | char d =>
      have hle : d ≤ '9' ∨ d ≤ 'F' ∨ d ≤ 'f' := by
        rw [isDigit, value?] at h
        split at h
        · next hd => exact Or.inl hd.2
        · split at h
          · next hd => exact Or.inr (Or.inl hd.2)
          · split at h
            · next hd => exact Or.inr (Or.inr hd.2)
            · exact absurd h Bool.false_ne_true
      refine ⟨d, rfl, ?_⟩
      rcases hle with hd | hd | hd
      all_goals exact Nat.lt_of_le_of_lt (UInt32.le_iff_toNat_le.1 hd) (by decide)

/-- What holds of the digits among the ASCII characters holds of every digit. -/
theorem forall_isDigit {P : CodePoint → Prop}
    (all : ∀ n : Fin 128, isDigit (Char.ofNat n) = true → P (Char.ofNat n)) {c : CodePoint}
    (h : isDigit c = true) : P c := by
  obtain ⟨d, rfl, hd⟩ := exists_of_isDigit h
  have hc := all ⟨d.toNat, hd⟩
  rw [show Char.ofNat d.toNat = d from Char.ofNat_toNat d] at hc
  exact hc h

/-- Digits of either case are unreserved. -/
theorem isUnreserved_of_isDigit {c : CodePoint} (h : isDigit c = true) : isUnreserved c = true :=
  forall_isDigit (P := fun d => isUnreserved d = true) (by decide) h

end Hex

namespace Percent

/-- What never needs escaping is always allowed. -/
theorem allows_of_isUnreserved {c : CodePoint} (h : isUnreserved c = true) (escaping : Escaping) :
    escaping.allows c = true := by
  cases escaping with
  | unreserved => exact h
  | reserved => exact Bool.or_eq_true_iff.2 (Or.inl h)

/-- Encoded texts have allowed characters and percent signs only. -/
theorem allows_of_mem_encode (escaping : Escaping) (s : Text) :
    ∀ c ∈ encode escaping s, escaping.allows c = true ∨ c = '%' := by
  intro c hc
  obtain ⟨d, -, hd⟩ := List.mem_flatMap.1 hc
  rw [encodeChar] at hd
  split at hd
  · next hallows =>
      obtain rfl := List.mem_singleton.1 hd
      exact Or.inl hallows
  · obtain ⟨b, -, hb⟩ := List.mem_flatMap.1 hd
    have hlt : b.toNat < 256 := UInt8.toNat_lt_size b
    simp only [triplet, List.mem_cons, List.not_mem_nil, or_false] at hb
    rcases hb with rfl | rfl | rfl
    · exact Or.inr rfl
    · exact Or.inl (allows_of_isUnreserved (Hex.isUnreserved_upper (by omega)) escaping)
    · exact Or.inl (allows_of_isUnreserved (Hex.isUnreserved_upper (by omega)) escaping)

/-- Encoded texts are plain. -/
theorem isPlain_of_mem_encode (s : Text) : ∀ c ∈ encode .unreserved s, isPlain c = true := by
  intro c hc
  rcases allows_of_mem_encode .unreserved s c hc with hallows | rfl
  · rw [isPlain, show isUnreserved c = true from hallows]
    rfl
  · rfl

theorem isListed_of_mem_encode (s : Text) : ∀ c ∈ encode .unreserved s, isListed c = true :=
  fun c hc => isListed_of_isPlain (isPlain_of_mem_encode s c hc)

/-- **ENCODED, THEN DECODED**: a well-formed text comes back. -/
theorem decode_encode (escaping : Escaping) {s : Text} (h : s.IsWellFormed) :
    decode (encode escaping s) = s := by
  have hs := decode_encode_append escaping h []
  rwa [List.append_nil, show decode [] = [] from rfl, List.append_nil] at hs

/-- No code point is written as nothing. -/
theorem encodeChar_ne_nil (escaping : Escaping) (c : CodePoint) : encodeChar escaping c ≠ [] := by
  rw [encodeChar]
  split
  · exact List.cons_ne_nil c []
  · obtain ⟨b, bytes, hbytes⟩ : ∃ b bytes, Utf8.encodeChar c = b :: bytes := by
      cases c with
      | char c =>
          refine List.exists_cons_of_ne_nil fun hnil => ?_
          have hlength : c.utf8Size = 0 := by
            rw [← String.length_utf8EncodeChar c, show String.utf8EncodeChar c = [] from hnil,
              List.length_nil]
          exact absurd hlength (Nat.ne_of_gt c.utf8Size_pos)
      | surrogate n => exact ⟨_, _, rfl⟩
    rw [hbytes]
    exact List.cons_ne_nil _ _

/-- Only the empty text is written as nothing. -/
theorem encode_eq_nil_iff {escaping : Escaping} {s : Text} : encode escaping s = [] ↔ s = [] := by
  constructor
  · intro h
    cases s with
    | nil => rfl
    | cons c s =>
        rw [encode, List.flatMap_cons] at h
        exact absurd (List.append_eq_nil_iff.1 h).1 (encodeChar_ne_nil escaping c)
  · rintro rfl
    rfl

/-- A text without a percent sign is decoded as itself. -/
theorem decode_of_not_mem {s : Text} (h : .char '%' ∉ s) : decode s = s := by
  induction s with
  | nil => rfl
  | cons c s ih =>
      rw [List.mem_cons, not_or] at h
      rw [decode, decodeFrom_cons (Ne.symm h.1), ih h.2]
      rfl

end Percent

namespace VarSpec

/-- A name is plain. -/
theorem isPlain_of_isNameRest {following : Bool} {s : Text} (h : isNameRest following s = true) :
    ∀ c ∈ s, isPlain c = true := by
  have hword : ∀ c, isWordChar c = true → isPlain c = true := by
    intro c hc
    simp only [isWordChar, Bool.or_eq_true] at hc
    simp only [isPlain, isUnreserved, Bool.or_eq_true]
    tauto
  have hhex : ∀ c, Hex.isDigit c = true → isPlain c = true := by
    intro c hc
    rw [isPlain, Hex.isUnreserved_of_isDigit hc]
    rfl
  fun_induction isNameRest following s with
  | case1 => exact fun c hc => (List.not_mem_nil hc).elim
  | case2 following s ih =>
      rw [Bool.and_eq_true] at h
      exact List.forall_mem_cons.2 ⟨by decide, ih h.2⟩
  | case3 _ a b s ih =>
      simp only [Bool.and_eq_true] at h
      exact List.forall_mem_cons.2 ⟨by decide, List.forall_mem_cons.2 ⟨hhex _ h.1.1,
        List.forall_mem_cons.2 ⟨hhex _ h.1.2, ih h.2⟩⟩⟩
  | case4 _ d s _ _ ih =>
      rw [Bool.and_eq_true] at h
      exact List.forall_mem_cons.2 ⟨hword d h.1, ih h.2⟩

end VarSpec

namespace Value

mutual

/-- Members inside a value are joined by commas. -/
theorem isListed_of_mem_encoded : ∀ v : Value, ∀ c ∈ v.encoded .unreserved, isListed c = true
  | .scalar s => Percent.isListed_of_mem_encode s.toText
  | .list items => forall_mem_intercalate rfl (isListed_of_mem_encodedItems items)
  | .assoc pairs => forall_mem_intercalate rfl (isListed_of_mem_encodedPairs pairs)

theorem isListed_of_mem_encodedItems : ∀ items : List Value,
    ∀ s ∈ encodedItems .unreserved items, ∀ c ∈ s, isListed c = true
  | [] => fun _ hs => (List.not_mem_nil hs).elim
  | v :: items =>
      List.forall_mem_cons.2 ⟨isListed_of_mem_encoded v, isListed_of_mem_encodedItems items⟩

theorem isListed_of_mem_encodedPairs : ∀ pairs : List (Text × Value),
    ∀ s ∈ encodedPairs .unreserved pairs, ∀ c ∈ s, isListed c = true
  | [] => fun _ hs => (List.not_mem_nil hs).elim
  | (k, v) :: pairs =>
      List.forall_mem_cons.2 ⟨List.forall_mem_append.2
        ⟨Percent.isListed_of_mem_encode k,
          List.forall_mem_cons.2 ⟨rfl, isListed_of_mem_encoded v⟩⟩,
        isListed_of_mem_encodedPairs pairs⟩

end

end Value

/-- A name before a listed text, with or without an equals sign between them. -/
theorem Style.isWritten_of_mem_nameValue {style : Style} {name encoded : Text}
    (hname : ∀ c ∈ name, isPlain c = true) (h : ∀ c ∈ encoded, isListed c = true) :
    ∀ c ∈ style.nameValue name encoded, isWritten c = true := by
  have hleft : ∀ c ∈ name, isWritten c = true :=
    fun c hc => isWritten_of_isListed (isListed_of_isPlain (hname c hc))
  rw [Style.nameValue]
  split
  · exact hleft
  · exact List.forall_mem_append.2 ⟨hleft,
      List.forall_mem_cons.2 ⟨rfl, fun c hc => isWritten_of_isListed (h c hc)⟩⟩

theorem Style.isWritten_of_mem_part {style : Style} {name encoded : Text}
    (hname : ∀ c ∈ name, isPlain c = true) (h : ∀ c ∈ encoded, isListed c = true) :
    ∀ c ∈ style.part name encoded, isWritten c = true := by
  rw [Style.part]
  split
  · exact Style.isWritten_of_mem_nameValue hname h
  · exact fun c hc => isWritten_of_isListed (h c hc)

/-- **ALPHABET**: a part of an expression that leaves only unreserved characters as they are. -/
theorem VarSpec.isWritten_of_mem_parts {v : VarSpec} (hname : isName v.name = true) {style : Style}
    (hstyle : style.escaping = .unreserved) (value : Value) :
    ∀ part ∈ v.parts style value, ∀ c ∈ part, isWritten c = true := by
  have hplain := isPlain_of_isNameRest hname
  unfold VarSpec.parts
  rw [hstyle]
  cases value with
  | scalar s =>
      exact List.forall_mem_singleton.2
        (Style.isWritten_of_mem_part hplain (Percent.isListed_of_mem_encode _))
  | list items =>
      have hitems := Value.isListed_of_mem_encodedItems items
      dsimp only
      split
      · exact List.forall_mem_map.2 fun encoded he =>
          Style.isWritten_of_mem_part hplain (hitems encoded he)
      · exact List.forall_mem_singleton.2 (Style.isWritten_of_mem_part hplain
          (forall_mem_intercalate rfl hitems))
  | assoc pairs =>
      dsimp only
      split
      · exact List.forall_mem_map.2 fun p _ =>
          Style.isWritten_of_mem_nameValue (Percent.isPlain_of_mem_encode p.1)
            (Value.isListed_of_mem_encoded p.2)
      · exact List.forall_mem_singleton.2 (Style.isWritten_of_mem_part hplain
          (forall_mem_intercalate rfl (Value.isListed_of_mem_encodedPairs pairs)))

end UriTemplate
