import UriTemplate.Match.Query
import UriTemplate.Proofs.Percent.Runs

/-! # Separators — decoding piece by piece

    A stretch of a URL is taken apart first and decoded afterwards, and the same raw text is
    decoded now as a whole, now in its pieces between commas.  Both mean the same, because
    decoding is local at every character but the percent sign and the hexadecimal digits: such
    a character ends whatever is under way before it, be it a triplet or a character of several
    bytes, and stands for itself.

    * `Percent.isLocal_iff` — these are the only characters that decoding is local at;
    * `Percent.decode_intercalate` — so texts with a separator between them are decoded one by
      one;
    * `Value.StandsFor`, `ItemContent.StandsFor` — a decoded text as a whole or in pieces: what
      an item or a parameter makes of a raw text stands for the decoded one;
    * **`Percent.decode_piecewise`** — all of this together. -/

namespace UriTemplate

namespace Percent

/-! ## Locality -/

/-- Do the parts before and after the character always decode on their own, and the character
    to itself? -/
def IsLocal (c : CodePoint) : Prop := ∀ x y, decode (x ++ c :: y) = decode x ++ c :: decode y

/-- **LOCALITY**: a code point that can be in no triplet ends what is under way. -/
theorem isLocal_of_ne {c : CodePoint} (hpercent : c ≠ '%') (hdigit : Hex.isDigit c = false) :
    IsLocal c :=
  fun x y => decodeFrom_append_cons hpercent hdigit none x y

/-- A digit is taken into a triplet that was broken off before it. -/
theorem not_isLocal_of_isDigit {c : CodePoint} (h : Hex.isDigit c = true) : ¬ IsLocal c := by
  have htaken : decode [.char '%', .char '4', c] ≠ [.char '%', .char '4', c] :=
    Hex.forall_isDigit
      (P := fun d => decode [.char '%', .char '4', d] ≠ [.char '%', .char '4', d]) (by decide) h
  intro hlocal
  exact htaken (hlocal ['%', '4'] [])

/-- Decoding is local at a character just when no triplet can have it. -/
theorem isLocal_iff {c : CodePoint} : IsLocal c ↔ c ≠ '%' ∧ Hex.isDigit c = false := by
  constructor
  · intro hlocal
    constructor
    · rintro rfl
      exact absurd (hlocal [] ['4', '1']) (by decide)
    · by_contra hdigit
      exact not_isLocal_of_isDigit (Bool.not_eq_false _ ▸ hdigit) hlocal
  · rintro ⟨hpercent, hdigit⟩
    exact isLocal_of_ne hpercent hdigit

/-! ## Pieces -/

section

variable {sep : CodePoint} (hlocal : IsLocal sep)
include hlocal

/-- Texts with a separator between them are decoded one by one. -/
theorem decode_intercalate (texts : List Text) :
    decode (List.intercalate [sep] texts) = List.intercalate [sep] (texts.map decode) := by
  induction texts with
  | nil => rfl
  | cons text texts ih =>
      cases texts with
      | nil => simp
      | cons next texts =>
          rw [List.map_cons] at ih
          rw [List.map_cons, List.map_cons, List.intercalate_cons_cons,
            List.intercalate_cons_cons, List.append_assoc, List.append_assoc,
            List.singleton_append, List.singleton_append, hlocal, ih]

/-- So are the pieces of a text. -/
theorem intercalate_map_decode_splitOn (raw : Text) :
    List.intercalate [sep] ((raw.splitOn sep).map decode) = decode raw := by
  rw [← decode_intercalate hlocal, List.intercalate_splitOn]

/-- So are the two parts of a text that is cut in two. -/
theorem decode_of_cut {raw before after : Text} (h : raw.cut sep = (before, some after)) :
    decode raw = decode before ++ sep :: decode after := by
  rw [Text.eq_of_cut h, hlocal]

end

theorem isLocal_comma : IsLocal ',' := isLocal_of_ne (by decide) rfl

theorem isLocal_equals : IsLocal '=' := isLocal_of_ne (by decide) rfl

end Percent

/-! ## What is read of a raw text -/

/-- Is it the text, as a whole or in pieces between commas? -/
inductive Value.StandsFor : Value → Text → Prop
  | whole (s : Text) : StandsFor (.ofText s) s
  | pieces (texts : List Text) : StandsFor (.ofTexts texts) (commaJoined texts)

/-- A value that was read stands for the decoded text, whether lists are allowed or not. -/
theorem Value.standsFor_ofRaw (lists : Bool) (raw : Text) :
    (Value.ofRaw lists raw).StandsFor (Percent.decode raw) := by
  rw [Value.ofRaw]
  split
  · have hpieces := Percent.intercalate_map_decode_splitOn Percent.isLocal_comma raw
    rw [← hpieces]
    exact .pieces _
  · exact .whole _

namespace ItemContent

/-- Is it the text?  A pair is one with an equals sign between its key and its member. -/
inductive StandsFor : ItemContent → Text → Prop
  | text (s : Text) : StandsFor (.text s) s
  | list (texts : List Text) : StandsFor (.list texts) (commaJoined texts)
  | pair (key : Text) {member : Value} {s : Text} (h : member.StandsFor s) :
      StandsFor (.pair key member) (key ++ .char '=' :: s)

/-- **ITEMS**: whatever an item holds, it stands for the decoded text. -/
theorem standsFor_of_ofRaw {lists : Bool} {raw : Text} {content : ItemContent}
    (h : ofRaw lists raw = .ok content) : content.StandsFor (Percent.decode raw) := by
  unfold ofRaw at h
  split at h
  · next key member hcut =>
      split at h
      · cases h
      · rw [← Except.ok.inj h, Percent.decode_of_cut Percent.isLocal_equals hcut]
        exact .pair _ (Value.standsFor_ofRaw lists member)
  · split at h
    · have hpieces := Percent.intercalate_map_decode_splitOn Percent.isLocal_comma raw
      rw [← Except.ok.inj h, ← hpieces]
      exact .list _
    · rw [← Except.ok.inj h]
      exact .text _

end ItemContent

namespace Parameter

/-- A parameter as a text: its name, and its value behind an equals sign if it has one. -/
def decoded (p : Parameter) : Text :=
  if p.raw.isSome then p.name ++ .char '=' :: p.text else p.name

/-- **PARAMETERS**: a parameter is the decoded text. -/
theorem decoded_of_ofRaw {raw : Text} {position : Int} {p : Parameter}
    (h : ofRaw raw position = .ok p) : p.decoded = Percent.decode raw := by
  unfold ofRaw at h
  split at h
  · next name value hcut =>
      split at h
      · cases h
      · rw [← Except.ok.inj h, Percent.decode_of_cut Percent.isLocal_equals hcut]
        rfl
  · next name hcut =>
      -- without an equals sign the name is all of it
      have hno : .char '=' ∉ raw := by
        intro hmem
        obtain ⟨before, after, rfl, hbefore⟩ := List.eq_append_cons_of_mem hmem
        rw [Text.cut_append hbefore] at hcut
        cases hcut
      have hname : raw = name := by
        rw [Text.cut_of_not_mem hno] at hcut
        exact congrArg Prod.fst hcut
      split at h
      · cases h
      · rw [← Except.ok.inj h, hname]
        rfl

/-- The value of a parameter by itself stands for its text. -/
theorem standsFor_of_single? {p : Parameter} {v : Value} (h : p.single? = some v) :
    v.StandsFor p.text := by
  unfold single? at h
  split at h
  · cases h
  · cases h
  · next raw _ hraw =>
      rw [← Option.some.inj h, text, hraw]
      exact Value.standsFor_ofRaw true raw

end Parameter

/-- **PIECE BY PIECE**: a text is decoded apart at every character but the percent sign and the
    digits, whatever is broken off before it, and at no other.  So the pieces between separators,
    decoded one by one and joined again, are the decoded text, and what is read of a raw text, an
    item as well as a parameter and its value by itself, stands for the decoded one. -/
theorem Percent.decode_piecewise :
    (∀ d : CodePoint, (∀ x y, decode (x ++ d :: y) = decode x ++ d :: decode y) ↔
      d ≠ '%' ∧ Hex.isDigit d = false) ∧
    (∀ sep ∈ ([',', '/', '&', '='] : Text), ∀ raw : Text,
      List.intercalate [sep] ((raw.splitOn sep).map decode) = decode raw) ∧
    (∀ lists raw content, ItemContent.ofRaw lists raw = .ok content →
      content.StandsFor (decode raw)) ∧
    (∀ raw position p, Parameter.ofRaw raw position = .ok p → p.decoded = decode raw) ∧
    ∀ (p : Parameter) (v : Value), p.single? = some v → v.StandsFor p.text := by
  have hseparators : ∀ sep ∈ ([',', '/', '&', '='] : Text), IsLocal sep := by
    intro sep hsep
    simp only [List.mem_cons, List.not_mem_nil, or_false] at hsep
    rcases hsep with rfl | rfl | rfl | rfl
    all_goals exact isLocal_of_ne (by decide) rfl
  refine ⟨fun d => isLocal_iff, ?_, ?_, ?_, ?_⟩
  · intro sep hsep raw
    exact intercalate_map_decode_splitOn (hseparators sep hsep) raw
  · intro lists raw content h
    exact ItemContent.standsFor_of_ofRaw h
  · intro raw position p h
    exact Parameter.decoded_of_ofRaw h
  · intro p v h
    exact Parameter.standsFor_of_single? h

/-- A character of three bytes is broken off before the equals sign and a triplet before the
    comma.  What would go on with them stands right behind, and does not. -/
theorem Percent.decode_piecewise_truncated :
    let raw := "k%E2=%82%4,1%AC".toText
    let value := Value.ofTexts ["\uFFFD%4".toText, "1\uFFFD".toText]
    let p : Parameter := ⟨"k\uFFFD".toText, some "%82%4,1%AC".toText, 0⟩
    decode raw = decode "k%E2=%82%4".toText ++ .char ',' :: decode "1%AC".toText ∧
      decode raw = "k\uFFFD=\uFFFD%4,1\uFFFD".toText ∧
      List.intercalate [.char ','] ((raw.splitOn (.char ',')).map decode) = decode raw ∧
      ItemContent.ofRaw true raw = .ok (.pair "k\uFFFD".toText value) ∧
      (ItemContent.pair "k\uFFFD".toText value).StandsFor (decode raw) ∧
      Parameter.ofRaw raw 0 = .ok p ∧ p.decoded = decode raw ∧
      p.single? = some value ∧ value.StandsFor p.text := by
  obtain ⟨hlocal, hsplit, hitem, hparameter, hsingle⟩ := Percent.decode_piecewise
  exact ⟨(hlocal ',').2 ⟨by decide, rfl⟩ "k%E2=%82%4".toText "1%AC".toText, rfl,
    hsplit ',' (by decide) _, rfl, hitem true _ _ rfl, rfl, hparameter _ 0 _ rfl, rfl,
    hsingle _ _ rfl⟩

end UriTemplate
