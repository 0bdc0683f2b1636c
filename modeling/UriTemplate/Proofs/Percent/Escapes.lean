import UriTemplate.Proofs.RoundTrip.Alphabet

/-! # Escapes — where percent signs come from

    A text is *complete* when each of its percent signs begins a triplet
    (`Percent.IsComplete`).  Complete texts may be put one after the other: no triplet
    is begun in one and ended in the next.  What is encoded is complete, and more is
    known of its triplets (`Percent.isEscaped_of_encode_eq`): each is that of one byte
    of a code point, written large, with those of the other bytes beside it. -/

namespace UriTemplate

/-! ## Complete texts -/

/-- Is the character a hexadecimal digit that is no small letter? -/
def Hex.isUpper (c : CodePoint) : Bool :=
  c.char?.any fun d => '0' ≤ d && d ≤ '9' || 'A' ≤ d && d ≤ 'F'

theorem Hex.isUpper_upper {n : Nat} (h : n < 16) : isUpper (upper n) = true := by
  have all : ∀ k : Fin 16, isUpper (upper k) = true := by decide
  exact all ⟨n, h⟩

theorem Hex.isDigit_of_isUpper {c : CodePoint} (h : isUpper c = true) : isDigit c = true := by
  cases c with
  | surrogate n => cases h
  | char d =>
      simp only [isUpper, CodePoint.char?, Option.any_some, Bool.or_eq_true, Bool.and_eq_true,
        decide_eq_true_eq] at h
      rw [isDigit, value?]
      rcases h with hdigit | hletter
      · rw [if_pos hdigit]
        rfl
      · split <;> rfl

namespace Percent

/-- Is every percent sign followed by two hexadecimal digits? -/
def IsComplete (s : Text) : Prop :=
  ∀ before after, s = before ++ .char '%' :: after →
    ∃ h l rest, after = h :: l :: rest ∧ Hex.isDigit h = true ∧ Hex.isDigit l = true

theorem isComplete_nil : IsComplete [] := by
  intro before after h
  cases before <;> cases h

/-- Complete texts are complete one after the other. -/
theorem IsComplete.append {s t : Text} (hs : IsComplete s) (ht : IsComplete t) :
    IsComplete (s ++ t) := by
  intro before after heq
  rcases List.append_eq_append_iff.1 heq with ⟨middle, -, hright⟩ | ⟨middle, rfl, hright⟩
  · exact ht middle after hright
  · cases middle with
    | nil => exact ht [] after hright.symm
    | cons c middle =>
        obtain ⟨rfl, rfl⟩ := List.cons.inj hright
        obtain ⟨h, l, rest, rfl, hdigits⟩ := hs before middle rfl
        exact ⟨h, l, rest ++ t, rfl, hdigits⟩

theorem isComplete_flatMap {α : Type} {f : α → Text} {items : List α}
    (h : ∀ a ∈ items, IsComplete (f a)) : IsComplete (items.flatMap f) := by
  induction items with
  | nil => exact isComplete_nil
  | cons a items ih =>
      obtain ⟨ha, hitems⟩ := List.forall_mem_cons.1 h
      exact ha.append (ih hitems)

theorem isComplete_of_not_mem {s : Text} (h : .char '%' ∉ s) : IsComplete s := by
  intro before after heq
  exact absurd (heq ▸ List.mem_append_right _ List.mem_cons_self) h

theorem isComplete_triplet {h l : CodePoint} (hh : Hex.isDigit h = true)
    (hl : Hex.isDigit l = true) : IsComplete ['%', h, l] := by
  intro before after heq
  cases before with
  | nil =>
      obtain rfl := List.tail_eq_of_cons_eq heq
      exact ⟨h, l, [], rfl, hh, hl⟩
  | cons c before =>
      -- a digit is no percent sign
      have hmem : .char '%' ∈ [h, l] := by
        rw [List.tail_eq_of_cons_eq heq]
        exact List.mem_append_right before List.mem_cons_self
      rcases List.mem_pair.1 hmem with rfl | rfl
      · exact absurd hh (by decide)
      · exact absurd hl (by decide)

/-! ## Escaped code points -/

/-- Is this a triplet of an encoded text, with what stands before and after it?  It is that of one
    byte of a code point, and the triplets of the other bytes stand beside it.  If the code point
    is a character, this is what they are decoded as. -/
def IsEscaped (escaping : Escaping) (s before : Text) (high low : CodePoint) (after : Text) :
    Prop :=
  ∃ s₁ c s₂ bytes₁ b bytes₂, s = s₁ ++ c :: s₂ ∧ Utf8.encodeChar c = bytes₁ ++ b :: bytes₂ ∧
    before = encode escaping s₁ ++ bytes₁.flatMap triplet ∧ [.char '%', high, low] = triplet b ∧
    after = bytes₂.flatMap triplet ++ encode escaping s₂ ∧
    (c.isSurrogate = false → decode ((bytes₁ ++ b :: bytes₂).flatMap triplet) = [c])

/-- The triplets of a character are decoded as it. -/
theorem decode_triplets {c : CodePoint} (h : c.isSurrogate = false) :
    decode ((Utf8.encodeChar c).flatMap triplet) = [c] := by
  cases c with
  | surrogate n => cases h
  | char c =>
      have hdecode := decodeFrom_triplets none (Utf8.encodeChar c) []
      rwa [List.append_nil, Utf8.run_encodeChar] at hdecode

/-- Both digits of a triplet are written large. -/
theorem isUpper_of_triplet_eq {b : UInt8} {high low : CodePoint}
    (h : [.char '%', high, low] = triplet b) :
    Hex.isUpper high = true ∧ Hex.isUpper low = true := by
  have hb : b.toNat < 256 := UInt8.toNat_lt_size b
  obtain ⟨rfl, rfl⟩ : high = _ ∧ low = _ := by simpa [triplet] using h
  exact ⟨Hex.isUpper_upper (by omega), Hex.isUpper_upper (by omega)⟩

/-- A triplet keeps its place when one more code point is written before it. -/
theorem IsEscaped.cons {escaping : Escaping} {s before after : Text} {high low : CodePoint}
    (h : IsEscaped escaping s before high low after) (c : CodePoint) :
    IsEscaped escaping (c :: s) (encodeChar escaping c ++ before) high low after := by
  obtain ⟨s₁, d, s₂, bytes₁, b, bytes₂, rfl, hd, rfl, hrest⟩ := h
  refine ⟨c :: s₁, d, s₂, bytes₁, b, bytes₂, rfl, hd, ?_, hrest⟩
  rw [encode, encode, List.flatMap_cons, List.append_assoc]

/-- A percent sign among triplets begins one of them. -/
theorem exists_of_triplets_eq {bytes : List UInt8} {before after : Text}
    (h : bytes.flatMap triplet = before ++ .char '%' :: after) :
    ∃ bytes₁ b bytes₂ high low, bytes = bytes₁ ++ b :: bytes₂ ∧
      before = bytes₁.flatMap triplet ∧ [.char '%', high, low] = triplet b ∧
      after = high :: low :: bytes₂.flatMap triplet := by
  induction bytes generalizing before with
  | nil => cases before <;> cases h
  | cons b bytes ih =>
      have hdigits := isUpper_of_triplet_eq (b := b) rfl
      have hne : ∀ {c : CodePoint}, Hex.isUpper c = true → c ≠ '%' := by
        rintro _ hc rfl
        exact absurd hc (by decide)
      rw [List.flatMap_cons] at h
      match before, h with
      | [], h => exact ⟨[], b, bytes, _, _, rfl, rfl, rfl, (List.cons.inj h).2.symm⟩
      | [_], h => exact absurd (List.cons.inj (List.cons.inj h).2).1 (hne hdigits.1)
      | [_, _], h =>
          exact absurd (List.cons.inj (List.cons.inj (List.cons.inj h).2).2).1 (hne hdigits.2)
      | _ :: _ :: _ :: before, h =>
          simp only [triplet, List.cons_append, List.nil_append, List.cons.injEq] at h
          obtain ⟨rfl, rfl, rfl, hlater⟩ := h
          obtain ⟨bytes₁, b', bytes₂, high, low, rfl, rfl, hb', hafter⟩ := ih hlater
          exact ⟨b :: bytes₁, b', bytes₂, high, low, rfl, rfl, hb', hafter⟩

/-- **ESCAPES**: a percent sign in an encoded text begins the triplet of one byte of a code
    point. -/
theorem isEscaped_of_encode_eq {escaping : Escaping} {s before after : Text}
    (h : encode escaping s = before ++ .char '%' :: after) :
    ∃ high low rest, after = high :: low :: rest ∧ IsEscaped escaping s before high low rest := by
  induction s generalizing before with
  | nil => cases before <;> cases h
  | cons c s ih =>
      rw [encode, List.flatMap_cons] at h
      rcases List.append_eq_append_iff.1 h with ⟨middle, rfl, hright⟩ | ⟨middle, hleft, hright⟩
      · obtain ⟨high, low, rest, hafter, hescaped⟩ := ih hright
        exact ⟨high, low, rest, hafter, hescaped.cons c⟩
      · cases middle with
        | nil =>
            have hfirst : encode escaping s = [] ++ .char '%' :: after := hright.symm
            obtain ⟨high, low, rest, hafter, hescaped⟩ := ih hfirst
            have hcons := hescaped.cons c
            rw [hleft, List.append_nil, List.append_nil] at hcons
            exact ⟨high, low, rest, hafter, hcons⟩
        | cons _ middle =>
            -- the percent sign is in what `c` is written as, which is triplets then
            obtain ⟨rfl, rfl⟩ := List.cons.inj hright
            have hno : ¬ escaping.allows c = true := by
              intro hallows
              rw [encodeChar, if_pos hallows] at hleft
              have hmem : .char '%' ∈ [c] := hleft ▸ List.mem_append_right _ List.mem_cons_self
              exact ne_percent_of_allows hallows (List.mem_singleton.1 hmem).symm
            rw [encodeChar, if_neg hno] at hleft
            obtain ⟨bytes₁, b, bytes₂, high, low, hbytes, rfl, hb, rfl⟩ :=
              exists_of_triplets_eq hleft
            exact ⟨high, low, _, rfl, [], c, s, bytes₁, b, bytes₂, rfl, hbytes, rfl, hb, rfl,
              hbytes ▸ decode_triplets⟩

/-- Its digits are written large. -/
theorem IsEscaped.isUpper {escaping : Escaping} {s before after : Text} {high low : CodePoint}
    (h : IsEscaped escaping s before high low after) :
    Hex.isUpper high = true ∧ Hex.isUpper low = true := by
  obtain ⟨_, _, _, _, _, _, _, _, _, hb, _⟩ := h
  exact isUpper_of_triplet_eq hb

/-- So encoded texts are complete. -/
theorem isComplete_encode (escaping : Escaping) (s : Text) : IsComplete (encode escaping s) := by
  intro before after heq
  obtain ⟨high, low, rest, hafter, hescaped⟩ := isEscaped_of_encode_eq heq
  obtain ⟨hhigh, hlow⟩ := hescaped.isUpper
  exact ⟨high, low, rest, hafter, Hex.isDigit_of_isUpper hhigh, Hex.isDigit_of_isUpper hlow⟩

end Percent

end UriTemplate
