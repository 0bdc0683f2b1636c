import UriTemplate.Percent.Basic
import UriTemplate.Text.Utf8.Lemmas

/-! # Percent-encoding — reading what was written

    * `decodeFrom_triplets` — triplets in a row are read as their bytes are;
    * `decodeFrom_cons` — any other code point ends what is under way and stands for
      itself;
    * `decode_encode_append` — so an encoded text is decoded as itself if it is well
      formed, under either escaping, and what follows is decoded on its own;
    * `decodeFrom_append_cons` — a code point that can be in no triplet cuts a text
      in two parts that are decoded apart. -/

namespace UriTemplate.Percent

/-- A triplet reads back as its byte. -/
theorem byte?_upper (b : UInt8) :
    byte? (Hex.upper (b.toNat / 16)) (Hex.upper (b.toNat % 16)) = some b := by
  have hb : b.toNat < 256 := UInt8.toNat_lt_size b
  rw [byte?, Hex.value?_upper (by omega), Hex.value?_upper (by omega)]
  show some (UInt8.ofNat (16 * (b.toNat / 16) + b.toNat % 16)) = some b
  rw [Nat.div_add_mod, UInt8.ofNat_toNat]

/-- A triplet is read as its byte is. -/
theorem decodeFrom_triplet (state : Option Utf8.Pending) (b : UInt8) (s : Text) :
    decodeFrom state (triplet b ++ s)
      = (Utf8.step state b).1 ++ decodeFrom (Utf8.step state b).2 s := by
  show decodeFrom state ('%' :: Hex.upper (b.toNat / 16) :: Hex.upper (b.toNat % 16) :: s) = _
  rw [decodeFrom, byte?_upper]

/-- Triplets are read as their bytes are. -/
theorem decodeFrom_triplets (state : Option Utf8.Pending) (bytes : List UInt8) (s : Text) :
    decodeFrom state (bytes.flatMap triplet ++ s)
      = (Utf8.run state bytes).1 ++ decodeFrom (Utf8.run state bytes).2 s := by
  induction bytes generalizing state with
  | nil => rfl
  | cons b bytes ih =>
      rw [List.flatMap_cons, List.append_assoc, decodeFrom_triplet, ih, Utf8.run,
        List.append_assoc]

/-- Any code point but the percent sign ends what is under way and stands for itself. -/
theorem decodeFrom_cons {c : CodePoint} (h : c ≠ '%') (state : Option Utf8.Pending) (s : Text) :
    decodeFrom state (c :: s) = Utf8.finish state ++ c :: decode s := by
  rw [decodeFrom]
  · rfl
  · intro hi lo rest hc
    exact absurd hc h

/-- So does a percent sign before code points that are no two digits. -/
theorem decodeFrom_percent {h l : CodePoint} (hb : byte? h l = none)
    (state : Option Utf8.Pending) (s : Text) :
    decodeFrom state ('%' :: h :: l :: s)
      = Utf8.finish state ++ .char '%' :: decode (h :: l :: s) := by
  rw [decodeFrom, hb]
  rfl

/-- A code point that is no digit spoils a triplet, in either place. -/
theorem byte?_eq_none {h l : CodePoint} (hx : Hex.isDigit h = false ∨ Hex.isDigit l = false) :
    byte? h l = none := by
  unfold Hex.isDigit at hx
  unfold byte?
  cases hh : Hex.value? h with
  | none => rfl
  | some a =>
      cases hl : Hex.value? l with
      | none => rfl
      | some b => simp [hh, hl] at hx

/-- No escaping allows the percent sign. -/
theorem ne_percent_of_allows {escaping : Escaping} {c : CodePoint}
    (h : escaping.allows c = true) : c ≠ '%' := by
  rintro rfl
  cases escaping <;> exact absurd h (by decide)

/-- **STREAMING**: an encoded text without surrogates is decoded as itself, and what follows on
    its own. -/
theorem decode_encode_append (escaping : Escaping) {s : Text} (hs : s.IsWellFormed) (rest : Text) :
    decode (encode escaping s ++ rest) = s ++ decode rest := by
  induction s with
  | nil => rfl
  | cons c s ih =>
      obtain ⟨hc, hlater⟩ := List.forall_mem_cons.1 hs
      rw [encode, List.flatMap_cons, List.append_assoc, encodeChar]
      by_cases h : escaping.allows c = true
      · rw [if_pos h, List.singleton_append, decode, decodeFrom_cons (ne_percent_of_allows h)]
        exact congrArg (c :: ·) (ih hlater)
      · rw [if_neg h, decode, decodeFrom_triplets]
        cases c with
        | char c =>
            rw [Utf8.run_encodeChar]
            exact congrArg (.char c :: ·) (ih hlater)
        | surrogate n => cases hc

/-- **CUTTING**: before a code point that can be in no triplet, no triplet is left unfinished. -/
theorem decodeFrom_append_cons {c : CodePoint} (hc : c ≠ '%') (hx : Hex.isDigit c = false)
    (state : Option Utf8.Pending) (s t : Text) :
    decodeFrom state (s ++ c :: t) = decodeFrom state s ++ c :: decode t := by
  fun_induction decodeFrom state s with
  | case1 state => exact decodeFrom_cons hc state t
  | case2 state h l s b hb ih =>
      show decodeFrom state ('%' :: h :: l :: (s ++ c :: t)) = _
      rw [decodeFrom, hb, List.append_assoc]
      exact congrArg _ ih
  | case3 state h l s hb ih =>
      show decodeFrom state ('%' :: h :: l :: (s ++ c :: t)) = _
      rw [decodeFrom_percent hb, List.append_assoc]
      exact congrArg (Utf8.finish state ++ .char '%' :: ·) ih
  | case4 state d s hd ih =>
      have hcons : decodeFrom state (d :: (s ++ c :: t))
          = Utf8.finish state ++ d :: decode (s ++ c :: t) := by
        by_cases hp : d = '%'
        · subst hp
          -- the text ends, or is cut, before the triplet is complete
          match s, hd with
          | [], _ =>
              match t with
              | [] => rfl
              | e :: t => exact decodeFrom_percent (byte?_eq_none (.inl hx)) state t
          | [h], _ => exact decodeFrom_percent (byte?_eq_none (.inr hx)) state t
          | h :: l :: s, hd => exact absurd rfl (hd h l s rfl)
        · exact decodeFrom_cons hp state _
      rw [List.cons_append, hcons, List.append_assoc]
      exact congrArg (Utf8.finish state ++ d :: ·) ih

end UriTemplate.Percent
