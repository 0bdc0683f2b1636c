import Mathlib.Data.List.SplitBy
import Mathlib.Data.Set.Function
import UriTemplate.Proofs.RoundTrip.Alphabet

/-! # Bytes and runs — percent-encoding as URIs define it

    By definition a text is encoded byte by byte: each byte of its UTF-8 is its
    character or a triplet (`encodeBytes`).  It is decoded run by run: triplets count
    only within a longest run of ASCII characters, each run is read as lossy UTF-8 on
    its own, and all other code points stand for themselves (`decodeRuns`).  The library
    goes through a text once, in both directions.  That this is the same rests on two
    facts:

    * `le_toNat_of_mem_encodeChar` — an allowed character is one byte, and no other
      code point has the byte of an allowed one;
    * `Percent.decodeFrom_append_cons` — a code point beyond ASCII ends whatever is
      under way, so that no run reaches into the next one.

    `Percent.decode_encode_iff` puts both beside the round trip, which only the texts
    without surrogates make. -/

namespace UriTemplate

/-! ## Bytes of a code point -/

/-- Is it a character of ASCII? -/
def isAscii (c : CodePoint) : Bool := c.toNat < 0x80

theorem isAscii_iff {c : CodePoint} : isAscii c = true ↔ c.toNat < 0x80 := decide_eq_true_iff

/-- A digit is a character of ASCII, and so no code point beyond it is a digit. -/
theorem isDigit_eq_false_of_isAscii {c : CodePoint} (h : isAscii c = false) :
    Hex.isDigit c = false := by
  rw [Bool.eq_false_iff]
  intro hdigit
  obtain ⟨d, rfl, hd⟩ := Hex.exists_of_isDigit hdigit
  exact Bool.false_ne_true (h.symm.trans (isAscii_iff.2 hd))

/-- A character of ASCII is one byte. -/
theorem encodeChar_of_isAscii {c : CodePoint} (h : isAscii c = true) :
    Utf8.encodeChar c = [UInt8.ofNat c.toNat] ∧ (UInt8.ofNat c.toNat).toNat = c.toNat ∧
      .char (Char.ofNat c.toNat) = c := by
  cases c with
  | surrogate n =>
      have hn : 0xD800 + n.val < 0x80 := isAscii_iff.1 h
      omega
  | char c =>
      have hlt : c.toNat < 0x80 := isAscii_iff.1 h
      rw [Utf8.encodeChar, String.utf8EncodeChar, show c.val.toNat = c.toNat from rfl]
      exact ⟨if_pos (Nat.le_of_lt_succ hlt), Utf8.toNat_ofNat_of_lt (Nat.lt_trans hlt (by decide)),
        congrArg CodePoint.char (Char.ofNat_toNat c)⟩

/-- Any other code point has no byte of ASCII. -/
theorem le_toNat_of_mem_encodeChar {c : CodePoint} (h : isAscii c = false) :
    ∀ b ∈ Utf8.encodeChar c, 0x80 ≤ b.toNat := by
  have hlow : ¬ c.toNat < 0x80 := fun hlt => Bool.false_ne_true (h.symm.trans (isAscii_iff.2 hlt))
  have hbyte : ∀ {n : Nat}, 0x80 ≤ n → n < 0x100 → 0x80 ≤ (UInt8.ofNat n).toNat := by
    intro n hge hlt
    rwa [Utf8.toNat_ofNat_of_lt hlt]
  have hnext : ∀ n, 0x80 ≤ (UInt8.ofNat (n % 64 + 128)).toNat :=
    fun n => hbyte (by omega) (by omega)
  cases c with
  | surrogate n =>
      have hn : n.val < 0x800 := n.isLt
      rw [Utf8.encodeChar]
      exact List.forall_mem_cons.2 ⟨by decide, List.forall_mem_cons.2
        ⟨hbyte (by omega) (by omega), List.forall_mem_singleton.2 (hbyte (by omega) (by omega))⟩⟩
  | char c =>
      have hhigh : c.toNat < 0xD800 ∨ 0xDFFF < c.toNat ∧ c.toNat < 0x110000 := c.valid
      rw [CodePoint.toNat] at hlow
      rw [Utf8.encodeChar, String.utf8EncodeChar, show c.val.toNat = c.toNat from rfl]
      generalize c.toNat = v at hlow hhigh
      split
      · omega
      split
      · exact List.forall_mem_cons.2 ⟨hbyte (by omega) (by omega),
          List.forall_mem_singleton.2 (hnext _)⟩
      split
      · exact List.forall_mem_cons.2 ⟨hbyte (by omega) (by omega), List.forall_mem_cons.2
          ⟨hnext _, List.forall_mem_singleton.2 (hnext _)⟩⟩
      · exact List.forall_mem_cons.2 ⟨hbyte (by omega) (by omega), List.forall_mem_cons.2
          ⟨hnext _, List.forall_mem_cons.2 ⟨hnext _, List.forall_mem_singleton.2 (hnext _)⟩⟩⟩

namespace Percent

/-! ## Byte by byte -/

/-- A byte as the character that it is, if that may stand unescaped, and as a triplet if not. -/
def encodeByte (escaping : Escaping) (b : UInt8) : Text :=
  if b.toNat < 0x80 ∧ escaping.allows (Char.ofNat b.toNat) then [.char (Char.ofNat b.toNat)]
  else triplet b

/-- The bytes of a text, each on its own. -/
def encodeBytes (escaping : Escaping) (s : Text) : Text :=
  (Utf8.encode s).flatMap (encodeByte escaping)

/-- What may stand unescaped is ASCII. -/
theorem isAscii_of_allows {escaping : Escaping} {c : CodePoint} (h : escaping.allows c = true) :
    isAscii c = true := by
  have hword : ∀ {d : CodePoint}, d.isAlphanum = true → isAscii d = true := by
    intro d hd
    cases d with
    | surrogate n => cases hd
    | char d =>
        have hle : d ≤ 'Z' ∨ d ≤ 'z' ∨ d ≤ '9' := by
          rcases Bool.or_eq_true_iff.1 (show d.isAlphanum = true from hd) with hletter | hdigit
          · rcases Bool.or_eq_true_iff.1 hletter with hupper | hlower
            · exact Or.inl (of_decide_eq_true hupper).2
            · exact Or.inr (Or.inl (of_decide_eq_true (Bool.and_eq_true_iff.1 hlower).2))
          · exact Or.inr (Or.inr (of_decide_eq_true (Bool.and_eq_true_iff.1 hdigit).2))
        rw [isAscii_iff]
        rcases hle with hd | hd | hd
        all_goals exact Nat.lt_of_le_of_lt (UInt32.le_iff_toNat_le.1 hd) (by decide)
  have hunreserved : ∀ {d : CodePoint}, isUnreserved d = true → isAscii d = true := by
    intro d hd
    simp only [isUnreserved, Bool.or_eq_true, beq_iff_eq] at hd
    rcases hd with (((hd | rfl) | rfl) | rfl) | rfl
    · exact hword hd
    all_goals rfl
  cases escaping with
  | unreserved => exact hunreserved h
  | reserved =>
      rcases Bool.or_eq_true_iff.1 h with h | h
      · exact hunreserved h
      · have hall : ([':', '/', '?', '#', '[', ']', '@', '!', '$', '&', '\x27', '(', ')', '*', '+',
            ',', ';', '='] : Text).all isAscii = true := rfl
        exact List.all_eq_true.1 hall c (of_decide_eq_true h)

theorem encodeByte_of_le {escaping : Escaping} {b : UInt8} (h : 0x80 ≤ b.toNat) :
    encodeByte escaping b = triplet b :=
  if_neg fun hb => absurd hb.1 (Nat.not_lt.2 h)

/-- The bytes of a code point, encoded one by one. -/
theorem encodeChar_eq (escaping : Escaping) (c : CodePoint) :
    encodeChar escaping c = (Utf8.encodeChar c).flatMap (encodeByte escaping) := by
  rw [encodeChar]
  cases hc : isAscii c with
  | true =>
      have hlt : c.toNat < 0x80 := isAscii_iff.1 hc
      obtain ⟨hbytes, hbyte, hchar⟩ := encodeChar_of_isAscii hc
      rw [hbytes, List.flatMap_singleton, List.flatMap_singleton, encodeByte, hbyte, hchar]
      simp only [hlt, true_and]
  | false =>
      have hno : ¬ escaping.allows c = true := by
        intro hallows
        exact Bool.false_ne_true (hc.symm.trans (isAscii_of_allows hallows))
      rw [if_neg hno]
      exact List.flatMap_congr fun b hb =>
        (encodeByte_of_le (le_toNat_of_mem_encodeChar hc b hb)).symm

/-- Encoding is byte by byte. -/
theorem encode_eq_encodeBytes (escaping : Escaping) (s : Text) :
    encode escaping s = encodeBytes escaping s := by
  rw [encode, encodeBytes, Utf8.encode, List.flatMap_assoc]
  exact List.flatMap_congr fun c _ => encodeChar_eq escaping c

/-! ## Run by run -/

/-- The bytes of a text in which triplets stand for bytes and all else for itself. -/
def octets : Text → List UInt8
  | [] => []
  | '%' :: h :: l :: s =>
      match byte? h l with
      | some b => b :: octets s
      | none => Utf8.encodeChar '%' ++ octets (h :: l :: s)
  | c :: s => Utf8.encodeChar c ++ octets s

/-- The longest runs of ASCII characters, and of all others, in order. -/
def runs (s : Text) : List Text := s.splitBy fun a b => isAscii a == isAscii b

/-- What a run stands for: triplets are triplets in ASCII only. -/
def decodeRun (run : Text) : Text := if run.all isAscii then Utf8.decode (octets run) else run

/-- What a text stands for, run by run. -/
def decodeRuns (s : Text) : Text := (runs s).flatMap decodeRun

/-- A byte of ASCII is read as its character is. -/
theorem run_encodeChar_append {c : CodePoint} (h : isAscii c = true)
    (state : Option Utf8.Pending) (bytes : List UInt8) :
    Utf8.run state (Utf8.encodeChar c ++ bytes)
      = (Utf8.finish state ++ c :: (Utf8.run none bytes).1, (Utf8.run none bytes).2) := by
  obtain ⟨hbytes, hbyte, hchar⟩ := encodeChar_of_isAscii h
  have hlt : (UInt8.ofNat c.toNat).toNat < 0x80 := by
    rw [hbyte]
    exact isAscii_iff.1 h
  rw [hbytes, List.singleton_append, Utf8.run, Utf8.step_ascii state hlt, hbyte, hchar,
    List.append_assoc]
  rfl

/-- ASCII is read as its bytes are. -/
theorem decodeFrom_of_isAscii {s : Text} (h : ∀ c ∈ s, isAscii c = true)
    (state : Option Utf8.Pending) :
    decodeFrom state s
      = (Utf8.run state (octets s)).1 ++ Utf8.finish (Utf8.run state (octets s)).2 := by
  fun_induction octets s generalizing state with
  | case1 => rfl
  | case2 hi lo s b hb ih =>
      have hs : ∀ c ∈ s, isAscii c = true :=
        fun c hc =>
          h c (List.mem_cons_of_mem _ (List.mem_cons_of_mem _ (List.mem_cons_of_mem _ hc)))
      rw [decodeFrom, hb, Utf8.run, List.append_assoc]
      exact congrArg _ (ih hs _)
  | case3 hi lo s hb ih =>
      rw [decodeFrom_percent hb, run_encodeChar_append rfl, List.append_assoc]
      exact congrArg (Utf8.finish state ++ .char '%' :: ·) (ih (List.forall_mem_cons.1 h).2 none)
  | case4 c s hno ih =>
      obtain ⟨hc, hs⟩ := List.forall_mem_cons.1 h
      rw [decodeFrom, run_encodeChar_append hc, List.append_assoc]
      · exact congrArg (Utf8.finish state ++ c :: ·) (ih hs none)
      · exact hno

/-- Code points beyond ASCII stand for themselves. -/
theorem decode_append_of_not_isAscii {s : Text} (h : ∀ c ∈ s, isAscii c = false) (rest : Text) :
    decode (s ++ rest) = s ++ decode rest := by
  induction s with
  | nil => rfl
  | cons c s ih =>
      obtain ⟨hc, hs⟩ := List.forall_mem_cons.1 h
      have hpercent : c ≠ '%' := by
        rintro rfl
        exact Bool.false_ne_true (hc.symm.trans rfl)
      rw [List.cons_append, decode, decodeFrom_cons hpercent, ih hs]
      rfl

/-- Before such a code point decoding can be cut in two. -/
theorem decode_append_cons {c : CodePoint} (h : isAscii c = false) (s rest : Text) :
    decode (s ++ c :: rest) = decode s ++ decode (c :: rest) := by
  have hpercent : c ≠ '%' := by
    rintro rfl
    exact Bool.false_ne_true (h.symm.trans rfl)
  have hcons : decode (c :: rest) = c :: decode rest := decodeFrom_cons hpercent none rest
  rw [hcons]
  exact decodeFrom_append_cons hpercent (isDigit_eq_false_of_isAscii h) none s rest

/-- Runs of one kind each, of which no two neighbours are alike, are decoded one by one. -/
theorem decode_flatten {runs : List Text} (hne : ∀ run ∈ runs, run ≠ [])
    (hkind : ∀ run ∈ runs, ∀ c ∈ run, ∀ d ∈ run, isAscii c = isAscii d)
    (hchange : runs.IsChain fun v w => ∃ c ∈ v, ∃ d ∈ w, isAscii c ≠ isAscii d) :
    decode runs.flatten = runs.flatMap decodeRun := by
  induction runs with
  | nil => rfl
  | cons run later ih =>
      obtain ⟨hrun, hlater⟩ := List.forall_mem_cons.1 hne
      obtain ⟨hsame, hkinds⟩ := List.forall_mem_cons.1 hkind
      rw [List.flatten_cons, List.flatMap_cons, ← ih hlater hkinds hchange.tail, decodeRun]
      split
      · next hall =>
          rw [List.all_eq_true] at hall
          have hrun : decode run = Utf8.decode (octets run) := decodeFrom_of_isAscii hall none
          rw [← hrun]
          cases later with
          | nil => exact (congrArg decode (List.append_nil run)).trans (List.append_nil _).symm
          | cons next later =>
              -- the next run is of the other kind from its first character on
              obtain ⟨c, hc, d, hd, hdiffer⟩ := (List.isChain_cons_cons.1 hchange).1
              rw [hall c hc] at hdiffer
              obtain ⟨first, next, rfl⟩ :=
                List.exists_cons_of_ne_nil (hlater _ List.mem_cons_self)
              have hfirst : isAscii first = false := by
                rw [hkinds _ List.mem_cons_self first List.mem_cons_self d hd]
                exact Bool.eq_false_iff.2 hdiffer.symm
              exact decode_append_cons hfirst run _
      · next hnone =>
          refine decode_append_of_not_isAscii (fun c hc => ?_) _
          rw [Bool.eq_false_iff]
          intro htrue
          refine hnone (List.all_eq_true.2 fun d hd => ?_)
          rw [hsame d hd c hc, htrue]

/-- A run is of one kind. -/
theorem isAscii_eq_of_mem_runs {s run : Text} (h : run ∈ runs s) :
    ∀ c ∈ run, ∀ d ∈ run, isAscii c = isAscii d := by
  have hchain : (run.map isAscii).IsChain Eq :=
    (List.isChain_map isAscii).2 ((List.isChain_of_mem_splitBy h).imp fun _ _ => eq_of_beq)
  have hpairwise := List.isChain_iff_pairwise.1 hchain
  intro c hc d hd
  exact hpairwise.forall_of_forall (fun _ _ => rfl) (List.mem_map_of_mem hc)
    (List.mem_map_of_mem hd)

/-- Decoding is run by run. -/
theorem decode_eq_decodeRuns (s : Text) : decode s = decodeRuns s := by
  have hchange : (runs s).IsChain fun v w => ∃ c ∈ v, ∃ d ∈ w, isAscii c ≠ isAscii d := by
    refine (List.isChain_getLast_head_splitBy _ s).imp ?_
    rintro v w ⟨hv, hw, hdiffer⟩
    exact ⟨_, List.getLast_mem hv, _, List.head_mem hw, ne_of_beq_false hdiffer⟩
  have hflatten := decode_flatten (fun _ => List.ne_nil_of_mem_splitBy)
    (fun _ => isAscii_eq_of_mem_runs) hchange
  rwa [List.flatten_splitBy] at hflatten

/-! ## Round trip -/

/-- The decoder completes characters only. -/
theorem isWellFormed_step (state : Option Utf8.Pending) (b : UInt8) :
    (Utf8.step state b).1.IsWellFormed := by
  have hstart : (Utf8.start b).1.IsWellFormed := by
    rw [Utf8.start]
    split_ifs
    all_goals simp [Text.IsWellFormed, CodePoint.isSurrogate, CodePoint.char?, Utf8.replacement]
  cases state with
  | none => exact hstart
  | some p =>
      rw [Utf8.step]
      split
      · rw [Utf8.Pending.take]
        split
        · exact List.forall_mem_singleton.2 rfl
        · exact List.forall_mem_nil _
      · exact List.forall_mem_cons.2 ⟨rfl, hstart⟩

/-- Decoding brings no surrogates in. -/
theorem isWellFormed_decodeFrom {s : Text} (h : s.IsWellFormed) (state : Option Utf8.Pending) :
    (decodeFrom state s).IsWellFormed := by
  have hfinish : ∀ state, (Utf8.finish state).IsWellFormed := by
    intro state
    cases state with
    | none => exact List.forall_mem_nil _
    | some p => exact List.forall_mem_singleton.2 rfl
  fun_induction decodeFrom state s with
  | case1 state => exact hfinish state
  | case2 state hi lo s b hb ih =>
      have hs : Text.IsWellFormed s :=
        (List.forall_mem_cons.1 (List.forall_mem_cons.1 (List.forall_mem_cons.1 h).2).2).2
      exact List.forall_mem_append.2 ⟨isWellFormed_step state b, ih hs⟩
  | case3 state hi lo s hb ih =>
      exact List.forall_mem_append.2
        ⟨hfinish state, List.forall_mem_cons.2 ⟨rfl, ih (List.forall_mem_cons.1 h).2⟩⟩
  | case4 state c s hno ih =>
      obtain ⟨hc, hs⟩ := List.forall_mem_cons.1 h
      exact List.forall_mem_append.2 ⟨hfinish state, List.forall_mem_cons.2 ⟨hc, ih hs⟩⟩

/-- What is encoded is ASCII, surrogates or not. -/
theorem isWellFormed_encode (escaping : Escaping) (s : Text) :
    (encode escaping s).IsWellFormed := by
  intro c hc
  cases c with
  | char c => rfl
  | surrogate n =>
      have hascii : isAscii (.surrogate n) = true := by
        rcases allows_of_mem_encode escaping s _ hc with hallows | hpercent
        · exact isAscii_of_allows hallows
        · cases hpercent
      have hn : 0xD800 + n.val < 0x80 := isAscii_iff.1 hascii
      omega

/-- **ROUND TRIP**: a text that is encoded is decoded as itself, under either escaping, just when
    it has no surrogates, and so no two such texts are encoded alike.  Here encoding is that of
    every byte on its own, and decoding is that of every run, which a text without a percent sign
    does not even need. -/
theorem decode_encode_iff (escaping : Escaping) :
    (∀ s, decode (encode escaping s) = s ↔ s.IsWellFormed) ∧
    Set.InjOn (encode escaping) {s | s.IsWellFormed} ∧
    (∀ s, encode escaping s = encodeBytes escaping s) ∧
    ∀ s, decode s = if .char '%' ∈ s then decodeRuns s else s := by
  have hinverse : Set.LeftInvOn decode (encode escaping) {s | s.IsWellFormed} :=
    fun s hs => decode_encode escaping hs
  refine ⟨fun s => ⟨fun h => ?_, fun hs => hinverse hs⟩, hinverse.injOn,
    encode_eq_encodeBytes escaping, fun s => ?_⟩
  · rw [← h]
    exact isWellFormed_decodeFrom (isWellFormed_encode escaping s) none
  · split
    · exact decode_eq_decodeRuns s
    · next h => exact decode_of_not_mem h

end Percent

end UriTemplate
