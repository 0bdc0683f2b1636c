import UriTemplate.Proofs.Matching.Split
import UriTemplate.Proofs.Template.Printing

/-! # Parse errors — where a text stops being a template

    A text is refused for one of two reasons: it cannot be read to its end, or it can and an
    expression has a sigil that is set aside.  What remains begins where the unread part
    begins, or else at the first such expression (`Segment.ofNodes_eq_error`).

    The two are looked for in turn, so a text with both is refused for the part that cannot be
    read, even if an expression before it has a sigil set aside.  That is the only case in which
    the text before what remains is no template; in every case no longer part of the text is one.

    * `Node.flatMap_toText_mem_iff` — of nodes that were read, the sigils tell whether they make
      a template;
    * `Node.not_prefix_of_isReserved` — no word begins with a sigil that is set aside;
    * **`Template.parse_eq_error`** — what remains, and what stands before it. -/

namespace UriTemplate

open scoped Computability

/-! ## Sigils that are set aside -/

/-- No sigil is an operator's and set aside. -/
theorem Grammar.not_mem_reservedSigils {c : CodePoint} (hc : c ∈ operatorSigils) :
    c ∉ reservedSigils := by
  have hdisjoint : ∀ c ∈ operatorSigils, c ∉ reservedSigils := by
    simp [operatorSigils, reservedSigils]
  exact hdisjoint c hc

namespace Node

/-- Has the node a sigil that is set aside? -/
def IsReserved : Node → Prop
  | literal _ _ => False
  | expression sigil _ _ => ∃ c ∈ sigil, c ∈ Grammar.reservedSigils

/-- A node without a sigil that is set aside is written as a row of words. -/
theorem toText_mem_of_not_isReserved {n : Node} (hread : n.IsRead) (h : ¬ n.IsReserved) :
    n.toText ∈ Grammar.template Grammar.operatorSigils := by
  cases n with
  | literal kind text =>
      exact kstar_mono ((Grammar.ofKind_le_literal kind).trans le_self_add) hread.2
  | expression sigil specs offset =>
      have hsigil : ∀ c ∈ sigil, c ∈ Grammar.operatorSigils := by
        intro c hc
        exact (List.mem_append.1 (hread.1 c hc)).resolve_right fun hreserved => h ⟨c, hc, hreserved⟩
      exact le_kstar (a := Grammar.word Grammar.operatorSigils)
        (Or.inr (Grammar.mem_expression_iff.2 ⟨sigil, specs, hsigil, hread.2, rfl⟩))

/-- A node with a sigil that is set aside is not. -/
theorem toText_not_mem_of_isReserved {n : Node} (hread : n.IsRead) (h : n.IsReserved) :
    n.toText ∉ Grammar.template Grammar.operatorSigils := by
  intro hmem
  cases n with
  | literal kind text => exact h
  | expression sigil specs offset =>
      obtain ⟨c, hc, hreserved⟩ := h
      exact Grammar.not_mem_reservedSigils (sigil_mem_of_toText_mem hread hmem c hc) hreserved

/-- **SIGILS**: nodes that were read make a template exactly when no sigil is set aside. -/
theorem flatMap_toText_mem_iff {nodes : List Node} (hread : ∀ n ∈ nodes, n.IsRead) :
    nodes.flatMap toText ∈ Grammar.template Grammar.operatorSigils ↔
      ∀ n ∈ nodes, ¬ n.IsReserved := by
  constructor
  · intro h n hn hreserved
    exact toText_not_mem_of_isReserved (hread n hn) hreserved
      (toText_mem_of_flatMap_mem hread h n hn)
  · intro h
    induction nodes with
    | nil => exact Language.nil_mem_kstar _
    | cons n nodes ih =>
        obtain ⟨hn, hnodes⟩ := List.forall_mem_cons.1 hread
        obtain ⟨hfree, hlater⟩ := List.forall_mem_cons.1 h
        exact Grammar.append_mem_kstar (toText_mem_of_not_isReserved hn hfree) (ih hnodes hlater)

/-- Where a sigil that is set aside stands, no word with an operator's begins. -/
theorem not_prefix_of_isReserved {n : Node} (hread : n.IsRead) (h : n.IsReserved) (rest : Text) :
    ∀ w ∈ Grammar.word Grammar.operatorSigils, ¬ w <+: n.toText ++ rest := by
  rintro w hw ⟨more, heq⟩
  cases n with
  | literal kind text => exact h
  | expression sigil specs offset =>
      -- of two words that begin the same text, neither is longer
      have hword : (expression sigil specs offset).toText ∈ Grammar.word Grammar.sigils :=
        Or.inr (Grammar.mem_expression_iff.2 ⟨sigil, specs, hread.1, hread.2, rfl⟩)
      have hsame := isPrefixFree_word.eq_of_append w (word_mono hw) _ hword more rest heq
      rw [hsame] at hw
      exact toText_not_mem_of_isReserved hread h
        (le_kstar (a := Grammar.word Grammar.operatorSigils) hw)

end Node

/-! ## Where the error stands -/

/-- **FIRST**: nodes that do not become segments are refused at the first sigil that is set
    aside. -/
theorem Segment.ofNodes_eq_error {source : Text} {nodes : List Node} {e : ParseError}
    (hread : ∀ n ∈ nodes, n.IsRead) (h : ofNodes source nodes = .error e) :
    ∃ before sigil specs offset after, nodes = before ++ .expression sigil specs offset :: after ∧
      (∀ n ∈ before, ¬ n.IsReserved) ∧ (Node.expression sigil specs offset).IsReserved ∧
      e = ⟨.reservedSigil sigil.toList, source.drop offset⟩ := by
  induction nodes with
  | nil => cases h
  | cons n nodes ih =>
      obtain ⟨hn, hnodes⟩ := List.forall_mem_cons.1 hread
      -- an error behind a node that is fine
      have hlater : ¬ n.IsReserved → ofNodes source nodes = .error e →
          ∃ before sigil specs offset after,
            n :: nodes = before ++ .expression sigil specs offset :: after ∧
            (∀ m ∈ before, ¬ m.IsReserved) ∧ (Node.expression sigil specs offset).IsReserved ∧
            e = ⟨.reservedSigil sigil.toList, source.drop offset⟩ := by
        intro hfree herror
        obtain ⟨before, sigil, specs, offset, after, rfl, hbefore, hfound⟩ := ih hnodes herror
        exact ⟨n :: before, sigil, specs, offset, after, rfl,
          List.forall_mem_cons.2 ⟨hfree, hbefore⟩, hfound⟩
      cases n with
      | literal kind text =>
          rw [ofNodes] at h
          exact hlater id (Except.map_eq_error_iff.1 h)
      | expression sigil specs offset =>
          have hnone := Operator.ofSigil?_eq_none_iff hn.1
          rw [ofNodes] at h
          cases hop : Operator.ofSigil? sigil with
          | none =>
              rw [hop] at h
              exact ⟨[], sigil, specs, offset, nodes, rfl, List.forall_mem_nil _, hnone.1 hop,
                (Except.error.inj h).symm⟩
          | some op =>
              rw [hop] at h
              refine hlater ?_ (Except.map_eq_error_iff.1 h)
              intro hreserved
              rw [hnone.2 hreserved] at hop
              cases hop

/-- **SET ASIDE**: before the expression that is reported stands a template, and no word of a
    template begins with it. -/
theorem Segment.exists_split_of_error {text : Text} {nodes : List Node} {e : ParseError}
    (hreading : Node.IsReading text nodes []) (hread : ∀ n ∈ nodes, n.IsRead)
    (h : ofNodes text nodes = .error e) :
    ∃ before, before ++ e.remaining = text ∧ e.remaining ≠ [] ∧
      before ∈ Grammar.template Grammar.operatorSigils ∧
      ∀ w ∈ Grammar.word Grammar.operatorSigils, ¬ w <+: e.remaining := by
  obtain ⟨before, sigil, specs, offset, after, rfl, hfree, hreserved, rfl⟩ :=
    ofNodes_eq_error hread h
  obtain ⟨hbefore, hlater⟩ := List.forall_mem_append.1 hread
  have htext : before.flatMap Node.toText ++ ((Node.expression sigil specs offset).toText ++
      after.flatMap Node.toText) = text := by
    rw [← hreading.lossless, List.flatMap_append, List.flatMap_cons, List.append_nil]
  have hremaining : text.drop offset
      = (Node.expression sigil specs offset).toText ++ after.flatMap Node.toText := by
    have hoffset := hreading.offsets before sigil specs offset after rfl
    calc text.drop offset
        = text.drop (before.flatMap Node.toText).length := congrArg (text.drop ·) hoffset
      _ = _ := by rw [← htext, List.drop_left]
  refine ⟨before.flatMap Node.toText, ?_, ?_, (Node.flatMap_toText_mem_iff hbefore).2 hfree, ?_⟩
  · rw [hremaining]
    exact htext
  · rw [hremaining]
    exact List.cons_ne_nil _ _
  · rw [hremaining]
    exact Node.not_prefix_of_isReserved (hlater _ List.mem_cons_self) hreserved _

namespace Template

variable {config : Config} {text : Text}

/-- The texts that are templates, as a language. -/
theorem exists_parse_iff_mem :
    (∃ t, parse config text = .ok t) ↔ text ∈ Grammar.template Grammar.operatorSigils := by
  constructor
  · rintro ⟨t, ht⟩
    obtain ⟨-, -, hnormal, htext⟩ := areNormal_of_parse ht
    have hmem := Segment.flatMap_toText_mem hnormal.each
    rwa [htext] at hmem
  · exact exists_parse_of_mem config

/-- **PROBLEMS**: what remains of a text that is refused is not empty, and no template that the
    text begins with goes further than up to there.  The text before it is a template itself,
    unless part of the text cannot be read and a sigil before that part is set aside; then what
    remains is that part. -/
theorem parse_eq_error {e : ParseError} (h : parse config text = .error e) :
    ∃ before, before ++ e.remaining = text ∧ e.remaining ≠ [] ∧
      (∀ s, s <+: text → (∃ t, parse config s = .ok t) → s <+: before) ∧
      ((∃ t, parse config before = .ok t) ↔
        (Node.recognize text).2 = [] ∨ ∀ n ∈ (Node.recognize text).1, ¬ n.IsReserved) ∧
      ((Node.recognize text).2 ≠ [] → e.remaining = (Node.recognize text).2) := by
  have hreading := Node.isReading_recognize text
  have hread := Node.isRead_recognize text
  simp only [exists_parse_iff_mem]
  rw [parse_eq_error_iff_read, Segment.read] at h
  generalize Node.recognize text = whole at h hreading hread
  obtain ⟨nodes, remaining⟩ := whole
  cases remaining with
  | cons c remaining =>
      -- part of the text cannot be read: what was read has sigils of either kind
      obtain rfl := Except.error.inj h
      refine ⟨nodes.flatMap Node.toText, hreading.lossless, List.cons_ne_nil _ _, ?_, ?_,
        fun _ => rfl⟩
      · intro s hprefix hs
        exact hreading.longest s (kstar_mono Node.word_mono hs) hprefix
      · rw [Node.flatMap_toText_mem_iff hread]
        simp
  | nil =>
      obtain ⟨before, hsplit, hne, hmem, hstuck⟩ :=
        Segment.exists_split_of_error hreading hread h
      refine ⟨before, hsplit, hne, ?_, ⟨fun _ => Or.inl rfl, fun _ => hmem⟩,
        fun hrest => absurd rfl hrest⟩
      intro s hprefix hs
      have hfree : IsPrefixFree (Grammar.word Grammar.operatorSigils) :=
        Grammar.isPrefixFree_word fun c hc => Node.isSigil_iff.2 (List.mem_append_left _ hc)
      rw [← hsplit] at hprefix
      exact hfree.prefix_of_stuck hmem hstuck hs hprefix

/-- Of two sigils that are set aside the first is reported. -/
theorem parse_eq_error_reserved :
    let text : Text := "a\x7bx\x7d\x7b@y\x7d\x7b!z\x7d".toText
    let e : ParseError := ⟨.reservedSigil "@".toText, "\x7b@y\x7d\x7b!z\x7d".toText⟩
    parse ⟨true, false⟩ text = .error e ∧
    ∃ before, before ++ e.remaining = text ∧ e.remaining ≠ [] ∧
      (∀ s, s <+: text → (∃ t, parse ⟨true, false⟩ s = .ok t) → s <+: before) ∧
      ((∃ t, parse ⟨true, false⟩ before = .ok t) ↔
        (Node.recognize text).2 = [] ∨ ∀ n ∈ (Node.recognize text).1, ¬ n.IsReserved) ∧
      ((Node.recognize text).2 ≠ [] → e.remaining = (Node.recognize text).2) := by
  intro text e
  have herror : parse ⟨true, false⟩ text = .error e := by decide +kernel
  exact ⟨herror, parse_eq_error herror⟩

/-- A brace that does not close is reported, although a sigil before it is set aside. -/
theorem not_exists_parse_before_remaining :
    let text : Text := "\x7b=a\x7d\x7b".toText
    let e : ParseError := ⟨.malformed, "\x7b".toText⟩
    parse ⟨true, false⟩ text = .error e ∧
    ¬ ∃ before, before ++ e.remaining = text ∧ ∃ t, parse ⟨true, false⟩ before = .ok t := by
  intro text e
  refine ⟨by decide +kernel, ?_⟩
  rintro ⟨before, hsplit, t, ht⟩
  have hbefore : before = "\x7b=a\x7d".toText :=
    (List.append_left_inj e.remaining).1 hsplit
  have hrefused : parse ⟨true, false⟩ "\x7b=a\x7d".toText
      = .error ⟨.reservedSigil "=".toText, "\x7b=a\x7d".toText⟩ := by
    decide +kernel
  rw [hbefore, hrefused] at ht
  cases ht

end Template

end UriTemplate
