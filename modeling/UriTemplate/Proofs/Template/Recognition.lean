import Mathlib.Data.List.DropRight
import UriTemplate.Proofs.Template.Productions
import UriTemplate.Template.Node.Lemmas

/-! # Recognition — the reader against the grammar

    A text is read node by node.  What one node can be is said once
    (`Node.next?_eq_some`), and so is when there is none (`Node.next?_ne_none`); by
    induction on the text, the nodes of a text are rows of words of the grammar, and
    no word begins what remains.

    * **`Node.isReading_recognize`** — what reading a text gives.
    * **`Template.exists_parse_iff`** — which texts are templates. -/

namespace UriTemplate

open scoped Computability

/-! ## Runs of literal characters -/

namespace LiteralKind

/-- Characters of a class are a row of words of the class. -/
theorem mem_kstar_of_forall {p : CodePoint → Bool} {s : Text} (h : ∀ c ∈ s, p c = true) :
    s ∈ (Grammar.oneIn p)∗ := by
  refine ⟨s.map ([·]), ?_, ?_⟩
  · rw [← List.flatMap_def, List.flatMap_singleton']
  · intro w hw
    obtain ⟨c, hc, rfl⟩ := List.mem_map.1 hw
    exact ⟨c, rfl, h c hc⟩

theorem triplets_mem (s : Text) : (triplets s).1 ∈ Grammar.pctEncoded∗ := by
  fun_induction triplets s with
  | case1 h l s hd ih =>
      rw [Bool.and_eq_true] at hd
      have htriplet : [.char '%', h, l] ∈ Grammar.pctEncoded :=
        Grammar.mem_pctEncoded_iff.2 ⟨h, l, rfl, hd⟩
      exact Grammar.cons_mem_kstar htriplet ih
  | case2 => exact Language.nil_mem_kstar _
  | case3 => exact Language.nil_mem_kstar _

theorem triplets_triplets (s : Text) : (triplets (triplets s).2).1 = [] := by
  fun_induction triplets s with
  | case1 h l s hd ih => exact ih
  | case2 h l s hd => rw [triplets, if_neg hd]
  | case3 s hs =>
      rw [triplets]
      exact hs

/-- A run of a kind is made of what the kind is made of. -/
theorem run_mem (kind : LiteralKind) (s : Text) : (kind.run s).1 ∈ (Grammar.ofKind kind)∗ := by
  rcases Grammar.exists_ranges kind with rfl | ⟨ranges, heq, hrun, -⟩
  · exact triplets_mem s
  · rw [heq, hrun]
    exact mem_kstar_of_forall fun c hc => List.mem_takeWhile_imp hc

/-- Behind a run of a kind there is none of the same kind. -/
theorem run_run (kind : LiteralKind) (s : Text) : (kind.run (kind.run s).2).1 = [] := by
  rcases Grammar.exists_ranges kind with rfl | ⟨ranges, -, hrun, -⟩
  · exact triplets_triplets s
  · have hrest := List.takeWhile_append_dropWhile (p := inRanges ranges)
      (l := s.dropWhile (inRanges ranges))
    rw [List.dropWhile_idempotent, List.append_left_eq_self] at hrest
    rw [hrun, hrun]
    exact hrest

/-- A word of a kind begins a run of the kind. -/
theorem run_ne_nil {kind : LiteralKind} {w : Text} (h : w ∈ Grammar.ofKind kind) (rest : Text) :
    (kind.run (w ++ rest)).1 ≠ [] := by
  rcases Grammar.exists_ranges kind with rfl | ⟨ranges, heq, hrun, -⟩
  · obtain ⟨a, b, rfl, ha, hb⟩ := Grammar.mem_pctEncoded_iff.1 h
    show (triplets ('%' :: a :: b :: rest)).1 ≠ []
    rw [triplets, ha, hb]
    exact List.cons_ne_nil _ _
  · rw [heq] at h
    obtain ⟨c, rfl, hc⟩ := h
    rw [hrun, List.singleton_append, List.takeWhile_cons_of_pos hc]
    exact List.cons_ne_nil _ _

end LiteralKind

/-! ## One node -/

namespace Node

theorem isSigil_iff {c : CodePoint} : isSigil c = true ↔ c ∈ Grammar.sigils := decide_eq_true_iff

/-- What is cut off is a sigil. -/
theorem isSigil_of_mem_cutSigil (s : Text) : ∀ c ∈ (cutSigil s).1, isSigil c = true := by
  cases s with
  | nil => exact nofun
  | cons d s => by_cases hd : isSigil d = true <;> simp [cutSigil, hd]

theorem literal?_eq_some {s rest : Text} {n : Node} (h : literal? s = some (n, rest)) :
    ∃ kind text, n = literal kind text ∧ text ≠ [] ∧ kind.run s = (text, rest) := by
  obtain ⟨kind, -, hk⟩ := List.exists_of_findSome?_eq_some h
  split at hk
  · exact nomatch hk
  · next text after hne hrun =>
      obtain ⟨rfl, rfl⟩ := Prod.mk.inj (Option.some.inj hk)
      exact ⟨kind, text, rfl, hne, hrun⟩

theorem literal?_ne_none {w : Text} (h : w ∈ Grammar.literal) (rest : Text) :
    literal? (w ++ rest) ≠ none := by
  obtain ⟨kind, h⟩ := Grammar.mem_ofKind_of_mem_literal h
  have hrun := LiteralKind.run_ne_nil h rest
  intro hnone
  have hmem : kind ∈ LiteralKind.all := by cases kind <;> decide
  have hkind := List.findSome?_eq_none_iff.1 hnone kind hmem
  split at hkind
  · next heq =>
      rw [heq] at hrun
      exact hrun rfl
  · exact nomatch hkind

/-- **STEP**: a node that is read is a whole run of some kind, or a well-formed expression. -/
theorem next?_eq_some {offset : Nat} {s rest : Text} {n : Node}
    (h : next? offset s = some (n, rest)) :
    (∃ kind text, n = literal kind text ∧ text ≠ [] ∧ kind.run s = (text, rest)) ∨
      ∃ sigil specs, n = expression sigil specs offset ∧ (∀ c ∈ sigil, c ∈ Grammar.sigils) ∧
        AreWellFormed specs := by
  have hwell := isWellFormed_of_next? h
  unfold next? at h
  split at h
  · exact nomatch h
  · rw [expression?] at h
    split at h
    · exact nomatch h
    · next inside after hcut =>
        obtain ⟨specs, -, he⟩ := Option.map_eq_some_iff.1 h
        obtain ⟨rfl, -⟩ := Prod.mk.inj he
        refine Or.inr ⟨_, specs, rfl, ?_, hwell⟩
        intro c hc
        exact isSigil_iff.1 (isSigil_of_mem_cutSigil inside c hc)
  · exact Or.inl (literal?_eq_some h)

/-- Where a word of the grammar stands, a node is read. -/
theorem next?_ne_none {w : Text} (h : w ∈ Grammar.word Grammar.sigils) (offset : Nat)
    (rest : Text) : next? offset (w ++ rest) ≠ none := by
  rcases h with h | h
  · have hliteral := literal?_ne_none h rest
    rcases Grammar.mem_literal_cases h with h | ⟨c, rfl, -, hbrace⟩
    · obtain ⟨a, b, rfl, -⟩ := Grammar.mem_pctEncoded_iff.1 h
      exact hliteral
    · rw [List.singleton_append] at hliteral ⊢
      unfold next?
      split
      · next heq => exact nomatch heq
      · next heq => exact absurd (List.cons.inj heq).1 hbrace
      · exact hliteral
  · obtain ⟨sigil, specs, hsigil, hspecs, rfl⟩ := Grammar.mem_expression_iff.1 h
    rw [next?_toText (fun c hc => isSigil_iff.2 (hsigil c hc)) hspecs]
    exact nofun

/-! ## All nodes -/

/-- What every node of a text is: a literal of its kind, or a well-formed expression with a
    sigil that may stand in one. -/
def IsRead : Node → Prop
  | literal kind text => text ≠ [] ∧ text ∈ (Grammar.ofKind kind)∗
  | expression sigil specs _ => (∀ c ∈ sigil, c ∈ Grammar.sigils) ∧ AreWellFormed specs

theorem isRead_scan (offset : Nat) (s : Text) : ∀ n ∈ (scan offset s).1, n.IsRead := by
  fun_induction scan offset s with
  | case1 => exact fun n hn => (List.not_mem_nil hn).elim
  | case2 offset s n rest h _ nodes remaining hscan ih =>
      rw [hscan] at ih
      refine List.forall_mem_cons.2 ⟨?_, ih⟩
      rcases next?_eq_some h with ⟨kind, text, rfl, hne, hrun⟩ | ⟨sigil, specs, rfl, hsigil, hspecs⟩
      · have hmem := kind.run_mem s
        rw [hrun] at hmem
        exact ⟨hne, hmem⟩
      · exact ⟨hsigil, hspecs⟩

theorem isRead_recognize (text : Text) : ∀ n ∈ (recognize text).1, n.IsRead := isRead_scan 0 text

/-- **STUCK**: no word of the grammar begins what remains. -/
theorem not_prefix_scan (offset : Nat) (s : Text) :
    ∀ w ∈ Grammar.word Grammar.sigils, ¬ w <+: (scan offset s).2 := by
  fun_induction scan offset s with
  | case1 offset s h =>
      rintro w hw ⟨rest, rfl⟩
      exact next?_ne_none hw offset rest h
  | case2 offset s n rest h _ nodes remaining hscan ih =>
      rw [hscan] at ih
      exact ih

/-- An expression knows how much text stands before it. -/
theorem offset_of_scan {start : Nat} {s : Text} {before after : List Node}
    {sigil : Option CodePoint} {specs : List VarSpec} {offset : Nat}
    (h : (scan start s).1 = before ++ expression sigil specs offset :: after) :
    offset = start + (before.flatMap toText).length := by
  fun_induction scan start s generalizing before with
  | case1 => exact absurd h.symm (List.append_ne_nil_of_right_ne_nil _ (List.cons_ne_nil _ _))
  | case2 start s n rest hnext _ nodes remaining hscan ih =>
      rw [hscan] at ih
      cases before with
      | nil =>
          obtain ⟨rfl, -⟩ := List.cons.inj h
          rcases next?_eq_some hnext with ⟨_, _, heq, -⟩ | ⟨_, _, heq, -⟩
          · cases heq
          · obtain ⟨-, -, rfl⟩ := Node.expression.inj heq
            rfl
      | cons m before =>
          obtain ⟨rfl, hlater⟩ := List.cons.inj h
          rw [ih hlater, List.flatMap_cons, List.length_append, Nat.add_assoc]

/-- The first of the nodes is the one that the text begins with. -/
theorem next?_of_scan {start : Nat} {s : Text} {n : Node} {after : List Node}
    (h : (scan start s).1 = n :: after) : ∃ rest, next? start s = some (n, rest) := by
  rw [scan] at h
  split at h
  · cases h
  · next m rest hnext =>
      obtain ⟨rfl, -⟩ := List.cons.inj h
      exact ⟨rest, hnext⟩

/-- The run of a literal that is read. -/
theorem run_of_next? {offset : Nat} {s rest text : Text} {kind : LiteralKind}
    (h : next? offset s = some (literal kind text, rest)) :
    text ≠ [] ∧ kind.run s = (text, rest) := by
  rcases next?_eq_some h with ⟨_, _, heq, hrun⟩ | ⟨_, _, heq, -⟩
  · obtain ⟨rfl, rfl⟩ := Node.literal.inj heq
    exact hrun
  · exact nomatch heq

/-- Neighbouring literals are of different kinds. -/
theorem kind_ne_of_scan {start : Nat} {s : Text} {before after : List Node}
    {kind next : LiteralKind} {text more : Text}
    (h : (scan start s).1 = before ++ literal kind text :: literal next more :: after) :
    kind ≠ next := by
  fun_induction scan start s generalizing before with
  | case1 => exact absurd h.symm (List.append_ne_nil_of_right_ne_nil _ (List.cons_ne_nil _ _))
  | case2 start s n rest hnext _ nodes remaining hscan ih =>
      rw [hscan] at ih
      cases before with
      | cons m before => exact ih (List.cons.inj h).2
      | nil =>
          obtain ⟨rfl, rfl⟩ := List.cons.inj h
          rintro rfl
          -- the second literal would be a run behind a run of its own kind
          obtain ⟨_, hsecond⟩ := next?_of_scan (congrArg Prod.fst hscan)
          obtain ⟨-, hrun⟩ := run_of_next? hnext
          obtain ⟨hne, hmore⟩ := run_of_next? hsecond
          have hempty := kind.run_run s
          rw [hrun, hmore] at hempty
          exact hne hempty

/-- A node that is read is a row of words. -/
theorem toText_mem {n : Node} (h : n.IsRead) : n.toText ∈ Grammar.template Grammar.sigils := by
  cases n with
  | literal kind text =>
      exact kstar_mono ((Grammar.ofKind_le_literal kind).trans le_self_add) h.2
  | expression sigil specs offset =>
      exact le_kstar (a := Grammar.word Grammar.sigils)
        (Or.inr (Grammar.mem_expression_iff.2 ⟨sigil, specs, h.1, h.2, rfl⟩))

theorem flatMap_toText_mem {nodes : List Node} (h : ∀ n ∈ nodes, n.IsRead) :
    nodes.flatMap toText ∈ Grammar.template Grammar.sigils := by
  induction nodes with
  | nil => exact Language.nil_mem_kstar _
  | cons n nodes ih =>
      obtain ⟨hn, hnodes⟩ := List.forall_mem_cons.1 h
      exact Grammar.append_mem_kstar (toText_mem hn) (ih hnodes)

/-! ## Whole texts -/

/-- What reading a text gives: its nodes, and what remains. -/
structure IsReading (text : Text) (nodes : List Node) (remaining : Text) : Prop where
  /-- The nodes and what remains make up the text. -/
  lossless : nodes.flatMap toText ++ remaining = text
  /-- An expression knows how much text stands before it. -/
  offsets : ∀ before sigil specs offset after,
    nodes = before ++ expression sigil specs offset :: after →
      offset = (before.flatMap toText).length
  /-- A literal is not empty, and made of what its kind is made of. -/
  literals : ∀ kind s, literal kind s ∈ nodes → s ≠ [] ∧ s ∈ (Grammar.ofKind kind)∗
  /-- Neighbouring literals are of different kinds. -/
  merged : ∀ before kind s next more after,
    nodes = before ++ literal kind s :: literal next more :: after → kind ≠ next
  /-- An expression stands in the text where it says; its variables are the pieces between the
      commas, and none of these is refused. -/
  pieces : ∀ sigil specs offset, expression sigil specs offset ∈ nodes →
    ∃ list ∈ Grammar.variableList, ∃ rest,
      text.drop offset = .char '\x7b' :: (sigil.toList ++ (list ++ .char '\x7d' :: rest)) ∧
        (list.splitOn (.char ',')).map VarSpec.parse = specs.map .ok
  /-- The part that was read is in the language of templates. -/
  consumed : nodes.flatMap toText ∈ Grammar.template Grammar.sigils
  /-- It is the longest such part that the text begins with. -/
  longest : ∀ s ∈ Grammar.template Grammar.sigils, s <+: text → s <+: nodes.flatMap toText

/-- The pieces of a list are the variables, each of which is read. -/
theorem map_parse_splitOn {specs : List VarSpec} (h : AreWellFormed specs) :
    ((List.intercalate [.char ','] (specs.map VarSpec.toText)).splitOn (.char ',')).map
        VarSpec.parse = specs.map .ok := by
  rw [VarSpec.splitOn_intercalate_toText h, List.map_map]
  apply List.map_congr_left
  intro v hv
  rw [Function.comp_apply, VarSpec.parse, VarSpec.ofText?_toText (h.valid v hv)]

theorem isPrefixFree_word : IsPrefixFree (Grammar.word Grammar.sigils) :=
  Grammar.isPrefixFree_word fun _ => isSigil_iff.2

/-- **RUN**: reading a text gives the longest part of it that the grammar has, cut into nodes. -/
theorem isReading_recognize (text : Text) :
    IsReading text (recognize text).1 (recognize text).2 := by
  have hread := isRead_recognize text
  have hlossless := toText_recognize text
  have hconsumed := flatMap_toText_mem hread
  have hoffsets : ∀ before sigil specs offset after,
      (recognize text).1 = before ++ expression sigil specs offset :: after →
        offset = (before.flatMap toText).length := by
    intro before sigil specs offset after h
    rw [offset_of_scan h, Nat.zero_add]
  refine ⟨hlossless, hoffsets, fun kind s hmem => hread _ hmem, ?_, ?_, hconsumed, ?_⟩
  · intro before kind s next more after h
    exact kind_ne_of_scan h
  · intro sigil specs offset hmem
    obtain ⟨-, hspecs⟩ : _ ∧ AreWellFormed specs := hread _ hmem
    obtain ⟨before, after, heq⟩ := List.append_of_mem hmem
    refine ⟨List.intercalate [.char ','] (specs.map VarSpec.toText),
      Grammar.mem_variableList_iff.2 ⟨specs, hspecs, rfl⟩,
      after.flatMap toText ++ (recognize text).2, ?_, map_parse_splitOn hspecs⟩
    rw [heq, List.flatMap_append, List.flatMap_cons, List.append_assoc, List.append_assoc]
      at hlossless
    have hdrop := (congrArg (List.drop (before.flatMap toText).length) hlossless).symm.trans
      List.drop_left
    rw [hoffsets before sigil specs offset after heq, hdrop, toText]
    simp only [List.cons_append, List.append_assoc, List.nil_append]
  · intro s hs hprefix
    rw [← hlossless] at hprefix
    exact isPrefixFree_word.prefix_of_stuck hconsumed (not_prefix_scan 0 text) hs hprefix

/-- All of a text is read exactly when the grammar has it. -/
theorem recognize_snd_eq_nil_iff {text : Text} :
    (recognize text).2 = [] ↔ text ∈ Grammar.template Grammar.sigils := by
  have hreading := isReading_recognize text
  constructor
  · intro h
    have hconsumed := hreading.consumed
    rwa [← List.append_nil (List.flatMap _ _), ← h, hreading.lossless] at hconsumed
  · intro h
    have hprefix := hreading.longest text h List.prefix_rfl
    have hlength := hprefix.length_le
    rw [← congrArg List.length hreading.lossless, List.length_append] at hlength
    exact List.length_eq_zero_iff.1 (by omega)

end Node

/-! ## Templates -/

/-- Of the sigils, those set aside select no operator. -/
theorem Operator.ofSigil?_eq_none_iff {sigil : Option CodePoint}
    (h : ∀ c ∈ sigil, c ∈ Grammar.sigils) :
    ofSigil? sigil = none ↔ ∃ c ∈ sigil, c ∈ Grammar.reservedSigils := by
  have hall : ∀ c ∈ Grammar.sigils,
      ofSigil? (some c) = none ↔ c ∈ Grammar.reservedSigils := by
    simp [Grammar.sigils, Grammar.operatorSigils, Grammar.reservedSigils, ofSigil?, all, sigil?]
  cases sigil with
  | none => simp [ofSigil?, all, sigil?]
  | some c => simp [hall c (h c rfl)]

/-- Nodes become segments exactly when no sigil is set aside. -/
theorem Segment.exists_ofNodes_iff (source : Text) {nodes : List Node}
    (hread : ∀ n ∈ nodes, n.IsRead) :
    (∃ segments, ofNodes source nodes = .ok segments) ↔
      ∀ sigil specs offset, .expression sigil specs offset ∈ nodes →
        ∀ c ∈ sigil, c ∉ Grammar.reservedSigils := by
  induction nodes with
  | nil => simp [ofNodes]
  | cons n nodes ih =>
      obtain ⟨hn, hnodes⟩ := List.forall_mem_cons.1 hread
      have ih := ih hnodes
      cases n with
      | literal kind text =>
          simp only [List.mem_cons, reduceCtorEq, false_or, ofNodes_literal_eq_ok]
          rw [← ih]
          constructor
          · rintro ⟨_, rest, hrest, -⟩
            exact ⟨rest, hrest⟩
          · rintro ⟨rest, hrest⟩
            exact ⟨_, rest, hrest, rfl⟩
      | expression sigil specs offset =>
          have hnone := Operator.ofSigil?_eq_none_iff hn.1
          simp only [ofNodes_expression_eq_ok]
          constructor
          · rintro ⟨_, op, rest, hop, hrest, -⟩ sigil' specs' offset' hmem c hc hreserved
            rcases List.mem_cons.1 hmem with heq | hmem
            · obtain ⟨rfl, -, -⟩ := Node.expression.inj heq
              rw [hnone.2 ⟨c, hc, hreserved⟩] at hop
              cases hop
            · exact ih.1 ⟨rest, hrest⟩ sigil' specs' offset' hmem c hc hreserved
          · intro h
            have hfree := h sigil specs offset List.mem_cons_self
            obtain ⟨op, hop⟩ := Option.ne_none_iff_exists'.1 fun heq => by
              obtain ⟨c, hc, hreserved⟩ := hnone.1 heq
              exact hfree c hc hreserved
            obtain ⟨rest, hrest⟩ := ih.2 fun sigil' specs' offset' hmem =>
              h sigil' specs' offset' (List.mem_cons_of_mem _ hmem)
            exact ⟨_, op, rest, hop, hrest, rfl⟩

namespace Template

/-- **TEMPLATES**: the texts that are read are those of the grammar, without the sigils that are
    set aside. -/
theorem exists_parse_iff (config : Config) (text : Text) :
    (∃ t, parse config text = .ok t) ↔
      text ∈ Grammar.template Grammar.sigils ∧
        ∀ sigil specs offset, .expression sigil specs offset ∈ (Node.recognize text).1 →
          ∀ c ∈ sigil, c ∉ Grammar.reservedSigils := by
  rw [← Node.recognize_snd_eq_nil_iff,
    ← Segment.exists_ofNodes_iff text (Node.isRead_recognize text)]
  constructor
  · rintro ⟨t, ht⟩
    obtain ⟨-, -, hnil, hsegments⟩ := parse_eq_ok_iff_segments.1 ht
    exact ⟨hnil, t.segments, hsegments⟩
  · rintro ⟨hnil, segments, hsegments⟩
    have hnonempty :=
      Segment.hasVariables_of_ofNodes (Node.forall_mem_scan Node.hasVariables_of_next? 0 text)
        hsegments
    exact ⟨⟨text, segments, config, hnonempty⟩,
      parse_eq_ok_iff_segments.2 ⟨rfl, rfl, hnil, hsegments⟩⟩

/-- **RECOGNITION**: the reader cuts off the longest part of a text that the grammar has, into
    nodes that lose nothing; no piece that it hands on as a variable is refused; and a text is a
    template exactly when the grammar has all of it and no sigil is set aside. -/
theorem recognition_exact (text : Text) :
    Node.IsReading text (Node.recognize text).1 (Node.recognize text).2 ∧
      (∀ list ∈ Grammar.variableList, ∀ piece ∈ list.splitOn (.char ','),
        ∃ v, VarSpec.parse piece = .ok v) ∧
      ∀ config, (∃ t, parse config text = .ok t) ↔
        text ∈ Grammar.template Grammar.sigils ∧
          ∀ sigil specs offset, .expression sigil specs offset ∈ (Node.recognize text).1 →
            ∀ c ∈ sigil, c ∉ Grammar.reservedSigils := by
  refine ⟨Node.isReading_recognize text, ?_, fun config => exists_parse_iff config text⟩
  intro list hlist piece hpiece
  obtain ⟨specs, hspecs, rfl⟩ := Grammar.mem_variableList_iff.1 hlist
  have hmem := List.mem_map_of_mem (f := VarSpec.parse) hpiece
  rw [Node.map_parse_splitOn hspecs] at hmem
  obtain ⟨v, -, hv⟩ := List.mem_map.1 hmem
  exact ⟨v, hv.symm⟩

end Template

end UriTemplate
