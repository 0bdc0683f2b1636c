import Mathlib.Data.List.Chain
import UriTemplate.Proofs.Template.Recognition

/-! # Printing — parsing and printing are inverse

    A list of segments is *normal* when its literals are not empty, made of legal
    characters and triplets, and never side by side, and its expressions hold
    variables that can be written.  Reading a text leaves normal segments which are
    written as that text (`Segment.areNormal_of_ofNodes`).  A normal list, written, is
    in the language of templates (`Segment.flatMap_toText_mem`), and no two normal
    lists are written alike (`Segment.AreNormal.eq_of_flatMap_eq`), so it is read back.

    * **`Template.parse_eq_ok_iff`** — parsing is the inverse of printing;
    * `Segment.AreNormal.exists_expression` — an expression that stands in the text of a
      template is one of its segments. -/

namespace UriTemplate

open scoped Computability

namespace Segment

/-- Is the segment text that is kept as it is? -/
def IsLiteral : Segment → Prop
  | literal _ => True
  | expression _ => False

/-- What a template can have: a literal of legal characters and triplets, or an expression with
    variables that have a name of the grammar and at most one modifier. -/
def IsNormal : Segment → Prop
  | literal text => text ≠ [] ∧ text ∈ Grammar.literal∗
  | expression e => e.specs ≠ [] ∧ ∀ v ∈ e.specs, v.name ∈ Grammar.varname ∧
      ¬ (v.explode = true ∧ v.maxLength.isSome = true) ∧ ∀ n ∈ v.maxLength, 1 ≤ n ∧ n ≤ 9999

/-- Segments as reading leaves them: each can be written, and no two literals are adjacent. -/
structure AreNormal (segments : List Segment) : Prop where
  each : ∀ s ∈ segments, s.IsNormal
  apart : segments.IsChain fun s t => s.IsLiteral → ¬ t.IsLiteral

theorem isNormal_expression_iff {e : Expression} :
    (expression e).IsNormal ↔ AreWellFormed e.specs := by
  constructor
  · rintro ⟨hne, hall⟩
    refine ⟨hne, fun v hv => ?_⟩
    obtain ⟨hname, hboth, hlength⟩ := hall v hv
    refine ⟨Grammar.mem_varname_iff.1 hname, fun hexplode => ?_, hlength⟩
    rw [← Option.not_isSome_iff_eq_none]
    exact fun hsome => hboth ⟨hexplode, hsome⟩
  · rintro ⟨hne, hvalid⟩
    refine ⟨hne, fun v hv => ?_⟩
    obtain ⟨hname, hexplode, hlength⟩ := hvalid v hv
    refine ⟨Grammar.mem_varname_iff.2 hname, ?_, hlength⟩
    rintro ⟨htrue, hsome⟩
    rw [hexplode htrue] at hsome
    exact nomatch hsome

/-! ## Reading leaves normal segments -/

theorem AreNormal.of_cons {s : Segment} {segments : List Segment}
    (h : AreNormal (s :: segments)) : s.IsNormal ∧ AreNormal segments := by
  obtain ⟨hs, hsegments⟩ := List.forall_mem_cons.1 h.each
  exact ⟨hs, hsegments, h.apart.tail⟩

theorem AreNormal.cons_expression {e : Expression} (he : AreWellFormed e.specs)
    {segments : List Segment} (h : AreNormal segments) : AreNormal (expression e :: segments) where
  each := List.forall_mem_cons.2 ⟨isNormal_expression_iff.2 he, h.each⟩
  apart := List.isChain_cons.2 ⟨fun _ _ hliteral => hliteral.elim, h.apart⟩

/-- Text that is put before segments joins a literal, so that none stand side by side. -/
theorem AreNormal.prepend {text : Text} (hne : text ≠ []) (htext : text ∈ Grammar.literal∗)
    {segments : List Segment} (h : AreNormal segments) :
    AreNormal (Segment.prepend text segments) := by
  cases segments with
  | nil => exact ⟨List.forall_mem_singleton.2 ⟨hne, htext⟩, List.isChain_singleton _⟩
  | cons s segments =>
      obtain ⟨hs, hlater⟩ := h.of_cons
      cases s with
      | literal next =>
          refine ⟨List.forall_mem_cons.2 ⟨⟨?_, ?_⟩, hlater.each⟩, ?_⟩
          · exact List.append_ne_nil_of_left_ne_nil hne next
          · exact Grammar.append_mem_kstar htext hs.2
          · exact List.isChain_cons.2 (List.isChain_cons.1 h.apart)
      | expression e =>
          refine ⟨List.forall_mem_cons.2 ⟨⟨hne, htext⟩, h.each⟩, ?_⟩
          exact List.isChain_cons_cons.2 ⟨fun _ => id, h.apart⟩

theorem flatMap_toText_prepend (text : Text) (segments : List Segment) :
    (prepend text segments).flatMap toText = text ++ segments.flatMap toText := by
  unfold prepend
  split
  · rw [List.flatMap_cons, List.flatMap_cons, toText, toText, List.append_assoc]
  · rw [List.flatMap_cons, toText]

/-- An operator is selected by its own sigil only. -/
theorem sigil?_of_ofSigil? {sigil : Option CodePoint} {op : Operator}
    (h : Operator.ofSigil? sigil = some op) : op.sigil? = sigil := by
  simpa using List.find?_some h

/-- **READ**: the nodes of a text become normal segments, which are written as the nodes. -/
theorem areNormal_of_ofNodes {source : Text} {nodes : List Node} {segments : List Segment}
    (hread : ∀ n ∈ nodes, n.IsRead) (h : ofNodes source nodes = .ok segments) :
    AreNormal segments ∧ segments.flatMap toText = nodes.flatMap Node.toText := by
  induction nodes generalizing segments with
  | nil =>
      obtain rfl := Except.ok.inj h
      exact ⟨⟨nofun, List.isChain_nil⟩, rfl⟩
  | cons n nodes ih =>
      obtain ⟨hn, hnodes⟩ := List.forall_mem_cons.1 hread
      rw [List.flatMap_cons]
      cases n with
      | literal kind text =>
          obtain ⟨rest, hrest, rfl⟩ := ofNodes_literal_eq_ok.1 h
          obtain ⟨hnormal, htext⟩ := ih hnodes hrest
          have hliteral := kstar_mono (Grammar.ofKind_le_literal kind) hn.2
          refine ⟨hnormal.prepend hn.1 hliteral, ?_⟩
          rw [flatMap_toText_prepend, htext, Node.toText]
      | expression sigil specs offset =>
          obtain ⟨op, rest, hop, hrest, rfl⟩ := ofNodes_expression_eq_ok.1 h
          obtain ⟨hnormal, htext⟩ := ih hnodes hrest
          refine ⟨hnormal.cons_expression hn.2, ?_⟩
          rw [List.flatMap_cons, htext, ← sigil?_of_ofSigil? hop]
          rfl

/-! ## Written segments are in the language -/

theorem sigil?_mem_operatorSigils (op : Operator) :
    ∀ c ∈ op.sigil?, c ∈ Grammar.operatorSigils := by
  cases op <;> simp [Operator.sigil?, Grammar.operatorSigils]

/-- A normal segment is written as a row of words. -/
theorem toText_mem {s : Segment} (h : s.IsNormal) :
    s.toText ∈ Grammar.template Grammar.operatorSigils := by
  cases s with
  | literal text => exact kstar_mono (a := Grammar.literal) le_self_add h.2
  | expression e =>
      exact le_kstar (a := Grammar.word Grammar.operatorSigils)
        (Or.inr (Grammar.mem_expression_iff.2 ⟨e.operator.sigil?, e.specs,
          sigil?_mem_operatorSigils e.operator, isNormal_expression_iff.1 h, rfl⟩))

/-- **WRITTEN**: so are normal segments together. -/
theorem flatMap_toText_mem {segments : List Segment} (h : ∀ s ∈ segments, s.IsNormal) :
    segments.flatMap toText ∈ Grammar.template Grammar.operatorSigils := by
  induction segments with
  | nil => exact Language.nil_mem_kstar _
  | cons s segments ih =>
      obtain ⟨hs, hsegments⟩ := List.forall_mem_cons.1 h
      exact Grammar.append_mem_kstar (toText_mem hs) (ih hsegments)

/-! ## No two normal lists are written alike -/

/-- No brace opens inside a literal. -/
theorem brace_not_mem {text : Text} (h : text ∈ Grammar.literal∗) : .char '\x7b' ∉ text := by
  obtain ⟨ws, rfl, hws⟩ := h
  intro hmem
  obtain ⟨w, hw, hmem⟩ := List.mem_flatten.1 hmem
  rcases Grammar.mem_literal_cases (hws w hw) with hw | ⟨c, rfl, -, hbrace⟩
  · obtain ⟨a, b, rfl, ha, hb⟩ := Grammar.mem_pctEncoded_iff.1 hw
    simp only [List.mem_cons, List.not_mem_nil, or_false] at hmem
    rcases hmem with h | rfl | rfl
    · exact absurd h (by decide)
    · exact absurd ha (by decide)
    · exact absurd hb (by decide)
  · exact hbrace (List.mem_singleton.1 hmem).symm

/-- The text of a literal ends at the first brace. -/
theorem cut_literal {text : Text} {segments : List Segment}
    (h : AreNormal (literal text :: segments)) :
    (Text.cut '\x7b' (text ++ segments.flatMap toText)).1 = text := by
  obtain ⟨⟨-, htext⟩, -⟩ := h.of_cons
  have hbrace := brace_not_mem htext
  cases segments with
  | nil => rw [List.flatMap_nil, List.append_nil, Text.cut_of_not_mem hbrace]
  | cons s segments =>
      cases s with
      | literal next =>
          exact absurd trivial ((List.isChain_cons_cons.1 h.apart).1 trivial)
      | expression e =>
          rw [List.flatMap_cons]
          exact congrArg Prod.fst (Text.cut_append hbrace _)

/-- A literal does not begin like an expression. -/
theorem append_ne_brace_cons {text : Text} (hne : text ≠ []) (h : text ∈ Grammar.literal∗)
    (rest more : Text) : text ++ rest ≠ .char '\x7b' :: more := by
  cases text with
  | nil => exact absurd rfl hne
  | cons c text =>
      intro heq
      obtain ⟨rfl, -⟩ := List.cons.inj heq
      exact brace_not_mem h List.mem_cons_self

/-- An expression is known from what is written. -/
theorem expression_append_inj {e f : Expression} (he : AreWellFormed e.specs)
    (hf : AreWellFormed f.specs) {rest more : Text} (h : e.toText ++ rest = f.toText ++ more) :
    e = f ∧ rest = more := by
  have hread : ∀ {e : Expression}, AreWellFormed e.specs → ∀ rest,
      Node.next? 0 (e.toText ++ rest)
        = some (.expression e.operator.sigil? e.specs 0, rest) := by
    intro e he rest
    refine Node.next?_toText (fun c hc => Node.isSigil_iff.2 ?_) he 0 0 rest
    exact List.mem_append_left _ (sigil?_mem_operatorSigils e.operator c hc)
  have hboth := hread he rest
  rw [h, hread hf more] at hboth
  obtain ⟨hnode, rfl⟩ := Prod.mk.inj (Option.some.inj hboth)
  obtain ⟨hsigil, hspecs, -⟩ := Node.expression.inj hnode
  have hoperator : f.operator = e.operator := by
    have := congrArg Operator.ofSigil? hsigil
    rwa [Operator.ofSigil?_sigil?, Operator.ofSigil?_sigil?, Option.some_inj] at this
  refine ⟨?_, rfl⟩
  obtain ⟨op, specs⟩ := e
  obtain ⟨op', specs'⟩ := f
  cases hoperator
  cases hspecs
  rfl

theorem toText_ne_nil {s : Segment} (h : s.IsNormal) : s.toText ≠ [] := by
  cases s with
  | literal text => exact h.1
  | expression e => exact List.cons_ne_nil _ _

/-- **UNIQUENESS**: normal segments are known from what they are written as. -/
theorem AreNormal.eq_of_flatMap_eq {xs ys : List Segment} (hx : AreNormal xs) (hy : AreNormal ys)
    (h : xs.flatMap toText = ys.flatMap toText) : xs = ys := by
  induction xs generalizing ys with
  | nil =>
      cases ys with
      | nil => rfl
      | cons y ys => exact absurd (List.append_eq_nil_iff.1 h.symm).1 (toText_ne_nil hy.of_cons.1)
  | cons x xs ih =>
      obtain ⟨hnormal, hlater⟩ := hx.of_cons
      cases ys with
      | nil => exact absurd (List.append_eq_nil_iff.1 h).1 (toText_ne_nil hnormal)
      | cons y ys =>
          obtain ⟨hnormal', hlater'⟩ := hy.of_cons
          rw [List.flatMap_cons, List.flatMap_cons] at h
          cases x with
          | literal a =>
              cases y with
              | literal b =>
                  -- each is what stands before the first brace
                  have hcut : a = b := by
                    rw [← cut_literal hx, ← cut_literal hy]
                    exact congrArg (fun s => (Text.cut '\x7b' s).1) h
                  subst hcut
                  rw [ih hlater hlater' (List.append_cancel_left h)]
              | expression f => exact absurd h (append_ne_brace_cons hnormal.1 hnormal.2 _ _)
          | expression e =>
              cases y with
              | literal b => exact absurd h.symm (append_ne_brace_cons hnormal'.1 hnormal'.2 _ _)
              | expression f =>
                  obtain ⟨rfl, hrest⟩ := expression_append_inj (isNormal_expression_iff.1 hnormal)
                    (isNormal_expression_iff.1 hnormal') h
                  rw [ih hlater hlater' hrest]

/-! ## Expressions inside a text -/

/-- No brace opens inside an expression. -/
theorem brace_not_mem_tail {e : Expression} (h : AreWellFormed e.specs) :
    .char '\x7b' ∉ e.toText.tail := by
  have hinside : .char '\x7b' ∉
      e.operator.sigil ++ List.intercalate [.char ','] (e.specs.map VarSpec.toText) :=
    Node.not_mem_inside (by decide) (by decide) (fun c hc => Node.isSigil_iff.2
      (List.mem_append_left _ (sigil?_mem_operatorSigils e.operator c hc))) h
  show .char '\x7b' ∉ e.operator.sigil ++
    List.intercalate [.char ','] (e.specs.map VarSpec.toText) ++ [.char '\x7d']
  rw [List.mem_append, not_or]
  exact ⟨hinside, by decide⟩

/-- A brace stands only where a segment begins: what is before it are segments. -/
theorem AreNormal.exists_append {segments : List Segment} (h : AreNormal segments)
    {before rest : Text} (heq : segments.flatMap toText = before ++ .char '\x7b' :: rest) :
    ∃ first last, segments = first ++ last ∧ first.flatMap toText = before ∧
      last.flatMap toText = .char '\x7b' :: rest := by
  induction segments generalizing before with
  | nil => exact absurd heq (by simp)
  | cons s segments ih =>
      obtain ⟨hs, hlater⟩ := h.of_cons
      rw [List.flatMap_cons] at heq
      rcases List.append_eq_append_iff.1 heq with ⟨more, hbefore, hmore⟩ | ⟨more, htext, hmore⟩
      · -- the brace is in a later segment
        obtain ⟨first, last, rfl, hfirst, hlast⟩ := ih hlater hmore
        refine ⟨s :: first, last, rfl, ?_, hlast⟩
        rw [List.flatMap_cons, hfirst, hbefore]
      · cases more with
        | nil =>
            refine ⟨[s], segments, rfl, ?_, hmore.symm⟩
            rw [List.flatMap_singleton, htext, List.append_nil]
        | cons c more =>
            obtain ⟨rfl, -⟩ := List.cons.inj hmore
            have hmem : .char '\x7b' ∈ s.toText := by
              rw [htext]
              exact List.mem_append_right before List.mem_cons_self
            cases s with
            | literal text => exact absurd hmem (brace_not_mem hs.2)
            | expression e =>
                have hbrace := brace_not_mem_tail (isNormal_expression_iff.1 hs)
                cases before with
                | nil => exact ⟨[], .expression e :: segments, rfl, rfl, heq⟩
                | cons d before =>
                    have htail : e.toText.tail = before ++ .char '\x7b' :: more :=
                      congrArg List.tail htext
                    rw [htail] at hbrace
                    exact absurd (List.mem_append_right before List.mem_cons_self) hbrace

/-- An expression that the text begins with is the first of the segments. -/
theorem AreNormal.exists_cons {segments : List Segment} (h : AreNormal segments)
    {e : Expression} (he : AreWellFormed e.specs) {after : Text}
    (heq : segments.flatMap toText = e.toText ++ after) :
    ∃ later, segments = .expression e :: later ∧ AreNormal later ∧
      later.flatMap toText = after := by
  cases segments with
  | nil => exact nomatch heq
  | cons s later =>
      obtain ⟨hs, hlater⟩ := h.of_cons
      cases s with
      | literal text => exact absurd heq (append_ne_brace_cons hs.1 hs.2 _ _)
      | expression f =>
          have hboth : f.toText ++ later.flatMap toText = e.toText ++ after := heq
          obtain ⟨rfl, hrest⟩ := expression_append_inj (isNormal_expression_iff.1 hs) he hboth
          exact ⟨later, rfl, hlater, hrest⟩

/-- **INSIDE**: an expression that stands in the text of segments is one of them. -/
theorem AreNormal.exists_expression {segments : List Segment} (h : AreNormal segments)
    {e : Expression} (he : AreWellFormed e.specs) {before after : Text}
    (heq : segments.flatMap toText = before ++ (e.toText ++ after)) :
    ∃ first later, segments = first ++ .expression e :: later ∧
      (AreNormal first ∧ first.flatMap toText = before) ∧
      (AreNormal later ∧ later.flatMap toText = after) := by
  obtain ⟨first, last, rfl, hfirst, hlast⟩ := h.exists_append heq
  have hnormal : AreNormal last :=
    ⟨fun s hs => h.each s (List.mem_append_right first hs), h.apart.right_of_append⟩
  obtain ⟨later, rfl, hlater⟩ := hnormal.exists_cons he hlast
  have hnormal' : AreNormal first :=
    ⟨fun s hs => h.each s (List.mem_append_left _ hs), h.apart.left_of_append⟩
  exact ⟨first, later, rfl, ⟨hnormal', hfirst⟩, hlater⟩

end Segment

/-! ## Texts without a sigil that is set aside -/

namespace Node

theorem word_mono : Grammar.word Grammar.operatorSigils ≤ Grammar.word Grammar.sigils := by
  intro w hw
  rcases hw with hw | hw
  · exact Or.inl hw
  · obtain ⟨sigil, specs, hsigil, hspecs, rfl⟩ := Grammar.mem_expression_iff.1 hw
    exact Or.inr (Grammar.mem_expression_iff.2 ⟨sigil, specs,
      fun c hc => List.mem_append_left _ (hsigil c hc), hspecs, rfl⟩)

/-- The nodes of a text with operators only are written with operators only. -/
theorem toText_mem_of_flatMap_mem {nodes : List Node} (hread : ∀ n ∈ nodes, n.IsRead)
    (h : nodes.flatMap toText ∈ Grammar.template Grammar.operatorSigils) :
    ∀ n ∈ nodes, n.toText ∈ Grammar.template Grammar.operatorSigils := by
  induction nodes with
  | nil => exact fun n hn => (List.not_mem_nil hn).elim
  | cons n nodes ih =>
      obtain ⟨hn, hnodes⟩ := List.forall_mem_cons.1 hread
      rw [List.flatMap_cons] at h
      obtain ⟨htext, hrest⟩ := isPrefixFree_word.exists_of_append_mem word_mono (toText_mem hn) h
      exact List.forall_mem_cons.2 ⟨htext, ih hnodes hrest⟩

/-- The sigil of an expression is the one that is written. -/
theorem sigil_mem_of_toText_mem {sigil : Option CodePoint} {specs : List VarSpec} {offset : Nat}
    (hread : (expression sigil specs offset).IsRead)
    (h : (expression sigil specs offset).toText ∈ Grammar.template Grammar.operatorSigils) :
    ∀ c ∈ sigil, c ∈ Grammar.operatorSigils := by
  obtain ⟨ws, heq, hws⟩ := h
  cases ws with
  | nil => exact nomatch heq
  | cons w ws =>
      rw [List.flatten_cons] at heq
      have hfirst := next?_toText (fun c hc => isSigil_iff.2 (hread.1 c hc)) hread.2 offset 0 []
      rw [List.append_nil, heq] at hfirst
      rcases hws w List.mem_cons_self with hw | hw
      · -- no literal begins with a brace
        have hne : w ≠ [] := isPrefixFree_word.ne_nil w (Or.inl hw)
        exact absurd heq.symm
          (Segment.append_ne_brace_cons hne (le_kstar (a := Grammar.literal) hw) _ _)
      · obtain ⟨sigil', specs', hsigil', hspecs', rfl⟩ := Grammar.mem_expression_iff.1 hw
        rw [next?_toText (fun c hc => isSigil_iff.2 (List.mem_append_left _ (hsigil' c hc)))
          hspecs'] at hfirst
        obtain ⟨hnode, -⟩ := Prod.mk.inj (Option.some.inj hfirst)
        obtain ⟨rfl, -⟩ := Node.expression.inj hnode
        exact hsigil'

end Node

namespace Template

/-- A text in which every sigil is an operator's is a template. -/
theorem exists_parse_of_mem (config : Config) {text : Text}
    (h : text ∈ Grammar.template Grammar.operatorSigils) : ∃ t, parse config text = .ok t := by
  have hread := Node.isRead_recognize text
  have hall : text ∈ Grammar.template Grammar.sigils := kstar_mono Node.word_mono h
  refine (exists_parse_iff config text).2 ⟨hall, ?_⟩
  intro sigil specs offset hmem c hc hreserved
  have hlossless := Node.toText_recognize text
  rw [Node.recognize_snd_eq_nil_iff.2 hall, List.append_nil] at hlossless
  rw [← hlossless] at h
  have hsigil := Node.sigil_mem_of_toText_mem (hread _ hmem)
    (Node.toText_mem_of_flatMap_mem hread h _ hmem)
  -- no sigil is an operator's and set aside
  have hdisjoint : ∀ c ∈ Grammar.operatorSigils, c ∉ Grammar.reservedSigils := by
    simp [Grammar.operatorSigils, Grammar.reservedSigils]
  exact hdisjoint c (hsigil c hc) hreserved

/-- What reading leaves is normal, and is written as what was read. -/
theorem areNormal_of_parse {config : Config} {source : Text} {t : Template}
    (h : parse config source = .ok t) :
    t.source = source ∧ t.config = config ∧ Segment.AreNormal t.segments ∧
      t.segments.flatMap Segment.toText = source := by
  obtain ⟨hsource, hconfig, hnil, hsegments⟩ := parse_eq_ok_iff_segments.1 h
  have hlossless := Node.toText_recognize source
  rw [hnil, List.append_nil] at hlossless
  obtain ⟨hnormal, htext⟩ :=
    Segment.areNormal_of_ofNodes (Node.isRead_recognize source) hsegments
  exact ⟨hsource, hconfig, hnormal, htext.trans hlossless⟩

/-- Normal segments, written one after the other, are read back. -/
theorem parse_of_areNormal (config : Config) {segments : List Segment}
    (h : Segment.AreNormal segments) :
    ∃ t, parse config (segments.flatMap Segment.toText) = .ok t ∧ t.segments = segments := by
  obtain ⟨t, hparse⟩ := exists_parse_of_mem config (Segment.flatMap_toText_mem h.each)
  obtain ⟨-, -, hnormal, htext⟩ := areNormal_of_parse hparse
  exact ⟨t, hparse, hnormal.eq_of_flatMap_eq h htext⟩

/-- **PARSING AND PRINTING**: a template is read from a text exactly when its segments are normal
    and are written, one after the other, as the text. -/
theorem parse_eq_ok_iff {config : Config} {source : Text} {t : Template} :
    parse config source = .ok t ↔
      t.source = source ∧ t.config = config ∧ Segment.AreNormal t.segments ∧
        t.segments.flatMap Segment.toText = source := by
  constructor
  · exact areNormal_of_parse
  · rintro ⟨hsource, hconfig, hnormal, htext⟩
    obtain ⟨u, hu, hsegments⟩ := parse_of_areNormal config hnormal
    rw [htext] at hu
    obtain ⟨husource, huconfig, -, -⟩ := areNormal_of_parse hu
    have heq : u = t := by
      cases u
      cases t
      cases husource.trans hsource.symm
      cases huconfig.trans hconfig.symm
      cases hsegments
      rfl
    rw [hu, heq]

end Template

end UriTemplate
