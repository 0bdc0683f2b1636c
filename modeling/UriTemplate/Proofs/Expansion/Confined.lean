import UriTemplate.Proofs.Percent.Escapes
import UriTemplate.Proofs.RoundTrip.Contributions
import UriTemplate.Proofs.Template.Printing

/-! # Confinement — data stay where they are put

    An expansion is spelled from three things (`Expression.Spells`): names of the
    template as they are, marks of the operator, and data, each of them encoded as a
    whole.  Which data these are is said by `Expression.data`: the texts and keys of the
    values of its variables, at any depth and in order.

    * `Expression.spells_render` — every way of writing a value spells its data;
    * `Expression.Spells.mayWrite`, `Expression.Spells.isComplete` — what is spelled
      keeps to the characters of the operator, and its triplets are complete;
    * **`Template.render_confined`** — what this says of a template that was read. -/

namespace UriTemplate

open scoped Computability

/-! ## Text of the template -/

/-- Names are complete. -/
theorem VarSpec.isComplete_of_isNameRest {following : Bool} {s : Text}
    (h : isNameRest following s = true) : Percent.IsComplete s := by
  have hcons : ∀ {c : CodePoint} {s : Text}, '%' ≠ c → Percent.IsComplete s →
      Percent.IsComplete (c :: s) := by
    intro c s hne hs
    exact (Percent.isComplete_of_not_mem (mt List.mem_singleton.1 hne)).append hs
  fun_induction isNameRest following s with
  | case1 => exact Percent.isComplete_nil
  | case2 following s ih =>
      rw [Bool.and_eq_true] at h
      exact hcons (by decide) (ih h.2)
  | case3 _ a b s ih =>
      simp only [Bool.and_eq_true] at h
      exact (Percent.isComplete_triplet h.1.1 h.1.2).append (ih h.2)
  | case4 _ d s _ _ ih =>
      rw [Bool.and_eq_true] at h
      refine hcons ?_ (ih h.2)
      rintro rfl
      exact absurd h.1 (by decide)

/-- So is the text between expressions. -/
theorem Percent.isComplete_of_mem_literal {text : Text} (h : text ∈ Grammar.literal∗) :
    IsComplete text := by
  obtain ⟨words, rfl, hwords⟩ := Language.mem_kstar.1 h
  rw [← List.flatMap_id]
  refine isComplete_flatMap fun word hword => ?_
  rcases Grammar.mem_literal_cases (hwords word hword) with hencoded | ⟨c, rfl, hne, -⟩
  · obtain ⟨h, l, rfl, hh, hl⟩ := Grammar.mem_pctEncoded_iff.1 hencoded
    exact isComplete_triplet hh hl
  · exact isComplete_of_not_mem (mt List.mem_singleton.1 hne.symm)

/-! ## Data -/

namespace Value

mutual

/-- The texts and keys of a value, at any depth, in order. -/
def data : Value → List Text
  | scalar s => [s.toText]
  | list items => itemsData items
  | assoc pairs => pairsData pairs

/-- The texts and keys of the items of a list. -/
def itemsData : List Value → List Text
  | [] => []
  | v :: items => v.data ++ itemsData items

/-- The keys of an associative array, each before the texts and keys of its member. -/
def pairsData : List (Text × Value) → List Text
  | [] => []
  | (k, v) :: pairs => k :: v.data ++ pairsData pairs

end

end Value

/-- What a variable writes of a value; a length cuts scalars only. -/
def VarSpec.data (v : VarSpec) : Value → List Text
  | .scalar s => [v.cut s.toText]
  | .list items => Value.itemsData items
  | .assoc pairs => Value.pairsData pairs

/-- What an expression writes of the values of its variables. -/
def Expression.data (e : Expression) (keywordLists : Bool) (env : Environment) : List Text :=
  e.specs.flatMap fun v =>
    match env.value? keywordLists v.name with
    | some value => v.data value
    | none => []

/-- A cut text is a first part of the text, and is encoded as a first part of it. -/
theorem VarSpec.exists_cut_append (v : VarSpec) (s : Text) :
    ∃ rest, s = v.cut s ++ rest ∧ ∀ escaping, Percent.encode escaping s
      = Percent.encode escaping (v.cut s) ++ Percent.encode escaping rest := by
  have hprefix : v.cut s <+: s := by
    rw [cut]
    split
    · exact List.take_prefix _ s
    · exact List.prefix_refl s
  obtain ⟨rest, hrest⟩ := hprefix
  refine ⟨rest, hrest.symm, fun escaping => ?_⟩
  conv_lhs => rw [← hrest]
  exact List.flatMap_append

/-! ## Marks -/

namespace Operator

/-- Does the operator write the character between data? -/
def isMark (op : Operator) (c : CodePoint) : Bool :=
  c == ',' || c == '=' || c == op.style.separator || op.style.lead == some c

/-- Can the character come of an expression with this operator? -/
def mayWrite (op : Operator) (c : CodePoint) : Bool :=
  isUnreserved c || c == '%' || op.isMark c ||
    (op == .reserved || op == .fragment) && isReserved c

variable {op : Operator} {c : CodePoint}

theorem isMark_comma (op : Operator) : op.isMark ',' = true := rfl

theorem isMark_separator (op : Operator) : op.isMark op.style.separator = true := by
  cases op <;> rfl

theorem isMark_of_mem_lead (h : c ∈ op.style.lead) : op.isMark c = true := by
  rw [isMark, show op.style.lead = some c from h, beq_self_eq_true, Bool.or_true]

/-- No operator writes a percent sign by itself. -/
theorem ne_percent_of_isMark (h : op.isMark c = true) : c ≠ '%' := by
  rintro rfl
  cases op <;> exact absurd h (by decide)

theorem mayWrite_of_isPlain (h : isPlain c = true) : op.mayWrite c = true := by
  rw [isPlain] at h
  rw [mayWrite, h, Bool.true_or, Bool.true_or]

theorem mayWrite_of_isMark (h : op.isMark c = true) : op.mayWrite c = true := by
  rw [mayWrite, h, Bool.or_true, Bool.true_or]

/-- Only two operators write reserved characters of data. -/
theorem mayWrite_of_allows (h : op.style.escaping.allows c = true) : op.mayWrite c = true := by
  have hplain : isUnreserved c = true → op.mayWrite c = true := by
    intro hc
    exact mayWrite_of_isPlain (Bool.or_eq_true_iff.2 (Or.inl hc))
  cases op with
  | reserved | fragment =>
      rcases Bool.or_eq_true_iff.1 h with hc | hc
      · exact hplain hc
      · exact Bool.or_eq_true_iff.2 (Or.inr hc)
  | simple | label | pathSegment | pathParameter | query | continuation => exact hplain h

end Operator

/-! ## Spelling -/

namespace Expression

/-- Is the text spelled from these data, in order?  Beside data, each encoded as a whole, there may
    be names of variables and marks of the operator. -/
inductive Spells (e : Expression) : List Text → Text → Prop where
  | nil : Spells e [] []
  | name {v : VarSpec} {data : List Text} {text : Text} :
      v ∈ e.specs → Spells e data text → Spells e data (v.name ++ text)
  | mark {c : CodePoint} {data : List Text} {text : Text} :
      e.operator.isMark c = true → Spells e data text → Spells e data (c :: text)
  | datum (s : Text) {data : List Text} {text : Text} :
      Spells e data text →
      Spells e (s :: data) (Percent.encode e.operator.style.escaping s ++ text)

/-- Are the texts spelled one by one from these data, in order? -/
inductive SpellsAll (e : Expression) : List Text → List Text → Prop where
  | nil : SpellsAll e [] []
  | cons {own others : List Text} {text : Text} {texts : List Text} :
      e.Spells own text → SpellsAll e others texts → SpellsAll e (own ++ others) (text :: texts)

variable {e : Expression} {own others data : List Text} {first second text : Text}
  {texts : List Text}

namespace Spells

/-- **STEP**: an expression writes only what its operator may write. -/
theorem mayWrite (h : e.Spells data text)
    (hnames : ∀ v ∈ e.specs, VarSpec.isName v.name = true) :
    ∀ c ∈ text, e.operator.mayWrite c = true := by
  induction h with
  | nil => nofun
  | name hv _ ih =>
      refine List.forall_mem_append.2 ⟨fun c hc => ?_, ih⟩
      exact Operator.mayWrite_of_isPlain (VarSpec.isPlain_of_isNameRest (hnames _ hv) c hc)
  | mark hc _ ih => exact List.forall_mem_cons.2 ⟨Operator.mayWrite_of_isMark hc, ih⟩
  | datum s _ ih =>
      refine List.forall_mem_append.2 ⟨fun c hc => ?_, ih⟩
      rcases Percent.allows_of_mem_encode _ s c hc with hallows | rfl
      · exact Operator.mayWrite_of_allows hallows
      · exact Operator.mayWrite_of_isPlain rfl

/-- No triplet is begun in one piece and ended in the next. -/
theorem isComplete (h : e.Spells data text)
    (hnames : ∀ v ∈ e.specs, VarSpec.isName v.name = true) : Percent.IsComplete text := by
  induction h with
  | nil => exact Percent.isComplete_nil
  | name hv _ ih => exact (VarSpec.isComplete_of_isNameRest (hnames _ hv)).append ih
  | mark hc _ ih =>
      have hmark := Percent.isComplete_of_not_mem
        (mt List.mem_singleton.1 (Operator.ne_percent_of_isMark hc).symm)
      exact hmark.append ih
  | datum s _ ih => exact (Percent.isComplete_encode _ s).append ih

theorem append (hfirst : e.Spells own first) (hsecond : e.Spells others second) :
    e.Spells (own ++ others) (first ++ second) := by
  induction hfirst with
  | nil => exact hsecond
  | name hv _ ih =>
      rw [List.append_assoc]
      exact .name hv ih
  | mark hc _ ih => exact .mark hc ih
  | datum s _ ih =>
      rw [List.append_assoc]
      exact .datum s ih

theorem of_name {v : VarSpec} (hv : v ∈ e.specs) : e.Spells [] v.name := by
  rw [← List.append_nil v.name]
  exact .name hv .nil

theorem of_datum (s : Text) : e.Spells [s] (Percent.encode e.operator.style.escaping s) := by
  rw [← List.append_nil (Percent.encode _ s)]
  exact .datum s .nil

/-- A value with its name; where the name stands alone, nothing is lost. -/
theorem nameValue (hname : e.Spells own first) (h : e.Spells others second) :
    e.Spells (own ++ others) (e.operator.style.nameValue first second) := by
  rw [Style.nameValue]
  split
  · next hbare =>
      have hboth := hname.append h
      rwa [hbare.2, List.append_nil] at hboth
  · exact hname.append (.mark rfl h)

/-- A part of a variable. -/
theorem part {v : VarSpec} (hv : v ∈ e.specs) (h : e.Spells data text) :
    e.Spells data (e.operator.style.part v.name text) := by
  rw [Style.part]
  split
  · exact (of_name hv).nameValue h
  · exact h

end Spells

namespace SpellsAll

theorem append {more : List Text} (h : e.SpellsAll own texts) (hmore : e.SpellsAll others more) :
    e.SpellsAll (own ++ others) (texts ++ more) := by
  induction h with
  | nil => exact hmore
  | cons htext _ ih =>
      rw [List.append_assoc]
      exact .cons htext ih

theorem singleton (h : e.Spells data text) : e.SpellsAll data [text] := by
  rw [← List.append_nil data]
  exact .cons h .nil

/-- What each of several things gives is spelled from the data of all of them. -/
theorem flatMap {α : Type} {f g : α → List Text} {items : List α}
    (h : ∀ a ∈ items, e.SpellsAll (f a) (g a)) :
    e.SpellsAll (items.flatMap f) (items.flatMap g) := by
  induction items with
  | nil => exact .nil
  | cons a items ih =>
      obtain ⟨ha, hitems⟩ := List.forall_mem_cons.1 h
      exact ha.append (ih hitems)

/-- Texts may be put under the name of a variable, each for itself. -/
theorem map_part {v : VarSpec} (hv : v ∈ e.specs) (h : e.SpellsAll data texts) :
    e.SpellsAll data (texts.map (e.operator.style.part v.name)) := by
  induction h with
  | nil => exact .nil
  | cons htext _ ih => exact .cons (htext.part hv) ih

/-- Joined by a mark, they are spelled from all their data. -/
theorem intercalate {sep : CodePoint} (hsep : e.operator.isMark sep = true)
    (h : e.SpellsAll data texts) : e.Spells data (List.intercalate [sep] texts) := by
  induction h with
  | nil => exact .nil
  | @cons own others text texts htext hrest ih =>
      cases texts with
      | nil =>
          cases hrest
          rw [List.intercalate_singleton, List.append_nil]
          exact htext
      | cons next texts =>
          rw [List.intercalate_cons_cons, List.append_assoc]
          exact htext.append (.mark hsep ih)

end SpellsAll

end Expression

/-! ## Values -/

namespace Value

variable (e : Expression)

mutual

/-- **VALUES**: whatever is nested in it, a value is spelled from its texts and keys. -/
theorem spells_encoded : ∀ v : Value,
    e.Spells v.data (v.encoded e.operator.style.escaping)
  | .scalar s => .of_datum s.toText
  | .list items => (spellsAll_encodedItems items).intercalate e.operator.isMark_comma
  | .assoc pairs => (spellsAll_encodedPairs pairs).intercalate e.operator.isMark_comma

theorem spellsAll_encodedItems : ∀ items : List Value,
    e.SpellsAll (itemsData items) (encodedItems e.operator.style.escaping items)
  | [] => .nil
  | v :: items => .cons (spells_encoded v) (spellsAll_encodedItems items)

theorem spellsAll_encodedPairs : ∀ pairs : List (Text × Value),
    e.SpellsAll (pairsData pairs) (encodedPairs e.operator.style.escaping pairs)
  | [] => .nil
  | (k, v) :: pairs =>
      .cons (.datum k (.mark e.operator.isMark_comma (spells_encoded v)))
        (spellsAll_encodedPairs pairs)

end

end Value

namespace Expression

variable {e : Expression}

/-- The pairs of an exploded associative array are spelled from their keys and members. -/
theorem spellsAll_map_nameValue (pairs : List (Text × Value)) :
    e.SpellsAll (Value.pairsData pairs) (pairs.map fun p => e.operator.style.nameValue
      (Percent.encode e.operator.style.escaping p.1) (p.2.encoded e.operator.style.escaping)) := by
  induction pairs with
  | nil => exact .nil
  | cons p pairs ih =>
      exact .cons ((Spells.of_datum p.1).nameValue (Value.spells_encoded e p.2)) ih

/-- **PARTS**: the parts of a variable are spelled from what it writes of its value. -/
theorem spellsAll_parts {v : VarSpec} (hv : v ∈ e.specs) (value : Value) :
    e.SpellsAll (v.data value) (v.parts e.operator.style value) := by
  cases value with
  | scalar s => exact .singleton ((Spells.of_datum (v.cut s.toText)).part hv)
  | list items =>
      have hitems := Value.spellsAll_encodedItems e items
      rw [VarSpec.parts]
      split
      · exact hitems.map_part hv
      · exact .singleton ((hitems.intercalate e.operator.isMark_comma).part hv)
  | assoc pairs =>
      rw [VarSpec.parts]
      split
      · exact spellsAll_map_nameValue pairs
      · have hpairs := Value.spellsAll_encodedPairs e pairs
        exact .singleton ((hpairs.intercalate e.operator.isMark_comma).part hv)

/-- **EXPRESSIONS**: what an expression is expanded to is spelled from the data of its variables. -/
theorem spells_render (e : Expression) (keywordLists : Bool) (env : Environment) :
    e.Spells (e.data keywordLists env) (e.render keywordLists env) := by
  have hparts : e.SpellsAll (e.data keywordLists env) (e.parts keywordLists env) := by
    refine SpellsAll.flatMap fun v hv => ?_
    cases env.value? keywordLists v.name with
    | none => exact .nil
    | some value => exact spellsAll_parts hv value
  have hjoined := hparts.intercalate e.operator.isMark_separator
  rw [render]
  split
  · next hnil =>
      rw [hnil] at hjoined
      exact hjoined
  · cases hlead : e.operator.style.lead with
    | none => exact hjoined
    | some c => exact .mark (Operator.isMark_of_mem_lead hlead) hjoined

end Expression

/-! ## Templates -/

namespace Template

/-- **CONFINEMENT**: in what a template is expanded to, every percent sign begins a triplet.  An
    expression writes unreserved characters, triplets, commas, equals signs, and the separator and
    the lead of its operator; with two operators, reserved characters too.  It is spelled from the
    data of its variables, nested at will.  Each datum is encoded as a whole, and each of its
    triplets is written large and belongs to one byte of a code point whose other bytes are there as
    well; if it is a character, this is what they are decoded as.  A length cuts between code
    points, before encoding. -/
theorem render_confined {config : Config} {source : Text} {t : Template}
    (h : parse config source = .ok t) (env : Environment) :
    Percent.IsComplete (t.render env) ∧
    ∀ e ∈ t.expressions,
      let text := e.render t.config.keywordLists env
      let data := e.data t.config.keywordLists env
      let escaping := e.operator.style.escaping
      (∀ c ∈ text, e.operator.mayWrite c = true) ∧ Percent.IsComplete text ∧ e.Spells data text ∧
      (∀ s ∈ data, ∀ before after, Percent.encode escaping s = before ++ .char '%' :: after →
        ∃ high low rest, after = high :: low :: rest ∧ Hex.isUpper high = true ∧
          Hex.isUpper low = true ∧ Percent.IsEscaped escaping s before high low rest) ∧
      ∀ v ∈ e.specs, ∀ s, ∃ rest, s = v.cut s ++ rest ∧
        Percent.encode escaping s
          = Percent.encode escaping (v.cut s) ++ Percent.encode escaping rest := by
  have hnormal := (areNormal_of_parse h).2.2.1
  have hnames : ∀ e ∈ t.expressions, ∀ v ∈ e.specs, VarSpec.isName v.name = true :=
    fun e he v hv => ((areWellFormed_of_parse h e he).2 v hv).1
  have hspells := fun e : Expression => e.spells_render t.config.keywordLists env
  refine ⟨Percent.isComplete_flatMap fun segment hsegment => ?_, fun e he => ⟨?_, ?_, ?_, ?_, ?_⟩⟩
  · cases segment with
    | literal text => exact Percent.isComplete_of_mem_literal (hnormal.each _ hsegment).2
    | expression e =>
        have he : e ∈ t.expressions := List.mem_filterMap.2 ⟨_, hsegment, rfl⟩
        exact (hspells e).isComplete (hnames e he)
  · exact (hspells e).mayWrite (hnames e he)
  · exact (hspells e).isComplete (hnames e he)
  · exact hspells e
  · intro s _ before after hs
    obtain ⟨high, low, rest, hafter, hescaped⟩ := Percent.isEscaped_of_encode_eq hs
    exact ⟨high, low, rest, hafter, hescaped.isUpper.1, hescaped.isUpper.2, hescaped⟩
  · intro v _ s
    obtain ⟨rest, hs, hencode⟩ := v.exists_cut_append s
    exact ⟨rest, hs, hencode _⟩

/-- The name keeps its small digits; the text is cut before its third character. -/
theorem render_confined_cut :
    let e : Expression := ⟨.query, [⟨"%c3%a9".toText, false, some 2⟩]⟩
    let t : Template := .mk "/{?%c3%a9:2}".toText [.literal "/".toText, .expression e]
      ⟨true, false⟩
    let env : Environment := [("%c3%a9".toText, .scalar (.text "é&=".toText))]
    parse ⟨true, false⟩ "/{?%c3%a9:2}".toText = .ok t ∧
    t.render env = "/?%c3%a9=%C3%A9%26".toText ∧ Percent.IsComplete (t.render env) ∧
    e.Spells ["é&".toText] "?%c3%a9=%C3%A9%26".toText := by
  intro e t env
  have hparse : parse ⟨true, false⟩ "/{?%c3%a9:2}".toText = .ok t := by decide +kernel
  have hdata : e.data true env = ["é&".toText] := by decide
  have hrender : e.render true env = "?%c3%a9=%C3%A9%26".toText := by decide
  obtain ⟨hcomplete, hexpressions⟩ := render_confined hparse env
  have hspells := (hexpressions e List.mem_cons_self).2.2.1
  rw [hdata, hrender] at hspells
  exact ⟨hparse, by decide, hcomplete, hspells⟩

end Template

end UriTemplate
