import UriTemplate.Log
import UriTemplate.Template.Node

/-! # Reading templates — from nodes to segments

    A text is a template when all of it can be read as nodes and no expression has
    a sigil that is set aside.  Neighbouring literals become one segment.  A part
    that cannot be read is reported before a sigil, wherever the two stand.

    An expression is read with one variable for each piece between its commas, and
    there is always a piece; so a template has no expression without variables. -/

namespace UriTemplate

namespace Node

/-- Does an expression have one variable or more? -/
def HasVariables : Node → Prop
  | literal _ _ => True
  | expression _ specs _ => specs ≠ []

/-- There is a variable for each text. -/
theorem ne_nil_of_mapM {pieces : List Text} {specs : List VarSpec} (hne : pieces ≠ [])
    (h : pieces.mapM VarSpec.ofText? = some specs) : specs ≠ [] := by
  cases pieces with
  | nil => exact absurd rfl hne
  | cons piece pieces =>
      rw [List.mapM_cons] at h
      obtain ⟨v, -, h⟩ := Option.bind_eq_some_iff.1 h
      obtain ⟨later, -, h⟩ := Option.bind_eq_some_iff.1 h
      obtain rfl : v :: later = specs := Option.some.inj h
      exact List.cons_ne_nil v later

/-- What is read first is a literal, or an expression with the variables of its pieces. -/
theorem next?_cases {offset : Nat} {s rest : Text} {n : Node}
    (h : next? offset s = some (n, rest)) :
    (∃ kind text, n = .literal kind text) ∨
    ∃ sigil specs, ∃ pieces : List Text, n = .expression sigil specs offset ∧ pieces ≠ [] ∧
      pieces.mapM VarSpec.ofText? = some specs := by
  unfold next? at h
  split at h
  · cases h
  · rw [expression?] at h
    split at h
    · cases h
    · next inside after hcut =>
        obtain ⟨specs, hspecs, he⟩ := Option.map_eq_some_iff.1 h
        obtain ⟨rfl, -⟩ := Prod.mk.inj he
        exact Or.inr ⟨_, specs, _, rfl, List.splitOnP_ne_nil _ _, hspecs⟩
  · obtain ⟨kind, -, hk⟩ := List.exists_of_findSome?_eq_some h
    split at hk
    · cases hk
    · obtain ⟨rfl, -⟩ := Prod.mk.inj (Option.some.inj hk)
      exact Or.inl ⟨_, _, rfl⟩

/-- What holds of every node that can be read first holds of all nodes of a text. -/
theorem forall_mem_scan {P : Node → Prop}
    (h : ∀ {offset s n rest}, next? offset s = some (n, rest) → P n) (offset : Nat) (s : Text) :
    ∀ n ∈ (scan offset s).1, P n := by
  fun_induction scan offset s with
  | case1 => exact fun n hn => (List.not_mem_nil hn).elim
  | case2 offset s n rest hnext hlt nodes remaining hscan ih =>
      rw [hscan] at ih
      exact List.forall_mem_cons.2 ⟨h hnext, ih⟩

/-- An expression that is read has variables. -/
theorem hasVariables_of_next? {offset : Nat} {s rest : Text} {n : Node}
    (h : next? offset s = some (n, rest)) : n.HasVariables := by
  rcases next?_cases h with ⟨kind, text, rfl⟩ | ⟨sigil, specs, pieces, rfl, hne, hspecs⟩
  · trivial
  · exact ne_nil_of_mapM hne hspecs

end Node

namespace Segment

/-- The segments of the nodes of `source`, unless one has a sigil set aside. -/
def ofNodes (source : Text) : List Node → Except ParseError (List Segment)
  | [] => .ok []
  | .literal _ text :: nodes => (ofNodes source nodes).map (prepend text)
  | .expression sigil specs offset :: nodes =>
      match Operator.ofSigil? sigil with
      | none => .error ⟨.reservedSigil sigil.toList, source.drop offset⟩
      | some operator => (ofNodes source nodes).map (expression ⟨operator, specs⟩ :: ·)

/-- A literal goes in front of the segments of the nodes behind it. -/
theorem ofNodes_literal_eq_ok {source text : Text} {kind : LiteralKind} {nodes : List Node}
    {segments : List Segment} :
    ofNodes source (.literal kind text :: nodes) = .ok segments ↔
      ∃ rest, ofNodes source nodes = .ok rest ∧ prepend text rest = segments := by
  rw [ofNodes]
  cases ofNodes source nodes with
  | error e =>
      constructor
      · intro h
        cases h
      · rintro ⟨_, h, -⟩
        cases h
  | ok rest =>
      constructor
      · intro h
        exact ⟨rest, rfl, Except.ok.inj h⟩
      · rintro ⟨_, hrest, rfl⟩
        obtain rfl := Except.ok.inj hrest
        rfl

/-- So does an expression whose sigil is an operator's. -/
theorem ofNodes_expression_eq_ok {source : Text} {sigil : Option CodePoint} {specs : List VarSpec}
    {offset : Nat} {nodes : List Node} {segments : List Segment} :
    ofNodes source (.expression sigil specs offset :: nodes) = .ok segments ↔
      ∃ op rest, Operator.ofSigil? sigil = some op ∧ ofNodes source nodes = .ok rest ∧
        expression ⟨op, specs⟩ :: rest = segments := by
  rw [ofNodes]
  cases Operator.ofSigil? sigil with
  | none =>
      constructor
      · intro h
        cases h
      · rintro ⟨_, _, h, -⟩
        cases h
  | some op =>
      cases ofNodes source nodes with
      | error e =>
          constructor
          · intro h
            cases h
          · rintro ⟨_, _, _, h, -⟩
            cases h
      | ok rest =>
          constructor
          · intro h
            exact ⟨op, rest, rfl, rfl, Except.ok.inj h⟩
          · rintro ⟨_, _, hop, hrest, rfl⟩
            obtain rfl := Option.some.inj hop
            obtain rfl := Except.ok.inj hrest
            rfl

/-- What holds of literals, and of the expressions of nodes, holds of the segments of nodes. -/
theorem forall_mem_of_ofNodes {P : Node → Prop} {Q : Segment → Prop}
    (hliteral : ∀ text, Q (.literal text))
    (hexpression : ∀ sigil specs offset op, P (.expression sigil specs offset) →
      Q (.expression ⟨op, specs⟩))
    {source : Text} {nodes : List Node} {segments : List Segment} (hnodes : ∀ n ∈ nodes, P n)
    (h : ofNodes source nodes = .ok segments) : ∀ s ∈ segments, Q s := by
  induction nodes generalizing segments with
  | nil =>
      obtain rfl := Except.ok.inj h
      exact fun s hs => (List.not_mem_nil hs).elim
  | cons n nodes ih =>
      obtain ⟨hn, hlater⟩ := List.forall_mem_cons.1 hnodes
      cases n with
      | literal kind text =>
          obtain ⟨rest, hrest, rfl⟩ := ofNodes_literal_eq_ok.1 h
          have hall := ih hlater hrest
          unfold prepend
          split
          · exact List.forall_mem_cons.2 ⟨hliteral _, (List.forall_mem_cons.1 hall).2⟩
          · exact List.forall_mem_cons.2 ⟨hliteral _, hall⟩
      | expression sigil specs offset =>
          obtain ⟨op, rest, -, hrest, rfl⟩ := ofNodes_expression_eq_ok.1 h
          exact List.forall_mem_cons.2 ⟨hexpression _ _ _ op hn, ih hlater hrest⟩

/-- The expressions of segments have the variables of the nodes. -/
theorem hasVariables_of_ofNodes {source : Text} {nodes : List Node} {segments : List Segment}
    (hnodes : ∀ n ∈ nodes, n.HasVariables) (h : ofNodes source nodes = .ok segments) :
    ∀ s ∈ segments, s.HasVariables :=
  forall_mem_of_ofNodes (fun _ => trivial) (fun _ _ _ _ hspecs => hspecs) hnodes h

/-- The segments of a text, all of which must be read. -/
def read (source : Text) : Except ParseError (List Segment) :=
  match Node.recognize source with
  | (nodes, []) => ofNodes source nodes
  | (_, remaining) => .error ⟨.malformed, remaining⟩

/-- An expression that was read has variables. -/
theorem hasVariables_of_read {source : Text} {segments : List Segment}
    (h : read source = .ok segments) : ∀ s ∈ segments, s.HasVariables := by
  have hscan := Node.forall_mem_scan Node.hasVariables_of_next? 0 source
  rw [read, Node.recognize] at h
  split at h
  · next nodes hnodes =>
      rw [hnodes] at hscan
      exact hasVariables_of_ofNodes hscan h
  · cases h

end Segment

namespace VarSpec

/-- The variable written as `s`, or why there is none. -/
def parse (s : Text) : Except ParseError VarSpec :=
  match ofText? s with
  | some v => .ok v
  | none => .error ⟨.malformedVariable, s⟩

end VarSpec

namespace Template

/-- The template that `source` is. -/
def parse (config : Config) (source : Text) : Except ParseError Template :=
  match h : Segment.read source with
  | .ok segments => .ok ⟨source, segments, config, Segment.hasVariables_of_read h⟩
  | .error e => .error e

/-- A template is what its segments are read from. -/
theorem parse_eq_ok_iff_read {config : Config} {source : Text} {t : Template} :
    parse config source = .ok t ↔
      t.source = source ∧ t.config = config ∧ Segment.read source = .ok t.segments := by
  obtain ⟨source', segments', config', hnonempty⟩ := t
  unfold parse
  split
  · next segments hread =>
      simp only [hread, Except.ok.injEq, Template.mk.injEq]
      constructor
      · rintro ⟨rfl, rfl, rfl⟩
        exact ⟨rfl, rfl, rfl⟩
      · rintro ⟨rfl, rfl, rfl⟩
        exact ⟨rfl, rfl, rfl⟩
  · next e hread => simp [hread]

/-- A text without segments is no template. -/
theorem parse_eq_error_iff_read {config : Config} {source : Text} {e : ParseError} :
    parse config source = .error e ↔ Segment.read source = .error e := by
  unfold parse
  split
  · next segments hread => simp [hread]
  · next e' hread => rw [hread, Except.error.injEq, Except.error.injEq]

/-- Read a template and report it. -/
def compile (config : Config) (source : Text) : Logged (Except ParseError Template) :=
  match parse config source with
  | .ok t => ⟨.ok t, [.compiled t.source t.segments.length]⟩
  | .error e => ⟨.error e, []⟩

end Template

end UriTemplate
