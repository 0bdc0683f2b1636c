import UriTemplate.Expansion
import UriTemplate.Match.Part
import UriTemplate.Proofs.RoundTrip.Alphabet
import UriTemplate.Proofs.Template.WellFormed

/-! # Written parts — an expansion, part by part

    Matching works on the parts of a template, in which continuations have joined
    the query before them; expansion works on its segments.  The two agree on what is
    written:

    * `Template.segments_of_parts` — the parts of a template are its segments,
      regrouped;
    * `Template.render_eq` — so an expansion is what the parts write, in a row;
    * `Pattern.render_eq_nil_or` — a pattern writes nothing, or its lead and a row of
      texts with its separator between them, whichever expressions they come from. -/

namespace UriTemplate

/-! ## Texts in a row -/

/-- A row goes on with separators. -/
theorem intercalate_cons (sep : CodePoint) (s : Text) (texts : List Text) :
    List.intercalate [sep] (s :: texts) = s ++ texts.flatMap (sep :: ·) := by
  induction texts generalizing s with
  | nil => rw [List.intercalate_singleton, List.flatMap_nil, List.append_nil]
  | cons t texts ih =>
      rw [List.intercalate_cons_cons, ih, List.flatMap_cons, List.append_assoc,
        List.singleton_append, List.cons_append]

/-- A row with a separator before each text. -/
theorem flatMap_cons_eq (sep : CodePoint) {texts : List Text} (h : texts ≠ []) :
    texts.flatMap (sep :: ·) = sep :: List.intercalate [sep] texts := by
  match texts, h with
  | s :: texts, _ => rw [intercalate_cons, List.flatMap_cons, List.cons_append]

theorem intercalate_append (sep : CodePoint) {texts : List Text} (h : texts ≠ [])
    (more : List Text) : List.intercalate [sep] (texts ++ more)
      = List.intercalate [sep] texts ++ more.flatMap (sep :: ·) := by
  match texts, h with
  | s :: texts, _ =>
      rw [List.cons_append, intercalate_cons, intercalate_cons, List.flatMap_append,
        List.append_assoc]

/-! ## Patterns and their expressions -/

/-- The operator whose items are laid out so. -/
def ItemLayout.operator : ItemLayout → Operator
  | commas => .simple
  | slashes => .pathSegment

/-- The operator that a query begins with. -/
def QueryLead.operator : QueryLead → Operator
  | question => .query
  | ampersand => .continuation

namespace Pattern

/-- The expressions that a pattern is made of. -/
def expressions : Pattern → List Expression
  | items layout specs => [⟨layout.operator, specs⟩]
  | query _ [] => []
  | query lead (specs :: groups) => ⟨lead.operator, specs⟩ :: groups.map (⟨.continuation, ·⟩)

/-- The variables of a pattern. -/
def specs : Pattern → List VarSpec
  | items _ specs => specs
  | query _ groups => groups.flatten

theorem specs_eq (p : Pattern) : p.specs = p.expressions.flatMap Expression.specs := by
  match p with
  | items _ specs => exact (List.append_nil specs).symm
  | query _ [] => rfl
  | query _ (specs :: groups) =>
      rw [expressions, List.flatMap_cons, List.flatMap_map]
      exact congrArg (specs ++ ·) List.flatMap_id'.symm

/-- What a pattern writes. -/
def render (keywordLists : Bool) (env : Environment) (p : Pattern) : Text :=
  p.expressions.flatMap fun e => e.render keywordLists env

end Pattern

/-- Segments are made into parts one by one. -/
theorem Segment.toParts_cons_eq_ok {s : Segment} {later : List Segment} {parts : List Part} :
    toParts (s :: later) = .ok parts ↔
      ∃ part rest, s.toPart = .ok part ∧ toParts later = .ok rest ∧ parts = part :: rest := by
  rw [toParts]
  cases s.toPart with
  | error operator => exact ⟨nofun, fun ⟨_, _, h, _⟩ => nomatch h⟩
  | ok part =>
      cases toParts later with
      | error operator => exact ⟨nofun, fun ⟨_, _, _, h, _⟩ => nomatch h⟩
      | ok rest =>
          constructor
          · intro h
            exact ⟨part, rest, rfl, rfl, (Except.ok.inj h).symm⟩
          · rintro ⟨_, _, hpart, hrest, rfl⟩
            rw [← Except.ok.inj hpart, ← Except.ok.inj hrest]
            rfl

namespace Part

/-- The segments that a part is made of. -/
def segments : Part → List Segment
  | literal text => [.literal text]
  | pattern p => p.expressions.map .expression

/-- What a part writes. -/
def render (keywordLists : Bool) (env : Environment) : Part → Text
  | literal text => text
  | pattern p => p.render keywordLists env

/-- Does a query have variables of at least one expression? -/
def HasGroups : Part → Prop
  | pattern (.query _ groups) => groups ≠ []
  | _ => True

/-- A segment is made into a part of itself alone. -/
theorem segments_of_toPart {s : Segment} {part : Part} (h : s.toPart = .ok part) :
    part.segments = [s] ∧ part.HasGroups := by
  cases s with
  | literal text =>
      obtain rfl := Except.ok.inj h
      exact ⟨rfl, trivial⟩
  | expression e =>
      obtain ⟨operator, specs⟩ := e
      cases operator with
      | simple | pathSegment =>
          obtain rfl := Except.ok.inj h
          exact ⟨rfl, trivial⟩
      | query | continuation =>
          obtain rfl := Except.ok.inj h
          exact ⟨rfl, List.cons_ne_nil specs []⟩
      | reserved | fragment | label | pathParameter => exact nomatch h

theorem segments_of_toParts {segments : List Segment} {parts : List Part}
    (h : Segment.toParts segments = .ok parts) :
    parts.flatMap Part.segments = segments ∧ ∀ part ∈ parts, part.HasGroups := by
  induction segments generalizing parts with
  | nil =>
      obtain rfl := Except.ok.inj h
      exact ⟨rfl, fun part hp => (List.not_mem_nil hp).elim⟩
  | cons s segments ih =>
      obtain ⟨part, later, hs, hlater, rfl⟩ := Segment.toParts_cons_eq_ok.1 h
      obtain ⟨hself, hgroups⟩ := segments_of_toPart hs
      obtain ⟨hrest, hall⟩ := ih hlater
      exact ⟨by rw [List.flatMap_cons, hself, hrest, List.singleton_append],
        List.forall_mem_cons.2 ⟨hgroups, hall⟩⟩

/-- Joining continuations to a query regroups the segments only. -/
theorem segments_gather {parts : List Part} (h : ∀ part ∈ parts, part.HasGroups) :
    (gather parts).flatMap segments = parts.flatMap segments ∧
      ∀ part ∈ gather parts, part.HasGroups := by
  fun_induction gather parts with
  | case1 => exact ⟨rfl, fun part hp => (List.not_mem_nil hp).elim⟩
  | case2 lead groups parts later rest hgather ih =>
      obtain ⟨hgroups, hparts⟩ := List.forall_mem_cons.1 h
      obtain ⟨hsegments, hall⟩ := ih hparts
      rw [hgather] at hsegments hall
      obtain ⟨hlater, hrest⟩ := List.forall_mem_cons.1 hall
      match groups, hgroups, later, hlater with
      | g :: groups, _, l :: later, _ =>
          refine ⟨?_, List.forall_mem_cons.2 ⟨List.cons_ne_nil _ _, hrest⟩⟩
          rw [List.flatMap_cons, List.flatMap_cons, ← hsegments, List.flatMap_cons,
            ← List.append_assoc]
          congr 1
          simp [segments, Pattern.expressions, QueryLead.operator]
  | case3 lead groups parts hnone ih =>
      obtain ⟨hgroups, hparts⟩ := List.forall_mem_cons.1 h
      obtain ⟨hsegments, hall⟩ := ih hparts
      exact ⟨by rw [List.flatMap_cons, List.flatMap_cons, hsegments],
        List.forall_mem_cons.2 ⟨hgroups, hall⟩⟩
  | case4 part parts hnone ih =>
      obtain ⟨hpart, hparts⟩ := List.forall_mem_cons.1 h
      obtain ⟨hsegments, hall⟩ := ih hparts
      exact ⟨by rw [List.flatMap_cons, List.flatMap_cons, hsegments],
        List.forall_mem_cons.2 ⟨hpart, hall⟩⟩

end Part

namespace Template

/-- **REGROUPING**: the parts of a template are its segments in groups. -/
theorem segments_of_parts {t : Template} {parts : List Part} (h : t.parts = .ok parts) :
    parts.flatMap Part.segments = t.segments := by
  rw [Template.parts] at h
  cases hparts : Segment.toParts t.segments with
  | error operator =>
      rw [hparts] at h
      exact nomatch h
  | ok found =>
      rw [hparts] at h
      obtain rfl := Except.ok.inj h
      obtain ⟨hsegments, hgroups⟩ := Part.segments_of_toParts hparts
      rw [(Part.segments_gather hgroups).1, hsegments]

/-- The parts of a template have variables of at least one expression each. -/
theorem hasGroups_of_parts {t : Template} {parts : List Part} (h : t.parts = .ok parts) :
    ∀ part ∈ parts, part.HasGroups := by
  rw [Template.parts] at h
  split at h
  · next found hfound =>
      obtain rfl := Except.ok.inj h
      exact (Part.segments_gather (Part.segments_of_toParts hfound).2).2
  · cases h

/-- The expressions of a pattern are expressions of the template. -/
theorem mem_expressions_of_parts {t : Template} {parts : List Part} (hparts : t.parts = .ok parts)
    {p : Pattern} (hp : .pattern p ∈ parts) {e : Expression} (he : e ∈ p.expressions) :
    e ∈ t.expressions := by
  refine List.mem_filterMap.2 ⟨.expression e, ?_, rfl⟩
  rw [← segments_of_parts hparts]
  exact List.mem_flatMap.2 ⟨.pattern p, hp, List.mem_map_of_mem he⟩

/-- The variables of a pattern stand in expressions of the template. -/
theorem exists_expression_of_parts {t : Template} {parts : List Part}
    (hparts : t.parts = .ok parts) {p : Pattern} (hp : .pattern p ∈ parts) {v : VarSpec}
    (hv : v ∈ p.specs) : ∃ e ∈ p.expressions, v ∈ e.specs ∧ e ∈ t.expressions := by
  rw [Pattern.specs_eq] at hv
  obtain ⟨e, he, hv⟩ := List.mem_flatMap.1 hv
  exact ⟨e, he, hv, mem_expressions_of_parts hparts hp he⟩

/-- The variables of a pattern of a template that was read are well formed. -/
theorem isValid_of_parts {config : Config} {source : Text} {t : Template} {parts : List Part}
    (hparse : parse config source = .ok t) (hparts : t.parts = .ok parts) {p : Pattern}
    (hp : .pattern p ∈ parts) : ∀ v ∈ p.specs, v.IsValid := by
  intro v hv
  obtain ⟨e, -, hv, he⟩ := exists_expression_of_parts hparts hp hv
  exact (areWellFormed_of_parse hparse e he).valid v hv

/-- An expansion is what the parts write. -/
theorem render_eq {t : Template} {parts : List Part} (h : t.parts = .ok parts)
    (env : Environment) :
    t.render env = parts.flatMap (Part.render t.config.keywordLists env) := by
  rw [Template.render, ← segments_of_parts h, List.flatMap_assoc]
  congr 1
  funext part
  cases part with
  | literal text => exact List.append_nil text
  | pattern p => rw [Part.segments, List.flatMap_map]; rfl

end Template

/-! ## Rows -/

namespace Expression

variable {keywordLists : Bool} {env : Environment}

theorem render_eq_nil {e : Expression} (h : e.parts keywordLists env = []) :
    e.render keywordLists env = [] := by
  rw [render, h]

theorem render_eq_of_ne_nil {e : Expression} (h : e.parts keywordLists env ≠ []) :
    e.render keywordLists env = e.operator.style.lead.toList ++
      List.intercalate [e.operator.style.separator] (e.parts keywordLists env) := by
  rw [render]
  split
  · next hnil => exact absurd hnil h
  · rfl

/-- A continuation writes an ampersand before each of its parts. -/
theorem render_continuation (specs : List VarSpec) :
    (⟨.continuation, specs⟩ : Expression).render keywordLists env
      = ((⟨.continuation, specs⟩ : Expression).parts keywordLists env).flatMap
        (.char '&' :: ·) := by
  by_cases h : (⟨.continuation, specs⟩ : Expression).parts keywordLists env = []
  · rw [render_eq_nil h, h, List.flatMap_nil]
  · rw [render_eq_of_ne_nil h, flatMap_cons_eq _ h]
    rfl

end Expression

namespace Pattern

variable (keywordLists : Bool) (env : Environment)

/-- The style in which a pattern writes its texts. -/
def style : Pattern → Style
  | items layout _ => layout.operator.style
  | query lead _ => lead.operator.style

/-- The texts that the variables of a pattern contribute. -/
def row (p : Pattern) : List Text :=
  p.expressions.flatMap fun e => e.parts keywordLists env

/-- What a row can begin with. -/
def leads : Pattern → List Text
  | items layout _ => [layout.operator.style.lead.toList]
  | query _ _ => [['?'], ['&']]

/-- **SHAPE**: a pattern writes nothing, or its lead and a row with its separator. -/
theorem render_eq_nil_or (p : Pattern) :
    (p.row keywordLists env = [] ∧ p.render keywordLists env = []) ∨
    (p.row keywordLists env ≠ [] ∧ ∃ lead ∈ p.leads, p.render keywordLists env
      = lead ++ List.intercalate [p.style.separator] (p.row keywordLists env)) := by
  match p with
  | items layout specs =>
      let e : Expression := ⟨layout.operator, specs⟩
      rw [row, render, expressions, List.flatMap_singleton, List.flatMap_singleton]
      by_cases h : e.parts keywordLists env = []
      · exact Or.inl ⟨h, Expression.render_eq_nil h⟩
      · exact Or.inr ⟨h, _, List.mem_singleton_self _, Expression.render_eq_of_ne_nil h⟩
  | query _ [] => exact Or.inl ⟨rfl, rfl⟩
  | query lead (specs :: groups) =>
      let first : Expression := ⟨lead.operator, specs⟩
      let later : List Text :=
        groups.flatMap fun g => (⟨.continuation, g⟩ : Expression).parts keywordLists env
      have hrow : (query lead (specs :: groups)).row keywordLists env
          = first.parts keywordLists env ++ later := by
        rw [row, expressions, List.flatMap_cons, List.flatMap_map]
      have hrender : (query lead (specs :: groups)).render keywordLists env
          = first.render keywordLists env ++ later.flatMap (.char '&' :: ·) := by
        rw [render, expressions, List.flatMap_cons, List.flatMap_map, List.flatMap_assoc]
        simp only [Expression.render_continuation]
        rfl
      have hseparator : (query lead (specs :: groups)).style.separator = '&' := by
        cases lead <;> rfl
      have hlead : first.operator.style.lead.toList ∈ (query lead (specs :: groups)).leads := by
        cases lead
        · exact List.mem_cons_self
        · exact List.mem_cons_of_mem _ List.mem_cons_self
      rw [hrow, hrender, hseparator]
      by_cases h : first.parts keywordLists env = []
      · rw [Expression.render_eq_nil h, h, List.nil_append, List.nil_append]
        by_cases hlater : later = []
        · rw [hlater]
          exact Or.inl ⟨rfl, rfl⟩
        · exact Or.inr ⟨hlater, ['&'], List.mem_cons_of_mem _ List.mem_cons_self,
            flatMap_cons_eq '&' hlater⟩
      · refine Or.inr ⟨List.append_ne_nil_of_left_ne_nil h later, _, hlead, ?_⟩
        rw [Expression.render_eq_of_ne_nil h, intercalate_append '&' h, List.append_assoc]
        cases lead <;> rfl

end Pattern

end UriTemplate
