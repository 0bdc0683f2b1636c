import UriTemplate.Template.Parse
import UriTemplate.Template.VarSpec.Lemmas

/-! # Well-formed templates — what reading guarantees

    An expression that was read has at least one variable, and its variables are
    well formed.  The guarantee goes from a node to the nodes of a text
    (`Node.isWellFormed_scan`), from there to segments (`Segment.isWellFormed_ofNodes`)
    and to the whole template (`Template.isWellFormed_of_parse`). -/

namespace UriTemplate

/-- What is between two braces: one variable or more, all well formed. -/
structure AreWellFormed (specs : List VarSpec) : Prop where
  nonempty : specs ≠ []
  valid : ∀ v ∈ specs, v.IsValid

namespace Node

/-- Well-formed variables, in a node that has any. -/
def IsWellFormed : Node → Prop
  | literal _ _ => True
  | expression _ specs _ => AreWellFormed specs

/-- Variables read one by one are well formed. -/
theorem areWellFormed_of_mapM {pieces : List Text} {specs : List VarSpec} (hne : pieces ≠ [])
    (h : pieces.mapM VarSpec.ofText? = some specs) : AreWellFormed specs := by
  refine ⟨ne_nil_of_mapM hne h, ?_⟩
  clear hne
  induction pieces generalizing specs with
  | nil =>
      obtain rfl : specs = [] := by simpa [eq_comm] using h
      exact fun v hv => (List.not_mem_nil hv).elim
  | cons piece pieces ih =>
      rw [List.mapM_cons] at h
      obtain ⟨v, hv, h⟩ := Option.bind_eq_some_iff.1 h
      obtain ⟨vs, hvs, h⟩ := Option.bind_eq_some_iff.1 h
      obtain rfl : v :: vs = specs := Option.some.inj h
      exact List.forall_mem_cons.2 ⟨(VarSpec.isValid_toText_of_ofText? hv).1, ih hvs⟩

/-- An expression that is read has well-formed variables. -/
theorem isWellFormed_of_next? {offset : Nat} {s rest : Text} {n : Node}
    (h : next? offset s = some (n, rest)) : n.IsWellFormed := by
  rcases next?_cases h with ⟨kind, text, rfl⟩ | ⟨sigil, specs, pieces, rfl, hne, hspecs⟩
  · trivial
  · exact areWellFormed_of_mapM hne hspecs

/-- All nodes that are read are well formed. -/
theorem isWellFormed_scan (offset : Nat) (s : Text) : ∀ n ∈ (scan offset s).1, n.IsWellFormed :=
  forall_mem_scan isWellFormed_of_next? offset s

end Node

namespace Segment

/-- Well-formed variables, in a segment that has any. -/
def IsWellFormed : Segment → Prop
  | literal _ => True
  | expression e => AreWellFormed e.specs

/-- Well-formed nodes become well-formed segments. -/
theorem isWellFormed_ofNodes {source : Text} {nodes : List Node} {segments : List Segment}
    (hnodes : ∀ n ∈ nodes, n.IsWellFormed) (h : ofNodes source nodes = .ok segments) :
    ∀ s ∈ segments, s.IsWellFormed :=
  forall_mem_of_ofNodes (fun _ => trivial) (fun _ _ _ _ hspecs => hspecs) hnodes h

end Segment

namespace Template

/-- A template is read when nothing remains and the nodes become segments. -/
theorem parse_eq_ok_iff_segments {config : Config} {text : Text} {t : Template} :
    parse config text = .ok t ↔ t.source = text ∧ t.config = config ∧
      (Node.recognize text).2 = [] ∧
      Segment.ofNodes text (Node.recognize text).1 = .ok t.segments := by
  rw [parse_eq_ok_iff_read, Segment.read]
  obtain ⟨nodes, remaining⟩ := Node.recognize text
  cases remaining with
  | cons c remaining => simp
  | nil => simp

/-- **WELL-FORMEDNESS**: the segments of a template that was read are well formed. -/
theorem isWellFormed_of_parse {config : Config} {source : Text} {t : Template}
    (h : parse config source = .ok t) : ∀ s ∈ t.segments, s.IsWellFormed := by
  obtain ⟨-, -, -, hsegments⟩ := parse_eq_ok_iff_segments.1 h
  exact Segment.isWellFormed_ofNodes (Node.isWellFormed_scan 0 source) hsegments

/-- So are the variables of its expressions. -/
theorem areWellFormed_of_parse {config : Config} {source : Text} {t : Template}
    (h : parse config source = .ok t) : ∀ e ∈ t.expressions, AreWellFormed e.specs := by
  intro e he
  obtain ⟨s, hs, hexpression⟩ := List.mem_filterMap.1 he
  have hs := isWellFormed_of_parse h s hs
  cases s with
  | literal text => cases hexpression
  | expression e =>
      cases hexpression
      exact hs

end Template

end UriTemplate
