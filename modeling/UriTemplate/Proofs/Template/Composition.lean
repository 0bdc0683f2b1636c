import UriTemplate.Proofs.Matching.Names
import UriTemplate.Proofs.Template.Printing

/-! # Composition — templates side by side

    Two texts that are templates make a template, one behind the other.  Its segments are
    those of the first and then those of the second (`Segment.fuse`): all that can change is
    that a literal at the end of the first and one at the beginning of the second become one
    literal.  Fused segments are normal where both sides are (`Segment.AreNormal.fuse`), and
    normal segments are known from their text; so nothing has to be said about how the two
    texts are read, only about how segments are written.

    What is collected from segments in order, and does not tell one literal from two, is
    collected from the two sides one after the other (`Segment.flatMap_fuse`): the text, an
    expansion, the variables.

    * **`Template.parse_append`** — a template of two texts. -/

namespace UriTemplate

open scoped Computability

namespace Segment

/-- Segments side by side: a literal that ends the first and a literal that begins the second
    are one literal. -/
def fuse (first second : List Segment) : List Segment :=
  match first.getLast?, second with
  | some (.literal text), .literal next :: later =>
      first.dropLast ++ .literal (text ++ next) :: later
  | _, _ => first ++ second

/-- Either two literals meet, or the segments stay as they are. -/
theorem fuse_cases (first second : List Segment) :
    (∃ before text next later, first = before ++ [.literal text] ∧
      second = .literal next :: later ∧
      fuse first second = before ++ .literal (text ++ next) :: later) ∨
    (∀ s ∈ first.getLast?, ∀ t ∈ second.head?, s.IsLiteral → ¬ t.IsLiteral) ∧
      fuse first second = first ++ second := by
  unfold fuse
  split
  · next text next later hlast =>
      left
      exact ⟨first.dropLast, text, next, later,
        (List.dropLast_append_getLast? _ hlast).symm, rfl, rfl⟩
  · next hmeet =>
      right
      refine ⟨?_, rfl⟩
      intro s hs t ht hsliteral htliteral
      cases s with
      | expression e => exact hsliteral
      | literal text =>
          cases t with
          | expression e => exact htliteral
          | literal next =>
              obtain ⟨later, rfl⟩ := List.head?_eq_some_iff.1 ht
              exact hmeet text next later hs rfl

/-- What does not tell a literal from its two halves is collected from one side and then from
    the other. -/
theorem flatMap_fuse {α : Type} {f : Segment → List α}
    (hf : ∀ s t : Text, f (.literal (s ++ t)) = f (.literal s) ++ f (.literal t))
    (first second : List Segment) :
    (fuse first second).flatMap f = first.flatMap f ++ second.flatMap f := by
  rcases fuse_cases first second with ⟨before, text, next, later, rfl, rfl, heq⟩ | ⟨-, heq⟩
  · rw [heq]
    simp [hf]
  · rw [heq, List.flatMap_append]

/-- The text of the two sides. -/
theorem flatMap_toText_fuse (first second : List Segment) :
    (fuse first second).flatMap toText = first.flatMap toText ++ second.flatMap toText :=
  flatMap_fuse (fun _ _ => rfl) first second

/-- **NORMAL SIDES** make normal segments. -/
theorem AreNormal.fuse {first second : List Segment} (hfirst : AreNormal first)
    (hsecond : AreNormal second) : AreNormal (Segment.fuse first second) := by
  rcases fuse_cases first second with ⟨before, text, next, later, rfl, rfl, heq⟩ | ⟨hmeet, heq⟩
  · -- the fused literal stands where both halves stood, and has the neighbours of both
    rw [heq]
    obtain ⟨hbefore, htext⟩ := List.forall_mem_append.1 hfirst.each
    obtain ⟨hne, hmem⟩ : (literal text).IsNormal := htext _ List.mem_cons_self
    obtain ⟨⟨-, hnext⟩, hlater⟩ := hsecond.of_cons
    constructor
    · intro s hs
      rcases List.mem_append.1 hs with hs | hs
      · exact hbefore s hs
      · rcases List.mem_cons.1 hs with rfl | hs
        · exact ⟨List.append_ne_nil_of_left_ne_nil hne next, Grammar.append_mem_kstar hmem hnext⟩
        · exact hlater.each s hs
    · obtain ⟨hleft, -, hlast⟩ := List.isChain_append.1 hfirst.apart
      obtain ⟨hhead, hright⟩ := List.isChain_cons.1 hsecond.apart
      refine List.isChain_append.2 ⟨hleft, List.isChain_cons.2 ⟨hhead, hright⟩, ?_⟩
      intro s hs t ht
      obtain rfl : literal (text ++ next) = t := Option.some.inj ht
      exact hlast s hs (literal text) rfl
  · rw [heq]
    exact ⟨List.forall_mem_append.2 ⟨hfirst.each, hsecond.each⟩,
      List.isChain_append.2 ⟨hfirst.apart, hsecond.apart, hmeet⟩⟩

end Segment

namespace Template

variable {config : Config} {first second : Text} {t u : Template}

/-- The variables of fused segments are those of one side and then those of the other. -/
theorem specs_fuse {both : Template}
    (h : both.segments = Segment.fuse t.segments u.segments) : both.specs = t.specs ++ u.specs := by
  simp only [specs, expressions, h, List.filterMap_eq_flatMap_toList, List.flatMap_assoc]
  exact Segment.flatMap_fuse (fun _ _ => rfl) t.segments u.segments

/-- **SIDE BY SIDE**: two texts that are templates make a template.  Its segments are those of the
    first and then those of the second, it is expanded to the two expansions, and it has the names
    of the first and then the new names of the second. -/
theorem parse_append (ht : parse config first = .ok t) (hu : parse config second = .ok u) :
    ∃ both : Template, parse config (first ++ second) = .ok both ∧
      both.segments = Segment.fuse t.segments u.segments ∧
      (∀ env, both.render env = t.render env ++ u.render env) ∧
      both.variableNames
        = t.variableNames ++ u.variableNames.filter (· ∉ t.variableNames) := by
  obtain ⟨-, htconfig, htnormal, httext⟩ := areNormal_of_parse ht
  obtain ⟨-, huconfig, hunormal, hutext⟩ := areNormal_of_parse hu
  obtain ⟨both, hparse, hsegments⟩ := parse_of_areNormal config (htnormal.fuse hunormal)
  rw [Segment.flatMap_toText_fuse, httext, hutext] at hparse
  have hconfig := (areNormal_of_parse hparse).2.1
  refine ⟨both, hparse, hsegments, ?_, ?_⟩
  · intro env
    simp only [render, hconfig, htconfig, huconfig, hsegments]
    exact Segment.flatMap_fuse (fun _ _ => rfl) t.segments u.segments
  · simp only [variableNames_eq, specs_fuse hsegments, List.map_append, Text.distinct_append,
      Text.mem_distinct]

/-- Literals of several kinds that meet, a percent sign among them, and a name that is repeated,
    with what an environment makes of the two sides and of the whole. -/
theorem parse_append_fused :
    let a : VarSpec := ⟨"a".toText, false, none⟩
    let b : VarSpec := ⟨"b".toText, true, none⟩
    let t : Template :=
      .mk "\x7ba\x7dx%41".toText [.expression ⟨.simple, [a]⟩, .literal "x%41".toText] ⟨true, false⟩
    let u : Template :=
      .mk "%42é\x7b/b*,a\x7d".toText [.literal "%42é".toText, .expression ⟨.pathSegment, [b, a]⟩]
        ⟨true, false⟩
    let env : Environment :=
      [("a".toText, .scalar (.int 1)),
        ("b".toText, .list [.scalar (.text "/".toText), .scalar .null, .scalar (.text "y".toText)])]
    parse ⟨true, false⟩ t.source = .ok t ∧ parse ⟨true, false⟩ u.source = .ok u ∧
    ∃ both : Template, parse ⟨true, false⟩ "\x7ba\x7dx%41%42é\x7b/b*,a\x7d".toText = .ok both ∧
      both.segments = [.expression ⟨.simple, [a]⟩, .literal "x%41%42é".toText,
        .expression ⟨.pathSegment, [b, a]⟩] ∧
      (∀ env, both.render env = t.render env ++ u.render env) ∧
      (t.render env = "1x%41".toText ∧ u.render env = "%42é/%2F/y/1".toText ∧
        both.render env = "1x%41%42é/%2F/y/1".toText) ∧
      both.variableNames = ["a".toText, "b".toText] := by
  intro a b t u env
  have ht : parse ⟨true, false⟩ t.source = .ok t := by decide +kernel
  have hu : parse ⟨true, false⟩ u.source = .ok u := by decide +kernel
  obtain ⟨both, hparse, hsegments, hrender, hnames⟩ := parse_append ht hu
  have hfirst : t.render env = "1x%41".toText := by decide
  have hsecond : u.render env = "%42é/%2F/y/1".toText := by decide
  refine ⟨ht, hu, both, hparse, hsegments, hrender, ⟨hfirst, hsecond, ?_⟩, hnames⟩
  rw [hrender, hfirst, hsecond]
  rfl

end Template

end UriTemplate
