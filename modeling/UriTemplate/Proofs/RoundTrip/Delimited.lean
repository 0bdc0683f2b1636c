import Mathlib.Data.List.Nodup
import UriTemplate.Proofs.Matching.Fill
import UriTemplate.Proofs.Matching.Split
import UriTemplate.Proofs.RoundTrip.Scalars

/-! # Delimited templates — matching gives back what was expanded

    In a delimited template nothing that follows a pattern can be taken for more of
    what the pattern has written: a simple expression is followed by a literal that
    none of its characters can begin, or by a slash or the lead of a query.  So every
    pattern reaches just as far as it has written, the first end that is tried is the
    right one, and the search never turns back:

    * `Matching.solve_of_areStopped` — parts that stop where they have written;
    * `Template.exists_parts_of_isDelimited` — the parts of a delimited template do;
    * **`Template.matchUrl_render_of_isDelimited`** — so scalars are given back, all but
      those with a surrogate, which decoding does not give back either. -/

namespace UriTemplate

variable {keywordLists : Bool} {env : Environment}

/-! ## Parts that stop -/

namespace Part

/-- The variables of a part. -/
def specs : Part → List VarSpec
  | literal _ => []
  | pattern p => p.specs

/-- Does every pattern stop where it has written, whatever the parts after it have? -/
def AreStopped (keywordLists : Bool) (env : Environment) : List Part → Prop
  | [] => True
  | .literal _ :: later => AreStopped keywordLists env later
  | .pattern p :: later =>
      p.Stops (later.flatMap (Part.render keywordLists env)) ∧ AreStopped keywordLists env later

end Part

/-- Does the pattern bind what it has written to what its variables have sent? -/
structure Pattern.IsReadBack (strict keywordLists : Bool) (env : Environment) (p : Pattern) :
    Prop where
  isStretch : p.IsStretch (p.render keywordLists env)
  bind : ∀ start, p.bind strict (p.render keywordLists env) start
    = .ok (env.recovered keywordLists p.specs)

namespace Matching

/-- Where a pattern reaches just as far as it has written, the first end that is tried is right. -/
theorem solve_pattern_of_reach {strict : Bool} {p : Pattern} {later : List Part}
    {stretch rest : Text} {start : Nat} {bound found : Bindings}
    (hreach : p.reach (stretch ++ rest) = stretch.length)
    (hnext : ∀ next more, later = .literal next :: more → next <+: rest)
    (hbind : p.bind strict stretch start = .ok bound)
    (hrest : solve strict later (start + stretch.length) rest = .ok found) :
    solve strict (.pattern p :: later) start (stretch ++ rest) = .ok (bound.fill found) := by
  have hfirst : (p.cuts later (stretch ++ rest)).1 = ⟨stretch.length, rest⟩ := by
    rw [Pattern.fst_cuts_eq, Pattern.farthest, hreach, List.drop_left]
    rw [hreach, List.drop_left]
    exact hnext
  rw [solve_pattern, hfirst]
  refine firstSuccess_of_ok ?_ _
  rw [solveCut, List.take_left, hbind]
  dsimp only
  rw [hrest]
  rfl

/-- **NO TURNING BACK**: where every pattern stops, plain search takes every part for what it has
    written. -/
theorem solve_of_areStopped {strict : Bool} {parts : List Part}
    (hread : ∀ p, .pattern p ∈ parts → p.IsReadBack strict keywordLists env)
    (hstopped : Part.AreStopped keywordLists env parts)
    (hdistinct : ((parts.flatMap Part.specs).map VarSpec.name).Nodup) (start : Nat) :
    solve strict parts start (parts.flatMap (Part.render keywordLists env))
      = .ok (env.recovered keywordLists (parts.flatMap Part.specs)) := by
  induction parts generalizing start with
  | nil => rfl
  | cons part later ih =>
      have hlater : ∀ p, .pattern p ∈ later → p.IsReadBack strict keywordLists env :=
        fun p hp => hread p (List.mem_cons_of_mem part hp)
      rw [List.flatMap_cons]
      cases part with
      | literal text =>
          have hprefix : text.isPrefixOf? (text ++ later.flatMap (Part.render keywordLists env))
              = some (later.flatMap (Part.render keywordLists env)) :=
            List.isPrefixOf?_eq_some_iff_append_eq.2 rfl
          show solve strict (.literal text :: later) start (text ++ _) = _
          rw [solve, hprefix]
          exact ih hlater hstopped hdistinct _
      | pattern p =>
          obtain ⟨hstretch, hbind⟩ := hread p List.mem_cons_self
          rw [List.flatMap_cons, List.map_append] at hdistinct
          obtain ⟨-, hnames, hdisjoint⟩ := List.nodup_append.1 hdistinct
          have hrest := ih hlater hstopped.2 hnames (start + (p.render keywordLists env).length)
          have hreach := p.reach_eq_length hstretch hstopped.1
          have hnext : ∀ next more, later = .literal next :: more →
              next <+: later.flatMap (Part.render keywordLists env) := by
            rintro next more rfl
            exact List.prefix_append next _
          -- what was written is as far as the pattern reaches, which is tried first
          refine (solve_pattern_of_reach hreach hnext (hbind start) hrest).trans ?_
          refine congrArg Except.ok ((Bindings.fill_of_disjoint ?_).trans ?_)
          · -- no later part has a variable of this one
            intro name hname hname'
            simp only [OrderedMap.keys, Environment.recovered, List.map_map] at hname hname'
            exact hdisjoint name hname name hname' rfl
          · rw [Environment.recovered, Environment.recovered, ← List.map_append]
            rfl

end Matching

/-! ## Delimited templates -/

namespace Segment

/-- Literals and simple expressions, where after an expression comes nothing or a literal that
    begins with a character no simple expression writes. -/
def AreDelimited : List Segment → Prop
  | [] => True
  | .literal _ :: later => AreDelimited later
  | .expression e :: later =>
      e.operator = .simple ∧ AreDelimited later ∧
        match later with
        | [] => True
        | .literal (c :: _) :: _ => isWritten c = false
        | _ => False

/-- Nothing or a path expression. -/
def AreOptionalPath : List Segment → Prop
  | [] => True
  | [.expression e] => e.operator = .pathSegment
  | _ => False

/-- Nothing, or a query expression and continuations. -/
def AreQueryRun : List Segment → Prop
  | [] => True
  | .expression e :: later =>
      e.operator.isQuery = true ∧ ∀ s ∈ later, ∃ specs, s = .expression ⟨.continuation, specs⟩
  | _ => False

end Segment

/-- The variables of a template, in order. -/
def Template.specs (t : Template) : List VarSpec := t.expressions.flatMap Expression.specs

/-- Simple expressions between literals that delimit them, then perhaps a path expression, then
    perhaps a query; with distinct variables, none of them exploded, and names in the query that
    stand for themselves. -/
structure Template.IsDelimited (t : Template) : Prop where
  shape : ∃ body path queries, t.segments = body ++ (path ++ queries) ∧
    Segment.AreDelimited body ∧ Segment.AreOptionalPath path ∧ Segment.AreQueryRun queries
  distinct : (t.specs.map VarSpec.name).Nodup
  plain : ∀ v ∈ t.specs, v.explode = false
  decoded : ∀ e ∈ t.expressions, e.operator.isQuery = true → ∀ v ∈ e.specs, .char '%' ∉ v.name

/-- Does every variable of the expression have a defined scalar, or in a query perhaps no value?
    What is written of a scalar has no surrogates. -/
def Expression.HasScalars (e : Expression) (keywordLists : Bool) (env : Environment) : Prop :=
  ∀ v ∈ e.specs,
    (∃ s, env.value? keywordLists v.name = some (.scalar s) ∧ Text.IsWellFormed (v.cut s.toText)) ∨
    e.operator.isQuery = true ∧ env.value? keywordLists v.name = none

/-! ### Their parts -/

namespace Segment

theorem toParts_append {before after : List Segment} {beforeParts afterParts : List Part}
    (hbefore : toParts before = .ok beforeParts) (hafter : toParts after = .ok afterParts) :
    toParts (before ++ after) = .ok (beforeParts ++ afterParts) := by
  induction before generalizing beforeParts with
  | nil =>
      obtain rfl := Except.ok.inj hbefore
      exact hafter
  | cons s before ih =>
      obtain ⟨part, later, hs, hlater, rfl⟩ := toParts_cons_eq_ok.1 hbefore
      exact toParts_cons_eq_ok.2 ⟨part, later ++ afterParts, hs, ih hlater, rfl⟩

/-- A query expression has one of the two leads. -/
theorem exists_toPart_query {operator : Operator} (h : operator.isQuery = true) :
    ∃ lead, ∀ specs, (expression ⟨operator, specs⟩).toPart
      = .ok (.pattern (.query lead [specs])) := by
  cases operator with
  | query => exact ⟨.question, fun _ => rfl⟩
  | continuation => exact ⟨.ampersand, fun _ => rfl⟩
  | simple | reserved | fragment | label | pathSegment | pathParameter => exact nomatch h

end Segment

namespace Part

/-- Is the part a query? -/
def IsQuery : Part → Prop
  | pattern (.query _ _) => True
  | _ => False

/-- Nothing is joined to a part that is no query. -/
theorem gather_append {before : List Part} (h : ∀ part ∈ before, ¬ part.IsQuery)
    (after : List Part) : gather (before ++ after) = before ++ gather after := by
  induction before with
  | nil => rfl
  | cons part before ih =>
      obtain ⟨hpart, hbefore⟩ := List.forall_mem_cons.1 h
      match part, hpart with
      | .literal text, _ => exact congrArg (_ :: ·) (ih hbefore)
      | .pattern (.items layout specs), _ => exact congrArg (_ :: ·) (ih hbefore)
      | .pattern (.query lead groups), hpart => exact (hpart trivial).elim

/-- All continuations are joined to the query before them. -/
theorem gather_query (lead : QueryLead) (specs : List VarSpec) (groups : List (List VarSpec)) :
    gather (.pattern (.query lead [specs]) ::
        groups.map fun g => .pattern (.query .ampersand [g]))
      = [.pattern (.query lead (specs :: groups))] := by
  induction groups generalizing lead specs with
  | nil => rfl
  | cons g groups ih =>
      rw [List.map_cons, gather, ih .ampersand g]
      rfl

/-- A simple expression stops before a character that none can write. -/
theorem stops_commas (specs : List VarSpec) {rest : Text}
    (h : ∀ c ∈ rest.head?, isWritten c = false) : (Pattern.items .commas specs).Stops rest := by
  intro c hc
  have hadmits : (Pattern.items .commas specs).admits c = false := by
    show (isWritten c || false) = false
    rw [h c hc]
    rfl
  exact ⟨hadmits, hadmits⟩

/-- A path expression stops before the lead of a query. -/
theorem stops_slashes (specs : List VarSpec) {rest : Text}
    (h : ∀ c ∈ rest.head?, c = '?' ∨ c = '&') : (Pattern.items .slashes specs).Stops rest := by
  intro c hc
  rcases h c hc with rfl | rfl
  · exact ⟨rfl, rfl⟩
  · exact ⟨rfl, rfl⟩

end Part

namespace Segment

/-- The parts of the first segments stop, if what follows them begins with a character that no
    simple expression writes. -/
theorem exists_parts_of_areDelimited {body : List Segment} (h : AreDelimited body) :
    ∃ parts, toParts body = .ok parts ∧ (∀ part ∈ parts, ¬ part.IsQuery) ∧
      ∀ tail, Part.AreStopped keywordLists env tail →
        (∀ c ∈ (tail.flatMap (Part.render keywordLists env)).head?, isWritten c = false) →
        Part.AreStopped keywordLists env (parts ++ tail) := by
  induction body with
  | nil => exact ⟨[], rfl, nofun, fun _ htail _ => htail⟩
  | cons s later ih =>
      cases s with
      | literal text =>
          obtain ⟨parts, hparts, hquery, hstopped⟩ := ih h
          exact ⟨.literal text :: parts, toParts_cons_eq_ok.2 ⟨_, parts, rfl, hparts, rfl⟩,
            List.forall_mem_cons.2 ⟨id, hquery⟩, hstopped⟩
      | expression e =>
          obtain ⟨operator, specs⟩ := e
          obtain ⟨rfl, hlater, hnext⟩ := h
          obtain ⟨parts, hparts, hquery, hstopped⟩ := ih hlater
          refine ⟨.pattern (.items .commas specs) :: parts,
            toParts_cons_eq_ok.2 ⟨_, parts, rfl, hparts, rfl⟩,
            List.forall_mem_cons.2 ⟨id, hquery⟩, fun tail htail hhead =>
              ⟨Part.stops_commas specs ?_, hstopped tail htail hhead⟩⟩
          match later, hnext, hparts with
          | [], _, hparts =>
              obtain rfl := Except.ok.inj hparts
              exact hhead
          | .literal (c :: text) :: later, hc, hparts =>
              obtain ⟨part, rest, hpart, -, rfl⟩ := toParts_cons_eq_ok.1 hparts
              obtain rfl := Except.ok.inj hpart
              intro d hd
              obtain rfl : c = d := Option.some.inj hd
              exact hc

/-- A path stops before a query, and no simple expression can go on with either. -/
theorem exists_parts_of_areOptionalPath {path : List Segment} (h : AreOptionalPath path) :
    ∃ parts, toParts path = .ok parts ∧ (∀ part ∈ parts, ¬ part.IsQuery) ∧
      ∀ tail, Part.AreStopped keywordLists env tail →
        (∀ c ∈ (tail.flatMap (Part.render keywordLists env)).head?, c = '?' ∨ c = '&') →
        Part.AreStopped keywordLists env (parts ++ tail) ∧
        ∀ c ∈ ((parts ++ tail).flatMap (Part.render keywordLists env)).head?,
          isWritten c = false := by
  match path, h with
  | [], _ =>
      refine ⟨[], rfl, nofun, fun tail htail hhead => ⟨htail, fun c hc => ?_⟩⟩
      rcases hhead c hc with rfl | rfl <;> rfl
  | [.expression ⟨_, specs⟩], rfl =>
      refine ⟨[.pattern (.items .slashes specs)], rfl, List.forall_mem_singleton.2 id,
        fun tail htail hhead => ⟨⟨Part.stops_slashes specs hhead, htail⟩, ?_⟩⟩
      rw [List.singleton_append, List.flatMap_cons]
      show ∀ c ∈ ((Pattern.items .slashes specs).render keywordLists env ++ _).head?, _
      rcases Pattern.render_items .slashes specs with ⟨-, hrender⟩ | ⟨-, hrender⟩
      · rw [hrender, List.nil_append]
        intro c hc
        rcases hhead c hc with rfl | rfl <;> rfl
      · rw [hrender]
        intro c hc
        obtain rfl : '/' = c := Option.some.inj hc
        rfl

/-- A query expression and its continuations are gathered into one part. -/
theorem gather_of_areQueryRun {queries : List Segment} (h : AreQueryRun queries) :
    queries = [] ∨ ∃ parts lead groups, toParts queries = .ok parts ∧
      Part.gather parts = [.pattern (.query lead groups)] := by
  match queries, h with
  | [], _ => exact Or.inl rfl
  | .expression ⟨operator, specs⟩ :: later, ⟨hoperator, hlater⟩ =>
      obtain ⟨lead, hpart⟩ := exists_toPart_query hoperator
      obtain ⟨groups, hgroups⟩ : ∃ groups : List (List VarSpec),
          toParts later = .ok (groups.map fun g => .pattern (.query .ampersand [g])) := by
        induction later with
        | nil => exact ⟨[], rfl⟩
        | cons s later ih =>
            obtain ⟨⟨specs, rfl⟩, hrest⟩ := List.forall_mem_cons.1 hlater
            obtain ⟨groups, hgroups⟩ := ih hrest
            exact ⟨specs :: groups, toParts_cons_eq_ok.2 ⟨_, _, rfl, hgroups, rfl⟩⟩
      have hparts := toParts_cons_eq_ok.2 ⟨_, _, hpart specs, hgroups, rfl⟩
      exact Or.inr ⟨_, lead, specs :: groups, hparts, Part.gather_query lead specs groups⟩

/-- A query is one part, and begins with one of its leads if with anything. -/
theorem exists_parts_of_areQueryRun {queries : List Segment} (h : AreQueryRun queries) :
    ∃ parts, toParts queries = .ok parts ∧
      Part.AreStopped keywordLists env (Part.gather parts) ∧
      ∀ c ∈ ((Part.gather parts).flatMap (Part.render keywordLists env)).head?,
        c = '?' ∨ c = '&' := by
  rcases gather_of_areQueryRun h with rfl | ⟨parts, lead, groups, hparts, hgather⟩
  · exact ⟨[], rfl, trivial, nofun⟩
  · refine ⟨parts, hparts, ?_⟩
    rw [hgather]
    refine ⟨⟨Pattern.stops_nil _, trivial⟩, ?_⟩
    rw [List.flatMap_singleton]
    show ∀ c ∈ ((Pattern.query lead groups).render keywordLists env).head?, _
    rcases Pattern.render_query lead groups with ⟨-, hrender⟩ | ⟨-, d, hd, hrender⟩
    · rw [hrender]
      exact nofun
    · rw [hrender]
      intro c hc
      obtain rfl : d = c := Option.some.inj hc
      exact hd

end Segment

namespace Template

/-- The parts of a delimited template stop where they have written. -/
theorem exists_parts_of_isDelimited {t : Template} (h : t.IsDelimited) :
    ∃ parts, t.parts = .ok parts ∧ Part.AreStopped keywordLists env parts := by
  obtain ⟨body, path, queries, hsegments, hbody, hpath, hqueries⟩ := h.shape
  obtain ⟨before, hbefore, hplain, hstopped⟩ := Segment.exists_parts_of_areDelimited hbody
  obtain ⟨middle, hmiddle, hplain', hstopped'⟩ := Segment.exists_parts_of_areOptionalPath hpath
  obtain ⟨last, hlast, hend, hhead⟩ := Segment.exists_parts_of_areQueryRun hqueries
  refine ⟨before ++ (middle ++ Part.gather last), ?_, ?_⟩
  · rw [parts, hsegments, Segment.toParts_append hbefore (Segment.toParts_append hmiddle hlast)]
    dsimp only
    rw [Part.gather_append hplain, Part.gather_append hplain']
  · obtain ⟨htail, htail'⟩ := hstopped' _ hend hhead
    exact hstopped _ htail htail'

/-- The variables of the parts are those of the template. -/
theorem specs_of_parts {t : Template} {parts : List Part} (hparts : t.parts = .ok parts) :
    parts.flatMap Part.specs = t.specs := by
  rw [specs, expressions, ← segments_of_parts hparts, List.filterMap_flatMap, List.flatMap_assoc]
  refine List.flatMap_congr fun part _ => ?_
  cases part with
  | literal text => rfl
  | pattern p =>
      have hexpressions :
          (Part.pattern p).segments.filterMap Segment.expression? = p.expressions := by
        rw [Part.segments, List.filterMap_map]
        exact List.filterMap_some
      rw [hexpressions]
      exact p.specs_eq

/-- **ROUND TRIP**: matching a delimited template against what it is expanded to gives back every
    variable, in order, with the text of its scalar as far as its length goes; and without a value
    where that text is empty or there was no value. -/
theorem matchUrl_render_of_isDelimited {config : Config} {source : Text} {t : Template}
    (hparse : Template.parse config source = .ok t) (hdelimited : t.IsDelimited)
    (hscalars : ∀ e ∈ t.expressions, e.HasScalars t.config.keywordLists env) :
    (t.matchUrl (t.render env)).value
      = .ok ⟨env.recovered t.config.keywordLists t.specs⟩ := by
  obtain ⟨parts, hparts, hstopped⟩ := exists_parts_of_isDelimited hdelimited
  have hspecs := specs_of_parts hparts
  have hdistinct : ((parts.flatMap Part.specs).map VarSpec.name).Nodup := by
    rw [hspecs]
    exact hdelimited.distinct
  have hread : ∀ p, .pattern p ∈ parts →
      p.IsReadBack t.config.strictQuery t.config.keywordLists env := by
    intro p hp
    have hnames : (p.specs.map VarSpec.name).Nodup := by
      rw [List.map_flatMap] at hdistinct
      exact (List.nodup_flatMap.1 hdistinct).1 _ hp
    have hplain : ∀ v ∈ p.specs, v.explode = false := by
      intro v hv
      refine hdelimited.plain v ?_
      rw [← hspecs]
      exact List.mem_flatMap.2 ⟨.pattern p, hp, hv⟩
    have hvalid := isValid_of_parts hparse hparts hp
    refine ⟨Pattern.isStretch_render hvalid, fun start => ?_⟩
    cases p with
    | items layout specs =>
        refine Pattern.bind_items_eq layout hplain hnames (fun v hv => ?_) _ start
        obtain ⟨e, he, hv, hmem⟩ := exists_expression_of_parts hparts hp hv
        rcases hscalars e hmem v hv with hscalar | ⟨hquery, -⟩
        · exact hscalar
        · obtain rfl := List.mem_singleton.1 he
          cases layout <;> cases hquery
    | query lead groups =>
        refine Pattern.bind_query_eq lead hvalid hplain hnames (fun v hv => ?_) (fun v hv => ?_)
          _ start
        · obtain ⟨e, he, hv, hmem⟩ := exists_expression_of_parts hparts hp hv
          exact hdelimited.decoded e hmem (Pattern.isQuery_of_mem_expressions he) v hv
        · obtain ⟨e, -, hv, hmem⟩ := exists_expression_of_parts hparts hp hv
          exact (hscalars e hmem v hv).imp id And.right
  rw [Matching.matchUrl_value _ hparts, render_eq hparts,
    Matching.solve_of_areStopped hread hstopped hdistinct 0, hspecs]
  rfl

/-- Separators inside a value come back, a length cuts, and a query can lack variables. -/
theorem matchUrl_render_of_isDelimited_search :
    let simple : List VarSpec := [⟨"a".toText, false, none⟩, ⟨"b".toText, false, some 2⟩]
    let path : List VarSpec := [⟨"p".toText, false, none⟩]
    let query : List VarSpec := [⟨"q".toText, false, none⟩, ⟨"r".toText, false, none⟩]
    let more : List VarSpec := [⟨"s".toText, false, none⟩]
    let t : Template := .mk "/\x7ba,b:2\x7d/x\x7b/p\x7d\x7b?q,r\x7d\x7b&s\x7d".toText
      [.literal "/".toText, .expression ⟨.simple, simple⟩, .literal "/x".toText,
        .expression ⟨.pathSegment, path⟩, .expression ⟨.query, query⟩,
        .expression ⟨.continuation, more⟩]
      ⟨true, true⟩
    let env : Environment :=
      [("a".toText, .scalar (.text "é,/".toText)), ("b".toText, .scalar (.int 123)),
        ("p".toText, .scalar (.bool true)), ("r".toText, .scalar (.text [])),
        ("s".toText, .scalar (.int 7))]
    t.render env = "/%C3%A9%2C%2F,12/x/true?r=&s=7".toText ∧
    (t.matchUrl (t.render env)).value = .ok ⟨
      [("a".toText, some (.ofText "é,/".toText)), ("b".toText, some (.ofText "12".toText)),
        ("p".toText, some (.ofText "true".toText)), ("q".toText, none), ("r".toText, none),
        ("s".toText, some (.ofText "7".toText))]⟩ := by
  intro simple path query more t env
  have hparse : parse ⟨true, true⟩ t.source = .ok t := by decide +kernel
  have hshape : Segment.AreDelimited
      [.literal "/".toText, .expression ⟨.simple, simple⟩, .literal "/x".toText] :=
    ⟨rfl, trivial, rfl⟩
  have hqueries : Segment.AreQueryRun
      [.expression ⟨.query, query⟩, .expression ⟨.continuation, more⟩] :=
    ⟨rfl, List.forall_mem_singleton.2 ⟨more, rfl⟩⟩
  have hdelimited : t.IsDelimited :=
    ⟨⟨_, [.expression ⟨.pathSegment, path⟩], _, rfl, hshape, rfl, hqueries⟩,
      by decide, by decide, by decide⟩
  have hscalars : ∀ e ∈ t.expressions, e.HasScalars true env := by
    rw [show t.expressions = [⟨.simple, simple⟩, ⟨.pathSegment, path⟩, ⟨.query, query⟩,
      ⟨.continuation, more⟩] from rfl]
    refine List.forall_mem_cons.2 ⟨?_, List.forall_mem_cons.2 ⟨?_,
      List.forall_mem_cons.2 ⟨?_, List.forall_mem_singleton.2 ?_⟩⟩⟩
    · exact List.forall_mem_cons.2
        ⟨Or.inl ⟨_, rfl, by decide⟩, List.forall_mem_singleton.2 (Or.inl ⟨_, rfl, by decide⟩)⟩
    · exact List.forall_mem_singleton.2 (Or.inl ⟨_, rfl, by decide⟩)
    · exact List.forall_mem_cons.2
        ⟨Or.inr ⟨rfl, rfl⟩, List.forall_mem_singleton.2 (Or.inl ⟨_, rfl, by decide⟩)⟩
    · exact List.forall_mem_singleton.2 (Or.inl ⟨_, rfl, by decide⟩)
  exact ⟨by decide, (matchUrl_render_of_isDelimited hparse hdelimited hscalars).trans rfl⟩

/-- A surrogate does not come back: it is written in three bytes that are no UTF-8, and each of them
    is read as a replacement character. -/
theorem matchUrl_render_surrogate_simple :
    let t : Template := .mk "\x7ba\x7d".toText
      [.expression ⟨.simple, [⟨"a".toText, false, none⟩]⟩] ⟨true, false⟩
    let env : Environment := [("a".toText, .scalar (.text [.surrogate 0]))]
    parse ⟨true, false⟩ t.source = .ok t ∧ t.IsDelimited ∧
    env.value? true "a".toText = some (.scalar (.text [.surrogate 0])) ∧
    t.render env = "%ED%A0%80".toText ∧
    (t.matchUrl (t.render env)).value
      = .ok ⟨[("a".toText, some (.ofText "\uFFFD\uFFFD\uFFFD".toText))]⟩ ∧
    (t.matchUrl (t.render env)).value ≠ .ok ⟨env.recovered true t.specs⟩ := by
  intro t env
  have hmatch : (t.matchUrl (t.render env)).value
      = .ok ⟨[("a".toText, some (.ofText "\uFFFD\uFFFD\uFFFD".toText))]⟩ :=
    (Matching.matchUrl_value _ rfl).trans rfl
  have hdelimited : t.IsDelimited :=
    ⟨⟨t.segments, [], [], rfl, ⟨rfl, trivial, trivial⟩, trivial, trivial⟩, by decide, by decide,
      by decide⟩
  refine ⟨by decide +kernel, hdelimited, rfl, by decide, hmatch, ?_⟩
  rw [hmatch]
  intro h
  cases h

end Template

end UriTemplate
