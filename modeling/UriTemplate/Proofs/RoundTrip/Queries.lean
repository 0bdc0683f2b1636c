import UriTemplate.Proofs.RoundTrip.Delimited

/-! # Queries — scalars, lists and maps that come back

    A template that is a query, perhaps with continuations, is matched as a single
    part, which reaches to the end of what was expanded.  So matching is handing the
    parameters out by name, and every value comes back for which that can tell whose
    parameters are whose:

    * **`Template.matchUrl_render_of_areQueryRun`** — values of all kinds are given back,
      if no text or key in them has a surrogate. -/

namespace UriTemplate

variable {keywordLists : Bool} {env : Environment}

/-- A single pattern against what it has written comes to what it binds. -/
theorem Matching.solve_singleton {strict : Bool} {p : Pattern}
    (hstretch : p.IsStretch (p.render keywordLists env)) :
    solve strict [.pattern p] 0 (p.render keywordLists env)
      = p.bind strict (p.render keywordLists env) 0 := by
  have hreach : p.reach (p.render keywordLists env ++ []) = (p.render keywordLists env).length :=
    p.reach_eq_length hstretch (Pattern.stops_nil p)
  rw [List.append_nil] at hreach
  generalize p.render keywordLists env = stretch at hreach ⊢
  -- the end of the URL is the only end that is tried
  have hcuts : p.cuts [] stretch = (⟨stretch.length, []⟩, []) := by
    rw [Pattern.cuts, hreach, List.drop_length]
    exact nofun
  rw [solve_pattern, hcuts]
  show solveCut strict p [] 0 stretch ⟨stretch.length, []⟩ = _
  rw [solveCut, List.take_length]
  cases p.bind strict stretch 0 with
  | error e => rfl
  | ok bound =>
      refine congrArg Except.ok ?_
      rw [Bindings.fill_of_disjoint fun _ _ hname => List.not_mem_nil hname]
      exact List.append_nil bound

namespace Template

/-- **QUERY ROUND TRIP**: matching a query against what it is expanded to gives back every variable,
    in order, whether parameters that nobody takes are refused or not. -/
theorem matchUrl_render_of_areQueryRun {config : Config} {source : Text} {t : Template}
    (hparse : Template.parse config source = .ok t) (hqueries : Segment.AreQueryRun t.segments)
    (hreturn : VarSpec.AreReturnable t.specs fun v =>
      env.value? t.config.keywordLists v.name) :
    (t.matchUrl (t.render env)).value
      = .ok ⟨env.returned t.config.keywordLists t.specs⟩ := by
  rcases Segment.gather_of_areQueryRun hqueries with hnil | ⟨parts, lead, groups, hparts, hgather⟩
  · have hparts : t.parts = .ok [] := by
      rw [Template.parts, hnil]
      rfl
    have hspecs : t.specs = [] := (specs_of_parts hparts).symm
    rw [Matching.matchUrl_value _ hparts, render_eq hparts, hspecs]
    rfl
  · have hparts : t.parts = .ok [.pattern (.query lead groups)] := by
      rw [Template.parts, hparts]
      exact congrArg Except.ok hgather
    have hspecs : groups.flatten = t.specs :=
      (List.append_nil _).symm.trans (specs_of_parts hparts)
    have hvalid := isValid_of_parts hparse hparts List.mem_cons_self
    rw [← hspecs] at hreturn ⊢
    have hbind := Pattern.bind_query_returned lead hvalid hreturn t.config.strictQuery 0
    have hsolve := (Matching.solve_singleton (Pattern.isStretch_render hvalid)).trans hbind
    rw [Matching.matchUrl_value _ hparts, render_eq hparts, List.flatMap_singleton]
    show Matching.toResult (Matching.solve _ _ 0 (Pattern.render _ _ _)) = _
    rw [hsolve]
    rfl

/-- Empty members are kept, a key may be repeated, and what is not given has no value. -/
theorem matchUrl_render_of_areQueryRun_search :
    let query : List VarSpec :=
      [⟨"a".toText, false, some 2⟩, ⟨"l".toText, false, none⟩, ⟨"x".toText, true, none⟩,
        ⟨"m".toText, true, none⟩]
    let more : List VarSpec := [⟨"n".toText, true, none⟩, ⟨"e".toText, false, none⟩]
    let t : Template := .mk "\x7b?a:2,l,x*,m*\x7d\x7b&n*,e\x7d".toText
      [.expression ⟨.query, query⟩, .expression ⟨.continuation, more⟩] ⟨true, true⟩
    let env : Environment :=
      [("a".toText, .scalar (.text "é=&".toText)),
        ("l".toText, .list [.scalar (.text ",".toText), .scalar (.text [])]),
        ("x".toText, .list [.scalar (.int 1)]),
        ("m".toText, .value (.assoc [("k".toText, .scalar (.bool true)),
          ("k".toText, .scalar (.text [])), ([], .scalar (.int 7))])),
        ("e".toText, .scalar (.text []))]
    t.render env = "?a=%C3%A9%3D&l=%2C,&x=1&k=true&k=&=7&e=".toText ∧
    (t.matchUrl (t.render env)).value = .ok ⟨
      [("a".toText, some (.ofText "é=".toText)),
        ("l".toText, some (.ofTexts [",".toText, []])), ("x".toText, some (.ofTexts ["1".toText])),
        ("m".toText, some (.assoc [("k".toText, .ofText "true".toText), ("k".toText, .ofText []),
          ([], .ofText "7".toText)])),
        ("n".toText, none), ("e".toText, none)]⟩ := by
  intro query more t env
  have hparse : parse ⟨true, true⟩ t.source = .ok t := by decide +kernel
  have hqueries : Segment.AreQueryRun t.segments :=
    ⟨rfl, List.forall_mem_singleton.2 ⟨more, rfl⟩⟩
  have hreturn : VarSpec.AreReturnable t.specs fun v => env.value? true v.name := by
    have hspecs : t.specs = query ++ more := rfl
    have hx : env.value? true "x".toText = some (.list [.scalar (.int 1)]) := rfl
    have hm : env.value? true "m".toText = some (.assoc [("k".toText, .scalar (.bool true)),
      ("k".toText, .scalar (.text [])), ([], .scalar (.int 7))]) := rfl
    have hn : env.value? true "n".toText = none := rfl
    have he : env.value? true "e".toText = some (.scalar (.text [])) := rfl
    refine ⟨by decide, by decide, by decide +kernel, ?_⟩
    rw [hspecs]
    simp [query, more, hx, hm, hn, he]
  exact ⟨by decide, (matchUrl_render_of_areQueryRun hparse hqueries hreturn).trans rfl⟩

/-- A surrogate does not come back: three replacement characters do. -/
theorem matchUrl_render_surrogate_query :
    let specs : List VarSpec := [⟨"a".toText, false, none⟩]
    let t : Template := .mk "\x7b?a\x7d".toText [.expression ⟨.query, specs⟩] ⟨true, false⟩
    let env : Environment := [("a".toText, .scalar (.text [.surrogate 0]))]
    parse ⟨true, false⟩ t.source = .ok t ∧ Segment.AreQueryRun t.segments ∧
    env.value? true "a".toText = some (.scalar (.text [.surrogate 0])) ∧
    t.render env = "?a=%ED%A0%80".toText ∧
    (t.matchUrl (t.render env)).value
      = .ok ⟨[("a".toText, some (.ofText "\uFFFD\uFFFD\uFFFD".toText))]⟩ ∧
    (t.matchUrl (t.render env)).value ≠ .ok ⟨env.returned true t.specs⟩ := by
  intro specs t env
  have hmatch : (t.matchUrl (t.render env)).value
      = .ok ⟨[("a".toText, some (.ofText "\uFFFD\uFFFD\uFFFD".toText))]⟩ :=
    (Matching.matchUrl_value _ rfl).trans rfl
  refine ⟨by decide +kernel, ⟨rfl, List.forall_mem_nil _⟩, rfl, by decide, hmatch, ?_⟩
  rw [hmatch]
  intro h
  cases h

end Template

end UriTemplate
