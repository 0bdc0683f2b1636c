import UriTemplate.Proofs.Matching.Split
import UriTemplate.Proofs.RoundTrip.Delimited

/-! # Optional expressions — between a variable and a literal

    A path or query expression that lacks its value writes nothing.  The expression
    before it does not see the literal that then follows, so it takes all of it that it
    can, and what it has taken is missing after it:

    * `Pattern.reach_eq_length_iff` — a pattern stops at the end of what it has written
      just where the next character is none that it admits;
    * `Matching.exists_isSplit_iff` — so the URL can be split just where the optional
      pattern has written something, or the literal begins with such a character.

    * **`Template.exists_matchUrl_render_iff`** — what this says of a template: its own
      expansion is matched just in these cases. -/

namespace UriTemplate

namespace Pattern

variable {p : Pattern} {stretch rest : Text}

/-- After a stretch a pattern takes whatever it admits. -/
theorem reach_append (h : p.IsStretch stretch) (hne : stretch ≠ []) (rest : Text) :
    p.reach (stretch ++ rest) = stretch.length + (rest.takeWhile p.admits).length := by
  match stretch, h, hne with
  | c :: s, ⟨hc, hs⟩, _ =>
      rw [List.cons_append, reach, if_pos hc, List.takeWhile_append_of_pos hs, List.length_append,
        List.length_cons]
      omega

/-- A pattern stops after a stretch just where it does not admit the next character. -/
theorem reach_eq_length_iff (h : p.IsStretch stretch) (hne : stretch ≠ []) :
    p.reach (stretch ++ rest) = stretch.length ↔ ∀ c ∈ rest.head?, p.admits c = false := by
  rw [reach_append h hne, Nat.add_eq_left, List.length_eq_zero_iff]
  cases rest with
  | nil => simp
  | cons c rest => simp [List.takeWhile_cons]

/-- A pattern can bind an empty stretch. -/
theorem exists_bind_nil (p : Pattern) (strict : Bool) (start : Nat) :
    ∃ bound, p.bind strict [] start = .ok bound := by
  match p with
  | items layout specs =>
      rw [bind, show Item.read layout [] start = .ok [] by cases layout <;> rfl]
      dsimp only
      rw [Item.allocate, VarSpec.takeAll_nil]
      exact ⟨_, rfl⟩
  | query _ groups => exact ⟨_, rfl⟩

end Pattern

/-- A variable that is not exploded can be bound to a single parameter of its name, strict or
    not. -/
theorem Declared.exists_bind_own {ι : Type} [DecidableEq ι] {d : Declared ι} {p : Parameter}
    (hexplode : d.spec.explode = false) (hname : p.name = d.spec.name) (strict : Bool) :
    ∃ bound, Declared.bind strict [d] [p] = .ok bound := by
  have hall : Finding.all [d] [p] = ([⟨d, p.single?⟩], []) := by
    simp [Finding.all, Finding.firstRound, Finding.secondRound, Finding.thirdRound,
      Parameter.takeFirst, hexplode, hname]
  rw [Declared.bind, hall]
  cases strict <;> exact ⟨_, rfl⟩

namespace Matching

/-- **OPTIONAL**: after one pattern has written something, and a second one something or nothing,
    before a literal: the URL can be split just where the first stops at what it has written. -/
theorem exists_isSplit_iff {strict : Bool} {p q : Pattern} {written optional text : Text}
    (hp : p.IsStretch written) (hne : written ≠ []) (hq : q.IsStretch optional)
    (hstops : p.Stops optional) (hbind : ∃ bound, p.bind strict written 0 = .ok bound)
    (hbind' : ∃ bound, q.bind strict optional written.length = .ok bound) :
    (∃ ends, IsSplit strict (written ++ (optional ++ text))
        [.pattern p, .pattern q, .literal text] 0 ends) ↔
      optional ≠ [] ∨ ∀ c ∈ text.head?, p.admits c = false := by
  have hcandidates : p.candidates [.pattern q, .literal text] (written ++ (optional ++ text))
      = [p.farthest (written ++ (optional ++ text))] :=
    p.candidates_of_not_literal _ nofun
  constructor
  · rintro ⟨ends, hsplit⟩
    obtain ⟨a, ends, rfl⟩ := exists_cons_of_isSplit hsplit
    obtain ⟨cut, hcut, rfl, -, hsplit⟩ := isSplit_pattern.1 hsplit
    rw [List.drop_zero, hcandidates] at hcut
    obtain rfl := List.mem_singleton.1 hcut
    obtain ⟨b, ends, rfl⟩ := exists_cons_of_isSplit hsplit
    obtain ⟨cut, -, rfl, -, hsplit⟩ := isSplit_pattern.1 hsplit
    obtain ⟨c, ends, rfl⟩ := exists_cons_of_isSplit hsplit
    have hend := (drop_of_isSplit_literal hsplit).1
    rw [(isSplit_nil.1 (isSplit_literal.1 hsplit).2.2).2] at hend
    rcases eq_or_ne optional [] with rfl | hoptional
    · -- the text must be left, so the first pattern has not gone beyond what it has written
      have hreach := p.length_le_reach hp text
      simp only [Pattern.farthest, List.nil_append, List.length_append] at hend
      exact Or.inr ((Pattern.reach_eq_length_iff hp hne).1 (by omega))
    · exact Or.inl hoptional
  · intro h
    have hreach : p.reach (written ++ (optional ++ text)) = written.length := by
      rw [Pattern.reach_eq_length_iff hp hne]
      cases optional with
      | nil => exact h.resolve_left fun hnil => hnil rfl
      | cons d optional => exact fun c hc => (hstops c hc).2
    generalize hurl : written ++ (optional ++ text) = url at *
    have hlater : url.drop written.length = optional ++ text := by rw [← hurl, List.drop_left]
    have htext : url.drop (written.length + optional.length) = text := by
      rw [← List.drop_drop, hlater, List.drop_left]
    have hlength : url.length = written.length + optional.length + text.length := by
      rw [← hurl, List.length_append, List.length_append, Nat.add_assoc]
    have hlast : IsSplit strict url [.literal text] (written.length + optional.length)
        [url.length] := by
      refine isSplit_literal.2 ⟨by omega, ?_, rfl⟩
      rw [Text.slice, htext]
      exact List.take_of_length_le (by omega)
    have hsecond : IsSplit strict url [.pattern q, .literal text] written.length
        [written.length + optional.length, url.length] := by
      refine isSplit_pattern.2 ⟨_, Pattern.mem_candidates_of_isPrefix ?_ ?_, rfl, ?_, hlast⟩
      · rw [hlater]
        exact q.length_le_reach hq text
      · exact ⟨[], by rw [List.append_nil, hlater, List.drop_left]⟩
      · rwa [hlater, List.take_left]
    refine ⟨[written.length, written.length + optional.length, url.length],
      isSplit_pattern.2 ⟨p.farthest url, ?_, ?_, ?_, hsecond⟩⟩
    · rw [List.drop_zero, hcandidates]
      exact List.mem_singleton_self _
    · rw [Pattern.farthest, hreach, Nat.zero_add]
    · rwa [Pattern.farthest, hreach, List.drop_zero, ← hurl, List.take_left]

end Matching

/-! ## Two expressions of one variable each -/

section

variable {keywordLists : Bool} {env : Environment} {layout : ItemLayout} {a b : VarSpec}
  {q : Pattern}

namespace Pattern

/-- A pattern whose leads can be seen writes nothing only if its variables have nothing. -/
theorem render_eq_nil_iff {p : Pattern} (hleads : [] ∉ p.leads) :
    p.render keywordLists env = [] ↔ p.row keywordLists env = [] := by
  rcases p.render_eq_nil_or keywordLists env with ⟨hrow, hrender⟩ | ⟨hrow, lead, hlead, hrender⟩
  · exact iff_of_true hrender hrow
  · refine iff_of_false (fun hnil => ?_) hrow
    rw [hrender, List.append_eq_nil_iff] at hnil
    exact hleads (hnil.1 ▸ hlead)

/-- A scalar that is not empty can be seen. -/
theorem render_items_ne_nil (hlength : a.maxLength = none) {s : Scalar}
    (hvalue : env.value? keywordLists a.name = some (.scalar s)) (hs : s.toText ≠ []) :
    (items layout [a]).render keywordLists env ≠ [] := by
  have hrow : (items layout [a]).row keywordLists env
      = [Percent.encode .unreserved s.toText] := by
    rw [row_items_eq (List.forall_mem_singleton.2 ⟨s, hvalue⟩), List.map_singleton, hvalue]
    rw [VarSpec.sent, VarSpec.cut, hlength]
  rcases render_items layout [a] with ⟨hnil, -⟩ | ⟨-, hrender⟩
  · exact absurd (hrow.symm.trans hnil) (List.cons_ne_nil _ _)
  · rw [hrender, hrow, List.intercalate_singleton]
    exact List.append_ne_nil_of_right_ne_nil _ (mt Percent.encode_eq_nil_iff.1 hs)

/-- A pattern that is optional after items: a path after a simple expression, or a query. -/
def IsOptional (layout : ItemLayout) (b : VarSpec) (q : Pattern) : Prop :=
  layout = .commas ∧ q = items .slashes [b] ∨ q = query .question [[b]]

/-- An optional pattern writes something just where its variable has a value. -/
theorem IsOptional.render_ne_nil_iff (h : q.IsOptional layout b)
    (hvalue : env.value? keywordLists b.name = none ∨
      ∃ s, env.value? keywordLists b.name = some (.scalar s)) :
    q.render keywordLists env ≠ [] ↔ env.value? keywordLists b.name ≠ none := by
  have hleads : [] ∉ q.leads := by
    rcases h with ⟨-, rfl⟩ | rfl
    · show ([] : Text) ∉ [[.char '/']]
      decide
    · show ([] : Text) ∉ [[.char '?'], [.char '&']]
      decide
  obtain ⟨operator, hexpressions⟩ : ∃ operator, q.expressions = [⟨operator, [b]⟩] := by
    rcases h with ⟨-, rfl⟩ | rfl
    · exact ⟨.pathSegment, rfl⟩
    · exact ⟨.query, rfl⟩
  rw [ne_eq, render_eq_nil_iff hleads, row, hexpressions, List.flatMap_singleton, Expression.parts,
    List.flatMap_singleton]
  rcases hvalue with hnone | ⟨s, hs⟩
  · rw [hnone]
    exact iff_of_false (not_not_intro rfl) (not_not_intro rfl)
  · rw [hs]
    exact iff_of_true (List.cons_ne_nil _ _) (Option.some_ne_none _)

/-- What an optional pattern writes is nothing that the items before it could go on with. -/
theorem IsOptional.stops (h : q.IsOptional layout b) :
    (items layout [a]).Stops (q.render keywordLists env) := by
  rcases q.render_eq_nil_or keywordLists env with ⟨-, hrender⟩ | ⟨-, lead, hlead, hrender⟩
  · rw [hrender]
    exact stops_nil _
  · rw [hrender]
    rcases h with ⟨rfl, rfl⟩ | rfl
    · obtain rfl := List.mem_singleton.1 hlead
      refine Part.stops_commas [a] fun c hc => ?_
      obtain rfl := Option.some.inj hc
      rfl
    · have hhead : ∀ c ∈ (lead ++ List.intercalate
          [(query .question [[b]]).style.separator]
          ((query .question [[b]]).row keywordLists env)).head?, c = '?' ∨ c = '&' := by
        rcases List.mem_cons.1 hlead with rfl | hlead
        · exact fun c hc => Or.inl (Option.some.inj hc).symm
        · obtain rfl := List.mem_singleton.1 hlead
          exact fun c hc => Or.inr (Option.some.inj hc).symm
      cases layout with
      | commas =>
          refine Part.stops_commas [a] fun c hc => ?_
          rcases hhead c hc with rfl | rfl <;> rfl
      | slashes => exact Part.stops_slashes [a] hhead

/-- A query of one variable can bind the scalar that it has written, strict or not. -/
theorem exists_bind_own (lead : QueryLead) (hvalid : b.IsValid) (hexplode : b.explode = false)
    (hdecoded : .char '%' ∉ b.name)
    (hscalar : ∃ s, env.value? keywordLists b.name = some (.scalar s)) (strict : Bool)
    (start : Nat) : ∃ bound,
      (query lead [[b]]).bind strict ((query lead [[b]]).render keywordLists env) start
        = .ok bound := by
  obtain ⟨s, hs⟩ := hscalar
  have hentries : env.entries keywordLists [b]
      = [(b.name, Percent.encode .unreserved (b.cut s.toText))] := by
    rw [Environment.entries, List.flatMap_singleton, hs]
    rfl
  rcases render_query lead [[b]] with ⟨hnil, -⟩ | ⟨hne, c, -, hrender⟩
  · exact absurd (hentries.symm.trans hnil) (List.cons_ne_nil _ _)
  · rw [show [[b]].flatten = [b] from rfl] at hne hrender
    obtain ⟨ps, hread, hps⟩ :=
      exists_read_entries (List.forall_mem_singleton.2 hvalid) hne (start + 1)
    rw [hentries] at hps
    obtain ⟨p, rfl, hp⟩ := List.map_eq_singleton_iff.1 hps
    have hname : p.name = b.name :=
      (Prod.mk.inj hp).1.trans (Percent.decode_of_not_mem hdecoded)
    rw [hrender]
    show ∃ bound, Query.bind strict [[b]] _ (start + 1) = .ok bound
    rw [Query.bind, hread]
    exact Declared.exists_bind_own (d := ⟨b, 0⟩) hexplode hname strict

/-- An optional pattern can bind what it has written. -/
theorem IsOptional.exists_bind (h : q.IsOptional layout b) (hvalid : ∀ v ∈ q.specs, v.IsValid)
    (hexplode : b.explode = false) (hdecoded : .char '%' ∉ b.name)
    (hvalue : env.value? keywordLists b.name = none ∨
      ∃ s, env.value? keywordLists b.name = some (.scalar s)) (strict : Bool) (start : Nat) :
    ∃ bound, q.bind strict (q.render keywordLists env) start = .ok bound := by
  rcases hvalue with hnone | hscalar
  · have hnil : q.render keywordLists env = [] :=
      not_not.1 fun hne => (h.render_ne_nil_iff (Or.inl hnone)).1 hne hnone
    rw [hnil]
    exact q.exists_bind_nil strict start
  · have hplain : ∀ v ∈ [b], v.explode = false := List.forall_mem_singleton.2 hexplode
    have hdistinct : ([b].map VarSpec.name).Nodup := List.nodup_singleton _
    rcases h with ⟨-, rfl⟩ | rfl
    · exact ⟨_, bind_items_reread .slashes hplain hdistinct (List.forall_mem_singleton.2 hscalar)
        strict start⟩
    · exact exists_bind_own .question (hvalid b (List.mem_singleton_self b)) hexplode hdecoded
        hscalar strict start

end Pattern

end

namespace Template

/-- The parts of a template with an optional expression, and which characters its first pattern
    admits. -/
theorem exists_parts_of_optional {t : Template} {first second : Operator} {a b : VarSpec}
    {text : Text} (hsegments : t.segments
      = [.expression ⟨first, [a]⟩, .expression ⟨second, [b]⟩, .literal text])
    (hoperators : (first, second) ∈
      [(Operator.simple, Operator.pathSegment), (.simple, .query), (.pathSegment, .query)]) :
    ∃ layout q, t.parts = .ok [.pattern (.items layout [a]), .pattern q, .literal text] ∧
      q.IsOptional layout b ∧ ∀ c, (Pattern.items layout [a]).admits c = false ↔
        isWritten c = false ∧ (first = .pathSegment → c ≠ '/') := by
  have hcommas : ∀ c, (Pattern.items .commas [a]).admits c = false ↔
      isWritten c = false ∧ (Operator.simple = .pathSegment → c ≠ '/') := by
    intro c
    show (isWritten c || false) = false ↔ _
    rw [Bool.or_false]
    exact (and_iff_left nofun).symm
  have hslashes : ∀ c, (Pattern.items .slashes [a]).admits c = false ↔
      isWritten c = false ∧ (Operator.pathSegment = .pathSegment → c ≠ '/') := by
    intro c
    show (isWritten c || c == '/') = false ↔ _
    rw [Bool.or_eq_false_iff, beq_eq_false_iff_ne, forall_prop_of_true rfl]
  rw [parts, hsegments]
  simp only [List.mem_cons, Prod.mk.injEq, List.not_mem_nil, or_false] at hoperators
  rcases hoperators with ⟨rfl, rfl⟩ | ⟨rfl, rfl⟩ | ⟨rfl, rfl⟩
  · exact ⟨.commas, _, rfl, Or.inl ⟨rfl, rfl⟩, hcommas⟩
  · exact ⟨.commas, _, rfl, Or.inr rfl, hcommas⟩
  · exact ⟨.slashes, _, rfl, Or.inr rfl, hslashes⟩

/-- **OPTIONAL EXPRESSIONS**: an expression of one scalar that can be seen, an optional expression
    of another variable, and a literal: the template matches its own expansion just where the second
    expression has written something, or the literal begins with a character that the first cannot
    go on with. -/
theorem exists_matchUrl_render_iff {config : Config} {source : Text} {t : Template}
    {first second : Operator} {a b : VarSpec} {text : Text} {env : Environment}
    (hparse : parse config source = .ok t)
    (hsegments : t.segments
      = [.expression ⟨first, [a]⟩, .expression ⟨second, [b]⟩, .literal text])
    (hoperators : (first, second) ∈
      [(Operator.simple, Operator.pathSegment), (.simple, .query), (.pathSegment, .query)])
    (hplain : ∀ v ∈ [a, b], v.explode = false ∧ v.maxLength = none ∧ .char '%' ∉ v.name)
    (ha : ∃ s, env.value? t.config.keywordLists a.name = some (.scalar s) ∧ s.toText ≠ [])
    (hb : env.value? t.config.keywordLists b.name = none ∨
      ∃ s, env.value? t.config.keywordLists b.name = some (.scalar s) ∧ s.toText ≠ []) :
    (∃ result, (t.matchUrl (t.render env)).value = .ok result) ↔
      env.value? t.config.keywordLists b.name ≠ none ∨
      ∀ c ∈ text.head?, isWritten c = false ∧ (first = .pathSegment → c ≠ '/') := by
  obtain ⟨⟨hexplode, hlength, -⟩, hlater⟩ := List.forall_mem_cons.1 hplain
  obtain ⟨hexplode', -, hdecoded⟩ := List.forall_mem_singleton.1 hlater
  obtain ⟨s, ha, hs⟩ := ha
  have hscalar : env.value? t.config.keywordLists b.name = none ∨
      ∃ s, env.value? t.config.keywordLists b.name = some (.scalar s) :=
    hb.imp id fun ⟨s, hs, _⟩ => ⟨s, hs⟩
  obtain ⟨layout, q, hparts, hq, hadmits⟩ := exists_parts_of_optional hsegments hoperators
  have hfirst := isValid_of_parts hparse hparts List.mem_cons_self
  have hsecond := isValid_of_parts hparse hparts (List.mem_cons_of_mem _ List.mem_cons_self)
  have hrender : t.render env = (Pattern.items layout [a]).render t.config.keywordLists env
      ++ (q.render t.config.keywordLists env ++ text) := by
    rw [render_eq hparts]
    simp only [List.flatMap_cons, List.flatMap_nil, List.append_nil]
    rfl
  have hbind : ∃ bound, (Pattern.items layout [a]).bind t.config.strictQuery
      ((Pattern.items layout [a]).render t.config.keywordLists env) 0 = .ok bound :=
    ⟨_, Pattern.bind_items_reread layout (List.forall_mem_singleton.2 hexplode)
      (List.nodup_singleton _) (List.forall_mem_singleton.2 ⟨s, ha⟩) _ 0⟩
  rw [Matching.exists_matchUrl_iff_isSplit hparts, hrender, Matching.exists_isSplit_iff
    (Pattern.isStretch_render hfirst) (Pattern.render_items_ne_nil hlength ha hs)
    (Pattern.isStretch_render hsecond) hq.stops hbind
    (hq.exists_bind hsecond hexplode' hdecoded hscalar _ _), hq.render_ne_nil_iff hscalar]
  exact or_congr_right (forall₂_congr fun c _ => hadmits c)

/-- A slash ends a simple expression, whether a query stands before it or not. -/
theorem exists_matchUrl_render_iff_slash :
    let a : VarSpec := ⟨"a".toText, false, none⟩
    let b : VarSpec := ⟨"b".toText, false, none⟩
    let t : Template := .mk "\x7ba\x7d\x7b?b\x7d/c".toText
      [.expression ⟨.simple, [a]⟩, .expression ⟨.query, [b]⟩, .literal "/c".toText]
      ⟨true, true⟩
    let env : Environment := [("a".toText, .scalar (.text "x".toText))]
    t.render env = "x/c".toText ∧ ∃ result, (t.matchUrl (t.render env)).value = .ok result := by
  intro a b t env
  have hparse : parse ⟨true, true⟩ t.source = .ok t := by decide +kernel
  have hplain : ∀ v ∈ [a, b], v.explode = false ∧ v.maxLength = none ∧ .char '%' ∉ v.name := by
    decide +kernel
  have hletter : ∀ c ∈ ("/c".toText : Text).head?,
      isWritten c = false ∧ (Operator.simple = .pathSegment → c ≠ '/') := by
    intro c hc
    obtain rfl : '/' = c := Option.some.inj hc
    exact ⟨rfl, nofun⟩
  have hvalue : env.value? true ['a'] = some (.scalar (.text ['x'])) := rfl
  refine ⟨by decide +kernel, (exists_matchUrl_render_iff hparse rfl ?_ hplain
    ⟨_, hvalue, by decide⟩ (Or.inl rfl)).2 (Or.inr hletter)⟩
  exact List.mem_cons_of_mem _ List.mem_cons_self

/-- A dot that stands behind an omitted path is taken by the simple expression. -/
theorem not_exists_matchUrl_render_dot :
    let a : VarSpec := ⟨"a".toText, false, none⟩
    let b : VarSpec := ⟨"b".toText, false, none⟩
    let t : Template := .mk "\x7ba\x7d\x7b/b\x7d.html".toText
      [.expression ⟨.simple, [a]⟩, .expression ⟨.pathSegment, [b]⟩, .literal ".html".toText]
      ⟨true, false⟩
    let env : Environment := [("a".toText, .scalar (.text "x".toText))]
    parse ⟨true, false⟩ t.source = .ok t ∧
    env.value? true a.name = some (.scalar (.text "x".toText)) ∧ env.value? true b.name = none ∧
    t.render env = "x.html".toText ∧
    ¬ ∃ result, (t.matchUrl (t.render env)).value = .ok result := by
  intro a b t env
  have hparts : t.parts = .ok [.pattern (.items .commas [a]), .pattern (.items .slashes [b]),
      .literal ".html".toText] := rfl
  have hrender : t.render env = "x.html".toText := by decide +kernel
  have hvalue : (t.matchUrl "x.html".toText).value
      = .error (.mismatch ⟨.literal ".html".toText [], some 6⟩) :=
    (Matching.matchUrl_value _ hparts).trans rfl
  refine ⟨by decide +kernel, rfl, rfl, hrender, ?_⟩
  rw [hrender, hvalue]
  rintro ⟨result, hresult⟩
  cases hresult

end Template

end UriTemplate
