import UriTemplate.Proofs.Matching.Errors
import UriTemplate.Proofs.Matching.Groups
import UriTemplate.Proofs.RoundTrip.Delimited
import UriTemplate.Proofs.Template.Printing

/-! # Merging — a continuation is as good as more variables

    Behind a query expression a continuation is matched together with it, so `{?a}{&b}`
    can be written `{?a,b}`.  The two templates differ in one part: what are two groups
    of variables in the first is one group in the second, and the groups behind have
    other numbers.  As long as no name is in both groups, nobody can tell:

    * `Declared.bind_joined` — the same is bound;
    * `Part.Joined.gather_append` — the parts of the templates differ in this only,
      whatever queries stand before and behind;
    * `Matching.search_eq_of_alike` — the search finds, remembers and reports the same;
    * `Template.matchUrl_continuation` — so every URL is matched alike. -/

namespace UriTemplate

/-! ## Parts that match alike -/

/-- Do two patterns reach as far, bind the same, and go by the same text? -/
structure Pattern.Alike (p q : Pattern) : Prop where
  reach : ∀ url, p.reach url = q.reach url
  bind : ∀ strict stretch start, p.bind strict stretch start = q.bind strict stretch start
  toText : p.toExpression.toText = q.toExpression.toText

/-- The same literal, or two patterns that are alike. -/
inductive Part.Alike : Part → Part → Prop
  | literal (text : Text) : Part.Alike (.literal text) (.literal text)
  | pattern {p q : Pattern} (h : p.Alike q) : Part.Alike (.pattern p) (.pattern q)

theorem Part.Alike.refl (part : Part) : part.Alike part := by
  cases part with
  | literal text => exact .literal text
  | pattern p => exact .pattern ⟨fun _ => rfl, fun _ _ _ => rfl, rfl⟩

/-- Before parts that are alike the same ends are tried. -/
theorem Pattern.Alike.cuts_eq {p q : Pattern} (h : p.Alike q) {later more : List Part}
    (hlater : List.Forall₂ Part.Alike later more) (url : Text) :
    p.cuts later url = q.cuts more url := by
  cases hlater with
  | nil => simp only [Pattern.cuts, h.reach]
  | cons hpart _ =>
      cases hpart with
      | literal text => simp only [Pattern.cuts, h.reach]
      | pattern _ => simp only [Pattern.cuts, h.reach]

/-- **ALIKE**: parts that are alike are searched alike, with the same memory and the same
    reports. -/
theorem Matching.search_eq_of_alike (strict : Bool) {parts others : List Part}
    (h : List.Forall₂ Part.Alike parts others) (start : Nat) (url : Text) (trace : Trace) :
    search strict parts start url trace = search strict others start url trace := by
  induction h generalizing start url trace with
  | nil => rfl
  | cons hpart hlater ih =>
      have hlength := hlater.length_eq
      cases hpart with
      | literal text => simp only [search, hlength, ih]
      | pattern hp => simp only [search, hlength, ih, hp.bind, hp.toText, hp.cuts_eq hlater]

/-! ## One group instead of two -/

section Joined

variable {a b : List VarSpec}

namespace Declared

/-- A variable is one of the group that it has the number of. -/
theorem spec_mem_of_getElem? {groups : List (List VarSpec)} {d : Declared Nat}
    (hd : d ∈ ofGroups groups) {specs : List VarSpec} (h : groups[d.group]? = some specs) :
    d.spec ∈ specs := by
  obtain ⟨⟨own, group⟩, hown, hmem⟩ := List.mem_flatMap.1 hd
  obtain ⟨v, hv, rfl⟩ := List.mem_map.1 hmem
  obtain rfl : own = specs := Option.some.inj ((List.mem_zipIdx_iff_getElem?.1 hown).symm.trans h)
  exact hv

/-- The number of a group once group `n` has been joined with the next. -/
def joined (n group : Nat) : Nat := if group ≤ n then group else group - 1

theorem joined_of_le {n group : Nat} (h : group ≤ n) : joined n group = group := if_pos h

theorem joined_succ {n group : Nat} (h : n ≤ group) : joined n (group + 1) = group :=
  if_neg (Nat.not_le.2 (Nat.lt_succ_of_le h))

/-- Joining makes one group of two and keeps all others apart. -/
theorem eq_or_of_joined_eq {n group other : Nat} (h : joined n group = joined n other) :
    group = other ∨ (group = n ∧ other = n + 1) ∨ (group = n + 1 ∧ other = n) := by
  unfold joined at h
  split at h <;> split at h <;> omega

/-- The variables of groups of which two are joined have other numbers. -/
theorem ofGroups_joined (front : List (List VarSpec)) (a b : List VarSpec)
    (later : List (List VarSpec)) :
    ofGroups (front ++ (a ++ b) :: later)
      = (ofGroups (front ++ a :: b :: later)).map (regroup (joined front.length)) := by
  have hfront : ∀ p ∈ front.zipIdx, joined front.length p.2 = p.2 := by
    rintro ⟨specs, group⟩ hp
    obtain ⟨hlt, -⟩ := List.getElem?_eq_some_iff.1 (List.mem_zipIdx_iff_getElem?.1 hp)
    exact joined_of_le (Nat.le_of_lt hlt)
  have hlater : ∀ p ∈ later.zipIdx (front.length + 1),
      joined front.length (p.2 + 1) = p.2 := by
    rintro ⟨specs, group⟩ hp
    exact joined_succ (Nat.le_of_succ_le (List.mem_zipIdx hp).1)
  have hfirst : joined front.length front.length = front.length := joined_of_le (Nat.le_refl _)
  have hsecond : joined front.length (front.length + 1) = front.length :=
    joined_succ (Nat.le_refl _)
  simp only [ofGroups, List.zipIdx_append, List.zipIdx_cons, List.flatMap_append,
    List.flatMap_cons, List.map_append, List.map_flatMap, List.map_map, Nat.zero_add,
    List.append_assoc, Function.comp_def, regroup, hfirst, hsecond]
  congr 1
  · refine List.flatMap_congr fun p hp => ?_
    simp only [hfront p hp]
  · congr 2
    rw [List.zipIdx_succ (i := front.length + 1), List.flatMap_map]
    refine List.flatMap_congr fun p hp => ?_
    simp only [hlater p hp]

/-- **JOINED**: two groups without a common name can be one. -/
theorem bind_joined (hdisjoint : ∀ v ∈ a, ∀ w ∈ b, v.name ≠ w.name) (strict : Bool)
    (front later : List (List VarSpec)) (ps : List Parameter) :
    bind strict (ofGroups (front ++ (a ++ b) :: later)) ps
      = bind strict (ofGroups (front ++ a :: b :: later)) ps := by
  have hfirst : (front ++ a :: b :: later)[front.length]? = some a := by simp
  have hsecond : (front ++ a :: b :: later)[front.length + 1]? = some b := by simp
  rw [ofGroups_joined]
  refine bind_map_regroup (fun c hc d hd hname hgroup => ?_) strict ps
  rcases eq_or_of_joined_eq hgroup with heq | ⟨hn, hnext⟩ | ⟨hnext, hn⟩
  · exact heq
  · -- one is of the first group and the other of the second, so they have different names
    rw [← hn] at hfirst
    rw [← hnext] at hsecond
    exact absurd hname
      (hdisjoint _ (spec_mem_of_getElem? hc hfirst) _ (spec_mem_of_getElem? hd hsecond))
  · rw [← hn] at hfirst
    rw [← hnext] at hsecond
    exact absurd hname.symm
      (hdisjoint _ (spec_mem_of_getElem? hd hfirst) _ (spec_mem_of_getElem? hc hsecond))

end Declared

/-- A query with two groups and one in which they are joined cannot be told apart. -/
theorem Pattern.alike_joined (hdisjoint : ∀ v ∈ a, ∀ w ∈ b, v.name ≠ w.name) (lead : QueryLead)
    (front later : List (List VarSpec)) :
    Pattern.Alike (.query lead (front ++ a :: b :: later))
      (.query lead (front ++ (a ++ b) :: later)) := by
  have hflatten : (front ++ a :: b :: later).flatten = (front ++ (a ++ b) :: later).flatten := by
    simp only [List.flatten_append, List.flatten_cons, List.append_assoc]
  constructor
  · intro url
    cases url <;> rfl
  · intro strict stretch start
    cases stretch with
    | nil => rw [Pattern.bind, Pattern.bind, hflatten]
    | cons c parameters => simp only [Pattern.bind, Query.bind, Declared.bind_joined hdisjoint]
  · cases lead with
    | question | ampersand => rw [Pattern.toExpression, Pattern.toExpression, hflatten]

/-! ## Gathering -/

namespace Part

variable {parts others : List Part}

/-- The same parts, but for one query in which two neighbouring groups are joined. -/
inductive Joined (a b : List VarSpec) : List Part → List Part → Prop
  | query (lead : QueryLead) (front later : List (List VarSpec)) (parts : List Part) :
      Joined a b (.pattern (.query lead (front ++ a :: b :: later)) :: parts)
        (.pattern (.query lead (front ++ (a ++ b) :: later)) :: parts)
  | cons (part : Part) {parts others : List Part} (h : Joined a b parts others) :
      Joined a b (part :: parts) (part :: others)

theorem Joined.forall₂_alike (hdisjoint : ∀ v ∈ a, ∀ w ∈ b, v.name ≠ w.name)
    (h : Joined a b parts others) : List.Forall₂ Alike parts others := by
  induction h with
  | query lead front later parts =>
      exact .cons (.pattern (Pattern.alike_joined hdisjoint lead front later))
        (List.forall₂_same.2 fun part _ => .refl part)
  | cons part _ ih => exact .cons (.refl part) ih

/-- A query before parts in which continuations have been joined already. -/
def onto (lead : QueryLead) (groups : List (List VarSpec)) : List Part → List Part
  | .pattern (.query .ampersand later) :: parts => .pattern (.query lead (groups ++ later)) :: parts
  | parts => .pattern (.query lead groups) :: parts

theorem gather_query_cons (lead : QueryLead) (groups : List (List VarSpec)) (parts : List Part) :
    gather (.pattern (.query lead groups) :: parts) = onto lead groups (gather parts) := by
  rw [gather]
  rfl

/-- A query takes a continuation behind it, and with it all continuations that follow. -/
theorem joined_gather (a b : List VarSpec) (lead : QueryLead) (parts : List Part) :
    Joined a b (gather (.pattern (.query lead [a]) :: .pattern (.query .ampersand [b]) :: parts))
      (gather (.pattern (.query lead [a ++ b]) :: parts)) := by
  rw [gather_query_cons, gather_query_cons, gather_query_cons]
  generalize gather parts = gathered
  match gathered with
  | [] => exact .query lead [] [] []
  | .literal _ :: _ => exact .query lead [] [] _
  | .pattern (.items _ _) :: _ => exact .query lead [] [] _
  | .pattern (.query .question _) :: _ => exact .query lead [] [] _
  | .pattern (.query .ampersand later) :: parts => exact .query lead [] later parts

/-- **ONE STEP**: a part before them leaves the joined groups neighbours, also where it is a query
    that takes them in. -/
theorem Joined.gather_cons (part : Part) (h : Joined a b (gather parts) (gather others)) :
    Joined a b (gather (part :: parts)) (gather (part :: others)) := by
  match part with
  | .literal text => exact h.cons _
  | .pattern (.items layout specs) => exact h.cons _
  | .pattern (.query lead groups) =>
      rw [gather_query_cons, gather_query_cons]
      generalize gather parts = gathered, gather others = gathered' at h
      cases h with
      | query lead' front later more =>
          cases lead' with
          | question => exact .cons _ (.query .question front later more)
          | ampersand =>
              simp only [onto, ← List.append_assoc]
              exact .query lead (groups ++ front) later more
      | cons next h =>
          match next with
          | .literal _ => exact (h.cons _).cons _
          | .pattern (.items _ _) => exact (h.cons _).cons _
          | .pattern (.query .question _) => exact (h.cons _).cons _
          | .pattern (.query .ampersand _) => exact h.cons _

/-- **ANY PARTS BEFORE**: so do all parts before them. -/
theorem Joined.gather_append (before : List Part) (h : Joined a b (gather parts) (gather others)) :
    Joined a b (gather (before ++ parts)) (gather (before ++ others)) := by
  induction before with
  | nil => exact h
  | cons part before ih => exact ih.gather_cons part

end Part

/-! ## Templates -/

namespace Template

/-- Two texts that differ in an expression and a continuation have the same segments but for
    these. -/
theorem exists_segments {config : Config} {before after : Text} {op : Operator}
    (ha : AreWellFormed a) (hb : AreWellFormed b) {t u : Template}
    (ht : parse config (before ++ Expression.toText ⟨op, a⟩
      ++ Expression.toText ⟨.continuation, b⟩ ++ after) = .ok t)
    (hu : parse config (before ++ Expression.toText ⟨op, a ++ b⟩ ++ after) = .ok u) :
    ∃ first last,
      t.segments = first ++ .expression ⟨op, a⟩ :: .expression ⟨.continuation, b⟩ :: last ∧
      u.segments = first ++ .expression ⟨op, a ++ b⟩ :: last := by
  obtain ⟨-, -, htnormal, httext⟩ := areNormal_of_parse ht
  obtain ⟨-, -, hunormal, hutext⟩ := areNormal_of_parse hu
  have hab : AreWellFormed (a ++ b) :=
    ⟨List.append_ne_nil_of_left_ne_nil ha.nonempty b, List.forall_mem_append.2 ⟨ha.valid, hb.valid⟩⟩
  rw [List.append_assoc, List.append_assoc] at httext
  rw [List.append_assoc] at hutext
  obtain ⟨first, rest, htsegments, hfirst, hrest⟩ := htnormal.exists_expression ha httext
  obtain ⟨last, rfl, hlast⟩ := hrest.1.exists_cons hb hrest.2
  obtain ⟨first', last', husegments, hfirst', hlast'⟩ := hunormal.exists_expression hab hutext
  obtain rfl : first = first' := hfirst.1.eq_of_flatMap_eq hfirst'.1 (hfirst.2.trans hfirst'.2.symm)
  obtain rfl : last = last' := hlast.1.eq_of_flatMap_eq hlast'.1 (hlast.2.trans hlast'.2.symm)
  exact ⟨first, last, htsegments, husegments⟩

/-- Their parts differ in that the groups of these are joined. -/
theorem exists_joined_parts {op : Operator} (hquery : op.isQuery = true) {t u : Template}
    {first last : List Segment}
    (ht : t.segments = first ++ .expression ⟨op, a⟩ :: .expression ⟨.continuation, b⟩ :: last)
    (hu : u.segments = first ++ .expression ⟨op, a ++ b⟩ :: last)
    (hmatchable : t.isMatchable = true) :
    ∃ parts others, t.parts = .ok parts ∧ u.parts = .ok others ∧ Part.Joined a b parts others := by
  have hoperators := isMatchable_iff.1 hmatchable
  rw [expressions, ht, List.filterMap_append] at hoperators
  obtain ⟨hfirst, hrest⟩ := List.forall_mem_append.1 hoperators
  obtain ⟨-, hrest⟩ := List.forall_mem_cons.1 hrest
  obtain ⟨-, hlast⟩ := List.forall_mem_cons.1 hrest
  obtain ⟨before, hbefore⟩ := Segment.exists_toParts hfirst
  obtain ⟨after, hafter⟩ := Segment.exists_toParts hlast
  obtain ⟨lead, hlead⟩ := Segment.exists_toPart_query hquery
  have htwo : Segment.toParts (.expression ⟨op, a⟩ :: .expression ⟨.continuation, b⟩ :: last)
      = .ok (.pattern (.query lead [a]) :: .pattern (.query .ampersand [b]) :: after) :=
    Segment.toParts_cons_eq_ok.2 ⟨_, _, hlead a,
      Segment.toParts_cons_eq_ok.2 ⟨_, _, rfl, hafter, rfl⟩, rfl⟩
  have hone : Segment.toParts (.expression ⟨op, a ++ b⟩ :: last)
      = .ok (.pattern (.query lead [a ++ b]) :: after) :=
    Segment.toParts_cons_eq_ok.2 ⟨_, _, hlead (a ++ b), hafter, rfl⟩
  have hjoined := (Part.joined_gather a b lead after).gather_append before
  refine ⟨_, _, ?_, ?_, hjoined⟩
  · rw [parts, ht, Segment.toParts_append hbefore htwo]
  · rw [parts, hu, Segment.toParts_append hbefore hone]

/-- **MERGING**: behind a query expression a continuation can as well be part of it, if they have
    no common name: every URL is matched alike, with the same reports. -/
theorem matchUrl_continuation {config : Config} {before after : Text} {op : Operator}
    (hquery : op.isQuery = true) (ha : AreWellFormed a) (hb : AreWellFormed b)
    (hdisjoint : ∀ v ∈ a, ∀ w ∈ b, v.name ≠ w.name) {t u : Template}
    (ht : parse config (before ++ Expression.toText ⟨op, a⟩
      ++ Expression.toText ⟨.continuation, b⟩ ++ after) = .ok t)
    (hu : parse config (before ++ Expression.toText ⟨op, a ++ b⟩ ++ after) = .ok u)
    (hmatchable : t.isMatchable = true) (url : Text) : t.matchUrl url = u.matchUrl url := by
  obtain ⟨first, last, htsegments, husegments⟩ := exists_segments ha hb ht hu
  obtain ⟨parts, others, hparts, hothers, hjoined⟩ :=
    exists_joined_parts hquery htsegments husegments hmatchable
  obtain ⟨-, htconfig, -⟩ := areNormal_of_parse ht
  obtain ⟨-, huconfig, -⟩ := areNormal_of_parse hu
  have hsearch := Matching.search_eq_of_alike config.strictQuery (hjoined.forall₂_alike hdisjoint)
    0 url .empty
  rw [matchUrl, matchUrl, hparts, hothers, htconfig, huconfig]
  simp only [hsearch]

/-- Names may come back, in the joined lists and around them. -/
theorem matchUrl_continuation_repeated :
    let q : VarSpec := ⟨"q".toText, false, none⟩
    let m : VarSpec := ⟨"m".toText, true, none⟩
    let r : VarSpec := ⟨"r".toText, false, none⟩
    let t : Template := .mk "/x\x7b?q\x7d\x7b&q,m*\x7d\x7b&r\x7d\x7b&m*,r\x7d".toText
      [.literal "/x".toText, .expression ⟨.query, [q]⟩, .expression ⟨.continuation, [q, m]⟩,
        .expression ⟨.continuation, [r]⟩, .expression ⟨.continuation, [m, r]⟩] ⟨true, true⟩
    let u : Template := .mk "/x\x7b?q\x7d\x7b&q,m*,r\x7d\x7b&m*,r\x7d".toText
      [.literal "/x".toText, .expression ⟨.query, [q]⟩, .expression ⟨.continuation, [q, m, r]⟩,
        .expression ⟨.continuation, [m, r]⟩] ⟨true, true⟩
    t.matchUrl "/x?q=1&q=2&r=3&m=4&r=5".toText = u.matchUrl "/x?q=1&q=2&r=3&m=4&r=5".toText ∧
    (u.matchUrl "/x?q=1&q=2&r=3&m=4&r=5".toText).value = .ok
      ⟨[("q".toText, some (.ofText "1".toText)), ("m".toText, some (.ofTexts ["4".toText])),
        ("r".toText, some (.ofText "3".toText))]⟩ := by
  intro q m r t u
  have ha : AreWellFormed [q, m] :=
    ⟨nofun, List.forall_mem_cons.2 ⟨⟨rfl, nofun, nofun⟩,
      List.forall_mem_singleton.2 ⟨rfl, fun _ => rfl, nofun⟩⟩⟩
  have hb : AreWellFormed [r] := ⟨nofun, List.forall_mem_singleton.2 ⟨rfl, nofun, nofun⟩⟩
  have ht : parse ⟨true, true⟩ ("/x\x7b?q\x7d".toText ++ Expression.toText ⟨.continuation, [q, m]⟩
      ++ Expression.toText ⟨.continuation, [r]⟩ ++ "\x7b&m*,r\x7d".toText) = .ok t := by
    decide +kernel
  have hu : parse ⟨true, true⟩ ("/x\x7b?q\x7d".toText
      ++ Expression.toText ⟨.continuation, [q, m] ++ [r]⟩ ++ "\x7b&m*,r\x7d".toText) = .ok u := by
    decide +kernel
  exact ⟨matchUrl_continuation rfl ha hb (by decide) ht hu rfl _,
    (Matching.matchUrl_value "/x?q=1&q=2&r=3&m=4&r=5".toText rfl).trans (by cbv)⟩

end Template

end Joined

end UriTemplate
