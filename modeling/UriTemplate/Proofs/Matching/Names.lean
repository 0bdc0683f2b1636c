import Mathlib
import UriTemplate.Proofs.Matching.Split
import UriTemplate.Proofs.RoundTrip.Delimited

/-! # Names — every variable once, in order of appearance

    What is bound is put together from the back: a pattern binds its own variables,
    and what the parts after it have bound is filled in behind them.  Each step keeps
    the names as `Text.distinct` has them, so nothing about the way a URL was split
    shows in their order:

    * `OrderedMap.keys_firsts`, `Bindings.keys_fill` — the two ways in which repeated
      names are put together;
    * `Pattern.keys_of_bind` — a pattern binds all its variables;
    * `Matching.keys_of_solve` — so do the parts of a template;
    * `Template.names_of_matchUrl` — what this says of a template. -/

namespace UriTemplate

/-! ## First appearances -/

namespace Text

theorem mem_distinct {s : Text} {ts : List Text} : s ∈ distinct ts ↔ s ∈ ts := by
  induction ts with
  | nil => exact Iff.rfl
  | cons t ts ih =>
      by_cases h : s = t
      · simp [distinct, h]
      · simp [distinct, h, ih]

theorem nodup_distinct (ts : List Text) : (distinct ts).Nodup := by
  induction ts with
  | nil => exact List.nodup_nil
  | cons t ts ih =>
      refine List.nodup_cons.2 ⟨?_, ih.filter _⟩
      simp

/-- Of the second list only what is not in the first appears for the first time. -/
theorem distinct_append (ss ts : List Text) :
    distinct (ss ++ ts) = distinct ss ++ (distinct ts).filter (· ∉ ss) := by
  induction ss with
  | nil => simp [distinct]
  | cons s ss ih =>
      show s :: (distinct (ss ++ ts)).filter (· ≠ s)
        = s :: ((distinct ss).filter (· ≠ s) ++ (distinct ts).filter (· ∉ s :: ss))
      rw [ih, List.filter_append, List.filter_filter]
      refine congrArg (fun rest => s :: (_ ++ rest)) (List.filter_congr fun t _ => ?_)
      simp

end Text

namespace OrderedMap

variable {α : Type}

theorem keys_filter (q : Text → Bool) (m : OrderedMap α) :
    keys (m.filter fun e => q e.1) = (keys m).filter q :=
  List.filter_map.symm

theorem keys_firsts (m : OrderedMap α) : keys (firsts m) = Text.distinct (keys m) := by
  induction m with
  | nil => rfl
  | cons e m ih =>
      show e.1 :: keys ((firsts m).filter fun f => f.1 ≠ e.1)
        = e.1 :: (Text.distinct (keys m)).filter (· ≠ e.1)
      rw [← ih, ← keys_filter]

end OrderedMap

namespace Bindings

open OrderedMap

/-- Names that are filled in come behind, without those that are there already. -/
theorem keys_fill (bound later : Bindings) :
    keys (bound.fill later) = keys bound ++ (keys later).filter (· ∉ keys bound) := by
  have hbound : keys (bound.map fun e => (e.1, e.2 <|> (get? later e.1).join)) = keys bound :=
    List.map_map
  rw [fill, keys, List.map_append]
  refine congrArg₂ (· ++ ·) hbound ?_
  rw [← keys_filter]
  refine congrArg keys (List.filter_congr fun e _ => ?_)
  simp [← contains_iff_mem_keys]

/-- First appearances filled with first appearances are those of both. -/
theorem keys_fill_of_distinct {bound later : Bindings} {names more : List Text}
    (hbound : keys bound = Text.distinct names) (hlater : keys later = Text.distinct more) :
    keys (bound.fill later) = Text.distinct (names ++ more) := by
  rw [keys_fill, hbound, hlater, Text.distinct_append]
  simp [Text.mem_distinct]

end Bindings

/-! ## What is bound -/

/-- Every variable takes something, if only nothing. -/
theorem VarSpec.keys_of_takeAll {refusesPairs : Bool} {specs : List VarSpec} {items : List Item}
    {found : Bindings} (h : takeAll refusesPairs specs items = .ok found) :
    OrderedMap.keys found = specs.map VarSpec.name := by
  induction specs generalizing items found with
  | nil =>
      cases items with
      | nil => rw [← Except.ok.inj h]; rfl
      | cons item items => cases h
  | cons v later ih =>
      rw [takeAll] at h
      · cases htake : v.take refusesPairs later items with
        | error e => rw [htake] at h; cases h
        | ok taken =>
            rw [htake] at h
            obtain ⟨rest, hrest, rfl⟩ := Except.map_eq_ok_iff.1 h
            rw [List.map_cons, ← ih hrest]
            rfl

/-- Parameters are handed out, or refused, without a name being lost. -/
theorem Declared.keys_of_bind {ι : Type} [DecidableEq ι] {strict : Bool} {ds : List (Declared ι)}
    {ps : List Parameter} {bound : Bindings} (h : bind strict ds ps = .ok bound) :
    OrderedMap.keys bound = Text.distinct (ds.map (·.spec.name)) := by
  unfold bind at h
  dsimp only at h
  split at h
  · cases h
  · obtain rfl := Except.ok.inj h
    simp [OrderedMap.keys, Function.comp_def]

namespace Pattern

/-- **EVERY VARIABLE**: a pattern that can bind a stretch binds all its variables. -/
theorem keys_of_bind {strict : Bool} {p : Pattern} {stretch : Text} {start : Nat}
    {bound : Bindings} (h : p.bind strict stretch start = .ok bound) :
    OrderedMap.keys bound = Text.distinct (p.specs.map VarSpec.name) := by
  cases p with
  | items layout specs =>
      rw [bind] at h
      cases hread : Item.read layout stretch start with
      | error e => rw [hread] at h; cases h
      | ok items =>
          rw [hread] at h
          obtain ⟨found, hfound, rfl⟩ := Except.map_eq_ok_iff.1 h
          rw [OrderedMap.keys_firsts, VarSpec.keys_of_takeAll hfound]
          rfl
  | query lead groups =>
      cases stretch with
      | nil =>
          rw [← Except.ok.inj h]
          exact List.map_map.trans (List.map_id' _)
      | cons c parameters =>
          rw [bind, Query.bind] at h
          cases hread : Query.read parameters (start + 1) with
          | error e => rw [hread] at h; cases h
          | ok ps =>
              rw [hread] at h
              rw [Declared.keys_of_bind h, specs, ← Declared.map_spec_ofGroups groups, List.map_map]
              rfl

end Pattern

namespace Matching

/-- **EVERY PART**: whichever ends a search takes, it binds the variables of all parts. -/
theorem keys_of_solve {strict : Bool} {parts : List Part} {start : Nat} {url : Text}
    {found : Bindings} (h : solve strict parts start url = .ok found) :
    OrderedMap.keys found = Text.distinct ((parts.flatMap Part.specs).map VarSpec.name) := by
  induction parts generalizing start url found with
  | nil =>
      cases url with
      | nil => rw [← Except.ok.inj h]; rfl
      | cons c url => cases h
  | cons part later ih =>
      cases part with
      | literal text =>
          rw [solve] at h
          cases hrest : text.isPrefixOf? url with
          | none => rw [hrest] at h; cases h
          | some rest =>
              rw [hrest] at h
              exact ih h
      | pattern p =>
          rw [solve_pattern] at h
          obtain ⟨-, cut, -, -, -, hcut⟩ := exists_of_firstSuccess h
          obtain ⟨bound, rest, hbound, hrest, rfl⟩ := solveCut_eq_ok_iff.1 hcut
          rw [List.flatMap_cons, List.map_append]
          exact Bindings.keys_fill_of_distinct (Pattern.keys_of_bind hbound) (ih hrest)

/-- A template that matches has parts, and plain search finds what is bound. -/
theorem exists_solve_of_matchUrl {t : Template} {url : Text} {result : MatchResult}
    (h : (t.matchUrl url).value = .ok result) :
    ∃ parts, t.parts = .ok parts ∧
      solve t.config.strictQuery parts 0 url = .ok result.bindings := by
  cases hparts : t.parts with
  | error fault => rw [Template.matchUrl, hparts] at h; cases h
  | ok parts =>
      refine ⟨parts, rfl, ?_⟩
      rw [matchUrl_value url hparts] at h
      cases hsolve : solve t.config.strictQuery parts 0 url with
      | error e => rw [hsolve] at h; cases h
      | ok bindings => rw [hsolve] at h; rw [← Except.ok.inj h]

end Matching

namespace Template

/-- The names of a template are those of its variables. -/
theorem variableNames_eq (t : Template) :
    t.variableNames = Text.distinct (t.specs.map VarSpec.name) := by
  rw [variableNames, specs, List.map_flatMap]

/-- **NAMES**: the names of a result are those of its template, in order of first appearance, and
    so every declared variable has an entry, exactly one. -/
theorem names_of_matchUrl {t : Template} {url : Text} {result : MatchResult}
    (h : (t.matchUrl url).value = .ok result) :
    result.names = t.variableNames ∧ result.names.Nodup ∧
      ∀ name, name ∈ result.names ↔ ∃ e ∈ t.expressions, ∃ v ∈ e.specs, v.name = name := by
  obtain ⟨parts, hparts, hsolve⟩ := Matching.exists_solve_of_matchUrl h
  have hnames : result.names = Text.distinct (t.specs.map VarSpec.name) := by
    rw [MatchResult.names, Matching.keys_of_solve hsolve, specs_of_parts hparts]
  refine ⟨hnames.trans t.variableNames_eq.symm, ?_, fun name => ?_⟩
  · rw [hnames]
    exact Text.nodup_distinct _
  · rw [hnames, Text.mem_distinct, specs, List.map_flatMap]
    simp

/-- Names repeated across expressions, two of which are matched together. -/
theorem names_of_matchUrl_repeated :
    let b : VarSpec := ⟨"b".toText, false, none⟩
    let a : VarSpec := ⟨"a".toText, true, none⟩
    let c : VarSpec := ⟨"c".toText, false, none⟩
    let t : Template := .mk "\x7bb\x7d/\x7b?a*,b\x7d\x7b&c,a*\x7d".toText
      [.expression ⟨.simple, [b]⟩, .literal "/".toText, .expression ⟨.query, [a, b]⟩,
        .expression ⟨.continuation, [c, a]⟩] ⟨true, false⟩
    let result : MatchResult :=
      ⟨[("b".toText, some (.ofText "x".toText)), ("a".toText, some (.ofTexts ["1".toText])),
        ("c".toText, some (.ofText "2".toText))]⟩
    (t.matchUrl "x/?c=2&a=1&b=y".toText).value = .ok result ∧
    result.names = t.variableNames ∧ result.names.Nodup ∧
      ∀ name, name ∈ result.names ↔ ∃ e ∈ t.expressions, ∃ v ∈ e.specs, v.name = name := by
  intro b a c t result
  have hvalue : (t.matchUrl "x/?c=2&a=1&b=y".toText).value = .ok result :=
    (Matching.matchUrl_value "x/?c=2&a=1&b=y".toText rfl).trans (by cbv)
  exact ⟨hvalue, names_of_matchUrl hvalue⟩

end Template

end UriTemplate
