import UriTemplate.Proofs.RoundTrip.ByName

/-! # Meaning — what a query comes to, said variable by variable

    Three rounds hand out the parameters of a query, in another order than the variables
    are declared in.  Where names are distinct the outcome can be said without rounds:

    * a variable that is not exploded stands for the first parameter of its name;
    * an exploded variable whose name occurs stands for all parameters of its name;
    * the first exploded variable whose name does not occur stands for the parameters that
      no name claims (`Query.unclaimed`), and any other for nothing.

    A strict query refuses unclaimed parameters, unless there is a variable to stand for
    them (`Query.remainder`).

    * **`Query.bind_eq_outcome`** — a query that can be read has that meaning, however its
      variables are grouped. -/

namespace UriTemplate

namespace Query

/-! ## The meaning -/

/-- The parameters, in order, whose name is neither that of an exploded variable nor, where it
    occurs first, that of another variable. -/
def unclaimed (specs : List VarSpec) (ps : List Parameter) : List Parameter :=
  Parameter.without ((specs.filter (·.explode)).map VarSpec.name)
    (Parameter.withoutFirst ((specs.filter (!·.explode)).map VarSpec.name) [] ps)

/-- Is the variable exploded, and its name none that occurs? -/
def isMissing (ps : List Parameter) (v : VarSpec) : Bool :=
  v.explode && decide (Parameter.ofName v.name ps = [])

/-- What a variable stands for. -/
def value (specs : List VarSpec) (ps : List Parameter) (v : VarSpec) : Option Value :=
  if v.explode then
    if Parameter.ofName v.name ps ≠ [] then
      some (.ofTexts ((Parameter.ofName v.name ps).map Parameter.text))
    else if specs.find? (isMissing ps) = some v ∧ unclaimed specs ps ≠ [] then
      some (.assoc ((unclaimed specs ps).map fun p => (p.name, .ofText p.text)))
    else none
  else
    match (Parameter.ofName v.name ps).head?.bind Parameter.raw with
    | none | some [] => none
    | some raw =>
        if .char ',' ∈ raw then some (.ofTexts ((raw.splitOn (.char ',')).map Percent.decode))
        else some (.ofText (Percent.decode raw))

/-- The parameters that no variable stands for. -/
def remainder (specs : List VarSpec) (ps : List Parameter) : List Parameter :=
  if ∀ v ∈ specs, v.explode = true → Parameter.ofName v.name ps ≠ [] then unclaimed specs ps
  else []

/-- What a query comes to. -/
def outcome (strict : Bool) (specs : List VarSpec) (ps : List Parameter) :
    Except MatchError Bindings :=
  match strict, remainder specs ps with
  | true, p :: more => .error ⟨.extraItems (more.length + 1), some p.position⟩
  | _, _ => .ok (specs.map fun v => (v.name, value specs ps v))

/-! ## The values -/

section

variable {specs : List VarSpec} {ps : List Parameter} {v : VarSpec}

theorem value_of_plain (hexplode : v.explode = false) :
    value specs ps v = (Parameter.ofName v.name ps).head?.bind Parameter.single? := by
  rw [value, hexplode, if_neg Bool.false_ne_true]
  cases (Parameter.ofName v.name ps).head? with
  | none => rfl
  | some p =>
      obtain ⟨name, raw, position⟩ := p
      rcases raw with _ | _ | ⟨c, raw⟩
      · rfl
      · rfl
      · show _ = some (Value.ofRaw true (c :: raw))
        simp only [Option.bind_some, Value.ofRaw, true_and]
        split <;> rfl

theorem value_of_occurs (hexplode : v.explode = true) (hown : Parameter.ofName v.name ps ≠ []) :
    value specs ps v = some (.ofTexts ((Parameter.ofName v.name ps).map Parameter.text)) := by
  rw [value, if_pos hexplode, if_pos hown]

theorem value_of_missing (hmissing : isMissing ps v = true) :
    value specs ps v = if specs.find? (isMissing ps) = some v
      then Parameter.assoc? (unclaimed specs ps) else none := by
  obtain ⟨hexplode, hown⟩ := Bool.and_eq_true_iff.1 hmissing
  rw [value, if_pos hexplode, if_neg (not_not_intro (of_decide_eq_true hown)), ite_and]
  cases unclaimed specs ps <;> rfl

/-- No part of the value of a variable is undefined. -/
theorem bind_prune_value : (value specs ps v).bind Value.prune = value specs ps v := by
  rw [value]
  split
  · split
    · next hown => exact Value.prune_ofTexts (by simpa using hown)
    · split
      · next hrest =>
          refine Value.prune_assoc (by simpa using hrest.2) fun entry hentry => ?_
          obtain ⟨p, -, rfl⟩ := List.mem_map.1 hentry
          rfl
      · rfl
  · split
    · rfl
    · rfl
    · split
      · exact Value.prune_ofTexts (by simp)
      · rfl

end

end Query

/-! ## The rounds -/

section

open Query

variable {ι : Type} {ds : List (Declared ι)}

namespace Declared

theorem unclaimed_map_spec (ps : List Parameter) :
    unclaimed (ds.map spec) ps = Parameter.without (names (exploded ds))
      (Parameter.withoutFirst (names (plain ds)) [] ps) := by
  rw [unclaimed, List.filter_map, List.filter_map, List.map_map, List.map_map]
  rfl

/-- The variables that are left for the third round are those that are missing. -/
theorem find?_isMissing (ps : List Parameter) :
    (ds.map spec).find? (isMissing ps) = (unmatched ps ds).head?.map spec := by
  rw [List.find?_map, ← List.head?_filter]
  rfl

theorem remainder_map_spec (ps : List Parameter) :
    remainder (ds.map spec) ps
      = if unmatched ps ds = [] then unclaimed (ds.map spec) ps else [] := by
  rw [remainder]
  refine if_congr ?_ rfl rfl
  rw [List.forall_mem_map, unmatched, List.filter_eq_nil_iff]
  refine forall₂_congr fun d _ => ?_
  rw [Bool.and_eq_true, decide_eq_true_eq, not_and]

/-- **THIRD ROUND**: of the variables that are missing the first stands for what nobody claims. -/
theorem thirdRound_eq_value (hdistinct : (names ds).Nodup) (ps : List Parameter) :
    Finding.thirdRound (unmatched ps ds) (unclaimed (ds.map spec) ps)
      = ((unmatched ps ds).map fun d => ⟨d, value (ds.map spec) ps d.spec⟩,
        remainder (ds.map spec) ps) := by
  have hvalue : ∀ d ∈ unmatched ps ds, value (ds.map spec) ps d.spec
      = if (unmatched ps ds).head?.map spec = some d.spec
        then Parameter.assoc? (unclaimed (ds.map spec) ps) else none := by
    intro d hd
    rw [value_of_missing (List.mem_filter.1 hd).2, find?_isMissing]
  have hnodup : (names (unmatched ps ds)).Nodup :=
    hdistinct.sublist (List.filter_sublist.map _)
  rw [remainder_map_spec]
  cases hunmatched : unmatched ps ds with
  | nil => rfl
  | cons u us =>
      rw [hunmatched] at hvalue hnodup
      obtain ⟨hu, hus⟩ := List.forall_mem_cons.1 hvalue
      rw [Finding.thirdRound, List.map_cons, hu, List.head?_cons, Option.map_some, if_pos rfl,
        if_neg (List.cons_ne_nil u us)]
      refine Prod.ext (congrArg (_ :: ·) (List.map_congr_left fun d hd => ?_)) rfl
      rw [hus d hd, if_neg]
      -- it is another variable
      intro heq
      have hname : u.spec.name = d.spec.name := congrArg VarSpec.name (Option.some.inj heq)
      exact (List.nodup_cons.1 hnodup).1 (List.mem_map.2 ⟨d, hd, hname.symm⟩)

/-- **ALL ROUNDS**: each variable finds the value that it stands for. -/
theorem all_eq_value (hdistinct : (names ds).Nodup) (ps : List Parameter) :
    Finding.all ds ps = ((plain ds ++ matched ps ds ++ unmatched ps ds).map fun d =>
      ⟨d, value (ds.map spec) ps d.spec⟩, remainder (ds.map spec) ps) := by
  rw [Finding.all_eq_of_distinct hdistinct, ← unclaimed_map_spec, thirdRound_eq_value hdistinct]
  dsimp only
  rw [List.map_append, List.map_append]
  refine Prod.ext (congrArg₂ _ (congrArg₂ _ ?_ ?_) rfl) rfl
  · refine List.map_congr_left fun d hd => ?_
    have hplain : d.spec.explode = false := by simpa using (List.mem_filter.1 hd).2
    rw [value_of_plain hplain]
  · refine List.map_congr_left fun d hd => ?_
    obtain ⟨hexplode, hown⟩ := Bool.and_eq_true_iff.1 (List.mem_filter.1 hd).2
    rw [value_of_occurs hexplode (of_decide_eq_true hown)]

/-- Declared variables of distinct names come to what they mean, whatever declares them. -/
theorem bind_of_nodup [DecidableEq ι] (hdistinct : (names ds).Nodup) (strict : Bool)
    (ps : List Parameter) : bind strict ds ps = outcome strict (ds.map spec) ps := by
  rw [bind_eq_of_all hdistinct strict (all_eq_value hdistinct ps)]
  simp only [bind_prune_value]
  unfold outcome
  rw [List.map_map]
  cases strict <;> cases remainder (ds.map spec) ps <;> rfl

end Declared

/-- **MEANING**: however variables of distinct names are grouped, a query that can be read comes to
    what they mean. -/
theorem Query.bind_eq_outcome {specs : List VarSpec} {query : Text} {offset : Int}
    {ps : List Parameter} (hdistinct : (specs.map VarSpec.name).Nodup)
    (hread : read query offset = .ok ps) (strict : Bool) :
    (∀ groups : List (List VarSpec), groups.flatten = specs →
      bind strict groups query offset = outcome strict specs ps) ∧
    ∀ groups : List Int, groups.length = specs.length →
      bindGrouped strict specs groups query offset
        = (outcome strict specs ps).mapError .query := by
  constructor
  · rintro groups rfl
    have hspecs := Declared.map_spec_ofGroups groups
    rw [← hspecs, List.map_map] at hdistinct
    rw [bind, hread]
    dsimp only
    rw [Declared.bind_of_nodup hdistinct, hspecs]
  · intro groups hlength
    have hspecs : (List.zipWith Declared.mk specs groups).map Declared.spec = specs := by
      rw [← List.map_uncurry_zip_eq_zipWith, List.map_map]
      exact List.map_fst_zip (by omega)
    rw [← hspecs, List.map_map] at hdistinct
    rw [bindGrouped, hread]
    dsimp only
    rw [if_neg (by omega), if_neg (by omega), Declared.bind_of_nodup hdistinct, hspecs]
    cases outcome strict specs ps <;> rfl

end

/-- Of two exploded variables that are missing the first stands for what nobody claims; without one
    a strict query refuses it. -/
theorem Query.bind_eq_outcome_repeated :
    let specs : List VarSpec := [⟨"a".toText, false, none⟩, ⟨"b".toText, true, none⟩,
      ⟨"c".toText, true, none⟩, ⟨"d".toText, false, none⟩, ⟨"e".toText, true, none⟩]
    let query : Text := "a=1&b=2&x=&&a=3&d=1,2&b=&y".toText
    bind true [specs] query 1 = .ok [("a".toText, some (.ofText "1".toText)),
      ("b".toText, some (.ofTexts ["2".toText, []])),
      ("c".toText, some (.assoc [("x".toText, .ofText []), ("a".toText, .ofText "3".toText),
        ("y".toText, .ofText [])])),
      ("d".toText, some (.ofTexts ["1".toText, "2".toText])), ("e".toText, none)] ∧
    bindGrouped true (specs.take 2) [0, 0] query 1
      = .error (.query ⟨.extraItems 4, some 9⟩) := by
  intro specs query
  have hall : (specs.map VarSpec.name).Nodup := by decide +kernel
  have hfirst : ((specs.take 2).map VarSpec.name).Nodup := by decide +kernel
  exact ⟨((bind_eq_outcome hall rfl true).1 [specs] rfl).trans rfl,
    ((bind_eq_outcome hfirst rfl true).2 [0, 0] rfl).trans rfl⟩

end UriTemplate
