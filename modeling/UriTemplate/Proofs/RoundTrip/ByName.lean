import UriTemplate.Proofs.Matching.Rounds
import UriTemplate.Proofs.RoundTrip.Returned

/-! # By name — parameters come back to their variables

    A query hands out its parameters in three rounds, and where names are distinct the
    parameters of a name decide what a variable finds (`Finding.all_eq_of_distinct`).
    When the variables have written values that come back, the parameters of a name are
    those of the variable of that name, and all others belong to one exploded variable,
    the first that is left for the third round (`Declared.thirdRound_eq`).

    * **`Declared.bind_eq`** — every declared variable finds what it stands for.
    * **`Pattern.bind_query_returned`** — so does every variable of a query. -/

namespace UriTemplate

section

variable {ι : Type} {ds : List (Declared ι)}

namespace Declared

/-! ## What each round finds

    The parameters are those that returnable variables have written. -/

section

variable {given : VarSpec → Option Value} {ps : List Parameter} {d : Declared ι}
  (h : VarSpec.AreReturnable (ds.map spec) given)
  (hps : ps.map (fun p => (p.name, p.raw)) = (ds.map spec).flatMap fun v => v.parameters (given v))

include h

theorem nodup_names : (names ds).Nodup := by
  have hdistinct := h.distinct
  rwa [List.map_map] at hdistinct

include hps

/-- The parameters of the name of a variable are those that it has written under it. -/
theorem map_ofName (hd : d ∈ ds) :
    (Parameter.ofName d.spec.name ps).map (fun p => (p.name, p.raw))
      = d.spec.named (given d.spec) := by
  rw [← h.filter_name_eq (List.mem_map_of_mem hd), ← hps, List.filter_map]
  rfl

/-- The first round finds what comes back. -/
theorem find_of_plain (hd : d ∈ ds) (hexplode : d.spec.explode = false) :
    (Parameter.ofName d.spec.name ps).length ≤ 1 ∧
      (Parameter.ofName d.spec.name ps).head?.bind Parameter.single?
        = d.spec.returned (given d.spec) := by
  have hown := map_ofName h hps hd
  rcases VarSpec.named_of_plain (h.each _ (List.mem_map_of_mem hd)) hexplode with
    ⟨hnamed, hreturned⟩ | ⟨name, raw, hnamed, hsingle⟩
  · rw [hnamed, List.map_eq_nil_iff] at hown
    rw [hown, hreturned]
    exact ⟨Nat.zero_le 1, rfl⟩
  · rw [hnamed, List.map_eq_singleton_iff] at hown
    obtain ⟨p, hown, hp⟩ := hown
    rw [hown]
    refine ⟨Nat.le_refl 1, ?_⟩
    rw [← hsingle p.position, ← (Prod.mk.inj hp).1, ← (Prod.mk.inj hp).2]
    rfl

/-- The second round finds what comes back. -/
theorem find_of_exploded (hd : d ∈ ds) (hexplode : d.spec.explode = true)
    (hne : Parameter.ofName d.spec.name ps ≠ []) :
    some (.ofTexts ((Parameter.ofName d.spec.name ps).map Parameter.text))
      = d.spec.returned (given d.spec) := by
  have hown := map_ofName h hps hd
  have hnamed : d.spec.named (given d.spec) ≠ [] := by
    rw [← hown]
    simpa using hne
  rw [VarSpec.named_of_exploded (h.each _ (List.mem_map_of_mem hd)) hexplode hnamed, ← hown,
    List.map_map]
  rfl

/-- What is left for the third round belongs to maps. -/
theorem map_left :
    (Parameter.without (names ds) ps).map (fun p => (p.name, p.raw))
      = (ds.map spec).flatMap fun v => v.keyed (given v) := by
  rw [← h.filter_not_mem_eq, ← hps, List.filter_map, List.map_map]
  rfl

/-- Without a map nothing is left. -/
theorem left_eq_nil (hnone : ∀ d ∈ ds, ¬ ∃ pairs, given d.spec = some (.assoc pairs)) :
    Parameter.without (names ds) ps = [] := by
  rw [← List.map_eq_nil_iff, map_left h hps, List.flatMap_eq_nil_iff]
  intro v hv
  obtain ⟨d, hd, rfl⟩ := List.mem_map.1 hv
  exact d.spec.keyed_eq_nil (hnone d hd)

/-- A variable that is left for the third round has no value, or a map. -/
theorem cases_of_mem_unmatched (hd : d ∈ unmatched ps ds) :
    given d.spec = none ∨ ∃ pairs, given d.spec = some (.assoc pairs) := by
  obtain ⟨hd, hclass⟩ := List.mem_filter.1 hd
  rw [Bool.and_eq_true, decide_eq_true_eq] at hclass
  have hown := map_ofName h hps hd
  rw [hclass.2] at hown
  exact VarSpec.named_eq_nil (h.each _ (List.mem_map_of_mem hd)) hclass.1 hown.symm

/-- A variable with a map is left for the third round. -/
theorem mem_unmatched_of_assoc (hd : d ∈ ds)
    (hassoc : ∃ pairs, given d.spec = some (.assoc pairs)) : d ∈ unmatched ps ds := by
  obtain ⟨pairs, hpairs⟩ := hassoc
  have hown := map_ofName h hps hd
  have hreturn := h.each _ (List.mem_map_of_mem hd)
  rw [hpairs] at hown hreturn
  have hnil : Parameter.ofName d.spec.name ps = [] := List.map_eq_nil_iff.1 hown
  refine List.mem_filter.2 ⟨hd, ?_⟩
  rw [Bool.and_eq_true, decide_eq_true_eq]
  exact ⟨hreturn.1, hnil⟩

/-- Of the variables that are left for the third round only the first may have a map: before any
    other there would be a list. -/
theorem eq_none_of_unmatched {u : Declared ι} {us : List (Declared ι)}
    (hunmatched : unmatched ps ds = u :: us) : ∀ c ∈ us, given c.spec = none := by
  have hordered : (unmatched ps ds).Pairwise fun c d =>
      (∃ pairs, given d.spec = some (.assoc pairs)) →
        c.spec.explode = true → ∃ items, given c.spec = some (.list items) :=
    (List.pairwise_map.1 h.ordered).filter _
  rw [hunmatched] at hordered
  obtain ⟨hfirst, -⟩ := List.pairwise_cons.1 hordered
  have hmem : ∀ d ∈ u :: us, d ∈ unmatched ps ds := fun d hd => hunmatched ▸ hd
  have hu := hmem u List.mem_cons_self
  have hexplode : u.spec.explode = true := (Bool.and_eq_true_iff.1 (List.mem_filter.1 hu).2).1
  intro c hc
  have hcases := cases_of_mem_unmatched h hps (hmem c (List.mem_cons_of_mem u hc))
  refine hcases.resolve_right fun hassoc => ?_
  obtain ⟨items, hitems⟩ := hfirst c hc hassoc hexplode
  rcases cases_of_mem_unmatched h hps hu with hnone | ⟨pairs, hpairs⟩
  · exact nomatch hitems.symm.trans hnone
  · exact nomatch hitems.symm.trans hpairs

/-- All parameters that are left are the map of the one variable that has a map. -/
theorem assoc?_left {u : Declared ι} (hu : u ∈ ds)
    (hvalue : given u.spec = none ∨ ∃ pairs, given u.spec = some (.assoc pairs))
    (honly : ∀ d ∈ ds, (∃ pairs, given d.spec = some (.assoc pairs)) → d = u) :
    Parameter.assoc? (Parameter.without (names ds) ps) = u.spec.returned (given u.spec) := by
  have hspec : u.spec ∈ ds.map spec := List.mem_map_of_mem hu
  rcases hvalue with hnone | ⟨pairs, hpairs⟩
  · rw [hnone, left_eq_nil h hps]
    · rfl
    · rintro d hd ⟨pairs, hpairs⟩
      rw [honly d hd ⟨pairs, hpairs⟩, hnone] at hpairs
      exact nomatch hpairs
  · have hleft : (Parameter.without (names ds) ps).map (fun p => (p.name, p.raw))
        = u.spec.keyed (some (.assoc pairs)) := by
      rw [map_left h hps, VarSpec.flatMap_eq_of_nodup h.distinct hspec, hpairs]
      intro v hv hne
      obtain ⟨d, hd, rfl⟩ := List.mem_map.1 hv
      refine d.spec.keyed_eq_nil fun hassoc => hne ?_
      rw [honly d hd hassoc]
    have hreturn := h.each _ hspec
    rw [hpairs] at hreturn ⊢
    obtain ⟨hne, hreturned⟩ := VarSpec.keyed_of_assoc hreturn
    rw [hreturned, ← hleft, List.map_map]
    cases hparameters : Parameter.without (names ds) ps with
    | nil =>
        rw [hparameters] at hleft
        exact absurd hleft.symm hne
    | cons p left => rfl

/-- **THIRD ROUND**: of the variables without a parameter of their name the first finds its map, if
    there is one, and the others have no value; nothing is left. -/
theorem thirdRound_eq :
    Finding.thirdRound (unmatched ps ds) (Parameter.without (names ds) ps)
      = ((unmatched ps ds).map fun d => ⟨d, d.spec.returned (given d.spec)⟩, []) := by
  have hmap : ∀ d ∈ ds, (∃ pairs, given d.spec = some (.assoc pairs)) → d ∈ unmatched ps ds :=
    fun d => mem_unmatched_of_assoc h hps
  cases hunmatched : unmatched ps ds with
  | nil =>
      rw [hunmatched] at hmap
      rw [left_eq_nil h hps fun d hd hassoc => List.not_mem_nil (hmap d hd hassoc)]
      rfl
  | cons u us =>
      have hu : u ∈ unmatched ps ds := hunmatched ▸ List.mem_cons_self
      have hlater := eq_none_of_unmatched h hps hunmatched
      have honly : ∀ d ∈ ds, (∃ pairs, given d.spec = some (.assoc pairs)) → d = u := by
        rintro d hd ⟨pairs, hpairs⟩
        have hmem := hmap d hd ⟨pairs, hpairs⟩
        rw [hunmatched] at hmem
        rcases List.mem_cons.1 hmem with rfl | hd
        · rfl
        · exact nomatch (hlater d hd).symm.trans hpairs
      rw [Finding.thirdRound, assoc?_left h hps (List.mem_filter.1 hu).1
        (cases_of_mem_unmatched h hps hu) honly, List.map_cons]
      refine Prod.ext (congrArg (_ :: ·) (List.map_congr_left fun c hc => ?_)) rfl
      rw [hlater c hc]
      rfl

/-- **ALL ROUNDS**: each variable finds what comes back, and no parameter is left. -/
theorem all_eq :
    Finding.all ds ps = ((plain ds ++ matched ps ds ++ unmatched ps ds).map fun d =>
      ⟨d, d.spec.returned (given d.spec)⟩, []) := by
  have hfirst : Parameter.withoutFirst (names (plain ds)) [] ps
      = Parameter.without (names (plain ds)) ps := by
    refine Parameter.withoutFirst_eq_without (fun name hname => ?_)
      fun _ _ hmem => absurd hmem List.not_mem_nil
    obtain ⟨d, hd, rfl⟩ := List.mem_map.1 hname
    obtain ⟨hd, hplain⟩ := List.mem_filter.1 hd
    exact (find_of_plain h hps hd (by simpa using hplain)).1
  have hleft : Parameter.without (names (exploded ds)) (Parameter.without (names (plain ds)) ps)
      = Parameter.without (names ds) ps := by
    -- a variable takes part in one of the two rounds
    rw [Parameter.without_without]
    refine Parameter.without_congr (fun name => ?_) ps
    rw [names, names, names, ← List.map_append]
    exact ((List.perm_append_comm.trans
      (List.filter_append_perm (·.spec.explode) ds)).map _).mem_iff
  rw [Finding.all_eq_of_distinct (nodup_names h), hfirst, hleft, thirdRound_eq h hps]
  dsimp only
  rw [List.map_append, List.map_append]
  refine Prod.ext (congrArg₂ _ (congrArg₂ _ ?_ ?_) rfl) rfl
  · refine List.map_congr_left fun d hd => ?_
    obtain ⟨hd, hplain⟩ := List.mem_filter.1 hd
    rw [(find_of_plain h hps hd (by simpa using hplain)).2]
  · refine List.map_congr_left fun d hd => ?_
    obtain ⟨hd, hclass⟩ := List.mem_filter.1 hd
    rw [Bool.and_eq_true, decide_eq_true_eq] at hclass
    rw [find_of_exploded h hps hd hclass.1 hclass.2]

/-- **BY NAME**: each declared variable is bound to what comes back, strict or not. -/
theorem bind_eq [DecidableEq ι] (strict : Bool) :
    bind strict ds ps = .ok (ds.map fun d => (d.spec.name, d.spec.returned (given d.spec))) := by
  have hreturned : (ds.map fun d =>
        (d.spec.name, (d.spec.returned (given d.spec)).bind Value.prune))
      = ds.map fun d => (d.spec.name, d.spec.returned (given d.spec)) :=
    List.map_congr_left fun d hd => by
      rw [VarSpec.bind_prune_returned (h.each _ (List.mem_map_of_mem hd))]
  rw [bind_eq_of_all (nodup_names h) strict (all_eq h hps), hreturned]
  cases strict <;> rfl

end

end Declared

end

/-! ## Queries -/

/-- Grouping variables loses none. -/
theorem Declared.map_spec_ofGroups (groups : List (List VarSpec)) :
    (ofGroups groups).map Declared.spec = groups.flatten := by
  rw [ofGroups, List.map_flatMap]
  have hspecs : ∀ e : List VarSpec × Nat,
      (e.1.map fun v => (⟨v, e.2⟩ : Declared Nat)).map Declared.spec = e.1 := by
    intro e
    rw [List.map_map]
    exact List.map_id e.1
  simp only [hspecs]
  rw [List.flatMap_def, List.zipIdx_map_fst]

/-- What comes back from variables, each under its name. -/
def Environment.returned (env : Environment) (keywordLists : Bool) (specs : List VarSpec) :
    Bindings :=
  specs.map fun v => (v.name, v.returned (env.value? keywordLists v.name))

namespace Pattern

variable {keywordLists : Bool} {env : Environment} {groups : List (List VarSpec)}

/-- **QUERIES**: a query gives back what its variables stand for, strict or not. -/
theorem bind_query_returned (lead : QueryLead) (hvalid : ∀ v ∈ groups.flatten, v.IsValid)
    (h : VarSpec.AreReturnable groups.flatten fun v => env.value? keywordLists v.name)
    (strict : Bool) (start : Nat) :
    (query lead groups).bind strict ((query lead groups).render keywordLists env) start
      = .ok (env.returned keywordLists groups.flatten) := by
  rcases render_query lead groups with ⟨hnil, hrender⟩ | ⟨hne, c, -, hrender⟩
  · rw [hrender, bind, Text.distinct_of_nodup h.distinct, List.map_map]
    refine congrArg Except.ok (List.map_congr_left fun v hv => ?_)
    have hreturn := h.each v hv
    have hentries := List.flatMap_eq_nil_iff.1 hnil v hv
    rw [Function.comp_apply]
    cases hvalue : env.value? keywordLists v.name with
    | none => rfl
    | some value =>
        rw [hvalue] at hreturn hentries
        exact absurd (congrArg (List.map _) hentries) (VarSpec.parameters_ne_nil hreturn)
  · obtain ⟨ps, hread, hps⟩ := exists_read_entries hvalid hne (start + 1)
    have hspecs := Declared.map_spec_ofGroups groups
    have hparameters : (env.entries keywordLists groups.flatten).map
          (fun e => (Percent.decode e.1, some e.2))
        = groups.flatten.flatMap fun v => v.parameters (env.value? keywordLists v.name) := by
      rw [Environment.entries, List.map_flatMap]
      refine List.flatMap_congr fun v _ => ?_
      cases env.value? keywordLists v.name <;> rfl
    rw [hparameters, ← hspecs] at hps
    rw [← hspecs] at h
    rw [hrender]
    show Query.bind strict groups _ (start + 1) = _
    rw [Query.bind, hread]
    dsimp only
    rw [Declared.bind_eq h hps strict, Environment.returned, ← hspecs, List.map_map]
    rfl

end Pattern

end UriTemplate
