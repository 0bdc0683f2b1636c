import UriTemplate.Proofs.RoundTrip.ByName

/-! # Scalars — single values that come back

    Variables with distinct names, none of them exploded, write a scalar each; in a
    query a variable may also be without a value.  Each then finds just what it has
    written:

    * `VarSpec.takeAll_eq` — by position, where there is one text for each variable;
    * `Pattern.bind_items_reread` — what this says of a pattern, whose variables are
      bound to the texts that decoding makes of what they have written;
    * `Pattern.bind_items_eq` — which are the texts themselves if they have no
      surrogates;
    * `Pattern.bind_query_eq` — by name, a case of what comes back from any query. -/

namespace UriTemplate

/-- Entries under distinct names are all first ones. -/
theorem OrderedMap.firsts_of_nodup {α : Type} {m : OrderedMap α} (h : (keys m).Nodup) :
    firsts m = m := by
  induction m with
  | nil => rfl
  | cons e m ih =>
      obtain ⟨he, hm⟩ := List.nodup_cons.1 h
      rw [firsts, ih hm, List.filter_eq_self.2]
      intro d hd
      rw [decide_eq_true_eq]
      intro hk
      exact he (List.mem_map.2 ⟨d, hd, hk⟩)

namespace VarSpec

/-- The text that a variable sends: of a scalar as much as its length allows. -/
def sent (v : VarSpec) : Option Value → Text
  | some (.scalar s) => v.cut s.toText
  | _ => []

/-- The value that comes back from a variable. -/
def recovered (v : VarSpec) (value : Option Value) : Option Value := Value.ofText? (v.sent value)

end VarSpec

namespace Environment

/-- The values that come back from variables. -/
def recovered (env : Environment) (keywordLists : Bool) (specs : List VarSpec) : Bindings :=
  specs.map fun v => (v.name, v.recovered (env.value? keywordLists v.name))

/-- The values that are read from what variables have written. -/
def reread (env : Environment) (keywordLists : Bool) (specs : List VarSpec) : Bindings :=
  specs.map fun v => (v.name, Value.ofText?
    (Percent.decode (Percent.encode .unreserved (v.sent (env.value? keywordLists v.name)))))

/-- Without surrogates they are those that come back. -/
theorem reread_eq_recovered {env : Environment} {keywordLists : Bool} {specs : List VarSpec}
    (hwell : ∀ v ∈ specs, (v.sent (env.value? keywordLists v.name)).IsWellFormed) :
    env.reread keywordLists specs = env.recovered keywordLists specs := by
  refine List.map_congr_left fun v hv => ?_
  rw [VarSpec.recovered, Percent.decode_encode _ (hwell v hv)]

end Environment

/-! ## By position -/

namespace VarSpec

variable {refusesPairs : Bool} {specs : List VarSpec}

/-- Without items no variable has a value. -/
theorem takeAll_nil (specs : List VarSpec) :
    takeAll refusesPairs specs [] = .ok (specs.map fun v => (v.name, none)) := by
  induction specs with
  | nil => rfl
  | cons v later ih =>
      rw [takeAll, take]
      dsimp only
      rw [ih]
      rfl

/-- With one text for each variable, each takes its own. -/
theorem takeAll_eq (hexplode : ∀ v ∈ specs, v.explode = false) {sent : VarSpec → Text}
    {items : List Item} (h : items.map Item.content = specs.map fun v => .text (sent v)) :
    takeAll refusesPairs specs items
      = .ok (specs.map fun v => (v.name, Value.ofText? (sent v))) := by
  induction specs generalizing items with
  | nil =>
      obtain rfl : items = [] := List.map_eq_nil_iff.1 h
      rfl
  | cons v later ih =>
      obtain ⟨hv, hlater⟩ := List.forall_mem_cons.1 hexplode
      match items, h with
      | ⟨content, position⟩ :: items, h =>
          obtain ⟨rfl, hitems⟩ := List.cons.inj h
          have hlast : later = [] → items = [] := by
            rintro rfl
            exact List.map_eq_nil_iff.1 hitems
          have hsingle : Item.single? ⟨.text (sent v), position⟩ = Value.ofText? (sent v) := by
            rw [Item.single?]
            cases sent v <;> rfl
          rw [takeAll, take_single hv id hlast]
          dsimp only
          rw [ih hlater hitems, hsingle, Value.bind_prune_ofText?]
          rfl

end VarSpec

/-! ## Patterns -/

variable {keywordLists : Bool} {env : Environment}

namespace Pattern

/-- A row with nothing to see has a single empty text. -/
theorem eq_singleton_of_intercalate_eq_nil {sep : CodePoint} {texts : List Text} (hne : texts ≠ [])
    (h : List.intercalate [sep] texts = []) : texts = [[]] := by
  match texts, hne with
  | s :: texts, _ =>
      rw [intercalate_cons, List.append_eq_nil_iff] at h
      obtain ⟨rfl, hmore⟩ := h
      cases texts with
      | nil => rfl
      | cons t texts => exact nomatch hmore

/-- A simple or path expression with a scalar for each variable writes their texts in a row. -/
theorem row_items_eq {layout : ItemLayout} {specs : List VarSpec}
    (hscalar : ∀ v ∈ specs, ∃ s, env.value? keywordLists v.name = some (.scalar s)) :
    (items layout specs).row keywordLists env = specs.map fun v =>
      Percent.encode .unreserved (v.sent (env.value? keywordLists v.name)) := by
  have hpart : ∀ name text, layout.operator.style.part name
      (Percent.encode layout.operator.style.escaping text) = Percent.encode .unreserved text := by
    cases layout <;> exact fun _ _ => rfl
  rw [row, expressions, List.flatMap_singleton, Expression.parts, List.map_eq_flatMap]
  refine List.flatMap_congr fun v hv => ?_
  obtain ⟨s, hs⟩ := hscalar v hv
  rw [hs]
  exact congrArg (fun text => [text]) (hpart _ _)

/-- A row of scalars is read as items from which every variable takes its own. -/
theorem exists_takeAll_eq (layout : ItemLayout) (refusesPairs : Bool) {specs : List VarSpec}
    (hexplode : ∀ v ∈ specs, v.explode = false)
    (hscalar : ∀ v ∈ specs, ∃ s, env.value? keywordLists v.name = some (.scalar s))
    (offset : Int) : ∃ found,
      Item.read layout ((items layout specs).render keywordLists env) offset = .ok found ∧
      VarSpec.takeAll refusesPairs specs found = .ok (env.reread keywordLists specs) := by
  have hrow : (items layout specs).row keywordLists env = _ := row_items_eq hscalar
  rcases render_items layout specs with ⟨hnil, hrender⟩ | ⟨hne, hrender⟩
  · rw [hrow, List.map_eq_nil_iff] at hnil
    subst hnil
    rw [hrender]
    refine ⟨[], ?_, rfl⟩
    cases layout <;> rfl
  · have hplain : ∀ v : VarSpec,
        ∀ c ∈ Percent.encode .unreserved (v.sent (env.value? keywordLists v.name)),
          isPlain c = true := fun _ => Percent.isPlain_of_mem_encode _
    have hsep : ∀ text ∈ (items layout specs).row keywordLists env, layout.separator ∉ text := by
      rw [hrow]
      refine List.forall_mem_map.2 fun v _ => not_mem_of_forall (hplain v) ?_
      cases layout <;> rfl
    have hcontents : List.Forall₂
        (fun raw content => ItemContent.ofRaw layout.hasLists raw = .ok content)
        ((items layout specs).row keywordLists env)
        (specs.map fun v => .text (Percent.decode
          (Percent.encode .unreserved (v.sent (env.value? keywordLists v.name))))) := by
      rw [hrow, List.forall₂_map_left_iff, List.forall₂_map_right_iff, List.forall₂_same]
      exact fun v _ => ItemContent.ofRaw_plain _ (hplain v)
    rw [hrender]
    obtain ⟨found, hread, hfound | ⟨-, rfl, hempty⟩⟩ :=
      Item.exists_read hne hsep hcontents offset
    · exact ⟨found, hread, VarSpec.takeAll_eq hexplode hfound⟩
    · refine ⟨[], hread, ?_⟩
      -- the row is one variable with nothing to send
      have hsingle := eq_singleton_of_intercalate_eq_nil hne hempty
      rw [hrow, List.map_eq_singleton_iff] at hsingle
      obtain ⟨v, rfl, hv⟩ := hsingle
      rw [VarSpec.takeAll_nil, Environment.reread, List.map_singleton, List.map_singleton, hv]
      rfl

/-- A simple or path expression with a scalar for each variable is bound to what is read of
    them. -/
theorem bind_items_reread (layout : ItemLayout) {specs : List VarSpec}
    (hexplode : ∀ v ∈ specs, v.explode = false) (hdistinct : (specs.map VarSpec.name).Nodup)
    (hscalar : ∀ v ∈ specs, ∃ s, env.value? keywordLists v.name = some (.scalar s))
    (strict : Bool) (start : Nat) :
    (items layout specs).bind strict ((items layout specs).render keywordLists env) start
      = .ok (env.reread keywordLists specs) := by
  obtain ⟨found, hread, htake⟩ :=
    exists_takeAll_eq layout (layout = .commas) hexplode hscalar (start : Int)
  rw [bind, hread]
  dsimp only
  rw [Item.allocate, htake]
  refine congrArg Except.ok (OrderedMap.firsts_of_nodup ?_)
  rw [OrderedMap.keys, Environment.reread, List.map_map]
  exact hdistinct

/-- **BY POSITION**: a simple or path expression with a scalar for each variable gives them back. -/
theorem bind_items_eq (layout : ItemLayout) {specs : List VarSpec}
    (hexplode : ∀ v ∈ specs, v.explode = false) (hdistinct : (specs.map VarSpec.name).Nodup)
    (hscalar : ∀ v ∈ specs, ∃ s, env.value? keywordLists v.name = some (.scalar s) ∧
      Text.IsWellFormed (v.cut s.toText))
    (strict : Bool) (start : Nat) :
    (items layout specs).bind strict ((items layout specs).render keywordLists env) start
      = .ok (env.recovered keywordLists specs) := by
  rw [bind_items_reread layout hexplode hdistinct fun v hv => (hscalar v hv).imp fun _ => And.left,
    Environment.reread_eq_recovered]
  intro v hv
  obtain ⟨s, hs, hwell⟩ := hscalar v hv
  rwa [hs]

variable {groups : List (List VarSpec)}

/-- **BY NAME**: a query gives back the scalars of its variables, strict or not. -/
theorem bind_query_eq (lead : QueryLead) (hvalid : ∀ v ∈ groups.flatten, v.IsValid)
    (hexplode : ∀ v ∈ groups.flatten, v.explode = false)
    (hdistinct : (groups.flatten.map VarSpec.name).Nodup)
    (hdecoded : ∀ v ∈ groups.flatten, .char '%' ∉ v.name)
    (hscalar : ∀ v ∈ groups.flatten, (∃ s, env.value? keywordLists v.name = some (.scalar s) ∧
      Text.IsWellFormed (v.cut s.toText)) ∨ env.value? keywordLists v.name = none)
    (strict : Bool) (start : Nat) :
    (query lead groups).bind strict ((query lead groups).render keywordLists env) start
      = .ok (env.recovered keywordLists groups.flatten) := by
  have hreturn : VarSpec.AreReturnable groups.flatten fun v => env.value? keywordLists v.name := by
    refine ⟨hdistinct, hdecoded, fun v hv => ?_, List.pairwise_of_forall_mem_list ?_⟩
    · rcases hscalar v hv with ⟨s, hs, hwell⟩ | hnone
      · rw [hs]
        exact ⟨hexplode v hv, hwell⟩
      · rw [hnone]
        trivial
    · -- no variable has a map
      rintro u - v hv ⟨pairs, hpairs⟩
      rcases hscalar v hv with ⟨s, hs, -⟩ | hnone
      · exact nomatch hs.symm.trans hpairs
      · exact nomatch hnone.symm.trans hpairs
  rw [bind_query_returned lead hvalid hreturn]
  refine congrArg Except.ok (List.map_congr_left fun v hv => ?_)
  rw [VarSpec.recovered]
  rcases hscalar v hv with ⟨s, hs, -⟩ | hnone
  · rw [hs]
    rfl
  · rw [hnone]
    rfl

end Pattern

end UriTemplate
