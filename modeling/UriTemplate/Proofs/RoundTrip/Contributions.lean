import UriTemplate.Proofs.RoundTrip.Stretch
import UriTemplate.Proofs.RoundTrip.Taking

/-! # Contributions — what each variable writes, as it is read back

    A flat value has one level of members at most.  Of such a value, what a variable
    has written is read back as it was meant:

    * `VarSpec.parts_eq_entries` — in a query, as parameters with names
      (`VarSpec.entries`), whatever the value;
    * `VarSpec.exists_contents` — elsewhere, as a run of texts, a run of pairs, or one
      item (`VarSpec.MayWrite`).

    Taken together, a query is read as the parameters of all its variables
    (`Pattern.exists_read_entries`), and another expression as contents that its
    variables could have written (`Expression.exists_contents`). -/

namespace UriTemplate

/-! ## Flat values -/

/-- A scalar, a list of scalars, or an associative array of scalars? -/
def Value.IsFlat : Value → Prop
  | .scalar _ => True
  | .list items => ∀ v ∈ items, ∃ s, v = .scalar s
  | .assoc pairs => ∀ p ∈ pairs, ∃ s, p.2 = .scalar s

/-- A scalar, a sequence of scalars, or a map to scalars? -/
def Datum.IsFlat : Datum → Prop
  | .scalar _ => True
  | .list items _ | .tuple items _ => ∀ d ∈ items, ∃ s, d = .scalar s
  | .map entries _ => ∀ e ∈ entries, ∃ s, e.2 = .scalar s
  | .value v _ => v.IsFlat

/-- Does every variable that has a value have a flat one? -/
def Environment.IsFlat (env : Environment) (keywordLists : Bool) : Prop :=
  ∀ name value, env.value? keywordLists name = some value → value.IsFlat

namespace Datum

theorem isFlat_itemsOf {keywordLists : Bool} {items : List Datum}
    (h : ∀ d ∈ items, ∃ s, d = .scalar s) :
    ∀ v ∈ itemsOf keywordLists items, ∃ s, v = .scalar s := by
  induction items with
  | nil => exact nofun
  | cons d items ih =>
      obtain ⟨⟨s, rfl⟩, hitems⟩ := List.forall_mem_cons.1 h
      exact List.forall_mem_cons.2 ⟨⟨s, rfl⟩, ih hitems⟩

theorem isFlat_membersOf {keywordLists : Bool} {entries : List (Scalar × Datum)}
    (h : ∀ e ∈ entries, ∃ s, e.2 = .scalar s) :
    ∀ p ∈ membersOf keywordLists entries, ∃ s, p.2 = .scalar s := by
  induction entries with
  | nil => exact nofun
  | cons e entries ih =>
      obtain ⟨k, d⟩ := e
      obtain ⟨⟨s, hd⟩, hentries⟩ := List.forall_mem_cons.1 h
      obtain rfl : d = .scalar s := hd
      exact List.forall_mem_cons.2 ⟨⟨s, rfl⟩, ih hentries⟩

/-- A row of scalars is no keyword list. -/
theorem areKeywords_eq_false {items : List Datum} (h : ∀ d ∈ items, ∃ s, d = .scalar s) :
    areKeywords items = false := by
  cases items with
  | nil => rfl
  | cons d items =>
      obtain ⟨⟨s, rfl⟩, -⟩ := List.forall_mem_cons.1 h
      rfl

theorem isFlat_toValue {keywordLists : Bool} {d : Datum} (h : d.IsFlat) :
    (d.toValue keywordLists).IsFlat := by
  cases d with
  | scalar s => trivial
  | list items | tuple items =>
      rw [toValue, areKeywords_eq_false h, Bool.and_false]
      exact isFlat_itemsOf h
  | map entries => exact isFlat_membersOf h
  | value v => exact h

end Datum

/-- What is found under a name is an entry of that name. -/
theorem OrderedMap.mem_of_get? {α : Type} {m : OrderedMap α} {k : Text} {a : α}
    (h : get? m k = some a) : (k, a) ∈ m := by
  induction m with
  | nil => exact nomatch h
  | cons e m ih =>
      rw [get?] at h
      split at h
      · next hk =>
          obtain rfl := Option.some.inj h
          rw [← hk]
          exact List.mem_cons_self
      · exact List.mem_cons_of_mem e (ih h)

/-- Flat data have flat values, whichever of their members are null. -/
theorem Environment.isFlat_of_data {env : Environment} (keywordLists : Bool)
    (h : ∀ e ∈ env, e.2.IsFlat) : env.IsFlat keywordLists := by
  intro name value hvalue
  obtain ⟨whole, hwhole, hprune⟩ := Option.bind_eq_some_iff.1 hvalue
  obtain ⟨d, hd, hcoerce⟩ := Option.bind_eq_some_iff.1 hwhole
  have hflat : whole.IsFlat := by
    unfold Datum.coerce at hcoerce
    split at hcoerce
    · exact nomatch hcoerce
    · obtain rfl := Option.some.inj hcoerce
      exact Datum.isFlat_toValue (h _ (OrderedMap.mem_of_get? hd))
  unfold Value.prune at hprune
  split at hprune
  · exact nomatch hprune
  · cases whole with
    | scalar s =>
        obtain rfl := Option.some.inj hprune
        trivial
    | list items =>
        obtain rfl := Option.some.inj hprune
        exact fun v hv => hflat v (List.mem_of_mem_filter hv)
    | assoc pairs =>
        obtain rfl := Option.some.inj hprune
        exact fun p hp => hflat p (List.mem_of_mem_filter hp)

namespace Value

theorem isPlain_of_mem_encoded {v : Value} (h : ∃ s, v = .scalar s) :
    ∀ c ∈ v.encoded .unreserved, isPlain c = true := by
  obtain ⟨s, rfl⟩ := h
  exact Percent.isPlain_of_mem_encode s.toText

theorem isPlain_of_mem_encodedItems {items : List Value} (h : ∀ v ∈ items, ∃ s, v = .scalar s) :
    ∀ text ∈ encodedItems .unreserved items, ∀ c ∈ text, isPlain c = true := by
  induction items with
  | nil => exact nofun
  | cons v items ih =>
      obtain ⟨hv, hitems⟩ := List.forall_mem_cons.1 h
      exact List.forall_mem_cons.2 ⟨isPlain_of_mem_encoded hv, ih hitems⟩

end Value

namespace VarSpec

/-- A text as far as the length of the variable goes. -/
def cut (v : VarSpec) (text : Text) : Text :=
  match v.maxLength with
  | some n => text.upTo n
  | none => text

/-! ## Parameters -/

/-- The names and values that a variable contributes to a query. -/
def entries (v : VarSpec) : Value → List (Text × Text)
  | .scalar s => [(v.name, Percent.encode .unreserved (v.cut s.toText))]
  | .list items =>
      let encoded := Value.encodedItems .unreserved items
      if v.explode then encoded.map (v.name, ·) else [(v.name, commaJoined encoded)]
  | .assoc pairs =>
      if v.explode then
        pairs.map fun p => (Percent.encode .unreserved p.1, p.2.encoded .unreserved)
      else [(v.name, commaJoined (Value.encodedPairs .unreserved pairs))]

/-- In a query all that a variable contributes has a name. -/
theorem parts_eq_entries (v : VarSpec) {op : Operator} (hop : op.isQuery = true) (value : Value) :
    v.parts op.style value = (v.entries value).map Parameter.written := by
  have hwritten : ∀ name encoded,
      op.style.nameValue name encoded = Parameter.written (name, encoded) ∧
      op.style.part name encoded = Parameter.written (name, encoded) := by
    cases op with
    | query | continuation => exact fun _ _ => ⟨rfl, rfl⟩
    | simple | reserved | fragment | label | pathSegment | pathParameter => exact nomatch hop
  have hescaping : op.style.escaping = .unreserved := by
    cases op with
    | query | continuation => rfl
    | simple | reserved | fragment | label | pathSegment | pathParameter => exact nomatch hop
  unfold parts entries
  rw [hescaping]
  cases value with
  | scalar s => exact congrArg (fun text => [text]) (hwritten _ _).2
  | list items =>
      dsimp only
      split
      · rw [List.map_map]
        exact List.map_congr_left fun encoded _ => (hwritten _ encoded).2
      · exact congrArg (fun text => [text]) (hwritten _ _).2
  | assoc pairs =>
      dsimp only
      split
      · rw [List.map_map]
        exact List.map_congr_left fun p _ => (hwritten _ _).1
      · exact congrArg (fun text => [text]) (hwritten _ _).2

/-- Names are plain, values are listed. -/
theorem isPlain_of_mem_entries {v : VarSpec} (hname : isName v.name = true) (value : Value) :
    ∀ e ∈ v.entries value, (∀ c ∈ e.1, isPlain c = true) ∧ ∀ c ∈ e.2, isListed c = true := by
  have hplain := isPlain_of_isNameRest hname
  unfold entries
  cases value with
  | scalar s =>
      exact List.forall_mem_singleton.2 ⟨hplain, Percent.isListed_of_mem_encode _⟩
  | list items =>
      have hitems := Value.isListed_of_mem_encodedItems items
      dsimp only
      split
      · exact List.forall_mem_map.2 fun encoded he => ⟨hplain, hitems encoded he⟩
      · exact List.forall_mem_singleton.2 ⟨hplain, forall_mem_intercalate rfl hitems⟩
  | assoc pairs =>
      dsimp only
      split
      · exact List.forall_mem_map.2 fun p _ =>
          ⟨Percent.isPlain_of_mem_encode p.1, Value.isListed_of_mem_encoded p.2⟩
      · exact List.forall_mem_singleton.2 ⟨hplain,
          forall_mem_intercalate rfl (Value.isListed_of_mem_encodedPairs pairs)⟩

end VarSpec

/-! ## Items -/

namespace Style

variable {style : Style}

theorem part_values (h : style.naming = .values) (name encoded : Text) :
    style.part name encoded = encoded := by
  rw [part, isNamed, h]
  rfl

theorem nameValue_values (h : style.naming = .values) (name encoded : Text) :
    style.nameValue name encoded = name ++ .char '=' :: encoded := by
  rw [nameValue, h]
  rfl

end Style

namespace VarSpec

variable {v : VarSpec} {style : Style} {value : Value}

/-- Without names, what a variable that is not exploded contributes is one listed text. -/
theorem exists_parts_eq (style : Style) (hescaping : style.escaping = .unreserved)
    (hnaming : style.naming = .values) (hexplode : v.explode = false) (value : Value) :
    ∃ text, v.parts style value = [text] ∧ ∀ c ∈ text, isListed c = true := by
  unfold parts
  rw [hescaping, hexplode]
  cases value with
  | scalar s =>
      exact ⟨_, congrArg (fun text => [text]) (Style.part_values hnaming _ _),
        Percent.isListed_of_mem_encode _⟩
  | list items =>
      exact ⟨_, congrArg (fun text => [text]) (Style.part_values hnaming _ _),
        forall_mem_intercalate rfl (Value.isListed_of_mem_encodedItems items)⟩
  | assoc pairs =>
      exact ⟨_, congrArg (fun text => [text]) (Style.part_values hnaming _ _),
        forall_mem_intercalate rfl (Value.isListed_of_mem_encodedPairs pairs)⟩

/-- Without names, what an exploded variable contributes is plain texts only, or pairs of plain
    texts only. -/
theorem parts_of_explode (style : Style) (hescaping : style.escaping = .unreserved)
    (hnaming : style.naming = .values) (hexplode : v.explode = true) (hflat : value.IsFlat) :
    (∀ text ∈ v.parts style value, ∀ c ∈ text, isPlain c = true) ∨
    (∀ text ∈ v.parts style value, ∃ key member, text = key ++ .char '=' :: member ∧
      (∀ c ∈ key, isPlain c = true) ∧ ∀ c ∈ member, isPlain c = true) := by
  unfold parts
  rw [hescaping, hexplode]
  cases value with
  | scalar s =>
      dsimp only
      rw [Style.part_values hnaming]
      exact Or.inl (List.forall_mem_singleton.2 (Percent.isPlain_of_mem_encode _))
  | list items =>
      refine Or.inl (List.forall_mem_map.2 fun encoded he => ?_)
      rw [Style.part_values hnaming]
      exact Value.isPlain_of_mem_encodedItems hflat encoded he
  | assoc pairs =>
      exact Or.inr (List.forall_mem_map.2 fun p hp => ⟨_, _, Style.nameValue_values hnaming _ _,
        Percent.isPlain_of_mem_encode p.1, Value.isPlain_of_mem_encoded (hflat p hp)⟩)

/-- **READ AS WRITTEN**: what a variable contributes can be read, as contents that it could have
    written. -/
theorem exists_contents (lists : Bool) (hescaping : style.escaping = .unreserved)
    (hnaming : style.naming = .values) (hflat : value.IsFlat) :
    ∃ contents, List.Forall₂ (fun raw content => ItemContent.ofRaw lists raw = .ok content)
      (v.parts style value) contents ∧ v.MayWrite contents := by
  unfold MayWrite
  cases hexplode : v.explode with
  | false =>
      obtain ⟨text, hparts, hlisted⟩ := exists_parts_eq style hescaping hnaming hexplode value
      obtain ⟨content, hread, hcontent⟩ := ItemContent.ofRaw_listed lists hlisted
      rw [hparts]
      exact ⟨[content], .cons hread .nil, Nat.le_refl 1, List.forall_mem_singleton.2 hcontent⟩
  | true =>
      rcases parts_of_explode style hescaping hnaming hexplode hflat with hplain | hpairs
      · obtain ⟨contents, hall, htexts⟩ := ItemContent.exists_forall₂ (q := ItemContent.IsText)
          fun text htext => ⟨_, ItemContent.ofRaw_plain lists (hplain text htext), trivial⟩
        exact ⟨contents, hall, Or.inl htexts⟩
      · obtain ⟨contents, hall, hcontents⟩ := ItemContent.exists_forall₂ (q := ItemContent.IsPair)
          fun text htext => by
            obtain ⟨key, member, rfl, hkey, hmember⟩ := hpairs text htext
            exact ⟨_, ItemContent.ofRaw_pair lists hkey fun c hc =>
              isListed_of_isPlain (hmember c hc), trivial⟩
        exact ⟨contents, hall, Or.inr hcontents⟩

end VarSpec

/-! ## Expressions and patterns -/

variable {keywordLists : Bool} {env : Environment}

/-- The parts of an expression without names can be read, as contents that its variables could
    have written one after the other. -/
theorem Expression.exists_contents {e : Expression} (lists : Bool)
    (hescaping : e.operator.style.escaping = .unreserved)
    (hnaming : e.operator.style.naming = .values) (hflat : env.IsFlat keywordLists) :
    ∃ contents, List.Forall₂ (fun raw content => ItemContent.ofRaw lists raw = .ok content)
      (e.parts keywordLists env) contents ∧ VarSpec.Covers e.specs contents := by
  obtain ⟨op, specs⟩ := e
  induction specs with
  | nil => exact ⟨[], .nil, rfl⟩
  | cons v later ih =>
      obtain ⟨others, hothers, hcovers⟩ := ih hescaping hnaming
      rw [Expression.parts, List.flatMap_cons]
      cases hvalue : env.value? keywordLists v.name with
      | none => exact ⟨others, hothers, [], others, rfl, v.mayWrite_nil, hcovers⟩
      | some value =>
          obtain ⟨own, hown, hmay⟩ :=
            VarSpec.exists_contents lists hescaping hnaming (hflat v.name value hvalue)
          exact ⟨own ++ others, List.rel_append hown hothers, own, others, rfl, hmay, hcovers⟩

/-- The names and values that variables contribute to a query. -/
def Environment.entries (env : Environment) (keywordLists : Bool) (specs : List VarSpec) :
    List (Text × Text) :=
  specs.flatMap fun v =>
    match env.value? keywordLists v.name with
    | some value => v.entries value
    | none => []

theorem Expression.parts_eq_entries {e : Expression} (h : e.operator.isQuery = true) :
    e.parts keywordLists env = (env.entries keywordLists e.specs).map Parameter.written := by
  rw [Expression.parts, Environment.entries, List.map_flatMap]
  congr 1
  funext v
  cases env.value? keywordLists v.name with
  | none => rfl
  | some value => exact v.parts_eq_entries h value

namespace Pattern

variable {lead : QueryLead} {groups : List (List VarSpec)}

theorem isQuery_of_mem_expressions {e : Expression} (h : e ∈ (query lead groups).expressions) :
    e.operator.isQuery = true := by
  match groups, h with
  | _ :: groups, h =>
      rcases List.mem_cons.1 h with rfl | h
      · cases lead <;> rfl
      · obtain ⟨g, -, rfl⟩ := List.mem_map.1 h
        rfl

/-- A simple or path expression writes nothing, or its lead and its items. -/
theorem render_items (layout : ItemLayout) (specs : List VarSpec) :
    let row := (items layout specs).row keywordLists env
    (row = [] ∧ (items layout specs).render keywordLists env = []) ∨
    (row ≠ [] ∧ (items layout specs).render keywordLists env
      = Item.lead layout ++ List.intercalate [layout.separator] row) := by
  intro row
  rcases (items layout specs).render_eq_nil_or keywordLists env with
    hnil | ⟨hne, lead, hlead, hrender⟩
  · exact Or.inl hnil
  · obtain rfl := List.mem_singleton.1 hlead
    refine Or.inr ⟨hne, ?_⟩
    rw [hrender]
    cases layout <;> rfl

/-- A query writes nothing, or one of its leads and the parameters of all its variables. -/
theorem render_query (lead : QueryLead) (groups : List (List VarSpec)) :
    let entries := env.entries keywordLists groups.flatten
    (entries = [] ∧ (query lead groups).render keywordLists env = []) ∨
    (entries ≠ [] ∧ ∃ c : CodePoint, (c = '?' ∨ c = '&') ∧
      (query lead groups).render keywordLists env
        = c :: List.intercalate [.char '&'] (entries.map Parameter.written)) := by
  intro entries
  have hrow : (query lead groups).row keywordLists env = entries.map Parameter.written := by
    have hspecs : groups.flatten = (query lead groups).expressions.flatMap Expression.specs :=
      specs_eq (query lead groups)
    show _ = (env.entries keywordLists groups.flatten).map Parameter.written
    rw [row, List.flatMap_congr fun e he =>
      Expression.parts_eq_entries (isQuery_of_mem_expressions he), hspecs, Environment.entries,
      List.flatMap_assoc, List.map_flatMap]
    rfl
  have hseparator : (query lead groups).style.separator = '&' := by cases lead <;> rfl
  have hmap : entries.map Parameter.written = [] ↔ entries = [] := List.map_eq_nil_iff
  rcases (query lead groups).render_eq_nil_or keywordLists env with
    ⟨hnil, hrender⟩ | ⟨hne, opening, hopening, hrender⟩
  · rw [hrow, hmap] at hnil
    exact Or.inl ⟨hnil, hrender⟩
  · rw [hrow, ne_eq, hmap] at hne
    rw [hrow, hseparator] at hrender
    simp only [leads, List.mem_cons, List.not_mem_nil, or_false] at hopening
    rcases hopening with rfl | rfl
    · exact Or.inr ⟨hne, '?', Or.inl rfl, hrender⟩
    · exact Or.inr ⟨hne, '&', Or.inr rfl, hrender⟩

/-- The parameters of well-formed variables are read as their names and values. -/
theorem exists_read_entries {specs : List VarSpec} (hvalid : ∀ v ∈ specs, v.IsValid)
    (hne : env.entries keywordLists specs ≠ []) (offset : Int) :
    ∃ ps, Query.read (List.intercalate [.char '&']
        ((env.entries keywordLists specs).map Parameter.written)) offset = .ok ps ∧
      ps.map (fun p => (p.name, p.raw))
        = (env.entries keywordLists specs).map fun e => (Percent.decode e.1, some e.2) := by
  have hentries : ∀ e ∈ env.entries keywordLists specs,
      (∀ c ∈ e.1, isPlain c = true) ∧ ∀ c ∈ e.2, isListed c = true := by
    intro e he
    obtain ⟨v, hv, he⟩ := List.mem_flatMap.1 he
    split at he
    · exact VarSpec.isPlain_of_mem_entries (hvalid v hv).name _ e he
    · exact (List.not_mem_nil he).elim
  refine Query.exists_read hne ?_ ?_ offset
  · intro e he
    exact ⟨not_mem_of_forall (hentries e he).1 rfl, not_mem_of_forall (hentries e he).2 rfl⟩
  · intro e he
    exact not_mem_joined (by decide) (not_mem_of_forall (hentries e he).1 rfl)
      (not_mem_of_forall (hentries e he).2 rfl)

end Pattern

end UriTemplate
