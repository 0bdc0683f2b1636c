import UriTemplate.Proofs.Expansion.Readings
import UriTemplate.Proofs.Matching.Shapes
import UriTemplate.Proofs.RoundTrip.BackToUrl

/-! # Plain values — handed back in they are the values again

    A plain value shows texts, lists and maps.  As data of a caller (`Plain.toDatum`) a text is
    taken for a scalar, a list for a list, as none of its items is a tuple, and a map for an
    associative array.  So the value comes back, unless showing it has lost something: a scalar
    that is no text has become one, and of pairs under one key only one is left.

    * `Value.toValue_toDatum` — a value of texts and distinct keys comes back;
    * `Template.hasTexts_of_matchUrl` — what a URL gives holds texts only;
    * **`Template.coerce_and_render_plain`** — so results without repeated keys are expanded
      alike from plain values and from the values themselves. -/

namespace UriTemplate

/-! ## Plain values as data -/

namespace Plain

mutual

/-- A plain value as a caller hands it in. -/
def toDatum : Plain → Datum
  | null => .scalar .null
  | text s => .scalar (.text s)
  | list items => .list (itemsData items)
  | map entries => .map (entriesData entries)

/-- The items of a plain list as data. -/
def itemsData : List Plain → List Datum
  | [] => []
  | p :: items => p.toDatum :: itemsData items

/-- The entries of a plain map as data, under the same texts. -/
def entriesData : List (Text × Plain) → List (Scalar × Datum)
  | [] => []
  | (k, p) :: entries => (.text k, p.toDatum) :: entriesData entries

end

/-- Names and plain values as data for an expansion. -/
def environment (entries : List (Text × Plain)) : Environment :=
  entries.map fun e => (e.1, e.2.toDatum)

theorem get?_environment (entries : List (Text × Plain)) (name : Text) :
    OrderedMap.get? (environment entries) name = (OrderedMap.get? entries name).map toDatum :=
  OrderedMap.get?_map (fun _ p => toDatum p) entries name

theorem itemsData_eq_map (items : List Plain) : itemsData items = items.map toDatum := by
  induction items with
  | nil => rfl
  | cons p items ih => rw [itemsData, ih, List.map_cons]

theorem entriesData_eq_map (entries : List (Text × Plain)) :
    entriesData entries = entries.map fun e => (.text e.1, e.2.toDatum) := by
  induction entries with
  | nil => rfl
  | cons e entries ih => rw [entriesData, ih, List.map_cons]

/-- No plain value is a pair, so no list of them is a keyword list. -/
theorem areKeywords_toDatum (items : List Plain) :
    Datum.areKeywords (items.map toDatum) = false := by
  cases items with
  | nil => rfl
  | cons p items => cases p <;> rfl

end Plain

/-- Entries under distinct names are all kept, in their places. -/
theorem OrderedMap.ofList_of_nodup {α : Type} {entries : List (Text × α)}
    (h : (keys entries).Nodup) : ofList entries = entries := by
  -- for any map that was filled before, as each entry is put behind it
  have hfold : ∀ m : OrderedMap α, (keys (m ++ entries)).Nodup →
      entries.foldl (fun m e => insert m e.1 e.2) m = m ++ entries := by
    clear h
    induction entries with
    | nil => exact fun m _ => (List.append_nil m).symm
    | cons e entries ih =>
        intro m hm
        have hnew : get? m e.1 = none := by
          rw [← Option.not_isSome_iff_eq_none]
          intro hsome
          rw [keys, List.map_append] at hm
          exact (List.disjoint_of_nodup_append hm) (contains_iff_mem_keys.1 hsome)
            List.mem_cons_self
        rw [List.foldl_cons, insert_of_get?_eq_none hnew, ih, List.append_assoc,
          List.singleton_append]
        rwa [List.append_assoc, List.singleton_append]
  exact hfold [] h

/-- Of entries under distinct names those without a value can be left out. -/
theorem OrderedMap.get?_filterMap {α β : Type} (f : α → β) {m : OrderedMap (Option α)}
    (h : (keys m).Nodup) (k : Text) :
    get? (m.filterMap fun e => e.2.map fun a => (e.1, f a)) k = (get? m k).join.map f := by
  induction m with
  | nil => rfl
  | cons e m ih =>
      obtain ⟨name, value⟩ := e
      obtain ⟨hname, hm⟩ := List.nodup_cons.1 h
      rw [List.filterMap_cons, get?]
      cases value with
      | none =>
          refine (ih hm).trans ?_
          split
          · next heq =>
              -- the name is not there a second time
              have hnone : get? m k = none := by
                rw [← Option.not_isSome_iff_eq_none]
                exact fun hsome => hname (heq ▸ contains_iff_mem_keys.1 hsome)
              rw [hnone]
              rfl
          · rfl
      | some a =>
          show get? ((name, f a) :: _) k = _
          rw [get?]
          split
          · rfl
          · exact ih hm

/-! ## Values that come back -/

namespace Value

/-- Is every scalar a text, at any depth? -/
inductive HasTexts : Value → Prop where
  | scalar (s : Text) : HasTexts (.scalar (.text s))
  | list {items : List Value} : (∀ v ∈ items, HasTexts v) → HasTexts (.list items)
  | assoc {pairs : List (Text × Value)} : (∀ p ∈ pairs, HasTexts p.2) → HasTexts (.assoc pairs)

/-- Does no associative array repeat a key, at any depth? -/
inductive HasDistinctKeys : Value → Prop where
  | scalar (s : Scalar) : HasDistinctKeys (.scalar s)
  | list {items : List Value} : (∀ v ∈ items, HasDistinctKeys v) → HasDistinctKeys (.list items)
  | assoc {pairs : List (Text × Value)} : (pairs.map (·.1)).Nodup →
      (∀ p ∈ pairs, HasDistinctKeys p.2) → HasDistinctKeys (.assoc pairs)

theorem plainItems_eq_map (items : List Value) : plainItems items = items.map toPlain := by
  induction items with
  | nil => rfl
  | cons v items ih => rw [plainItems, ih, List.map_cons]

theorem plainEntries_eq_map (pairs : List (Text × Value)) :
    plainEntries pairs = pairs.map fun p => (p.1, p.2.toPlain) := by
  induction pairs with
  | nil => rfl
  | cons p pairs ih => rw [plainEntries, ih, List.map_cons]

/-- **PLAIN VALUES**: the plain value of a value of texts and distinct keys is taken for that
    value, whether keyword lists are on or off. -/
theorem toValue_toDatum (keywordLists : Bool) {v : Value} (htexts : v.HasTexts)
    (hkeys : v.HasDistinctKeys) : v.toPlain.toDatum.toValue keywordLists = v := by
  induction v using nestedInduction with
  | scalar s =>
      cases htexts with
      | scalar s => rfl
  | list items ih =>
      cases htexts with
      | list hitems =>
          cases hkeys with
          | list hdistinct =>
              rw [toPlain, plainItems_eq_map, Plain.toDatum, Plain.itemsData_eq_map,
                Datum.toValue_list (Plain.areKeywords_toDatum _), List.map_map, List.map_map]
              refine congrArg Value.list ((List.map_congr_left fun v hv => ?_).trans
                (List.map_id items))
              exact ih v hv (hitems v hv) (hdistinct v hv)
  | assoc pairs ih =>
      cases htexts with
      | assoc hpairs =>
          cases hkeys with
          | assoc hnodup hdistinct =>
              -- only with distinct keys does the plain map hold every pair
              have hkept : (OrderedMap.keys (pairs.map fun p => (p.1, p.2.toPlain))).Nodup := by
                rw [OrderedMap.keys, List.map_map]
                exact hnodup
              rw [toPlain, plainEntries_eq_map, OrderedMap.ofList_of_nodup hkept, Plain.toDatum,
                Plain.entriesData_eq_map, Datum.toValue_map, List.map_map, List.map_map]
              refine congrArg Value.assoc ((List.map_congr_left fun p hp => ?_).trans
                (List.map_id pairs))
              exact congrArg (p.1, ·) (ih p hp (hpairs p hp) (hdistinct p hp))

/-- The plain value of a value is not null. -/
theorem coerce_toDatum (keywordLists : Bool) (v : Value) :
    v.toPlain.toDatum.coerce keywordLists = some (v.toPlain.toDatum.toValue keywordLists) := by
  cases v <;> rfl

theorem hasTexts_ofTexts (texts : List Text) : (ofTexts texts).HasTexts :=
  .list (List.forall_mem_map.2 fun s _ => .scalar s)

/-- What can be found holds texts only. -/
theorem IsFound.hasTexts {lists : Bool} {spec : VarSpec} {v : Value} (h : v.IsFound lists spec) :
    v.HasTexts := by
  cases h with
  | text _ => exact .scalar _
  | texts _ _ => exact hasTexts_ofTexts _
  | assoc _ _ hmembers =>
      refine .assoc fun p hp => ?_
      obtain ⟨key, member⟩ := p
      have hmember : member.IsFoundMember lists := hmembers _ hp
      cases hmember with
      | text s => exact .scalar s
      | texts _ _ => exact hasTexts_ofTexts _

end Value

/-! ## Results as plain values -/

namespace MatchResult

variable (r : MatchResult) (keywordLists : Bool) (name : Text)

/-- Under a name there is the plain value, and null if it has none. -/
theorem value?_entries :
    Environment.value? (Plain.environment r.entries) keywordLists name
      = (r.value? name).bind fun v => (v.toPlain.toDatum.toValue keywordLists).prune := by
  have hget := OrderedMap.get?_map (fun _ value => Value.plainOf value) r.bindings name
  rw [Environment.value?_eq, Plain.get?_environment, entries, hget, value?]
  cases OrderedMap.get? r.bindings name with
  | none => rfl
  | some value =>
      cases value with
      | none => rfl
      | some v => rfl

/-- Names without a value can be left out. -/
theorem value?_matched (h : r.names.Nodup) :
    Environment.value? (Plain.environment r.matched) keywordLists name
      = (r.value? name).bind fun v => (v.toPlain.toDatum.toValue keywordLists).prune := by
  rw [Environment.value?_eq, Plain.get?_environment, matched,
    OrderedMap.get?_filterMap Value.toPlain h, value?, Option.map_map, Option.bind_map]
  rfl

end MatchResult

namespace Template

/-- What a URL gives holds texts only. -/
theorem hasTexts_of_matchUrl {t : Template} {url : Text} {result : MatchResult}
    (h : (t.matchUrl url).value = .ok result) {name : Text} {value : Value}
    (hvalue : result.value? name = some value) : value.HasTexts := by
  obtain ⟨_, _, _, _, _, hfound⟩ := exists_isFound_of_matchUrl h hvalue
  exact hfound.hasTexts

/-- A result has each name once. -/
theorem nodup_names_of_matchUrl {t : Template} {url : Text} {result : MatchResult}
    (h : (t.matchUrl url).value = .ok result) : result.names.Nodup := by
  obtain ⟨parts, -, hsolve⟩ := Matching.exists_solve_of_matchUrl h
  rw [MatchResult.names, Matching.keys_of_solve hsolve]
  exact Text.nodup_distinct _

/-- **BACK**: as data of a caller the plain value of a value of texts and distinct keys is that
    value again.  So what a URL gives, if no associative array in it repeats a key, is expanded
    alike from plain values, those of all variables or of the matched ones, and as it is. -/
theorem coerce_and_render_plain :
    (∀ v : Value, v.HasTexts → v.HasDistinctKeys → ∀ keywordLists,
      v.toPlain.toDatum.coerce keywordLists = some v) ∧
    ∀ (t : Template) (url : Text) (result : MatchResult), (t.matchUrl url).value = .ok result →
      (∀ name value, result.value? name = some value → value.HasDistinctKeys) →
      ∀ u : Template,
        u.render (Plain.environment result.entries) = u.render result.environment ∧
        u.render (Plain.environment result.matched) = u.render result.environment := by
  constructor
  · intro v htexts hkeys keywordLists
    rw [Value.coerce_toDatum, Value.toValue_toDatum keywordLists htexts hkeys]
  · intro t url result h hkeys u
    -- under every name the plain value is taken for the value
    have hback : ∀ keywordLists name,
        ((result.value? name).bind fun v => (v.toPlain.toDatum.toValue keywordLists).prune)
          = (result.value? name).bind Value.prune := by
      intro keywordLists name
      cases hvalue : result.value? name with
      | none => rfl
      | some v =>
          have htexts := hasTexts_of_matchUrl h hvalue
          rw [Option.bind_some, Option.bind_some,
            Value.toValue_toDatum keywordLists htexts (hkeys name v hvalue)]
    constructor
    · refine render_congr fun name => ?_
      rw [MatchResult.value?_entries, MatchResult.value?_environment, hback]
    · refine render_congr fun name => ?_
      rw [MatchResult.value?_matched _ _ _ (nodup_names_of_matchUrl h),
        MatchResult.value?_environment, hback]

/-- A list and a text under keys, and a list, expanded by another template. -/
theorem coerce_and_render_plain_path :
    let a : VarSpec := ⟨"a".toText, true, none⟩
    let b : VarSpec := ⟨"b".toText, false, none⟩
    let t : Template :=
      .mk "\x7b/a*,b\x7d".toText [.expression ⟨.pathSegment, [a, b]⟩] ⟨true, false⟩
    let u : Template :=
      .mk "\x7b?b,a*\x7d".toText [.expression ⟨.query, [b, a]⟩] ⟨true, false⟩
    let pairs : Value := .assoc [("k".toText, .ofTexts ["1".toText, []]), ("l".toText, .ofText [])]
    let texts : Value := .ofTexts ["x".toText, "y".toText]
    let result : MatchResult := ⟨[("a".toText, some pairs), ("b".toText, some texts)]⟩
    pairs.HasTexts ∧ pairs.HasDistinctKeys ∧
      pairs.toPlain.toDatum.coerce true = some pairs ∧
      (t.matchUrl "/k=1,/l=/x/y".toText).value = .ok result ∧
      u.render (Plain.environment result.entries) = u.render result.environment ∧
      u.render (Plain.environment result.matched) = u.render result.environment ∧
      u.render result.environment = "?b=x,y&k=1,&l=".toText := by
  intro a b t u pairs texts result
  have hofTexts : ∀ l, (Value.ofTexts l).HasDistinctKeys := fun l =>
    .list (List.forall_mem_map.2 fun s _ => .scalar _)
  have htexts : pairs.HasTexts :=
    .assoc (List.forall_mem_cons.2 ⟨Value.hasTexts_ofTexts _,
      List.forall_mem_singleton.2 (.scalar [])⟩)
  have hkeys : pairs.HasDistinctKeys :=
    .assoc (by decide) (List.forall_mem_cons.2 ⟨hofTexts _,
      List.forall_mem_singleton.2 (.scalar _)⟩)
  have hresult : (t.matchUrl "/k=1,/l=/x/y".toText).value = .ok result :=
    (Matching.matchUrl_value "/k=1,/l=/x/y".toText rfl).trans (by cbv)
  have hdistinct : ∀ name value, result.value? name = some value → value.HasDistinctKeys := by
    intro name value hvalue
    have hmem := OrderedMap.mem_of_get? (Option.join_eq_some_iff.1 hvalue)
    rcases List.mem_cons.1 hmem with heq | hmem
    · cases heq
      exact hkeys
    · cases List.mem_singleton.1 hmem
      exact hofTexts _
  obtain ⟨hentries, hmatched⟩ := coerce_and_render_plain.2 t _ result hresult hdistinct u
  exact ⟨htexts, hkeys, coerce_and_render_plain.1 pairs htexts hkeys true, hresult, hentries,
    hmatched, rfl⟩

end Template

end UriTemplate
