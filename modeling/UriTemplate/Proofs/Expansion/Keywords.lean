import UriTemplate.Proofs.Expansion.Pruning
import UriTemplate.Proofs.Expansion.Readings

/-! # Keyword lists — when pairs are as good as maps

    Members of a value only show in two ways: whether they are undefined, and how they are
    encoded.  Values that agree in both are alike (`Value.Alike`), and so are lists and
    associative arrays of values that are alike.

    * `Value.Alike.assoc_list` — an associative array of defined members is like the list of its
      pairs;
    * **`Expression.render_keywordLists`** — so for data without null or empty parts it does not
      matter whether keyword lists are on, unless a variable is exploded;
    * **`Expression.render_keywordForm`** — and with keyword lists on it does not matter, for any
      variable, whether a map is given as a map or as a keyword list.

    Both are about data whose keys are scalars: of anything else the text as a key is another than
    the one as a member, and a map has another text as a key than a list. -/

namespace UriTemplate

/-! ## Values that are alike -/

/-- What holds of each member alike holds of all alike. -/
theorem all_eq_of_forall_mem {α : Type} {l : List α} {p q : α → Bool} (h : ∀ a ∈ l, p a = q a) :
    l.all p = l.all q := by
  rw [Bool.eq_iff_iff, List.all_eq_true, List.all_eq_true]
  exact forall₂_congr fun a ha => by rw [h a ha]

namespace Value

theorem encodedPairs_eq (escaping : Escaping) (pairs : List (Text × Value)) :
    encodedPairs escaping pairs
      = pairs.map fun p => Percent.encode escaping p.1 ++ .char ',' :: p.2.encoded escaping :=
  (encodedPairs_eq_map pairs).trans List.map_map

/-- Two values that cannot be told apart as members of another one. -/
structure Alike (v w : Value) : Prop where
  isUndefined_eq : v.isUndefined = w.isUndefined
  encoded_eq : ∀ escaping, v.encoded escaping = w.encoded escaping

theorem Alike.refl (v : Value) : Alike v v := ⟨rfl, fun _ => rfl⟩

variable {α : Type} {l : List α} {f g : α → Value}

/-- Lists of values that are alike are alike. -/
theorem Alike.list (h : ∀ a ∈ l, Alike (f a) (g a)) :
    Alike (.list (l.map f)) (.list (l.map g)) where
  isUndefined_eq := by
    rw [isUndefined, isUndefined, areUndefined_eq_all, areUndefined_eq_all, List.all_map,
      List.all_map]
    exact all_eq_of_forall_mem fun a ha => (h a ha).isUndefined_eq
  encoded_eq escaping := by
    rw [encoded, encoded, encodedItems_eq, encodedItems_eq, List.map_map, List.map_map]
    exact congrArg commaJoined (List.map_congr_left fun a ha => (h a ha).encoded_eq escaping)

/-- So are associative arrays of them, under the same keys. -/
theorem Alike.assoc (key : α → Text) (h : ∀ a ∈ l, Alike (f a) (g a)) :
    Alike (.assoc (l.map fun a => (key a, f a))) (.assoc (l.map fun a => (key a, g a))) where
  isUndefined_eq := by
    rw [isUndefined, isUndefined, membersUndefined_eq_all, membersUndefined_eq_all, List.all_map,
      List.all_map]
    exact all_eq_of_forall_mem fun a ha => (h a ha).isUndefined_eq
  encoded_eq escaping := by
    rw [encoded, encoded, encodedPairs_eq, encodedPairs_eq, List.map_map, List.map_map]
    refine congrArg commaJoined (List.map_congr_left fun a ha => ?_)
    rw [Function.comp_apply, Function.comp_apply, (h a ha).encoded_eq]

/-- If its members are defined, an associative array is like the list of its pairs, where the
    first items of these are scalars with the texts of the keys. -/
theorem Alike.assoc_list {key : α → Text} {first : α → Value}
    (hkey : ∀ a ∈ l, ∃ s, first a = .scalar s ∧ key a = s.toText)
    (h : ∀ a ∈ l, Alike (f a) (g a)) (hdefined : ∀ a ∈ l, (f a).isUndefined = false) :
    Alike (.assoc (l.map fun a => (key a, f a)))
      (.list (l.map fun a => .list [first a, g a])) where
  isUndefined_eq := by
    rw [isUndefined, isUndefined, membersUndefined_eq_all, areUndefined_eq_all, List.all_map,
      List.all_map]
    refine all_eq_of_forall_mem fun a ha => ?_
    show (f a).isUndefined = ((first a).isUndefined && ((g a).isUndefined && true))
    rw [← (h a ha).isUndefined_eq, hdefined a ha, Bool.false_and, Bool.and_false]
  encoded_eq escaping := by
    rw [encoded, encoded, encodedPairs_eq, encodedItems_eq, List.map_map, List.map_map]
    refine congrArg commaJoined (List.map_congr_left fun a ha => ?_)
    obtain ⟨s, hfirst, htext⟩ := hkey a ha
    show Percent.encode escaping (key a) ++ .char ',' :: (f a).encoded escaping
      = commaJoined [(first a).encoded escaping, (g a).encoded escaping]
    rw [hfirst, htext, Value.encoded, (h a ha).encoded_eq, commaJoined,
      List.intercalate_cons_cons, List.intercalate_singleton, List.append_assoc,
      List.singleton_append]

end Value

/-! ## Variables -/

namespace VarSpec

variable {v : VarSpec} {style : Style}

/-- A variable that is not exploded writes a composite value as it stands within another. -/
theorem contribution_of_members (hexplode : v.explode = false) {value : Value}
    (hne : value.members ≠ []) (hmembers : ∀ m ∈ value.members, m.isUndefined = false) :
    v.contribution style value.prune = [style.part v.name (value.encoded style.escaping)] := by
  rw [Value.prune_eq_self hne hmembers]
  cases value with
  | scalar s => exact absurd rfl hne
  | list items =>
      rw [contribution, parts, hexplode, if_neg Bool.false_ne_true, Value.encoded]
  | assoc pairs =>
      rw [contribution, parts, hexplode, if_neg Bool.false_ne_true, Value.encoded]

end VarSpec

namespace Value

/-- Two values that cannot be told apart, as members or as what a variable stands for. -/
structure Interchangeable (v w : Value) : Prop extends Alike v w where
  contribution_eq : ∀ (spec : VarSpec) (style : Style),
    spec.contribution style v.prune = spec.contribution style w.prune

theorem Interchangeable.refl (v : Value) : Interchangeable v v := ⟨Alike.refl v, fun _ _ => rfl⟩

variable {α : Type} {l : List α} {f g : α → Value}

/-- Of members that are alike, the same are undefined. -/
theorem filter_eq_of_alike (h : ∀ a ∈ l, Alike (f a) (g a)) :
    (l.filter fun a => !(f a).isUndefined) = l.filter fun a => !(g a).isUndefined :=
  List.filter_congr fun a ha => by rw [(h a ha).isUndefined_eq]

/-- What a variable writes of an associative array depends on the keys and the encoded members. -/
theorem parts_congr_of_map {spec : VarSpec} {style : Style} {pairs others : List (Text × Value)}
    (h : pairs.map (fun p => (p.1, p.2.encoded style.escaping))
      = others.map fun p => (p.1, p.2.encoded style.escaping)) :
    spec.parts style (.assoc pairs) = spec.parts style (.assoc others) := by
  have hexploded := congrArg (List.map fun p =>
    style.nameValue (Percent.encode style.escaping p.1) p.2) h
  rw [List.map_map, List.map_map] at hexploded
  rw [VarSpec.parts, VarSpec.parts, encodedPairs_eq_map, encodedPairs_eq_map, h]
  exact congrArg (fun parts => if spec.explode then parts else _) hexploded

theorem Interchangeable.list (h : ∀ a ∈ l, Alike (f a) (g a)) :
    Interchangeable (.list (l.map f)) (.list (l.map g)) where
  toAlike := Alike.list h
  contribution_eq spec style := by
    have hencoded : encodedItems style.escaping ((l.map f).filter (!·.isUndefined))
        = encodedItems style.escaping ((l.map g).filter (!·.isUndefined)) := by
      rw [List.filter_map, List.filter_map, encodedItems_eq, encodedItems_eq, List.map_map,
        List.map_map]
      show (List.filter (fun a => !(f a).isUndefined) l).map _
        = (List.filter (fun a => !(g a).isUndefined) l).map _
      rw [filter_eq_of_alike h]
      exact List.map_congr_left fun a ha => (h a (List.mem_of_mem_filter ha)).encoded_eq _
    rw [prune_eq, prune_eq, (Alike.list h).isUndefined_eq, definedPart, definedPart]
    split
    · rfl
    · simp only [VarSpec.contribution, VarSpec.parts, hencoded]

theorem Interchangeable.assoc (key : α → Text) (h : ∀ a ∈ l, Alike (f a) (g a)) :
    Interchangeable (.assoc (l.map fun a => (key a, f a)))
      (.assoc (l.map fun a => (key a, g a))) where
  toAlike := Alike.assoc key h
  contribution_eq spec style := by
    have hencoded :
        ((l.map fun a => (key a, f a)).filter (!·.2.isUndefined)).map
            (fun p => (p.1, p.2.encoded style.escaping))
          = ((l.map fun a => (key a, g a)).filter (!·.2.isUndefined)).map
            (fun p => (p.1, p.2.encoded style.escaping)) := by
      rw [List.filter_map, List.filter_map, List.map_map, List.map_map]
      show (List.filter (fun a => !(f a).isUndefined) l).map _
        = (List.filter (fun a => !(g a).isUndefined) l).map _
      rw [filter_eq_of_alike h]
      refine List.map_congr_left fun a ha => ?_
      rw [Function.comp_apply, Function.comp_apply, (h a (List.mem_of_mem_filter ha)).encoded_eq]
    rw [prune_eq, prune_eq, (Alike.assoc key h).isUndefined_eq, definedPart, definedPart]
    split
    · rfl
    · exact parts_congr_of_map hencoded

end Value

/-! ## Solid data -/

namespace Datum

/-- Nothing null and nothing empty, at any depth? -/
inductive IsSolid : Datum → Prop where
  | scalar {s : Scalar} : s.isNull = false → IsSolid (.scalar s)
  | list {items : List Datum} {text : Text} : items ≠ [] → (∀ d ∈ items, IsSolid d) →
      IsSolid (.list items text)
  | tuple {items : List Datum} {text : Text} : items ≠ [] → (∀ d ∈ items, IsSolid d) →
      IsSolid (.tuple items text)
  | map {entries : List (Scalar × Datum)} {text : Text} : entries ≠ [] →
      (∀ e ∈ entries, IsSolid e.2) → IsSolid (.map entries text)
  | value {v : Value} {text : Text} : v.isUndefined = false → IsSolid (.value v text)

/-- Both readings of a datum are defined, and a variable that is not exploded writes both alike. -/
structure ReadAlike (d : Datum) : Prop extends (d.toValue true).Alike (d.toValue false) where
  isUndefined : (d.toValue true).isUndefined = false
  contribution_eq : ∀ (v : VarSpec) (style : Style), v.explode = false →
    v.contribution style (d.toValue true).prune = v.contribution style (d.toValue false).prune

/-- Two readings as composite values, all of whose members are defined. -/
theorem ReadAlike.of_members {d : Datum} (h : (d.toValue true).Alike (d.toValue false))
    (hmembers : ∀ keywordLists, (d.toValue keywordLists).members ≠ [] ∧
      ∀ m ∈ (d.toValue keywordLists).members, m.isUndefined = false) : d.ReadAlike where
  toAlike := h
  isUndefined := by
    obtain ⟨hne, hdefined⟩ := hmembers true
    obtain ⟨m, hm⟩ := List.exists_mem_of_ne_nil _ hne
    exact Value.isUndefined_eq_false_of_mem hm (hdefined m hm)
  contribution_eq v style hexplode := by
    rw [VarSpec.contribution_of_members hexplode (hmembers true).1 (hmembers true).2,
      VarSpec.contribution_of_members hexplode (hmembers false).1 (hmembers false).2, h.encoded_eq]

theorem ReadAlike.isUndefined_toValue {d : Datum} (h : d.ReadAlike) (keywordLists : Bool) :
    (d.toValue keywordLists).isUndefined = false := by
  cases keywordLists with
  | true => exact h.isUndefined
  | false => rw [← h.isUndefined_eq, h.isUndefined]

/-- **SOLID DATA**: both readings of solid data are defined and written alike, if keys are
    scalars. -/
theorem IsSolid.readAlike {d : Datum} (h : d.IsSolid) (hkeys : d.HasScalarKeys) : d.ReadAlike := by
  induction d using nestedInduction with
  | scalar s =>
      cases h with
      | scalar hs => exact ⟨.refl _, hs, fun _ _ _ => rfl⟩
  | value v text =>
      cases h with
      | value hv => exact ⟨.refl v, hv, fun _ _ _ => rfl⟩
  | tuple items text ih =>
      cases h with
      | tuple hne hitems =>
          cases hkeys with
          | tuple hscalar hnested =>
              have hlist : ReadAlike (.list items text) :=
                ih (.list hne hitems) (.list hscalar hnested)
              exact ⟨hlist.toAlike, hlist.isUndefined, hlist.contribution_eq⟩
  | list items text hread ih =>
      cases h with
      | list hne hitems =>
          cases hkeys with
          | list _ hnested =>
              have hmembers : ∀ d ∈ items, d.ReadAlike :=
                fun d hd => ih d hd (hitems d hd) (hnested d hd)
              refine .of_members ?_ fun keywordLists => ?_
              · rw [toValue_list hread, toValue_list hread]
                exact .list fun d hd => (hmembers d hd).toAlike
              · rw [toValue_list hread, Value.members]
                refine ⟨mt List.map_eq_nil_iff.1 hne, List.forall_mem_map.2 fun d hd => ?_⟩
                exact (hmembers d hd).isUndefined_toValue keywordLists
  | keywords entries text hne ih =>
      cases h with
      | list _ hpairs =>
          cases hkeys with
          | list hscalar hnested =>
              have hmembers : ∀ k ∈ entries, k.member.ReadAlike := by
                intro k hk
                have hmem : k.toDatum ∈ entries.map Keyword.toDatum := List.mem_map_of_mem hk
                have hmember : k.member ∈ [k.key, k.member] :=
                  List.mem_cons_of_mem _ List.mem_cons_self
                have hpair := hpairs k.toDatum hmem
                have hpairKeys := hnested k.toDatum hmem
                cases hpair with
                | tuple _ hitems =>
                    cases hpairKeys with
                    | tuple _ hinner =>
                        exact ih k hk (hitems k.member hmember) (hinner k.member hmember)
              refine .of_members ?_ fun keywordLists => ?_
              · rw [toValue_keywords hne, toValue_false_keywords]
                refine .assoc_list (fun k hk => ?_) (fun k hk => (hmembers k hk).toAlike)
                  fun k hk => (hmembers k hk).isUndefined
                obtain ⟨s, hs, htext⟩ := exists_scalar_eq
                  (hscalar (areKeywords_map_toDatum hne) k (List.mem_map_of_mem hk))
                exact ⟨s, hs false, htext⟩
              · -- the members are those of the array, or lists of a key and such a member
                cases keywordLists with
                | true =>
                    rw [toValue_keywords hne, Value.members, List.map_map]
                    refine ⟨mt List.map_eq_nil_iff.1 hne, List.forall_mem_map.2 fun k hk => ?_⟩
                    exact (hmembers k hk).isUndefined
                | false =>
                    rw [toValue_false_keywords, Value.members]
                    refine ⟨mt List.map_eq_nil_iff.1 hne, List.forall_mem_map.2 fun k hk => ?_⟩
                    have hmember : k.member.toValue false
                        ∈ (Value.list [k.key.toValue false, k.member.toValue false]).members :=
                      List.mem_cons_of_mem _ List.mem_cons_self
                    exact Value.isUndefined_eq_false_of_mem hmember
                      ((hmembers k hk).isUndefined_toValue false)
  | map entries text ih =>
      cases h with
      | map hne hentries =>
          cases hkeys with
          | map hnested =>
              have hmembers : ∀ e ∈ entries, e.2.ReadAlike :=
                fun e he => ih e he (hentries e he) (hnested e he)
              refine .of_members ?_ fun keywordLists => ?_
              · rw [toValue_map, toValue_map]
                exact .assoc _ fun e he => (hmembers e he).toAlike
              · rw [toValue_map, Value.members, List.map_map]
                refine ⟨mt List.map_eq_nil_iff.1 hne, List.forall_mem_map.2 fun e he => ?_⟩
                exact (hmembers e he).isUndefined_toValue keywordLists

end Datum

/-! ## Keyword lists on and off -/

/-- **READINGS**: variables that are not exploded, with or without a prefix, write solid data
    with scalars as keys alike, whether keyword lists are on or off. -/
theorem Expression.render_keywordLists {e : Expression} {env : Environment}
    (h : ∀ v ∈ e.specs, v.explode = false ∧
      ∀ d, OrderedMap.get? env v.name = some d → d.IsSolid ∧ d.HasScalarKeys) :
    e.render true env = e.render false env := by
  refine render_congr fun v hv => ?_
  obtain ⟨hexplode, hsolid⟩ := h v hv
  rw [Environment.value?_eq, Environment.value?_eq]
  cases hd : OrderedMap.get? env v.name with
  | none => rfl
  | some d =>
      exact ((hsolid d hd).1.readAlike (hsolid d hd).2).contribution_eq v e.operator.style hexplode

/-- Pairs, a map and a list within each other. -/
theorem Expression.render_keywordLists_nested :
    let text (s : String) : Datum := .scalar (.text s.toText)
    let e : Expression := ⟨.query, [⟨"a".toText, false, some 1⟩, ⟨"b".toText, false, none⟩]⟩
    let member : Datum := .tuple [.tuple [text "x", .scalar (.int 1)],
      .tuple [text "y", .map [(.text "z".toText, .list [text "w"])]]]
    let env : Environment := [("a".toText, text "uv"),
      ("b".toText, .list [.tuple [text "k", member], .tuple [text "l", text ""]])]
    (∀ v ∈ e.specs, v.explode = false ∧
        ∀ d, OrderedMap.get? env v.name = some d → d.IsSolid ∧ d.HasScalarKeys) ∧
      e.render true env = e.render false env ∧
      e.render true env = "?a=u&b=k,x,1,y,z,w,l,".toText := by
  intro text e member env
  have htwo : ∀ {p : Datum → Prop} {c d : Datum}, p c → p d → ∀ x ∈ [c, d], p x :=
    fun hc hd => List.forall_mem_cons.2 ⟨hc, List.forall_mem_singleton.2 hd⟩
  have hpair : ∀ {s} {d : Datum}, d.IsSolid → (Datum.tuple [text s, d]).IsSolid :=
    fun hd => .tuple (List.cons_ne_nil _ _) (htwo (.scalar rfl) hd)
  have hmap : (Datum.map [(.text "z".toText, .list [text "w"])]).IsSolid :=
    .map (List.cons_ne_nil _ _) (List.forall_mem_singleton.2
      (.list (List.cons_ne_nil _ _) (List.forall_mem_singleton.2 (.scalar rfl))))
  have hmember : member.IsSolid :=
    .tuple (List.cons_ne_nil _ _) (htwo (hpair (.scalar rfl)) (hpair hmap))
  have hkeys : member.HasScalarKeys := by
    refine .tuple_keywords
      [⟨text "x", .scalar (.int 1), []⟩,
        ⟨text "y", .map [(.text "z".toText, .list [text "w"])], []⟩]
      (List.forall_mem_cons.2 ⟨⟨rfl, .scalar _⟩, List.forall_mem_singleton.2 ⟨rfl, .map ?_⟩⟩) []
    exact List.forall_mem_singleton.2
      (.list_of_not_keywords rfl (List.forall_mem_singleton.2 (.scalar _)))
  have hsolid : ∀ v ∈ e.specs, v.explode = false ∧
      ∀ d, OrderedMap.get? env v.name = some d → d.IsSolid ∧ d.HasScalarKeys := by
    refine List.forall_mem_cons.2 ⟨⟨rfl, ?_⟩, List.forall_mem_singleton.2 ⟨rfl, ?_⟩⟩
    · rintro d ⟨⟩
      exact ⟨.scalar rfl, .scalar _⟩
    · rintro d ⟨⟩
      refine ⟨.list (List.cons_ne_nil _ _) (htwo (hpair hmember) (hpair (.scalar rfl))), ?_⟩
      exact .list_keywords [⟨text "k", member, []⟩, ⟨text "l", text "", []⟩]
        (List.forall_mem_cons.2 ⟨⟨rfl, hkeys⟩, List.forall_mem_singleton.2 ⟨rfl, .scalar _⟩⟩) []
  exact ⟨hsolid, render_keywordLists hsolid, rfl⟩

/-- An exploded variable shows the difference. -/
example :
    let e : Expression := ⟨.query, [⟨"a".toText, true, none⟩]⟩
    let env : Environment := [("a".toText, .list
      [.tuple [.scalar (.text "k".toText), .scalar (.text "x".toText)]])]
    e.render true env = "?k=x".toText ∧ e.render false env = "?a=k,x".toText := ⟨rfl, rfl⟩

/-- And so does a null. -/
example :
    let e : Expression := ⟨.query, [⟨"a".toText, false, none⟩]⟩
    let env : Environment := [("a".toText, .list
      [.tuple [.scalar (.text "k".toText), .scalar .null]])]
    e.render true env = [] ∧ e.render false env = "?a=k,".toText := ⟨rfl, rfl⟩

/-! ## Maps as keyword lists -/

namespace Datum

variable (texts : Datum → Text)

mutual

/-- The datum with a keyword list in place of every map, at any depth.  Sequences made anew have
    the `texts` that the caller's system makes of them. -/
def keywordForm : Datum → Datum
  | scalar s => scalar s
  | list items text => list (keywordForms items) (texts (list items text))
  | tuple items text => tuple (keywordForms items) (texts (tuple items text))
  | map entries text => list (keywordPairs entries) (texts (map entries text))
  | value v text => value v text

/-- The items of a sequence, without maps. -/
def keywordForms : List Datum → List Datum
  | [] => []
  | d :: items => d.keywordForm :: keywordForms items

/-- The entries of a map as pairs of a keyword list. -/
def keywordPairs : List (Scalar × Datum) → List Datum
  | [] => []
  | (k, d) :: entries =>
      tuple [scalar k, d.keywordForm] (texts (tuple [scalar k, d])) :: keywordPairs entries

end

theorem keywordForms_eq_map (items : List Datum) :
    keywordForms texts items = items.map (keywordForm texts) := by
  induction items with
  | nil => rfl
  | cons d items ih => rw [keywordForms, ih, List.map_cons]

theorem keywordPairs_eq_map (entries : List (Scalar × Datum)) :
    keywordPairs texts entries = (entries.map fun e =>
      (⟨scalar e.1, e.2.keywordForm texts, texts (tuple [scalar e.1, e.2])⟩ : Keyword)).map
        Keyword.toDatum := by
  induction entries with
  | nil => rfl
  | cons e entries ih =>
      rw [keywordPairs, ih]
      rfl

/-- A scalar is the same key. -/
theorem keyText_keywordForm {d : Datum} (h : d.scalar?.isSome = true) :
    (d.keywordForm texts).keyText = d.keyText := by
  match d, h with
  | scalar s, _ => rfl
  | value (.scalar s) _, _ => rfl

/-- Exactly the pairs are pairs still: a map becomes a list, which is none. -/
theorem isPair_keywordForm (d : Datum) : (d.keywordForm texts).isPair = d.isPair := by
  cases d with
  | tuple items text =>
      match items with
      | [] | [_] | [_, _] | _ :: _ :: _ :: _ => rfl
  | scalar s => rfl
  | list items text => rfl
  | map entries text => rfl
  | value v text => rfl

theorem areKeywords_map_keywordForm (items : List Datum) :
    areKeywords (items.map (keywordForm texts)) = areKeywords items := by
  rw [areKeywords, areKeywords, List.isEmpty_map, List.all_map]
  exact congrArg _ (all_eq_of_forall_mem fun d _ => d.isPair_keywordForm texts)

/-- The pairs of a keyword list have their keys and members replaced. -/
theorem map_keywordForm_toDatum (entries : List Keyword) :
    (entries.map Keyword.toDatum).map (keywordForm texts) = (entries.map fun k =>
      (⟨k.key.keywordForm texts, k.member.keywordForm texts, texts k.toDatum⟩ : Keyword)).map
        Keyword.toDatum := by
  rw [List.map_map, List.map_map]
  rfl

/-- **KEYWORD FORM**: if keys are scalars, a datum and its keyword form are taken for
    interchangeable values. -/
theorem HasScalarKeys.interchangeable {d : Datum} (h : d.HasScalarKeys) :
    ((d.keywordForm texts).toValue true).Interchangeable (d.toValue true) := by
  induction d using nestedInduction with
  | scalar s => exact .refl _
  | value v text => exact .refl v
  | tuple items text ih =>
      cases h with
      | tuple hscalar hnested => exact ih (.list hscalar hnested)
  | list items text hread ih =>
      cases h with
      | list _ hnested =>
          have hforms : areKeywords (items.map (keywordForm texts)) = false := by
            rw [areKeywords_map_keywordForm, hread]
          rw [keywordForm, keywordForms_eq_map, toValue_list hforms, toValue_list hread,
            List.map_map]
          exact .list fun d hd => (ih d hd (hnested d hd)).toAlike
  | keywords entries text hne ih =>
      cases h with
      | list hscalar hnested =>
          have hkeys : ∀ k ∈ entries, (k.key.keywordForm texts).keyText = k.key.keyText :=
            fun k hk => keyText_keywordForm texts
              (hscalar (areKeywords_map_toDatum hne) k (List.mem_map_of_mem hk))
          have hmembers : ∀ k ∈ entries, ((k.member.keywordForm texts).toValue true).Alike
              (k.member.toValue true) := by
            intro k hk
            have hpair := hnested k.toDatum (List.mem_map_of_mem hk)
            cases hpair with
            | tuple _ hinner =>
                exact (ih k hk (hinner k.member
                  (List.mem_cons_of_mem _ List.mem_cons_self))).toAlike
          rw [keywordForm, keywordForms_eq_map, map_keywordForm_toDatum,
            toValue_keywords (mt List.map_eq_nil_iff.1 hne), toValue_keywords hne, List.map_map]
          have hsame : entries.map (fun k =>
                ((k.key.keywordForm texts).keyText, (k.member.keywordForm texts).toValue true))
              = entries.map fun k => (k.key.keyText, (k.member.keywordForm texts).toValue true) :=
            List.map_congr_left fun k hk => by rw [hkeys k hk]
          show (Value.assoc (entries.map fun k => (_, _))).Interchangeable _
          rw [hsame]
          exact .assoc _ hmembers
  | map entries text ih =>
      cases h with
      | map hnested =>
          -- the keyword form of a map is a keyword list only if there are entries
          by_cases hne : entries = []
          · -- an empty map and an empty list are both undefined
            subst hne
            exact ⟨⟨rfl, fun _ => rfl⟩, fun _ _ => rfl⟩
          · rw [keywordForm, keywordPairs_eq_map,
              toValue_keywords (mt List.map_eq_nil_iff.1 hne), toValue_map, List.map_map]
            exact .assoc _ fun e he => (ih e he (hnested e he)).toAlike

end Datum

/-- **MAPS**: with keyword lists on, a datum with scalars as keys and its keyword form are expanded
    to the same. -/
theorem Expression.render_keywordForm (e : Expression) (env : Environment) (name : Text)
    {d : Datum} (h : d.HasScalarKeys) (texts : Datum → Text) :
    e.render true (OrderedMap.insert env name (d.keywordForm texts))
      = e.render true (OrderedMap.insert env name d) := by
  refine render_congr fun v _ => ?_
  rw [Environment.value?_eq, Environment.value?_eq, OrderedMap.get?_insert, OrderedMap.get?_insert]
  by_cases hname : name = v.name
  · rw [if_pos hname, if_pos hname]
    exact (h.interchangeable texts).contribution_eq v _
  · rw [if_neg hname, if_neg hname]

/-- Maps with a null, an empty map and a list in them, below the pairs of a keyword list. -/
theorem Expression.render_keywordForm_nested :
    let text (s : String) : Datum := .scalar (.text s.toText)
    let e : Expression := ⟨.query, [⟨"a".toText, true, none⟩]⟩
    let x : Datum := .map [(.text "x".toText, .scalar .null),
      (.int 1, .list [text "y", .map [] "\x7b\x7d".toText])]
    let y : Datum := .map [(.text "z".toText, text "w")]
    let d : Datum := .list [.tuple [text "k", x], .tuple [text "l", y]]
    e.render true (OrderedMap.insert [] "a".toText (d.keywordForm fun _ => []))
        = e.render true (OrderedMap.insert [] "a".toText d) ∧
      e.render true (OrderedMap.insert [] "a".toText d) = "?k=x,,1,y,&l=z,w".toText := by
  intro text e x y d
  have hx : x.HasScalarKeys := by
    refine .map (List.forall_mem_cons.2 ⟨.scalar _, List.forall_mem_singleton.2 ?_⟩)
    exact .list_of_not_keywords rfl (List.forall_mem_cons.2
      ⟨.scalar _, List.forall_mem_singleton.2 (.map (List.forall_mem_nil _))⟩)
  have hy : y.HasScalarKeys := .map (List.forall_mem_singleton.2 (.scalar _))
  have hd : d.HasScalarKeys := .list_keywords [⟨text "k", x, []⟩, ⟨text "l", y, []⟩]
    (List.forall_mem_cons.2 ⟨⟨rfl, hx⟩, List.forall_mem_singleton.2 ⟨rfl, hy⟩⟩) []
  exact ⟨render_keywordForm e [] "a".toText hd _, rfl⟩

end UriTemplate
