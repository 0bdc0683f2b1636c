import UriTemplate.Proofs.Expansion.Pruning
import UriTemplate.Proofs.RoundTrip.Contributions

/-! # Returned — what comes back from a variable of a query

    A variable of a query writes parameters under its own name, or under the keys of a
    map.  For a value that comes back (`VarSpec.CanReturn`) the parameters tell what it
    was, by the round in which the variable takes part:

    * `VarSpec.named_of_plain` — the single parameter of a variable that is not exploded;
    * `VarSpec.named_of_exploded` — the list that an exploded variable has written;
    * `VarSpec.keyed_of_assoc` — the map, from parameters under its keys.

    Among the parameters of all variables (`VarSpec.AreReturnable`) those of a name are
    the ones of the variable of that name (`VarSpec.AreReturnable.filter_name_eq`), and
    those of other names belong to maps (`VarSpec.AreReturnable.filter_not_mem_eq`). -/

namespace UriTemplate

/-! ## Values that come back -/

namespace Value

/-- The text of a member; only a scalar has one. -/
def memberText : Value → Text
  | scalar s => s.toText
  | _ => []

/-- Is the value a scalar, with a text that has no surrogates? -/
def IsText : Value → Prop
  | scalar s => Text.IsWellFormed s.toText
  | _ => False

instance : DecidablePred IsText
  | scalar s => inferInstanceAs (Decidable (Text.IsWellFormed s.toText))
  | list _ => isFalse id
  | assoc _ => isFalse id

theorem IsText.exists_eq {value : Value} (h : value.IsText) : ∃ s, value = .scalar s := by
  match value, h with
  | .scalar s, _ => exact ⟨s, rfl⟩

theorem IsText.isWellFormed {value : Value} (h : value.IsText) : value.memberText.IsWellFormed := by
  match value, h with
  | .scalar s, hs => exact hs

/-- The value of a text, none if it is empty. -/
def ofText? : Text → Option Value
  | [] => none
  | s => some (ofText s)

theorem bind_prune_ofText? (s : Text) : (ofText? s).bind prune = ofText? s := by
  cases s <;> rfl

theorem isUndefined_ofTexts {texts : List Text} (hne : texts ≠ []) :
    (ofTexts texts).isUndefined = false := by
  cases texts with
  | nil => exact absurd rfl hne
  | cons s texts => rfl

/-- A list of texts is left as it is. -/
theorem prune_ofTexts {texts : List Text} (hne : texts ≠ []) :
    (ofTexts texts).prune = some (ofTexts texts) := by
  refine prune_eq_self (mt List.map_eq_nil_iff.1 hne) fun item hitem => ?_
  obtain ⟨t, -, rfl⟩ := List.mem_map.1 hitem
  rfl

/-- So is an associative array without undefined members. -/
theorem prune_assoc {pairs : List (Text × Value)} (hne : pairs ≠ [])
    (h : ∀ p ∈ pairs, p.2.isUndefined = false) : (assoc pairs).prune = some (assoc pairs) :=
  prune_eq_self (mt List.map_eq_nil_iff.1 hne) (List.forall_mem_map.2 h)

theorem encodedItems_eq_map {items : List Value} (h : ∀ v ∈ items, v.IsText) :
    encodedItems .unreserved items
      = (items.map memberText).map (Percent.encode .unreserved) := by
  induction items with
  | nil => rfl
  | cons v items ih =>
      obtain ⟨hv, hitems⟩ := List.forall_mem_cons.1 h
      obtain ⟨s, rfl⟩ := hv.exists_eq
      rw [encodedItems, ih hitems]
      rfl

end Value

namespace VarSpec

/-- Can a variable of a query come back?  A text in a list of one, and the single values of an
    exploded variable, could not be told from others; the keys of a map must not be `names` of
    variables.  Surrogates are not read as what they were, so what is written has none. -/
def CanReturn (names : List Text) (v : VarSpec) : Option Value → Prop
  | none => True
  | some (.scalar s) => v.explode = false ∧ Text.IsWellFormed (v.cut s.toText)
  | some (.list items) => (∀ i ∈ items, i.IsText) ∧ (if v.explode then 1 else 2) ≤ items.length
  | some (.assoc pairs) =>
      v.explode = true ∧ pairs ≠ [] ∧
        ∀ p ∈ pairs, p.1.IsWellFormed ∧ p.2.IsText ∧ p.1 ∉ names

instance (names : List Text) (v : VarSpec) : DecidablePred (v.CanReturn names)
  | none => isTrue trivial
  | some (.scalar s) =>
      inferInstanceAs (Decidable (v.explode = false ∧ Text.IsWellFormed (v.cut s.toText)))
  | some (.list items) => inferInstanceAs
      (Decidable ((∀ i ∈ items, i.IsText) ∧ (if v.explode then 1 else 2) ≤ items.length))
  | some (.assoc pairs) => inferInstanceAs (Decidable (v.explode = true ∧ pairs ≠ [] ∧
      ∀ p ∈ pairs, p.1.IsWellFormed ∧ p.2.IsText ∧ p.1 ∉ names))

/-- What comes back from a variable: texts for scalars, cut as far as the length goes, and nothing
    for an empty one; lists and maps as they are, with texts for their members. -/
def returned (v : VarSpec) : Option Value → Option Value
  | none => none
  | some (.scalar s) => Value.ofText? (v.cut s.toText)
  | some (.list items) => some (.ofTexts (items.map Value.memberText))
  | some (.assoc pairs) => some (.assoc (pairs.map fun p => (p.1, .ofText p.2.memberText)))

/-- The parameters of a variable as they are read: with their names decoded and their values as
    they stand. -/
def parameters (v : VarSpec) : Option Value → List (Text × Option Text)
  | none => []
  | some value => (v.entries value).map fun e => (Percent.decode e.1, some e.2)

/-- The parameters that have the name of their variable. -/
def named (v : VarSpec) : Option Value → List (Text × Option Text)
  | some (.assoc _) => []
  | value => v.parameters value

/-- The parameters under the keys of a map. -/
def keyed (v : VarSpec) : Option Value → List (Text × Option Text)
  | some (.assoc pairs) => v.parameters (some (.assoc pairs))
  | _ => []

/-- Variables of a query and what is given for them, such that each comes back: before a map every
    exploded variable has a list, so that the map is what the third round finds. -/
structure AreReturnable (specs : List VarSpec) (given : VarSpec → Option Value) : Prop where
  distinct : (specs.map VarSpec.name).Nodup
  decoded : ∀ v ∈ specs, .char '%' ∉ v.name
  each : ∀ v ∈ specs, v.CanReturn (specs.map VarSpec.name) (given v)
  ordered : specs.Pairwise fun u v => (∃ pairs, given v = some (.assoc pairs)) →
    u.explode = true → ∃ items, given u = some (.list items)

/-! ### What they look like -/

section

variable {v : VarSpec} {items : List Value} {pairs : List (Text × Value)}

/-- A list is one parameter of a variable that is not exploded. -/
theorem parameters_joined (hexplode : v.explode = false)
    (htexts : ∀ i ∈ items, i.IsText) :
    v.parameters (some (.list items)) = [(Percent.decode v.name,
      some (commaJoined ((items.map Value.memberText).map (Percent.encode .unreserved))))] := by
  rw [parameters, entries, hexplode, Value.encodedItems_eq_map htexts]
  rfl

/-- The items of a list are parameters of an exploded variable. -/
theorem parameters_items (hexplode : v.explode = true)
    (htexts : ∀ i ∈ items, i.IsText) :
    v.parameters (some (.list items)) = items.map fun i =>
      (Percent.decode v.name, some (Percent.encode .unreserved i.memberText)) := by
  rw [parameters, entries, hexplode, Value.encodedItems_eq_map htexts]
  simp only [if_true, List.map_map]
  rfl

/-- The pairs of a map are parameters under their keys. -/
theorem parameters_pairs (hexplode : v.explode = true)
    (htexts : ∀ p ∈ pairs, p.1.IsWellFormed ∧ p.2.IsText) :
    v.parameters (some (.assoc pairs)) = pairs.map fun p =>
      (p.1, some (Percent.encode .unreserved p.2.memberText)) := by
  rw [parameters, entries, if_pos hexplode, List.map_map]
  refine List.map_congr_left fun p hp => ?_
  obtain ⟨hkey, htext⟩ := htexts p hp
  obtain ⟨s, hs⟩ := htext.exists_eq
  rw [Function.comp_apply, Percent.decode_encode _ hkey, hs]
  rfl

end

/-- A list that comes back is not empty. -/
theorem ne_nil_of_le_length {v : VarSpec} {items : List Value}
    (h : (if v.explode then 1 else 2) ≤ items.length) : items ≠ [] := by
  rintro rfl
  split at h <;> exact absurd h (by decide)

/-- What comes back has nothing undefined in it. -/
theorem bind_prune_returned {names : List Text} {v : VarSpec} {value : Option Value}
    (h : v.CanReturn names value) : (v.returned value).bind Value.prune = v.returned value := by
  match value, h with
  | none, _ => rfl
  | some (.scalar s), _ => exact Value.bind_prune_ofText? _
  | some (.list items), ⟨_, hlength⟩ =>
      exact Value.prune_ofTexts (mt List.map_eq_nil_iff.1 (ne_nil_of_le_length hlength))
  | some (.assoc pairs), ⟨_, hne, _⟩ =>
      refine Value.prune_assoc (by simpa using hne) ?_
      intro p hp
      obtain ⟨q, -, rfl⟩ := List.mem_map.1 hp
      rfl

/-! ### Whose parameters they are -/

/-- The parameters of a variable have its name, or the keys of its map. -/
theorem parameters_cases {names : List Text} {v : VarSpec} {value : Option Value}
    (h : v.CanReturn names value) (hdecoded : .char '%' ∉ v.name) :
    (v.named value = v.parameters value ∧ v.keyed value = [] ∧
      ∀ e ∈ v.parameters value, e.1 = v.name) ∨
    (v.named value = [] ∧ v.keyed value = v.parameters value ∧
      ∀ e ∈ v.parameters value, e.1 ∉ names) := by
  have hname := Percent.decode_of_not_mem hdecoded
  match value, h with
  | none, _ => exact Or.inl ⟨rfl, rfl, nofun⟩
  | some (.scalar s), _ => exact Or.inl ⟨rfl, rfl, List.forall_mem_singleton.2 hname⟩
  | some (.list items), ⟨htexts, _⟩ =>
      refine Or.inl ⟨rfl, rfl, ?_⟩
      cases hexplode : v.explode with
      | false =>
          rw [parameters_joined hexplode htexts]
          exact List.forall_mem_singleton.2 hname
      | true =>
          rw [parameters_items hexplode htexts]
          exact List.forall_mem_map.2 fun _ _ => hname
  | some (.assoc pairs), ⟨hexplode, _, hpairs⟩ =>
      refine Or.inr ⟨rfl, rfl, ?_⟩
      rw [parameters_pairs hexplode fun p hp => ⟨(hpairs p hp).1, (hpairs p hp).2.1⟩]
      exact List.forall_mem_map.2 fun p hp => (hpairs p hp).2.2

theorem filter_parameters_eq {names : List Text} {v : VarSpec} {value : Option Value}
    (h : v.CanReturn names value) (hdecoded : .char '%' ∉ v.name) {name : Text}
    (hmem : name ∈ names) :
    (v.parameters value).filter (·.1 = name) = if v.name = name then v.named value else [] := by
  rcases parameters_cases h hdecoded with ⟨hnamed, -, hall⟩ | ⟨hnamed, -, hall⟩
  · rw [hnamed]
    by_cases hname : v.name = name
    · rw [if_pos hname, List.filter_eq_self.2]
      intro e he
      rw [decide_eq_true_eq, hall e he, hname]
    · rw [if_neg hname, List.filter_eq_nil_iff.2]
      intro e he
      rw [decide_eq_true_eq, hall e he]
      exact hname
  · rw [hnamed, ite_self, List.filter_eq_nil_iff.2]
    intro e he
    rw [decide_eq_true_eq]
    rintro rfl
    exact hall e he hmem

theorem filter_parameters_not_mem {names : List Text} {v : VarSpec} {value : Option Value}
    (h : v.CanReturn names value) (hdecoded : .char '%' ∉ v.name) (hmem : v.name ∈ names) :
    (v.parameters value).filter (·.1 ∉ names) = v.keyed value := by
  rcases parameters_cases h hdecoded with ⟨-, hkeyed, hall⟩ | ⟨-, hkeyed, hall⟩
  · rw [hkeyed, List.filter_eq_nil_iff.2]
    intro e he
    rw [decide_eq_true_eq, hall e he]
    exact not_not_intro hmem
  · rw [hkeyed, List.filter_eq_self.2]
    intro e he
    exact decide_eq_true (hall e he)

/-- Where the variables of other names contribute nothing, a variable contributes all. -/
theorem flatMap_eq_of_nodup {α : Type} {specs : List VarSpec}
    (hdistinct : (specs.map VarSpec.name).Nodup) {f : VarSpec → List α} {v : VarSpec}
    (hv : v ∈ specs) (h : ∀ u ∈ specs, u.name ≠ v.name → f u = []) : specs.flatMap f = f v := by
  induction specs with
  | nil => exact (List.not_mem_nil hv).elim
  | cons u specs ih =>
      obtain ⟨hu, hspecs⟩ := List.forall_mem_cons.1 h
      obtain ⟨hname, hnames⟩ := List.nodup_cons.1 hdistinct
      rw [List.flatMap_cons]
      rcases List.mem_cons.1 hv with rfl | hv
      · rw [List.flatMap_eq_nil_iff.2, List.append_nil]
        intro u hmem
        refine hspecs u hmem ?_
        intro heq
        exact hname (heq ▸ List.mem_map_of_mem hmem)
      · rw [hu, ih hnames hv hspecs, List.nil_append]
        intro heq
        exact hname (heq ▸ List.mem_map_of_mem hv)

namespace AreReturnable

variable {specs : List VarSpec} {given : VarSpec → Option Value}

/-- **OWN NAME**: of all parameters, those of a name are those of the variable of that name. -/
theorem filter_name_eq (h : AreReturnable specs given) {v : VarSpec} (hv : v ∈ specs) :
    (specs.flatMap fun u => u.parameters (given u)).filter (·.1 = v.name) = v.named (given v) := by
  have hmem : v.name ∈ specs.map VarSpec.name := List.mem_map_of_mem hv
  rw [List.filter_flatMap]
  refine (flatMap_eq_of_nodup h.distinct hv fun u hu hne => ?_).trans ?_
  · rw [filter_parameters_eq (h.each u hu) (h.decoded u hu) hmem, if_neg hne]
  · rw [filter_parameters_eq (h.each v hv) (h.decoded v hv) hmem, if_pos rfl]

/-- **OTHER NAMES**: the parameters that have the name of no variable are under keys of maps. -/
theorem filter_not_mem_eq (h : AreReturnable specs given) :
    (specs.flatMap fun u => u.parameters (given u)).filter (·.1 ∉ specs.map VarSpec.name)
      = specs.flatMap fun u => u.keyed (given u) := by
  rw [List.filter_flatMap]
  refine List.flatMap_congr fun u hu => ?_
  exact filter_parameters_not_mem (h.each u hu) (h.decoded u hu) (List.mem_map_of_mem hu)

end AreReturnable

end VarSpec

/-! ## Values that are read -/

/-- A value that can be seen is read. -/
theorem Parameter.single?_of_ne_nil {raw : Text} (hne : raw ≠ []) (name : Text) (position : Int) :
    single? ⟨name, some raw, position⟩ = some (.ofRaw true raw) := by
  cases raw with
  | nil => exact absurd rfl hne
  | cons c raw => rfl

/-- An encoded value is single, and comes back unless it is empty. -/
theorem Parameter.single?_encode (name : Text) {s : Text} (hwell : s.IsWellFormed)
    (position : Int) :
    single? ⟨name, some (Percent.encode .unreserved s), position⟩ = Value.ofText? s := by
  cases s with
  | nil => rfl
  | cons d s =>
      rw [single?_of_ne_nil (mt Percent.encode_eq_nil_iff.1 (List.cons_ne_nil d s)),
        Value.ofRaw_encode _ hwell]
      rfl

/-- Two encoded texts or more, with commas between them, are a list of the texts. -/
theorem Parameter.single?_commaJoined {texts : List Text} (hlength : 2 ≤ texts.length)
    (hwell : ∀ s ∈ texts, s.IsWellFormed) (name : Text) (position : Int) :
    single? ⟨name, some (commaJoined (texts.map (Percent.encode .unreserved))), position⟩
      = some (.ofTexts texts) := by
  rw [single?_of_ne_nil (List.ne_nil_of_mem (splitOn_commaJoined hlength hwell).1),
    Value.ofRaw_commaJoined hlength hwell]

namespace VarSpec

/-- The text that is read from a parameter. -/
def textOf (e : Text × Option Text) : Text := Percent.decode (e.2.getD [])

/-- A variable that is not exploded writes one parameter at most, which comes back. -/
theorem named_of_plain {names : List Text} {v : VarSpec} {value : Option Value}
    (h : v.CanReturn names value) (hexplode : v.explode = false) :
    (v.named value = [] ∧ v.returned value = none) ∨
    ∃ name raw, v.named value = [(name, some raw)] ∧
      ∀ position, Parameter.single? ⟨name, some raw, position⟩ = v.returned value := by
  match value, h with
  | none, _ => exact Or.inl ⟨rfl, rfl⟩
  | some (.scalar s), ⟨_, hwell⟩ => exact Or.inr ⟨_, _, rfl, Parameter.single?_encode _ hwell⟩
  | some (.list items), ⟨htexts, hlength⟩ =>
      rw [if_neg (by rw [hexplode]; exact Bool.false_ne_true)] at hlength
      refine Or.inr ⟨Percent.decode v.name, _, ?_, Parameter.single?_commaJoined ?_ ?_ _⟩
      · exact parameters_joined hexplode htexts
      · rwa [List.length_map]
      · exact List.forall_mem_map.2 fun i hi => (htexts i hi).isWellFormed
  | some (.assoc pairs), ⟨hexploded, _⟩ => exact absurd (hexploded.symm.trans hexplode) nofun

/-- The texts of an exploded variable that writes parameters of its name are a list, which comes
    back. -/
theorem named_of_exploded {names : List Text} {v : VarSpec} {value : Option Value}
    (h : v.CanReturn names value) (hexplode : v.explode = true) (hne : v.named value ≠ []) :
    v.returned value = some (.ofTexts ((v.named value).map textOf)) := by
  match value, h with
  | none, _ => exact absurd rfl hne
  | some (.scalar s), ⟨hplain, _⟩ => exact absurd (hexplode.symm.trans hplain) nofun
  | some (.list items), ⟨htexts, _⟩ =>
      have hnamed : v.named (some (.list items)) = _ := parameters_items hexplode htexts
      rw [hnamed, List.map_map]
      refine congrArg (some <| Value.ofTexts ·) (List.map_congr_left fun i hi => ?_)
      exact (Percent.decode_encode _ (htexts i hi).isWellFormed).symm
  | some (.assoc pairs), _ => exact absurd rfl hne

/-- An exploded variable without a parameter of its name has no value, or a map. -/
theorem named_eq_nil {names : List Text} {v : VarSpec} {value : Option Value}
    (h : v.CanReturn names value) (hexplode : v.explode = true) (hnil : v.named value = []) :
    value = none ∨ ∃ pairs, value = some (.assoc pairs) := by
  match value, h with
  | none, _ => exact Or.inl rfl
  | some (.scalar s), ⟨hplain, _⟩ => exact absurd (hexplode.symm.trans hplain) nofun
  | some (.list items), ⟨htexts, hlength⟩ =>
      have hnamed : v.named (some (.list items)) = _ := parameters_items hexplode htexts
      rw [hnamed, List.map_eq_nil_iff] at hnil
      rw [if_pos hexplode, hnil] at hlength
      exact absurd hlength (by decide)
  | some (.assoc pairs), _ => exact Or.inr ⟨pairs, rfl⟩

/-- The pairs of a map come back. -/
theorem keyed_of_assoc {names : List Text} {v : VarSpec} {pairs : List (Text × Value)}
    (h : v.CanReturn names (some (.assoc pairs))) :
    v.keyed (some (.assoc pairs)) ≠ [] ∧ v.returned (some (.assoc pairs))
      = some (.assoc ((v.keyed (some (.assoc pairs))).map fun e => (e.1, .ofText (textOf e)))) := by
  obtain ⟨hexplode, hne, hpairs⟩ := h
  have hkeyed : v.keyed (some (.assoc pairs)) = _ :=
    parameters_pairs hexplode fun p hp => ⟨(hpairs p hp).1, (hpairs p hp).2.1⟩
  rw [hkeyed]
  constructor
  · simpa using hne
  · rw [List.map_map]
    refine congrArg (some <| Value.assoc ·) (List.map_congr_left fun p hp => ?_)
    have htext := Percent.decode_encode .unreserved (hpairs p hp).2.1.isWellFormed
    exact congrArg (fun s => (p.1, Value.ofText s)) htext.symm

/-- A variable with a value writes something. -/
theorem parameters_ne_nil {names : List Text} {v : VarSpec} {value : Value}
    (h : v.CanReturn names (some value)) : v.parameters (some value) ≠ [] := by
  match value, h with
  | .scalar s, _ => exact List.cons_ne_nil _ _
  | .list items, ⟨htexts, hlength⟩ =>
      cases hexplode : v.explode with
      | false =>
          rw [parameters_joined hexplode htexts]
          exact List.cons_ne_nil _ _
      | true =>
          rw [parameters_items hexplode htexts, ne_eq, List.map_eq_nil_iff]
          rintro rfl
          rw [if_pos hexplode] at hlength
          exact absurd hlength (by decide)
  | .assoc pairs, ⟨hexplode, hne, hpairs⟩ =>
      rw [parameters_pairs hexplode fun p hp => ⟨(hpairs p hp).1, (hpairs p hp).2.1⟩, ne_eq,
        List.map_eq_nil_iff]
      exact hne

/-- Only a map has keys. -/
theorem keyed_eq_nil (v : VarSpec) {value : Option Value}
    (h : ¬ ∃ pairs, value = some (.assoc pairs)) : v.keyed value = [] := by
  match value, h with
  | none, _ => rfl
  | some (.scalar s), _ => rfl
  | some (.list items), _ => rfl
  | some (.assoc pairs), h => exact absurd ⟨pairs, rfl⟩ h

end VarSpec

end UriTemplate
