import Mathlib.Algebra.Order.BigOperators.Group.List
import Mathlib.Algebra.Order.Ring.Nat
import UriTemplate.Proofs.Expansion.Sequential

/-! # Undefined parts — what is left out, and what is written all the same

    An undefined member of a list or of an associative array is dropped before expansion, but
    only one level down: in a member that is itself a list or an associative array the undefined
    parts stay, and each of them takes its place between commas.  `Value.stripped` leaves them
    out at every depth.

    A value and the stripped value are written alike just when nothing is left to strip below
    the first level, and the stripped one is never longer.  The reason is one step: a row of
    texts gets shorter when one of them is left out or gets shorter (`eq_or_rowLength_lt`).
    Along the nesting it gives the encoding of members (`Value.eq_or_length_encoded_lt`), then
    the parts of a variable (`VarSpec.rowLength_parts_lt`) and of an expression:

    * `Value.prune_stripped` — pruning and stripping;
    * **`Expression.render_stripped`** — what an expression writes of a stripped value. -/

namespace UriTemplate

/-! ## Rows of texts -/

/-- How long a row of texts is, with one code point behind each of them. -/
def rowLength (texts : List Text) : Nat := (texts.map fun text => text.length + 1).sum

@[simp]
theorem rowLength_nil : rowLength [] = 0 := rfl

@[simp]
theorem rowLength_cons (text : Text) (texts : List Text) :
    rowLength (text :: texts) = text.length + 1 + rowLength texts := rfl

theorem rowLength_append (first second : List Text) :
    rowLength (first ++ second) = rowLength first + rowLength second := by
  rw [rowLength, List.map_append, List.sum_append]
  rfl

/-- Rows one after the other. -/
theorem rowLength_flatMap {α : Type} (rows : α → List Text) (l : List α) :
    rowLength (l.flatMap rows) = (l.map fun a => rowLength (rows a)).sum := by
  induction l with
  | nil => rfl
  | cons a l ih => rw [List.flatMap_cons, rowLength_append, ih, List.map_cons, List.sum_cons]

/-- Between texts there is a separator, but none behind the last one. -/
theorem length_intercalate (sep : CodePoint) {texts : List Text} (h : texts ≠ []) :
    (List.intercalate [sep] texts).length + 1 = rowLength texts := by
  induction texts with
  | nil => exact absurd rfl h
  | cons text texts ih =>
      cases texts with
      | nil => simp
      | cons next texts =>
          rw [List.intercalate_cons_cons, rowLength_cons, ← ih (List.cons_ne_nil _ _)]
          simp only [List.length_append, List.length_singleton]
          omega

/-- Of two rows, the shorter one is shorter when it is joined. -/
theorem length_intercalate_lt (sep : CodePoint) {shorter longer : List Text} (hne : shorter ≠ [])
    (h : rowLength shorter < rowLength longer) :
    (List.intercalate [sep] shorter).length < (List.intercalate [sep] longer).length := by
  have hlonger : longer ≠ [] := by
    rintro rfl
    simp at h
  have := length_intercalate sep hne
  have := length_intercalate sep hlonger
  omega

/-- **STEP**: leaving out members, and writing others shorter, makes a row shorter, unless it
    changes nothing. -/
theorem eq_or_rowLength_lt {α : Type} (keep : α → Bool) (strip : α → α) (write : α → Text)
    {l : List α}
    (h : ∀ a ∈ l, keep a = true → strip a = a ∨ (write (strip a)).length < (write a).length) :
    (l.filter keep).map strip = l ∨
      rowLength (((l.filter keep).map strip).map write) < rowLength (l.map write) := by
  induction l with
  | nil => exact Or.inl rfl
  | cons a l ih =>
      obtain ⟨ha, hl⟩ := List.forall_mem_cons.1 h
      have hlater :
          rowLength (((l.filter keep).map strip).map write) ≤ rowLength (l.map write) := by
        rcases ih hl with heq | hlt
        · rw [heq]
        · exact hlt.le
      rw [List.filter_cons]
      by_cases hkeep : keep a = true
      · rw [if_pos hkeep, List.map_cons, List.map_cons, List.map_cons, rowLength_cons,
          rowLength_cons]
        rcases ha hkeep with hstrip | hshorter
        · rcases ih hl with heq | hlt
          · exact Or.inl (by rw [hstrip, heq])
          · exact Or.inr (by rw [hstrip]; omega)
        · exact Or.inr (by omega)
      · -- what is left out leaves at least its separator
        rw [if_neg hkeep, List.map_cons, rowLength_cons]
        exact Or.inr (by omega)

/-! ## Stripping -/

/-- Leaving out what is undefined does not change whether all is. -/
theorem all_map_filter {α : Type} (undefined : α → Bool) (strip : α → α) {l : List α}
    (h : ∀ a ∈ l, undefined (strip a) = undefined a) :
    ((l.filter (!undefined ·)).map strip).all undefined = l.all undefined := by
  induction l with
  | nil => rfl
  | cons a l ih =>
      obtain ⟨ha, hl⟩ := List.forall_mem_cons.1 h
      rw [List.filter_cons, List.all_cons]
      cases hundefined : undefined a with
      | true => simpa using ih hl
      | false => simp [ha, hundefined]

namespace Value

mutual

/-- **INDUCTION**: what holds of a value if it holds of its members, holds of every value. -/
@[elab_as_elim]
theorem nestedInduction {P : Value → Prop} (scalar : ∀ s, P (.scalar s))
    (list : ∀ items, (∀ v ∈ items, P v) → P (.list items))
    (assoc : ∀ pairs, (∀ p ∈ pairs, P p.2) → P (.assoc pairs)) : ∀ v, P v
  | .scalar s => scalar s
  | .list items => list items (nestedInduction_items scalar list assoc items)
  | .assoc pairs => assoc pairs (nestedInduction_pairs scalar list assoc pairs)

theorem nestedInduction_items {P : Value → Prop} (scalar : ∀ s, P (.scalar s))
    (list : ∀ items, (∀ v ∈ items, P v) → P (.list items))
    (assoc : ∀ pairs, (∀ p ∈ pairs, P p.2) → P (.assoc pairs)) :
    ∀ items : List Value, ∀ v ∈ items, P v
  | [] => List.forall_mem_nil _
  | v :: items => List.forall_mem_cons.2 ⟨nestedInduction scalar list assoc v,
      nestedInduction_items scalar list assoc items⟩

theorem nestedInduction_pairs {P : Value → Prop} (scalar : ∀ s, P (.scalar s))
    (list : ∀ items, (∀ v ∈ items, P v) → P (.list items))
    (assoc : ∀ pairs, (∀ p ∈ pairs, P p.2) → P (.assoc pairs)) :
    ∀ pairs : List (Text × Value), ∀ p ∈ pairs, P p.2
  | [] => List.forall_mem_nil _
  | (_, v) :: pairs => List.forall_mem_cons.2 ⟨nestedInduction scalar list assoc v,
      nestedInduction_pairs scalar list assoc pairs⟩

end

mutual

/-- The value without its undefined parts, at any depth. -/
def stripped : Value → Value
  | scalar s => scalar s
  | list items => list (strippedItems items)
  | assoc pairs => assoc (strippedPairs pairs)

/-- The defined items of a list, each without its undefined parts. -/
def strippedItems : List Value → List Value
  | [] => []
  | v :: items =>
      if v.isUndefined then strippedItems items else v.stripped :: strippedItems items

/-- The pairs whose members are defined, each member without its undefined parts. -/
def strippedPairs : List (Text × Value) → List (Text × Value)
  | [] => []
  | (k, v) :: pairs =>
      if v.isUndefined then strippedPairs pairs else (k, v.stripped) :: strippedPairs pairs

end

/-- The values one level down. -/
def members : Value → List Value
  | scalar _ => []
  | list items => items
  | assoc pairs => pairs.map (·.2)

theorem strippedItems_eq (items : List Value) :
    strippedItems items = (items.filter (!·.isUndefined)).map stripped := by
  induction items with
  | nil => rfl
  | cons v items ih =>
      rw [strippedItems, List.filter_cons, ih]
      cases v.isUndefined <;> rfl

theorem strippedPairs_eq (pairs : List (Text × Value)) :
    strippedPairs pairs
      = (pairs.filter (!·.2.isUndefined)).map fun p => (p.1, p.2.stripped) := by
  induction pairs with
  | nil => rfl
  | cons p pairs ih =>
      obtain ⟨k, v⟩ := p
      rw [strippedPairs, List.filter_cons, ih]
      cases v.isUndefined <;> rfl

theorem isUndefined_stripped (v : Value) : v.stripped.isUndefined = v.isUndefined := by
  induction v using nestedInduction with
  | scalar s => rfl
  | list items ih =>
      rw [stripped, isUndefined, isUndefined, areUndefined_eq_all, areUndefined_eq_all,
        strippedItems_eq]
      exact all_map_filter isUndefined stripped ih
  | assoc pairs ih =>
      rw [stripped, isUndefined, isUndefined, membersUndefined_eq_all, membersUndefined_eq_all,
        strippedPairs_eq]
      exact all_map_filter (fun p : Text × Value => p.2.isUndefined)
        (fun p => (p.1, p.2.stripped)) ih

/-- There is nothing to drop from a stripped value. -/
theorem definedPart_stripped (v : Value) : v.stripped.definedPart = v.stripped := by
  cases v with
  | scalar s => rfl
  | list items =>
      rw [stripped, definedPart, strippedItems_eq, List.filter_eq_self.2]
      intro w hw
      obtain ⟨m, hm, rfl⟩ := List.mem_map.1 hw
      rw [isUndefined_stripped]
      exact (List.mem_filter.1 hm).2
  | assoc pairs =>
      rw [stripped, definedPart, strippedPairs_eq, List.filter_eq_self.2]
      intro w hw
      obtain ⟨p, hp, rfl⟩ := List.mem_map.1 hw
      rw [isUndefined_stripped]
      exact (List.mem_filter.1 hp).2

/-- What is dropped would have been stripped. -/
theorem stripped_definedPart (v : Value) : v.definedPart.stripped = v.stripped := by
  cases v with
  | scalar s => rfl
  | list items =>
      simp only [definedPart, stripped, strippedItems_eq, List.filter_filter, Bool.and_self]
  | assoc pairs =>
      simp only [definedPart, stripped, strippedPairs_eq, List.filter_filter, Bool.and_self]

/-- So what pruning leaves is defined just when the value is. -/
theorem isUndefined_definedPart (v : Value) : v.definedPart.isUndefined = v.isUndefined := by
  rw [← isUndefined_stripped, stripped_definedPart, isUndefined_stripped]

/-- **PRUNING**: a stripped value is pruned to what the pruned value is stripped to. -/
theorem prune_stripped (v : Value) : v.stripped.prune = v.prune.map stripped := by
  rw [prune_eq, prune_eq, isUndefined_stripped, definedPart_stripped]
  split
  · rfl
  · rw [Option.map_some, stripped_definedPart]

/-- Pruning strips a value just when no defined member has anything to strip. -/
theorem stripped_eq_definedPart_iff {v : Value} :
    v.stripped = v.definedPart ↔ ∀ m ∈ v.members, m.isUndefined = false → m.stripped = m := by
  have hself : ∀ {α : Type} (strip : α → α) (l : List α),
      l.map strip = l ↔ ∀ a ∈ l, strip a = a := by
    intro α strip l
    conv_lhs => rw [← List.map_id l, List.map_map]
    exact List.map_inj_left
  cases v with
  | scalar s => simp [stripped, definedPart, members]
  | list items =>
      rw [stripped, definedPart, list.injEq, strippedItems_eq, hself]
      simp [members]
  | assoc pairs =>
      rw [stripped, definedPart, assoc.injEq, strippedPairs_eq, hself, members, List.forall_mem_map]
      simp [Prod.ext_iff]

/-- A value with a defined member is defined. -/
theorem isUndefined_eq_false_of_mem {v m : Value} (hm : m ∈ v.members)
    (h : m.isUndefined = false) : v.isUndefined = false := by
  cases v with
  | scalar s => cases hm
  | list items =>
      rw [isUndefined, areUndefined_eq_all, List.all_eq_false]
      exact ⟨m, hm, by rw [h]; exact Bool.false_ne_true⟩
  | assoc pairs =>
      obtain ⟨p, hp, rfl⟩ := List.mem_map.1 hm
      rw [isUndefined, membersUndefined_eq_all, List.all_eq_false]
      exact ⟨p, hp, by rw [h]; exact Bool.false_ne_true⟩

/-- Only of a defined value is there more to strip than pruning does. -/
theorem isUndefined_eq_false_of_stripped_ne {v : Value} (h : v.stripped ≠ v.definedPart) :
    v.isUndefined = false := by
  by_contra hundefined
  refine h (stripped_eq_definedPart_iff.2 ?_)
  intro m hm hdefined
  exact absurd (isUndefined_eq_false_of_mem hm hdefined) hundefined

variable (escaping : Escaping)

theorem encodedItems_eq (items : List Value) :
    encodedItems escaping items = items.map (encoded escaping) := by
  induction items with
  | nil => rfl
  | cons v items ih => rw [encodedItems, ih, List.map_cons]

/-- Items that are stripped make a shorter row, however each is written. -/
theorem eq_or_rowLength_items_lt (write : Text → Text)
    (hwrite : ∀ {a b : Text}, a.length < b.length → (write a).length < (write b).length)
    {items : List Value} (h : ∀ m ∈ items, m.isUndefined = false →
      m.stripped = m ∨ (m.stripped.encoded escaping).length < (m.encoded escaping).length) :
    strippedItems items = items ∨
      rowLength ((strippedItems items).map fun m => write (m.encoded escaping))
        < rowLength (items.map fun m => write (m.encoded escaping)) := by
  rw [strippedItems_eq]
  refine eq_or_rowLength_lt _ _ (fun m : Value => write (m.encoded escaping)) ?_
  intro m hm hdefined
  exact (h m hm (Bool.not_eq_true' _ ▸ hdefined)).imp_right hwrite

/-- So do pairs whose members are stripped. -/
theorem eq_or_rowLength_pairs_lt (write : Text → Text → Text)
    (hwrite : ∀ k {a b : Text}, a.length < b.length → (write k a).length < (write k b).length)
    {pairs : List (Text × Value)} (h : ∀ p ∈ pairs, p.2.isUndefined = false →
      p.2.stripped = p.2 ∨ (p.2.stripped.encoded escaping).length < (p.2.encoded escaping).length) :
    strippedPairs pairs = pairs ∨
      rowLength ((strippedPairs pairs).map fun p => write p.1 (p.2.encoded escaping))
        < rowLength (pairs.map fun p => write p.1 (p.2.encoded escaping)) := by
  rw [strippedPairs_eq]
  refine eq_or_rowLength_lt _ _ (fun p : Text × Value => write p.1 (p.2.encoded escaping)) ?_
  intro p hp hdefined
  exact (h p hp (Bool.not_eq_true' _ ▸ hdefined)).imp (congrArg (p.1, ·)) (hwrite p.1)

/-- **ENCODING**: a defined value has nothing to strip, or is encoded shorter without it. -/
theorem eq_or_length_encoded_lt {v : Value} (h : v.isUndefined = false) :
    v.stripped = v ∨ (v.stripped.encoded escaping).length < (v.encoded escaping).length := by
  induction v using nestedInduction with
  | scalar s => exact Or.inl rfl
  | list items ih =>
      have hrow := eq_or_rowLength_items_lt escaping id id fun m hm => ih m hm
      rw [stripped, encoded, encoded, encodedItems_eq, encodedItems_eq]
      refine hrow.imp (congrArg list) (length_intercalate_lt ',' ?_)
      obtain ⟨m, hm, hdefined⟩ := exists_defined_item h
      rw [strippedItems_eq]
      exact List.ne_nil_of_mem (List.mem_map_of_mem (List.mem_map_of_mem
        (List.mem_filter.2 ⟨hm, by rw [hdefined]; rfl⟩)))
  | assoc pairs ih =>
      have hrow := eq_or_rowLength_pairs_lt escaping
        (fun k text => Percent.encode escaping k ++ .char ',' :: text)
        (fun k a b hlt => by simpa using hlt) fun p hp => ih p hp
      have hencoded : ∀ pairs, encodedPairs escaping pairs
          = pairs.map fun p => Percent.encode escaping p.1 ++ .char ',' :: p.2.encoded escaping :=
        fun pairs => (encodedPairs_eq_map pairs).trans List.map_map
      rw [stripped, encoded, encoded, hencoded, hencoded]
      refine hrow.imp (congrArg assoc) (length_intercalate_lt ',' ?_)
      obtain ⟨p, hp, hdefined⟩ := exists_defined_pair h
      rw [strippedPairs_eq]
      exact List.ne_nil_of_mem (List.mem_map_of_mem (List.mem_map_of_mem
        (List.mem_filter.2 ⟨hp, by rw [hdefined]; rfl⟩)))

end Value

/-! ## Variables -/

namespace Style

variable (style : Style) {shorter longer : Text}

/-- A longer value makes a longer part, also where an empty one is the name by itself. -/
theorem length_nameValue_lt (name : Text) (h : shorter.length < longer.length) :
    (style.nameValue name shorter).length < (style.nameValue name longer).length := by
  have hlonger : longer ≠ [] := List.ne_nil_of_length_pos (by omega)
  rw [Standard.nameValue_of_ne_nil style name hlonger, nameValue]
  split
  · simp
  · simpa using h

theorem length_part_lt (name : Text) (h : shorter.length < longer.length) :
    (style.part name shorter).length < (style.part name longer).length := by
  rw [part, part]
  split
  · exact style.length_nameValue_lt name h
  · exact h

end Style

/-- **PARTS**: a defined value has nothing to strip, or its parts make a shorter row without it. -/
theorem VarSpec.rowLength_parts_lt (v : VarSpec) (style : Style) {value : Value}
    (h : value.isUndefined = false) :
    value.stripped = value ∨
      rowLength (v.parts style value.stripped) < rowLength (v.parts style value) := by
  have hmember := fun m : Value => Value.eq_or_length_encoded_lt style.escaping (v := m)
  have hwhole := hmember value h
  cases value with
  | scalar s => exact Or.inl rfl
  | list items =>
      rw [Value.stripped, parts, parts]
      cases v.explode with
      | true =>
          have hrow := Value.eq_or_rowLength_items_lt style.escaping (style.part v.name)
            (style.length_part_lt v.name) fun m (_ : m ∈ items) => hmember m
          rw [if_pos rfl, if_pos rfl, Value.encodedItems_eq, Value.encodedItems_eq,
            List.map_map, List.map_map]
          exact hrow.imp_left (congrArg Value.list)
      | false =>
          -- all items are one part
          rw [if_neg Bool.false_ne_true, if_neg Bool.false_ne_true]
          exact hwhole.imp_right fun hlt => Nat.succ_lt_succ (style.length_part_lt v.name hlt)
  | assoc pairs =>
      rw [Value.stripped, parts, parts]
      cases v.explode with
      | true =>
          have hrow := Value.eq_or_rowLength_pairs_lt style.escaping
            (fun k => style.nameValue (Percent.encode style.escaping k))
            (fun k => style.length_nameValue_lt _) fun p (_ : p ∈ pairs) => hmember p.2
          rw [if_pos rfl, if_pos rfl]
          exact hrow.imp_left (congrArg Value.assoc)
      | false =>
          rw [if_neg Bool.false_ne_true, if_neg Bool.false_ne_true]
          exact hwhole.imp_right fun hlt => Nat.succ_lt_succ (style.length_part_lt v.name hlt)

/-- What a variable contributes: nothing if it has no value. -/
def VarSpec.contribution (v : VarSpec) (style : Style) (value : Option Value) : List Text :=
  match value with
  | some value => v.parts style value
  | none => []

/-- Where pruning strips a value already, a variable contributes the same of both. -/
theorem VarSpec.contribution_stripped_of_eq (v : VarSpec) (style : Style) {value : Value}
    (h : value.stripped = value.definedPart) :
    v.contribution style value.stripped.prune = v.contribution style value.prune := by
  rw [Value.prune_eq, Value.prune_eq, Value.isUndefined_stripped, Value.definedPart_stripped, h]

/-- Otherwise what it contributes of the stripped value makes a shorter row, though not none. -/
theorem VarSpec.rowLength_contribution_lt (v : VarSpec) (style : Style) {value : Value}
    (h : value.stripped ≠ value.definedPart) :
    v.contribution style value.stripped.prune ≠ [] ∧
      rowLength (v.contribution style value.stripped.prune)
        < rowLength (v.contribution style value.prune) := by
  have hdefined := Value.isUndefined_eq_false_of_stripped_ne h
  have hprune := Value.prune_of_isUndefined_eq_false hdefined
  have hstripped : value.stripped.prune = some value.stripped := by
    rw [Value.prune_stripped, hprune, Option.map_some, Value.stripped_definedPart]
  constructor
  · rw [hstripped]
    exact Standard.parts_ne_nil hstripped style
  · rw [hstripped, hprune]
    have hpart : value.definedPart.isUndefined = false :=
      (Value.isUndefined_definedPart value).trans hdefined
    have hshorter := v.rowLength_parts_lt style hpart
    rw [Value.stripped_definedPart] at hshorter
    exact hshorter.resolve_left h

/-! ## Expressions -/

/-- Another value for a name is the value of that name and no other. -/
theorem Environment.value?_insert (env : Environment) (keywordLists : Bool) (name other : Text)
    (value : Value) :
    Environment.value? (OrderedMap.insert env name (.value value)) keywordLists other
      = if name = other then value.prune else env.value? keywordLists other := by
  rw [value?, OrderedMap.get?_insert]
  split
  · rfl
  · rfl

namespace Expression

theorem parts_eq_flatMap (e : Expression) (keywordLists : Bool) (env : Environment) :
    e.parts keywordLists env
      = e.specs.flatMap fun v =>
          v.contribution e.operator.style (env.value? keywordLists v.name) := rfl

/-- What is written is as long as the lead and the row. -/
theorem length_render {e : Expression} {keywordLists : Bool} {env : Environment}
    (h : e.parts keywordLists env ≠ []) :
    (e.render keywordLists env).length + 1
      = e.operator.style.lead.toList.length + rowLength (e.parts keywordLists env) := by
  have hjoined := length_intercalate e.operator.style.separator h
  rw [render]
  split
  · next hnil => exact absurd hnil h
  · rw [List.length_append, Nat.add_assoc, hjoined]

/-- Of two environments, the one with the shorter row is written shorter. -/
theorem length_render_lt {e : Expression} {keywordLists : Bool} {env env' : Environment}
    (hne : e.parts keywordLists env ≠ [])
    (h : rowLength (e.parts keywordLists env) < rowLength (e.parts keywordLists env')) :
    (e.render keywordLists env).length < (e.render keywordLists env').length := by
  have hne' : e.parts keywordLists env' ≠ [] := by
    intro hnil
    rw [hnil] at h
    exact absurd h (Nat.not_lt_zero _)
  have := length_render hne
  have := length_render hne'
  omega

variable {e : Expression} {keywordLists : Bool} {env : Environment} {name : Text} {value : Value}

/-- Where pruning strips the value already, the parts of an expression are the same. -/
theorem parts_stripped_of_eq
    (h : (∃ v ∈ e.specs, v.name = name) → value.stripped = value.definedPart) :
    e.parts keywordLists (OrderedMap.insert env name (.value value.stripped))
      = e.parts keywordLists (OrderedMap.insert env name (.value value)) := by
  rw [parts_eq_flatMap, parts_eq_flatMap]
  refine List.flatMap_congr fun v hv => ?_
  rw [Environment.value?_insert, Environment.value?_insert]
  by_cases hname : name = v.name
  · rw [if_pos hname, if_pos hname]
    exact v.contribution_stripped_of_eq _ (h ⟨v, hv, hname.symm⟩)
  · rw [if_neg hname, if_neg hname]

/-- Otherwise the variables of that name make a shorter row, and the others the same. -/
theorem rowLength_parts_stripped_lt (keywordLists : Bool) (env : Environment)
    (hname : ∃ v ∈ e.specs, v.name = name) (h : value.stripped ≠ value.definedPart) :
    let shorter := e.parts keywordLists (OrderedMap.insert env name (.value value.stripped))
    let longer := e.parts keywordLists (OrderedMap.insert env name (.value value))
    shorter ≠ [] ∧ rowLength shorter < rowLength longer := by
  intro shorter longer
  obtain ⟨v, hv, rfl⟩ := hname
  have hown := fun w : VarSpec => w.rowLength_contribution_lt e.operator.style h
  simp only [shorter, longer, parts_eq_flatMap, Environment.value?_insert]
  constructor
  · intro hnil
    have hcontribution := List.flatMap_eq_nil_iff.1 hnil v hv
    rw [if_pos rfl] at hcontribution
    exact (hown v).1 hcontribution
  · rw [rowLength_flatMap, rowLength_flatMap]
    refine List.sum_lt_sum _ _ ?_ ⟨v, hv, ?_⟩
    · intro w hw
      split
      · exact (hown w).2.le
      · exact le_rfl
    · rw [if_pos rfl, if_pos rfl]
      exact (hown v).2

/-- **UNDEFINED PARTS**: without its undefined parts, at any depth, a value is never written
    longer.  It is written the same just when the expression has no variable of the name, or no
    defined member of the value has an undefined part: pruning goes one level down. -/
theorem render_stripped (e : Expression) (keywordLists : Bool) (env : Environment) (name : Text)
    (value : Value) :
    let whole := e.render keywordLists (OrderedMap.insert env name (.value value))
    let stripped := e.render keywordLists (OrderedMap.insert env name (.value value.stripped))
    stripped.length ≤ whole.length ∧
      (stripped = whole ↔ ((∃ v ∈ e.specs, v.name = name) →
        ∀ m ∈ value.members, m.isUndefined = false → m.stripped = m)) := by
  intro whole stripped
  by_cases hclean : (∃ v ∈ e.specs, v.name = name) →
      ∀ m ∈ value.members, m.isUndefined = false → m.stripped = m
  · -- pruning has left nothing to strip, or nothing reads the value
    have heq : stripped = whole := by
      show e.render _ _ = e.render _ _
      rw [render, render, parts_stripped_of_eq fun hname =>
        Value.stripped_eq_definedPart_iff.2 (hclean hname)]
    exact ⟨(congrArg List.length heq).le, iff_of_true heq hclean⟩
  · -- a variable of that name writes a shorter row, so the whole cannot be the same
    obtain ⟨hname, hmembers⟩ := Classical.not_imp.1 hclean
    obtain ⟨hne, hrow⟩ := rowLength_parts_stripped_lt keywordLists env hname
      (mt Value.stripped_eq_definedPart_iff.1 hmembers)
    have hshorter : stripped.length < whole.length := length_render_lt hne hrow
    refine ⟨hshorter.le, iff_of_false ?_ hclean⟩
    intro heq
    rw [heq] at hshorter
    exact lt_irrefl _ hshorter

/-- An undefined item of a list in a list is written as an empty one. -/
example :
    let e : Expression := ⟨.simple, [⟨"a".toText, false, none⟩]⟩
    let value : Value := .list [.list [.scalar .null, .ofText "x".toText], .ofText "y".toText]
    e.render true [("a".toText, .value value)] = ",x,y".toText ∧
      e.render true [("a".toText, .value value.stripped)] = "x,y".toText := by
  exact ⟨rfl, rfl⟩

end Expression

end UriTemplate
