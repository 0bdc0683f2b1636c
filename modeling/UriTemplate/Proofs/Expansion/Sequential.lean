import UriTemplate.Proofs.Expansion.Standard
import UriTemplate.Proofs.RoundTrip.Contributions

/-! # Expansion is sequential — joining at the end is appending on the way

    An expression is expanded by collecting the parts of its variables and joining
    them; the standard appends to one result.  Both come to the same text:

    * `Standard.Row.append_eq` — what the standard appends for a variable is the row of
      the parts that the variable contributes;
    * `Standard.foldl_advance` — after any number of variables the result is the row of
      all parts so far, behind the lead if there is one;
    * `Expression.render_eq_expand` — so an expansion is the standard's. -/

namespace UriTemplate

namespace Standard

/-! ## The table -/

variable (op : Operator)

theorem row_first : (row op).first = op.style.lead.toList := by cases op <;> rfl

theorem row_sep : (row op).sep = [op.style.separator] := by cases op <;> rfl

theorem row_named : (row op).named = op.style.isNamed := by cases op <;> rfl

theorem row_allow : (row op).allow = op.style.escaping := by cases op <;> rfl

/-- A name with an empty value: bare before nothing, or with an equals sign. -/
theorem nameValue_nil (hnamed : (row op).named = true) (name : Text) :
    op.style.nameValue name [] = name ++ (row op).ifemp := by
  cases op with
  | pathParameter => exact (List.append_nil name).symm
  | query | continuation => rfl
  | simple | reserved | fragment | label | pathSegment => exact nomatch hnamed

theorem nameValue_of_ne_nil (style : Style) (name : Text) {encoded : Text} (h : encoded ≠ []) :
    style.nameValue name encoded = name ++ .char '=' :: encoded := by
  rw [Style.nameValue, if_neg fun hempty => h hempty.2]

theorem part_of_named (hnamed : (row op).named = true) (name encoded : Text) :
    op.style.part name encoded = op.style.nameValue name encoded := by
  rw [Style.part, if_pos (by rw [← row_named, hnamed])]

theorem part_of_not_named (hnamed : ¬ (row op).named = true) (name encoded : Text) :
    op.style.part name encoded = encoded := by
  rw [Style.part, if_neg (by rwa [← row_named])]

/-- Without names a pair always has its equals sign. -/
theorem nameValue_of_not_named (hnamed : ¬ (row op).named = true) (name encoded : Text) :
    op.style.nameValue name encoded = name ++ .char '=' :: encoded := by
  refine Style.nameValue_values ?_ name encoded
  cases op with
  | simple | reserved | fragment | label | pathSegment => rfl
  | pathParameter | query | continuation => exact absurd rfl hnamed

/-! ## Appending -/

variable {op}

/-- Members that are appended one by one make up a row. -/
theorem appendAll_eq {α : Type} (sep : CodePoint) {append : Text → α → Text} {write : α → Text}
    (happend : ∀ result a, append result a = result ++ write a) (result : Text)
    (members : List α) :
    appendAll [sep] append result members
      = result ++ List.intercalate [sep] (members.map write) := by
  fun_induction appendAll [sep] append result members with
  | case1 result => exact (List.append_nil result).symm
  | case2 result a =>
      rw [happend, List.map_singleton, List.intercalate_singleton]
  | case3 result a members hne ih =>
      cases members with
      | nil => exact absurd rfl hne
      | cons b members =>
          rw [ih, happend, List.map_cons, List.map_cons, List.map_cons,
            List.intercalate_cons_cons]
          simp only [List.append_assoc]

namespace Row

theorem appendText_eq (result s : Text) :
    (row op).appendText result s = result ++ Percent.encode op.style.escaping s := by
  rw [appendText, row_allow]

theorem appendNamed_eq (hnamed : (row op).named = true) (result name s : Text) :
    (row op).appendNamed result name s
      = result ++ op.style.nameValue name (Percent.encode op.style.escaping s) := by
  rw [appendNamed]
  by_cases hs : s = []
  · rw [if_pos hs, Percent.encode_eq_nil_iff.2 hs, nameValue_nil op hnamed, List.append_assoc]
  · rw [if_neg hs, appendText_eq,
      nameValue_of_ne_nil _ name fun hnil => hs (Percent.encode_eq_nil_iff.1 hnil)]
    simp only [List.append_assoc, List.singleton_append]

/-- What is shown of a string is what the variable cuts off, and is empty only if it is. -/
theorem shown_eq {v : VarSpec} (hlength : ∀ n, v.maxLength = some n → 1 ≤ n) (s : Text) :
    shown v s = v.cut s ∧ (v.cut s = [] ↔ s = []) := by
  rw [shown, VarSpec.cut]
  cases hmax : v.maxLength with
  | none => exact ⟨rfl, Iff.rfl⟩
  | some n =>
      have hn := hlength n hmax
      have hcut : s.upTo n = s.take n.toNat := by
        rw [Text.upTo, if_pos (by omega)]
      dsimp only
      rw [hcut, List.take_eq_nil_iff]
      refine ⟨?_, or_iff_right (by omega)⟩
      split
      · rfl
      · exact (List.take_of_length_le (by omega)).symm

theorem appendString_eq {v : VarSpec} (hlength : ∀ n, v.maxLength = some n → 1 ≤ n)
    (result s : Text) :
    (row op).appendString v result s
      = result ++ op.style.part v.name (Percent.encode op.style.escaping (v.cut s)) := by
  obtain ⟨hshown, hnil⟩ := shown_eq hlength s
  rw [appendString, hshown]
  -- the standard looks at the whole string, the parts at what is cut off: both are empty or none
  by_cases hnamed : (row op).named = true
  · rw [if_pos hnamed, part_of_named op hnamed, appendText_eq]
    by_cases hs : s = []
    · rw [if_pos hs, Percent.encode_eq_nil_iff.2 (hnil.2 hs),
        nameValue_nil op hnamed, List.append_assoc]
    · rw [if_neg hs, nameValue_of_ne_nil _ _ fun hempty =>
        hs (hnil.1 (Percent.encode_eq_nil_iff.1 hempty))]
      simp only [List.append_assoc, List.singleton_append]
  · rw [if_neg hnamed, part_of_not_named op hnamed, appendText_eq]

theorem appendJoined_eq {α : Type} {append : Text → α → Text} {write : α → Text}
    (happend : ∀ result a, append result a = result ++ write a) (name result : Text)
    (members : List α) :
    (row op).appendJoined name append result members
      = result ++ op.style.part name (commaJoined (members.map write)) := by
  have hall := appendAll_eq ',' happend
  rw [appendJoined, hall, hall, hall, List.nil_append]
  change _ = result ++ op.style.part name (List.intercalate [.char ','] (members.map write))
  by_cases hnamed : (row op).named = true
  · rw [if_pos hnamed, part_of_named op hnamed]
    by_cases hempty : List.intercalate [.char ','] (members.map write) = []
    · rw [if_pos hempty, hempty, nameValue_nil op hnamed, List.append_assoc]
    · rw [if_neg hempty, nameValue_of_ne_nil _ _ hempty]
      simp only [List.append_assoc, List.singleton_append]
  · rw [if_neg hnamed, part_of_not_named op hnamed]

end Row

end Standard

/-! ## Members -/

namespace Value

variable {escaping : Escaping}

/-- The value without its undefined members. -/
def definedPart : Value → Value
  | scalar s => scalar s
  | list items => list (items.filter (!·.isUndefined))
  | assoc pairs => assoc (pairs.filter (!·.2.isUndefined))

theorem prune_eq (v : Value) : v.prune = if v.isUndefined then none else some v.definedPart := by
  unfold prune
  cases v <;> rfl

/-- A defined list has a defined member. -/
theorem exists_defined_item {items : List Value} (h : (list items).isUndefined = false) :
    ∃ v ∈ items, v.isUndefined = false := by
  rw [isUndefined, areUndefined_eq_all, List.all_eq_false] at h
  simpa using h

/-- A defined associative array has a defined member. -/
theorem exists_defined_pair {pairs : List (Text × Value)}
    (h : (assoc pairs).isUndefined = false) : ∃ p ∈ pairs, p.2.isUndefined = false := by
  rw [isUndefined, membersUndefined_eq_all, List.all_eq_false] at h
  simpa only [Bool.not_eq_true] using h

/-- Of a defined value only members are left out. -/
theorem prune_of_isUndefined_eq_false {v : Value} (h : v.isUndefined = false) :
    v.prune = some v.definedPart := by
  rw [prune_eq, h, if_neg Bool.false_ne_true]

/-- A value that is pruned to something is defined, and only members of it are left out. -/
theorem prune_eq_some {v pruned : Value} (h : v.prune = some pruned) :
    v.isUndefined = false ∧ v.definedPart = pruned := by
  rw [prune_eq] at h
  split at h
  · exact nomatch h
  · next hdefined => exact ⟨Bool.not_eq_true _ ▸ hdefined, Option.some.inj h⟩

/-- A value that is pruned to nothing is undefined. -/
theorem prune_eq_none {v : Value} (h : v.prune = none) : v.isUndefined = true := by
  rw [prune_eq] at h
  split at h
  · next hundefined => exact hundefined
  · exact nomatch h

/-- An undefined member has no text. -/
theorem text?_eq_none {v : Value} (h : v.isUndefined = true) : v.text? = none := by
  cases v with
  | scalar s => exact if_pos h
  | list items => rfl
  | assoc pairs => rfl

/-- A defined member that is a scalar has the text that is encoded. -/
theorem exists_text? (escaping : Escaping) {v : Value} (hscalar : ∃ s, v = .scalar s)
    (h : v.isUndefined = false) :
    ∃ s, v.text? = some s ∧ v.encoded escaping = Percent.encode escaping s := by
  obtain ⟨s, rfl⟩ := hscalar
  refine ⟨s.toText, if_neg ?_, rfl⟩
  show ¬ (scalar s).isUndefined = true
  rw [h]
  exact Bool.false_ne_true

/-- The members of a pruned list are the defined ones of the list. -/
theorem encodedItems_filter {items : List Value}
    (hflat : ∀ v ∈ items.filter (!·.isUndefined), ∃ s, v = .scalar s) :
    encodedItems escaping (items.filter (!·.isUndefined))
      = ((items.map text?).filterMap id).map (Percent.encode escaping) := by
  induction items with
  | nil => rfl
  | cons v items ih =>
      rw [List.filter_cons] at hflat ⊢
      rw [List.map_cons, List.filterMap_cons]
      cases hv : v.isUndefined with
      | true =>
          rw [hv] at hflat
          rw [text?_eq_none hv]
          exact ih hflat
      | false =>
          rw [hv] at hflat
          obtain ⟨hscalar, hitems⟩ := List.forall_mem_cons.1 hflat
          obtain ⟨s, hs, hencoded⟩ := exists_text? escaping hscalar hv
          rw [hs]
          show v.encoded escaping :: _ = _ :: _
          rw [hencoded, ih hitems]

/-- The members of a pruned associative array are the defined ones, under their keys. -/
theorem encodedMembers_filter {pairs : List (Text × Value)}
    (hflat : ∀ p ∈ pairs.filter (!·.2.isUndefined), ∃ s, p.2 = .scalar s) :
    (pairs.filter (!·.2.isUndefined)).map (fun p => (p.1, p.2.encoded escaping))
      = ((pairs.map fun p => (p.1, p.2.text?)).filterMap fun m => m.2.map (m.1, ·)).map
          fun p => (p.1, Percent.encode escaping p.2) := by
  induction pairs with
  | nil => rfl
  | cons p pairs ih =>
      rw [List.filter_cons] at hflat ⊢
      rw [List.map_cons, List.filterMap_cons]
      cases hp : p.2.isUndefined with
      | true =>
          rw [hp] at hflat
          rw [text?_eq_none hp]
          exact ih hflat
      | false =>
          rw [hp] at hflat
          obtain ⟨hscalar, hpairs⟩ := List.forall_mem_cons.1 hflat
          obtain ⟨s, hs, hencoded⟩ := exists_text? escaping hscalar hp
          rw [hs]
          show (p.1, p.2.encoded escaping) :: List.map _ _ = (p.1, _) :: _
          rw [hencoded, ih hpairs]

/-- Each pair of an associative array is encoded by itself. -/
theorem encodedPairs_eq_map (pairs : List (Text × Value)) :
    encodedPairs escaping pairs
      = (pairs.map fun p => (p.1, p.2.encoded escaping)).map
          fun p => Percent.encode escaping p.1 ++ .char ',' :: p.2 := by
  induction pairs with
  | nil => rfl
  | cons p pairs ih =>
      rw [encodedPairs, ih]
      rfl

end Value

namespace Standard

/-! ## Variables -/

variable {op : Operator} {v : VarSpec}

/-- What has no value when it is pruned is undefined in the standard's terms. -/
theorem filter_meaning?_eq_none {whole : Value} (h : whole.prune = none) :
    whole.meaning?.filter Meaning.isDefined = none := by
  have hundefined := Value.prune_eq_none h
  cases whole with
  | scalar s =>
      rw [Value.meaning?, show s.text? = none from if_pos hundefined]
      rfl
  | list items =>
      have hall : ∀ v ∈ items, v.text? = none := by
        intro v hv
        rw [Value.isUndefined, Value.areUndefined_eq_all, List.all_eq_true] at hundefined
        exact Value.text?_eq_none (hundefined v hv)
      simpa [Value.meaning?, Meaning.isDefined] using hall
  | assoc pairs =>
      have hall : ∀ p ∈ pairs, p.2.text? = none := by
        intro p hp
        rw [Value.isUndefined, Value.membersUndefined_eq_all, List.all_eq_true] at hundefined
        exact Value.text?_eq_none (hundefined p hp)
      simpa [Value.meaning?, Meaning.isDefined] using hall

namespace Row

/-- The standard appends the parts of a list. -/
theorem appendList_eq (result : Text) (texts : List Text) :
    let encoded := texts.map (Percent.encode op.style.escaping)
    (row op).appendList v result texts
      = result ++ List.intercalate [op.style.separator]
          (if v.explode then encoded.map (op.style.part v.name)
            else [op.style.part v.name (commaJoined encoded)]) := by
  intro encoded
  rw [appendList]
  by_cases hexplode : v.explode = true
  · rw [if_pos hexplode, if_pos hexplode, row_sep, List.map_map]
    by_cases hnamed : (row op).named = true
    · rw [if_pos hnamed]
      refine appendAll_eq _ (fun result s => ?_) result texts
      rw [appendNamed_eq hnamed, Function.comp_apply, part_of_named op hnamed]
    · rw [if_neg hnamed]
      refine appendAll_eq _ (fun result s => ?_) result texts
      rw [appendText_eq, Function.comp_apply, part_of_not_named op hnamed]
  · rw [if_neg hexplode, if_neg hexplode, List.intercalate_singleton]
    exact appendJoined_eq appendText_eq v.name result texts

/-- The standard appends the parts of an associative array. -/
theorem appendPairs_eq (result : Text) (pairs : List (Text × Text)) :
    let encoded := pairs.map fun p => (p.1, Percent.encode op.style.escaping p.2)
    (row op).appendPairs v result pairs
      = result ++ List.intercalate [op.style.separator]
          (if v.explode then
            encoded.map fun p => op.style.nameValue (Percent.encode op.style.escaping p.1) p.2
          else [op.style.part v.name (commaJoined
            (encoded.map fun p => Percent.encode op.style.escaping p.1 ++ .char ',' :: p.2))]) := by
  intro encoded
  have hpair : ∀ (c : CodePoint) (result : Text) (p : Text × Text),
      (row op).appendText ((row op).appendText result p.1 ++ [c]) p.2
        = result ++ (Percent.encode op.style.escaping p.1
            ++ c :: Percent.encode op.style.escaping p.2) := by
    intro c result p
    rw [appendText_eq, appendText_eq]
    simp only [List.append_assoc, List.singleton_append]
  rw [appendPairs, List.map_map, List.map_map]
  by_cases hexplode : v.explode = true
  · rw [if_pos hexplode, if_pos hexplode, row_sep]
    by_cases hnamed : (row op).named = true
    · rw [if_pos hnamed]
      refine appendAll_eq _ (fun result p => ?_) result pairs
      rw [appendNamed_eq hnamed, row_allow]
      rfl
    · rw [if_neg hnamed]
      refine appendAll_eq _ (fun result p => ?_) result pairs
      rw [hpair, Function.comp_apply, nameValue_of_not_named op hnamed]
  · rw [if_neg hexplode, if_neg hexplode, List.intercalate_singleton]
    exact appendJoined_eq (hpair ',') v.name result pairs

/-- **VARIABLE**: for a value that is left after pruning, the standard appends the parts that the
    variable contributes. -/
theorem append_eq (op : Operator) (hlength : ∀ n, v.maxLength = some n → 1 ≤ n)
    {whole value : Value} (hprune : whole.prune = some value) (hflat : value.IsFlat) :
    ∃ m, whole.meaning?.filter Meaning.isDefined = some m ∧ ∀ result,
      (row op).append v result m
        = result ++ List.intercalate [op.style.separator] (v.parts op.style value) := by
  obtain ⟨hdefined, rfl⟩ := Value.prune_eq_some hprune
  cases whole with
  | scalar s =>
      have htext : s.text? = some s.toText :=
        if_neg (by rw [show s.isNull = false from hdefined]; exact Bool.false_ne_true)
      refine ⟨.string s.toText, ?_, fun result => ?_⟩
      · rw [Value.meaning?, htext]
        rfl
      · rw [append, appendString_eq hlength]
        exact congrArg (result ++ ·) List.intercalate_singleton.symm
  | list items =>
      refine ⟨.list (items.map Value.text?), ?_, fun result => ?_⟩
      · obtain ⟨w, hw, hwdefined⟩ := Value.exists_defined_item hdefined
        obtain ⟨s, hs, -⟩ := Value.exists_text? .unreserved
          (hflat w (List.mem_filter.2 ⟨hw, by rw [hwdefined]; rfl⟩)) hwdefined
        refine Option.filter_eq_some_iff.2 ⟨rfl, List.any_eq_true.2 ⟨some s, ?_, rfl⟩⟩
        rw [← hs]
        exact List.mem_map_of_mem hw
      · rw [append, appendList_eq, Value.definedPart, VarSpec.parts,
          Value.encodedItems_filter hflat]
  | assoc pairs =>
      refine ⟨.pairs (pairs.map fun p => (p.1, p.2.text?)), ?_, fun result => ?_⟩
      · obtain ⟨p, hp, hpdefined⟩ := Value.exists_defined_pair hdefined
        obtain ⟨s, hs, -⟩ := Value.exists_text? .unreserved
          (hflat p (List.mem_filter.2 ⟨hp, by rw [hpdefined]; rfl⟩)) hpdefined
        refine Option.filter_eq_some_iff.2
          ⟨rfl, List.any_eq_true.2 ⟨(p.1, some s), ?_, rfl⟩⟩
        rw [← hs]
        exact List.mem_map_of_mem (f := fun p : Text × Value => (p.1, p.2.text?)) hp
      · rw [append, appendPairs_eq, Value.definedPart, VarSpec.parts, Value.encodedPairs_eq_map,
          ← Value.encodedMembers_filter hflat, List.map_map]
        rfl

end Row

/-! ## Expressions -/

/-- A variable that has a value contributes at least one part. -/
theorem parts_ne_nil {whole value : Value} (hprune : whole.prune = some value) (style : Style) :
    v.parts style value ≠ [] := by
  obtain ⟨hdefined, rfl⟩ := Value.prune_eq_some hprune
  cases whole with
  | scalar s => exact List.cons_ne_nil _ _
  | list items =>
      obtain ⟨w, hw, hwdefined⟩ := Value.exists_defined_item hdefined
      have hmem : w ∈ items.filter (!·.isUndefined) :=
        List.mem_filter.2 ⟨hw, by rw [hwdefined]; rfl⟩
      rw [Value.definedPart]
      cases hitems : items.filter (!·.isUndefined) with
      | nil =>
          rw [hitems] at hmem
          exact (List.not_mem_nil hmem).elim
      | cons w' items' =>
          rw [VarSpec.parts]
          split <;> exact List.cons_ne_nil _ _
  | assoc pairs =>
      obtain ⟨p, hp, hpdefined⟩ := Value.exists_defined_pair hdefined
      have hmem : p ∈ pairs.filter (!·.2.isUndefined) :=
        List.mem_filter.2 ⟨hp, by rw [hpdefined]; rfl⟩
      rw [Value.definedPart, VarSpec.parts]
      split
      · rw [ne_eq, List.map_eq_nil_iff]
        exact List.ne_nil_of_mem hmem
      · exact List.cons_ne_nil _ _

/-- A row behind the lead of the operator; without parts there is nothing. -/
def written (op : Operator) : List Text → Text
  | [] => []
  | parts => op.style.lead.toList ++ List.intercalate [op.style.separator] parts

/-- More parts go behind a separator, the first ones behind the lead. -/
theorem written_append (op : Operator) (done : List Text) {own : List Text} (hown : own ≠ []) :
    written op (done ++ own)
      = written op done ++ (if !done.isEmpty then (row op).sep else (row op).first)
        ++ List.intercalate [op.style.separator] own := by
  match own, hown with
  | part :: own, _ =>
      cases done with
      | nil => rw [row_first]; rfl
      | cons first done =>
          show op.style.lead.toList ++ List.intercalate _ ((first :: done) ++ part :: own) = _
          rw [intercalate_append _ (List.cons_ne_nil first done),
            flatMap_cons_eq _ (List.cons_ne_nil part own), row_sep]
          simp [written]

variable {keywordLists : Bool} {env : Environment}

/-- **STEP**: a variable that has a value goes behind all parts so far with its own; another one
    changes nothing. -/
theorem advance_eq (hlength : ∀ n, v.maxLength = some n → 1 ≤ n) (hflat : env.IsFlat keywordLists)
    (done : List Text) :
    let own := (⟨op, [v]⟩ : Expression).parts keywordLists env
    (row op).advance (env.meaning? keywordLists) ⟨written op done, !done.isEmpty⟩ v
      = ⟨written op (done ++ own), !(done ++ own).isEmpty⟩ := by
  intro own
  have hvalue := hflat v.name
  simp only [own, Expression.parts, List.flatMap_singleton, Environment.value?] at hvalue ⊢
  rw [Row.advance, Environment.meaning?]
  -- both sides start from the value as it is given, before undefined members are left out
  generalize (OrderedMap.get? env v.name).bind (Datum.coerce keywordLists) = coerced at hvalue ⊢
  cases coerced with
  | none => simp
  | some whole =>
      rw [Option.bind_some, Option.bind_some]
      cases hprune : whole.prune with
      | none =>
          rw [filter_meaning?_eq_none hprune]
          simp
      | some value =>
          have hown := parts_ne_nil (v := v) hprune op.style
          obtain ⟨m, hm, happend⟩ := Row.append_eq op hlength hprune (hvalue value hprune)
          rw [hm]
          show Progress.mk ((row op).append v _ m) true = _
          rw [happend, written_append op done hown]
          simp [hown]

/-- **RUN**: the walk over the variables writes the parts of the expression. -/
theorem foldl_advance (op : Operator) {specs : List VarSpec}
    (hlength : ∀ v ∈ specs, ∀ n, v.maxLength = some n → 1 ≤ n) (hflat : env.IsFlat keywordLists)
    (done : List Text) :
    let all := done ++ (⟨op, specs⟩ : Expression).parts keywordLists env
    specs.foldl ((row op).advance (env.meaning? keywordLists)) ⟨written op done, !done.isEmpty⟩
      = ⟨written op all, !all.isEmpty⟩ := by
  -- what the walk carries is determined by the parts so far
  induction specs generalizing done with
  | nil =>
      intro all
      rw [show all = done from List.append_nil done]
      rfl
  | cons v later ih =>
      intro all
      obtain ⟨hv, hlater⟩ := List.forall_mem_cons.1 hlength
      have hparts : all = done ++ (⟨op, [v]⟩ : Expression).parts keywordLists env
          ++ (⟨op, later⟩ : Expression).parts keywordLists env := by
        simp only [all, Expression.parts, List.flatMap_cons, List.flatMap_nil, List.append_nil,
          List.append_assoc]
      rw [List.foldl_cons, advance_eq hv hflat, ih hlater, ← hparts]

end Standard

namespace Expression

open Standard

/-- **SEQUENTIAL**: an expression is expanded to what the standard's walk over its variables
    appends, for all operators and all flat values, whichever of their members are undefined.  A
    length must not be zero: the standard asks whether the whole string is empty. -/
theorem render_eq_expand {e : Expression} {keywordLists : Bool} {env : Environment}
    (hlength : ∀ v ∈ e.specs, ∀ n, v.maxLength = some n → 1 ≤ n)
    (hflat : env.IsFlat keywordLists) :
    e.render keywordLists env = expand e (env.meaning? keywordLists) := by
  obtain ⟨op, specs⟩ := e
  have hrun := foldl_advance op hlength hflat []
  exact (congrArg Progress.result hrun).symm

/-- An empty string is a bare name, an empty member is kept, an undefined one is not. -/
theorem render_eq_expand_pathParameter :
    let e : Expression := ⟨.pathParameter,
      [⟨"a".toText, false, some 2⟩, ⟨"l".toText, false, none⟩, ⟨"m".toText, true, none⟩,
        ⟨"n".toText, false, none⟩, ⟨"e".toText, false, some 3⟩]⟩
    let env : Environment :=
      [("a".toText, .scalar (.text "é/x".toText)),
        ("l".toText, .list [.scalar (.text []), .scalar .null, .scalar (.text "b,c".toText)]),
        ("m".toText, .map [(.text "k".toText, .scalar (.text [])),
          (.text "u".toText, .scalar .null), (.int 1, .scalar (.bool true))]),
        ("e".toText, .scalar (.text []))]
    expand e (env.meaning? true) = ";a=%C3%A9%2F;l=,b%2Cc;k;1=true;e".toText ∧
    e.render true env = expand e (env.meaning? true) := by
  intro e env
  have hlength : ∀ v ∈ e.specs, ∀ n, v.maxLength = some n → 1 ≤ n := by
    simp [e]
  have hflat : env.IsFlat true := by
    refine Environment.isFlat_of_data true ?_
    simp [env, Datum.IsFlat, -Prod.forall]
  exact ⟨by decide, render_eq_expand hlength hflat⟩

end Expression

end UriTemplate
