import Mathlib.Data.Set.List
import UriTemplate.Proofs.Expansion.Undefined

/-! # Readings — what data are taken for

    With keyword lists on, a sequence of pairs is read as an associative array, and any other
    as a list; with keyword lists off every sequence is a list.  A keyword list is written here
    as the row of its entries (`Datum.exists_keywords`), so that both readings of it are maps
    over one row (`toValue_keywords`, `toValue_false_keywords`).

    A key counts by its text.  Only for a scalar is this the text that it also has as a member
    of a list, so where both readings matter the keys are scalars (`Datum.HasScalarKeys`).

    * `Datum.nestedInduction` — induction on data that follows the reading: the members of a
      keyword list are two levels down, below its pairs;
    * `Environment.value?_eq` — a variable stands for the reading of its datum;
    * `Expression.render_congr` — what is written depends on what the variables contribute. -/

namespace UriTemplate

/-- A pair of a keyword list. -/
structure Keyword where
  key : Datum
  member : Datum
  text : Text := []

/-- The pair as a tuple of two. -/
def Keyword.toDatum (k : Keyword) : Datum := .tuple [k.key, k.member] k.text

theorem Keyword.toDatum_injective : Function.Injective Keyword.toDatum := by
  rintro ⟨key, member, text⟩ ⟨key', member', text'⟩ h
  cases h
  rfl

namespace Datum

/-! ## Keys -/

/-- The scalar that a datum is, by itself or as a value. -/
def scalar? : Datum → Option Scalar
  | scalar s => some s
  | value (.scalar s) _ => some s
  | _ => none

/-- A scalar is taken for itself, and counts as a key by its own text. -/
theorem exists_scalar_eq {d : Datum} (h : d.scalar?.isSome = true) :
    ∃ s, (∀ keywordLists, d.toValue keywordLists = .scalar s) ∧ d.keyText = s.toText := by
  match d, h with
  | scalar s, _ => exact ⟨s, fun _ => rfl, rfl⟩
  | value (.scalar s) _, _ => exact ⟨s, fun _ => rfl, rfl⟩

/-- Is the first item of every pair in a sequence of pairs a scalar, at any depth? -/
inductive HasScalarKeys : Datum → Prop where
  | scalar (s : Scalar) : HasScalarKeys (.scalar s)
  | list {items : List Datum} {text : Text} :
      (areKeywords items = true →
        ∀ k : Keyword, k.toDatum ∈ items → k.key.scalar?.isSome = true) →
      (∀ d ∈ items, HasScalarKeys d) → HasScalarKeys (.list items text)
  | tuple {items : List Datum} {text : Text} :
      (areKeywords items = true →
        ∀ k : Keyword, k.toDatum ∈ items → k.key.scalar?.isSome = true) →
      (∀ d ∈ items, HasScalarKeys d) → HasScalarKeys (.tuple items text)
  | map {entries : List (Scalar × Datum)} {text : Text} :
      (∀ e ∈ entries, HasScalarKeys e.2) → HasScalarKeys (.map entries text)
  | value (v : Value) (text : Text) : HasScalarKeys (.value v text)

/-! ## Keyword lists as entries -/

/-- What counts as a pair has a key and a member. -/
theorem exists_keyword {d : Datum} (h : d.isPair = true) : ∃ k : Keyword, k.toDatum = d := by
  match d, h with
  | tuple [key, member] text, _ => exact ⟨⟨key, member, text⟩, rfl⟩

/-- A keyword list is a row of pairs. -/
theorem exists_keywords {items : List Datum} (h : areKeywords items = true) :
    ∃ entries : List Keyword, entries ≠ [] ∧ items = entries.map Keyword.toDatum := by
  rw [areKeywords, Bool.and_eq_true, Bool.not_eq_true', List.isEmpty_eq_false_iff,
    List.all_eq_true] at h
  obtain ⟨hne, hall⟩ := h
  have hrange : items ∈ Set.range (List.map Keyword.toDatum) := by
    rw [Set.range_list_map]
    exact fun d hd => exists_keyword (hall d hd)
  obtain ⟨entries, rfl⟩ := hrange
  exact ⟨entries, fun hnil => hne (hnil ▸ rfl), rfl⟩

/-- A row of pairs is a keyword list. -/
theorem areKeywords_map_toDatum {entries : List Keyword} (hne : entries ≠ []) :
    areKeywords (entries.map Keyword.toDatum) = true := by
  rw [areKeywords, Bool.and_eq_true, Bool.not_eq_true', List.isEmpty_eq_false_iff,
    List.all_eq_true]
  refine ⟨fun hnil => hne (List.map_eq_nil_iff.1 hnil), fun d hd => ?_⟩
  obtain ⟨k, -, rfl⟩ := List.mem_map.1 hd
  rfl

theorem itemsOf_eq_map (keywordLists : Bool) (items : List Datum) :
    itemsOf keywordLists items = items.map (toValue keywordLists) := by
  induction items with
  | nil => rfl
  | cons d items ih => rw [itemsOf, ih, List.map_cons]

theorem membersOf_eq_map (keywordLists : Bool) (entries : List (Scalar × Datum)) :
    membersOf keywordLists entries
      = entries.map fun e => (e.1.toText, e.2.toValue keywordLists) := by
  induction entries with
  | nil => rfl
  | cons e entries ih => rw [membersOf, ih, List.map_cons]

theorem pairsOf_map_toDatum (keywordLists : Bool) (entries : List Keyword) :
    pairsOf keywordLists (entries.map Keyword.toDatum)
      = entries.map fun k => (k.key.keyText, k.member.toValue keywordLists) := by
  induction entries with
  | nil => rfl
  | cons k entries ih =>
      rw [List.map_cons, List.map_cons, ← ih]
      rfl

namespace HasScalarKeys

/-- Where a sequence is no keyword list, only its items matter. -/
theorem list_of_not_keywords {items : List Datum} (h : areKeywords items = false)
    (hitems : ∀ d ∈ items, d.HasScalarKeys) {text : Text} : (Datum.list items text).HasScalarKeys :=
  .list (fun htrue => absurd (htrue.symm.trans h) nofun) hitems

/-- A keyword list with scalars as keys has these, and the keys of its members. -/
theorem list_keywords (entries : List Keyword)
    (h : ∀ k ∈ entries, k.key.scalar?.isSome = true ∧ k.member.HasScalarKeys) (text : Text) :
    (Datum.list (entries.map Keyword.toDatum) text).HasScalarKeys := by
  refine .list (fun _ k hk => ?_) (List.forall_mem_map.2 fun k hk => ?_)
  · exact (h k ((List.mem_map_of_injective Keyword.toDatum_injective).1 hk)).1
  · obtain ⟨hkey, hmember⟩ := h k hk
    -- a scalar is no pair, so the pair itself is no keyword list
    obtain ⟨key, member, label⟩ := k
    refine .tuple (fun htrue => ?_) (List.forall_mem_cons.2
      ⟨?_, List.forall_mem_singleton.2 hmember⟩)
    · match key, hkey with
      | Datum.scalar s, _ => cases htrue
      | Datum.value (.scalar s) _, _ => cases htrue
    · match key, hkey with
      | Datum.scalar s, _ => exact .scalar s
      | Datum.value (.scalar s) text, _ => exact .value _ text

/-- So it is for a tuple. -/
theorem tuple_keywords (entries : List Keyword)
    (h : ∀ k ∈ entries, k.key.scalar?.isSome = true ∧ k.member.HasScalarKeys) (text : Text) :
    (Datum.tuple (entries.map Keyword.toDatum) text).HasScalarKeys := by
  cases list_keywords entries h text with
  | list hscalar hnested => exact .tuple hscalar hnested

end HasScalarKeys

/-- A sequence that is no keyword list is a list under both readings. -/
theorem toValue_list {items : List Datum} (h : areKeywords items = false) (text : Text)
    (keywordLists : Bool) :
    (list items text).toValue keywordLists = .list (items.map (toValue keywordLists)) := by
  rw [toValue, h, Bool.and_false, if_neg Bool.false_ne_true, itemsOf_eq_map]

theorem toValue_map (entries : List (Scalar × Datum)) (text : Text) (keywordLists : Bool) :
    (map entries text).toValue keywordLists
      = .assoc (entries.map fun e => (e.1.toText, e.2.toValue keywordLists)) := by
  rw [toValue, membersOf_eq_map]

/-- A keyword list is an associative array. -/
theorem toValue_keywords {entries : List Keyword} (hne : entries ≠ []) (text : Text) :
    (list (entries.map Keyword.toDatum) text).toValue true
      = .assoc (entries.map fun k => (k.key.keyText, k.member.toValue true)) := by
  rw [toValue, areKeywords_map_toDatum hne, Bool.and_true, if_pos rfl, pairsOf_map_toDatum]

/-- Or, with keyword lists off, a list of lists of two. -/
theorem toValue_false_keywords (entries : List Keyword) (text : Text) :
    (list (entries.map Keyword.toDatum) text).toValue false
      = .list (entries.map fun k => .list [k.key.toValue false, k.member.toValue false]) := by
  rw [toValue, Bool.false_and, if_neg Bool.false_ne_true, itemsOf_eq_map, List.map_map]
  rfl

/-- **INDUCTION**: on data as they are read, with the members of a keyword list in place of its
    pairs.  A tuple is read as the list of its items. -/
@[elab_as_elim]
theorem nestedInduction {P : Datum → Prop} (scalar : ∀ s, P (.scalar s))
    (list : ∀ items text, areKeywords items = false → (∀ d ∈ items, P d) → P (.list items text))
    (keywords : ∀ (entries : List Keyword) (text : Text), entries ≠ [] →
      (∀ k ∈ entries, P k.member) → P (.list (entries.map Keyword.toDatum) text))
    (tuple : ∀ items text, P (.list items text) → P (.tuple items text))
    (map : ∀ (entries : List (Scalar × Datum)) (text : Text), (∀ e ∈ entries, P e.2) →
      P (.map entries text))
    (value : ∀ v text, P (.value v text)) (d : Datum) : P d := by
  -- structural induction stops at the pairs, so it is on the size
  have hlist : ∀ (items : List Datum) (text : Text), (∀ d, sizeOf d < sizeOf items → P d) →
      P (.list items text) := by
    intro items text ih
    cases hitems : areKeywords items with
    | false => exact list items text hitems fun d hd => ih d (List.sizeOf_lt_of_mem hd)
    | true =>
        obtain ⟨entries, hne, rfl⟩ := exists_keywords hitems
        refine keywords entries text hne fun k hk => ih k.member ?_
        have hpair : sizeOf k.toDatum < sizeOf (entries.map Keyword.toDatum) :=
          List.sizeOf_lt_of_mem (List.mem_map_of_mem hk)
        have hmember : sizeOf k.member < sizeOf k.toDatum := by
          simp only [Keyword.toDatum, Datum.tuple.sizeOf_spec, List.cons.sizeOf_spec]
          omega
        exact hmember.trans hpair
  induction d using (measure (sizeOf : Datum → Nat)).wf.induction with
  | h d ih =>
      replace ih : ∀ c, sizeOf c < sizeOf d → P c := ih
      cases d with
      | scalar s => exact scalar s
      | list items text =>
          refine hlist items text fun c hc => ih c ?_
          simp only [Datum.list.sizeOf_spec]
          omega
      | tuple items text =>
          refine tuple items text (hlist items text fun c hc => ih c ?_)
          simp only [Datum.tuple.sizeOf_spec]
          omega
      | map entries text =>
          refine map entries text fun e he => ih e.2 ?_
          have hentry := List.sizeOf_lt_of_mem he
          have hmember : sizeOf e.2 < sizeOf e := by
            obtain ⟨k, c⟩ := e
            simp only [Prod.mk.sizeOf_spec]
            omega
          simp only [Datum.map.sizeOf_spec]
          omega
      | value v text => exact value v text

end Datum

/-! ## Variables and what they contribute -/

/-- A null by itself is as good as no value. -/
theorem Datum.coerce_bind_prune (d : Datum) (keywordLists : Bool) :
    (d.coerce keywordLists).bind Value.prune = (d.toValue keywordLists).prune := by
  unfold coerce
  split
  · rfl
  · rfl

/-- A variable stands for what the datum of its name is taken for. -/
theorem Environment.value?_eq (env : Environment) (keywordLists : Bool) (name : Text) :
    env.value? keywordLists name
      = (OrderedMap.get? env name).bind fun d => (d.toValue keywordLists).prune := by
  rw [value?, Option.bind_assoc]
  exact congrArg _ (funext fun d => d.coerce_bind_prune keywordLists)

/-- Expressions whose variables contribute the same come to the same. -/
theorem Expression.render_congr {e : Expression} {keywordLists keywordLists' : Bool}
    {env env' : Environment}
    (h : ∀ v ∈ e.specs, v.contribution e.operator.style (env.value? keywordLists v.name)
      = v.contribution e.operator.style (env'.value? keywordLists' v.name)) :
    e.render keywordLists env = e.render keywordLists' env' := by
  rw [render, render, parts_eq_flatMap, parts_eq_flatMap, List.flatMap_congr h]

/-- Templates whose variables stand for the same come to the same. -/
theorem Template.render_congr {t : Template} {env env' : Environment}
    (h : ∀ name, env.value? t.config.keywordLists name = env'.value? t.config.keywordLists name) :
    t.render env = t.render env' := by
  refine List.flatMap_congr fun segment _ => ?_
  cases segment with
  | literal text => rfl
  | expression e => exact Expression.render_congr fun v _ => by rw [h]

end UriTemplate
