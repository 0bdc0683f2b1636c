import Mathlib.Data.List.Basic
import UriTemplate.Match.Search

/-! # Filling — values found earlier and values found later

    `Bindings.fill` puts values found later behind values found earlier.  Name by
    name this is "the first value counts":

    * `join_get?_fill`, `contains_fill` — what a name has after one filling;
    * `join_get?_foldr_fill`, `contains_foldr_fill` — and after a row of them;
    * `fill_of_disjoint` — with no name in common it is a concatenation;
    * `fill_fill` — and it does not matter which two are put together first. -/

namespace UriTemplate

namespace OrderedMap

variable {α β : Type}

theorem get?_append (m n : OrderedMap α) (k : Text) :
    get? (m ++ n) k = (get? m k).or (get? n k) := by
  induction m with
  | nil => rfl
  | cons e m ih =>
      rw [List.cons_append, get?, get?]
      split
      · rfl
      · exact ih

theorem get?_map (f : Text → α → β) (m : OrderedMap α) (k : Text) :
    get? (m.map fun e => (e.1, f e.1 e.2)) k = (get? m k).map (f k) := by
  induction m with
  | nil => rfl
  | cons e m ih =>
      rw [List.map_cons, get?, get?]
      split
      · next he => rw [he]; rfl
      · exact ih

theorem get?_filter (q : Text → Bool) (m : OrderedMap α) (k : Text) :
    get? (m.filter fun e => q e.1) k = if q k then get? m k else none := by
  induction m with
  | nil => simp [get?]
  | cons e m ih =>
      rw [List.filter_cons, get?]
      by_cases hk : e.1 = k
      · rw [if_pos hk, hk]
        split
        · rw [get?, if_pos hk]
        · next hq => rw [ih, if_neg hq]
      · rw [if_neg hk]
        split
        · rw [get?, if_neg hk, ih]
        · exact ih

/-- A name has an entry exactly when it is among the names. -/
theorem contains_iff_mem_keys {m : OrderedMap α} {k : Text} :
    contains m k = true ↔ k ∈ keys m := by
  induction m with
  | nil => simp [contains, get?, keys]
  | cons e m ih =>
      rw [show keys (e :: m) = e.1 :: keys m from rfl, List.mem_cons, ← ih, contains, get?]
      by_cases hk : e.1 = k
      · simp [hk]
      · simp [hk, Ne.symm hk, contains]

end OrderedMap

namespace Bindings

open OrderedMap

theorem get?_fill (bound later : Bindings) (name : Text) :
    get? (bound.fill later) name
      = ((get? bound name).map fun v => v <|> (get? later name).join).or
          (if contains bound name then none else get? later name) := by
  have hmap := get?_map (fun k (v : Option Value) => v <|> (get? later k).join) bound name
  have hfilter := get?_filter (fun k => !contains bound k) later name
  rw [fill, get?_append, hmap, hfilter]
  cases contains bound name <;> rfl

/-- A value found earlier counts first. -/
theorem join_get?_fill (bound later : Bindings) (name : Text) :
    (get? (bound.fill later) name).join
      = (get? bound name).join.or (get? later name).join := by
  rw [get?_fill, contains]
  cases get? bound name with
  | none => rfl
  | some v => cases v <;> rfl

/-- The names are those of both. -/
theorem contains_fill (bound later : Bindings) (name : Text) :
    contains (bound.fill later) name = (contains bound name || contains later name) := by
  rw [contains, get?_fill]
  rw [contains]
  cases get? bound name <;> rfl

/-- In a row of bindings the first value of a name counts. -/
theorem join_get?_foldr_fill (found : List Bindings) (name : Text) :
    (get? (found.foldr fill []) name).join
      = found.findSome? fun bound => (get? bound name).join := by
  induction found with
  | nil => rfl
  | cons bound found ih =>
      rw [List.foldr_cons, join_get?_fill, ih, List.findSome?_cons]
      cases (get? bound name).join <;> rfl

/-- The names of a row of bindings are those of all of them. -/
theorem contains_foldr_fill (found : List Bindings) (name : Text) :
    contains (found.foldr fill []) name = found.any (contains · name) := by
  induction found with
  | nil => rfl
  | cons bound found ih => rw [List.foldr_cons, contains_fill, ih, List.any_cons]

/-- Bindings without a name in common are put one behind the other. -/
theorem fill_of_disjoint {bound later : Bindings}
    (h : ∀ name ∈ keys bound, name ∉ keys later) : bound.fill later = bound ++ later := by
  have hnone : ∀ e ∈ bound, (e.1, e.2 <|> (get? later e.1).join) = e := by
    intro e he
    have hk := h e.1 (List.mem_map_of_mem he)
    rw [← contains_iff_mem_keys, contains, Bool.not_eq_true, Option.isSome_eq_false_iff,
      Option.isNone_iff_eq_none] at hk
    rw [hk]
    obtain ⟨name, _ | v⟩ := e <;> rfl
  have hkeep : ∀ e ∈ later, (!contains bound e.1) = true := by
    intro e he
    rw [Bool.not_eq_true', ← Bool.not_eq_true, contains_iff_mem_keys]
    exact fun hb => h e.1 hb (List.mem_map_of_mem he)
  rw [fill, List.filter_eq_self.2 hkeep, List.map_congr_left hnone, List.map_id']

theorem fill_nil (bound : Bindings) : bound.fill [] = bound := by
  rw [fill_of_disjoint fun _ _ => List.not_mem_nil, List.append_nil]

theorem nil_fill (later : Bindings) : fill [] later = later :=
  fill_of_disjoint fun _ h => (List.not_mem_nil h).elim

/-- Values may be put behind one another from either end. -/
theorem fill_fill (bound later last : Bindings) :
    (bound.fill later).fill last = bound.fill (later.fill last) := by
  have hvalue : ∀ e : Text × Option Value,
      ((e.2 <|> (get? later e.1).join) <|> (get? last e.1).join)
        = (e.2 <|> (get? (later.fill last) e.1).join) := by
    intro e
    rw [join_get?_fill]
    cases e.2 <;> cases (get? later e.1).join <;> rfl
  have hmap : (bound.fill later).map (fun e => (e.1, e.2 <|> (get? last e.1).join))
      = bound.map (fun e => (e.1, e.2 <|> (get? (later.fill last) e.1).join)) ++
        (later.map fun e => (e.1, e.2 <|> (get? last e.1).join)).filter
          fun e => !contains bound e.1 := by
    simp only [fill, List.map_append, List.map_map, List.filter_map, Function.comp_def]
    simp only [hvalue]
    rfl
  have hfilter : (last.filter fun e => !contains (bound.fill later) e.1)
      = (last.filter fun e => !contains later e.1).filter fun e => !contains bound e.1 := by
    simp only [List.filter_filter, contains_fill, Bool.not_or]
  calc (bound.fill later).fill last
      = (bound.fill later).map (fun e => (e.1, e.2 <|> (get? last e.1).join)) ++
          last.filter (fun e => !contains (bound.fill later) e.1) := rfl
    _ = bound.map (fun e => (e.1, e.2 <|> (get? (later.fill last) e.1).join)) ++
          (later.fill last).filter (fun e => !contains bound e.1) := by
        rw [hmap, hfilter, List.append_assoc, ← List.filter_append]
        rfl
    _ = bound.fill (later.fill last) := rfl

end Bindings

end UriTemplate
