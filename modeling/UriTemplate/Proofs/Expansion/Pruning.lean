import UriTemplate.Proofs.Expansion.Undefined

/-! # Pruning — what is left of a value

    Whether a value is undefined is a matter of its scalars at any depth: it is when all of them
    are null, and so it is when there are none (`Value.isUndefined_iff`).  Pruning looks at the
    first level only.  What it leaves of a defined value can be told without saying how it is
    found: among the values that have only some of the members of `v`, in order and under their
    keys (`Value.Within`), it is the greatest one without an undefined member
    (`Value.IsPruned`).  There is one such value (`Value.IsPruned.unique`), so nothing is left
    to prune from it.

    * `Value.definedScalars_definedPart` — no scalar is lost but nulls;
    * **`Value.prune_greatest`** — what is undefined, what is pruned, and what is left. -/

namespace UriTemplate

/-- What leads to nothing may as well be left out before. -/
theorem flatMap_filter_of_eq_nil {α β : Type} {keep : α → Bool} {f : α → List β} {l : List α}
    (h : ∀ a ∈ l, keep a = false → f a = []) : (l.filter keep).flatMap f = l.flatMap f := by
  induction l with
  | nil => rfl
  | cons a l ih =>
      obtain ⟨ha, hl⟩ := List.forall_mem_cons.1 h
      rw [List.filter_cons, List.flatMap_cons, ← ih hl]
      by_cases hkeep : keep a = true
      · rw [if_pos hkeep, List.flatMap_cons]
      · rw [if_neg hkeep, ha (Bool.not_eq_true _ ▸ hkeep), List.nil_append]

/-- Only null is null: a member of an enumeration is not, whatever its value. -/
theorem Scalar.isNull_iff {s : Scalar} : s.isNull = true ↔ s = .null := by
  cases s <;> simp [isNull]

namespace Value

/-! ## Scalars at any depth -/

mutual

/-- The scalars in a value, at any depth and in order. -/
def scalars : Value → List Scalar
  | scalar s => [s]
  | list items => itemScalars items
  | assoc pairs => pairScalars pairs

/-- The scalars in the items of a list. -/
def itemScalars : List Value → List Scalar
  | [] => []
  | v :: items => v.scalars ++ itemScalars items

/-- The scalars in the members of an associative array. -/
def pairScalars : List (Text × Value) → List Scalar
  | [] => []
  | (_, v) :: pairs => v.scalars ++ pairScalars pairs

end

theorem itemScalars_eq (items : List Value) : itemScalars items = items.flatMap scalars := by
  induction items with
  | nil => rfl
  | cons v items ih => rw [itemScalars, ih, List.flatMap_cons]

theorem pairScalars_eq (pairs : List (Text × Value)) :
    pairScalars pairs = pairs.flatMap fun p => p.2.scalars := by
  induction pairs with
  | nil => rfl
  | cons p pairs ih => rw [pairScalars, ih, List.flatMap_cons]

/-- **UNDEFINED**: a value is undefined when all its scalars are null. -/
theorem isUndefined_iff (v : Value) : v.isUndefined = true ↔ ∀ s ∈ v.scalars, s = .null := by
  induction v using nestedInduction with
  | scalar s => simp [isUndefined, scalars, Scalar.isNull_iff]
  | list items ih =>
      rw [isUndefined, areUndefined_eq_all, List.all_eq_true, scalars, itemScalars_eq,
        List.forall_mem_flatMap]
      exact forall₂_congr ih
  | assoc pairs ih =>
      rw [isUndefined, membersUndefined_eq_all, List.all_eq_true, scalars, pairScalars_eq,
        List.forall_mem_flatMap]
      exact forall₂_congr ih

/-- The scalars in a value that are not null. -/
def definedScalars (v : Value) : List Scalar := v.scalars.filter (!·.isNull)

theorem definedScalars_eq_nil_iff {v : Value} : v.definedScalars = [] ↔ v.isUndefined = true := by
  rw [definedScalars, List.filter_eq_nil_iff, isUndefined_iff]
  simp [Scalar.isNull_iff]

/-- Undefined members have only nulls in them. -/
theorem definedScalars_definedPart (v : Value) :
    v.definedPart.definedScalars = v.definedScalars := by
  have hnone : ∀ m : Value, (!m.isUndefined) = false → m.definedScalars = [] := by
    intro m hm
    exact definedScalars_eq_nil_iff.2 (by simpa using hm)
  cases v with
  | scalar s => rfl
  | list items =>
      rw [definedPart, definedScalars, definedScalars, scalars, scalars, itemScalars_eq,
        itemScalars_eq, List.filter_flatMap, List.filter_flatMap]
      exact flatMap_filter_of_eq_nil fun m _ => hnone m
  | assoc pairs =>
      rw [definedPart, definedScalars, definedScalars, scalars, scalars, pairScalars_eq,
        pairScalars_eq, List.filter_flatMap, List.filter_flatMap]
      exact flatMap_filter_of_eq_nil fun p _ => hnone p.2

/-! ## The greatest part -/

/-- Is the first value the second one with some of its members only, in order and under their
    keys? -/
inductive Within : Value → Value → Prop
  | scalar (s : Scalar) : Within (.scalar s) (.scalar s)
  | list {kept items : List Value} (h : kept.Sublist items) : Within (.list kept) (.list items)
  | assoc {kept pairs : List (Text × Value)} (h : kept.Sublist pairs) :
      Within (.assoc kept) (.assoc pairs)

theorem Within.refl (v : Value) : v.Within v := by
  cases v with
  | scalar s => exact .scalar s
  | list items => exact .list (List.Sublist.refl items)
  | assoc pairs => exact .assoc (List.Sublist.refl pairs)

theorem Within.antisymm {v w : Value} (hvw : v.Within w) (hwv : w.Within v) : v = w := by
  cases hvw with
  | scalar s => rfl
  | list h =>
      cases hwv with
      | list h' => rw [h.antisymm h']
  | assoc h =>
      cases hwv with
      | assoc h' => rw [h.antisymm h']

/-- Is `w` what is left of `v` without its undefined members? -/
structure IsPruned (w v : Value) : Prop where
  /-- Members are left out, and nothing else is changed. -/
  within : w.Within v
  /-- No undefined member is left. -/
  members_defined : ∀ m ∈ w.members, m.isUndefined = false
  /-- No defined member is left out. -/
  greatest : ∀ u : Value, u.Within v → (∀ m ∈ u.members, m.isUndefined = false) → u.Within w

/-- Only one value is left. -/
theorem IsPruned.unique {v w w' : Value} (h : w.IsPruned v) (h' : w'.IsPruned v) : w = w' :=
  (h'.greatest w h.within h.members_defined).antisymm (h.greatest w' h'.within h'.members_defined)

/-- A value without undefined members is left as it is. -/
theorem IsPruned.self {v : Value} (h : ∀ m ∈ v.members, m.isUndefined = false) : v.IsPruned v where
  within := Within.refl v
  members_defined := h
  greatest := fun _ hu _ => hu

/-- **GREATEST**: leaving out the undefined members leaves the greatest value without any. -/
theorem isPruned_definedPart (v : Value) : v.definedPart.IsPruned v := by
  cases v with
  | scalar s => exact IsPruned.self (List.forall_mem_nil _)
  | list items =>
      constructor
      · exact .list List.filter_sublist
      · intro m hm
        simpa using (List.mem_filter.1 hm).2
      · intro u hu hdefined
        cases hu with
        | list h =>
            refine .list (List.sublist_filter_iff.2 ⟨_, h, (List.filter_eq_self.2 ?_).symm⟩)
            intro m hm
            simp [hdefined m hm]
  | assoc pairs =>
      constructor
      · exact .assoc List.filter_sublist
      · intro m hm
        obtain ⟨p, hp, rfl⟩ := List.mem_map.1 hm
        simpa using (List.mem_filter.1 hp).2
      · intro u hu hdefined
        cases hu with
        | assoc h =>
            refine .assoc (List.sublist_filter_iff.2 ⟨_, h, (List.filter_eq_self.2 ?_).symm⟩)
            intro p hp
            simp [hdefined p.2 (List.mem_map_of_mem hp)]

/-- So pruning keeps a value that has no undefined member as it is. -/
theorem definedPart_eq_self {v : Value} (h : ∀ m ∈ v.members, m.isUndefined = false) :
    v.definedPart = v :=
  (isPruned_definedPart v).unique (IsPruned.self h)

/-- And if it has members at all, it is defined. -/
theorem prune_eq_self {v : Value} (hne : v.members ≠ [])
    (h : ∀ m ∈ v.members, m.isUndefined = false) : v.prune = some v := by
  obtain ⟨m, hm⟩ := List.exists_mem_of_ne_nil _ hne
  have hdefined := isUndefined_eq_false_of_mem hm (h m hm)
  rw [prune_of_isUndefined_eq_false hdefined, definedPart_eq_self h]

/-- **PRUNED**: a value is undefined when no scalar in it, at any depth, is other than null, and
    then nothing is left of it.  Of any other value the greatest value within it that has no
    undefined member is left.  It is defined, has lost no scalar but nulls, and stays as it is. -/
theorem prune_greatest (v : Value) :
    (v.isUndefined = true ↔ ∀ s ∈ v.scalars, s = .null) ∧
    (v.prune = none ↔ v.isUndefined = true) ∧
    (v.isUndefined = false → ∃ w, v.prune = some w ∧ w.isUndefined = false ∧ w.IsPruned v ∧
      w.definedScalars = v.definedScalars ∧ w.prune = some w) := by
  refine ⟨isUndefined_iff v, ?_, ?_⟩
  · constructor
    · exact prune_eq_none
    · intro h
      rw [prune_eq, if_pos h]
  · intro h
    have hdefined : v.definedPart.isUndefined = false := (isUndefined_definedPart v).trans h
    have hpruned := isPruned_definedPart v
    refine ⟨v.definedPart, prune_of_isUndefined_eq_false h, hdefined, hpruned,
      definedScalars_definedPart v, ?_⟩
    rw [prune_of_isUndefined_eq_false hdefined, definedPart_eq_self hpruned.members_defined]

/-- Of four members under two keys two are left, one with a null in it. -/
theorem prune_greatest_nested :
    let a := "a".toText
    let b := "b".toText
    let kept : List (Text × Value) :=
      [(b, .list [.scalar .null, .assoc [(a, ofText [])]]), (a, .scalar (.member .null))]
    let v : Value :=
      .assoc ((a, .list [.list [], .assoc [(b, .scalar .null)]]) :: kept ++ [(b, .scalar .null)])
    v.isUndefined = false ∧ v.prune = some (.assoc kept) ∧ (assoc kept).isUndefined = false ∧
      (assoc kept).IsPruned v ∧ (assoc kept).definedScalars = [.text [], .member .null] ∧
      (assoc kept).prune = some (.assoc kept) := by
  intro a b kept v
  have hdefined : v.isUndefined = false := rfl
  have hprune : v.prune = some (.assoc kept) := rfl
  obtain ⟨w, hw, hwdefined, hpruned, hscalars, hagain⟩ := (prune_greatest v).2.2 hdefined
  obtain rfl : assoc kept = w := Option.some.inj (hprune.symm.trans hw)
  exact ⟨hdefined, hprune, hwdefined, hpruned, hscalars, hagain⟩

end Value

end UriTemplate
