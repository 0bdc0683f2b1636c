import Mathlib.Data.List.Chain
import UriTemplate.Proofs.RoundTrip.Queries

/-! # Paths — scalars, lists and maps that come back

    A path expression writes the values of its variables as items between slashes.  On
    the way back an exploded variable takes all items of a kind that stand in a row, so
    it must not be followed by more of them; then every variable takes just the items
    that it has written:

    * `VarSpec.forall₂_contents` — each item is read as what it was written for;
    * `VarSpec.take_contents` — a variable takes its own items, where the next one is of
      another kind;
    * `VarSpec.takeAll_contents` — so all variables do, one after the other;
    * **`Template.matchUrl_render_path`** — a path expression gives its values back, if no
      text or key in them has a surrogate. -/

namespace UriTemplate

/-! ## Values that come back -/

namespace Value

/-- A member as it comes back: a list of texts, or a text. -/
def memberValue : Value → Value
  | list items => ofTexts (items.map memberText)
  | v => ofText v.memberText

/-- The keys and members of a map, in a row. -/
def flatTexts (pairs : List (Text × Value)) : List Text :=
  pairs.flatMap fun p => [p.1, p.2.memberText]

theorem two_le_length_flatTexts {pairs : List (Text × Value)} (hne : pairs ≠ []) :
    2 ≤ (flatTexts pairs).length := by
  cases pairs with
  | nil => exact absurd rfl hne
  | cons p pairs => exact Nat.le_add_left 2 _

/-- A text, or texts in a list that cannot be taken for one? -/
def IsMember : Value → Prop
  | scalar s => IsText (scalar s)
  | list items => (∀ i ∈ items, i.IsText) ∧ 2 ≤ items.length
  | assoc _ => False

instance : DecidablePred IsMember
  | scalar s => inferInstanceAs (Decidable (IsText (scalar s)))
  | list items => inferInstanceAs (Decidable ((∀ i ∈ items, i.IsText) ∧ 2 ≤ items.length))
  | assoc _ => isFalse id

theorem isUndefined_memberValue {v : Value} (h : v.IsMember) :
    v.memberValue.isUndefined = false := by
  cases v with
  | scalar s => rfl
  | list items =>
      refine isUndefined_ofTexts (mt List.map_eq_nil_iff.1 ?_)
      rintro rfl
      exact absurd h.2 (by decide)
  | assoc pairs => exact h.elim

end Value

namespace VarSpec

/-- Can a variable of a path come back?  A list of one could not be told from its text, and a map
    that is not exploded is written as the list of its keys and members.  Surrogates are not read
    as what they were, so what is written has none. -/
def ReturnsInPath (v : VarSpec) : Option Value → Prop
  | none => False
  | some (.scalar s) => v.explode = false ∧ Text.IsWellFormed (v.cut s.toText)
  | some (.list items) => (∀ i ∈ items, i.IsText) ∧ (if v.explode then 1 else 2) ≤ items.length
  | some (.assoc pairs) => pairs ≠ [] ∧ ∀ p ∈ pairs,
      p.1.IsWellFormed ∧ if v.explode then p.2.IsMember else p.2.IsText

instance (v : VarSpec) : DecidablePred v.ReturnsInPath
  | none => isFalse id
  | some (.scalar s) =>
      inferInstanceAs (Decidable (v.explode = false ∧ Text.IsWellFormed (v.cut s.toText)))
  | some (.list items) => inferInstanceAs
      (Decidable ((∀ i ∈ items, i.IsText) ∧ (if v.explode then 1 else 2) ≤ items.length))
  | some (.assoc pairs) => inferInstanceAs (Decidable (pairs ≠ [] ∧ ∀ p ∈ pairs,
      p.1.IsWellFormed ∧ if v.explode then p.2.IsMember else p.2.IsText))

/-- Does the value of the next variable go on with the items of this one? -/
def GoesOn (v : VarSpec) (value : Option Value) (w : VarSpec) (next : Option Value) : Prop :=
  v.explode = true ∧
    match value, next with
    | some (.list _), some (.scalar _) => True
    | some (.list _), some (.list _) => w.explode = true
    | some (.assoc _), some (.assoc _) => w.explode = true
    | _, _ => False

/-- Variables of a path and what is given for them, such that each comes back. -/
structure AreReturnableInPath (specs : List VarSpec) (given : VarSpec → Option Value) : Prop where
  distinct : (specs.map VarSpec.name).Nodup
  each : ∀ v ∈ specs, v.ReturnsInPath (given v)
  apart : specs.IsChain fun v w => ¬ v.GoesOn (given v) w (given w)

/-- What comes back from a variable of a path: texts for scalars, cut as far as the length goes, and
    nothing for an empty one; lists and exploded maps as they are, with texts or lists of texts for
    their members; a list of the keys and members of other maps. -/
def returnedInPath (v : VarSpec) : Option Value → Option Value
  | none => none
  | some (.scalar s) => Value.ofText? (v.cut s.toText)
  | some (.list items) => some (.ofTexts (items.map Value.memberText))
  | some (.assoc pairs) =>
      if v.explode then some (.assoc (pairs.map fun p => (p.1, p.2.memberValue)))
      else some (.ofTexts (Value.flatTexts pairs))

/-- What the items of a variable of a path hold. -/
def contents (v : VarSpec) : Option Value → List ItemContent
  | none => []
  | some (.scalar s) => [.text (v.cut s.toText)]
  | some (.list items) =>
      if v.explode then (items.map Value.memberText).map .text
      else [.list (items.map Value.memberText)]
  | some (.assoc pairs) =>
      if v.explode then (pairs.map fun p => (p.1, p.2.memberValue)).map fun p => .pair p.1 p.2
      else [.list (Value.flatTexts pairs)]

end VarSpec

/-! ## Items -/

namespace Value

/-- The pairs of a map are written as its keys and members in a row. -/
theorem commaJoined_encodedPairs {pairs : List (Text × Value)}
    (h : ∀ p ∈ pairs, p.2.IsText) :
    commaJoined (encodedPairs .unreserved pairs)
      = commaJoined ((flatTexts pairs).map (Percent.encode .unreserved)) := by
  have hcommas : (encodedPairs .unreserved pairs).flatMap (.char ',' :: ·)
      = ((flatTexts pairs).map (Percent.encode .unreserved)).flatMap (.char ',' :: ·) := by
    induction pairs with
    | nil => rfl
    | cons p pairs ih =>
        obtain ⟨key, member⟩ := p
        obtain ⟨hmember, hpairs⟩ := List.forall_mem_cons.1 h
        obtain ⟨s, rfl⟩ := hmember.exists_eq
        have hflat : flatTexts ((key, scalar s) :: pairs)
            = key :: s.toText :: flatTexts pairs := rfl
        rw [encodedPairs, List.flatMap_cons, ih hpairs, hflat, List.map_cons, List.map_cons,
          List.flatMap_cons, List.flatMap_cons, List.cons_append, List.append_assoc]
        rfl
  cases pairs with
  | nil => rfl
  | cons p pairs =>
      refine (List.cons.inj ((flatMap_cons_eq ',' ?_).symm.trans
        (hcommas.trans (flatMap_cons_eq ',' ?_)))).2
      · exact List.cons_ne_nil _ _
      · exact List.cons_ne_nil _ _

/-- The keys and members of a map have no surrogates if those of each pair have none. -/
theorem isWellFormed_of_mem_flatTexts {pairs : List (Text × Value)}
    (h : ∀ p ∈ pairs, p.1.IsWellFormed ∧ p.2.IsText) : ∀ s ∈ flatTexts pairs, s.IsWellFormed := by
  intro s hs
  obtain ⟨p, hp, hs⟩ := List.mem_flatMap.1 hs
  rcases List.mem_cons.1 hs with rfl | hs
  · exact (h p hp).1
  · obtain rfl := List.mem_singleton.1 hs
    exact (h p hp).2.isWellFormed

/-- A member is read as it comes back. -/
theorem ofRaw_encoded {v : Value} (h : v.IsMember) :
    ofRaw true (v.encoded .unreserved) = v.memberValue := by
  cases v with
  | scalar s => exact ofRaw_encode true h
  | list items =>
      obtain ⟨htexts, hlength⟩ := h
      rw [encoded, encodedItems_eq_map htexts, ofRaw_commaJoined (by rwa [List.length_map])
        (List.forall_mem_map.2 fun i hi => (htexts i hi).isWellFormed)]
      rfl
  | assoc pairs => exact h.elim

end Value

namespace VarSpec

variable {v w : VarSpec} {value next : Option Value}

/-- **READ AS WRITTEN**: every item of a variable is read as what it was written for. -/
theorem forall₂_contents {value : Value} (h : v.ReturnsInPath (some value)) :
    List.Forall₂ (fun raw content => ItemContent.ofRaw true raw = .ok content)
      (v.parts Operator.pathSegment.style value) (v.contents (some value)) := by
  have hpart : ∀ encoded, Operator.pathSegment.style.part v.name encoded = encoded :=
    Style.part_values rfl v.name
  unfold parts contents
  rw [show Operator.pathSegment.style.escaping = .unreserved from rfl]
  cases value with
  | scalar s =>
      dsimp only
      rw [hpart]
      exact .cons (ItemContent.ofRaw_encode true h.2) .nil
  | list items =>
      obtain ⟨htexts, hlength⟩ := h
      dsimp only
      rw [Value.encodedItems_eq_map htexts]
      cases hexplode : v.explode with
      | true =>
          simp only [if_true, List.forall₂_map_left_iff, List.forall₂_map_right_iff,
            List.forall₂_same]
          intro i hi
          rw [hpart, ItemContent.ofRaw_encode true (htexts i hi).isWellFormed]
      | false =>
          rw [hexplode, if_neg Bool.false_ne_true] at hlength
          rw [if_neg Bool.false_ne_true, if_neg Bool.false_ne_true, hpart]
          exact .cons (ItemContent.ofRaw_commaJoined (by rwa [List.length_map])
            (List.forall_mem_map.2 fun i hi => (htexts i hi).isWellFormed)) .nil
  | assoc pairs =>
      obtain ⟨hne, hmembers⟩ := h
      cases hexplode : v.explode with
      | true =>
          simp only [hexplode, if_true] at hmembers
          simp only [if_true, List.forall₂_map_left_iff, List.forall₂_map_right_iff,
            List.forall₂_same]
          intro p hp
          rw [Style.nameValue_values rfl, ItemContent.ofRaw_pair true
            (Percent.isPlain_of_mem_encode p.1) (Value.isListed_of_mem_encoded p.2),
            Percent.decode_encode _ (hmembers p hp).1, Value.ofRaw_encoded (hmembers p hp).2]
      | false =>
          simp only [hexplode, Bool.false_eq_true, if_false] at hmembers
          dsimp only
          rw [if_neg Bool.false_ne_true, if_neg Bool.false_ne_true, hpart,
            Value.commaJoined_encodedPairs fun p hp => (hmembers p hp).2]
          exact .cons (ItemContent.ofRaw_commaJoined (Value.two_le_length_flatTexts hne)
            (Value.isWellFormed_of_mem_flatTexts hmembers)) .nil

/-- Every variable that comes back has items. -/
theorem contents_ne_nil (h : v.ReturnsInPath value) : v.contents value ≠ [] := by
  match value, h with
  | some (.scalar s), _ => exact List.cons_ne_nil _ _
  | some (.list values), ⟨_, hlength⟩ =>
      have hne : values ≠ [] := ne_nil_of_le_length hlength
      rw [contents]
      split
      · simpa using hne
      · exact List.cons_ne_nil _ _
  | some (.assoc pairs), ⟨hne, _⟩ =>
      rw [contents]
      split
      · simpa using hne
      · exact List.cons_ne_nil _ _

/-- No part of what comes back is undefined. -/
theorem bind_prune_returnedInPath (h : v.ReturnsInPath value) :
    (v.returnedInPath value).bind Value.prune = v.returnedInPath value := by
  match value, h with
  | some (.scalar s), _ => exact Value.bind_prune_ofText? _
  | some (.list values), ⟨_, hlength⟩ =>
      exact Value.prune_ofTexts (mt List.map_eq_nil_iff.1 (ne_nil_of_le_length hlength))
  | some (.assoc pairs), ⟨hne, hmembers⟩ =>
      rw [returnedInPath]
      split
      · next hexplode =>
          simp only [hexplode, if_true] at hmembers
          refine Value.prune_assoc (mt List.map_eq_nil_iff.1 hne) fun p hp => ?_
          obtain ⟨q, hq, rfl⟩ := List.mem_map.1 hp
          exact Value.isUndefined_memberValue (hmembers q hq).2
      · exact Value.prune_ofTexts (List.ne_nil_of_length_pos
          (Nat.lt_of_lt_of_le Nat.two_pos (Value.two_le_length_flatTexts hne)))

end VarSpec

/-! ## Runs -/

namespace Item

variable {items : List Item} {others : List ItemContent}

/-- The single texts in front are taken up to an item of another kind. -/
theorem exists_takeTexts {texts : List Text}
    (hitems : items.map content = texts.map .text ++ others)
    (hnext : ∀ c ∈ others.head?, ¬ c.IsText) :
    ∃ rest, takeTexts items = (texts, rest) ∧ rest.map content = others := by
  induction texts generalizing items with
  | nil =>
      refine ⟨items, ?_, hitems⟩
      match items, hitems with
      | [], _ => rfl
      | ⟨.text s, _⟩ :: items, hitems =>
          rw [List.map_nil, List.nil_append] at hitems
          subst hitems
          exact absurd trivial (hnext (.text s) rfl)
      | ⟨.list _, _⟩ :: items, _ => rfl
      | ⟨.pair _ _, _⟩ :: items, _ => rfl
  | cons s texts ih =>
      match items, hitems with
      | ⟨content, position⟩ :: items, hitems =>
          obtain ⟨rfl, htail⟩ := List.cons.inj hitems
          obtain ⟨rest, htake, hrest⟩ := ih htail
          exact ⟨rest, by rw [takeTexts, htake], hrest⟩

/-- The pairs in front are taken up to an item of another kind. -/
theorem exists_takePairs {pairs : List (Text × Value)}
    (hitems : items.map content = pairs.map (fun p => .pair p.1 p.2) ++ others)
    (hnext : ∀ c ∈ others.head?, ¬ c.IsPair) :
    ∃ rest, takePairs items = (pairs, rest) ∧ rest.map content = others := by
  induction pairs generalizing items with
  | nil =>
      refine ⟨items, ?_, hitems⟩
      match items, hitems with
      | [], _ => rfl
      | ⟨.pair key member, _⟩ :: items, hitems =>
          rw [List.map_nil, List.nil_append] at hitems
          subst hitems
          exact absurd trivial (hnext (.pair key member) rfl)
      | ⟨.list _, _⟩ :: items, _ => rfl
      | ⟨.text _, _⟩ :: items, _ => rfl
  | cons p pairs ih =>
      match items, hitems with
      | ⟨content, position⟩ :: items, hitems =>
          obtain ⟨rfl, htail⟩ := List.cons.inj hitems
          obtain ⟨rest, htake, hrest⟩ := ih htail
          exact ⟨rest, by rw [takePairs, htake], hrest⟩

end Item

namespace VarSpec

variable {v w : VarSpec} {later : List VarSpec} {value next : Option Value}
  {refusesPairs : Bool} {items : List Item} {others : List ItemContent}

/-- Would a variable, besides its own items, take one that holds this? -/
def TakesMore (v : VarSpec) : Option Value → ItemContent → Prop
  | some (.list _), c => v.explode = true ∧ c.IsText
  | some (.assoc _), c => v.explode = true ∧ c.IsPair
  | _, _ => False

/-- Only a variable whose value goes on with the items of another begins with one that the other
    would take. -/
theorem goesOn_of_takesMore (h : w.ReturnsInPath next) {c : ItemContent}
    (hc : c ∈ (w.contents next).head?) (htakes : v.TakesMore value c) :
    v.GoesOn value w next := by
  -- a list or map that is not exploded is one item, a list, which nobody takes more of
  have hlist : ∀ texts, c ∈ [ItemContent.list texts].head? → ¬ c.IsText ∧ ¬ c.IsPair := by
    intro texts hc
    obtain rfl := Option.some.inj hc
    exact ⟨id, id⟩
  match value, next, h, htakes with
  | some (.list _), some (.scalar _), _, ⟨hexplode, _⟩ => exact ⟨hexplode, trivial⟩
  | some (.list _), some (.list _), _, ⟨hexplode, htext⟩ =>
      refine ⟨hexplode, ?_⟩
      by_contra hw
      rw [contents, if_neg hw] at hc
      exact (hlist _ hc).1 htext
  | some (.list _), some (.assoc pairs), _, ⟨_, htext⟩ =>
      rw [contents] at hc
      split at hc
      · obtain ⟨p, -, rfl⟩ := List.mem_map.1 (List.mem_of_mem_head? hc)
        exact htext.elim
      · exact ((hlist _ hc).1 htext).elim
  | some (.assoc _), some (.scalar _), _, ⟨_, hpair⟩ =>
      obtain rfl := Option.some.inj hc
      exact hpair.elim
  | some (.assoc _), some (.list items), _, ⟨_, hpair⟩ =>
      rw [contents] at hc
      split at hc
      · obtain ⟨i, -, rfl⟩ := List.mem_map.1 (List.mem_of_mem_head? hc)
        exact hpair.elim
      · exact ((hlist _ hc).2 hpair).elim
  | some (.assoc _), some (.assoc _), _, ⟨hexplode, hpair⟩ =>
      refine ⟨hexplode, ?_⟩
      by_contra hw
      rw [contents, if_neg hw] at hc
      exact (hlist _ hc).2 hpair

/-- A variable that is not exploded takes its item. -/
theorem exists_take_single (hexplode : v.explode = false) {content : ItemContent}
    (hpair : ¬ content.IsPair) (hitems : items.map Item.content = content :: others)
    (hlast : later = [] → others = []) (hvalue : ∀ position,
      Item.single? ⟨content, position⟩ = v.returnedInPath value) :
    ∃ rest, v.take refusesPairs later items = .ok (v.returnedInPath value, rest) ∧
      rest.map Item.content = others := by
  cases items with
  | nil => exact absurd hitems.symm (List.cons_ne_nil _ _)
  | cons item items =>
      obtain ⟨rfl, htail⟩ := List.cons.inj hitems
      refine ⟨items, ?_, htail⟩
      rw [take_single hexplode hpair fun hnil => List.map_eq_nil_iff.1 (htail.trans (hlast hnil)),
        hvalue item.position]

/-- An exploded variable takes a list of texts up to an item of another kind. -/
theorem exists_take_texts (hexplode : v.explode = true) {texts : List Text} (hne : texts ≠ [])
    (hitems : items.map Item.content = texts.map .text ++ others)
    (hnext : ∀ c ∈ others.head?, ¬ c.IsText) :
    ∃ rest, v.take refusesPairs later items = .ok (some (.ofTexts texts), rest) ∧
      rest.map Item.content = others := by
  cases texts with
  | nil => exact absurd rfl hne
  | cons s texts =>
      cases items with
      | nil => exact absurd hitems.symm (List.cons_ne_nil _ _)
      | cons item items =>
          obtain ⟨hitem, htail⟩ := List.cons.inj hitems
          obtain ⟨rest, htake, hrest⟩ := Item.exists_takeTexts htail hnext
          refine ⟨rest, ?_, hrest⟩
          rw [take, if_pos hexplode, Item.takeExploded, hitem]
          dsimp only
          rw [htake]

/-- An exploded variable takes a map up to an item of another kind. -/
theorem exists_take_pairs (hexplode : v.explode = true) {pairs : List (Text × Value)}
    (hne : pairs ≠ [])
    (hitems : items.map Item.content = pairs.map (fun p => .pair p.1 p.2) ++ others)
    (hnext : ∀ c ∈ others.head?, ¬ c.IsPair) :
    ∃ rest, v.take refusesPairs later items = .ok (some (.assoc pairs), rest) ∧
      rest.map Item.content = others := by
  cases pairs with
  | nil => exact absurd rfl hne
  | cons p pairs =>
      cases items with
      | nil => exact absurd hitems.symm (List.cons_ne_nil _ _)
      | cons item items =>
          obtain ⟨hitem, htail⟩ := List.cons.inj hitems
          obtain ⟨rest, htake, hrest⟩ := Item.exists_takePairs htail hnext
          refine ⟨rest, ?_, hrest⟩
          rw [take, if_pos hexplode, Item.takeExploded, hitem]
          dsimp only
          rw [htake]

/-- **STEP**: a variable takes just the items that it has written, where it would not take the next
    one too. -/
theorem take_contents (h : v.ReturnsInPath value)
    (hitems : items.map Item.content = v.contents value ++ others)
    (hnext : ∀ c ∈ others.head?, ¬ v.TakesMore value c) (hlast : later = [] → others = []) :
    ∃ rest, v.take refusesPairs later items = .ok (v.returnedInPath value, rest) ∧
      rest.map Item.content = others := by
  match value, h with
  | some (.scalar s), ⟨hexplode, _⟩ =>
      refine exists_take_single hexplode id hitems hlast fun position => ?_
      rw [Item.single?, returnedInPath]
      cases v.cut s.toText <;> rfl
  | some (.list values), ⟨_, hlength⟩ =>
      rw [contents] at hitems
      by_cases hexplode : v.explode = true
      · rw [if_pos hexplode] at hitems
        exact exists_take_texts hexplode (mt List.map_eq_nil_iff.1 (ne_nil_of_le_length hlength))
          hitems fun c hc htext => hnext c hc ⟨hexplode, htext⟩
      · rw [if_neg hexplode] at hitems
        exact exists_take_single (eq_false_of_ne_true hexplode) id hitems hlast fun _ => rfl
  | some (.assoc pairs), ⟨hne, _⟩ =>
      rw [contents] at hitems
      by_cases hexplode : v.explode = true
      · rw [if_pos hexplode] at hitems
        rw [returnedInPath, if_pos hexplode]
        exact exists_take_pairs hexplode (mt List.map_eq_nil_iff.1 hne) hitems
          fun c hc hpair => hnext c hc ⟨hexplode, hpair⟩
      · rw [if_neg hexplode] at hitems
        refine exists_take_single (eq_false_of_ne_true hexplode) id hitems hlast fun _ => ?_
        rw [returnedInPath, if_neg hexplode]
        rfl

/-- **RUN**: one after the other, the variables take just the items that they have written. -/
theorem takeAll_contents {specs : List VarSpec} {given : VarSpec → Option Value}
    (heach : ∀ v ∈ specs, v.ReturnsInPath (given v))
    (hapart : specs.IsChain fun v w => ¬ v.GoesOn (given v) w (given w))
    (hitems : items.map Item.content = specs.flatMap fun v => v.contents (given v)) :
    takeAll refusesPairs specs items
      = .ok (specs.map fun v => (v.name, v.returnedInPath (given v))) := by
  induction specs generalizing items with
  | nil =>
      obtain rfl : items = [] := List.map_eq_nil_iff.1 hitems
      rfl
  | cons v later ih =>
      obtain ⟨hv, hlater⟩ := List.forall_mem_cons.1 heach
      obtain ⟨hnext, hapart⟩ := List.isChain_cons.1 hapart
      rw [List.flatMap_cons] at hitems
      -- every later variable has items, so the next item is the first one of the next variable
      have hhead : ∀ c ∈ (later.flatMap fun w => w.contents (given w)).head?,
          ¬ v.TakesMore (given v) c := by
        intro c hc htakes
        match later, hlater, hnext, hc with
        | w :: later, hlater, hnext, hc =>
            have hw := hlater w List.mem_cons_self
            rw [List.flatMap_cons, List.head?_append_of_ne_nil _ (contents_ne_nil hw)] at hc
            exact hnext w rfl (goesOn_of_takesMore hw hc htakes)
      have hlast : later = [] → (later.flatMap fun w => w.contents (given w)) = [] := by
        rintro rfl
        rfl
      obtain ⟨rest, htake, hrest⟩ := take_contents hv hitems hhead hlast
      rw [takeAll, htake]
      dsimp only
      rw [ih hlater hapart hrest, bind_prune_returnedInPath hv]
      rfl

end VarSpec

/-! ## Path expressions -/

section

variable {keywordLists : Bool} {env : Environment} {specs : List VarSpec}

/-- The items of all variables are read as what they were written for. -/
theorem Expression.forall₂_contents
    (h : ∀ v ∈ specs, v.ReturnsInPath (env.value? keywordLists v.name)) :
    List.Forall₂ (fun raw content => ItemContent.ofRaw true raw = .ok content)
      ((⟨.pathSegment, specs⟩ : Expression).parts keywordLists env)
      (specs.flatMap fun v => v.contents (env.value? keywordLists v.name)) := by
  induction specs with
  | nil => exact .nil
  | cons v later ih =>
      obtain ⟨hv, hlater⟩ := List.forall_mem_cons.1 h
      rw [parts, List.flatMap_cons, List.flatMap_cons]
      refine List.rel_append ?_ (ih hlater)
      cases hvalue : env.value? keywordLists v.name with
      | none => exact .nil
      | some value =>
          rw [hvalue] at hv
          exact VarSpec.forall₂_contents hv

namespace Pattern

/-- A path expression is read as what its variables have written. -/
theorem exists_read_contents (hvalid : ∀ v ∈ specs, v.IsValid)
    (h : ∀ v ∈ specs, v.ReturnsInPath (env.value? keywordLists v.name)) (offset : Int) :
    ∃ found, Item.read .slashes ((items .slashes specs).render keywordLists env) offset
        = .ok found ∧
      found.map Item.content
        = specs.flatMap fun v => v.contents (env.value? keywordLists v.name) := by
  have hrow : (items .slashes specs).row keywordLists env
      = (⟨.pathSegment, specs⟩ : Expression).parts keywordLists env := List.append_nil _
  have hcontents := Expression.forall₂_contents h
  rw [← hrow] at hcontents
  rcases render_items .slashes specs with ⟨hnil, hrender⟩ | ⟨hne, hrender⟩
  · rw [hnil, List.forall₂_nil_left_iff] at hcontents
    rw [hrender, hcontents]
    exact ⟨[], rfl, rfl⟩
  · have hwritten : ∀ text ∈ (items .slashes specs).row keywordLists env,
        ∀ c ∈ text, isWritten c = true := isWritten_of_mem_row hvalid
    have hsep : ∀ text ∈ (items .slashes specs).row keywordLists env,
        ItemLayout.slashes.separator ∉ text :=
      fun text ht => not_mem_of_forall (hwritten text ht) rfl
    obtain ⟨found, hread, hfound | ⟨hlayout, -⟩⟩ := Item.exists_read hne hsep hcontents offset
    · rw [hrender]
      exact ⟨found, hread, hfound⟩
    · cases hlayout

/-- A path expression binds what it has written to what comes back. -/
theorem bind_path_returned (hvalid : ∀ v ∈ specs, v.IsValid)
    (h : VarSpec.AreReturnableInPath specs fun v => env.value? keywordLists v.name)
    (strict : Bool) (start : Nat) :
    (items .slashes specs).bind strict ((items .slashes specs).render keywordLists env) start
      = .ok (specs.map fun v => (v.name, v.returnedInPath (env.value? keywordLists v.name))) := by
  obtain ⟨found, hread, hfound⟩ := exists_read_contents hvalid h.each (start : Int)
  rw [bind, hread]
  dsimp only
  rw [Item.allocate, VarSpec.takeAll_contents h.each h.apart hfound]
  refine congrArg Except.ok (OrderedMap.firsts_of_nodup ?_)
  rw [OrderedMap.keys, List.map_map]
  exact h.distinct

end Pattern

namespace Template

/-- **PATH ROUND TRIP**: matching a path expression against what it is expanded to gives back every
    variable, in order. -/
theorem matchUrl_render_path {config : Config} {source : Text} {t : Template}
    (hparse : parse config source = .ok t)
    (hsegments : t.segments = [.expression ⟨.pathSegment, specs⟩])
    (hreturn : VarSpec.AreReturnableInPath specs fun v =>
      env.value? t.config.keywordLists v.name) :
    (t.matchUrl (t.render env)).value = .ok ⟨specs.map fun v =>
      (v.name, v.returnedInPath (env.value? t.config.keywordLists v.name))⟩ := by
  have hparts : t.parts = .ok [.pattern (.items .slashes specs)] := by
    rw [parts, hsegments]
    rfl
  have hvalid := isValid_of_parts hparse hparts List.mem_cons_self
  have hbind := Pattern.bind_path_returned hvalid hreturn t.config.strictQuery 0
  have hsolve := (Matching.solve_singleton (Pattern.isStretch_render hvalid)).trans hbind
  rw [Matching.matchUrl_value _ hparts, render_eq hparts, List.flatMap_singleton]
  show Matching.toResult (Matching.solve _ _ 0 (Pattern.render _ _ _)) = _
  rw [hsolve]
  rfl

end Template

end

/-- Values of all kinds in a row, with separators inside them and empty members. -/
theorem Template.matchUrl_render_path_kinds :
    let specs : List VarSpec :=
      [⟨"a".toText, false, some 2⟩, ⟨"l".toText, false, none⟩, ⟨"x".toText, true, none⟩,
        ⟨"m".toText, true, none⟩, ⟨"f".toText, false, none⟩, ⟨"e".toText, false, none⟩,
        ⟨"y".toText, true, none⟩]
    let t : Template := .mk "\x7b/a:2,l,x*,m*,f,e,y*\x7d".toText
      [.expression ⟨.pathSegment, specs⟩] ⟨true, false⟩
    let env : Environment :=
      [("a".toText, .scalar (.text "é=/".toText)),
        ("l".toText, .list [.scalar (.text ",".toText), .scalar (.text [])]),
        ("x".toText, .list [.scalar (.int 1), .scalar (.text [])]),
        ("m".toText, .map [(.text "k".toText, .list [.scalar (.bool true), .scalar (.text [])]),
          (.text [], .scalar (.text "=".toText))]),
        ("f".toText, .map [(.text "p".toText, .scalar (.text "q".toText))]),
        ("e".toText, .scalar (.text [])), ("y".toText, .list [.scalar (.text [])])]
    t.render env = "/%C3%A9%3D/%2C,/1//k=true,/=%3D/p,q//".toText ∧
    (t.matchUrl (t.render env)).value = .ok ⟨
      [("a".toText, some (.ofText "é=".toText)), ("l".toText, some (.ofTexts [",".toText, []])),
        ("x".toText, some (.ofTexts ["1".toText, []])),
        ("m".toText, some (.assoc [("k".toText, .ofTexts ["true".toText, []]),
          ([], .ofText "=".toText)])),
        ("f".toText, some (.ofTexts ["p".toText, "q".toText])), ("e".toText, none),
        ("y".toText, some (.ofTexts [[]]))]⟩ := by
  intro specs t env
  have hparse : parse ⟨true, false⟩ t.source = .ok t := by decide +kernel
  have hreturn : VarSpec.AreReturnableInPath specs fun v => env.value? true v.name := by
    have ha : env.value? true "a".toText = some (.scalar (.text "é=/".toText)) := rfl
    have hl : env.value? true "l".toText = some (.ofTexts [",".toText, []]) := rfl
    have hx : env.value? true "x".toText = some (.list [.scalar (.int 1), .ofText []]) := rfl
    have hm : env.value? true "m".toText = some (.assoc [("k".toText,
      .list [.scalar (.bool true), .ofText []]), ([], .ofText "=".toText)]) := rfl
    have hf : env.value? true "f".toText = some (.assoc [("p".toText, .ofText "q".toText)]) := rfl
    have he : env.value? true "e".toText = some (.ofText []) := rfl
    have hy : env.value? true "y".toText = some (.ofTexts [[]]) := rfl
    refine ⟨by decide, by decide +kernel, ?_⟩
    simp [specs, ha, hl, hx, hm, hf, he, hy, VarSpec.GoesOn, Value.ofTexts, Value.ofText]
  exact ⟨by decide +kernel, (matchUrl_render_path hparse rfl hreturn).trans rfl⟩

/-- A surrogate does not come back: three replacement characters do. -/
theorem Template.matchUrl_render_surrogate_path :
    let specs : List VarSpec := [⟨"a".toText, false, none⟩]
    let t : Template := .mk "\x7b/a\x7d".toText [.expression ⟨.pathSegment, specs⟩] ⟨true, false⟩
    let env : Environment := [("a".toText, .scalar (.text [.surrogate 0]))]
    parse ⟨true, false⟩ t.source = .ok t ∧
    env.value? true "a".toText = some (.scalar (.text [.surrogate 0])) ∧
    t.render env = "/%ED%A0%80".toText ∧
    (t.matchUrl (t.render env)).value
      = .ok ⟨[("a".toText, some (.ofText "\uFFFD\uFFFD\uFFFD".toText))]⟩ ∧
    (t.matchUrl (t.render env)).value
      ≠ .ok ⟨specs.map fun v => (v.name, v.returnedInPath (env.value? true v.name))⟩ := by
  intro specs t env
  have hmatch : (t.matchUrl (t.render env)).value
      = .ok ⟨[("a".toText, some (.ofText "\uFFFD\uFFFD\uFFFD".toText))]⟩ :=
    (Matching.matchUrl_value _ rfl).trans rfl
  refine ⟨by decide +kernel, rfl, by decide, hmatch, ?_⟩
  rw [hmatch]
  intro h
  cases h

end UriTemplate
