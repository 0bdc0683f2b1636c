import UriTemplate.Proofs.Matching.Errors
import UriTemplate.Proofs.RoundTrip.Scalars

/-! # Shares — how the items are dealt out

    The variables of a positional expression take items one after the other, each from
    the front of what is left.  So the items fall into shares, one for each variable and
    in the same order (`Share.deal`), and allocation is a deal that leaves nothing
    (`VarSpec.takeAll_eq_deal`).  What comes out of a share is told by its leaves: single
    texts, and keys with their members.

    * `VarSpec.exists_isFair_of_take` — the value of a variable has the leaves of its share, an
      empty text by itself counting for nothing, and only exploded variables have pairs;
    * `Share.isDealt_of_deal` — so it is for all variables, whatever is left over;
    * **`Item.allocate_accounts`** — under distinct names nothing is lost, doubled or moved, and
      what is refused as extra is what is left;
    * **`Item.allocate_first_share`** — under a repeated name the first share decides, even if there
      is no value in it. -/

namespace UriTemplate

/-! ## Leaves -/

/-- A value by itself, or one under a key. -/
inductive Leaf where
  | single (v : Value)
  | pair (key : Text) (member : Value)

/-- Is there something in it? -/
def Leaf.IsDefined : Leaf → Prop
  | single v => v.isUndefined = false
  | pair _ member => member.isUndefined = false

namespace Value

/-- The scalar that a value is, the items of a list, the keys and members of an associative
    array. -/
def leaves : Value → List Leaf
  | scalar s => [.single (scalar s)]
  | list items => items.map .single
  | assoc pairs => pairs.map fun p => .pair p.1 p.2

theorem leaves_ofTexts (texts : List Text) :
    (ofTexts texts).leaves = texts.map fun s => .single (ofText s) :=
  List.map_map

/-- A value is left as it is if it has leaves, all of them defined. -/
theorem prune_of_leaves {v : Value} (hne : v.leaves ≠ []) (h : ∀ leaf ∈ v.leaves, leaf.IsDefined) :
    v.prune = some v := by
  cases v with
  | scalar s =>
      have hs : (scalar s).isUndefined = false := h _ List.mem_cons_self
      rw [prune, hs]
      rfl
  | list items =>
      refine prune_eq_self (mt List.map_eq_nil_iff.2 hne) fun item hitem => ?_
      exact h (.single item) (List.mem_map_of_mem hitem)
  | assoc pairs =>
      refine prune_assoc (mt List.map_eq_nil_iff.2 hne) fun p hp => ?_
      exact h (.pair p.1 p.2) (List.mem_map_of_mem hp)

end Value

namespace ItemContent

/-- The text of an item, the texts of a list, or its key with the member. -/
def leaves : ItemContent → List Leaf
  | text s => [.single (.ofText s)]
  | list texts => texts.map fun s => .single (.ofText s)
  | pair key member => [.pair key member]

/-- Whatever is read has leaves, and all are defined. -/
theorem leaves_of_ofRaw {lists : Bool} {raw : Text} {content : ItemContent}
    (h : ofRaw lists raw = .ok content) :
    content.leaves ≠ [] ∧ ∀ leaf ∈ content.leaves, leaf.IsDefined := by
  have hsplit : ∀ s : Text, (s.splitOn (.char ',')).map Percent.decode ≠ [] := by
    intro s
    simp
  unfold ofRaw at h
  split at h
  · split at h
    · cases h
    · rw [← Except.ok.inj h]
      refine ⟨List.cons_ne_nil _ _, List.forall_mem_singleton.2 ?_⟩
      show (Value.ofRaw lists _).isUndefined = false
      rw [Value.ofRaw]
      split
      · exact Value.isUndefined_ofTexts (hsplit _)
      · rfl
  · split at h
    · rw [← Except.ok.inj h]
      exact ⟨mt List.map_eq_nil_iff.1 (hsplit raw), List.forall_mem_map.2 fun _ _ => rfl⟩
    · rw [← Except.ok.inj h]
      exact ⟨List.cons_ne_nil _ _, List.forall_mem_singleton.2 rfl⟩

end ItemContent

namespace Item

/-- The leaves of an item. -/
def leaves (item : Item) : List Leaf := item.content.leaves

/-- Do all items have leaves, all of them defined? -/
def AreDefined (items : List Item) : Prop :=
  ∀ item ∈ items, item.leaves ≠ [] ∧ ∀ leaf ∈ item.leaves, leaf.IsDefined

theorem areDefined_of_ofRaws {lists : Bool} {offset : Int} {raws : List Text} {items : List Item}
    (h : ofRaws lists offset raws = .ok items) : AreDefined items := by
  induction raws generalizing offset items with
  | nil =>
      obtain rfl := Except.ok.inj h
      exact nofun
  | cons raw raws ih =>
      rw [ofRaws] at h
      cases hraw : ItemContent.ofRaw lists raw with
      | error cause =>
          rw [hraw] at h
          cases h
      | ok content =>
          rw [hraw] at h
          obtain ⟨rest, hrest, rfl⟩ := Except.map_eq_ok_iff.1 h
          exact List.forall_mem_cons.2 ⟨ItemContent.leaves_of_ofRaw hraw, ih hrest⟩

/-- The items of a stretch have leaves, all of them defined. -/
theorem areDefined_of_read {layout : ItemLayout} {stretch : Text} {offset : Int}
    {items : List Item} (h : read layout stretch offset = .ok items) : AreDefined items := by
  match stretch, layout with
  | [], _ =>
      obtain rfl := Except.ok.inj h
      exact nofun
  | _ :: _, .commas | _ :: _, .slashes => exact areDefined_of_ofRaws h

end Item

/-! ## Shares -/

/-- What a variable took of the items, and what it is bound to. -/
structure Share where
  spec : VarSpec
  items : List Item
  value : Option Value

namespace Share

/-- The entry that is made for the variable. -/
def binding (s : Share) : Text × Option Value := (s.spec.name, s.value)

/-- The leaves of the value. -/
def leaves (s : Share) : List Leaf := s.value.elim [] Value.leaves

/-- The items that count: an empty text by itself is no value, unless the variable is exploded. -/
def counted (s : Share) : List Item :=
  match s.spec.explode, s.items with
  | false, [⟨.text [], _⟩] => []
  | _, items => items

theorem counted_of_explode {s : Share} (h : s.spec.explode = true) : s.counted = s.items := by
  rw [counted, h]

/-- Does the variable have what is in its share, and not more? -/
structure IsFair (s : Share) : Prop where
  leaves_eq : s.leaves = s.counted.flatMap Item.leaves
  value_eq_none_iff : s.value = none ↔ s.counted = []
  of_isPair : ∀ item ∈ s.items, item.content.IsPair →
    s.spec.explode = true ∧ ∃ pairs, s.value = some (.assoc pairs)

/-- Deal items out to variables, one after the other: the shares, and what is left. -/
def deal (refusesPairs : Bool) :
    List VarSpec → List Item → Except MatchError (List Share × List Item)
  | [], items => .ok ([], items)
  | v :: later, items =>
      match v.take refusesPairs later items with
      | .error e => .error e
      | .ok (value, rest) =>
          (deal refusesPairs later rest).map fun dealt =>
            (⟨v, items.take (items.length - rest.length), value.bind Value.prune⟩ :: dealt.1,
              dealt.2)

/-- A fair share for each variable, in order, from the front of the items. -/
structure IsDealt (specs : List VarSpec) (items : List Item) (shares : List Share)
    (left : List Item) : Prop where
  specs_eq : shares.map spec = specs
  items_eq : shares.flatMap Share.items ++ left = items
  isFair : ∀ s ∈ shares, s.IsFair

end Share

/-- **DEALING**: allocation deals the items out, and refuses what is left. -/
theorem VarSpec.takeAll_eq_deal (refusesPairs : Bool) (specs : List VarSpec) (items : List Item) :
    takeAll refusesPairs specs items =
      match Share.deal refusesPairs specs items with
      | .error e => .error e
      | .ok (shares, []) => .ok (shares.map Share.binding)
      | .ok (_, item :: left) => .error ⟨.extraItems (left.length + 1), some item.position⟩ := by
  induction specs generalizing items with
  | nil => cases items <;> rfl
  | cons v later ih =>
      rw [takeAll, Share.deal]
      · cases v.take refusesPairs later items with
        | error e => rfl
        | ok taken =>
            obtain ⟨value, rest⟩ := taken
            dsimp only
            rw [ih rest]
            cases Share.deal refusesPairs later rest with
            | error e => rfl
            | ok dealt =>
                obtain ⟨shares, _ | ⟨item, left⟩⟩ := dealt <;> rfl

/-! ## One share -/

namespace Item

/-- The pairs in front, as items. -/
theorem takePairs_split (items : List Item) : ∃ own, items = own ++ (takePairs items).2 ∧
    own.flatMap leaves = (takePairs items).1.map fun p => .pair p.1 p.2 := by
  fun_induction takePairs items with
  | case1 key member position items ih =>
      obtain ⟨own, hitems, hown⟩ := ih
      exact ⟨⟨.pair key member, position⟩ :: own, congrArg (_ :: ·) hitems, congrArg (_ :: ·) hown⟩
  | case2 items => exact ⟨[], rfl, rfl⟩

/-- The single texts in front, as items. -/
theorem takeTexts_split (items : List Item) : ∃ own, items = own ++ (takeTexts items).2 ∧
    own.flatMap leaves = (takeTexts items).1.map (fun s => .single (.ofText s)) ∧
    ∀ item ∈ own, ¬ item.content.IsPair := by
  fun_induction takeTexts items with
  | case1 s position items ih =>
      obtain ⟨own, hitems, hown, hpairs⟩ := ih
      exact ⟨⟨.text s, position⟩ :: own, congrArg (_ :: ·) hitems, congrArg (_ :: ·) hown,
        List.forall_mem_cons.2 ⟨id, hpairs⟩⟩
  | case2 items => exact ⟨[], rfl, rfl, List.forall_mem_nil _⟩

/-- An exploded variable takes items from the front, and makes a value with their leaves. -/
theorem takeExploded_split (item : Item) (items : List Item) :
    ∃ more, items = more ++ (item.takeExploded items).2 ∧
      (item.takeExploded items).1.leaves = (item :: more).flatMap leaves ∧
      ∀ other ∈ item :: more, other.content.IsPair →
        ∃ pairs, (item.takeExploded items).1 = .assoc pairs := by
  obtain ⟨content, position⟩ := item
  cases content with
  | pair key member =>
      obtain ⟨more, hmore, hleaves⟩ := takePairs_split items
      exact ⟨more, hmore, congrArg (_ :: ·) hleaves.symm, fun _ _ _ => ⟨_, rfl⟩⟩
  | text s =>
      obtain ⟨more, hmore, hleaves, hpairs⟩ := takeTexts_split items
      refine ⟨more, hmore, ?_, fun other hother hpair => ?_⟩
      · exact (Value.leaves_ofTexts _).trans (congrArg (_ :: ·) hleaves.symm)
      · exact absurd hpair (List.forall_mem_cons.2 ⟨id, hpairs⟩ other hother)
  | list texts =>
      refine ⟨[], rfl, ?_, List.forall_mem_singleton.2 fun hpair => hpair.elim⟩
      exact (Value.leaves_ofTexts texts).trans (List.append_nil _).symm

/-- What is absorbed are the leaves of all items, none of them a pair. -/
theorem leaves_of_absorb {name : Text} {items : List Item} {texts : List Text}
    (h : absorb name items = .ok texts) :
    (Value.ofTexts texts).leaves = items.flatMap leaves ∧
      ∀ item ∈ items, ¬ item.content.IsPair := by
  rw [Value.leaves_ofTexts]
  induction items generalizing texts with
  | nil =>
      obtain rfl := Except.ok.inj h
      exact ⟨rfl, nofun⟩
  | cons item items ih =>
      obtain ⟨content, position⟩ := item
      cases content with
      | pair key member => cases h
      | text s | list _ =>
          obtain ⟨rest, hrest, rfl⟩ := Except.map_eq_ok_iff.1 h
          obtain ⟨hleaves, hpairs⟩ := ih hrest
          refine ⟨?_, List.forall_mem_cons.2 ⟨id, hpairs⟩⟩
          rw [List.flatMap_cons, ← hleaves]
          simp [leaves, ItemContent.leaves]

end Item

namespace Share

variable {v : VarSpec} {own : List Item}

/-- Nothing taken is nothing found. -/
theorem isFair_nil (v : VarSpec) : IsFair ⟨v, [], none⟩ := by
  have hcounted : counted ⟨v, [], none⟩ = [] := by
    rw [counted]
    split <;> rfl
  constructor
  · rw [hcounted]
    rfl
  · rw [hcounted]
    exact iff_of_true rfl rfl
  · exact nofun

/-- An empty text by itself is nothing, unless the variable is exploded. -/
theorem isFair_empty (hexplode : v.explode = false) (position : Int) :
    IsFair ⟨v, [⟨.text [], position⟩], none⟩ := by
  have hcounted : counted ⟨v, [⟨.text [], position⟩], none⟩ = [] := by
    rw [counted, hexplode]
  constructor
  · rw [hcounted]
    rfl
  · rw [hcounted]
    exact iff_of_true rfl rfl
  · exact List.forall_mem_singleton.2 fun hpair => hpair.elim

/-- A value with the leaves of the items that it was made from is what they come to. -/
theorem isFair_of_leaves {value : Value} (hitems : Item.AreDefined own) (hne : own ≠ [])
    (hcounted : counted ⟨v, own, value.prune⟩ = own)
    (hleaves : value.leaves = own.flatMap Item.leaves)
    (hpairs : ∀ item ∈ own, item.content.IsPair →
      v.explode = true ∧ ∃ pairs, value = .assoc pairs) :
    IsFair ⟨v, own, value.prune⟩ := by
  -- each item has leaves, so the value is not empty, and pruning takes nothing from it
  have hprune : value.prune = some value := by
    apply Value.prune_of_leaves
    · obtain ⟨item, hitem⟩ := List.exists_mem_of_ne_nil own hne
      rw [hleaves]
      intro hnil
      exact (hitems item hitem).1 (List.flatMap_eq_nil_iff.1 hnil item hitem)
    · intro leaf hleaf
      rw [hleaves] at hleaf
      obtain ⟨item, hitem, hleaf⟩ := List.mem_flatMap.1 hleaf
      exact (hitems item hitem).2 leaf hleaf
  rw [hprune] at hcounted ⊢
  constructor
  · rw [hcounted]
    exact hleaves
  · rw [hcounted]
    exact iff_of_false (Option.some_ne_none value) hne
  · intro item hitem hpair
    obtain ⟨hexplode, pairs, rfl⟩ := hpairs item hitem hpair
    exact ⟨hexplode, pairs, rfl⟩

end Share

namespace Item

open Share

variable {refusesPairs : Bool} {v : VarSpec} {later : List VarSpec} {item : Item}
  {items rest : List Item} {value : Option Value}

/-- Items that one variable absorbs are its share; an empty text does not come alone there. -/
theorem isFair_of_absorb {name : Text} {texts : List Text} {other : Item}
    (hitems : AreDefined (item :: other :: items))
    (h : absorb name (item :: other :: items) = .ok texts) :
    IsFair ⟨v, item :: other :: items, (Value.ofTexts texts).prune⟩ := by
  obtain ⟨hleaves, hpairs⟩ := leaves_of_absorb h
  refine isFair_of_leaves hitems (List.cons_ne_nil _ _) ?_ hleaves
    fun owned howned hpair => absurd hpair (hpairs owned howned)
  rw [counted]
  split
  · next heq => cases heq
  · rfl

/-- A single item that is no pair, for a variable that is not exploded. -/
theorem isFair_single? (hexplode : v.explode = false) (hitem : AreDefined [item])
    (hpair : ¬ item.content.IsPair) : IsFair ⟨v, [item], item.single?.bind Value.prune⟩ := by
  have hpairs : ∀ value, ∀ other ∈ [item], other.content.IsPair →
      v.explode = true ∧ ∃ pairs, value = Value.assoc pairs :=
    fun _ => List.forall_mem_singleton.2 fun h => absurd h hpair
  obtain ⟨content, position⟩ := item
  cases content with
  | pair key member => exact absurd trivial hpair
  | list texts =>
      refine isFair_of_leaves hitem (List.cons_ne_nil _ _) ?_ ?_ (hpairs _)
      · rw [counted, hexplode]
      · exact (Value.leaves_ofTexts texts).trans (List.append_nil _).symm
  | text s =>
      cases s with
      | nil => exact isFair_empty hexplode position
      | cons c s =>
          refine isFair_of_leaves hitem (List.cons_ne_nil _ _) ?_ rfl (hpairs _)
          rw [counted, hexplode]

/-- What a variable that is not exploded takes is a fair share, without a pair. -/
theorem exists_isFair_takeSingle (hexplode : v.explode = false)
    (hitems : AreDefined (item :: items))
    (h : item.takeSingle refusesPairs v later items = .ok (value, rest)) :
    ∃ own, item :: items = own ++ rest ∧ IsFair ⟨v, own, value.bind Value.prune⟩ := by
  unfold takeSingle at h
  split at h
  · -- a pair is left where it is
    split at h
    · cases h
    · obtain ⟨rfl, rfl⟩ := Prod.mk.inj (Except.ok.inj h)
      exact ⟨[], rfl, isFair_nil v⟩
  · next hcontent =>
      split at h
      · next hlast =>
          obtain ⟨texts, htexts, heq⟩ := Except.map_eq_ok_iff.1 h
          obtain ⟨rfl, rfl⟩ := Prod.mk.inj heq
          cases items with
          | nil => simp at hlast
          | cons other items =>
              exact ⟨item :: other :: items, (List.append_nil _).symm,
                isFair_of_absorb hitems htexts⟩
      · obtain ⟨rfl, rfl⟩ := Prod.mk.inj (Except.ok.inj h)
        have hpair : ¬ item.content.IsPair := by
          intro hpair
          obtain ⟨content, position⟩ := item
          cases content with
          | pair key member => exact hcontent key member rfl
          | text _ | list _ => exact hpair
        have hitem : AreDefined [item] :=
          List.forall_mem_singleton.2 (hitems item List.mem_cons_self)
        exact ⟨[item], rfl, isFair_single? hexplode hitem hpair⟩

end Item

/-! ## All shares -/

variable {refusesPairs : Bool} {specs : List VarSpec} {items left : List Item}

/-- **STEP**: what a variable takes from the front is a fair share. -/
theorem VarSpec.exists_isFair_of_take {v : VarSpec} {later : List VarSpec} {value : Option Value}
    {rest : List Item} (hitems : Item.AreDefined items)
    (h : v.take refusesPairs later items = .ok (value, rest)) :
    ∃ own, items = own ++ rest ∧ Share.IsFair ⟨v, own, value.bind Value.prune⟩ := by
  cases items with
  | nil =>
      obtain ⟨rfl, rfl⟩ := Prod.mk.inj (Except.ok.inj h)
      exact ⟨[], rfl, Share.isFair_nil v⟩
  | cons item items =>
      rw [take] at h
      split at h
      · next hexplode =>
          obtain ⟨rfl, rfl⟩ := Prod.mk.inj (Except.ok.inj h)
          obtain ⟨more, hmore, hleaves, hpairs⟩ := item.takeExploded_split items
          refine ⟨item :: more, congrArg (item :: ·) hmore, ?_⟩
          refine Share.isFair_of_leaves ?_ (List.cons_ne_nil _ _)
            (Share.counted_of_explode hexplode) hleaves
            fun other hother hpair => ⟨hexplode, hpairs other hother hpair⟩
          intro other hother
          refine hitems other ?_
          rw [hmore, ← List.cons_append]
          exact List.mem_append_left _ hother
      · next hexplode =>
          exact Item.exists_isFair_takeSingle (Bool.eq_false_iff.2 hexplode) hitems h

namespace Share

variable {shares : List Share}

/-- **RUN**: shares that were dealt out are fair, and with what is left they are the items. -/
theorem isDealt_of_deal (hitems : Item.AreDefined items)
    (h : deal refusesPairs specs items = .ok (shares, left)) :
    IsDealt specs items shares left := by
  -- the next variable is dealt what this one leaves
  induction specs generalizing items shares with
  | nil =>
      obtain ⟨rfl, rfl⟩ := Prod.mk.inj (Except.ok.inj h)
      exact ⟨rfl, rfl, nofun⟩
  | cons v later ih =>
      rw [deal] at h
      cases htake : v.take refusesPairs later items with
      | error e =>
          rw [htake] at h
          cases h
      | ok taken =>
          obtain ⟨value, rest⟩ := taken
          rw [htake] at h
          obtain ⟨dealt, hdealt, heq⟩ := Except.map_eq_ok_iff.1 h
          obtain ⟨rfl, rfl⟩ := Prod.mk.inj heq
          obtain ⟨own, rfl, hfair⟩ := VarSpec.exists_isFair_of_take hitems htake
          have hown : (own ++ rest).take ((own ++ rest).length - rest.length) = own := by
            simp
          obtain ⟨hspecs, hrest, hshares⟩ :=
            ih (fun item hitem => hitems item (List.mem_append_right own hitem)) hdealt
          rw [hown]
          refine ⟨congrArg (v :: ·) hspecs, ?_, List.forall_mem_cons.2 ⟨hfair, hshares⟩⟩
          rw [List.flatMap_cons, List.append_assoc, hrest]

/-- A deal fails at a pair, never for want of items. -/
theorem ne_extraItems_of_deal {e : MatchError} (h : deal refusesPairs specs items = .error e)
    (n : Int) : e.cause ≠ .extraItems n := by
  induction specs generalizing items with
  | nil => cases h
  | cons v later ih =>
      rw [deal] at h
      cases htake : v.take refusesPairs later items with
      | error e' =>
          rw [htake] at h
          obtain rfl := Except.error.inj h
          obtain ⟨-, item, -, -, rfl⟩ := VarSpec.isUnexpected_of_take htake
          exact nofun
      | ok taken =>
          rw [htake] at h
          exact ih (Except.map_eq_error_iff.1 h)

end Share

/-! ## Allocation -/

/-- The first of the entries of a name is what is read. -/
theorem OrderedMap.get?_firsts {α : Type} (entries : List (Text × α)) (name : Text) :
    get? (firsts entries) name = get? entries name := by
  induction entries with
  | nil => rfl
  | cons e entries ih =>
      rw [firsts, get?, get?]
      by_cases he : e.1 = name
      · rw [if_pos he, if_pos he]
      · rw [if_neg he, if_neg he, ← ih]
        refine (get?_filter (fun k => decide (k ≠ e.1)) _ name).trans (if_pos ?_)
        exact decide_eq_true (Ne.symm he)

/-- What is read of the entries of shares is the value of the first share of a name. -/
theorem Share.get?_map_binding (shares : List Share) (name : Text) :
    OrderedMap.get? (shares.map binding) name
      = (shares.find? (·.spec.name = name)).map value := by
  induction shares with
  | nil => rfl
  | cons s shares ih =>
      rw [List.map_cons, OrderedMap.get?, List.find?_cons]
      by_cases hs : s.spec.name = name
      · simp [binding, hs]
      · simpa [binding, hs] using ih

namespace Item

variable {bindings : Bindings}

/-- What is allocated has been dealt out, and nothing is left. -/
theorem exists_deal_of_allocate (h : allocate refusesPairs specs items = .ok bindings) :
    ∃ shares, Share.deal refusesPairs specs items = .ok (shares, []) ∧
      bindings = OrderedMap.firsts (shares.map Share.binding) := by
  obtain ⟨found, hfound, rfl⟩ := Except.map_eq_ok_iff.1 h
  rw [VarSpec.takeAll_eq_deal] at hfound
  split at hfound
  · cases hfound
  · next shares hdeal => exact ⟨shares, hdeal, congrArg _ (Except.ok.inj hfound).symm⟩
  · cases hfound

/-- What is refused as extra is what is left when all variables have their shares. -/
theorem exists_deal_of_extraItems {n : Int} {position : Option Int}
    (h : allocate refusesPairs specs items = .error ⟨.extraItems n, position⟩) :
    ∃ shares item more, Share.deal refusesPairs specs items = .ok (shares, item :: more) ∧
      n = more.length + 1 ∧ position = some item.position := by
  have hfound := Except.map_eq_error_iff.1 h
  rw [VarSpec.takeAll_eq_deal] at hfound
  split at hfound
  · next hdeal =>
      obtain rfl := Except.error.inj hfound
      exact absurd rfl (Share.ne_extraItems_of_deal hdeal n)
  · cases hfound
  · next shares item more hdeal =>
      obtain ⟨hcause, rfl⟩ := MatchError.mk.inj (Except.error.inj hfound)
      exact ⟨shares, item, more, hdeal, (MatchCause.extraItems.inj hcause).symm, rfl⟩

variable {layout : ItemLayout} {stretch : Text} {offset : Int}

/-- **ACCOUNTING**: where names are distinct, what variables are bound to has the leaves of the
    items, in order, but for empty texts that came alone to variables that are not exploded; and
    pairs are bound only by exploded variables.  Items that are refused as extra are the last ones,
    and the others have been dealt out in the same way. -/
theorem allocate_accounts (hread : read layout stretch offset = .ok items)
    (hdistinct : (specs.map VarSpec.name).Nodup) (refusesPairs : Bool) :
    (∀ bindings, allocate refusesPairs specs items = .ok bindings →
      ∃ shares, Share.deal refusesPairs specs items = .ok (shares, []) ∧
        Share.IsDealt specs items shares [] ∧ bindings = shares.map Share.binding ∧
        bindings.flatMap (fun e => e.2.elim [] Value.leaves)
          = (shares.flatMap Share.counted).flatMap leaves) ∧
    ∀ n position, allocate refusesPairs specs items = .error ⟨.extraItems n, position⟩ →
      ∃ shares item more, Share.deal refusesPairs specs items = .ok (shares, item :: more) ∧
        Share.IsDealt specs items shares (item :: more) ∧
        n = more.length + 1 ∧ position = some item.position := by
  have hitems := areDefined_of_read hread
  constructor
  · intro bindings h
    obtain ⟨shares, hdeal, rfl⟩ := exists_deal_of_allocate h
    have hdealt := Share.isDealt_of_deal hitems hdeal
    have hkeys : OrderedMap.keys (shares.map Share.binding) = specs.map VarSpec.name := by
      rw [← hdealt.specs_eq, OrderedMap.keys, List.map_map, List.map_map]
      rfl
    -- with distinct names every share has its entry
    rw [OrderedMap.firsts_of_nodup (hkeys ▸ hdistinct)]
    refine ⟨shares, hdeal, hdealt, rfl, ?_⟩
    rw [List.flatMap_map, List.flatMap_assoc]
    exact List.flatMap_congr fun s hs => (hdealt.isFair s hs).leaves_eq
  · intro n position h
    obtain ⟨shares, item, more, hdeal, hn, hposition⟩ := exists_deal_of_extraItems h
    exact ⟨shares, item, more, hdeal, Share.isDealt_of_deal hitems hdeal, hn, hposition⟩

/-- A list, pairs and an empty text; and texts with a pair between them, for one variable. -/
theorem allocate_accounts_path :
    let a : VarSpec := ⟨"a".toText, false, none⟩
    let b : VarSpec := ⟨"b".toText, true, none⟩
    let c : VarSpec := ⟨"c".toText, false, none⟩
    let pairs : List (Text × Value) :=
      [("k".toText, .ofTexts ["1".toText, "2".toText]), ("l".toText, .ofText [])]
    (∃ items shares, read .slashes "/x,y/k=1,2/l=/".toText 0 = .ok items ∧
      allocate false [a, b, c] items = .ok (shares.map Share.binding) ∧
      Share.IsDealt [a, b, c] items shares [] ∧
      shares.map Share.value
        = [some (.ofTexts ["x".toText, "y".toText]), some (.assoc pairs), none]) ∧
    ∃ items shares left, read .slashes "/x/k=1/y".toText 0 = .ok items ∧
      allocate true [b] items = .error ⟨.extraItems 2, some 3⟩ ∧
      Share.IsDealt [b] items shares left ∧ left.length = 2 := by
  intro a b c pairs
  constructor
  · have hread : read .slashes "/x,y/k=1,2/l=/".toText 0
        = .ok [⟨.list ["x".toText, "y".toText], 1⟩,
          ⟨.pair "k".toText (.ofTexts ["1".toText, "2".toText]), 5⟩,
          ⟨.pair "l".toText (.ofText []), 11⟩, ⟨.text [], 14⟩] := rfl
    have hdistinct : ([a, b, c].map VarSpec.name).Nodup := by decide
    obtain ⟨shares, hdeal, hdealt, hbindings, -⟩ :=
      (allocate_accounts hread hdistinct false).1 _ rfl
    obtain ⟨rfl, -⟩ := Prod.mk.inj (Except.ok.inj hdeal)
    exact ⟨_, _, hread, congrArg Except.ok hbindings, hdealt, rfl⟩
  · have hread : read .slashes "/x/k=1/y".toText 0
        = .ok [⟨.text "x".toText, 1⟩, ⟨.pair "k".toText (.ofText "1".toText), 3⟩,
          ⟨.text "y".toText, 7⟩] := rfl
    have hdistinct : ([b].map VarSpec.name).Nodup := by decide
    obtain ⟨shares, item, more, hdeal, hdealt, hlength, -⟩ :=
      (allocate_accounts hread hdistinct true).2 2 (some 3) rfl
    refine ⟨_, shares, item :: more, hread, rfl, hdealt, ?_⟩
    rw [List.length_cons]
    omega

/-- **FIRST SHARE**: a name is bound to what the first variable of that name has in its share.  So
    it is bound to nothing just when nothing counts there, whatever later ones have in theirs. -/
theorem allocate_first_share (hread : read layout stretch offset = .ok items)
    (h : allocate refusesPairs specs items = .ok bindings) :
    ∃ shares, Share.deal refusesPairs specs items = .ok (shares, []) ∧
      Share.IsDealt specs items shares [] ∧ ∀ name,
        OrderedMap.get? bindings name = (shares.find? (·.spec.name = name)).map Share.value ∧
        (OrderedMap.get? bindings name = some none ↔
          ∃ s, shares.find? (·.spec.name = name) = some s ∧ s.counted = []) := by
  obtain ⟨shares, hdeal, rfl⟩ := exists_deal_of_allocate h
  have hdealt := Share.isDealt_of_deal (areDefined_of_read hread) hdeal
  refine ⟨shares, hdeal, hdealt, fun name => ?_⟩
  have hget : OrderedMap.get? (OrderedMap.firsts (shares.map Share.binding)) name
      = (shares.find? (·.spec.name = name)).map Share.value :=
    (OrderedMap.get?_firsts _ name).trans (Share.get?_map_binding shares name)
  refine ⟨hget, ?_⟩
  rw [hget, Option.map_eq_some_iff]
  refine exists_congr fun s => and_congr_right fun hs => ?_
  exact (hdealt.isFair s (List.mem_of_find?_eq_some hs)).value_eq_none_iff

/-- An empty text in front, and a pair that is left for a later variable: what the later variable
    of the name has is lost. -/
theorem allocate_first_share_lost :
    let a : VarSpec := ⟨"a".toText, false, none⟩
    let b : VarSpec := ⟨"a".toText, true, none⟩
    let pair : Value := .assoc [("k".toText, .ofText "v".toText)]
    (∃ items bindings shares, read .commas ",x".toText 0 = .ok items ∧
      allocate true [a, a] items = .ok bindings ∧
      OrderedMap.get? bindings "a".toText = some none ∧
      Share.IsDealt [a, a] items shares [] ∧
      shares.map Share.value = [none, some (.ofText "x".toText)]) ∧
    ∃ items bindings shares, read .slashes "/k=v".toText 0 = .ok items ∧
      allocate false [a, b] items = .ok bindings ∧
      OrderedMap.get? bindings "a".toText = some none ∧
      Share.IsDealt [a, b] items shares [] ∧ shares.map Share.value = [none, some pair] := by
  intro a b pair
  constructor
  · have hread : read .commas ",x".toText 0
        = .ok [⟨.text [], 0⟩, ⟨.text "x".toText, 1⟩] := rfl
    have hbind : allocate true [a, a] [⟨.text [], 0⟩, ⟨.text "x".toText, 1⟩]
        = .ok [("a".toText, none)] := rfl
    obtain ⟨shares, hdeal, hdealt, hname⟩ := allocate_first_share hread hbind
    obtain ⟨rfl, -⟩ := Prod.mk.inj (Except.ok.inj hdeal)
    exact ⟨_, _, _, hread, hbind, (hname "a".toText).1.trans rfl, hdealt, rfl⟩
  · have hread : read .slashes "/k=v".toText 0
        = .ok [⟨.pair "k".toText (.ofText "v".toText), 1⟩] := rfl
    have hbind : allocate false [a, b] [⟨.pair "k".toText (.ofText "v".toText), 1⟩]
        = .ok [("a".toText, none)] := rfl
    obtain ⟨shares, hdeal, hdealt, hname⟩ := allocate_first_share hread hbind
    obtain ⟨rfl, -⟩ := Prod.mk.inj (Except.ok.inj hdeal)
    exact ⟨_, _, _, hread, hbind, (hname "a".toText).1.trans rfl, hdealt, rfl⟩

end Item

end UriTemplate
