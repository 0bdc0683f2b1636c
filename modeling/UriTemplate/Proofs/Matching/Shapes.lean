import Mathlib
import UriTemplate.Proofs.Expansion.Sequential
import UriTemplate.Proofs.Matching.Repeated
import UriTemplate.Proofs.Matching.Shares
import UriTemplate.Proofs.RoundTrip.EncodedNames

/-! # Shapes — what kind of value a match can find

    A value that is found is a text, a list of texts or an associative array, and never an
    empty one.  Which of them it can be depends on the variable that found it and on whether
    items can be lists there, that is, on whether the variable stands in a path
    (`Value.IsFound`): pairs go to exploded variables only, and a variable that is not exploded
    has a list only of two texts or more.

    Each way of finding a value gives one of these shapes: one variable taking items
    (`VarSpec.isFound_of_take`), one round of a query (`Finding.isFound_of_mem_all`).  Bindings
    are put together from such values and nothing else, so the shape of a value is that of some
    variable of its name (`Matching.exists_isFound_of_solve`).

    * `Percent.decode_ne_nil` — what is not empty is not decoded as an empty text;
    * **`Template.wellFormed_of_matchUrl`** — the values of a result. -/

namespace UriTemplate

/-! ## Decoding leaves something -/

/-- A byte that completes nothing leaves a character under way. -/
theorem Utf8.step_ne_none {state : Option Pending} {b : UInt8} (h : (step state b).1 = []) :
    (step state b).2 ≠ none := by
  intro hnone
  have hstart := length_start b
  cases state with
  | none =>
      rw [step] at h hnone
      rw [h, hnone] at hstart
      cases hstart
  | some p =>
      rw [step] at h hnone
      split at h
      · next hadmits =>
          rw [if_pos hadmits] at hnone
          unfold Pending.take at h hnone
          dsimp only at h hnone
          split at h <;> simp_all
      · cases h

namespace Percent

/-- A text, or a character under way, leaves something to be read. -/
theorem decodeFrom_ne_nil {state : Option Utf8.Pending} {s : Text} (h : state ≠ none ∨ s ≠ []) :
    decodeFrom state s ≠ [] := by
  fun_induction decodeFrom state s with
  | case1 state =>
      cases state with
      | none => simp at h
      | some p => exact List.cons_ne_nil _ _
  | case2 state high low s b hbyte ih =>
      intro hnil
      obtain ⟨hread, hrest⟩ := List.append_eq_nil_iff.1 hnil
      exact ih (Or.inl (Utf8.step_ne_none hread)) hrest
  | case3 state high low s hbyte ih =>
      exact List.append_ne_nil_of_right_ne_nil _ (List.cons_ne_nil _ _)
  | case4 state c s hc ih => exact List.append_ne_nil_of_right_ne_nil _ (List.cons_ne_nil _ _)

/-- What is not empty is decoded as something. -/
theorem decode_ne_nil {s : Text} (h : s ≠ []) : decode s ≠ [] := decodeFrom_ne_nil (Or.inr h)

end Percent

/-- A text with a separator has two pieces or more. -/
theorem two_le_length_splitOn {sep : CodePoint} {s : Text} (h : sep ∈ s) :
    2 ≤ (s.splitOn sep).length := by
  obtain ⟨before, after, rfl⟩ := List.append_of_mem h
  have hbefore := List.length_pos_iff.2 (List.splitOn_ne_nil sep before)
  have hafter := List.length_pos_iff.2 (List.splitOn_ne_nil sep after)
  rw [List.splitOn_append_cons_self, List.length_append]
  omega

/-! ## Shapes -/

namespace Value

/-- What can stand under a key: a text, or two texts and more where items can be lists. -/
inductive IsFoundMember (lists : Bool) : Value → Prop where
  | text (s : Text) : IsFoundMember lists (ofText s)
  | texts {texts : List Text} : lists = true → 2 ≤ texts.length →
      IsFoundMember lists (ofTexts texts)

/-- What a variable can find: a text, texts, or pairs.  A single text in a list, and pairs, are
    for exploded variables. -/
inductive IsFound (lists : Bool) (v : VarSpec) : Value → Prop where
  | text {s : Text} : s ≠ [] → IsFound lists v (ofText s)
  | texts {texts : List Text} : texts ≠ [] → (v.explode = false → 2 ≤ texts.length) →
      IsFound lists v (ofTexts texts)
  | assoc {pairs : List (Text × Value)} : v.explode = true → pairs ≠ [] →
      (∀ p ∈ pairs, p.2.IsFoundMember lists) → IsFound lists v (assoc pairs)

variable {lists : Bool} {v : VarSpec} {value : Value}

theorem ne_nil_of_two_le {α : Type} {l : List α} (h : 2 ≤ l.length) : l ≠ [] :=
  List.ne_nil_of_length_pos (Nat.lt_of_lt_of_le Nat.zero_lt_two h)

theorem IsFoundMember.isUndefined_eq (h : value.IsFoundMember lists) :
    value.isUndefined = false := by
  cases h with
  | text s => rfl
  | texts _ hlength => exact isUndefined_ofTexts (ne_nil_of_two_le hlength)

/-- A text that is not empty, texts, or pairs of a key and a text or two texts and more. -/
def IsRegular : Value → Prop
  | scalar s => ∃ text ≠ [], s = .text text
  | list items => ∃ texts ≠ [], items = texts.map ofText
  | assoc pairs => pairs ≠ [] ∧ ∀ p ∈ pairs,
      (∃ text, p.2 = ofText text) ∨ ∃ texts, 2 ≤ texts.length ∧ p.2 = ofTexts texts

theorem IsFound.isRegular (h : value.IsFound lists v) : value.IsRegular := by
  cases h with
  | text hne => exact ⟨_, hne, rfl⟩
  | texts hne _ => exact ⟨_, hne, rfl⟩
  | assoc _ hne hmembers =>
      refine ⟨hne, ?_⟩
      rintro ⟨key, member⟩ hp
      have hmember : member.IsFoundMember lists := hmembers _ hp
      cases hmember with
      | text text => exact Or.inl ⟨text, rfl⟩
      | texts _ hlength => exact Or.inr ⟨_, hlength, rfl⟩

/-- What is found has no undefined part. -/
theorem IsFound.prune_eq (h : value.IsFound lists v) : value.prune = some value := by
  cases h with
  | text _ => rfl
  | texts hne _ => exact prune_ofTexts hne
  | assoc _ hne hmembers => exact prune_assoc hne fun p hp => (hmembers p hp).isUndefined_eq

theorem isFoundMember_ofRaw (lists : Bool) (raw : Text) :
    (ofRaw lists raw).IsFoundMember lists := by
  rw [ofRaw]
  split
  · next h => exact .texts h.1 (by simpa using two_le_length_splitOn h.2)
  · exact .text _

end Value

/-! ## Items -/

namespace Item

/-- What an item can hold: anything but a list of one, or a list where there are none. -/
def HasShape (lists : Bool) (item : Item) : Prop :=
  match item.content with
  | .text _ => True
  | .list texts => 2 ≤ texts.length
  | .pair _ member => member.IsFoundMember lists

variable {lists : Bool} {items : List Item}

theorem hasShape_of_ofRaw {raw : Text} {content : ItemContent} (position : Int)
    (h : ItemContent.ofRaw lists raw = .ok content) : HasShape lists ⟨content, position⟩ := by
  rw [ItemContent.ofRaw] at h
  split at h
  · split at h
    · cases h
    · obtain rfl := Except.ok.inj h
      exact Value.isFoundMember_ofRaw lists _
  · split at h
    · next hlist =>
        obtain rfl := Except.ok.inj h
        show 2 ≤ (List.map _ _).length
        rw [List.length_map]
        exact two_le_length_splitOn hlist.2
    · obtain rfl := Except.ok.inj h
      trivial

theorem hasShape_of_ofRaws {offset : Int} {raws : List Text}
    (h : ofRaws lists offset raws = .ok items) : ∀ item ∈ items, item.HasShape lists := by
  induction raws generalizing offset items with
  | nil =>
      obtain rfl := Except.ok.inj h
      exact List.forall_mem_nil _
  | cons raw raws ih =>
      rw [ofRaws] at h
      cases hcontent : ItemContent.ofRaw lists raw with
      | error cause =>
          rw [hcontent] at h
          cases h
      | ok content =>
          rw [hcontent] at h
          obtain ⟨later, hlater, rfl⟩ := Except.map_eq_ok_iff.1 h
          exact List.forall_mem_cons.2 ⟨hasShape_of_ofRaw offset hcontent, ih hlater⟩

theorem hasShape_of_read {layout : ItemLayout} {stretch : Text} {offset : Int}
    (h : read layout stretch offset = .ok items) :
    ∀ item ∈ items, item.HasShape layout.hasLists := by
  match stretch, layout with
  | [], _ =>
      obtain rfl := Except.ok.inj h
      exact List.forall_mem_nil _
  | _ :: _, .commas | _ :: _, .slashes => exact hasShape_of_ofRaws h

/-- Members of a run of pairs. -/
theorem isFoundMember_of_mem_takePairs (h : ∀ item ∈ items, item.HasShape lists) :
    ∀ p ∈ (takePairs items).1, p.2.IsFoundMember lists := by
  fun_induction takePairs items with
  | case1 key member position items ih =>
      obtain ⟨hpair, hitems⟩ := List.forall_mem_cons.1 h
      exact List.forall_mem_cons.2 ⟨hpair, ih hitems⟩
  | case2 items => exact List.forall_mem_nil _

/-- Absorbing takes at least one text from every item. -/
theorem length_le_of_absorb {name : Text} {texts : List Text}
    (hitems : ∀ item ∈ items, item.HasShape lists) (h : absorb name items = .ok texts) :
    items.length ≤ texts.length := by
  induction items generalizing texts with
  | nil => exact Nat.zero_le _
  | cons item items ih =>
      obtain ⟨content, position⟩ := item
      obtain ⟨hitem, hlater⟩ := List.forall_mem_cons.1 hitems
      cases content with
      | pair key member => cases h
      | text s =>
          obtain ⟨rest, hrest, rfl⟩ := Except.map_eq_ok_iff.1 h
          exact Nat.succ_le_succ (ih hlater hrest)
      | list own =>
          obtain ⟨rest, hrest, rfl⟩ := Except.map_eq_ok_iff.1 h
          have hown : 2 ≤ own.length := hitem
          have := ih hlater hrest
          rw [List.length_cons, List.length_append]
          omega

end Item

namespace VarSpec

variable {refusesPairs lists : Bool} {v : VarSpec} {later : List VarSpec} {items rest : List Item}
  {value : Value}

/-- An exploded variable finds the pairs, the list or the single texts that come first. -/
theorem isFound_takeExploded (hexplode : v.explode = true) {item : Item}
    (hitem : item.HasShape lists) (hitems : ∀ other ∈ items, other.HasShape lists) :
    (item.takeExploded items).1.IsFound lists v := by
  obtain ⟨content, position⟩ := item
  have hlength : ∀ texts : List Text, v.explode = false → 2 ≤ texts.length := by
    intro texts hplain
    rw [hexplode] at hplain
    cases hplain
  cases content with
  | pair key member =>
      exact .assoc hexplode (List.cons_ne_nil _ _)
        (List.forall_mem_cons.2 ⟨hitem, Item.isFoundMember_of_mem_takePairs hitems⟩)
  | list texts => exact .texts (Value.ne_nil_of_two_le hitem) (hlength _)
  | text s => exact .texts (List.cons_ne_nil _ _) (hlength _)

/-- An item by itself is a text or a list. -/
theorem isFound_single? {item : Item} (hitem : item.HasShape lists)
    (h : item.single? = some value) : value.IsFound lists v := by
  obtain ⟨content, position⟩ := item
  cases content with
  | pair key member => cases h
  | list texts =>
      obtain rfl := Option.some.inj h
      exact .texts (Value.ne_nil_of_two_le hitem) fun _ => hitem
  | text s =>
      cases s with
      | nil => cases h
      | cons c s =>
          obtain rfl := Option.some.inj h
          exact .text (List.cons_ne_nil c s)

/-- Any other finds that of one item, or the texts of all that are left. -/
theorem isFound_takeSingle {item : Item} (hitem : item.HasShape lists)
    (hitems : ∀ other ∈ items, other.HasShape lists)
    (h : item.takeSingle refusesPairs v later items = .ok (some value, rest)) :
    value.IsFound lists v := by
  rw [Item.takeSingle] at h
  split at h
  · -- a pair is no value
    split at h
    · cases h
    · cases h
  · split at h
    · -- two items or more, each with a text
      next hmore =>
        obtain ⟨texts, habsorb, hvalue⟩ := Except.map_eq_ok_iff.1 h
        obtain ⟨rfl, -⟩ : Value.ofTexts texts = value ∧ _ := by simpa using hvalue
        have hlength := Item.length_le_of_absorb (List.forall_mem_cons.2 ⟨hitem, hitems⟩) habsorb
        have hne : items ≠ [] := by
          rintro rfl
          simp at hmore
        have := List.length_pos_iff.2 hne
        rw [List.length_cons] at hlength
        have htwo : 2 ≤ texts.length := by omega
        exact .texts (Value.ne_nil_of_two_le htwo) fun _ => htwo
    · obtain ⟨hvalue, -⟩ := Prod.mk.inj (Except.ok.inj h)
      exact isFound_single? hitem hvalue

/-- **ONE VARIABLE**: what a variable takes has one of its shapes. -/
theorem isFound_of_take (hitems : ∀ item ∈ items, item.HasShape lists)
    (h : v.take refusesPairs later items = .ok (some value, rest)) : value.IsFound lists v := by
  cases items with
  | nil => cases h
  | cons item items =>
      obtain ⟨hitem, hitems⟩ := List.forall_mem_cons.1 hitems
      rw [take] at h
      split at h
      · next hexplode =>
          obtain ⟨hvalue, -⟩ := Prod.mk.inj (Except.ok.inj h)
          obtain rfl := Option.some.inj hvalue
          exact isFound_takeExploded hexplode hitem hitems
      · exact isFound_takeSingle hitem hitems h

/-- **ALL VARIABLES**: so has what each of them takes, in turn. -/
theorem exists_isFound_of_takeAll {specs : List VarSpec} {found : Bindings} {name : Text}
    (hitems : ∀ item ∈ items, item.HasShape lists)
    (h : takeAll refusesPairs specs items = .ok found) (hmem : (name, some value) ∈ found) :
    ∃ v ∈ specs, v.name = name ∧ value.IsFound lists v := by
  induction specs generalizing items found with
  | nil =>
      cases items with
      | nil =>
          obtain rfl := Except.ok.inj h
          cases hmem
      | cons item items => cases h
  | cons v later ih =>
      rw [takeAll] at h
      · cases htake : v.take refusesPairs later items with
        | error e =>
            rw [htake] at h
            cases h
        | ok taken =>
            obtain ⟨first, rest⟩ := taken
            rw [htake] at h
            obtain ⟨others, hothers, rfl⟩ := Except.map_eq_ok_iff.1 h
            rcases List.mem_cons.1 hmem with heq | hmem
            · obtain ⟨rfl, hvalue⟩ := Prod.mk.inj heq
              cases first with
              | none => cases hvalue
              | some taken =>
                  have hfound := isFound_of_take hitems htake
                  obtain rfl : value = taken :=
                    Option.some.inj (hvalue.trans hfound.prune_eq)
                  exact ⟨v, List.mem_cons_self, rfl, hfound⟩
            · have hrest : ∀ item ∈ rest, item.HasShape lists := fun item hitem =>
                hitems item ((take_suffix htake).subset hitem)
              obtain ⟨w, hw, hname, hfound⟩ := ih hrest hothers hmem
              exact ⟨w, List.mem_cons_of_mem v hw, hname, hfound⟩

end VarSpec

/-! ## Parameters -/

namespace Finding

variable {ι : Type} {ds : List (Declared ι)} {ps : List Parameter} {f : Finding ι} {value : Value}

/-- What is found in the first round is the value of a parameter by itself. -/
theorem exists_single_of_mem_firstRound (hf : f ∈ (firstRound ds ps).1) :
    ∃ found : Option Parameter, f.value = found.bind Parameter.single? := by
  induction ds generalizing ps with
  | nil => cases hf
  | cons d ds ih =>
      rw [firstRound] at hf
      cases hexplode : d.spec.explode with
      | true =>
          rw [hexplode] at hf
          exact ih hf
      | false =>
          rw [hexplode] at hf
          rcases List.mem_cons.1 hf with rfl | hf
          · exact ⟨_, rfl⟩
          · exact ih hf

/-- A parameter by itself is a text or a list. -/
theorem isFound_of_single? {p : Parameter} (h : p.single? = some value) (v : VarSpec) :
    value.IsFound false v := by
  rw [Parameter.single?] at h
  split at h
  · cases h
  · cases h
  · next raw hne _ =>
      obtain rfl := Option.some.inj h
      rw [Value.ofRaw]
      split
      · next hlist =>
          have hlength : 2 ≤ ((raw.splitOn (.char ',')).map Percent.decode).length := by
            rw [List.length_map]
            exact two_le_length_splitOn hlist.2
          exact .texts (Value.ne_nil_of_two_le hlength) fun _ => hlength
      · exact .text (Percent.decode_ne_nil fun hnil => hne (by rw [hnil]))

/-- In the third round pairs are found, if anything is. -/
theorem isFound_of_mem_thirdRound (hf : f ∈ (thirdRound ds ps).1) (hvalue : f.value = some value)
    (hexplode : f.isExploded = true) : value.IsFound false f.declared.spec := by
  cases ds with
  | nil => cases hf
  | cons d ds =>
      rcases List.mem_cons.1 hf with rfl | hf
      · cases ps with
        | nil => cases hvalue
        | cons p ps =>
            obtain rfl := Option.some.inj hvalue
            exact .assoc hexplode (List.cons_ne_nil _ _)
              (List.forall_mem_map.2 fun q _ => .text q.text)
      · obtain ⟨d, -, rfl⟩ := List.mem_map.1 hf
        cases hvalue

/-- **ALL ROUNDS**: what a variable of a query finds has one of its shapes. -/
theorem isFound_of_mem_all (hf : f ∈ (all ds ps).1) (hvalue : f.value = some value) :
    value.IsFound false f.declared.spec := by
  rcases List.mem_append.1 hf with hf | hf
  · rcases List.mem_append.1 hf with hf | hf
    · obtain ⟨found, hfound⟩ := exists_single_of_mem_firstRound hf
      obtain ⟨p, -, hp⟩ := Option.bind_eq_some_iff.1 (hfound.symm.trans hvalue)
      exact isFound_of_single? hp _
    · have hexplode : f.isExploded = true :=
        isExploded_of_mem_laterRounds (List.mem_append_left _ hf)
      obtain ⟨own, hne, -, hown⟩ := exists_own_of_mem_secondRound hf
      obtain rfl := Option.some.inj (hown.symm.trans hvalue)
      refine .texts (mt List.map_eq_nil_iff.1 hne) ?_
      intro hplain
      rw [isExploded, hplain] at hexplode
      cases hexplode
  · exact isFound_of_mem_thirdRound hf hvalue
      (isExploded_of_mem_laterRounds (List.mem_append_right _ hf))

/-- What settles a name is a finding of the name. -/
theorem exists_mem_of_settle [DecidableEq ι] {findings : List (Finding ι)} {name : Text}
    (h : settle findings name = some value) :
    ∃ f ∈ findings, f.name = name ∧ f.value = some value := by
  rw [settle] at h
  split at h
  · cases h
  · next first more _ =>
      obtain ⟨f, hlast, hvalue⟩ := Option.bind_eq_some_iff.1 h
      have hf := (List.mem_filter.1 (List.mem_of_getLast? hlast)).1
      obtain ⟨hf, hname⟩ := List.mem_filter.1 hf
      exact ⟨f, hf, (of_decide_eq_true hname).1, hvalue⟩

end Finding

/-- So has what is bound to a name, for some variable of the name. -/
theorem Declared.exists_isFound_of_bind {ι : Type} [DecidableEq ι] {strict : Bool}
    {ds : List (Declared ι)} {ps : List Parameter} {bound : Bindings} {name : Text} {value : Value}
    (h : bind strict ds ps = .ok bound) (hmem : (name, some value) ∈ bound) :
    ∃ d ∈ ds, d.spec.name = name ∧ value.IsFound false d.spec := by
  rw [eq_of_bind h] at hmem
  obtain ⟨n, -, heq⟩ := List.mem_map.1 hmem
  obtain ⟨rfl, hvalue⟩ := Prod.mk.inj heq
  obtain ⟨found, hsettle, hprune⟩ := Option.bind_eq_some_iff.1 hvalue
  obtain ⟨f, hf, hname, hfound⟩ := Finding.exists_mem_of_settle hsettle
  have hshape := Finding.isFound_of_mem_all hf hfound
  obtain rfl : found = value := Option.some.inj (hshape.prune_eq.symm.trans hprune)
  exact ⟨f.declared,
    (Finding.perm_map_declared_all ds ps).subset (List.mem_map_of_mem hf), hname, hshape⟩

/-! ## Patterns and parts -/

/-- What is kept of a list of entries stood in it. -/
theorem OrderedMap.firsts_sublist {α : Type} {entries : List (Text × α)} :
    List.Sublist (firsts entries) entries := by
  induction entries with
  | nil => exact List.Sublist.slnil
  | cons e entries ih => exact (List.filter_sublist.trans ih).cons_cons e

namespace Pattern

/-- Can items be lists? -/
def hasLists : Pattern → Bool
  | items layout _ => layout.hasLists
  | query _ _ => false

/-- They can in a path, and nowhere else. -/
theorem hasLists_eq {p : Pattern} {e : Expression} (he : e ∈ p.expressions) :
    p.hasLists = decide (e.operator = .pathSegment) := by
  cases p with
  | items layout specs =>
      obtain rfl := List.mem_singleton.1 he
      cases layout <;> rfl
  | query lead groups =>
      cases groups with
      | nil => cases he
      | cons specs groups =>
          rcases List.mem_cons.1 he with rfl | he
          · cases lead <;> rfl
          · obtain ⟨specs, -, rfl⟩ := List.mem_map.1 he
            rfl

/-- **ONE PATTERN**: what a pattern binds to a name has a shape of one of its variables. -/
theorem exists_isFound_of_bind {strict : Bool} {p : Pattern} {stretch : Text} {start : Nat}
    {bound : Bindings} {name : Text} {value : Value}
    (h : p.bind strict stretch start = .ok bound) (hmem : (name, some value) ∈ bound) :
    ∃ v ∈ p.specs, v.name = name ∧ value.IsFound p.hasLists v := by
  cases p with
  | items layout specs =>
      rw [bind] at h
      cases hread : Item.read layout stretch start with
      | error e =>
          rw [hread] at h
          cases h
      | ok items =>
          rw [hread] at h
          obtain ⟨found, hfound, rfl⟩ := Except.map_eq_ok_iff.1 h
          exact VarSpec.exists_isFound_of_takeAll (Item.hasShape_of_read hread) hfound
            (OrderedMap.firsts_sublist.subset hmem)
  | query lead groups =>
      cases stretch with
      | nil =>
          obtain rfl := Except.ok.inj h
          obtain ⟨n, -, heq⟩ := List.mem_map.1 hmem
          cases heq
      | cons c parameters =>
          rw [bind, Query.bind] at h
          cases hread : Query.read parameters (start + 1) with
          | error e =>
              rw [hread] at h
              cases h
          | ok ps =>
              rw [hread] at h
              obtain ⟨d, hd, hname, hfound⟩ := Declared.exists_isFound_of_bind h hmem
              refine ⟨d.spec, ?_, hname, hfound⟩
              rw [specs, ← Declared.map_spec_ofGroups groups]
              exact List.mem_map_of_mem hd

end Pattern

namespace Matching

/-- **ALL PARTS**: so has what a search comes to. -/
theorem exists_isFound_of_solve {strict : Bool} {parts : List Part} {start : Nat} {url : Text}
    {found : Bindings} {name : Text} {value : Value}
    (h : solve strict parts start url = .ok found)
    (hvalue : (OrderedMap.get? found name).join = some value) :
    ∃ p, .pattern p ∈ parts ∧ ∃ v ∈ p.specs, v.name = name ∧ value.IsFound p.hasLists v := by
  induction parts generalizing start url found with
  | nil =>
      cases url with
      | nil =>
          obtain rfl := Except.ok.inj h
          cases hvalue
      | cons c url => cases h
  | cons part later ih =>
      cases part with
      | literal text =>
          rw [solve] at h
          cases hrest : text.isPrefixOf? url with
          | none =>
              rw [hrest] at h
              cases h
          | some rest =>
              rw [hrest] at h
              obtain ⟨p, hp, hfound⟩ := ih h hvalue
              exact ⟨p, List.mem_cons_of_mem _ hp, hfound⟩
      | pattern p =>
          rw [solve_pattern] at h
          obtain ⟨-, cut, -, -, -, hcut⟩ := exists_of_firstSuccess h
          obtain ⟨bound, rest, hbound, hrest, rfl⟩ := solveCut_eq_ok_iff.1 hcut
          rw [Bindings.join_get?_fill] at hvalue
          cases hown : (OrderedMap.get? bound name).join with
          | some own =>
              rw [hown] at hvalue
              obtain rfl := Option.some.inj hvalue
              have hmem := OrderedMap.mem_of_get? (Option.join_eq_some_iff.1 hown)
              exact ⟨p, List.mem_cons_self, Pattern.exists_isFound_of_bind hbound hmem⟩
          | none =>
              rw [hown] at hvalue
              obtain ⟨q, hq, hfound⟩ := ih hrest hvalue
              exact ⟨q, List.mem_cons_of_mem _ hq, hfound⟩

end Matching

namespace Template

/-- **ORIGIN**: what a URL gives a name is what some variable of the name can find. -/
theorem exists_isFound_of_matchUrl {t : Template} {url : Text} {result : MatchResult}
    (h : (t.matchUrl url).value = .ok result) {name : Text} {value : Value}
    (hvalue : result.value? name = some value) :
    ∃ e ∈ t.expressions, ∃ v ∈ e.specs, v.name = name ∧
      value.IsFound (decide (e.operator = .pathSegment)) v := by
  obtain ⟨parts, hparts, hsolve⟩ := Matching.exists_solve_of_matchUrl h
  obtain ⟨p, hp, v, hv, hname, hfound⟩ := Matching.exists_isFound_of_solve hsolve hvalue
  obtain ⟨e, he, hv, hmem⟩ := exists_expression_of_parts hparts hp hv
  rw [Pattern.hasLists_eq he] at hfound
  exact ⟨e, hmem, v, hv, hname, hfound⟩

/-- Is the value well formed, as one that a URL gave to this name? -/
structure IsWellFormedValue (t : Template) (name : Text) (value : Value) : Prop where
  regular : value.IsRegular
  defined : value.isUndefined = false
  /-- Pruning finds nothing to drop. -/
  pruned : value.prune = some value
  /-- Pairs are for exploded variables. -/
  pairs : ∀ pairs, value = .assoc pairs →
    ∃ e ∈ t.expressions, ∃ v ∈ e.specs, v.name = name ∧ v.explode = true
  /-- Lists under their keys are for exploded variables of a path. -/
  members : ∀ pairs, value = .assoc pairs → ∀ p ∈ pairs, ∀ items, p.2 = .list items →
    ∃ e ∈ t.expressions, e.operator = .pathSegment ∧ ∃ v ∈ e.specs, v.name = name ∧ v.explode = true
  /-- One item by itself is for exploded variables. -/
  items : (∀ e ∈ t.expressions, ∀ v ∈ e.specs, v.name = name → v.explode = false) →
    ∀ items, value = .list items → 2 ≤ items.length

/-- **SHAPES**: every value of a result is well formed. -/
theorem wellFormed_of_matchUrl {t : Template} {url : Text} {result : MatchResult}
    (h : (t.matchUrl url).value = .ok result) {name : Text} {value : Value}
    (hvalue : result.value? name = some value) : t.IsWellFormedValue name value := by
  obtain ⟨e, he, v, hv, hname, hfound⟩ := exists_isFound_of_matchUrl h hvalue
  exact {
    regular := hfound.isRegular
    defined := (Value.prune_eq_some hfound.prune_eq).1
    pruned := hfound.prune_eq
    pairs := by
      rintro pairs rfl
      cases hfound with
      | assoc hexplode _ _ => exact ⟨e, he, v, hv, hname, hexplode⟩
    members := by
      rintro pairs rfl p hp items hitems
      cases hfound with
      | assoc hexplode _ hmembers =>
          have hmember := hmembers p hp
          rw [hitems] at hmember
          cases hmember with
          | texts hlists _ => exact ⟨e, he, of_decide_eq_true hlists, v, hv, hname, hexplode⟩
    items := by
      rintro hplain items rfl
      cases hfound with
      | texts _ hlength =>
          rw [List.length_map]
          exact hlength (hplain e he v hv hname) }

/-- A list under a key, a text under another, and texts, in one path. -/
theorem wellFormed_of_matchUrl_path :
    let a : VarSpec := ⟨"a".toText, true, none⟩
    let b : VarSpec := ⟨"b".toText, false, none⟩
    let t : Template :=
      .mk "\x7b/a*,b\x7d".toText [.expression ⟨.pathSegment, [a, b]⟩] ⟨true, false⟩
    let pairs : Value := .assoc [("k".toText, .ofTexts ["1".toText, []]), ("l".toText, .ofText [])]
    let result : MatchResult :=
      ⟨[("a".toText, some pairs), ("b".toText, some (.ofTexts ["x".toText, "y".toText]))]⟩
    (t.matchUrl "/k=1,/l=/x/y".toText).value = .ok result ∧
      t.IsWellFormedValue "a".toText pairs ∧
      t.IsWellFormedValue "b".toText (.ofTexts ["x".toText, "y".toText]) := by
  intro a b t pairs result
  have h : (t.matchUrl "/k=1,/l=/x/y".toText).value = .ok result :=
    (Matching.matchUrl_value "/k=1,/l=/x/y".toText rfl).trans (by cbv)
  exact ⟨h, wellFormed_of_matchUrl h rfl, wellFormed_of_matchUrl h rfl⟩

end Template

end UriTemplate
