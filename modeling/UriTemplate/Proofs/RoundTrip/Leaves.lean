import UriTemplate.Proofs.Matching.Shares
import UriTemplate.Proofs.RoundTrip.Contributions

/-! # Leaves — what was read, written again

    A simple or path expression writes the leaves of a value: an exploded variable one
    by one, any other with commas between them (`VarSpec.parts_of_explode_eq`,
    `VarSpec.parts_of_not_explode`).  So what the variables write for their shares of
    the items is a matter of the leaves of the items.

    * `ItemContent.Spells` — a raw text that is read as an item and written for it;
      encoded texts with commas between them are such texts, alone or behind a key
      (`ItemContent.exists_spells_segment`);
    * `Share.IsFair.parts_eq` — what a variable writes for its share (`Share.written`);
    * `commaJoined_flatMap_written` — and between commas it does not matter which share
      a leaf is in. -/

namespace UriTemplate

/-! ## Leaves as texts -/

/-- A leaf as a simple or path expression writes it. -/
def Leaf.text : Leaf → Text
  | single v => v.encoded .unreserved
  | pair key member => Percent.encode .unreserved key ++ .char '=' :: member.encoded .unreserved

namespace Value

/-- The leaves of a value as they are written. -/
def texts (v : Value) : List Text := v.leaves.map Leaf.text

theorem encodedItems_eq_texts (items : List Value) :
    encodedItems .unreserved items = (list items).texts := by
  induction items with
  | nil => rfl
  | cons v items ih =>
      rw [encodedItems, ih]
      rfl

theorem texts_ofTexts (texts : List Text) :
    (ofTexts texts).texts = texts.map (Percent.encode .unreserved) := by
  rw [Value.texts, leaves_ofTexts, List.map_map]
  rfl

theorem encoded_ofTexts (texts : List Text) :
    (ofTexts texts).encoded .unreserved = commaJoined (texts.map (Percent.encode .unreserved)) := by
  rw [ofTexts, encoded, encodedItems_eq_texts, ← texts_ofTexts]
  rfl

/-- Encoded texts with commas between them are read as a member that is written so. -/
theorem encoded_ofRaw_commaJoined {texts : List Text} (hwell : ∀ s ∈ texts, s.IsWellFormed) :
    (ofRaw true (commaJoined (texts.map (Percent.encode .unreserved)))).encoded .unreserved
      = commaJoined (texts.map (Percent.encode .unreserved)) := by
  match texts, hwell with
  | [], _ => rfl
  | [s], hwell =>
      rw [List.map_singleton, commaJoined, List.intercalate_singleton,
        ofRaw_encode _ (List.forall_mem_singleton.1 hwell)]
      rfl
  | s :: t :: texts, hwell =>
      rw [ofRaw_commaJoined (by simp) hwell, encoded_ofTexts]

end Value

namespace VarSpec

variable {v : VarSpec} {style : Style}

/-- An exploded variable writes the leaves of its value. -/
theorem parts_of_explode_eq (hescaping : style.escaping = .unreserved)
    (hnaming : style.naming = .values) (hlength : v.maxLength = none) (hexplode : v.explode = true)
    (value : Value) : v.parts style value = value.texts := by
  have hpart : style.part v.name = id := funext (Style.part_values hnaming v.name)
  unfold parts
  rw [hescaping]
  cases value with
  | scalar s =>
      dsimp only
      rw [hlength, hpart]
      rfl
  | list items =>
      dsimp only
      rw [if_pos hexplode, hpart, List.map_id, Value.encodedItems_eq_texts]
  | assoc pairs =>
      dsimp only
      rw [if_pos hexplode, Value.texts, Value.leaves, List.map_map]
      exact List.map_congr_left fun p _ => Style.nameValue_values hnaming _ _

/-- Any other writes them with commas between, unless they are pairs. -/
theorem parts_of_not_explode (hescaping : style.escaping = .unreserved)
    (hnaming : style.naming = .values) (hlength : v.maxLength = none) (hexplode : v.explode = false)
    {value : Value} (hpairs : ∀ pairs, value ≠ .assoc pairs) :
    v.parts style value = [commaJoined value.texts] := by
  have hpart : style.part v.name = id := funext (Style.part_values hnaming v.name)
  unfold parts
  rw [hescaping]
  cases value with
  | scalar s =>
      dsimp only
      rw [hlength, hpart]
      exact congrArg (fun text => [text]) List.intercalate_singleton.symm
  | list items =>
      dsimp only
      rw [hexplode, if_neg Bool.false_ne_true, hpart, Value.encodedItems_eq_texts]
      rfl
  | assoc pairs => exact absurd rfl (hpairs pairs)

end VarSpec

/-! ## Raw texts -/

namespace ItemContent

/-- The leaves of an item as they are written. -/
def texts (content : ItemContent) : List Text := content.leaves.map Leaf.text

/-- Texts with commas between? -/
def IsList : ItemContent → Prop
  | list _ => True
  | _ => False

instance : DecidablePred IsList
  | text _ => isFalse id
  | list _ => isTrue trivial
  | pair _ _ => isFalse id

/-- Only a list can have more leaves than one. -/
theorem exists_texts_eq {content : ItemContent} (h : ¬ content.IsList) :
    ∃ text, content.texts = [text] := by
  cases content with
  | list texts => exact absurd trivial h
  | text s | pair key member => exact ⟨_, rfl⟩

/-- Only a pair has a pair among its leaves. -/
theorem isPair_of_mem_leaves {content : ItemContent} {key : Text} {member : Value}
    (h : .pair key member ∈ content.leaves) : content.IsPair := by
  cases content with
  | text s =>
      rw [leaves, List.mem_singleton] at h
      cases h
  | list texts =>
      obtain ⟨s, -, hs⟩ := List.mem_map.1 h
      cases hs
  | pair key member => trivial

/-- Is the raw text read as the content, and the content written so? -/
structure Spells (lists : Bool) (raw : Text) (content : ItemContent) : Prop where
  read : ofRaw lists raw = .ok content
  joined : commaJoined content.texts = raw
  of_isList : content.IsList → lists = true ∧ 2 ≤ content.texts.length

theorem spells_text (lists : Bool) {s : Text} (hwell : s.IsWellFormed) :
    Spells lists (Percent.encode .unreserved s) (.text s) where
  read := ofRaw_encode lists hwell
  joined := List.intercalate_singleton
  of_isList := False.elim

theorem spells_list {texts : List Text} (hlength : 2 ≤ texts.length)
    (hwell : ∀ s ∈ texts, s.IsWellFormed) :
    Spells true (commaJoined (texts.map (Percent.encode .unreserved))) (.list texts) where
  read := ofRaw_commaJoined hlength hwell
  joined := congrArg commaJoined (List.map_map)
  of_isList _ := by
    refine ⟨rfl, ?_⟩
    rw [ItemContent.texts, leaves, List.length_map, List.length_map]
    exact hlength

theorem spells_pair (lists : Bool) {key member : Text} (hwell : key.IsWellFormed)
    (hmember : ∀ c ∈ member, isListed c = true)
    (hencoded : (Value.ofRaw lists member).encoded .unreserved = member) :
    Spells lists (Percent.encode .unreserved key ++ .char '=' :: member)
      (.pair key (Value.ofRaw lists member)) where
  read := by
    rw [ofRaw_pair lists (Percent.isPlain_of_mem_encode key) hmember,
      Percent.decode_encode _ hwell]
  joined := by
    refine List.intercalate_singleton.trans ?_
    show Percent.encode .unreserved key ++ .char '=' :: _ = _
    rw [hencoded]
  of_isList := False.elim

/-- Is the text an encoded text, alone or behind an encoded key?  Neither has a surrogate. -/
def IsEncodedItem (raw : Text) : Prop :=
  (∃ s : Text, s.IsWellFormed ∧ raw = Percent.encode .unreserved s) ∨
    ∃ key s : Text, key.IsWellFormed ∧ s.IsWellFormed ∧
      raw = Percent.encode .unreserved key ++ .char '=' :: Percent.encode .unreserved s

/-- Is the text a row of encoded texts with commas between them, alone or behind an encoded key?
    None has a surrogate. -/
def IsEncodedSegment (raw : Text) : Prop :=
  (∃ texts : List Text, (∀ s ∈ texts, s.IsWellFormed) ∧
    raw = commaJoined (texts.map (Percent.encode .unreserved))) ∨
  ∃ (key : Text) (texts : List Text), key.IsWellFormed ∧ (∀ s ∈ texts, s.IsWellFormed) ∧
    raw = Percent.encode .unreserved key ++
      .char '=' :: commaJoined (texts.map (Percent.encode .unreserved))

theorem exists_spells_item {raw : Text} (h : IsEncodedItem raw) :
    ∃ content, Spells false raw content := by
  rcases h with ⟨s, hs, rfl⟩ | ⟨key, s, hkey, hs, rfl⟩
  · exact ⟨_, spells_text false hs⟩
  · refine ⟨_, spells_pair false hkey (Percent.isListed_of_mem_encode s) ?_⟩
    rw [Value.ofRaw_encode _ hs]
    rfl

theorem exists_spells_segment {raw : Text} (h : IsEncodedSegment raw) :
    ∃ content, Spells true raw content := by
  rcases h with ⟨texts, htexts, rfl⟩ | ⟨key, texts, hkey, htexts, rfl⟩
  · match texts, htexts with
    | [], _ => exact ⟨_, spells_text true (s := []) nofun⟩
    | [s], htexts =>
        rw [List.map_singleton, commaJoined, List.intercalate_singleton]
        exact ⟨_, spells_text true (List.forall_mem_singleton.1 htexts)⟩
    | s :: t :: texts, htexts => exact ⟨_, spells_list (by simp) htexts⟩
  · refine ⟨_, spells_pair true hkey ?_ (Value.encoded_ofRaw_commaJoined htexts)⟩
    exact forall_mem_intercalate rfl
      (List.forall_mem_map.2 fun s _ => Percent.isListed_of_mem_encode s)

/-- No comma is an item's own. -/
theorem comma_not_mem_item {raw : Text} (h : IsEncodedItem raw) : .char ',' ∉ raw := by
  have hplain : ∀ s, .char ',' ∉ Percent.encode .unreserved s :=
    fun s => not_mem_of_forall (Percent.isPlain_of_mem_encode s) rfl
  rcases h with ⟨s, -, rfl⟩ | ⟨key, s, -, -, rfl⟩
  · exact hplain s
  · exact not_mem_joined (by decide) (hplain key) (hplain s)

/-- No slash is a segment's own. -/
theorem slash_not_mem_segment {raw : Text} (h : IsEncodedSegment raw) : .char '/' ∉ raw := by
  have hlisted : ∀ texts : List Text,
      .char '/' ∉ commaJoined (texts.map (Percent.encode .unreserved)) := by
    intro texts
    refine not_mem_of_forall (forall_mem_intercalate (q := isListed) rfl ?_) rfl
    exact List.forall_mem_map.2 fun s _ => Percent.isListed_of_mem_encode s
  rcases h with ⟨texts, -, rfl⟩ | ⟨key, texts, -, -, rfl⟩
  · exact hlisted texts
  · exact not_mem_joined (by decide)
      (not_mem_of_forall (Percent.isPlain_of_mem_encode key) rfl) (hlisted texts)

end ItemContent

/-! ## Items -/

namespace Item

/-- The leaves of an item as they are written. -/
def texts (item : Item) : List Text := item.content.texts

/-- An item as it is written by itself. -/
def raw (item : Item) : Text := commaJoined item.texts

/-- Without lists each item is one text. -/
theorem flatMap_texts_eq {items : List Item} (h : ∀ item ∈ items, ¬ item.content.IsList) :
    items.flatMap texts = items.map raw := by
  have hsingle : ∀ item ∈ items, item.texts = [item.raw] := by
    intro item hitem
    obtain ⟨text, htext⟩ := ItemContent.exists_texts_eq (h item hitem)
    rw [raw, texts, htext, commaJoined, List.intercalate_singleton]
  rw [List.flatMap_congr hsingle]
  exact List.map_eq_flatMap.symm

/-- **READING**: a row of texts that spell items is read as items that are written so. -/
theorem exists_read_of_spells (layout : ItemLayout) {row : List Text} (hne : row ≠ [])
    (hcommas : layout = .commas → [] ∉ row) (hsep : ∀ text ∈ row, layout.separator ∉ text)
    (h : ∀ text ∈ row, ∃ content, ItemContent.Spells layout.hasLists text content) (offset : Int) :
    ∃ items, read layout (lead layout ++ List.intercalate [layout.separator] row) offset
        = .ok items ∧ items.map raw = row ∧
      ∀ item ∈ items, item.content.IsList → layout.hasLists = true ∧ 2 ≤ item.texts.length := by
  obtain ⟨contents, hall⟩ := ItemContent.exists_row h
  obtain ⟨items, hread, rfl | ⟨hlayout, -, hnil⟩⟩ :=
    exists_read hne hsep (hall.imp fun _ _ hspells => hspells.read) offset
  · have hitems : List.Forall₂ (fun (item : Item) text => (item.content.IsList →
        layout.hasLists = true ∧ 2 ≤ item.texts.length) ∧ item.raw = text) items row :=
      (List.forall₂_map_right_iff.1 hall).flip.imp
        fun _ _ hspells => ⟨hspells.of_isList, hspells.joined⟩
    obtain ⟨hlists, hraw⟩ := (List.forall₂_and_left _ _).1 hitems
    refine ⟨items, hread, ?_, hlists⟩
    rwa [← List.forall₂_map_left_iff, List.forall₂_eq_eq_eq] at hraw
  · -- only a single empty text is written as nothing
    refine absurd ?_ (hcommas hlayout)
    rw [Pattern.eq_singleton_of_intercalate_eq_nil hne hnil]
    exact List.mem_singleton_self []

end Item

/-! ## Shares -/

namespace Share

/-- The leaves of the items that count, as they are written. -/
def texts (s : Share) : List Text := s.counted.flatMap Item.texts

/-- What the variable writes: if it is exploded all texts, else one for all of them. -/
def written (s : Share) : List Text :=
  if s.spec.explode = true ∨ s.texts = [] then s.texts else [commaJoined s.texts]

theorem written_of_explode {s : Share} (h : s.spec.explode = true) : s.written = s.texts :=
  if_pos (Or.inl h)

theorem written_of_texts_eq_nil {s : Share} (h : s.texts = []) : s.written = [] := by
  rw [written, if_pos (Or.inr h), h]

theorem written_of_not_explode {s : Share} (h : s.spec.explode = false) (hne : s.texts ≠ []) :
    s.written = [commaJoined s.texts] :=
  if_neg (not_or.2 ⟨Bool.eq_false_iff.1 h, hne⟩)

/-- An empty text by itself is all that may not count. -/
theorem counted_eq_or (s : Share) :
    s.counted = s.items ∨
      s.counted = [] ∧ s.spec.explode = false ∧ s.items.map Item.raw = [[]] := by
  rw [counted]
  split
  · next position hexplode hitems =>
      right
      rw [hitems]
      exact ⟨rfl, hexplode, rfl⟩
  · exact Or.inl rfl

/-- Only items of the share count. -/
theorem counted_subset (s : Share) : ∀ item ∈ s.counted, item ∈ s.items := by
  rcases s.counted_eq_or with heq | ⟨heq, -⟩
  · rw [heq]
    exact fun _ h => h
  · rw [heq]
    exact nofun

variable {s : Share} {style : Style}

/-- A value has an item that counts, and that has a leaf. -/
theorem IsFair.exists_leaf (h : s.IsFair) (hitems : Item.AreDefined s.items)
    (hvalue : s.value ≠ none) : ∃ item ∈ s.items, ∃ leaf ∈ item.leaves, leaf ∈ s.leaves := by
  obtain ⟨item, hitem⟩ := List.exists_mem_of_ne_nil s.counted (mt h.value_eq_none_iff.2 hvalue)
  have hmem := s.counted_subset item hitem
  obtain ⟨leaf, hleaf⟩ := List.exists_mem_of_ne_nil item.leaves (hitems item hmem).1
  refine ⟨item, hmem, leaf, hleaf, ?_⟩
  rw [h.leaves_eq]
  exact List.mem_flatMap.2 ⟨item, hitem, hleaf⟩

/-- All that is in the value of a share is defined. -/
theorem IsFair.bind_prune (h : s.IsFair) (hitems : Item.AreDefined s.items) :
    s.value.bind Value.prune = s.value := by
  cases hvalue : s.value with
  | none => rfl
  | some value =>
      have hleaves : value.leaves = s.leaves := by
        rw [leaves, hvalue]
        rfl
      obtain ⟨-, -, leaf, -, hleaf⟩ := h.exists_leaf hitems (hvalue ▸ Option.some_ne_none value)
      refine Value.prune_of_leaves ?_ fun leaf hleaf => ?_
      · rw [hleaves]
        exact List.ne_nil_of_mem hleaf
      · rw [hleaves, h.leaves_eq] at hleaf
        obtain ⟨item, hitem, hleaf⟩ := List.mem_flatMap.1 hleaf
        exact (hitems item (s.counted_subset item hitem)).2 leaf hleaf

/-- **WRITING**: what the variable of a fair share writes for the value. -/
theorem IsFair.parts_eq (h : s.IsFair) (hitems : Item.AreDefined s.items)
    (hescaping : style.escaping = .unreserved) (hnaming : style.naming = .values)
    (hlength : s.spec.maxLength = none) : s.value.elim [] (s.spec.parts style) = s.written := by
  have htexts : s.leaves.map Leaf.text = s.texts := by
    rw [h.leaves_eq, List.map_flatMap]
    rfl
  cases hvalue : s.value with
  | none =>
      rw [leaves, hvalue] at htexts
      rw [written_of_texts_eq_nil htexts.symm]
      rfl
  | some value =>
      obtain ⟨item, hitem, leaf, hleaf, hmem⟩ :=
        h.exists_leaf hitems (hvalue ▸ Option.some_ne_none value)
      have hne : s.texts ≠ [] := by
        rw [← htexts]
        exact List.ne_nil_of_mem (List.mem_map_of_mem hmem)
      rw [leaves, hvalue] at htexts hmem
      have htexts : value.texts = s.texts := htexts
      show s.spec.parts style value = s.written
      cases hexplode : s.spec.explode with
      | true =>
          rw [VarSpec.parts_of_explode_eq hescaping hnaming hlength hexplode, htexts,
            written_of_explode hexplode]
      | false =>
          have hpairs : ∀ pairs, value ≠ .assoc pairs := by
            rintro pairs rfl
            obtain ⟨p, -, rfl⟩ := List.mem_map.1 hmem
            have hpair := ItemContent.isPair_of_mem_leaves hleaf
            exact Bool.eq_false_iff.1 hexplode (h.of_isPair item hitem hpair).1
          rw [VarSpec.parts_of_not_explode hescaping hnaming hlength hexplode hpairs, htexts,
            written_of_not_explode hexplode hne]

/-- Between commas it does not matter whether the texts are written as one. -/
theorem flatMap_written (s : Share) :
    s.written.flatMap (.char ',' :: ·) = s.texts.flatMap (.char ',' :: ·) := by
  rw [written]
  split
  · rfl
  · next hne =>
      rw [List.flatMap_singleton, commaJoined]
      exact (flatMap_cons_eq ',' fun hnil => hne (Or.inr hnil)).symm

end Share

theorem eq_nil_of_flatMap_cons {texts : List Text} (h : texts.flatMap (.char ',' :: ·) = []) :
    texts = [] := by
  cases texts with
  | nil => rfl
  | cons s texts => cases h

/-- Texts that are the same with a comma before each are the same with commas between them. -/
theorem commaJoined_congr {row other : List Text}
    (h : row.flatMap (.char ',' :: ·) = other.flatMap (.char ',' :: ·)) :
    commaJoined row = commaJoined other := by
  by_cases hrow : row = []
  · subst hrow
    rw [eq_nil_of_flatMap_cons h.symm]
  · have hother : other ≠ [] := by
      rintro rfl
      exact hrow (eq_nil_of_flatMap_cons h)
    rw [flatMap_cons_eq ',' hrow, flatMap_cons_eq ',' hother] at h
    exact (List.cons.inj h).2

/-- Between commas it does not matter which share a leaf is in. -/
theorem commaJoined_flatMap_written (shares : List Share) :
    commaJoined (shares.flatMap Share.written) = commaJoined (shares.flatMap Share.texts) := by
  refine commaJoined_congr ?_
  rw [List.flatMap_assoc, List.flatMap_assoc]
  exact List.flatMap_congr fun s _ => s.flatMap_written

end UriTemplate
