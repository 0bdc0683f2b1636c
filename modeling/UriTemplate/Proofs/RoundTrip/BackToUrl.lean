import UriTemplate.Proofs.Matching.Names
import UriTemplate.Proofs.RoundTrip.Leaves

/-! # Back to the URL — expanding what was matched

    A single simple or path expression that matches a URL can be expanded with the
    values that it was bound to.  It writes for every variable what that has in its
    share (`Template.render_of_matchUrl`), so the question is whether that is the share
    itself.  Between commas it always is.  Between slashes it is not when the variable
    has regrouped its share: a list of an exploded variable is taken apart, and several
    segments of any other are put together, or left out if empty (`Share.KeepsLayout`).

    The items are encoded texts without surrogates, since no other text is encoded again
    as it was.

    * **`Template.render_matchUrl_simple`** — a simple expression writes the URL again;
    * `Share.keepsLayout_of_written_eq` — what is written is the items only if all
      variables keep the layout of their shares;
    * **`Template.render_matchUrl_path_iff`** — so a path expression writes the URL again
      if and only if they do. -/

namespace UriTemplate

/-! ## Results as data -/

namespace MatchResult

/-- A result as data for an expansion: the values as they are, and null where there is none. -/
def environment (r : MatchResult) : Environment :=
  r.bindings.map fun e => (e.1, e.2.elim (.scalar .null) (.value ·))

/-- A variable stands for the value that it was bound to. -/
theorem value?_environment (r : MatchResult) (keywordLists : Bool) (name : Text) :
    r.environment.value? keywordLists name = (r.value? name).bind Value.prune := by
  have hcoerce : ∀ value : Option Value,
      Datum.coerce keywordLists (value.elim (.scalar .null) (.value ·)) = value := by
    intro value
    cases value <;> rfl
  have hget := OrderedMap.get?_map (fun _ (value : Option Value) =>
    value.elim (Datum.scalar .null) (.value ·)) r.bindings name
  rw [Environment.value?, environment, hget, value?]
  cases OrderedMap.get? r.bindings name with
  | none => rfl
  | some value => exact congrArg (Option.bind · Value.prune) (hcoerce value)

end MatchResult

/-- Where names are distinct, every entry is read under its name. -/
theorem OrderedMap.get?_of_mem {α : Type} {m : OrderedMap α} (h : (keys m).Nodup) {e : Text × α}
    (he : e ∈ m) : get? m e.1 = some e.2 := by
  induction m with
  | nil => exact absurd he List.not_mem_nil
  | cons f m ih =>
      obtain ⟨hf, hm⟩ := List.nodup_cons.1 h
      rw [get?]
      rcases List.mem_cons.1 he with rfl | he
      · rw [if_pos rfl]
      · rw [if_neg, ih hm he]
        intro heq
        refine hf ?_
        show f.1 ∈ keys m
        rw [heq]
        exact List.mem_map_of_mem he

/-! ## One expression -/

namespace Share.IsDealt

variable {specs : List VarSpec} {items left : List Item} {shares : List Share}

theorem mem_items (h : IsDealt specs items shares left) {s : Share} (hs : s ∈ shares) {item : Item}
    (hitem : item ∈ s.items) : item ∈ items := by
  rw [← h.items_eq]
  exact List.mem_append_left left (List.mem_flatMap.2 ⟨s, hs, hitem⟩)

/-- Every variable has an entry. -/
theorem keys_eq (h : IsDealt specs items shares left) :
    OrderedMap.keys (shares.map binding) = specs.map VarSpec.name := by
  rw [← h.specs_eq, OrderedMap.keys, List.map_map, List.map_map]
  rfl

/-- With the values of the shares, the variables write what they have in their shares. -/
theorem row_eq {layout : ItemLayout} {r : MatchResult} (h : IsDealt specs items shares left)
    (hitems : Item.AreDefined items) (hbindings : r.bindings = shares.map binding)
    (hnames : (specs.map VarSpec.name).Nodup) (hlength : ∀ v ∈ specs, v.maxLength = none)
    (keywordLists : Bool) :
    (Pattern.items layout specs).row keywordLists r.environment = shares.flatMap written := by
  have hdefined : ∀ s ∈ shares, Item.AreDefined s.items :=
    fun s hs item hitem => hitems item (h.mem_items hs hitem)
  have hkeys : (OrderedMap.keys r.bindings).Nodup := by
    rw [hbindings, h.keys_eq]
    exact hnames
  have hvalue : ∀ s ∈ shares, r.environment.value? keywordLists s.spec.name = s.value := by
    intro s hs
    have hget : OrderedMap.get? r.bindings s.spec.name = some s.value :=
      OrderedMap.get?_of_mem (e := s.binding) hkeys (hbindings ▸ List.mem_map_of_mem hs)
    rw [MatchResult.value?_environment, MatchResult.value?, hget]
    exact (h.isFair s hs).bind_prune (hdefined s hs)
  rw [Pattern.row, Pattern.expressions, List.flatMap_singleton, Expression.parts, ← h.specs_eq,
    List.flatMap_map]
  refine List.flatMap_congr fun s hs => ?_
  have hspec : s.spec ∈ specs := by
    rw [← h.specs_eq]
    exact List.mem_map_of_mem hs
  have hparts : s.value.elim [] (s.spec.parts layout.operator.style) = s.written :=
    (h.isFair s hs).parts_eq (hdefined s hs) (by cases layout <;> rfl) (by cases layout <;> rfl)
      (hlength s.spec hspec)
  rw [hvalue s hs, ← hparts]
  cases s.value <;> rfl

end Share.IsDealt

/-- A pattern by itself that matches has bound all of the URL. -/
theorem Matching.bind_of_solve_singleton {strict : Bool} {p : Pattern} {url : Text}
    {found : Bindings} (h : solve strict [.pattern p] 0 url = .ok found) :
    p.bind strict url 0 = .ok found := by
  rw [solve_pattern] at h
  have hcut : solveCut strict p [] 0 url (p.farthest url) = .ok found := h
  obtain ⟨bound, rest, hbound, hrest, rfl⟩ := solveCut_eq_ok_iff.1 hcut
  have hend : url.drop (p.reach url) = [] ∧ rest = [] := by
    rw [solve, Pattern.farthest] at hrest
    dsimp only at hrest
    cases hdrop : url.drop (p.reach url) with
    | nil =>
        rw [hdrop] at hrest
        exact ⟨rfl, (Except.ok.inj hrest).symm⟩
    | cons c url =>
        rw [hdrop] at hrest
        cases hrest
  have hall : url.take (p.farthest url).length = url := by
    have happend := List.take_append_drop (p.reach url) url
    rwa [hend.1, List.append_nil] at happend
  rw [hall] at hbound
  rw [hbound, hend.2, Bindings.fill_nil]

namespace Template

variable {t : Template} {specs : List VarSpec} {url : Text} {r : MatchResult}

section

variable (layout : ItemLayout)
  (hsegments : t.segments = [.expression ⟨layout.operator, specs⟩])
  (hnames : (specs.map VarSpec.name).Nodup)

include hsegments

theorem parts_of_segments : t.parts = .ok [.pattern (.items layout specs)] := by
  rw [parts, hsegments]
  cases layout <;> rfl

include hnames

/-- **SHARES**: where a single expression matches, the items of the URL are dealt out to its
    variables, and nothing is left. -/
theorem exists_shares_of_matchUrl (hmatch : (t.matchUrl url).value = .ok r) :
    ∃ items shares, Item.read layout url 0 = .ok items ∧
      Share.deal (layout = .commas) specs items = .ok (shares, []) ∧
      Share.IsDealt specs items shares [] ∧ r.bindings = shares.map Share.binding := by
  obtain ⟨parts, hparts, hsolve⟩ := Matching.exists_solve_of_matchUrl hmatch
  rw [parts_of_segments layout hsegments] at hparts
  obtain rfl := Except.ok.inj hparts
  have hbind := Matching.bind_of_solve_singleton hsolve
  rw [Pattern.bind] at hbind
  cases hread : Item.read layout url 0 with
  | error e =>
      rw [show Item.read layout url (0 : Nat) = .error e from hread] at hbind
      cases hbind
  | ok items =>
      rw [show Item.read layout url (0 : Nat) = .ok items from hread] at hbind
      obtain ⟨shares, hdeal, hbindings⟩ := Item.exists_deal_of_allocate hbind
      have hdealt := Share.isDealt_of_deal (Item.areDefined_of_read hread) hdeal
      refine ⟨items, shares, rfl, hdeal, hdealt, ?_⟩
      rw [hbindings, OrderedMap.firsts_of_nodup]
      rw [hdealt.keys_eq]
      exact hnames

/-- **WRITING**: with the values that it was bound to, a single expression writes nothing, or the
    row of what its variables write for their shares. -/
theorem render_of_matchUrl (hlength : ∀ v ∈ specs, v.maxLength = none)
    (hmatch : (t.matchUrl url).value = .ok r) :
    ∃ items shares, Item.read layout url 0 = .ok items ∧
      Share.deal (layout = .commas) specs items = .ok (shares, []) ∧
      Share.IsDealt specs items shares [] ∧ r.bindings = shares.map Share.binding ∧
      (shares.flatMap Share.written = [] ∧ t.render r.environment = [] ∨
        shares.flatMap Share.written ≠ [] ∧ t.render r.environment
          = Item.lead layout ++
            List.intercalate [layout.separator] (shares.flatMap Share.written)) := by
  obtain ⟨items, shares, hread, hdeal, hdealt, hbindings⟩ :=
    exists_shares_of_matchUrl layout hsegments hnames hmatch
  refine ⟨items, shares, hread, hdeal, hdealt, hbindings, ?_⟩
  have hrow : (Pattern.items layout specs).row t.config.keywordLists r.environment
      = shares.flatMap Share.written :=
    hdealt.row_eq (Item.areDefined_of_read hread) hbindings hnames hlength t.config.keywordLists
  have hrender := @Pattern.render_items t.config.keywordLists r.environment layout specs
  rw [render_eq (parts_of_segments layout hsegments), List.flatMap_singleton]
  rw [hrow] at hrender
  exact hrender

end

/-- **SIMPLE EXPRESSIONS**: with names apart and no lengths, what a URL of encoded texts and pairs,
    none of them empty, with commas between was matched to is expanded to the URL again, whichever
    items went to which variable. -/
theorem render_matchUrl_simple (hsegments : t.segments = [.expression ⟨.simple, specs⟩])
    (hnames : (specs.map VarSpec.name).Nodup) (hlength : ∀ v ∈ specs, v.maxLength = none)
    {raws : List Text} (hraws : ∀ raw ∈ raws, raw ≠ [] ∧ ItemContent.IsEncodedItem raw)
    (hmatch : (t.matchUrl (List.intercalate [.char ','] raws)).value = .ok r) :
    t.render r.environment = List.intercalate [.char ','] raws := by
  obtain ⟨items, shares, hread, -, hdealt, -, hrender⟩ :=
    render_of_matchUrl .commas hsegments hnames hlength hmatch
  have hitems : items.map Item.raw = raws ∧ ∀ item ∈ items, ¬ item.content.IsList := by
    by_cases hne : raws = []
    · subst hne
      obtain rfl := Except.ok.inj hread
      exact ⟨rfl, nofun⟩
    · obtain ⟨found, hfound, hraw, hlists⟩ := Item.exists_read_of_spells .commas hne
        (fun _ hnil => (hraws [] hnil).1 rfl)
        (fun raw hraw => ItemContent.comma_not_mem_item (hraws raw hraw).2)
        (fun raw hraw => ItemContent.exists_spells_item (hraws raw hraw).2) 0
      obtain rfl := Except.ok.inj (hfound.symm.trans hread)
      exact ⟨hraw, fun item hitem hlist => Bool.false_ne_true (hlists item hitem hlist).1⟩
  obtain ⟨hraw, hlists⟩ := hitems
  have htexts : shares.flatMap Share.texts = raws := by
    have hcounted : ∀ s ∈ shares, s.texts = s.items.flatMap Item.texts := by
      intro s hs
      rcases s.counted_eq_or with heq | ⟨-, -, hempty⟩
      · rw [Share.texts, heq]
      · -- no item is written as nothing
        obtain ⟨item, hitem, hnil⟩ := List.mem_map.1 (hempty ▸ List.mem_singleton_self [])
        refine absurd rfl (hraws [] ?_).1
        rw [← hraw, ← hnil]
        exact List.mem_map_of_mem (hdealt.mem_items hs hitem)
    rw [List.flatMap_congr hcounted, ← List.flatMap_assoc, ← hraw, ← hdealt.items_eq,
      List.append_nil]
    refine Item.flatMap_texts_eq fun item hitem => hlists item ?_
    rwa [← hdealt.items_eq, List.append_nil]
  have hjoined : List.intercalate [.char ','] (shares.flatMap Share.written)
      = List.intercalate [.char ','] raws := by
    rw [← htexts]
    exact commaJoined_flatMap_written shares
  rcases hrender with ⟨hnil, hrender⟩ | ⟨-, hrender⟩
  · rw [hrender, ← hjoined, hnil]
    rfl
  · rw [hrender, ← hjoined]
    rfl

/-- Texts alone and in a list, pairs, and a variable that goes without. -/
theorem render_matchUrl_simple_mixed :
    let specs : List VarSpec := [⟨"a".toText, false, none⟩, ⟨"b".toText, true, none⟩,
      ⟨"n".toText, false, none⟩, ⟨"c".toText, true, none⟩]
    let t : Template := .mk "\x7ba,b*,n,c*\x7d".toText [.expression ⟨.simple, specs⟩] ⟨true, false⟩
    let pairs : List (Text × Value) := [("k".toText, .ofText "/".toText), ("l".toText, .ofText [])]
    let r : MatchResult := ⟨[("a".toText, some (.ofText "x".toText)),
      ("b".toText, some (.ofTexts ["y".toText, "z".toText])), ("n".toText, none),
      ("c".toText, some (.assoc pairs))]⟩
    (t.matchUrl "x,y,z,k=%2F,l=".toText).value = .ok r ∧
      t.render r.environment = "x,y,z,k=%2F,l=".toText := by
  intro specs t pairs r
  have hmatch : (t.matchUrl (List.intercalate [.char ','] ["x".toText, "y".toText, "z".toText,
      "k=%2F".toText, "l=".toText])).value = .ok r :=
    (Matching.matchUrl_value _ (parts_of_segments .commas rfl)).trans rfl
  refine ⟨hmatch, render_matchUrl_simple rfl (by decide) (by decide) ?_ hmatch⟩
  refine List.forall_mem_cons.2 ⟨⟨by decide, Or.inl ⟨"x".toText, by decide +kernel⟩⟩, ?_⟩
  refine List.forall_mem_cons.2 ⟨⟨by decide, Or.inl ⟨"y".toText, by decide +kernel⟩⟩, ?_⟩
  refine List.forall_mem_cons.2 ⟨⟨by decide, Or.inl ⟨"z".toText, by decide +kernel⟩⟩, ?_⟩
  refine List.forall_mem_cons.2 ⟨⟨by decide, Or.inr ⟨"k".toText, "/".toText, ?_⟩⟩, ?_⟩
  · decide +kernel
  · exact List.forall_mem_singleton.2 ⟨by decide, Or.inr ⟨"l".toText, [], by decide +kernel⟩⟩

/-- An encoded surrogate is matched to three replacement characters, and these are written. -/
theorem render_matchUrl_simple_surrogate :
    let specs : List VarSpec := [⟨"a".toText, false, none⟩]
    let t : Template := .mk "\x7ba\x7d".toText [.expression ⟨.simple, specs⟩] ⟨true, false⟩
    let raw : Text := "%ED%A0%80".toText
    let r : MatchResult := ⟨[("a".toText, some (.ofText "\uFFFD\uFFFD\uFFFD".toText))]⟩
    (raw ≠ [] ∧ raw = Percent.encode .unreserved [.surrogate 0]) ∧
    (t.matchUrl (List.intercalate [.char ','] [raw])).value = .ok r ∧
    t.render r.environment = "%EF%BF%BD%EF%BF%BD%EF%BF%BD".toText ∧
    t.render r.environment ≠ List.intercalate [.char ','] [raw] := by
  intro specs t raw r
  have hrender : t.render r.environment = "%EF%BF%BD%EF%BF%BD%EF%BF%BD".toText := by
    decide +kernel
  have hmatch : (t.matchUrl "%ED%A0%80".toText).value = .ok r :=
    (Matching.matchUrl_value _ (parts_of_segments .commas rfl)).trans (by cbv)
  refine ⟨⟨by decide, by decide⟩, ?_, hrender, ?_⟩
  · rw [List.intercalate_singleton]
    exact hmatch
  · rw [hrender]
    decide

end Template

/-! ## Paths -/

/-- Texts are joined to the same without others only if there are no others. -/
theorem eq_nil_of_commaJoined_append {row more : List Text} (hne : row ≠ [])
    (h : commaJoined (row ++ more) = commaJoined row) : more = [] := by
  rw [commaJoined, intercalate_append ',' hne, ← commaJoined] at h
  exact eq_nil_of_flatMap_cons (List.append_cancel_left (h.trans (List.append_nil _).symm))

namespace Item

/-- Does the item have a leaf, and more than one if it is a list? -/
def IsRegular (item : Item) : Prop :=
  item.texts ≠ [] ∧ (item.content.IsList → 2 ≤ item.texts.length)

/-- If the leaves of items agree with the items themselves from the front, no item is a list. -/
theorem not_isList_of_append_eq {items : List Item} (hitems : ∀ item ∈ items, item.IsRegular)
    {tail others : List Text} (h : items.flatMap texts ++ tail = items.map raw ++ others) :
    ∀ item ∈ items, ¬ item.content.IsList := by
  induction items with
  | nil => exact nofun
  | cons item items ih =>
      obtain ⟨⟨hne, hlist⟩, hitems⟩ := List.forall_mem_cons.1 hitems
      obtain ⟨text, more, htexts⟩ := List.exists_cons_of_ne_nil hne
      rw [List.flatMap_cons, List.map_cons, raw, htexts] at h
      obtain ⟨hhead, hrest⟩ := List.cons.inj h
      have hmore : more = [] := by
        refine eq_nil_of_commaJoined_append (List.cons_ne_nil text []) ?_
        rw [List.singleton_append, ← hhead, commaJoined, List.intercalate_singleton]
      subst hmore
      refine List.forall_mem_cons.2 ⟨fun hislist => ?_, ih hitems hrest⟩
      have hlength := hlist hislist
      rw [htexts, List.length_singleton] at hlength
      omega

end Item

namespace Share

/-- Does the variable write its share as it stands?  An exploded one would take a list apart; any
    other would put several items together, and leave out an empty one. -/
structure KeepsLayout (s : Share) : Prop where
  of_explode : s.spec.explode = true → ∀ item ∈ s.items, ¬ item.content.IsList
  of_not_explode : s.spec.explode = false → s.counted = s.items ∧ s.items.length ≤ 1

variable {s : Share} {tail others : List Text}

/-- What is in no item is in nothing that is written. -/
theorem not_mem_written {sep : CodePoint} (hsep : sep ≠ ',')
    (h : ∀ item ∈ s.items, sep ∉ item.raw) : ∀ text ∈ s.written, sep ∉ text := by
  have hcomma : (',' != sep) = true := bne_iff_ne.2 (Ne.symm hsep)
  have htexts : ∀ text ∈ s.texts, ∀ c ∈ text, (c != sep) = true := by
    intro text htext
    obtain ⟨item, hitem, htext⟩ := List.mem_flatMap.1 htext
    have hraw : ∀ c ∈ item.raw, (c != sep) = true := by
      intro c hc
      rw [bne_iff_ne]
      rintro rfl
      exact h item (s.counted_subset item hitem) hc
    exact forall_mem_of_intercalate hraw text htext
  have hself : (sep != sep) = false := bne_self_eq_false sep
  intro text htext
  rw [written] at htext
  split at htext
  · exact not_mem_of_forall (q := fun c => c != sep) (htexts text htext) hself
  · obtain rfl := List.mem_singleton.1 htext
    exact not_mem_of_forall (q := fun c => c != sep)
      (forall_mem_intercalate (q := fun c => c != sep) hcomma htexts) hself

/-- **KEPT**: then what it writes are the items of its share. -/
theorem KeepsLayout.written_eq (h : s.KeepsLayout) (hitems : ∀ item ∈ s.items, item.IsRegular) :
    s.written = s.items.map Item.raw := by
  cases hexplode : s.spec.explode with
  | true =>
      rw [written_of_explode hexplode, texts, counted_of_explode hexplode]
      exact Item.flatMap_texts_eq (h.of_explode hexplode)
  | false =>
      obtain ⟨hcounted, hlength⟩ := h.of_not_explode hexplode
      cases hs : s.items with
      | nil =>
          refine written_of_texts_eq_nil ?_
          rw [texts, hcounted, hs]
          rfl
      | cons item more =>
          rw [hs] at hlength hitems
          have hmore : more.length = 0 := by
            rw [List.length_cons] at hlength
            omega
          have htexts : s.texts = item.texts := by
            rw [texts, hcounted, hs, List.length_eq_zero_iff.1 hmore, List.flatMap_singleton]
          have hne := (hitems item List.mem_cons_self).1
          rw [written_of_not_explode hexplode (htexts ▸ hne), htexts,
            List.length_eq_zero_iff.1 hmore]
          rfl

/-- **NOT KEPT**: if the share counts, and what is written agrees with the items from the front, the
    layout is kept. -/
theorem keepsLayout_of_append_eq (hcounted : s.counted = s.items)
    (hitems : ∀ item ∈ s.items, item.IsRegular)
    (h : s.written ++ tail = s.items.map Item.raw ++ others) : s.KeepsLayout := by
  refine ⟨fun hexplode => ?_, fun hexplode => ⟨hcounted, ?_⟩⟩
  · rw [written_of_explode hexplode, texts, hcounted] at h
    exact Item.not_isList_of_append_eq hitems h
  · cases hs : s.items with
    | nil => exact Nat.zero_le 1
    | cons item items =>
        have htexts : s.texts = item.texts ++ items.flatMap Item.texts := by
          rw [texts, hcounted, hs, List.flatMap_cons]
        rw [hs] at h hitems
        obtain ⟨⟨hne, -⟩, hmore⟩ := List.forall_mem_cons.1 hitems
        rw [written_of_not_explode hexplode, htexts, List.map_cons] at h
        · -- the first text that is written does not go on after the first item
          have hnil := eq_nil_of_commaJoined_append hne (List.cons.inj h).1
          have hnone : items = [] := by
            refine List.eq_nil_iff_forall_not_mem.2 fun other hother => ?_
            exact (hmore other hother).1 (List.flatMap_eq_nil_iff.1 hnil other hother)
          rw [hnone]
          exact Nat.le_refl 1
        · rw [htexts]
          exact List.append_ne_nil_of_left_ne_nil hne _

/-- With a comma before each, what is written is never longer than the items. -/
theorem length_written_le {shares : List Share}
    (hitems : ∀ s ∈ shares, ∀ item ∈ s.items, item.IsRegular) :
    ((shares.flatMap written).flatMap (.char ',' :: ·)).length
      ≤ ((shares.flatMap fun s => s.items.map Item.raw).flatMap (.char ',' :: ·)).length := by
  induction shares with
  | nil => exact Nat.le_refl 0
  | cons s shares ih =>
      obtain ⟨hs, hshares⟩ := List.forall_mem_cons.1 hitems
      have hrest := ih hshares
      have hraw : (s.items.map Item.raw).flatMap (.char ',' :: ·)
          = (s.items.flatMap Item.texts).flatMap (.char ',' :: ·) := by
        rw [List.flatMap_map, List.flatMap_assoc]
        exact List.flatMap_congr fun item hitem => (flatMap_cons_eq ',' (hs item hitem).1).symm
      have hhead : (s.written.flatMap (.char ',' :: ·)).length
          ≤ ((s.items.map Item.raw).flatMap (.char ',' :: ·)).length := by
        rw [flatMap_written, hraw, texts]
        rcases s.counted_eq_or with heq | ⟨heq, -⟩
        · rw [heq]
        · rw [heq]
          exact Nat.zero_le _
      rw [List.flatMap_cons, List.flatMap_cons, List.flatMap_append, List.flatMap_append,
        List.length_append, List.length_append]
      omega

/-- **REGROUPED**: what variables write is the items only if every one keeps the layout of its
    share. -/
theorem keepsLayout_of_written_eq {shares : List Share}
    (hitems : ∀ s ∈ shares, ∀ item ∈ s.items, item.IsRegular)
    (h : shares.flatMap written = shares.flatMap fun s => s.items.map Item.raw) :
    ∀ s ∈ shares, s.KeepsLayout := by
  induction shares with
  | nil => exact nofun
  | cons s shares ih =>
      obtain ⟨hs, hshares⟩ := List.forall_mem_cons.1 hitems
      rw [List.flatMap_cons, List.flatMap_cons] at h
      rcases s.counted_eq_or with hcounted | ⟨hcounted, hexplode, hempty⟩
      · have hkeeps := keepsLayout_of_append_eq hcounted hs h
        rw [hkeeps.written_eq hs] at h
        exact List.forall_mem_cons.2 ⟨hkeeps, ih hshares (List.append_cancel_left h)⟩
      · -- an empty item that is left out would have to be made up for by later ones
        exfalso
        have hnil : s.texts = [] := by
          rw [texts, hcounted]
          rfl
        rw [written_of_texts_eq_nil hnil, List.nil_append, hempty] at h
        have hle := length_written_le hshares
        rw [h, List.flatMap_append, List.length_append, List.flatMap_singleton,
          List.length_singleton] at hle
        omega

end Share

namespace Template

variable {t : Template} {specs : List VarSpec} {r : MatchResult}

/-- **PATH EXPRESSIONS**: with names apart and no lengths, what a URL of segments, each encoded
    texts with commas between, alone or behind an encoded key, was matched to is expanded to the URL
    again if and only if every variable keeps the layout of its share. -/
theorem render_matchUrl_path_iff (hsegments : t.segments = [.expression ⟨.pathSegment, specs⟩])
    (hnames : (specs.map VarSpec.name).Nodup) (hlength : ∀ v ∈ specs, v.maxLength = none)
    {raws : List Text} (hne : raws ≠ []) (hraws : ∀ raw ∈ raws, ItemContent.IsEncodedSegment raw)
    (hmatch : (t.matchUrl (.char '/' :: List.intercalate [.char '/'] raws)).value = .ok r) :
    ∃ items shares,
      Item.read .slashes (.char '/' :: List.intercalate [.char '/'] raws) 0 = .ok items ∧
      Share.deal false specs items = .ok (shares, []) ∧ r.bindings = shares.map Share.binding ∧
      (t.render r.environment = .char '/' :: List.intercalate [.char '/'] raws ↔
        ∀ s ∈ shares, s.KeepsLayout) := by
  obtain ⟨items, shares, hread, hdeal, hdealt, hbindings, hrender⟩ :=
    render_of_matchUrl .slashes hsegments hnames hlength hmatch
  refine ⟨items, shares, hread, hdeal, hbindings, ?_⟩
  obtain ⟨found, hfound, hraw, hlists⟩ := Item.exists_read_of_spells .slashes hne
    nofun (fun raw hraw => ItemContent.slash_not_mem_segment (hraws raw hraw))
    (fun raw hraw => ItemContent.exists_spells_segment (hraws raw hraw)) 0
  obtain rfl := Except.ok.inj (hfound.symm.trans hread)
  have hitems : ∀ s ∈ shares, ∀ item ∈ s.items, item.IsRegular := by
    intro s hs item hitem
    have hmem := hdealt.mem_items hs hitem
    exact ⟨mt List.map_eq_nil_iff.1 (Item.areDefined_of_read hread item hmem).1,
      fun hlist => (hlists item hmem hlist).2⟩
  have hrow : (shares.flatMap fun s => s.items.map Item.raw) = raws := by
    rw [← hraw, ← hdealt.items_eq, List.append_nil, List.map_flatMap]
  constructor
  · intro h
    refine Share.keepsLayout_of_written_eq hitems ?_
    rcases hrender with ⟨-, hrender⟩ | ⟨hwritten, hrender⟩
    · rw [hrender] at h
      cases h
    · rw [hrender] at h
      have hjoined : List.intercalate [.char '/'] (shares.flatMap Share.written)
          = List.intercalate [.char '/'] raws := (List.cons.inj h).2
      have hslash : ∀ text ∈ shares.flatMap Share.written, .char '/' ∉ text := by
        intro text htext
        obtain ⟨s, hs, htext⟩ := List.mem_flatMap.1 htext
        refine Share.not_mem_written (by decide) (fun item hitem => ?_) text htext
        refine ItemContent.slash_not_mem_segment (hraws item.raw ?_)
        rw [← hrow]
        exact List.mem_flatMap.2 ⟨s, hs, List.mem_map_of_mem hitem⟩
      -- no slash is a text's own, so the texts are found again between the slashes
      rw [hrow, ← List.splitOn_intercalate ('/' : CodePoint) hslash hwritten, hjoined,
        List.splitOn_intercalate ('/' : CodePoint)
          (fun raw hraw => ItemContent.slash_not_mem_segment (hraws raw hraw)) hne]
  · intro hkeeps
    have hwritten : shares.flatMap Share.written = raws := by
      rw [← hrow]
      exact List.flatMap_congr fun s hs => (hkeeps s hs).written_eq (hitems s hs)
    rcases hrender with ⟨hnil, -⟩ | ⟨-, hrender⟩
    · exact absurd (hwritten.symm.trans hnil) hne
    · rw [hrender, hwritten]
      rfl

/-- A list for a variable by itself, and pairs with a list among them for an exploded one. -/
theorem render_matchUrl_path_iff_kept :
    let specs : List VarSpec := [⟨"a".toText, false, none⟩, ⟨"b".toText, true, none⟩]
    let t : Template := .mk "\x7b/a,b*\x7d".toText [.expression ⟨.pathSegment, specs⟩] ⟨true, false⟩
    let pairs : List (Text × Value) :=
      [("k".toText, .ofTexts ["1".toText, "2".toText]), ("l".toText, .ofText [])]
    let r : MatchResult := ⟨[("a".toText, some (.ofTexts ["x".toText, "y".toText])),
      ("b".toText, some (.assoc pairs))]⟩
    (t.matchUrl "/x,y/k=1,2/l=".toText).value = .ok r ∧
      t.render r.environment = "/x,y/k=1,2/l=".toText := by
  intro specs t pairs r
  have hmatch : (t.matchUrl (.char '/' ::
      List.intercalate [.char '/'] ["x,y".toText, "k=1,2".toText, "l=".toText])).value = .ok r :=
    (Matching.matchUrl_value _ (parts_of_segments .slashes rfl)).trans rfl
  have hraws : ∀ raw ∈ ["x,y".toText, "k=1,2".toText, "l=".toText],
      ItemContent.IsEncodedSegment raw := by
    refine List.forall_mem_cons.2
      ⟨Or.inl ⟨["x".toText, "y".toText], by decide, by decide +kernel⟩, ?_⟩
    refine List.forall_mem_cons.2 ⟨Or.inr ⟨"k".toText, ["1".toText, "2".toText], ?_⟩, ?_⟩
    · exact ⟨by decide, by decide, by decide +kernel⟩
    · exact List.forall_mem_singleton.2
        (Or.inr ⟨"l".toText, [], by decide, nofun, by decide +kernel⟩)
  obtain ⟨items, shares, hread, hdeal, -, hiff⟩ := render_matchUrl_path_iff rfl (by decide)
    (by decide) (List.cons_ne_nil _ _) hraws hmatch
  refine ⟨hmatch, hiff.2 ?_⟩
  have hitems : Item.read .slashes (.char '/' ::
      List.intercalate [.char '/'] ["x,y".toText, "k=1,2".toText, "l=".toText]) 0
      = .ok [⟨.list ["x".toText, "y".toText], 1⟩,
        ⟨.pair "k".toText (.ofTexts ["1".toText, "2".toText]), 5⟩,
        ⟨.pair "l".toText (.ofText []), 11⟩] := rfl
  obtain rfl := Except.ok.inj (hitems.symm.trans hread)
  obtain ⟨rfl, -⟩ := Prod.mk.inj (Except.ok.inj hdeal)
  refine List.forall_mem_cons.2 ⟨⟨nofun, fun _ => ⟨rfl, Nat.le_refl 1⟩⟩, ?_⟩
  exact List.forall_mem_singleton.2 ⟨fun _ => by decide, nofun⟩

/-- Two segments for the last variable are put together, and a list for an exploded variable is
    taken apart; and an encoded surrogate is not written again. -/
theorem render_matchUrl_path_regrouped :
    let single : List VarSpec := [⟨"a".toText, false, none⟩]
    let exploded : List VarSpec := [⟨"a".toText, true, none⟩]
    let t : Template := .mk "\x7b/a\x7d".toText [.expression ⟨.pathSegment, single⟩] ⟨true, false⟩
    let u : Template :=
      .mk "\x7b/a*\x7d".toText [.expression ⟨.pathSegment, exploded⟩] ⟨true, false⟩
    let r : MatchResult := ⟨[("a".toText, some (.ofTexts ["x".toText, "y".toText]))]⟩
    let s : MatchResult := ⟨[("a".toText, some (.ofText "\uFFFD\uFFFD\uFFFD".toText))]⟩
    (∀ raw ∈ ["x".toText, "y".toText, "x,y".toText],
      raw ≠ [] ∧ ItemContent.IsEncodedSegment raw) ∧
    ((t.matchUrl (.char '/' :: List.intercalate [.char '/'] ["x".toText, "y".toText])).value
        = .ok r ∧
      t.render r.environment = "/x,y".toText ∧
      t.render r.environment ≠ .char '/' :: List.intercalate [.char '/'] ["x".toText, "y".toText]) ∧
    (u.matchUrl (.char '/' :: List.intercalate [.char '/'] ["x,y".toText])).value = .ok r ∧
      (u.render r.environment = "/x/y".toText ∧
        u.render r.environment ≠ .char '/' :: List.intercalate [.char '/'] ["x,y".toText]) ∧
    Percent.encode .unreserved [.surrogate 0] = "%ED%A0%80".toText ∧
      (t.matchUrl "/%ED%A0%80".toText).value = .ok s ∧
      t.render s.environment = "/%EF%BF%BD%EF%BF%BD%EF%BF%BD".toText := by
  intro single exploded t u r s
  have hsingle : t.render r.environment = "/x,y".toText := by decide +kernel
  have hexploded : u.render r.environment = "/x/y".toText := by decide +kernel
  refine ⟨?_, ⟨?_, hsingle, ?_⟩, ?_, ⟨hexploded, ?_⟩, by decide, ?_, by decide +kernel⟩
  · refine List.forall_mem_cons.2
      ⟨⟨by decide, Or.inl ⟨["x".toText], by decide, by decide +kernel⟩⟩, ?_⟩
    refine List.forall_mem_cons.2
      ⟨⟨by decide, Or.inl ⟨["y".toText], by decide, by decide +kernel⟩⟩, ?_⟩
    exact List.forall_mem_singleton.2
      ⟨by decide, Or.inl ⟨["x".toText, "y".toText], by decide, by decide +kernel⟩⟩
  · exact (Matching.matchUrl_value _ (parts_of_segments .slashes rfl)).trans rfl
  · rw [hsingle]
    decide
  · exact (Matching.matchUrl_value _ (parts_of_segments .slashes rfl)).trans rfl
  · rw [hexploded]
    decide
  · exact (Matching.matchUrl_value _ (parts_of_segments .slashes rfl)).trans (by cbv)

end Template

end UriTemplate
