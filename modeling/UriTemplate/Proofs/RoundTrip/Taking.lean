import UriTemplate.Match.Allocation
import UriTemplate.Proofs.RoundTrip.Reading

/-! # Taking — variables that find their items, or those of others

    A variable that wrote nothing leaves no trace, so on the way back the items of
    another variable are taken in its place: allocation runs ahead.  It never gets
    stuck, because of an invariant.  What is left can be cut into one stretch for
    each variable that is left, of a form that the variable could have written
    (`VarSpec.Covers`):

    * `Covers.of_suffix` — the invariant holds of what remains after taking more;
    * `exists_take` — one variable takes something and keeps the invariant;
    * `exists_takeAll` — so all variables take, and nothing is left.

    Items that are texts only need no invariant, since the last variable takes all
    that is left (`exists_takeAll_of_isText`). -/

namespace UriTemplate

namespace Item

/-- What is left when the pairs in front are taken. -/
theorem map_takePairs (items : List Item) :
    (takePairs items).2.map content = (items.map content).dropWhile fun c => decide c.IsPair := by
  fun_induction takePairs items with
  | case1 key member position items ih => exact ih
  | case2 items hnone =>
      cases items with
      | nil => rfl
      | cons item items =>
          obtain ⟨content, position⟩ := item
          cases content with
          | pair key member => exact absurd rfl (hnone key member position items)
          | text s => rfl
          | list texts => rfl

/-- What is left when the single texts in front are taken. -/
theorem map_takeTexts (items : List Item) :
    (takeTexts items).2.map content = (items.map content).dropWhile fun c => decide c.IsText := by
  fun_induction takeTexts items with
  | case1 s position items ih => exact ih
  | case2 items hnone =>
      cases items with
      | nil => rfl
      | cons item items =>
          obtain ⟨content, position⟩ := item
          cases content with
          | text s => exact absurd rfl (hnone s position items)
          | pair key member => rfl
          | list texts => rfl

/-- A run in front is taken whole, with what follows of its kind. -/
theorem dropWhile_append_suffix {p : ItemContent → Prop} [DecidablePred p]
    {own : List ItemContent} (hown : ∀ c ∈ own, p c) (others : List ItemContent) :
    ((own ++ others).dropWhile fun c => decide (p c)) <:+ others := by
  rw [List.dropWhile_append_of_pos fun c hc => decide_eq_true (hown c hc)]
  exact List.dropWhile_suffix _

/-- An exploded variable takes at least the run that it could have written. -/
theorem takeExploded_suffix {item : Item} {items : List Item} {own others : List ItemContent}
    (hcontents : (item :: items).map content = own ++ others)
    (hown : (∀ c ∈ own, c.IsText) ∨ (∀ c ∈ own, c.IsPair)) :
    (item.takeExploded items).2.map content <:+ others := by
  obtain ⟨content, position⟩ := item
  cases own with
  | nil =>
      obtain rfl : others = content :: items.map Item.content := hcontents.symm
      have hitems := List.suffix_cons content (items.map Item.content)
      cases content with
      | pair key member =>
          refine List.IsSuffix.trans ?_ hitems
          exact (map_takePairs items).symm ▸ List.dropWhile_suffix _
      | text s =>
          refine List.IsSuffix.trans ?_ hitems
          exact (map_takeTexts items).symm ▸ List.dropWhile_suffix _
      | list texts => exact hitems
  | cons c own =>
      obtain ⟨rfl, hitems⟩ := List.cons.inj hcontents
      rw [List.forall_mem_cons, List.forall_mem_cons] at hown
      cases content with
      | pair key member =>
          rcases hown with ⟨hpair, -⟩ | ⟨-, hown⟩
          · exact hpair.elim
          · show (takePairs items).2.map Item.content <:+ others
            rw [map_takePairs, hitems]
            exact dropWhile_append_suffix hown others
      | text s =>
          rcases hown with ⟨-, hown⟩ | ⟨htext, -⟩
          · show (takeTexts items).2.map Item.content <:+ others
            rw [map_takeTexts, hitems]
            exact dropWhile_append_suffix hown others
          · exact htext.elim
      | list texts =>
          rcases hown with ⟨htext, -⟩ | ⟨hpair, -⟩
          · exact htext.elim
          · exact hpair.elim

/-- Texts are absorbed. -/
theorem exists_absorb (name : Text) {items : List Item}
    (h : ∀ item ∈ items, item.content.IsText) : ∃ texts, absorb name items = .ok texts := by
  induction items with
  | nil => exact ⟨[], rfl⟩
  | cons item items ih =>
      obtain ⟨hitem, hitems⟩ := List.forall_mem_cons.1 h
      obtain ⟨texts, htexts⟩ := ih hitems
      obtain ⟨content, position⟩ := item
      cases content with
      | text s =>
          rw [absorb, htexts]
          exact ⟨_, rfl⟩
      | list _ => exact hitem.elim
      | pair _ _ => exact hitem.elim

end Item

namespace VarSpec

/-- Contents of items that the variable could have written: a run of texts or of pairs if it is
    exploded, else one content at most, and no pair. -/
def MayWrite (v : VarSpec) (contents : List ItemContent) : Prop :=
  if v.explode then (∀ c ∈ contents, c.IsText) ∨ (∀ c ∈ contents, c.IsPair)
  else contents.length ≤ 1 ∧ ∀ c ∈ contents, ¬ c.IsPair

/-- Contents of items that the variables could have written one after the other. -/
def Covers : List VarSpec → List ItemContent → Prop
  | [], contents => contents = []
  | v :: later, contents =>
      ∃ own others, contents = own ++ others ∧ v.MayWrite own ∧ Covers later others

variable {refusesPairs : Bool} {v : VarSpec} {specs later : List VarSpec}

theorem mayWrite_nil (v : VarSpec) : v.MayWrite [] := by
  rw [MayWrite]
  split
  · exact Or.inl nofun
  · exact ⟨Nat.zero_le 1, nofun⟩

theorem MayWrite.of_cons {c : ItemContent} {contents : List ItemContent}
    (h : v.MayWrite (c :: contents)) : v.MayWrite contents := by
  rw [MayWrite] at h ⊢
  split
  · next hexplode =>
      rw [if_pos hexplode, List.forall_mem_cons, List.forall_mem_cons] at h
      exact h.imp And.right And.right
  · next hexplode =>
      rw [if_neg hexplode, List.forall_mem_cons] at h
      exact ⟨Nat.le_of_succ_le h.1, h.2.2⟩

theorem Covers.of_cons {c : ItemContent} {contents : List ItemContent}
    (h : Covers specs (c :: contents)) : Covers specs contents := by
  induction specs generalizing contents with
  | nil => exact nomatch h
  | cons v later ih =>
      obtain ⟨own, others, hcontents, hown, hothers⟩ := h
      cases own with
      | nil =>
          rw [List.nil_append] at hcontents
          subst hcontents
          exact ⟨[], contents, rfl, v.mayWrite_nil, ih hothers⟩
      | cons d own =>
          obtain ⟨-, rfl⟩ := List.cons.inj hcontents
          exact ⟨own, others, rfl, hown.of_cons, hothers⟩

/-- What remains when some items are gone could have been written too. -/
theorem Covers.of_suffix {contents rest : List ItemContent} (h : Covers specs contents)
    (hrest : rest <:+ contents) : Covers specs rest := by
  obtain ⟨gone, rfl⟩ := hrest
  induction gone with
  | nil => exact h
  | cons c gone ih => exact ih h.of_cons

theorem covers_nil (specs : List VarSpec) : Covers specs [] := by
  induction specs with
  | nil => rfl
  | cons v later ih => exact ⟨[], [], rfl, v.mayWrite_nil, ih⟩

/-- A variable that is not exploded takes one item that is no pair, unless it is the last one and
    there are more. -/
theorem take_single (hexplode : v.explode = false) {item : Item} {items : List Item}
    (hpair : ¬ item.content.IsPair) (hlast : later = [] → items = []) :
    v.take refusesPairs later (item :: items) = .ok (item.single?, items) := by
  have hmore : (later.isEmpty && !items.isEmpty) = false := by
    cases later with
    | nil =>
        rw [hlast rfl]
        rfl
    | cons w later => rfl
  obtain ⟨content, position⟩ := item
  rw [take, if_neg (by rw [hexplode]; exact Bool.false_ne_true), Item.takeSingle]
  cases content with
  | text s | list texts =>
      dsimp only
      rw [hmore, if_neg Bool.false_ne_true]
  | pair key member => exact absurd trivial hpair

/-- **STEP**: a variable takes something, and the later ones could have written what it leaves. -/
theorem exists_take {items : List Item} (hcovers : Covers (v :: later) (items.map Item.content))
    (hpairs : refusesPairs = true → v.explode = true) :
    ∃ value rest, v.take refusesPairs later items = .ok (value, rest) ∧
      Covers later (rest.map Item.content) := by
  obtain ⟨own, others, hcontents, hown, hothers⟩ := hcovers
  cases items with
  | nil => exact ⟨none, [], rfl, covers_nil later⟩
  | cons item items =>
      rw [MayWrite] at hown
      cases hexplode : v.explode with
      | true =>
          rw [if_pos hexplode] at hown
          rw [take, if_pos hexplode]
          exact ⟨_, _, rfl, hothers.of_suffix (Item.takeExploded_suffix hcontents hown)⟩
      | false =>
          have hplain : ¬ v.explode = true := by rw [hexplode]; exact Bool.false_ne_true
          rw [if_neg hplain] at hown
          have hrefuses : refusesPairs = false := by
            rw [← Bool.not_eq_true]
            exact fun hr => hplain (hpairs hr)
          have hitems : Covers later (items.map Item.content) := by
            cases own with
            | nil =>
                -- the item is one that a later variable has written
                exact hothers.of_suffix ⟨[item.content], hcontents⟩
            | cons c own =>
                obtain rfl : own = [] :=
                  List.length_eq_zero_iff.1 (Nat.le_zero.1 (Nat.le_of_succ_le_succ hown.1))
                obtain ⟨-, htail⟩ := List.cons.inj hcontents
                exact hothers.of_suffix ⟨[], htail⟩
          -- the last variable could not have written more than one item
          have hlast : later = [] → items = [] := by
            rintro rfl
            exact List.map_eq_nil_iff.1 hitems
          by_cases hpair : item.content.IsPair
          · obtain ⟨content, position⟩ := item
            match content, hpair with
            | .pair key member, _ =>
                rw [take, if_neg hplain, Item.takeSingle, hrefuses]
                refine ⟨none, _, rfl, ?_⟩
                cases own with
                | nil => exact hothers.of_suffix ⟨[], hcontents⟩
                | cons c own =>
                    obtain ⟨rfl, -⟩ := List.cons.inj hcontents
                    exact (hown.2 _ List.mem_cons_self trivial).elim
          · exact ⟨_, items, take_single hexplode hpair hlast, hitems⟩

/-- **ALLOCATION**: items that the variables could have written are all taken. -/
theorem exists_takeAll {items : List Item} (hcovers : Covers specs (items.map Item.content))
    (hpairs : refusesPairs = true → ∀ v ∈ specs, v.explode = true) :
    ∃ bindings, takeAll refusesPairs specs items = .ok bindings := by
  induction specs generalizing items with
  | nil =>
      obtain rfl : items = [] := List.map_eq_nil_iff.1 hcovers
      exact ⟨[], rfl⟩
  | cons v later ih =>
      obtain ⟨value, rest, htake, hrest⟩ :=
        exists_take hcovers fun hr => hpairs hr v List.mem_cons_self
      obtain ⟨bindings, hbindings⟩ :=
        ih hrest fun hr w hw => hpairs hr w (List.mem_cons_of_mem v hw)
      rw [takeAll, htake]
      dsimp only
      rw [hbindings]
      exact ⟨_, rfl⟩

/-- Texts are all taken by variables that are not exploded. -/
theorem exists_takeAll_of_isText {items : List Item} (hne : specs = [] → items = [])
    (hexplode : ∀ v ∈ specs, v.explode = false) (h : ∀ item ∈ items, item.content.IsText) :
    ∃ bindings, takeAll refusesPairs specs items = .ok bindings := by
  induction specs generalizing items with
  | nil =>
      rw [hne rfl]
      exact ⟨[], rfl⟩
  | cons v later ih =>
      obtain ⟨hv, hlater⟩ := List.forall_mem_cons.1 hexplode
      suffices htake : ∃ value rest, v.take refusesPairs later items = .ok (value, rest) ∧
          (later = [] → rest = []) ∧ ∀ item ∈ rest, item.content.IsText by
        obtain ⟨value, rest, htake, hrest, htexts⟩ := htake
        obtain ⟨bindings, hbindings⟩ := ih hrest hlater htexts
        rw [takeAll, htake]
        dsimp only
        rw [hbindings]
        exact ⟨_, rfl⟩
      cases items with
      | nil => exact ⟨none, [], rfl, fun _ => rfl, nofun⟩
      | cons item items =>
          obtain ⟨hitem, hitems⟩ := List.forall_mem_cons.1 h
          obtain ⟨texts, htexts⟩ := Item.exists_absorb v.name h
          obtain ⟨content, position⟩ := item
          cases content with
          | list _ => exact hitem.elim
          | pair _ _ => exact hitem.elim
          | text s =>
              rw [take, if_neg (by rw [hv]; exact Bool.false_ne_true)]
              rw [Item.takeSingle]
              dsimp only
              split
              · rw [htexts]
                exact ⟨_, [], rfl, fun _ => rfl, nofun⟩
              · next hlast =>
                  refine ⟨_, items, rfl, ?_, hitems⟩
                  rintro rfl
                  cases items with
                  | nil => rfl
                  | cons _ _ => exact absurd rfl hlast

end VarSpec

end UriTemplate
