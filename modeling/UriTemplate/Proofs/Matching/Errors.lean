import UriTemplate.Proofs.Matching.Groups
import UriTemplate.Proofs.Matching.Positions

/-! # Errors — what a failed match tells, and where it points

    A template is refused before a URL is looked at, or not at all.  If it can be
    matched, there are five ways in which a URL does not fit, and each error points
    to a place in the URL at which what it tells can be found
    (`MatchError.PointsInto`).  The errors come from three sources:

    * `Pattern.pointsInto_of_bind` — a stretch that could not be read, or items that
      could not be handed out;
    * `Matching.pointsInto_of_solve` — a literal that does not stand there, a URL that
      goes on, or the first error of a pattern;
    * `Template.matchUrl_contract` — what this says of a template. -/

namespace UriTemplate

/-! ## Items that cannot be handed out -/

namespace Item

theorem takePairs_suffix (items : List Item) : (takePairs items).2 <:+ items := by
  fun_induction takePairs items with
  | case1 key member position items ih => exact ih.trans (List.suffix_cons _ items)
  | case2 items => exact List.suffix_refl items

theorem takeTexts_suffix (items : List Item) : (takeTexts items).2 <:+ items := by
  fun_induction takeTexts items with
  | case1 s position items ih => exact ih.trans (List.suffix_cons _ items)
  | case2 items => exact List.suffix_refl items

/-- An exploded variable takes from the front. -/
theorem takeExploded_snd_suffix (item : Item) (items : List Item) :
    (item.takeExploded items).2 <:+ items := by
  obtain ⟨content, position⟩ := item
  cases content with
  | pair key member => exact takePairs_suffix items
  | text s => exact takeTexts_suffix items
  | list texts => exact List.suffix_refl items

/-- A pair that a variable met, of all these items. -/
def IsUnexpected (name : Text) (items : List Item) (e : MatchError) : Prop :=
  ∃ item ∈ items, item.content.IsPair ∧ e = ⟨.unexpectedPair name, some item.position⟩

theorem isUnexpected_of_absorb {name : Text} {items : List Item} {e : MatchError}
    (h : absorb name items = .error e) : IsUnexpected name items e := by
  induction items with
  | nil => cases h
  | cons item items ih =>
      obtain ⟨content, position⟩ := item
      cases content with
      | pair key member =>
          exact ⟨_, List.mem_cons_self, trivial, (Except.error.inj h).symm⟩
      | text s | list texts =>
          obtain ⟨other, hother, hpair, he⟩ := ih (Except.map_eq_error_iff.1 h)
          exact ⟨other, List.mem_cons_of_mem _ hother, hpair, he⟩

end Item

namespace VarSpec

variable {refusesPairs : Bool} {v : VarSpec} {later : List VarSpec} {items : List Item}

/-- A variable takes from the front. -/
theorem take_suffix {value : Option Value} {rest : List Item}
    (h : v.take refusesPairs later items = .ok (value, rest)) : rest <:+ items := by
  cases items with
  | nil =>
      obtain ⟨-, rfl⟩ := Prod.mk.inj (Except.ok.inj h)
      exact List.suffix_refl []
  | cons item items =>
      rw [take] at h
      split at h
      · obtain ⟨-, rfl⟩ := Prod.mk.inj (Except.ok.inj h)
        exact (item.takeExploded_snd_suffix items).trans (List.suffix_cons item items)
      · unfold Item.takeSingle at h
        split at h
        · split at h
          · cases h
          · obtain ⟨-, rfl⟩ := Prod.mk.inj (Except.ok.inj h)
            exact List.suffix_refl _
        · split at h
          · obtain ⟨texts, -, hrest⟩ := Except.map_eq_ok_iff.1 h
            obtain ⟨-, rfl⟩ := Prod.mk.inj hrest
            exact List.nil_suffix
          · obtain ⟨-, rfl⟩ := Prod.mk.inj (Except.ok.inj h)
            exact List.suffix_cons item items

/-- Only a variable that is not exploded refuses something, and only a pair. -/
theorem isUnexpected_of_take {e : MatchError} (h : v.take refusesPairs later items = .error e) :
    v.explode = false ∧ Item.IsUnexpected v.name items e := by
  cases items with
  | nil => cases h
  | cons item items =>
      rw [take] at h
      split at h
      · cases h
      · next hexplode =>
          refine ⟨Bool.eq_false_iff.2 hexplode, ?_⟩
          unfold Item.takeSingle at h
          split at h
          · next key member hcontent =>
              split at h
              · exact ⟨item, List.mem_cons_self, by rw [hcontent]; trivial,
                  (Except.error.inj h).symm⟩
              · cases h
          · split at h
            · exact Item.isUnexpected_of_absorb (Except.map_eq_error_iff.1 h)
            · cases h

/-- **ALLOCATION**: it fails at a pair that a variable does not take, or at an item that is left. -/
theorem error_of_takeAll {specs : List VarSpec} {e : MatchError}
    (h : takeAll refusesPairs specs items = .error e) :
    (∃ v ∈ specs, v.explode = false ∧ Item.IsUnexpected v.name items e) ∨
    ∃ item ∈ items, ∃ count, e = ⟨.extraItems count, some item.position⟩ := by
  induction specs generalizing items with
  | nil =>
      cases items with
      | nil => cases h
      | cons item items =>
          exact Or.inr ⟨item, List.mem_cons_self, _, (Except.error.inj h).symm⟩
  | cons v later ih =>
      rw [takeAll] at h
      · cases htake : v.take refusesPairs later items with
        | error e' =>
            rw [htake] at h
            obtain rfl := Except.error.inj h
            exact Or.inl ⟨v, List.mem_cons_self, isUnexpected_of_take htake⟩
        | ok taken =>
            obtain ⟨value, rest⟩ := taken
            rw [htake] at h
            have hsuffix := (take_suffix htake).subset
            rcases ih (Except.map_eq_error_iff.1 h) with
              ⟨w, hw, hexplode, item, hitem, herror⟩ | ⟨item, hitem, herror⟩
            · exact Or.inl ⟨w, List.mem_cons_of_mem v hw, hexplode, item, hsuffix hitem, herror⟩
            · exact Or.inr ⟨item, hsuffix hitem, herror⟩

end VarSpec

/-! ## Parameters that nobody took -/

theorem Parameter.takeFirst_sublist (name : Text) (ps : List Parameter) :
    (takeFirst name ps).2.Sublist ps := by
  induction ps with
  | nil => exact .slnil
  | cons p ps ih =>
      rw [takeFirst]
      split
      · exact List.sublist_cons_self p ps
      · exact ih.cons_cons p

namespace Finding

variable {ι : Type} (ds : List (Declared ι)) (ps : List Parameter)

theorem firstRound_sublist : (firstRound ds ps).2.Sublist ps := by
  induction ds generalizing ps with
  | nil => exact List.Sublist.refl ps
  | cons d ds ih =>
      rw [firstRound]
      split
      · exact ih ps
      · exact (ih _).trans (Parameter.takeFirst_sublist d.spec.name ps)

theorem secondRound_sublist : (secondRound ds ps).2.2.Sublist ps := by
  induction ds generalizing ps with
  | nil => exact List.Sublist.refl ps
  | cons d ds ih =>
      rw [secondRound]
      split
      · exact ih ps
      · split
        · exact ih ps
        · exact (ih _).trans List.filter_sublist

/-- What the rounds leave was there before. -/
theorem all_sublist : (all ds ps).2.Sublist ps := by
  have hthird : ∀ (us : List (Declared ι)) (qs : List Parameter),
      (thirdRound us qs).2.Sublist qs := by
    intro us qs
    cases us with
    | nil => exact List.Sublist.refl qs
    | cons u us => exact List.nil_sublist qs
  exact (hthird _ _).trans ((secondRound_sublist ds _).trans (firstRound_sublist ds ps))

end Finding

/-- Binding fails at a parameter that nobody took. -/
theorem Declared.error_of_bind {ι : Type} [DecidableEq ι] {strict : Bool}
    {ds : List (Declared ι)} {ps : List Parameter} {e : MatchError}
    (h : bind strict ds ps = .error e) :
    ∃ p ∈ ps, ∃ count, e = ⟨.extraItems count, some p.position⟩ := by
  unfold bind at h
  dsimp only at h
  split at h
  · next p left hleft =>
      have hp : p ∈ (Finding.all ds ps).2 := by
        rw [hleft]
        exact List.mem_cons_self
      exact ⟨p, (Finding.all_sublist ds ps).subset hp, _, (Except.error.inj h).symm⟩
  · cases h

/-! ## Where errors point -/

/-- Which parts are left, and at which position of the URL, while parts are matched: a literal is
    passed where it stands, a pattern at a possible end to which it can bind its stretch. -/
inductive Reaches (strict : Bool) (url : Text) (parts : List Part) : List Part → Nat → Prop where
  | start : Reaches strict url parts parts 0
  | literal {text : Text} {later : List Part} {a : Nat} :
      Reaches strict url parts (.literal text :: later) a → text <+: url.drop a →
      Reaches strict url parts later (a + text.length)
  | pattern {p : Pattern} {later : List Part} {a : Nat} {cut : Cut} {bound : Bindings} :
      Reaches strict url parts (.pattern p :: later) a → cut ∈ p.candidates later (url.drop a) →
      p.bind strict ((url.drop a).take cut.length) a = .ok bound →
      Reaches strict url parts later (a + cut.length)

/-- The text is an item, beginning at `position`, of a stretch that is tried for the pattern. -/
def Pattern.HasItem (strict : Bool) (url : Text) (parts : List Part) (q : Pattern) (raw : Text)
    (position : Nat) : Prop :=
  ∃ later a, Reaches strict url parts (.pattern q :: later) a ∧
    ∃ cut ∈ q.candidates later (url.drop a), (url.drop a).take cut.length ≠ [] ∧
      StandsIn raw position (a + q.leadLength) (q.cells ((url.drop a).take cut.length))

/-- Is at a position of the URL what the cause tells?  It is what stands in the place of the next
    literal, or after the last part; an item that cannot be read; a pair, which a variable of its
    pattern cannot take; or an item that is left. -/
def MatchCause.FoundAt (strict : Bool) (url : Text) (parts : List Part) (p : Nat) :
    MatchCause → Prop
  | .literal [] found => found = url.drop p ∧ found ≠ [] ∧ Reaches strict url parts [] p
  | .literal (c :: expected) found =>
      found = url.slice p (p + (c :: expected).length) ∧ found ≠ c :: expected ∧
        ∃ later, Reaches strict url parts (.literal (c :: expected) :: later) p
  | .repeatedEquals raw | .listInQuery raw =>
      url.slice p (p + raw.length) = raw ∧ ∃ q : Pattern, q.HasItem strict url parts raw p
  | .unexpectedPair name =>
      ∃ (q : Pattern) (raw : Text), q.HasItem strict url parts raw p ∧ .char '=' ∈ raw ∧
        ∃ v ∈ q.specs, v.name = name ∧ v.explode = false
  | .extraItems _ => ∃ (q : Pattern) (raw : Text), q.HasItem strict url parts raw p
  | .general _ => False

/-- One of the five errors, at a position of the URL where what it tells is found. -/
structure MatchError.PointsInto (strict : Bool) (url : Text) (parts : List Part)
    (e : MatchError) : Prop where
  kind : e.kind ∈ [FaultKind.literalMismatch, .unexpectedPair, .extraItems, .repeatedEquals,
    .listInQuery]
  position : ∃ p : Nat, e.position = some (p : Int) ∧ p ≤ url.length ∧
    e.cause.FoundAt strict url parts p

section

variable {strict : Bool} {url raw : Text} {parts : List Part} {q : Pattern} {p : Nat}

theorem Pattern.HasItem.slice_eq (h : q.HasItem strict url parts raw p) :
    p ≤ url.length ∧ url.slice p (p + raw.length) = raw := by
  obtain ⟨later, a, -, cut, -, hne, hstands⟩ := h
  exact slice_of_standsIn hne hstands

namespace MatchError.PointsInto

theorem repeatedEquals (h : q.HasItem strict url parts raw p) :
    PointsInto strict url parts ⟨.repeatedEquals raw, some p⟩ :=
  ⟨by simp [MatchError.kind], p, rfl, h.slice_eq.1, h.slice_eq.2, q, h⟩

theorem listInQuery (h : q.HasItem strict url parts raw p) :
    PointsInto strict url parts ⟨.listInQuery raw, some p⟩ :=
  ⟨by simp [MatchError.kind], p, rfl, h.slice_eq.1, h.slice_eq.2, q, h⟩

theorem unexpectedPair (h : q.HasItem strict url parts raw p) (hequals : .char '=' ∈ raw)
    {v : VarSpec} (hv : v ∈ q.specs) (hexplode : v.explode = false) :
    PointsInto strict url parts ⟨.unexpectedPair v.name, some p⟩ :=
  ⟨by simp [MatchError.kind], p, rfl, h.slice_eq.1, q, raw, h, hequals, v, hv, rfl, hexplode⟩

theorem extraItems (h : q.HasItem strict url parts raw p) (count : Int) :
    PointsInto strict url parts ⟨.extraItems count, some p⟩ :=
  ⟨by simp [MatchError.kind], p, rfl, h.slice_eq.1, q, raw, h⟩

end MatchError.PointsInto

end

namespace Pattern

/-- The items of a stretch that is not empty are read from its cells. -/
theorem read_eq_ofRaws (layout : ItemLayout) (specs : List VarSpec) {stretch : Text}
    (hne : stretch ≠ []) (start : Nat) :
    Item.read layout stretch start = Item.ofRaws layout.hasLists
      (start + (items layout specs).leadLength : Nat) ((items layout specs).cells stretch) := by
  match layout, stretch, hne with
  | .commas, c :: stretch, _ | .slashes, c :: stretch, _ => rfl

/-- So are the parameters, and both leads of a query are one character. -/
theorem query_read_eq_ofRaws (lead : QueryLead) (groups : List (List VarSpec)) (c : CodePoint)
    (parameters : Text) (start : Nat) :
    Query.read parameters (start + 1) = Parameter.ofRaws
      (start + (query lead groups).leadLength : Nat)
      ((query lead groups).cells (c :: parameters)) := by
  cases lead <;> rfl

variable {strict : Bool} {parts later : List Part} {url stretch : Text} {start : Nat}
  {e : MatchError}

/-- **ITEMS**: an item that cannot be read or handed out is what the error points to. -/
theorem pointsInto_of_bind_items {layout : ItemLayout} {specs : List VarSpec}
    (hitem : ∀ raw position,
      StandsIn raw position (start + (items layout specs).leadLength)
        ((items layout specs).cells stretch) →
      (items layout specs).HasItem strict url parts raw position)
    (hne : stretch ≠ []) (h : (items layout specs).bind strict stretch start = .error e) :
    e.PointsInto strict url parts := by
  rw [bind, read_eq_ofRaws layout specs hne] at h
  cases hread : Item.ofRaws layout.hasLists (start + (items layout specs).leadLength : Nat)
      ((items layout specs).cells stretch) with
  | error e' =>
      rw [hread] at h
      obtain rfl := Except.error.inj h
      obtain ⟨raw, position, hstands, rfl⟩ := Item.standsIn_of_error hread
      exact .repeatedEquals (hitem raw position hstands)
  | ok found =>
      rw [hread] at h
      rcases VarSpec.error_of_takeAll (Except.map_eq_error_iff.1 h) with
        ⟨v, hv, hexplode, item, hfound, hpair, rfl⟩ | ⟨item, hfound, count, rfl⟩
      · obtain ⟨raw, position, hstands, hraw, hposition⟩ := Item.standsIn_of_mem hread hfound
        rw [hposition]
        exact .unexpectedPair (hitem raw position hstands)
          (Item.equals_mem_of_isPair hraw hpair) hv hexplode
      · obtain ⟨raw, position, hstands, -, hposition⟩ := Item.standsIn_of_mem hread hfound
        rw [hposition]
        exact .extraItems (hitem raw position hstands) count

/-- **PARAMETERS**: so is a parameter that cannot be read, or that nobody takes. -/
theorem pointsInto_of_bind_query {lead : QueryLead} {groups : List (List VarSpec)}
    (hitem : ∀ raw position,
      StandsIn raw position (start + (query lead groups).leadLength)
        ((query lead groups).cells stretch) →
      (query lead groups).HasItem strict url parts raw position)
    (h : (query lead groups).bind strict stretch start = .error e) :
    e.PointsInto strict url parts := by
  cases stretch with
  | nil => cases h
  | cons c parameters =>
      rw [bind, Query.bind, query_read_eq_ofRaws lead groups c] at h
      cases hread : Parameter.ofRaws (start + (query lead groups).leadLength : Nat)
          ((query lead groups).cells (c :: parameters)) with
      | error e' =>
          rw [hread] at h
          obtain rfl := Except.error.inj h
          obtain ⟨raw, position, hstands, rfl | rfl⟩ := Parameter.standsIn_of_error hread
          · exact .repeatedEquals (hitem raw position hstands)
          · exact .listInQuery (hitem raw position hstands)
      | ok ps =>
          rw [hread] at h
          obtain ⟨p, hmem, count, rfl⟩ := Declared.error_of_bind h
          obtain ⟨raw, position, hstands, hposition⟩ := Parameter.standsIn_of_mem hread hmem
          rw [hposition]
          exact .extraItems (hitem raw position hstands) count

/-- **STRETCHES**: a stretch that cannot be bound has an item to which the error points. -/
theorem pointsInto_of_bind {p : Pattern} {cut : Cut}
    (hreaches : Reaches strict url parts (.pattern p :: later) start)
    (hcut : cut ∈ p.candidates later (url.drop start))
    (h : p.bind strict ((url.drop start).take cut.length) start = .error e) :
    e.PointsInto strict url parts := by
  by_cases hne : (url.drop start).take cut.length = []
  · -- an empty stretch has no items, and only items are refused
    rw [hne] at h
    match p with
    | items .commas specs | items .slashes specs =>
        rcases VarSpec.error_of_takeAll (Except.map_eq_error_iff.1 h) with
          ⟨-, -, -, item, hitem, -⟩ | ⟨item, hitem, -⟩
        · exact (List.not_mem_nil hitem).elim
        · exact (List.not_mem_nil hitem).elim
    | query lead groups => cases h
  · have hitem : ∀ raw position,
        StandsIn raw position (start + p.leadLength) (p.cells ((url.drop start).take cut.length)) →
        p.HasItem strict url parts raw position :=
      fun raw position hstands => ⟨later, start, hreaches, cut, hcut, hne, hstands⟩
    cases p with
    | items layout specs => exact pointsInto_of_bind_items hitem hne h
    | query lead groups => exact pointsInto_of_bind_query hitem h

end Pattern

/-! ## Search -/

namespace Matching

/-- Of several failures the first is told. -/
theorem eq_error_of_firstSuccess {α ε β : Type} {attempt : α → Except ε β} {a : α} {others : List α}
    {e : ε} (h : firstSuccess attempt a others = .error e) : attempt a = .error e := by
  cases others with
  | nil => exact h
  | cons b others =>
      rw [firstSuccess] at h
      cases ha : attempt a with
      | ok result => rw [ha] at h; cases h
      | error e' =>
          rw [ha] at h
          dsimp only at h
          split at h
          · cases h
          · exact h

variable {strict : Bool} {parts later : List Part} {url : Text} {start : Nat} {e : MatchError}

/-- A failed attempt is a stretch that cannot be bound, or a failure of the parts after it. -/
theorem solveCut_eq_error {p : Pattern} {cut : Cut}
    (h : solveCut strict p later start url cut = .error e) :
    p.bind strict (url.take cut.length) start = .error e ∨
      ∃ bound, p.bind strict (url.take cut.length) start = .ok bound ∧
        solve strict later (start + cut.length) cut.rest = .error e := by
  unfold solveCut at h
  cases hbind : p.bind strict (url.take cut.length) start with
  | error e' =>
      rw [hbind] at h
      exact Or.inl h
  | ok bound =>
      rw [hbind] at h
      exact Or.inr ⟨bound, rfl, Except.map_eq_error_iff.1 h⟩

/-- **SEARCH**: whichever way it fails, the error points into the URL. -/
theorem pointsInto_of_solve (hreaches : Reaches strict url parts later start)
    (hstart : start ≤ url.length) (h : solve strict later start (url.drop start) = .error e) :
    e.PointsInto strict url parts := by
  induction later generalizing start with
  | nil =>
      rw [solve] at h
      cases hrest : url.drop start with
      | nil => rw [hrest] at h; cases h
      | cons c rest =>
          rw [hrest] at h
          obtain rfl := Except.error.inj h
          exact ⟨by simp [MatchError.kind], start, rfl, hstart, hrest.symm, List.cons_ne_nil c rest,
            hreaches⟩
  | cons part later ih =>
      cases part with
      | literal text =>
          rw [solve] at h
          cases hrest : text.isPrefixOf? (url.drop start) with
          | some rest =>
              rw [hrest] at h
              have hurl : text ++ rest = url.drop start :=
                List.isPrefixOf?_eq_some_iff_append_eq.1 hrest
              have hlength : start + text.length ≤ url.length := by
                have := congrArg List.length hurl
                rw [List.length_append, List.length_drop] at this
                omega
              obtain rfl : rest = url.drop (start + text.length) := by
                rw [← List.drop_drop, ← hurl, List.drop_left]
              exact ih (hreaches.literal ⟨_, hurl⟩) hlength h
          | none =>
              rw [hrest] at h
              obtain rfl := Except.error.inj h
              cases text with
              | nil => cases hrest
              | cons c text =>
                  refine ⟨by simp [MatchError.kind], start, rfl, hstart, ?_, ?_, later, hreaches⟩
                  · rw [Text.slice, Nat.add_sub_cancel_left]
                  · intro heq
                    have hprefix : c :: text <+: url.drop start := by
                      rw [← heq]
                      exact List.take_prefix _ _
                    obtain ⟨rest, hurl⟩ := hprefix
                    rw [List.isPrefixOf?_eq_some_iff_append_eq.2 hurl] at hrest
                    cases hrest
      | pattern p =>
          rw [solve_pattern] at h
          have hmem : (p.cuts later (url.drop start)).1 ∈ p.candidates later (url.drop start) :=
            List.mem_cons_self
          obtain ⟨hreach, hcut⟩ := Pattern.eq_of_mem_candidates hmem
          rcases solveCut_eq_error (eq_error_of_firstSuccess h) with
            hbind | ⟨bound, hbind, hsolve⟩
          · exact Pattern.pointsInto_of_bind hreaches hmem hbind
          · rw [hcut, List.drop_drop] at hsolve
            refine ih (hreaches.pattern hmem hbind) ?_ hsolve
            have hlength := p.reach_le_length (url.drop start)
            rw [List.length_drop] at hlength
            omega

end Matching

/-! ## Templates -/

/-- The operators of expressions that can be matched. -/
def Operator.matchable : List Operator := [simple, pathSegment, query, continuation]

theorem Pattern.exists_ofExpression?_iff {e : Expression} :
    (∃ p, ofExpression? e = some p) ↔ e.operator ∈ Operator.matchable := by
  obtain ⟨operator, specs⟩ := e
  cases operator <;> simp [ofExpression?, Operator.matchable]

namespace Segment

/-- The first operator that cannot be matched keeps a template from having parts. -/
theorem toParts_eq_error {segments : List Segment} {e : Expression}
    (h : (segments.filterMap expression?).find? (·.operator ∉ Operator.matchable) = some e) :
    toParts segments = .error e.operator := by
  induction segments with
  | nil => cases h
  | cons s segments ih =>
      cases s with
      | literal text => rw [toParts, toPart, ih h]; rfl
      | expression d =>
          rw [show (expression d :: segments).filterMap expression?
            = d :: segments.filterMap expression? from rfl, List.find?_cons] at h
          cases hpattern : Pattern.ofExpression? d with
          | none =>
              have hd : d.operator ∉ Operator.matchable := by
                rw [← Pattern.exists_ofExpression?_iff, hpattern]
                rintro ⟨_, ⟨⟩⟩
              rw [decide_eq_true hd] at h
              obtain rfl := Option.some.inj h
              rw [toParts, toPart, hpattern]
          | some p =>
              have hd : d.operator ∈ Operator.matchable :=
                Pattern.exists_ofExpression?_iff.1 ⟨p, hpattern⟩
              rw [decide_eq_false (not_not_intro hd)] at h
              rw [toParts, toPart, hpattern, ih h]
              rfl

/-- Where all can be matched there are parts. -/
theorem exists_toParts {segments : List Segment}
    (h : ∀ e ∈ segments.filterMap expression?, e.operator ∈ Operator.matchable) :
    ∃ parts, toParts segments = .ok parts := by
  induction segments with
  | nil => exact ⟨[], rfl⟩
  | cons s segments ih =>
      cases s with
      | literal text =>
          obtain ⟨parts, hparts⟩ := ih h
          exact ⟨_, toParts_cons_eq_ok.2 ⟨_, parts, rfl, hparts, rfl⟩⟩
      | expression e =>
          obtain ⟨he, hlater⟩ := List.forall_mem_cons.1 h
          obtain ⟨p, hp⟩ := Pattern.exists_ofExpression?_iff.2 he
          obtain ⟨parts, hparts⟩ := ih hlater
          exact ⟨_, toParts_cons_eq_ok.2 ⟨.pattern p, parts, by rw [toPart, hp], hparts, rfl⟩⟩

end Segment

namespace Template

theorem isMatchable_iff {t : Template} :
    t.isMatchable = true ↔ ∀ e ∈ t.expressions, e.operator ∈ Operator.matchable := by
  rw [isMatchable, List.all_eq_true]
  refine forall₂_congr fun e _ => ?_
  rw [Option.isSome_iff_exists, Pattern.exists_ofExpression?_iff]

/-- A template that can be matched is one that has parts. -/
theorem isMatchable_iff_exists_parts {t : Template} :
    t.isMatchable = true ↔ ∃ found, t.parts = .ok found := by
  rw [isMatchable_iff]
  constructor
  · intro h
    obtain ⟨found, hfound⟩ := Segment.exists_toParts h
    exact ⟨Part.gather found, by rw [parts, hfound]⟩
  · rintro ⟨found, hfound⟩
    by_contra hno
    push Not at hno
    obtain ⟨e, he, hoperator⟩ := hno
    -- the first expression of that kind is what the template is refused for
    cases hfind : t.expressions.find? (·.operator ∉ Operator.matchable) with
    | none => exact List.find?_eq_none.1 hfind e he (decide_eq_true hoperator)
    | some d =>
        rw [parts, Segment.toParts_eq_error hfind] at hfound
        cases hfound

/-- **CONTRACT**: whatever the URL, a template with an operator that cannot be matched is refused
    with the first of them.  Any other gives a result or one of five errors, which points into the
    URL.  When expressions are matched together, every variable has a number, and finds something or
    nothing, so that nothing else can fail. -/
theorem matchUrl_contract (t : Template) (url : Text) :
    (∀ e, t.expressions.find? (·.operator ∉ Operator.matchable) = some e →
      (t.matchUrl url).value = .error (.unsupported e.operator.sigil t.source)) ∧
    ((∀ e ∈ t.expressions, e.operator ∈ Operator.matchable) →
      ∃ parts, t.parts = .ok parts ∧
        ((∃ result, (t.matchUrl url).value = .ok result) ∨
          ∃ e, (t.matchUrl url).value = .error (.mismatch e) ∧
            e.PointsInto t.config.strictQuery url parts) ∧
        ∀ lead groups, .pattern (.query lead groups) ∈ parts →
          (∀ query offset, Query.bindGrouped t.config.strictQuery groups.flatten
              (Query.numbers groups) query offset
            = (Query.bind t.config.strictQuery groups query offset).mapError .query) ∧
          ∀ ps, ((Finding.all (Declared.ofGroups groups) ps).1.map Finding.declared).Perm
            (Declared.ofGroups groups)) := by
  constructor
  · intro e he
    have hparts : t.parts = .error (.unsupported e.operator.sigil t.source) := by
      rw [parts, Segment.toParts_eq_error he]
    rw [matchUrl, hparts]
  · intro hall
    obtain ⟨found, hfound⟩ := Segment.exists_toParts hall
    have hparts : t.parts = .ok (Part.gather found) := by
      rw [parts, hfound]
    refine ⟨_, hparts, ?_, fun lead groups _ => ⟨fun query offset => ?_, fun ps => ?_⟩⟩
    · rw [Matching.matchUrl_value url hparts]
      cases hsolve : Matching.solve t.config.strictQuery (Part.gather found) 0 url with
      | ok bindings => exact Or.inl ⟨⟨bindings⟩, rfl⟩
      | error e => exact Or.inr ⟨e, rfl, Matching.pointsInto_of_solve .start (Nat.zero_le _) hsolve⟩
    · exact Query.bindGrouped_numbers _ groups query offset
    · exact Finding.perm_map_declared_all _ ps

end Template

end UriTemplate
