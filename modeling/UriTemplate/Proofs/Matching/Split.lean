import UriTemplate.Proofs.Matching.Fill
import UriTemplate.Proofs.Matching.Memory

/-! # Splits — what a search looks for

    A split of a URL gives every part of a template an end: a literal spans exactly
    its text, a pattern before a literal ends within reach where the literal stands,
    any other pattern spans all that it reaches, and every pattern can bind its own
    stretch.  The search is sound and complete for splits, and prefers ends on the
    right:

    * `isSplit_pattern` — the splits at a pattern, in terms of its candidates;
    * `exists_solve_of_isSplit` — where there is a split, plain search succeeds;
    * `greatest_of_solve` — when it succeeds, it has found the greatest split, read
      from the left;
    * `exists_matchUrl_iff_isSplit`, `matchUrl_finds_greatest_split` — what this says of
      a template. -/

namespace UriTemplate

namespace Text

/-- The code points between two positions. -/
def slice (s : Text) (a b : Nat) : Text := (s.drop a).take (b - a)

end Text

/-- What is made of a success succeeds. -/
theorem Except.map_eq_ok_iff {ε α β : Type} {f : α → β} {x : Except ε α} {b : β} :
    x.map f = .ok b ↔ ∃ a, x = .ok a ∧ f a = b := by
  cases x with
  | error e => exact ⟨nofun, fun ⟨_, h, _⟩ => nomatch h⟩
  | ok a => simp [Except.map]

/-- A failure stays as it is. -/
theorem Except.map_eq_error_iff {ε α β : Type} {f : α → β} {x : Except ε α} {e : ε} :
    x.map f = .error e ↔ x = .error e := by
  cases x <;> simp [Except.map]

namespace Matching

variable {strict : Bool} {url : Text}

/-! ## Splits -/

/-- May the part take the URL from position `a` to position `b`, with `next` after it? -/
def Spans (strict : Bool) (url : Text) : Part → Option Part → Nat → Nat → Prop
  | .literal text, _, a, b => url.slice a b = text
  | .pattern p, next, a, b =>
      (match next with
        | some (.literal text) => b ≤ a + p.reach (url.drop a) ∧ text <+: url.drop b
        | _ => b = a + p.reach (url.drop a)) ∧
      ∃ bound, p.bind strict (url.slice a b) a = .ok bound

/-- Do `ends`, one for each part, split the URL from position `a` on? -/
def IsSplit (strict : Bool) (url : Text) : List Part → Nat → List Nat → Prop
  | [], a, [] => a = url.length
  | part :: later, a, b :: ends =>
      a ≤ b ∧ Spans strict url part later.head? a b ∧ IsSplit strict url later b ends
  | _, _, _ => False

/-- What the patterns bind on their stretches of a split, in order. -/
def found (strict : Bool) (url : Text) : List Part → Nat → List Nat → List Bindings
  | .literal _ :: later, _, b :: ends => found strict url later b ends
  | .pattern p :: later, a, b :: ends =>
      (p.bind strict (url.slice a b) a).toOption.toList ++ found strict url later b ends
  | _, _, _ => []

/-- The same positions, or smaller ones when read from the left. -/
def AtMost (others ends : List Nat) : Prop := others = ends ∨ List.Lex (· < ·) others ends

/-- A split at least as great as every other. -/
structure IsGreatestSplit (strict : Bool) (url : Text) (parts : List Part) (a : Nat)
    (ends : List Nat) : Prop where
  isSplit : IsSplit strict url parts a ends
  atMost : ∀ others, IsSplit strict url parts a others → AtMost others ends

theorem AtMost.cons {others ends : List Nat} (h : AtMost others ends) (b : Nat) :
    AtMost (b :: others) (b :: ends) := by
  rcases h with rfl | h
  · exact Or.inl rfl
  · exact Or.inr (.cons h)

/-! ## One part of a split -/

theorem isSplit_nil {a : Nat} {ends : List Nat} :
    IsSplit strict url [] a ends ↔ ends = [] ∧ a = url.length := by
  cases ends with
  | nil => exact ⟨fun h => ⟨rfl, h⟩, And.right⟩
  | cons b ends => exact ⟨False.elim, fun h => absurd h.1 (List.cons_ne_nil b ends)⟩

theorem exists_cons_of_isSplit {part : Part} {later : List Part} {a : Nat} {ends : List Nat}
    (h : IsSplit strict url (part :: later) a ends) : ∃ b rest, ends = b :: rest := by
  cases ends with
  | nil => exact h.elim
  | cons b rest => exact ⟨b, rest, rfl⟩

/-- A literal takes exactly its text. -/
theorem isSplit_literal {text : Text} {later : List Part} {a b : Nat} {ends : List Nat} :
    IsSplit strict url (.literal text :: later) a (b :: ends) ↔
      a ≤ b ∧ url.slice a b = text ∧ IsSplit strict url later b ends := Iff.rfl

/-- After a split before a literal, the literal stands at its position. -/
theorem isPrefix_of_isSplit {next : Text} {later : List Part} {b : Nat} {ends : List Nat}
    (h : IsSplit strict url (.literal next :: later) b ends) : next <+: url.drop b := by
  obtain ⟨c, rest, rfl⟩ := exists_cons_of_isSplit h
  rw [← (isSplit_literal.1 h).2.1]
  exact List.take_prefix _ _

/-- A pattern takes a candidate that it can bind. -/
theorem isSplit_pattern {p : Pattern} {later : List Part} {a b : Nat} {ends : List Nat} :
    IsSplit strict url (.pattern p :: later) a (b :: ends) ↔
      ∃ cut ∈ p.candidates later (url.drop a), b = a + cut.length ∧
        (∃ bound, p.bind strict ((url.drop a).take cut.length) a = .ok bound) ∧
        IsSplit strict url later b ends := by
  have hslice : ∀ n, url.slice a (a + n) = (url.drop a).take n := by
    intro n
    rw [Text.slice, Nat.add_sub_cancel_left]
  by_cases hlit : ∃ next rest, later = .literal next :: rest
  · obtain ⟨next, rest, rfl⟩ := hlit
    constructor
    · rintro ⟨hab, ⟨⟨hle, hnext⟩, hbind⟩, hsplit⟩
      obtain ⟨n, rfl⟩ := Nat.exists_eq_add_of_le hab
      rw [hslice] at hbind
      rw [← List.drop_drop] at hnext
      exact ⟨⟨n, (url.drop a).drop n⟩,
        Pattern.mem_candidates_of_isPrefix (Nat.le_of_add_le_add_left hle) hnext,
        rfl, hbind, hsplit⟩
    · rintro ⟨cut, hcut, rfl, hbind, hsplit⟩
      rw [← hslice] at hbind
      -- where the literal does not stand there is no split of the rest
      exact ⟨Nat.le_add_right _ _, ⟨⟨Nat.add_le_add_left (Pattern.eq_of_mem_candidates hcut).1 a,
        isPrefix_of_isSplit hsplit⟩, hbind⟩, hsplit⟩
  · have hnot : ∀ next rest, later ≠ .literal next :: rest :=
      fun next rest he => hlit ⟨next, rest, he⟩
    have hspans : ∀ b, Spans strict url (.pattern p) later.head? a b ↔
        b = a + p.reach (url.drop a) ∧ ∃ bound, p.bind strict (url.slice a b) a = .ok bound := by
      intro b
      match later, hnot with
      | [], _ => exact Iff.rfl
      | .pattern q :: rest, _ => exact Iff.rfl
      | .literal next :: rest, hnot => exact absurd rfl (hnot next rest)
    rw [IsSplit, hspans, p.candidates_of_not_literal _ hnot]
    constructor
    · rintro ⟨-, ⟨rfl, hbind⟩, hsplit⟩
      rw [hslice] at hbind
      exact ⟨_, List.mem_singleton_self _, rfl, hbind, hsplit⟩
    · rintro ⟨cut, hcut, rfl, hbind, hsplit⟩
      obtain rfl := List.mem_singleton.1 hcut
      rw [← hslice] at hbind
      exact ⟨Nat.le_add_right _ _, ⟨rfl, hbind⟩, hsplit⟩

/-- A split begins within the URL. -/
theorem le_length_of_isSplit {parts : List Part} {a : Nat} {ends : List Nat}
    (h : IsSplit strict url parts a ends) : a ≤ url.length := by
  induction parts generalizing a ends with
  | nil => exact Nat.le_of_eq (isSplit_nil.1 h).2
  | cons part later ih =>
      obtain ⟨b, rest, rfl⟩ := exists_cons_of_isSplit h
      obtain ⟨hab, -, hsplit⟩ := h
      exact Nat.le_trans hab (ih hsplit)

/-- The end of a literal in a split is as far on as its text is long, and the text stands there. -/
theorem drop_of_isSplit_literal {text : Text} {later : List Part} {a b : Nat} {ends : List Nat}
    (h : IsSplit strict url (.literal text :: later) a (b :: ends)) :
    b = a + text.length ∧ url.drop a = text ++ url.drop b := by
  obtain ⟨hab, hslice, hsplit⟩ := isSplit_literal.1 h
  have hb := le_length_of_isSplit hsplit
  obtain ⟨n, rfl⟩ := Nat.exists_eq_add_of_le hab
  rw [Text.slice, Nat.add_sub_cancel_left] at hslice
  have hlen : text.length = n := by
    rw [← hslice, List.length_take, List.length_drop]
    omega
  refine ⟨by rw [hlen], ?_⟩
  rw [← List.drop_drop, ← hslice, List.take_append_drop]

/-! ## Attempts -/

section

variable {α ε β : Type} {attempt : α → Except ε β} {a : α} {others : List α} {result : β}

/-- A first success comes after failures only. -/
theorem exists_of_firstSuccess (h : firstSuccess attempt a others = .ok result) :
    ∃ before b after, a :: others = before ++ b :: after ∧
      (∀ c ∈ before, ∀ r, attempt c ≠ .ok r) ∧ attempt b = .ok result := by
  induction others generalizing a with
  | nil => exact ⟨[], a, [], rfl, fun c hc => (List.not_mem_nil hc).elim, h⟩
  | cons b others ih =>
      rw [firstSuccess] at h
      cases ha : attempt a with
      | ok r =>
          rw [ha] at h
          exact ⟨[], a, b :: others, rfl, fun c hc => (List.not_mem_nil hc).elim, ha.trans h⟩
      | error e =>
          rw [ha] at h
          cases hrest : firstSuccess attempt b others with
          | error e' =>
              rw [hrest] at h
              exact nomatch h
          | ok r =>
              rw [hrest] at h
              obtain ⟨before, c, after, hlist, hfail, hc⟩ := ih (hrest.trans h)
              refine ⟨a :: before, c, after, by rw [hlist, List.cons_append], ?_, hc⟩
              intro d hd r' hr'
              rcases List.mem_cons.1 hd with rfl | hd
              · exact nomatch ha.symm.trans hr'
              · exact hfail d hd r' hr'

/-- If one attempt succeeds, there is a first success. -/
theorem exists_firstSuccess {b : α} (hb : b ∈ a :: others) (h : attempt b = .ok result) :
    ∃ r, firstSuccess attempt a others = .ok r := by
  induction others generalizing a with
  | nil =>
      obtain rfl := List.mem_singleton.1 hb
      exact ⟨result, h⟩
  | cons c others ih =>
      rw [firstSuccess]
      cases ha : attempt a with
      | ok r => exact ⟨r, rfl⟩
      | error e =>
          rcases List.mem_cons.1 hb with rfl | hb
          · exact nomatch ha.symm.trans h
          · obtain ⟨r, hr⟩ := ih hb
            rw [hr]
            exact ⟨r, rfl⟩

/-- Once the first attempt succeeds, no other is made. -/
theorem firstSuccess_of_ok (h : attempt a = .ok result) (others : List α) :
    firstSuccess attempt a others = .ok result := by
  cases others with
  | nil => exact h
  | cons b others => rw [firstSuccess, h]

end

/-- A possible end succeeds when the pattern can bind its stretch and the rest can be matched. -/
theorem solveCut_eq_ok_iff {p : Pattern} {later : List Part} {a : Nat} {rest : Text} {cut : Cut}
    {result : Bindings} :
    solveCut strict p later a rest cut = .ok result ↔
      ∃ bound found, p.bind strict (rest.take cut.length) a = .ok bound ∧
        solve strict later (a + cut.length) cut.rest = .ok found ∧ bound.fill found = result := by
  unfold solveCut
  cases p.bind strict (rest.take cut.length) a with
  | error e => exact ⟨nofun, fun ⟨_, _, h, _⟩ => nomatch h⟩
  | ok bound => simp [Except.map_eq_ok_iff]

/-- The rest is what stands behind the end. -/
theorem solveCut_eq_ok {p : Pattern} {later : List Part} {a : Nat} {cut : Cut}
    {result : Bindings} (hcut : cut.rest = (url.drop a).drop cut.length) :
    solveCut strict p later a (url.drop a) cut = .ok result ↔
      ∃ bound rest, p.bind strict ((url.drop a).take cut.length) a = .ok bound ∧
        solve strict later (a + cut.length) (url.drop (a + cut.length)) = .ok rest ∧
        bound.fill rest = result := by
  rw [List.drop_drop] at hcut
  rw [solveCut_eq_ok_iff, hcut]

/-! ## Search and splits -/

/-- **COMPLETENESS**: where there is a split, plain search succeeds. -/
theorem exists_solve_of_isSplit {parts : List Part} {a : Nat} {ends : List Nat}
    (h : IsSplit strict url parts a ends) :
    ∃ result, solve strict parts a (url.drop a) = .ok result := by
  induction parts generalizing a ends with
  | nil =>
      obtain ⟨-, rfl⟩ := isSplit_nil.1 h
      rw [List.drop_length]
      exact ⟨[], rfl⟩
  | cons part later ih =>
      obtain ⟨b, rest, rfl⟩ := exists_cons_of_isSplit h
      cases part with
      | literal text =>
          obtain ⟨rfl, hdrop⟩ := drop_of_isSplit_literal h
          obtain ⟨result, hresult⟩ := ih (isSplit_literal.1 h).2.2
          rw [solve, List.isPrefixOf?_eq_some_iff_append_eq.2 hdrop.symm]
          exact ⟨result, hresult⟩
      | pattern p =>
          obtain ⟨cut, hcut, rfl, ⟨bound, hbound⟩, hsplit⟩ := isSplit_pattern.1 h
          obtain ⟨found, hfound⟩ := ih hsplit
          rw [solve_pattern]
          exact exists_firstSuccess hcut ((solveCut_eq_ok (Pattern.eq_of_mem_candidates hcut).2).2
            ⟨bound, found, hbound, hfound, rfl⟩)

theorem isGreatestSplit_nil : IsGreatestSplit strict url [] url.length [] where
  isSplit := rfl
  atMost := fun _ hothers => Or.inl (isSplit_nil.1 hothers).1

/-- A literal leaves no choice. -/
theorem IsGreatestSplit.literal {text : Text} {later : List Part} {a : Nat} {ends : List Nat}
    (h : IsGreatestSplit strict url later (a + text.length) ends)
    (hdrop : text ++ url.drop (a + text.length) = url.drop a) :
    IsGreatestSplit strict url (.literal text :: later) a ((a + text.length) :: ends) where
  isSplit := by
    refine isSplit_literal.2 ⟨Nat.le_add_right _ _, ?_, h.isSplit⟩
    rw [Text.slice, Nat.add_sub_cancel_left, ← hdrop, List.take_left]
  atMost := by
    intro others hothers
    obtain ⟨b, rest, rfl⟩ := exists_cons_of_isSplit hothers
    obtain ⟨rfl, -⟩ := drop_of_isSplit_literal hothers
    exact (h.atMost rest (isSplit_literal.1 hothers).2.2).cons _

/-- Of the candidates of a pattern the first that succeeds is in the greatest split. -/
theorem IsGreatestSplit.pattern {p : Pattern} {later : List Part} {a : Nat} {ends : List Nat}
    {before after : List Cut} {cut : Cut}
    (hlist : p.candidates later (url.drop a) = before ++ cut :: after)
    (hfail : ∀ c ∈ before, ∀ r, solveCut strict p later a (url.drop a) c ≠ .ok r)
    (hbind : ∃ bound, p.bind strict ((url.drop a).take cut.length) a = .ok bound)
    (h : IsGreatestSplit strict url later (a + cut.length) ends) :
    IsGreatestSplit strict url (.pattern p :: later) a ((a + cut.length) :: ends) where
  isSplit := by
    refine isSplit_pattern.2 ⟨cut, ?_, rfl, hbind, h.isSplit⟩
    rw [hlist]
    exact List.mem_append_right before List.mem_cons_self
  atMost := by
    intro others hothers
    obtain ⟨b, rest, rfl⟩ := exists_cons_of_isSplit hothers
    obtain ⟨other, hother, rfl, ⟨bound, hbound⟩, hsplit⟩ := isSplit_pattern.1 hothers
    obtain ⟨found, hfound⟩ := exists_solve_of_isSplit hsplit
    -- an end further on would have succeeded before
    have hnot : other ∉ before := fun hb =>
      hfail other hb _ ((solveCut_eq_ok (Pattern.eq_of_mem_candidates hother).2).2
        ⟨bound, found, hbound, hfound, rfl⟩)
    have hpair := p.pairwise_candidates later (url.drop a)
    rw [hlist] at hother hpair
    rcases List.mem_append.1 hother with hb | hb
    · exact absurd hb hnot
    · rcases List.mem_cons.1 hb with rfl | hb
      · exact (h.atMost rest hsplit).cons _
      · have hlt : other.length < cut.length :=
          List.rel_of_pairwise_cons (List.pairwise_append.1 hpair).2.1 hb
        exact Or.inr (.rel (Nat.add_lt_add_left hlt a))

/-- **SOUNDNESS**: when plain search succeeds there is a greatest split, and the result is filled
    from what its patterns bind. -/
theorem greatest_of_solve {parts : List Part} {a : Nat} (ha : a ≤ url.length) {result : Bindings}
    (h : solve strict parts a (url.drop a) = .ok result) :
    ∃ ends, IsGreatestSplit strict url parts a ends ∧
      result = (found strict url parts a ends).foldr Bindings.fill [] := by
  induction parts generalizing a result with
  | nil =>
      cases hdrop : url.drop a with
      | cons c rest =>
          rw [hdrop] at h
          cases h
      | nil =>
          rw [hdrop] at h
          obtain rfl : a = url.length := Nat.le_antisymm ha (List.drop_eq_nil_iff.1 hdrop)
          exact ⟨[], isGreatestSplit_nil, (Except.ok.inj h).symm⟩
  | cons part later ih =>
      cases part with
      | literal text =>
          rw [solve] at h
          cases hrest : text.isPrefixOf? (url.drop a) with
          | none =>
              rw [hrest] at h
              cases h
          | some rest =>
              rw [hrest] at h
              have hdrop : text ++ rest = url.drop a :=
                List.isPrefixOf?_eq_some_iff_append_eq.1 hrest
              have hlen : a + text.length ≤ url.length := by
                have := congrArg List.length hdrop
                rw [List.length_append, List.length_drop] at this
                omega
              obtain rfl : rest = url.drop (a + text.length) := by
                rw [← List.drop_drop, ← hdrop, List.drop_left]
              obtain ⟨ends, hgreatest, rfl⟩ := ih hlen h
              exact ⟨_, hgreatest.literal hdrop, rfl⟩
      | pattern p =>
          rw [solve_pattern] at h
          -- what fails before the first success is in no split
          obtain ⟨before, cut, after, hlist, hfail, hsuccess⟩ := exists_of_firstSuccess h
          have hmem : cut ∈ p.candidates later (url.drop a) := by
            rw [Pattern.candidates, hlist]
            exact List.mem_append_right before List.mem_cons_self
          obtain ⟨hreach, hcut⟩ := Pattern.eq_of_mem_candidates hmem
          have hlen : a + cut.length ≤ url.length := by
            have := p.reach_le_length (url.drop a)
            rw [List.length_drop] at this
            omega
          obtain ⟨bound, rest, hbound, hrest, rfl⟩ := (solveCut_eq_ok hcut).1 hsuccess
          obtain ⟨ends, hgreatest, rfl⟩ := ih hlen hrest
          refine ⟨_, hgreatest.pattern hlist hfail ⟨bound, hbound⟩, ?_⟩
          rw [found, Text.slice, Nat.add_sub_cancel_left, hbound]
          rfl

/-- A template matches just where the URL can be split among its parts. -/
theorem exists_matchUrl_iff_isSplit {t : Template} {parts : List Part}
    (hparts : t.parts = .ok parts) (url : Text) :
    (∃ result, (t.matchUrl url).value = .ok result) ↔
      ∃ ends, IsSplit t.config.strictQuery url parts 0 ends := by
  rw [matchUrl_value url hparts]
  constructor
  · rintro ⟨result, hresult⟩
    cases hsolve : solve t.config.strictQuery parts 0 url with
    | error e =>
        rw [hsolve] at hresult
        cases hresult
    | ok bound =>
        obtain ⟨ends, hgreatest, -⟩ := greatest_of_solve (Nat.zero_le url.length) hsolve
        exact ⟨ends, hgreatest.isSplit⟩
  · rintro ⟨ends, hsplit⟩
    obtain ⟨bound, hbound⟩ := exists_solve_of_isSplit hsplit
    rw [show solve t.config.strictQuery parts 0 url = .ok bound from hbound]
    exact ⟨⟨bound⟩, rfl⟩

/-- A result whose every name has the first value that a row of bindings has for it. -/
def IsFilledFrom (found : List Bindings) (result : MatchResult) : Prop :=
  ∀ name, result.contains name = found.any (OrderedMap.contains · name) ∧
    result.value? name = found.findSome? fun bound => (OrderedMap.get? bound name).join

/-- **SPLITS**: a URL matches exactly when it can be split among the parts of the template, and
    the result is filled from what the patterns bind on their stretches of the greatest split:
    every name has the first value that one of them found for it. -/
theorem matchUrl_finds_greatest_split {t : Template} {parts : List Part}
    (hparts : t.parts = .ok parts) (url : Text) :
    let strict := t.config.strictQuery
    ((∃ result, (t.matchUrl url).value = .ok result) ↔ ∃ ends, IsSplit strict url parts 0 ends) ∧
    ∀ result, (t.matchUrl url).value = .ok result →
      ∃ ends, IsGreatestSplit strict url parts 0 ends ∧
        IsFilledFrom (found strict url parts 0 ends) result := by
  intro strict
  rw [matchUrl_value url hparts]
  have hbest : ∀ result, toResult (solve strict parts 0 url) = .ok result →
      ∃ ends, IsGreatestSplit strict url parts 0 ends ∧
        IsFilledFrom (found strict url parts 0 ends) result := by
    intro result hresult
    cases hsolve : solve strict parts 0 url with
    | error e =>
        rw [hsolve] at hresult
        exact nomatch hresult
    | ok bindings =>
        rw [hsolve] at hresult
        obtain rfl : ⟨bindings⟩ = result := Except.ok.inj hresult
        obtain ⟨ends, hgreatest, rfl⟩ := greatest_of_solve (Nat.zero_le url.length) hsolve
        exact ⟨ends, hgreatest, fun name => ⟨Bindings.contains_foldr_fill _ name,
          Bindings.join_get?_foldr_fill _ name⟩⟩
  refine ⟨⟨?_, ?_⟩, hbest⟩
  · rintro ⟨result, hresult⟩
    obtain ⟨ends, hgreatest, -⟩ := hbest result hresult
    exact ⟨ends, hgreatest.isSplit⟩
  · rintro ⟨ends, hsplit⟩
    obtain ⟨bindings, hbindings⟩ := exists_solve_of_isSplit hsplit
    rw [show solve strict parts 0 url = .ok bindings from hbindings]
    exact ⟨⟨bindings⟩, rfl⟩

/-- Of the two dots of a URL the second ends the first variable. -/
theorem matchUrl_finds_greatest_split_dots :
    let specs (name : String) : List VarSpec := [⟨name.toList, false, none⟩]
    let parts : List Part :=
      [.pattern (.items .commas (specs "a")), .literal ".".toText,
        .pattern (.items .commas (specs "b"))]
    let t : Template := .mk "\x7ba\x7d.\x7bb\x7d".toText
      [.expression ⟨.simple, specs "a"⟩, .literal ".".toText, .expression ⟨.simple, specs "b"⟩]
      ⟨true, false⟩
    let result : MatchResult :=
      ⟨[("a".toText, some (.ofText "x.y".toText)), ("b".toText, some (.ofText "z".toText))]⟩
    t.parts = .ok parts ∧ (t.matchUrl "x.y.z".toText).value = .ok result ∧
    ∃ ends, IsGreatestSplit false "x.y.z".toText parts 0 ends ∧
      IsFilledFrom (found false "x.y.z".toText parts 0 ends) result := by
  intro specs parts t result
  have hparts : t.parts = .ok parts := rfl
  have hvalue : (t.matchUrl "x.y.z".toText).value = .ok result :=
    (matchUrl_value "x.y.z".toText hparts).trans rfl
  exact ⟨hparts, hvalue, (matchUrl_finds_greatest_split hparts "x.y.z".toText).2 result hvalue⟩

end Matching

end UriTemplate
