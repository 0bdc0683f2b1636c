import Mathlib.Data.List.Forall2
import UriTemplate.Proofs.Matching.Repeated

/-! # Reordering — parameters are told apart by name, not by position

    Each round looks for parameters of a name and takes them out, so all that it comes to
    is a matter of the rows of parameters name by name (`Parameter.AreAlike`).  Two queries
    whose parameters stand in another order, but in the same under every name, are therefore
    matched alike; only the variable that takes what all others leave gets to see the order
    of different names.

    * `Finding.firstRound_of_areAlike`, `Finding.secondRound_of_areAlike` — the first two
      rounds find the same, and leave rows that are alike again;
    * `Finding.forall₂_all` — so do all three, but for the order of what the third takes;
    * `Finding.isSettledAlike` — a name is settled alike;
    * **`Query.bindGrouped_reordered`** — the same is bound, and as many are refused. -/

namespace UriTemplate

/-! ## Rows that are the same name by name -/

namespace Parameter

/-- What a parameter holds, wherever it stands. -/
def content (p : Parameter) : Text × Option Text := (p.name, p.raw)

/-- Do the rows hold the same under every name, in the same order? -/
def AreAlike (ps qs : List Parameter) : Prop :=
  ∀ name, (ofName name ps).map content = (ofName name qs).map content

/-- The entry of an associative array for what a parameter holds. -/
def entry (c : Text × Option Text) : Text × Value :=
  (c.1, .ofText (Percent.decode (c.2.getD [])))

theorem single?_congr {p q : Parameter} (h : p.content = q.content) : p.single? = q.single? := by
  have hraw : p.raw = q.raw := congrArg Prod.snd h
  rw [single?, single?, hraw]

theorem map_text_congr {ps qs : List Parameter} (h : ps.map content = qs.map content) :
    ps.map text = qs.map text := by
  have htext : text = (fun c => Percent.decode (c.2.getD [])) ∘ content := rfl
  rw [htext, ← List.map_map, ← List.map_map, h]

theorem ofName_cons (name : Text) (p : Parameter) (ps : List Parameter) :
    ofName name (p :: ps) = if p.name = name then p :: ofName name ps else ofName name ps := by
  rw [ofName, List.filter_cons]
  simp only [decide_eq_true_eq]
  rfl

/-- Taking the first parameter of a name shortens the row of that name and of no other. -/
theorem ofName_takeFirst (name other : Text) (ps : List Parameter) :
    ofName other (takeFirst name ps).2
      = if other = name then (ofName name ps).tail else ofName other ps := by
  rw [takeFirst_eq]
  dsimp only
  split
  · next heq =>
      subst heq
      induction ps with
      | nil => rfl
      | cons p ps ih =>
          rw [withoutFirst, ofName_cons]
          by_cases hp : p.name = other
          · have hseen : ∀ n ∈ [other], n ∈ [p.name] := by
              rw [hp]
              exact fun n hn => hn
            rw [if_pos ⟨List.mem_singleton.2 hp, List.not_mem_nil⟩, if_pos hp,
              withoutFirst_of_subset hseen, List.tail_cons]
          · have hskip : ∀ n ∈ [other], n ∈ [] ↔ n ∈ [p.name] := by
              intro n hn
              rw [List.mem_singleton.1 hn, List.mem_singleton]
              exact iff_of_false List.not_mem_nil (Ne.symm hp)
            rw [if_neg fun h => hp (List.mem_singleton.1 h.1), if_neg hp, ofName_cons, if_neg hp,
              ← withoutFirst_congr hskip, ih]
  · next hne => exact ofName_withoutFirst (mt List.mem_singleton.1 hne) [] ps

section

variable {ps qs : List Parameter} (h : AreAlike ps qs)

include h

/-- **TAKING**: of rows that are alike the first parameters of a name hold the same, and what is
    left is alike. -/
theorem AreAlike.takeFirst (name : Text) :
    (Parameter.takeFirst name ps).1.map content = (Parameter.takeFirst name qs).1.map content ∧
      AreAlike (Parameter.takeFirst name ps).2 (Parameter.takeFirst name qs).2 := by
  constructor
  · rw [takeFirst_eq, takeFirst_eq, ← List.head?_map, ← List.head?_map, h name]
  · intro other
    rw [ofName_takeFirst, ofName_takeFirst]
    split
    · rw [List.map_tail, List.map_tail, h name]
    · exact h other

theorem AreAlike.without (names : List Text) :
    AreAlike (Parameter.without names ps) (Parameter.without names qs) := by
  intro other
  by_cases hother : other ∈ names
  · have hnone : ∀ row : List Parameter, ofName other (Parameter.without names row) = [] := by
      intro row
      refine List.filter_eq_nil_iff.2 fun p hp hname => ?_
      have hp := of_decide_eq_true (List.mem_filter.1 hp).2
      rw [of_decide_eq_true hname] at hp
      exact hp hother
    rw [hnone, hnone]
  · rw [ofName_without hother, ofName_without hother]
    exact h other

/-- What rows that are alike hold is the same, in some order. -/
theorem AreAlike.perm : (ps.map content).Perm (qs.map content) := by
  have hcount : ∀ (row : List Parameter) (c : Text × Option Text),
      (row.map content).count c = ((ofName c.1 row).map content).count c := by
    intro row c
    have hname : ((row.map content).filter fun d => d.1 = c.1) = (ofName c.1 row).map content :=
      List.filter_map
    rw [← hname]
    exact (List.count_filter (p := fun d : Text × Option Text => d.1 = c.1)
      (decide_eq_true rfl)).symm
  rw [List.perm_iff_count]
  intro c
  rw [hcount ps, hcount qs, h c.1]

theorem AreAlike.length_eq : ps.length = qs.length := by
  have hlength := h.perm.length_eq
  rwa [List.length_map, List.length_map] at hlength

/-- An array of what is left has the same pairs, or there is none. -/
theorem AreAlike.assoc? : (Parameter.assoc? ps = none ∧ Parameter.assoc? qs = none) ∨
    ∃ pairs others, Parameter.assoc? ps = some (.assoc pairs) ∧
      Parameter.assoc? qs = some (.assoc others) ∧ pairs.Perm others := by
  have hlength := h.length_eq
  have hperm := h.perm.map entry
  rw [List.map_map, List.map_map] at hperm
  cases ps with
  | nil =>
      left
      rw [List.length_eq_zero_iff.1 hlength.symm]
      exact ⟨rfl, rfl⟩
  | cons p ps =>
      cases qs with
      | nil => cases hlength
      | cons q qs =>
          right
          exact ⟨_, _, rfl, rfl, hperm⟩

end

end Parameter

/-! ## The rounds -/

namespace Finding

open Parameter

variable {ι : Type} {ps qs : List Parameter}

/-- **FIRST ROUND**: it finds the same, and leaves rows that are alike. -/
theorem firstRound_of_areAlike (ds : List (Declared ι)) (h : AreAlike ps qs) :
    (firstRound ds ps).1 = (firstRound ds qs).1 ∧
      AreAlike (firstRound ds ps).2 (firstRound ds qs).2 := by
  induction ds generalizing ps qs with
  | nil => exact ⟨rfl, h⟩
  | cons d ds ih =>
      rw [firstRound, firstRound]
      cases hexplode : d.spec.explode with
      | true => exact ih h
      | false =>
          obtain ⟨hfound, hleft⟩ := h.takeFirst d.spec.name
          obtain ⟨hothers, hrest⟩ := ih hleft
          have hvalue : (Parameter.takeFirst d.spec.name ps).1.bind Parameter.single?
              = (Parameter.takeFirst d.spec.name qs).1.bind Parameter.single? := by
            cases hp : (Parameter.takeFirst d.spec.name ps).1 with
            | none =>
                rw [hp] at hfound
                rw [Option.map_eq_none_iff.1 hfound.symm]
            | some p =>
                rw [hp] at hfound
                obtain ⟨q, hq, hcontent⟩ := Option.map_eq_some_iff.1 hfound.symm
                rw [hq]
                exact (single?_congr hcontent).symm
          refine ⟨?_, hrest⟩
          show (⟨d, _⟩ : Finding ι) :: _ = ⟨d, _⟩ :: _
          rw [hvalue, hothers]

/-- **SECOND ROUND**: it finds the same, passes over the same variables, and leaves rows that are
    alike. -/
theorem secondRound_of_areAlike (ds : List (Declared ι)) (h : AreAlike ps qs) :
    (secondRound ds ps).1 = (secondRound ds qs).1 ∧
      (secondRound ds ps).2.1 = (secondRound ds qs).2.1 ∧
      AreAlike (secondRound ds ps).2.2 (secondRound ds qs).2.2 := by
  induction ds generalizing ps qs with
  | nil => exact ⟨rfl, rfl, h⟩
  | cons d ds ih =>
      rw [secondRound, secondRound]
      cases hexplode : d.spec.explode with
      | false => exact ih h
      | true =>
          have hown : (ps.filter (·.name = d.spec.name)).map content
              = (qs.filter (·.name = d.spec.name)).map content := h d.spec.name
          cases hp : ps.filter (·.name = d.spec.name) with
          | nil =>
              rw [hp] at hown
              rw [List.map_eq_nil_iff.1 hown.symm]
              obtain ⟨hfound, hpassed, hleft⟩ := ih h
              exact ⟨hfound, congrArg (d :: ·) hpassed, hleft⟩
          | cons p own =>
              rw [hp] at hown
              cases hq : qs.filter (·.name = d.spec.name) with
              | nil =>
                  rw [hq] at hown
                  cases hown
              | cons q others =>
                  rw [hq] at hown
                  have hothers : ∀ row : List Parameter, row.filter (·.name ≠ d.spec.name)
                      = without [d.spec.name] row := by
                    intro row
                    simp only [without, List.mem_singleton]
                  have halike := h.without [d.spec.name]
                  rw [← hothers, ← hothers] at halike
                  obtain ⟨hfound, hpassed, hleft⟩ := ih halike
                  refine ⟨?_, hpassed, hleft⟩
                  show (⟨d, some _⟩ : Finding ι) :: _ = ⟨d, some _⟩ :: _
                  rw [map_text_congr hown, hfound]

/-- The variable that takes what all others leave, if there is one. -/
def taker (ds : List (Declared ι)) (ps : List Parameter) : Option (Declared ι) :=
  (secondRound ds (firstRound ds ps).2).2.1.head?

/-- Did the variable find the same, or, where it is the one that takes what is left, an array of
    rows that are alike? -/
def IsFoundAlike (taker : Option (Declared ι)) (x y : Finding ι) : Prop :=
  x.declared = y.declared ∧
    (x.value = y.value ∨ taker = some x.declared ∧
      ∃ rest others, AreAlike rest others ∧ x.value = assoc? rest ∧ y.value = assoc? others)

/-- **ALL ROUNDS**: every variable finds the same, but for the order of what the third round takes,
    and rows that are alike are left. -/
theorem forall₂_all (ds : List (Declared ι)) (h : AreAlike ps qs) :
    List.Forall₂ (IsFoundAlike (taker ds ps)) (all ds ps).1 (all ds qs).1 ∧
      AreAlike (all ds ps).2 (all ds qs).2 := by
  have hsame : ∀ {t : Option (Declared ι)} (found : List (Finding ι)),
      List.Forall₂ (IsFoundAlike t) found found :=
    fun found => List.forall₂_same.2 fun x _ => ⟨rfl, Or.inl rfl⟩
  obtain ⟨hfirst, hleft⟩ := firstRound_of_areAlike ds h
  obtain ⟨hsecond, hpassed, hrest⟩ := secondRound_of_areAlike ds hleft
  unfold all taker
  dsimp only
  rw [hfirst, hsecond, hpassed]
  cases (secondRound ds (firstRound ds qs).2).2.1 with
  | nil => exact ⟨hsame _, hrest⟩
  | cons d more =>
      refine ⟨List.rel_append (hsame _) (.cons ⟨rfl, ?_⟩ (hsame _)), fun _ => rfl⟩
      right
      exact ⟨rfl, _, _, hrest, rfl, rfl⟩

/-! ## Settling -/

section

variable {t : Option (Declared ι)} {x y : Finding ι}

/-- Whoever finds something finds something. -/
theorem IsFoundAlike.isSome_eq (h : IsFoundAlike t x y) : x.value.isSome = y.value.isSome := by
  obtain ⟨-, heq | ⟨-, rest, others, halike, hx, hy⟩⟩ := h
  · rw [heq]
  · rw [hx, hy]
    rcases halike.assoc? with ⟨hrest, hothers⟩ | ⟨pairs, more, hrest, hothers, -⟩
    · rw [hrest, hothers]
    · rw [hrest, hothers]
      rfl

/-- Is a value bound that is the same, or, for the variable that takes what is left, the same pairs
    in some order? -/
def IsSettledAlike (t : Option (Declared ι)) (name : Text) (v w : Option Value) : Prop :=
  v = w ∨ (∃ d, t = some d ∧ d.spec.name = name) ∧
    ∃ pairs others, v = some (.assoc pairs) ∧ w = some (.assoc others) ∧ pairs.Perm others

/-- No part of an array of parameters is undefined, so pruning keeps its pairs. -/
theorem IsFoundAlike.settled (h : IsFoundAlike t x y) :
    IsSettledAlike t x.name (x.value.bind Value.prune) (y.value.bind Value.prune) := by
  obtain ⟨-, heq | ⟨ht, rest, others, halike, hx, hy⟩⟩ := h
  · left
    rw [heq]
  · rw [hx, hy, bind_prune_assoc?, bind_prune_assoc?]
    rcases halike.assoc? with ⟨hrest, hothers⟩ | ⟨pairs, more, hrest, hothers, hperm⟩
    · left
      rw [hrest, hothers]
    · right
      exact ⟨⟨x.declared, ht, rfl⟩, pairs, more, hrest, hothers, hperm⟩

/-- The last of findings of a name that are alike is bound alike. -/
theorem isSettledAlike_getLast? {name : Text} {xs ys : List (Finding ι)}
    (h : List.Forall₂ (IsFoundAlike t) xs ys) (hname : ∀ x ∈ xs, x.name = name) :
    IsSettledAlike t name ((xs.getLast?.bind value).bind Value.prune)
      ((ys.getLast?.bind value).bind Value.prune) := by
  rw [← List.forall₂_reverse_iff] at h
  have hmem : ∀ x ∈ xs.reverse, x.name = name := fun x hx => hname x (List.mem_reverse.1 hx)
  rw [List.getLast?_eq_head?_reverse, List.getLast?_eq_head?_reverse]
  generalize xs.reverse = xs at h hmem
  generalize ys.reverse = ys at h
  cases h with
  | nil => exact Or.inl rfl
  | @cons x y _ _ hxy _ =>
      rw [← hmem x List.mem_cons_self]
      exact hxy.settled

/-- **SETTLING**: where variables find alike, a name is settled alike. -/
theorem isSettledAlike [DecidableEq ι] {found others : List (Finding ι)}
    (h : List.Forall₂ (IsFoundAlike t) found others) (name : Text) :
    IsSettledAlike t name ((settle found name).bind Value.prune)
      ((settle others name).bind Value.prune) := by
  have hfilter : ∀ {q : Finding ι → Bool} {xs ys : List (Finding ι)},
      (∀ x y, IsFoundAlike t x y → (q x = true ↔ q y = true)) →
      List.Forall₂ (IsFoundAlike t) xs ys →
      List.Forall₂ (IsFoundAlike t) (xs.filter q) (ys.filter q) :=
    fun hq hxs => List.rel_filter (fun x y hxy => hq x y hxy) hxs
  have hown := hfilter (q := fun f => f.name = name ∧ f.value.isSome) (fun x y hxy => by
    have hname : x.name = y.name := congrArg (fun d : Declared ι => d.spec.name) hxy.1
    rw [hname, hxy.isSome_eq]) h
  have hname : ∀ x ∈ found.filter (fun f => f.name = name ∧ f.value.isSome), x.name = name :=
    fun x hx => (of_decide_eq_true (List.mem_filter.1 hx).2).1
  unfold settle
  dsimp only
  generalize found.filter (fun f => f.name = name ∧ f.value.isSome) = xs at hown hname ⊢
  generalize others.filter (fun f => f.name = name ∧ f.value.isSome) = ys at hown ⊢
  cases hown with
  | nil => exact Or.inl rfl
  | @cons f g xs ys hfg hxsys =>
      -- the first findings are of one group, so the same variables count
      have hgroup : ∀ x y : Finding ι, IsFoundAlike t x y → x.group = y.group :=
        fun x y hxy => congrArg Declared.group hxy.1
      dsimp only
      rw [hgroup f g hfg]
      refine isSettledAlike_getLast? (hfilter (fun x y hxy => ?_) (.cons hfg hxsys)) ?_
      · rw [hgroup x y hxy]
      · exact fun x hx => hname x (List.mem_filter.1 hx).1

end

end Finding

/-! ## Queries -/

namespace Query

/-- The texts between ampersands, without empty ones. -/
def pieces (query : Text) : List Text := (query.splitOn (.char '&')).filter (· ≠ [])

/-- What a text between ampersands holds: its decoded name, and its value as it stands. -/
def pieceContent (piece : Text) : Text × Option Text :=
  (Percent.decode (piece.cut '=').1, (piece.cut '=').2)

/-- The texts between ampersands that have a name. -/
def piecesOf (name query : Text) : List Text :=
  (pieces query).filter fun piece => (pieceContent piece).1 = name

/-- Is the other query this one with the texts between its ampersands in another order, those of one
    name in the same, and with empty ones put in or left out anywhere? -/
structure IsReordered (query other : Text) : Prop where
  perm : (pieces query).Perm (pieces other)
  inOrder : ∀ name, piecesOf name query = piecesOf name other

/-- Only names that occur have to be looked at. -/
theorem isReordered_iff {query other : Text} : IsReordered query other ↔
    (pieces query).Perm (pieces other) ∧
      ∀ piece ∈ pieces query, piecesOf (pieceContent piece).1 query
        = piecesOf (pieceContent piece).1 other := by
  constructor
  · intro h
    exact ⟨h.perm, fun piece _ => h.inOrder _⟩
  · rintro ⟨hperm, horder⟩
    refine ⟨hperm, fun name => ?_⟩
    by_cases hname : ∃ piece ∈ pieces query, (pieceContent piece).1 = name
    · obtain ⟨piece, hpiece, rfl⟩ := hname
      exact horder piece hpiece
    · have hnone : ∀ piece ∈ pieces query, ¬ decide ((pieceContent piece).1 = name) = true :=
        fun piece hpiece hn => hname ⟨piece, hpiece, of_decide_eq_true hn⟩
      rw [piecesOf, piecesOf, List.filter_eq_nil_iff.2 hnone, List.filter_eq_nil_iff.2]
      exact fun piece hpiece => hnone piece (hperm.mem_iff.2 hpiece)

instance (query other : Text) : Decidable (IsReordered query other) :=
  decidable_of_iff _ isReordered_iff.symm

end Query

namespace Parameter

/-- A parameter that was read holds what its text holds. -/
theorem content_of_ofRaw {raw : Text} {position : Int} {p : Parameter}
    (h : ofRaw raw position = .ok p) : p.content = Query.pieceContent raw := by
  rw [Query.pieceContent]
  unfold ofRaw at h
  split at h
  · next name value hcut =>
      split at h
      · cases h
      · rw [← Except.ok.inj h, hcut]
        rfl
  · next name hcut =>
      split at h
      · cases h
      · rw [← Except.ok.inj h, hcut]
        rfl

theorem map_content_of_ofRaws {raws : List Text} {offset : Int} {ps : List Parameter}
    (h : ofRaws offset raws = .ok ps) :
    ps.map content = (raws.filter (· ≠ [])).map Query.pieceContent := by
  induction raws generalizing offset ps with
  | nil =>
      obtain rfl := Except.ok.inj h
      rfl
  | cons raw raws ih =>
      cases raw with
      | nil => exact ih h
      | cons c raw =>
          rw [ofRaws] at h
          · cases hraw : ofRaw (c :: raw) offset with
            | error e =>
                rw [hraw] at h
                cases h
            | ok p =>
                rw [hraw] at h
                obtain ⟨rest, hrest, rfl⟩ := Except.map_eq_ok_iff.1 h
                rw [List.map_cons, content_of_ofRaw hraw, ih hrest,
                  List.filter_cons_of_pos (by simp), List.map_cons]
          · exact List.cons_ne_nil c raw

end Parameter

namespace Query

open Parameter

/-- Parameters read from a query and from a reordered one are alike. -/
theorem areAlike_of_isReordered {query other : Text} {offset start : Int}
    {ps qs : List Parameter} (h : IsReordered query other) (hread : read query offset = .ok ps)
    (hother : read other start = .ok qs) : AreAlike ps qs := by
  have hrow : ∀ {query : Text} {offset : Int} {row : List Parameter},
      read query offset = .ok row → ∀ name,
        (ofName name row).map content = (piecesOf name query).map pieceContent := by
    intro query offset row hrow name
    have hname : ((row.map content).filter fun c => c.1 = name) = (ofName name row).map content :=
      List.filter_map
    rw [← hname, map_content_of_ofRaws hrow, List.filter_map]
    rfl
  intro name
  rw [hrow hread, hrow hother, h.inOrder name]

end Query

/-- What is bound for parameters that are alike: the same, but for the order of what is left; and if
    strict, as many are refused. -/
theorem Declared.bind_of_areAlike {ι : Type} [DecidableEq ι] (ds : List (Declared ι))
    {ps qs : List Parameter} (h : Parameter.AreAlike ps qs) :
    (∃ bindings others, bind false ds ps = .ok bindings ∧ bind false ds qs = .ok others ∧
      List.Forall₂ (fun x y => x.1 = y.1 ∧
        Finding.IsSettledAlike (Finding.taker ds ps) x.1 x.2 y.2) bindings others) ∧
    ∀ n, (∃ position, bind true ds ps = .error ⟨.extraItems n, position⟩) ↔
      ∃ position, bind true ds qs = .error ⟨.extraItems n, position⟩ := by
  obtain ⟨hfound, hleft⟩ := Finding.forall₂_all ds h
  have hlength := hleft.length_eq
  constructor
  · refine ⟨_, _, rfl, rfl, ?_⟩
    rw [List.forall₂_map_left_iff, List.forall₂_map_right_iff, List.forall₂_same]
    intro name _
    exact ⟨rfl, Finding.isSettledAlike hfound name⟩
  · intro n
    unfold bind
    dsimp only
    cases hps : (Finding.all ds ps).2 with
    | nil =>
        rw [hps] at hlength
        rw [List.length_eq_zero_iff.1 hlength.symm]
        exact iff_of_false nofun nofun
    | cons p left =>
        cases hqs : (Finding.all ds qs).2 with
        | nil =>
            rw [hps, hqs] at hlength
            cases hlength
        | cons q others =>
            rw [hps, hqs, List.length_cons, List.length_cons] at hlength
            have hn : ((left.length : Int) + 1) = (others.length : Int) + 1 := by omega
            dsimp only
            rw [hn]
            simp only [Except.error.injEq, MatchError.mk.injEq, exists_and_left, exists_eq']

namespace Query

/-- **BY NAME, NOT POSITION**: for two queries that can be read, one with the parameters of the
    other in another order, those of one name in the same, and whatever empty ones: every name is
    bound to the same value, except that the array of the variable that takes what is left may have
    its pairs in another order; and if strict, parameters are refused for the one just when they are
    for the other, and as many. -/
theorem bindGrouped_reordered {specs : List VarSpec} {groups : List Int}
    (hgroups : groups.length = specs.length) {query other : Text} {offset start : Int}
    {ps qs : List Parameter} (hread : read query offset = .ok ps)
    (hother : read other start = .ok qs) (h : IsReordered query other) :
    (∃ bindings others, bindGrouped false specs groups query offset = .ok bindings ∧
      bindGrouped false specs groups other start = .ok others ∧
      List.Forall₂ (fun x y => x.1 = y.1 ∧ (x.2 = y.2 ∨
        (∃ d, Finding.taker (List.zipWith Declared.mk specs groups) ps = some d ∧
          d.spec.name = x.1) ∧
        ∃ pairs more, x.2 = some (.assoc pairs) ∧ y.2 = some (.assoc more) ∧ pairs.Perm more))
        bindings others) ∧
    ∀ n, (∃ position, bindGrouped true specs groups query offset
        = .error (.query ⟨.extraItems n, position⟩)) ↔
      ∃ position, bindGrouped true specs groups other start
        = .error (.query ⟨.extraItems n, position⟩) := by
  have hbind : ∀ (strict : Bool) {query : Text} {offset : Int} {row : List Parameter},
      read query offset = .ok row → bindGrouped strict specs groups query offset
        = (Declared.bind strict (List.zipWith Declared.mk specs groups) row).mapError .query := by
    intro strict query offset row hrow
    rw [bindGrouped, hrow]
    dsimp only
    rw [if_neg (by omega), if_neg (by omega)]
    cases Declared.bind strict (List.zipWith Declared.mk specs groups) row <;> rfl
  have hrefused : ∀ {result : Except MatchError Bindings} {e : MatchError},
      result.mapError GroupedFault.query = .error (.query e) ↔ result = .error e := by
    intro result e
    cases result <;> simp [Except.mapError]
  obtain ⟨⟨bindings, others, hbindings, hothers, hforall⟩, hstrict⟩ :=
    Declared.bind_of_areAlike (List.zipWith Declared.mk specs groups)
      (areAlike_of_isReordered h hread hother)
  constructor
  · refine ⟨bindings, others, ?_, ?_, hforall⟩
    · rw [hbind false hread, hbindings]
      rfl
    · rw [hbind false hother, hothers]
      rfl
  · intro n
    simp only [hbind true hread, hbind true hother, hrefused]
    exact hstrict n

/-- A name with two variables, and one that takes what is left: only it sees the other order.
    Without it what is left is refused. -/
theorem bindGrouped_reordered_rest :
    let specs : List VarSpec :=
      [⟨"a".toText, false, none⟩, ⟨"r".toText, true, none⟩, ⟨"a".toText, true, none⟩]
    let query : Text := "x=1&a=1&y&a=3,4".toText
    let other : Text := "&a=1&y&&a=3,4&x=1&".toText
    IsReordered query other ∧
    bindGrouped false specs [0, 0, 1] query 1 = .ok [("a".toText, some (.ofText "1".toText)),
      ("r".toText, some (.assoc [("x".toText, .ofText "1".toText), ("y".toText, .ofText [])]))] ∧
    bindGrouped false specs [0, 0, 1] other 1 = .ok [("a".toText, some (.ofText "1".toText)),
      ("r".toText, some (.assoc [("y".toText, .ofText []), ("x".toText, .ofText "1".toText)]))] ∧
    (∃ position, bindGrouped true (specs.take 1) [0] query 1
      = .error (.query ⟨.extraItems 3, position⟩)) ∧
    ∃ position, bindGrouped true (specs.take 1) [0] other 1
      = .error (.query ⟨.extraItems 3, position⟩) := by
  intro specs query other
  have hreordered : IsReordered query other := by decide +kernel
  have hread : read query 1 = .ok [⟨"x".toText, some "1".toText, 1⟩,
    ⟨"a".toText, some "1".toText, 5⟩, ⟨"y".toText, none, 9⟩,
    ⟨"a".toText, some "3,4".toText, 11⟩] := by decide +kernel
  have hother : read other 1 = .ok [⟨"a".toText, some "1".toText, 2⟩, ⟨"y".toText, none, 6⟩,
    ⟨"a".toText, some "3,4".toText, 9⟩, ⟨"x".toText, some "1".toText, 15⟩] := by decide +kernel
  have hlength : ([0] : List Int).length = (specs.take 1).length := rfl
  have hstrict := (bindGrouped_reordered hlength hread hother hreordered).2 3
  have hrefused : bindGrouped true (specs.take 1) [0] query 1
      = .error (.query ⟨.extraItems 3, some 1⟩) := by
    rw [bindGrouped, hread]
    rfl
  refine ⟨hreordered, ?_, ?_, ⟨some 1, hrefused⟩, hstrict.1 ⟨some 1, hrefused⟩⟩
  · rw [bindGrouped, hread]
    rfl
  · rw [bindGrouped, hother]
    rfl

end Query

end UriTemplate
