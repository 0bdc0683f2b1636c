import Mathlib.Data.List.Nodup
import UriTemplate.Match.Query

/-! # Rounds — what variables of distinct names find

    A query hands out its parameters in three rounds.  Where names are distinct, a
    variable finds what it finds without regard to the others, and for each round there
    is one statement of what it finds and what it leaves:

    * `Parameter.takeFirst_eq` — the first parameter of a name, and all others in order;
    * `Finding.firstRound_eq` — so variables that are not exploded find the first
      parameters of their names;
    * `Finding.secondRound_eq` — exploded variables find all parameters of their names;
    * `Finding.all_eq_of_distinct` — the three rounds, the third of which has to do with
      what the others left;
    * `Declared.bind_eq_of_all` — the bindings are what the rounds have found. -/

namespace UriTemplate

/-- A list of distinct texts has no repetitions to leave out. -/
theorem Text.distinct_of_nodup {texts : List Text} (h : texts.Nodup) : distinct texts = texts := by
  induction texts with
  | nil => rfl
  | cons t texts ih =>
      obtain ⟨ht, htexts⟩ := List.nodup_cons.1 h
      rw [distinct, ih htexts, List.filter_eq_self.2]
      intro s hs
      rw [decide_eq_true_eq]
      rintro rfl
      exact ht hs

/-! ## The three rounds -/

section

variable {ι : Type} {ds : List (Declared ι)}

namespace Parameter

/-- The parameters of a name. -/
def ofName (name : Text) (ps : List Parameter) : List Parameter := ps.filter (·.name = name)

/-- The parameters that have none of some names. -/
def without (names : List Text) (ps : List Parameter) : List Parameter :=
  ps.filter (·.name ∉ names)

theorem without_congr {names more : List Text} (h : ∀ name, name ∈ names ↔ name ∈ more)
    (ps : List Parameter) : without names ps = without more ps :=
  List.filter_congr fun p _ => decide_eq_decide.2 (not_congr (h p.name))

/-- Leaving out some names, then others, is leaving out all of them. -/
theorem without_without (names more : List Text) (ps : List Parameter) :
    without more (without names ps) = without (names ++ more) ps := by
  rw [without, without, List.filter_filter]
  refine List.filter_congr fun p _ => ?_
  rw [← Bool.decide_and, decide_eq_decide, List.mem_append, not_or, and_comm]

/-- Leaving out a name that nobody has changes nothing. -/
theorem without_of_ofName_eq_nil {name : Text} {ps : List Parameter} (h : ofName name ps = []) :
    without [name] ps = ps := by
  refine List.filter_eq_self.2 fun p hp => decide_eq_true ?_
  intro hmem
  exact List.filter_eq_nil_iff.1 h p hp (decide_eq_true (List.mem_singleton.1 hmem))

/-- Leaving out names does not touch the parameters of another. -/
theorem ofName_without {names : List Text} {other : Text} (hother : other ∉ names)
    (ps : List Parameter) : ofName other (without names ps) = ofName other ps := by
  rw [ofName, without, List.filter_filter]
  refine List.filter_congr fun p _ => ?_
  rw [← Bool.decide_and, decide_eq_decide, and_iff_left_iff_imp]
  intro heq
  rw [heq]
  exact hother

/-- The parameters of later variables are still there when those of the first are gone. -/
theorem ofName_without_first {d : Declared ι} (hname : d.spec.name ∉ ds.map (·.spec.name))
    (ps : List Parameter) {c : Declared ι} (hc : c ∈ ds) :
    ofName c.spec.name (without [d.spec.name] ps) = ofName c.spec.name ps := by
  refine ofName_without ?_ ps
  intro hmem
  exact hname (List.mem_map.2 ⟨c, hc, List.mem_singleton.1 hmem⟩)

/-- The parameters that are not the first of any of some names, where those of the names `seen`
    stand before them. -/
def withoutFirst (names seen : List Text) : List Parameter → List Parameter
  | [] => []
  | p :: ps =>
      if p.name ∈ names ∧ p.name ∉ seen then withoutFirst names (p.name :: seen) ps
      else p :: withoutFirst names (p.name :: seen) ps

/-- Of the names that stand before, only those that are looked for matter. -/
theorem withoutFirst_congr {names seen before : List Text}
    (h : ∀ name ∈ names, name ∈ seen ↔ name ∈ before) (ps : List Parameter) :
    withoutFirst names seen ps = withoutFirst names before ps := by
  induction ps generalizing seen before with
  | nil => rfl
  | cons p ps ih =>
      have htail : ∀ name ∈ names, name ∈ p.name :: seen ↔ name ∈ p.name :: before := by
        intro name hname
        rw [List.mem_cons, List.mem_cons, h name hname]
      rw [withoutFirst, withoutFirst, ih htail]
      exact if_congr (and_congr_right fun hname => not_congr (h p.name hname)) rfl rfl

/-- Names that stand before are not looked for. -/
theorem withoutFirst_of_subset {names seen : List Text} (h : ∀ name ∈ names, name ∈ seen)
    (ps : List Parameter) : withoutFirst names seen ps = ps := by
  induction ps generalizing seen with
  | nil => rfl
  | cons p ps ih =>
      rw [withoutFirst, if_neg fun hp => hp.2 (h p.name hp.1),
        ih fun name hname => List.mem_cons_of_mem _ (h name hname)]

/-- Leaving out the first parameters of names does not touch those of another. -/
theorem ofName_withoutFirst {names : List Text} {other : Text} (hother : other ∉ names)
    (seen : List Text) (ps : List Parameter) :
    ofName other (withoutFirst names seen ps) = ofName other ps := by
  induction ps generalizing seen with
  | nil => rfl
  | cons p ps ih =>
      rw [withoutFirst]
      split
      · next hp =>
          have hne : p.name ≠ other := fun heq => hother (heq ▸ hp.1)
          rw [ih, ofName, ofName, List.filter_cons_of_neg (by simpa using hne)]
      · have htail := ih (p.name :: seen)
        rw [ofName, ofName] at htail ⊢
        rw [List.filter_cons, List.filter_cons, htail]

/-- Leaving out the first parameter of a name, then those of others, is leaving out those of all of
    them. -/
theorem withoutFirst_withoutFirst {name : Text} {names : List Text} (hname : name ∉ names)
    (seen : List Text) (ps : List Parameter) :
    withoutFirst names seen (withoutFirst [name] seen ps)
      = withoutFirst (name :: names) seen ps := by
  induction ps generalizing seen with
  | nil => rfl
  | cons p ps ih =>
      rw [withoutFirst, withoutFirst]
      by_cases hp : p.name = name
      · have hother : p.name ∉ names := hp ▸ hname
        -- no later name is the one that is left out
        have hskip : ∀ other ∈ names, other ∈ seen ↔ other ∈ p.name :: seen := by
          intro other hmem
          rw [List.mem_cons, or_iff_right]
          rintro rfl
          exact hother hmem
        by_cases hseen : p.name ∈ seen
        · rw [if_neg fun h => h.2 hseen, if_neg fun h => h.2 hseen, withoutFirst,
            if_neg fun h => hother h.1, ih]
        · rw [if_pos ⟨List.mem_singleton.2 hp, hseen⟩, withoutFirst_congr hskip, ih,
            if_pos ⟨List.mem_cons.2 (Or.inl hp), hseen⟩]
      · rw [if_neg fun h => hp (List.mem_singleton.1 h.1), withoutFirst, ih]
        refine if_congr ?_ rfl rfl
        rw [List.mem_cons, or_iff_right hp]

/-- Where a name is that of one parameter at most, its first parameter is all that it has. -/
theorem withoutFirst_eq_without {names seen : List Text} {ps : List Parameter}
    (h : ∀ name ∈ names, (ofName name ps).length ≤ 1)
    (hseen : ∀ name ∈ names, name ∈ seen → ofName name ps = []) :
    withoutFirst names seen ps = without names ps := by
  induction ps generalizing seen with
  | nil => rfl
  | cons p ps ih =>
      have hown : ofName p.name (p :: ps) = p :: ofName p.name ps :=
        List.filter_cons_of_pos (decide_eq_true rfl)
      have hsublist : ∀ name, (ofName name ps).Sublist (ofName name (p :: ps)) :=
        fun name => (List.sublist_cons_self p ps).filter _
      have hlater : ∀ name ∈ names, (ofName name ps).length ≤ 1 :=
        fun name hname => Nat.le_trans (hsublist name).length_le (h name hname)
      have hnone : ∀ name ∈ names, name ∈ p.name :: seen → ofName name ps = [] := by
        intro name hname hmem
        rcases List.mem_cons.1 hmem with rfl | hmem
        · have hlength := h p.name hname
          rw [hown, List.length_cons] at hlength
          exact List.length_eq_zero_iff.1 (by omega)
        · exact List.sublist_nil.1 (hseen name hname hmem ▸ hsublist name)
      rw [withoutFirst, ih hlater hnone]
      by_cases hmem : p.name ∈ names
      · have hfirst : p.name ∉ seen := by
          intro hp
          exact absurd (hown.symm.trans (hseen p.name hmem hp)) (List.cons_ne_nil _ _)
        rw [if_pos ⟨hmem, hfirst⟩, without, without,
          List.filter_cons_of_neg (by simpa using hmem)]
      · rw [if_neg fun hp => hmem hp.1, without, without,
          List.filter_cons_of_pos (by simpa using hmem)]

/-- Of a name the first parameter is found, and all others are left. -/
theorem takeFirst_eq (name : Text) (ps : List Parameter) :
    takeFirst name ps = ((ofName name ps).head?, withoutFirst [name] [] ps) := by
  induction ps with
  | nil => rfl
  | cons p ps ih =>
      by_cases hp : p.name = name
      · have hown : ofName name (p :: ps) = p :: ofName name ps :=
          List.filter_cons_of_pos (decide_eq_true hp)
        have hseen : ∀ other ∈ [name], other ∈ [p.name] := by
          rw [hp]
          exact fun other hother => hother
        rw [takeFirst, if_pos hp, hown, withoutFirst,
          if_pos ⟨List.mem_singleton.2 hp, List.not_mem_nil⟩, withoutFirst_of_subset hseen]
        rfl
      · have hown : ofName name (p :: ps) = ofName name ps :=
          List.filter_cons_of_neg (by simpa using hp)
        have hskip : ∀ other ∈ [name], other ∈ [] ↔ other ∈ [p.name] := by
          intro other hother
          rw [List.mem_singleton.1 hother, List.mem_singleton, eq_false (Ne.symm hp)]
          exact ⟨fun h => absurd h List.not_mem_nil, False.elim⟩
        rw [takeFirst, if_neg hp, ih, hown, withoutFirst,
          if_neg fun h => hp (List.mem_singleton.1 h.1), withoutFirst_congr hskip]

end Parameter

namespace Declared

/-- The names of declared variables. -/
def names (ds : List (Declared ι)) : List Text := ds.map (·.spec.name)

/-- The variables of the first round. -/
def plain (ds : List (Declared ι)) : List (Declared ι) := ds.filter (!·.spec.explode)

/-- The variables of the second round. -/
def exploded (ds : List (Declared ι)) : List (Declared ι) := ds.filter (·.spec.explode)

/-- The variables that the second round finds parameters for. -/
def matched (ps : List Parameter) (ds : List (Declared ι)) : List (Declared ι) :=
  ds.filter fun d => d.spec.explode && decide (Parameter.ofName d.spec.name ps ≠ [])

/-- The variables that are left for the third round. -/
def unmatched (ps : List Parameter) (ds : List (Declared ι)) : List (Declared ι) :=
  ds.filter fun d => d.spec.explode && decide (Parameter.ofName d.spec.name ps = [])

section

variable {ps qs : List Parameter}
  (h : ∀ d ∈ ds, d.spec.explode = true →
    Parameter.ofName d.spec.name ps = Parameter.ofName d.spec.name qs)

include h

theorem matched_congr : matched ps ds = matched qs ds := by
  refine List.filter_congr fun d hd => ?_
  cases hexplode : d.spec.explode with
  | false => rfl
  | true => rw [h d hd hexplode]

theorem unmatched_congr : unmatched ps ds = unmatched qs ds := by
  refine List.filter_congr fun d hd => ?_
  cases hexplode : d.spec.explode with
  | false => rfl
  | true => rw [h d hd hexplode]

end

/-- The variables of the three rounds are all variables. -/
theorem perm_rounds (ps : List Parameter) (ds : List (Declared ι)) :
    (plain ds ++ matched ps ds ++ unmatched ps ds).Perm ds := by
  have hexploded : (matched ps ds ++ unmatched ps ds).Perm (exploded ds) := by
    have hperm := List.filter_append_perm
      (fun d : Declared ι => decide (Parameter.ofName d.spec.name ps ≠ [])) (exploded ds)
    simp only [exploded, List.filter_filter, decide_not, Bool.not_not, Bool.and_comm] at hperm
    simpa only [matched, unmatched, exploded, decide_not] using hperm
  have hall : (exploded ds ++ plain ds).Perm ds := List.filter_append_perm _ ds
  rw [List.append_assoc]
  exact (hexploded.append_left _).trans (List.perm_append_comm.trans hall)

end Declared

namespace Finding

open Declared

/-- **FIRST ROUND**: variables that are not exploded find the first parameter of their name. -/
theorem firstRound_eq (hdistinct : (names ds).Nodup) (ps : List Parameter) :
    firstRound ds ps =
      ((plain ds).map fun d =>
        ⟨d, (Parameter.ofName d.spec.name ps).head?.bind Parameter.single?⟩,
      Parameter.withoutFirst (names (plain ds)) [] ps) := by
  induction ds generalizing ps with
  | nil => rw [firstRound, names, plain, List.filter_nil, List.map_nil, List.map_nil,
      Parameter.withoutFirst_of_subset fun _ hmem => absurd hmem List.not_mem_nil]
  | cons d ds ih =>
      obtain ⟨hname, hnames⟩ := List.nodup_cons.1 hdistinct
      rw [firstRound]
      cases hexplode : d.spec.explode with
      | true =>
          have hplain : plain (d :: ds) = plain ds :=
            List.filter_cons_of_neg (by simpa using hexplode)
          rw [if_pos rfl, hplain]
          exact ih hnames ps
      | false =>
          have hplain : plain (d :: ds) = d :: plain ds :=
            List.filter_cons_of_pos (by simpa using hexplode)
          have hlater : d.spec.name ∉ names (plain ds) :=
            fun hmem => hname ((List.filter_sublist.map _).subset hmem)
          rw [if_neg Bool.false_ne_true, Parameter.takeFirst_eq, hplain]
          dsimp only
          rw [ih hnames, Parameter.withoutFirst_withoutFirst hlater, List.map_cons]
          refine Prod.ext (congrArg (_ :: ·) (List.map_congr_left fun c hc => ?_)) rfl
          -- later variables have other names
          rw [Parameter.ofName_withoutFirst]
          intro hmem
          exact hlater (List.mem_map.2 ⟨c, hc, List.mem_singleton.1 hmem⟩)

/-- **SECOND ROUND**: exploded variables find all parameters of their name, if there are any. -/
theorem secondRound_eq (hdistinct : (names ds).Nodup) (ps : List Parameter) :
    secondRound ds ps =
      ((matched ps ds).map fun d =>
        ⟨d, some (.ofTexts ((Parameter.ofName d.spec.name ps).map Parameter.text))⟩,
      unmatched ps ds, Parameter.without (names (exploded ds)) ps) := by
  induction ds generalizing ps with
  | nil => simp [secondRound, matched, unmatched, exploded, names, Parameter.without]
  | cons d ds ih =>
      obtain ⟨hname, hnames⟩ := List.nodup_cons.1 hdistinct
      rw [secondRound, matched, unmatched, exploded, List.filter_cons, List.filter_cons,
        List.filter_cons]
      cases hexplode : d.spec.explode with
      | false =>
          simp only [Bool.not_false, if_true, Bool.false_and, Bool.false_eq_true, if_false]
          exact ih hnames ps
      | true =>
          have hleft : Parameter.without (names (d :: exploded ds)) ps
              = Parameter.without (names (exploded ds)) (Parameter.without [d.spec.name] ps) :=
            (Parameter.without_without [d.spec.name] (names (exploded ds)) ps).symm
          simp only [Bool.not_true, Bool.false_eq_true, if_false, Bool.true_and, if_true,
            decide_eq_true_eq]
          rw [← exploded, hleft]
          split
          · next hown =>
              -- nobody has the name, so that it may as well be left out
              have hown : Parameter.ofName d.spec.name ps = [] := hown
              rw [ih hnames ps, Parameter.without_of_ofName_eq_nil hown,
                if_neg (not_not_intro hown), if_pos hown]
              rfl
          · next hne =>
              have hown : Parameter.ofName d.spec.name ps ≠ [] := hne
              have hother := fun {c} => Parameter.ofName_without_first hname ps (c := c)
              have hothers : ps.filter (·.name ≠ d.spec.name)
                  = Parameter.without [d.spec.name] ps := by
                simp only [Parameter.without, List.mem_singleton]
              rw [hothers, ih hnames, if_pos hown, if_neg hown, List.map_cons,
                matched_congr fun c hc _ => hother hc, unmatched_congr fun c hc _ => hother hc]
              refine Prod.ext (congrArg (_ :: ·) (List.map_congr_left fun c hc => ?_)) rfl
              rw [hother (List.mem_filter.1 hc).1]

/-- **ALL ROUNDS**: what variables of distinct names find, and what is left, is a matter of the
    parameters of their names, but for the third round. -/
theorem all_eq_of_distinct (hdistinct : (names ds).Nodup) (ps : List Parameter) :
    let left := Parameter.without (names (exploded ds))
      (Parameter.withoutFirst (names (plain ds)) [] ps)
    all ds ps =
      (((plain ds).map fun d =>
          ⟨d, (Parameter.ofName d.spec.name ps).head?.bind Parameter.single?⟩)
        ++ ((matched ps ds).map fun d =>
          ⟨d, some (.ofTexts ((Parameter.ofName d.spec.name ps).map Parameter.text))⟩)
        ++ (thirdRound (unmatched ps ds) left).1,
      (thirdRound (unmatched ps ds) left).2) := by
  -- the first round leaves the parameters of exploded variables alone
  have hkept : ∀ d ∈ ds, d.spec.explode = true →
      Parameter.ofName d.spec.name (Parameter.withoutFirst (names (plain ds)) [] ps)
        = Parameter.ofName d.spec.name ps := by
    intro d hd hexplode
    refine Parameter.ofName_withoutFirst (fun hmem => ?_) [] ps
    obtain ⟨c, hc, heq⟩ := List.mem_map.1 hmem
    obtain ⟨hc, hplain⟩ := List.mem_filter.1 hc
    obtain rfl : c = d := List.inj_on_of_nodup_map hdistinct hc hd heq
    rw [hexplode] at hplain
    cases hplain
  intro left
  rw [all, firstRound_eq hdistinct]
  dsimp only
  rw [secondRound_eq hdistinct, matched_congr hkept, unmatched_congr hkept]
  refine Prod.ext (congrArg (_ ++ · ++ _) (List.map_congr_left fun d hd => ?_)) rfl
  obtain ⟨hd, hclass⟩ := List.mem_filter.1 hd
  rw [hkept d hd (Bool.and_eq_true_iff.1 hclass).1]

end Finding

/-! ## What is found -/

/-- Only one variable has a name. -/
theorem Declared.filter_name_eq (hdistinct : (names ds).Nodup) {d : Declared ι}
    (hd : d ∈ ds) : ds.filter (fun c => c.spec.name = d.spec.name) = [d] := by
  induction ds with
  | nil => exact (List.not_mem_nil hd).elim
  | cons c ds ih =>
      obtain ⟨hname, hnames⟩ := List.nodup_cons.1 hdistinct
      rw [List.filter_cons]
      rcases List.mem_cons.1 hd with rfl | hd
      · rw [if_pos (decide_eq_true rfl), List.filter_eq_nil_iff.2]
        intro c hc heq
        exact hname (List.mem_map.2 ⟨c, hc, of_decide_eq_true heq⟩)
      · rw [if_neg, ih hnames hd]
        intro heq
        exact hname (List.mem_map.2 ⟨d, hd, (of_decide_eq_true heq).symm⟩)

/-- A single finding under a name settles it. -/
theorem Finding.settle_eq [DecidableEq ι] (hdistinct : (Declared.names ds).Nodup)
    (value : Declared ι → Option Value) {d : Declared ι} (hd : d ∈ ds) :
    settle (ds.map fun d => ⟨d, value d⟩) d.spec.name = value d := by
  have hown : (ds.map fun d => (⟨d, value d⟩ : Finding ι)).filter
        (fun f => f.name = d.spec.name ∧ f.value.isSome)
      = [(⟨d, value d⟩ : Finding ι)].filter (·.value.isSome) := by
    rw [List.filter_map, ← List.map_singleton (f := fun d => (⟨d, value d⟩ : Finding ι)),
      ← Declared.filter_name_eq hdistinct hd, List.filter_map, List.filter_filter]
    congr 2
    funext c
    show decide (_ ∧ _) = _
    rw [Bool.decide_and, Bool.and_comm, Bool.decide_eq_true]
    rfl
  rw [settle, hown]
  cases hvalue : value d with
  | none => rfl
  | some x => simp [List.filter, Finding.group]

/-- Variables of distinct names are bound to what they find, the undefined left out; what is left
    is refused if strict. -/
theorem Declared.bind_eq_of_all [DecidableEq ι] (hdistinct : (names ds).Nodup)
    {value : Declared ι → Option Value} {ps left : List Parameter} (strict : Bool) :
    Finding.all ds ps
      = ((plain ds ++ matched ps ds ++ unmatched ps ds).map fun d => ⟨d, value d⟩, left) →
    bind strict ds ps =
      match strict, left with
      | true, p :: left => .error ⟨.extraItems (left.length + 1), some p.position⟩
      | _, _ => .ok (ds.map fun d => (d.spec.name, (value d).bind Value.prune)) := by
  intro hall
  have hperm := perm_rounds ps ds
  have hfound : (names (plain ds ++ matched ps ds ++ unmatched ps ds)).Nodup :=
    (hperm.map _).nodup_iff.2 hdistinct
  have hbindings : (Text.distinct (names ds)).map (fun name =>
        (name, (Finding.settle ((plain ds ++ matched ps ds ++ unmatched ps ds).map fun d =>
          ⟨d, value d⟩) name).bind Value.prune))
      = ds.map fun d => (d.spec.name, (value d).bind Value.prune) := by
    rw [Text.distinct_of_nodup hdistinct, names, List.map_map]
    refine List.map_congr_left fun d hd => ?_
    rw [Function.comp_apply, Finding.settle_eq hfound value (hperm.mem_iff.2 hd)]
  rw [bind, ← names, hall]
  cases strict with
  | false => exact congrArg Except.ok hbindings
  | true =>
      cases left with
      | nil => exact congrArg Except.ok hbindings
      | cons p left => rfl

end

end UriTemplate
