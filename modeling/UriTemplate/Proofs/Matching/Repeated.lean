import UriTemplate.Proofs.Matching.Groups
import UriTemplate.Proofs.Matching.Names

/-! # Repeated names — which variable decides

    A name can be declared several times among expressions that are matched together, and
    several of its variables can find something.  One might expect the order of
    declaration to decide: of the first expression in which something was found, the
    variable declared last.  But values are settled in the order of the rounds, which
    visits the variables that are not exploded first, then the others.  Variables are
    told apart by their places (`Query.placed`), so that the two orders can be compared:

    * `Finding.pairwise_all` — the findings of a name stand in the order of the rounds;
    * `Finding.exists_settles` — so that order settles the name;
    * `Finding.isByDeclaration_iff` — when the order of declaration would come to the same;
    * **`Query.bind_repeated`** — what a query binds a repeated name to. -/

namespace UriTemplate

/-! ## Places -/

/-- Where a variable is declared: in which expression, and as which of all variables. -/
structure Place where
  expression : Nat
  index : Nat
deriving DecidableEq, Repr

namespace Query

/-- The variables of expressions matched together, with their places. -/
def placed (groups : List (List VarSpec)) : List (Declared Place) :=
  (Declared.ofGroups groups).zipIdx.map fun d => ⟨d.1.spec, d.1.group, d.2⟩

/-- What the variables find, in the order of the rounds. -/
def found (groups : List (List VarSpec)) (ps : List Parameter) : List (Finding Place) :=
  (Finding.all (placed groups) ps).1

/-- What the variables of a name find, without those that find nothing. -/
def foundFor (groups : List (List VarSpec)) (ps : List Parameter) (name : Text) :
    List (Finding Place) :=
  (found groups ps).filter fun f => f.name = name ∧ f.value.isSome

theorem map_regroup_placed (groups : List (List VarSpec)) :
    (placed groups).map (.regroup Place.expression) = Declared.ofGroups groups := by
  rw [placed, List.map_map]
  exact List.zipIdx_map_fst 0 _

/-- Later variables are declared in later expressions, or in the same one. -/
theorem pairwise_placed (groups : List (List VarSpec)) :
    (placed groups).Pairwise fun c d =>
      c.group.expression ≤ d.group.expression ∧ c.group.index < d.group.index := by
  have hindex : ∀ {α : Type} (l : List α), l.zipIdx.Pairwise fun x y => x.2 < y.2 := by
    intro α l
    rw [← List.pairwise_map (f := Prod.snd) (R := (· < ·)), List.zipIdx_map_snd]
    exact List.pairwise_lt_range'
  have hgroups : (Declared.ofGroups groups).Pairwise fun c d => c.group ≤ d.group := by
    refine List.pairwise_flatMap.2 ⟨fun g _ => ?_, (hindex groups).imp fun {g h} hlt => ?_⟩
    · exact List.pairwise_map.2 (List.pairwise_of_forall fun _ _ => Nat.le_refl _)
    · rintro c hc d hd
      obtain ⟨v, -, rfl⟩ := List.mem_map.1 hc
      obtain ⟨w, -, rfl⟩ := List.mem_map.1 hd
      exact Nat.le_of_lt hlt
  have hfirst : (Declared.ofGroups groups).zipIdx.Pairwise fun x y => x.1.group ≤ y.1.group := by
    rw [← List.zipIdx_map_fst 0 (Declared.ofGroups groups), List.pairwise_map] at hgroups
    exact hgroups
  exact List.pairwise_map.2 (hfirst.and (hindex _))

end Query

/-! ## The order of the rounds -/

namespace Finding

section

variable {ι : Type} {R : Declared ι → Declared ι → Prop} {ds : List (Declared ι)}

/-- Is the variable exploded? -/
def isExploded (f : Finding ι) : Bool := f.declared.spec.explode

theorem isExploded_of_mem_firstRound {ps : List Parameter} {f : Finding ι}
    (hf : f ∈ (firstRound ds ps).1) : f.isExploded = false := by
  have hmem := List.mem_map_of_mem (f := declared) hf
  rw [map_declared_firstRound] at hmem
  simpa [isExploded] using (List.mem_filter.1 hmem).2

/-- Both are in the order of the variables. -/
theorem secondRound_sublists (ds : List (Declared ι)) (ps : List Parameter) :
    ((secondRound ds ps).1.map declared).Sublist ds ∧ (secondRound ds ps).2.1.Sublist ds := by
  induction ds generalizing ps with
  | nil => exact ⟨.slnil, .slnil⟩
  | cons d ds ih =>
      rw [secondRound]
      cases hexplode : d.spec.explode with
      | false => exact ⟨(ih ps).1.cons d, (ih ps).2.cons d⟩
      | true =>
          cases ps.filter (·.name = d.spec.name) with
          | nil => exact ⟨(ih ps).1.cons d, (ih ps).2.cons_cons d⟩
          | cons p own => exact ⟨(ih _).1.cons_cons d, (ih _).2.cons d⟩

/-- What is found in the second round are the texts of some parameters of the name. -/
theorem exists_own_of_mem_secondRound {ps : List Parameter} {f : Finding ι}
    (hf : f ∈ (secondRound ds ps).1) : ∃ own : List Parameter, own ≠ [] ∧
      (∀ p ∈ own, p ∈ ps ∧ p.name = f.name) ∧
      f.value = some (.ofTexts (own.map Parameter.text)) := by
  induction ds generalizing ps with
  | nil => cases hf
  | cons d ds ih =>
      rw [secondRound] at hf
      cases hexplode : d.spec.explode with
      | false =>
          rw [hexplode] at hf
          exact ih hf
      | true =>
          rw [hexplode] at hf
          cases hown : ps.filter (·.name = d.spec.name) with
          | nil =>
              rw [hown] at hf
              exact ih hf
          | cons p own =>
              rw [hown] at hf
              rcases List.mem_cons.1 hf with rfl | hf
              · refine ⟨p :: own, List.cons_ne_nil p own, fun q hq => ?_, rfl⟩
                rw [← hown] at hq
                exact (List.mem_filter.1 hq).imp_right of_decide_eq_true
              · obtain ⟨others, hne, hothers, hvalue⟩ := ih hf
                exact ⟨others, hne,
                  fun q hq => (hothers q hq).imp_left fun hq => (List.mem_filter.1 hq).1, hvalue⟩

/-- Once a variable has found nothing in the second round, no later one of its name does. -/
theorem rel_of_secondRound (h : ds.Pairwise R) {ps : List Parameter} {f : Finding ι}
    {d : Declared ι} (hf : f ∈ (secondRound ds ps).1) (hd : d ∈ (secondRound ds ps).2.1)
    (hname : f.name = d.spec.name) : R f.declared d := by
  induction ds generalizing ps with
  | nil => cases hf
  | cons c ds ih =>
      obtain ⟨hc, hds⟩ := List.pairwise_cons.1 h
      rw [secondRound] at hf hd
      cases hexplode : c.spec.explode with
      | false =>
          rw [hexplode] at hf hd
          exact ih hds hf hd
      | true =>
          rw [hexplode] at hf hd
          cases hown : ps.filter (·.name = c.spec.name) with
          | nil =>
              rw [hown] at hf hd
              rcases List.mem_cons.1 hd with rfl | hd
              · -- there is no parameter of the name
                obtain ⟨own, hne, hmem, -⟩ := exists_own_of_mem_secondRound hf
                obtain ⟨p, hp⟩ := List.exists_mem_of_ne_nil own hne
                refine absurd ?_ (List.filter_eq_nil_iff.1 hown p (hmem p hp).1)
                exact decide_eq_true ((hmem p hp).2.trans hname)
              · exact ih hds hf hd
          | cons p own =>
              rw [hown] at hf hd
              rcases List.mem_cons.1 hf with rfl | hf
              · exact hc d ((secondRound_sublists ds _).2.subset hd)
              · exact ih hds hf hd

/-- What is found in the second and third rounds, of what the first has left. -/
def laterRounds (ds : List (Declared ι)) (ps : List Parameter) : List (Finding ι) :=
  (secondRound ds ps).1 ++ (thirdRound (secondRound ds ps).2.1 (secondRound ds ps).2.2).1

theorem isExploded_of_mem_laterRounds {ps : List Parameter} {f : Finding ι}
    (hf : f ∈ laterRounds ds ps) : f.isExploded = true := by
  have hmem := List.mem_map_of_mem (f := declared) hf
  rw [laterRounds, List.map_append, map_declared_thirdRound] at hmem
  exact (List.mem_filter.1 ((perm_map_declared_secondRound ds ps).subset hmem)).2

/-- Findings of one name are in the order of the variables, though found in two rounds. -/
theorem pairwise_laterRounds (h : ds.Pairwise R) (ps : List Parameter) (name : Text) :
    ((laterRounds ds ps).filter (·.name = name)).Pairwise fun x y =>
      R x.declared y.declared := by
  have hsublists := secondRound_sublists ds ps
  have hthird := map_declared_thirdRound (secondRound ds ps).2.1 (secondRound ds ps).2.2
  rw [laterRounds, List.filter_append]
  refine List.pairwise_append.2 ⟨?_, ?_, ?_⟩
  · exact (List.pairwise_map.1 (h.sublist hsublists.1)).filter _
  · rw [← hthird] at hsublists
    exact (List.pairwise_map.1 (h.sublist hsublists.2)).filter _
  · -- what is found in the third round was passed over in the second
    intro x hx y hy
    obtain ⟨hx, hxname⟩ := List.mem_filter.1 hx
    obtain ⟨hy, hyname⟩ := List.mem_filter.1 hy
    have hmem := List.mem_map_of_mem (f := declared) hy
    rw [hthird] at hmem
    exact rel_of_secondRound h hx hmem
      ((of_decide_eq_true hxname).trans (of_decide_eq_true hyname).symm)

/-- Is the variable visited before another: one that is not exploded before one that is, and else
    in the order of the variables? -/
def IsBefore (R : Declared ι → Declared ι → Prop) (x y : Finding ι) : Prop :=
  x.isExploded = false ∧ y.isExploded = true ∨
    x.isExploded = y.isExploded ∧ R x.declared y.declared

/-- **ROUNDS**: the findings of a name stand in the order in which variables are visited. -/
theorem pairwise_all (h : ds.Pairwise R) (ps : List Parameter) (name : Text) :
    ((all ds ps).1.filter (·.name = name)).Pairwise (IsBefore R) := by
  have hall : (all ds ps).1 = (firstRound ds ps).1 ++ laterRounds ds (firstRound ds ps).2 :=
    List.append_assoc ..
  rw [hall, List.filter_append]
  refine List.pairwise_append.2 ⟨?_, ?_, ?_⟩
  · have hfirst : ((firstRound ds ps).1.map declared).Pairwise R := by
      rw [map_declared_firstRound]
      exact h.filter _
    refine ((List.pairwise_map.1 hfirst).imp_of_mem fun {x y} hx hy hrel => ?_).filter _
    right
    exact ⟨(isExploded_of_mem_firstRound hx).trans (isExploded_of_mem_firstRound hy).symm, hrel⟩
  · refine (pairwise_laterRounds h _ name).imp_of_mem fun {x y} hx hy hrel => ?_
    right
    refine ⟨?_, hrel⟩
    exact (isExploded_of_mem_laterRounds (List.mem_filter.1 hx).1).trans
      (isExploded_of_mem_laterRounds (List.mem_filter.1 hy).1).symm
  · intro x hx y hy
    left
    exact ⟨isExploded_of_mem_firstRound (List.mem_filter.1 hx).1,
      isExploded_of_mem_laterRounds (List.mem_filter.1 hy).1⟩

end

/-! ## Settling -/

variable {own : List (Finding Place)} {w : Finding Place}

/-- The order of the rounds. -/
def VisitedBefore : Finding Place → Finding Place → Prop :=
  IsBefore fun c d => c.group.index < d.group.index

/-- Is it the finding that the order of the rounds comes to: in the expression of the first one
    that is visited, the last one that is visited? -/
structure Settles (own : List (Finding Place)) (w : Finding Place) : Prop where
  mem : w ∈ own
  first : ∃ f ∈ own, f.group.expression = w.group.expression ∧
    ∀ x ∈ own, x = f ∨ f.VisitedBefore x
  last : ∀ x ∈ own, x.group.expression = w.group.expression → x = w ∨ x.VisitedBefore w

/-- Is it the finding that the order of declaration comes to: in the first expression that has
    one, the one declared last? -/
structure IsByDeclaration (own : List (Finding Place)) (w : Finding Place) : Prop where
  mem : w ∈ own
  first : ∀ x ∈ own, w.group.expression ≤ x.group.expression
  last : ∀ x ∈ own, x.group.expression = w.group.expression → x.group.index ≤ w.group.index

/-- **SETTLING**: in the order of the rounds, one finding settles the name. -/
theorem exists_settles (h : own.Pairwise VisitedBefore) {f : Finding Place}
    (hf : own.head? = some f) :
    ∃ w, Settles own w ∧
      (own.filter fun x => x.group.expression = f.group.expression).getLast? = some w := by
  obtain ⟨more, rfl⟩ : ∃ more, own = f :: more := List.head?_eq_some_iff.1 hf
  have hmem : f ∈ (f :: more).filter fun x => x.group.expression = f.group.expression :=
    List.mem_filter.2 ⟨List.mem_cons_self, decide_eq_true rfl⟩
  obtain ⟨w, hw⟩ := Option.isSome_iff_exists.1
    (List.getLast?_isSome.2 (List.ne_nil_of_mem hmem))
  obtain ⟨before, hbefore⟩ := List.getLast?_eq_some_iff.1 hw
  have hown : w ∈ (f :: more).filter fun x => x.group.expression = f.group.expression := by
    rw [hbefore]
    exact List.mem_append_right _ List.mem_cons_self
  obtain ⟨hown, hexpression⟩ := List.mem_filter.1 hown
  have hexpression := of_decide_eq_true hexpression
  refine ⟨w, ⟨hown, ⟨f, List.mem_cons_self, hexpression.symm, ?_⟩, fun x hx hxw => ?_⟩, hw⟩
  · intro x hx
    exact (List.mem_cons.1 hx).imp_right ((List.pairwise_cons.1 h).1 x)
  · have hx : x ∈ (f :: more).filter fun x => x.group.expression = f.group.expression :=
      List.mem_filter.2 ⟨hx, decide_eq_true (hxw.trans hexpression)⟩
    have hpairs := h.filter fun x => decide (x.group.expression = f.group.expression)
    rw [hbefore] at hx hpairs
    rcases List.mem_append.1 hx with hx | hx
    · exact Or.inr ((List.pairwise_append.1 hpairs).2.2 x hx w List.mem_cons_self)
    · exact Or.inl (List.mem_singleton.1 hx)

/-- **THE TWO ORDERS** come to the same finding unless an exploded variable of an earlier expression
    found something, or one of the same expression that is declared later and not exploded. -/
theorem isByDeclaration_iff (hw : Settles own w)
    (horder : ∀ x ∈ own, ∀ y ∈ own, x.group.index ≤ y.group.index →
      x.group.expression ≤ y.group.expression) :
    IsByDeclaration own w ↔
      (∀ x ∈ own, x.isExploded = true → w.group.expression ≤ x.group.expression) ∧
      ∀ x ∈ own, x.isExploded = false → x.group.expression = w.group.expression →
        x.group.index ≤ w.group.index := by
  constructor
  · intro h
    exact ⟨fun x hx _ => h.first x hx, fun x hx _ => h.last x hx⟩
  · rintro ⟨hexploded, hplain⟩
    refine ⟨hw.mem, fun x hx => ?_, fun x hx hxw => ?_⟩
    · cases hclass : x.isExploded with
      | true => exact hexploded x hx hclass
      | false =>
          -- nothing is visited before a variable that is not exploded, but those declared before it
          obtain ⟨f, hf, hfw, hfirst⟩ := hw.first
          rw [← hfw]
          rcases hfirst x hx with rfl | ⟨-, htrue⟩ | ⟨-, hlt⟩
          · exact Nat.le_refl _
          · rw [hclass] at htrue
            cases htrue
          · exact horder f hf x hx (Nat.le_of_lt hlt)
    · rcases hw.last x hx hxw with rfl | ⟨hfalse, -⟩ | ⟨-, hlt⟩
      · exact Nat.le_refl _
      · exact hplain x hx hfalse hxw
      · exact Nat.le_of_lt hlt

end Finding

/-! ## What is bound -/

/-- Entries made from names are read under them. -/
theorem OrderedMap.get?_map_names {α : Type} (f : Text → α) {names : List Text} {name : Text}
    (h : name ∈ names) : get? (names.map fun n => (n, f n)) name = some (f name) := by
  induction names with
  | nil => cases h
  | cons n names ih =>
      rw [List.map_cons, get?]
      by_cases hn : n = name
      · rw [if_pos hn, hn]
      · rw [if_neg hn]
        exact ih ((List.mem_cons.1 h).resolve_left (Ne.symm hn))

namespace Parameter

theorem bind_prune_single? (p : Parameter) : p.single?.bind Value.prune = p.single? := by
  unfold single?
  split
  · rfl
  · rfl
  · rw [Option.bind_some, Value.ofRaw]
    split
    · exact Value.prune_ofTexts (by simp)
    · rfl

theorem bind_prune_assoc? (ps : List Parameter) : (assoc? ps).bind Value.prune = assoc? ps := by
  cases ps with
  | nil => rfl
  | cons p ps =>
      refine Value.prune_assoc (List.cons_ne_nil _ _) ?_
      exact List.forall_mem_map.2 fun q _ => rfl

end Parameter

namespace Finding

variable {ι : Type} {ds : List (Declared ι)} {ps : List Parameter} {f : Finding ι}

theorem bind_prune_of_mem_firstRound (hf : f ∈ (firstRound ds ps).1) :
    f.value.bind Value.prune = f.value := by
  induction ds generalizing ps with
  | nil => cases hf
  | cons d ds ih =>
      rw [firstRound] at hf
      cases hexplode : d.spec.explode with
      | true =>
          rw [hexplode] at hf
          exact ih hf
      | false =>
          rw [hexplode] at hf
          rcases List.mem_cons.1 hf with rfl | hf
          · cases (Parameter.takeFirst d.spec.name ps).1 with
            | none => rfl
            | some p => exact p.bind_prune_single?
          · exact ih hf

theorem bind_prune_of_mem_thirdRound (hf : f ∈ (thirdRound ds ps).1) :
    f.value.bind Value.prune = f.value := by
  cases ds with
  | nil => cases hf
  | cons d ds =>
      rcases List.mem_cons.1 hf with rfl | hf
      · exact Parameter.bind_prune_assoc? ps
      · obtain ⟨d, -, rfl⟩ := List.mem_map.1 hf
        rfl

/-- No part of what is found is undefined. -/
theorem bind_prune_of_mem_all (hf : f ∈ (all ds ps).1) : f.value.bind Value.prune = f.value := by
  rcases List.mem_append.1 hf with hf | hf
  · rcases List.mem_append.1 hf with hf | hf
    · exact bind_prune_of_mem_firstRound hf
    · obtain ⟨own, hne, -, hvalue⟩ := exists_own_of_mem_secondRound hf
      rw [hvalue]
      exact Value.prune_ofTexts (mt List.map_eq_nil_iff.1 hne)
  · exact bind_prune_of_mem_thirdRound hf

end Finding

/-- What is bound under a name is what settles it. -/
theorem Declared.eq_of_bind {ι : Type} [DecidableEq ι] {strict : Bool} {ds : List (Declared ι)}
    {ps : List Parameter} {bindings : Bindings} (h : bind strict ds ps = .ok bindings) :
    bindings = (Text.distinct (ds.map (·.spec.name))).map fun name =>
      (name, (Finding.settle (Finding.all ds ps).1 name).bind Value.prune) := by
  unfold bind at h
  dsimp only at h
  split at h
  · cases h
  · exact (Except.ok.inj h).symm

namespace Query

variable {groups : List (List VarSpec)} {ps : List Parameter} {name : Text}

/-- Findings of a name stand in the order of the rounds. -/
theorem pairwise_foundFor (groups : List (List VarSpec)) (ps : List Parameter) (name : Text) :
    (foundFor groups ps name).Pairwise Finding.VisitedBefore := by
  have hname := Finding.pairwise_all ((pairwise_placed groups).imp And.right) ps name
  have hown : foundFor groups ps name
      = ((found groups ps).filter (·.name = name)).filter (·.value.isSome) := by
    rw [List.filter_filter, foundFor]
    refine List.filter_congr fun f _ => ?_
    simp [Bool.and_comm]
  rw [hown]
  exact hname.filter _

/-- Of two variables the one declared first is in the same expression or in an earlier one. -/
theorem expression_le_of_mem_found {x y : Finding Place} (hx : x ∈ found groups ps)
    (hy : y ∈ found groups ps) (hle : x.group.index ≤ y.group.index) :
    x.group.expression ≤ y.group.expression := by
  have hperm := Finding.perm_map_declared_all (placed groups) ps
  have hplaced : ∀ c ∈ placed groups, ∀ d ∈ placed groups, c.group.index ≤ d.group.index →
      c.group.expression ≤ d.group.expression := by
    have horder := pairwise_placed groups
    generalize placed groups = ds at horder
    induction horder with
    | nil => exact nofun
    | @cons c ds hc _ ih =>
        refine List.forall_mem_cons.2 ⟨List.forall_mem_cons.2 ⟨fun _ => Nat.le_refl _, ?_⟩, ?_⟩
        · exact fun d hd _ => (hc d hd).1
        · intro d hd e he hle
          rcases List.mem_cons.1 he with rfl | he
          · exact absurd hle (Nat.not_le.2 (hc d hd).2)
          · exact ih d hd e he hle
  exact hplaced _ (hperm.subset (List.mem_map_of_mem hx)) _
    (hperm.subset (List.mem_map_of_mem hy)) hle

/-- A name is settled by the finding that the order of the rounds comes to. -/
theorem settle_found (groups : List (List VarSpec)) (ps : List Parameter) (name : Text) :
    (foundFor groups ps name = [] ∧
      Finding.settle (Finding.all (Declared.ofGroups groups) ps).1 name = none) ∨
    ∃ w, Finding.Settles (foundFor groups ps name) w ∧
      Finding.settle (Finding.all (Declared.ofGroups groups) ps).1 name = w.value := by
  have hsettle : Finding.settle (Finding.all (Declared.ofGroups groups) ps).1 name
      = Finding.settle ((found groups ps).map (.regroup Place.expression)) name := by
    rw [← map_regroup_placed, Finding.all_map_regroup, found]
  rw [hsettle, Finding.settle_map_eq, ← foundFor]
  cases hhead : (foundFor groups ps name).head? with
  | none => exact Or.inl ⟨List.head?_eq_none_iff.1 hhead, rfl⟩
  | some f =>
      obtain ⟨w, hw, hlast⟩ := Finding.exists_settles (pairwise_foundFor groups ps name) hhead
      right
      refine ⟨w, hw, ?_⟩
      rw [Option.bind_some, hlast, Option.bind_some]

/-- **REPEATED NAMES**: a name is bound to nothing just when no variable of it found anything.
    Else it is bound to what settles it in the order of the rounds: of the first expression in which
    a variable that is not exploded found something, or else of the first in which any did, what the
    last exploded variable found, or else the last one.  The order of declaration comes to the same
    finding unless there is an exploded variable in an earlier expression, or one that is not
    exploded and declared later in the same. -/
theorem bind_repeated {strict : Bool} {query : Text} {offset : Int} {bindings : Bindings}
    (h : bind strict groups query offset = .ok bindings) :
    ∃ ps, read query offset = .ok ps ∧ ∀ name ∈ groups.flatten.map VarSpec.name,
      (foundFor groups ps name = [] ∧ OrderedMap.get? bindings name = some none) ∨
      ∃ w, Finding.Settles (foundFor groups ps name) w ∧ w.value ≠ none ∧
        OrderedMap.get? bindings name = some w.value ∧
        (Finding.IsByDeclaration (foundFor groups ps name) w ↔
          (∀ x ∈ foundFor groups ps name, x.isExploded = true →
            w.group.expression ≤ x.group.expression) ∧
          ∀ x ∈ foundFor groups ps name, x.isExploded = false →
            x.group.expression = w.group.expression → x.group.index ≤ w.group.index) := by
  rw [bind] at h
  cases hread : read query offset with
  | error e =>
      rw [hread] at h
      cases h
  | ok ps =>
      rw [hread] at h
      refine ⟨ps, rfl, fun name hname => ?_⟩
      have hmem : name ∈ Text.distinct ((Declared.ofGroups groups).map (·.spec.name)) := by
        rw [← Declared.map_spec_ofGroups, List.map_map] at hname
        exact Text.mem_distinct.2 hname
      have hget := OrderedMap.get?_map_names (fun name => (Finding.settle
        (Finding.all (Declared.ofGroups groups) ps).1 name).bind Value.prune) hmem
      rw [← Declared.eq_of_bind h] at hget
      rcases settle_found groups ps name with ⟨hown, hsettle⟩ | ⟨w, hw, hsettle⟩
      · left
        refine ⟨hown, ?_⟩
        rw [hget, hsettle]
        rfl
      · right
        have hfound : ∀ x ∈ foundFor groups ps name, x ∈ found groups ps :=
          fun x hx => (List.mem_filter.1 hx).1
        refine ⟨w, hw, ?_, ?_, Finding.isByDeclaration_iff hw ?_⟩
        · have hsome := (of_decide_eq_true (List.mem_filter.1 hw.mem).2).2
          exact Option.isSome_iff_ne_none.1 hsome
        · rw [hget, hsettle, Finding.bind_prune_of_mem_all (hfound w hw.mem)]
        · exact fun x hx y hy => expression_le_of_mem_found (hfound x hx) (hfound y hy)

/-- An exploded variable loses to one of a later expression that is not exploded. -/
theorem bind_repeated_exploded :
    let groups : List (List VarSpec) :=
      [[⟨"x".toText, true, none⟩], [⟨"x".toText, false, none⟩]]
    bind false groups "x=1&x=2".toText 1 = .ok [("x".toText, some (.ofText "1".toText))] ∧
    ∃ ps, read "x=1&x=2".toText 1 = .ok ps ∧
      ∃ w, Finding.Settles (foundFor groups ps "x".toText) w ∧
        w.value = some (.ofText "1".toText) ∧
        ¬ Finding.IsByDeclaration (foundFor groups ps "x".toText) w := by
  intro groups
  have hbind : bind false groups "x=1&x=2".toText 1
      = .ok [("x".toText, some (.ofText "1".toText))] := rfl
  obtain ⟨ps, hread, hname⟩ := bind_repeated hbind
  have hfound : foundFor groups ps "x".toText
      = [⟨⟨⟨"x".toText, false, none⟩, 1, 1⟩, some (.ofText "1".toText)⟩,
        ⟨⟨⟨"x".toText, true, none⟩, 0, 0⟩, some (.ofTexts ["2".toText])⟩] := by
    rw [← Except.ok.inj hread]
    rfl
  rcases hname "x".toText List.mem_cons_self with ⟨hnil, -⟩ | ⟨w, hw, -, hget, -⟩
  · cases hfound.symm.trans hnil
  · have hvalue := Option.some.inj hget
    refine ⟨hbind, ps, hread, w, hw, hvalue.symm, fun hdeclared => ?_⟩
    have hmem := hw.mem
    have hfirst := hdeclared.first
    rw [hfound] at hmem hfirst
    rcases List.mem_cons.1 hmem with rfl | hmem
    · exact absurd (hfirst _ (List.mem_cons_of_mem _ List.mem_cons_self)) (by decide)
    · rw [List.mem_singleton.1 hmem] at hvalue
      cases hvalue

/-- And one that is not exploded loses to an exploded one that is declared before it, in the same
    expression. -/
example : bind false [[⟨"x".toText, true, none⟩, ⟨"x".toText, false, none⟩]] "x=1&x=2".toText 1
    = .ok [("x".toText, some (.ofTexts ["2".toText]))] := by cbv

end Query

end UriTemplate
