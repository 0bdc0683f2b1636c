import UriTemplate.Proofs.RoundTrip.ByName

/-! # Groups — only who shares one matters

    The variables of a query carry the number of the expression that declares them.
    The three rounds do not look at it, and when a name is settled the numbers of its
    variables are compared with each other and with nothing else.  So they may be
    changed, as long as variables of one name stay in one group or in two:

    * `Finding.all_map_regroup` — the rounds find the same for the same variables;
    * `Finding.settle_map_regroup` — a name is settled in the same way;
    * `Declared.bind_map_regroup` — so the same is bound;
    * `Query.bindGrouped_numbers` — numbering variables one by one is as good as listing
      them by expression. -/

namespace UriTemplate

variable {ι κ : Type}

/-- The variable in another group. -/
def Declared.regroup (f : ι → κ) (d : Declared ι) : Declared κ := ⟨d.spec, f d.group⟩

@[simp] theorem Declared.regroup_spec (f : ι → κ) (d : Declared ι) :
    (d.regroup f).spec = d.spec := rfl

namespace Finding

/-- The finding of a variable in another group. -/
def regroup (f : ι → κ) (x : Finding ι) : Finding κ := ⟨x.declared.regroup f, x.value⟩

variable (f : ι → κ) (ds : List (Declared ι)) (ps : List Parameter)

/-! ## The rounds -/

theorem firstRound_map_regroup :
    firstRound (ds.map (.regroup f)) ps
      = ((firstRound ds ps).1.map (regroup f), (firstRound ds ps).2) := by
  induction ds generalizing ps with
  | nil => rfl
  | cons d ds ih =>
      rw [List.map_cons, firstRound, firstRound]
      cases hexplode : d.spec.explode with
      | true => simp [hexplode, ih]
      | false => simp [hexplode, ih, regroup]

theorem secondRound_map_regroup :
    secondRound (ds.map (.regroup f)) ps
      = ((secondRound ds ps).1.map (regroup f), (secondRound ds ps).2.1.map (.regroup f),
          (secondRound ds ps).2.2) := by
  induction ds generalizing ps with
  | nil => rfl
  | cons d ds ih =>
      rw [List.map_cons, secondRound, secondRound, Declared.regroup_spec]
      cases hexplode : d.spec.explode with
      | false => simp [ih]
      | true =>
          cases ps.filter (·.name = d.spec.name) with
          | nil => simp [ih]
          | cons p own => simp [ih, regroup]

theorem thirdRound_map_regroup :
    thirdRound (ds.map (.regroup f)) ps
      = ((thirdRound ds ps).1.map (regroup f), (thirdRound ds ps).2) := by
  cases ds with
  | nil => rfl
  | cons d ds => simp [thirdRound, regroup]

/-- **ROUNDS**: variables find the same in whichever groups they are. -/
theorem all_map_regroup :
    all (ds.map (.regroup f)) ps = ((all ds ps).1.map (regroup f), (all ds ps).2) := by
  simp only [all, firstRound_map_regroup, secondRound_map_regroup, thirdRound_map_regroup,
    List.map_append]

/-! ## Who finds something -/

theorem map_declared_firstRound :
    (firstRound ds ps).1.map declared = ds.filter (!·.spec.explode) := by
  induction ds generalizing ps with
  | nil => rfl
  | cons d ds ih =>
      rw [firstRound]
      cases hexplode : d.spec.explode with
      | true => simp [hexplode, ih]
      | false => simp [hexplode, ih]

theorem perm_map_declared_secondRound :
    ((secondRound ds ps).1.map declared ++ (secondRound ds ps).2.1).Perm
      (ds.filter (·.spec.explode)) := by
  induction ds generalizing ps with
  | nil => exact .nil
  | cons d ds ih =>
      rw [secondRound]
      cases hexplode : d.spec.explode with
      | false => simpa [hexplode] using ih ps
      | true =>
          cases ps.filter (·.name = d.spec.name) with
          | nil => simpa [hexplode] using List.perm_middle.trans ((ih ps).cons d)
          | cons p own => simpa [hexplode] using ih _

theorem map_declared_thirdRound : (thirdRound ds ps).1.map declared = ds := by
  cases ds with
  | nil => rfl
  | cons d ds => simp [thirdRound, Function.comp_def]

/-- **EVERY VARIABLE**: each finds something or nothing, exactly once. -/
theorem perm_map_declared_all : ((all ds ps).1.map declared).Perm ds := by
  have hsecond := perm_map_declared_secondRound ds (firstRound ds ps).2
  have hperm : (ds.filter (!·.spec.explode) ++ ds.filter (·.spec.explode)).Perm ds :=
    List.perm_append_comm.trans (List.filter_append_perm _ ds)
  rw [all]
  simp only [List.map_append, map_declared_firstRound, map_declared_thirdRound, List.append_assoc]
  exact (hsecond.append_left _).trans hperm

/-! ## Settling -/

variable [DecidableEq κ]

/-- A name is settled by the first of its findings and those that share its group. -/
theorem settle_map_eq (findings : List (Finding ι)) (name : Text) :
    let own := findings.filter fun x => x.name = name ∧ x.value.isSome
    settle (findings.map (regroup f)) name = own.head?.bind fun x =>
      (own.filter fun y => f y.group = f x.group).getLast?.bind value := by
  intro own
  have hown : (findings.map (regroup f)).filter (fun x => x.name = name ∧ x.value.isSome)
      = own.map (regroup f) :=
    List.filter_map
  unfold settle
  dsimp only
  rw [hown]
  cases own with
  | nil => rfl
  | cons x own =>
      rw [List.map_cons]
      dsimp only
      rw [← List.map_cons, List.filter_map, List.getLast?_map, Option.bind_map]
      rfl

variable [DecidableEq ι] {f}

/-- **SETTLING**: a name is settled in the same way, if no two groups of it become one. -/
theorem settle_map_regroup {findings : List (Finding ι)} {name : Text}
    (h : ∀ x ∈ findings, ∀ y ∈ findings, x.name = name → y.name = name →
      f x.group = f y.group → x.group = y.group) :
    settle (findings.map (regroup f)) name = settle findings name := by
  have hsettle := settle_map_eq id findings name
  rw [show findings.map (regroup id) = findings from List.map_id findings] at hsettle
  rw [hsettle, settle_map_eq]
  -- what shares the group of the first finding is the same
  refine Option.bind_congr fun x hx => ?_
  obtain ⟨hx, hxname⟩ := List.mem_filter.1 (List.mem_of_mem_head? hx)
  refine congrArg (fun own : List (Finding ι) => own.getLast?.bind value)
    (List.filter_congr fun y hy => decide_eq_decide.2 ⟨fun heq => ?_, congrArg f⟩)
  obtain ⟨hy, hyname⟩ := List.mem_filter.1 hy
  exact h y hy x hx (of_decide_eq_true hyname).1 (of_decide_eq_true hxname).1 heq

end Finding

/-- **GROUPS**: the same is bound, if no two groups become one that share a name. -/
theorem Declared.bind_map_regroup [DecidableEq ι] [DecidableEq κ] {f : ι → κ}
    {ds : List (Declared ι)}
    (h : ∀ c ∈ ds, ∀ d ∈ ds, c.spec.name = d.spec.name → f c.group = f d.group →
      c.group = d.group) (strict : Bool) (ps : List Parameter) :
    bind strict (ds.map (regroup f)) ps = bind strict ds ps := by
  have hmem : ∀ x ∈ (Finding.all ds ps).1, x.declared ∈ ds := fun x hx =>
    (Finding.perm_map_declared_all ds ps).subset (List.mem_map_of_mem hx)
  have hsettle : ∀ name, Finding.settle ((Finding.all ds ps).1.map (.regroup f)) name
      = Finding.settle (Finding.all ds ps).1 name := fun name =>
    Finding.settle_map_regroup fun x hx y hy hxname hyname =>
      h _ (hmem x hx) _ (hmem y hy) (hxname.trans hyname.symm)
  simp only [bind, Finding.all_map_regroup, hsettle, List.map_map, Function.comp_def,
    regroup_spec]

/-! ## Numbers -/

namespace Query

/-- The number of the expression that declares it, for each variable of expressions matched
    together. -/
def numbers (groups : List (List VarSpec)) : List Int :=
  (Declared.ofGroups groups).map fun d => (d.group : Int)

/-- Numbered one by one, the variables are those of the groups. -/
theorem zipWith_numbers (groups : List (List VarSpec)) :
    List.zipWith Declared.mk groups.flatten (numbers groups)
      = (Declared.ofGroups groups).map (.regroup fun n : Nat => (n : Int)) := by
  rw [← Declared.map_spec_ofGroups, numbers, List.zipWith_map, List.zipWith_self]
  rfl

/-- **NUMBERS**: there is one for each variable, and with them the same is bound. -/
theorem bindGrouped_numbers (strict : Bool) (groups : List (List VarSpec)) (query : Text)
    (offset : Int) :
    bindGrouped strict groups.flatten (numbers groups) query offset
      = (bind strict groups query offset).mapError .query := by
  have hlength : (numbers groups).length = groups.flatten.length := by
    rw [← Declared.map_spec_ofGroups, numbers, List.length_map, List.length_map]
  rw [bindGrouped, bind]
  cases read query offset with
  | error e => rfl
  | ok ps =>
      have hbind : Declared.bind strict
          ((Declared.ofGroups groups).map (.regroup fun n : Nat => (n : Int))) ps = _ :=
        Declared.bind_map_regroup (fun _ _ _ _ _ heq => Int.natCast_inj.1 heq) strict ps
      dsimp only
      rw [if_neg (by omega), if_neg (by omega), zipWith_numbers, hbind]
      cases Declared.bind strict (Declared.ofGroups groups) ps with
      | error e => rfl
      | ok bound => rfl

end Query

end UriTemplate
