import Mathlib
import UriTemplate.Proofs.Matching.Split
import UriTemplate.Proofs.RoundTrip.Contributions

/-! # Acceptance — every expansion is matched

    An expansion is itself a split of the URL: every part has written a stretch, and
    every pattern can bind the stretch that it has written, perhaps to other values.

    * `Pattern.exists_bind_items`, `Pattern.exists_bind_query` — a pattern can bind
      what it has written;
    * `Part.isSplit_ends` — what the parts have written splits the URL;
    * **`Template.matchUrl_render`** — so the search, being complete, finds some split. -/

namespace UriTemplate

variable {keywordLists : Bool} {env : Environment}

/-- No variable is exploded, or there is only one variable? -/
def Expression.ExplodesAlone (e : Expression) : Prop :=
  (∀ v ∈ e.specs, v.explode = false) ∨ ∃ v, e.specs = [v]

/-! ## Binding what was written -/

namespace Pattern

variable {specs : List VarSpec}

/-- A query that is not strict can bind what it has written. -/
theorem exists_bind_query {groups : List (List VarSpec)} (hvalid : ∀ v ∈ groups.flatten, v.IsValid)
    (lead : QueryLead) (start : Nat) :
    ∃ bound, (query lead groups).bind false ((query lead groups).render keywordLists env) start
      = .ok bound := by
  rcases render_query lead groups with ⟨-, hrender⟩ | ⟨hne, c, -, hrender⟩
  · rw [hrender]
    exact ⟨_, rfl⟩
  · obtain ⟨ps, hread, -⟩ := exists_read_entries hvalid hne (start + 1)
    rw [hrender]
    show ∃ bound, Query.bind false groups _ (start + 1) = .ok bound
    rw [Query.bind, hread]
    exact ⟨_, rfl⟩

/-- Without exploded variables, a simple expression writes listed characters only. -/
theorem isListed_of_mem_render (hexplode : ∀ v ∈ specs, v.explode = false) :
    ∀ c ∈ (items .commas specs).render keywordLists env, isListed c = true := by
  rcases render_items .commas specs with ⟨-, hrender⟩ | ⟨-, hrender⟩
  · rw [hrender]
    exact nofun
  · rw [hrender]
    refine forall_mem_intercalate rfl fun text htext => ?_
    obtain ⟨e, he, htext⟩ := List.mem_flatMap.1 htext
    obtain rfl := List.mem_singleton.1 he
    obtain ⟨v, hv, value, -, htext⟩ := Expression.exists_of_mem_parts htext
    obtain ⟨own, hown, hlisted⟩ :=
      VarSpec.exists_parts_eq Operator.simple.style rfl rfl (hexplode v hv) value
    have hparts : ∀ text ∈ v.parts Operator.simple.style value, ∀ c ∈ text, isListed c = true := by
      rw [hown]
      exact List.forall_mem_singleton.2 hlisted
    exact hparts text htext

/-- No text of the row has the separator of the layout. -/
theorem separator_not_mem_row {layout : ItemLayout} (hvalid : ∀ v ∈ specs, v.IsValid)
    (hexplode : layout = .commas → ∀ v ∈ specs, v.explode = true)
    (hflat : env.IsFlat keywordLists) :
    ∀ text ∈ (items layout specs).row keywordLists env, layout.separator ∉ text := by
  intro text htext
  cases layout with
  | slashes =>
      -- no operator that can be matched writes a slash of its own
      have hwritten := isWritten_of_mem_row (p := items .slashes specs) hvalid text htext
      exact not_mem_of_forall hwritten rfl
  | commas =>
      obtain ⟨e, he, htext⟩ := List.mem_flatMap.1 htext
      obtain rfl := List.mem_singleton.1 he
      obtain ⟨v, hv, value, hvalue, htext⟩ := Expression.exists_of_mem_parts htext
      rcases VarSpec.parts_of_explode Operator.simple.style rfl rfl (hexplode rfl v hv)
        (hflat v.name value hvalue) with hplain | hpairs
      · exact not_mem_of_forall (hplain text htext) rfl
      · obtain ⟨key, member, rfl, hkey, hmember⟩ := hpairs text htext
        exact not_mem_joined (by decide) (not_mem_of_forall hkey rfl)
          (not_mem_of_forall hmember rfl)

/-- A simple or path expression writes items that its variables cover, where no comma between
    items can be taken for one inside a list. -/
theorem exists_read_covers {layout : ItemLayout} (hvalid : ∀ v ∈ specs, v.IsValid)
    (hexplode : layout = .commas → ∀ v ∈ specs, v.explode = true)
    (hflat : env.IsFlat keywordLists) (offset : Int) :
    ∃ found, Item.read layout ((items layout specs).render keywordLists env) offset = .ok found ∧
      VarSpec.Covers specs (found.map Item.content) := by
  let e : Expression := ⟨layout.operator, specs⟩
  have hstyle : e.operator.style.escaping = .unreserved ∧ e.operator.style.naming = .values := by
    cases layout <;> exact ⟨rfl, rfl⟩
  obtain ⟨contents, hcontents, hcovers⟩ :=
    Expression.exists_contents layout.hasLists hstyle.1 hstyle.2 hflat
  rw [show e.parts keywordLists env = (items layout specs).row keywordLists env from
    (List.append_nil _).symm] at hcontents
  rcases render_items layout specs with ⟨-, hrender⟩ | ⟨hne, hrender⟩
  · rw [hrender]
    refine ⟨[], ?_, VarSpec.covers_nil specs⟩
    cases layout <;> rfl
  · rw [hrender]
    have hsep := separator_not_mem_row hvalid hexplode hflat
    obtain ⟨found, hread, rfl | ⟨-, rfl, -⟩⟩ := Item.exists_read hne hsep hcontents offset
    · exact ⟨found, hread, hcovers⟩
    · exact ⟨[], hread, VarSpec.covers_nil specs⟩

/-- A simple or path expression can bind what it has written. -/
theorem exists_bind_items {layout : ItemLayout} (hspecs : AreWellFormed specs)
    (halone : layout = .commas → (⟨.simple, specs⟩ : Expression).ExplodesAlone)
    (hflat : env.IsFlat keywordLists) (strict : Bool) (start : Nat) :
    ∃ bound, (items layout specs).bind strict ((items layout specs).render keywordLists env) start
      = .ok bound := by
  suffices hfound : ∃ found bound,
      Item.read layout ((items layout specs).render keywordLists env) start = .ok found ∧
      VarSpec.takeAll (layout = .commas) specs found = .ok bound by
    obtain ⟨found, bound, hread, htake⟩ := hfound
    rw [bind, hread]
    dsimp only
    rw [Item.allocate, htake]
    exact ⟨_, rfl⟩
  by_cases hplain : layout = .commas ∧ ∀ v ∈ specs, v.explode = false
  · -- a comma inside a list only makes more texts, and the last variable takes what is left
    obtain ⟨rfl, hexplode⟩ := hplain
    obtain ⟨found, hread, htexts⟩ :=
      Item.exists_read_listed (isListed_of_mem_render hexplode) (start : Int)
    obtain ⟨bound, hbound⟩ := VarSpec.exists_takeAll_of_isText
      (fun hnil => absurd hnil hspecs.nonempty) hexplode htexts
    exact ⟨found, bound, hread, hbound⟩
  · have hexplode : layout = .commas → ∀ v ∈ specs, v.explode = true := by
      rintro rfl
      rcases halone rfl with hnone | ⟨v, hv⟩
      · exact absurd ⟨rfl, hnone⟩ hplain
      · obtain rfl : specs = [v] := hv
        refine List.forall_mem_singleton.2 ?_
        rw [← Bool.not_eq_false]
        exact fun hv => hplain ⟨rfl, List.forall_mem_singleton.2 hv⟩
    obtain ⟨found, hread, hcovers⟩ := exists_read_covers hspecs.valid hexplode hflat (start : Int)
    obtain ⟨bound, hbound⟩ := VarSpec.exists_takeAll hcovers
      fun hlayout => hexplode (of_decide_eq_true hlayout)
    exact ⟨found, bound, hread, hbound⟩

end Pattern

/-! ## The split that was written -/

namespace Part

/-- Is every pattern the last part or followed by a literal? -/
def AreSeparated : List Part → Prop
  | [] => True
  | .literal _ :: later => AreSeparated later
  | .pattern _ :: later => (∀ p rest, later ≠ .pattern p :: rest) ∧ AreSeparated later

/-- The positions at which the parts have ended, written one after the other from `a` on. -/
def ends (keywordLists : Bool) (env : Environment) : Nat → List Part → List Nat
  | _, [] => []
  | a, part :: later =>
      (a + (part.render keywordLists env).length) ::
        ends keywordLists env (a + (part.render keywordLists env).length) later

open Matching

/-- **THE TRUE SPLIT**: where the parts have ended is a split, if every pattern can bind what it
    has written. -/
theorem isSplit_ends {strict : Bool} {url : Text} {parts : List Part}
    (hstretch : ∀ p, .pattern p ∈ parts → p.IsStretch (p.render keywordLists env) ∧
      ∀ start, ∃ bound, p.bind strict (p.render keywordLists env) start = .ok bound)
    (hseparated : AreSeparated parts) {a : Nat} (ha : a ≤ url.length)
    (hurl : url.drop a = parts.flatMap (Part.render keywordLists env)) :
    IsSplit strict url parts a (ends keywordLists env a parts) := by
  induction parts generalizing a with
  | nil => exact Nat.le_antisymm ha (List.drop_eq_nil_iff.1 hurl)
  | cons part later ih =>
      rw [List.flatMap_cons] at hurl
      have hlength := congrArg List.length hurl
      rw [List.length_drop, List.length_append] at hlength
      have hdrop : url.drop (a + (part.render keywordLists env).length)
          = later.flatMap (Part.render keywordLists env) := by
        rw [← List.drop_drop, hurl, List.drop_left]
      have hslice : url.slice a (a + (part.render keywordLists env).length)
          = part.render keywordLists env := by
        rw [Text.slice, Nat.add_sub_cancel_left, hurl, List.take_left]
      have hlater : AreSeparated later := by
        cases part with
        | literal text => exact hseparated
        | pattern p => exact hseparated.2
      have hrest := ih (fun p hp => hstretch p (List.mem_cons_of_mem part hp)) hlater
        (by omega) hdrop
      refine ⟨Nat.le_add_right _ _, ?_, hrest⟩
      cases part with
      | literal text => exact hslice
      | pattern p =>
          obtain ⟨hp, hbind⟩ := hstretch p List.mem_cons_self
          refine ⟨?_, by rw [hslice]; exact hbind a⟩
          have hreach := p.length_le_reach hp (later.flatMap (Part.render keywordLists env))
          cases later with
          | nil =>
              -- nothing follows, so the pattern reaches as far as it has written
              have hexact : p.reach (p.render keywordLists env ++ []) = _ :=
                p.reach_eq_length hp p.stops_nil
              show _ = _ + p.reach (url.drop a)
              rw [hurl, List.flatMap_nil]
              exact congrArg (a + ·) hexact.symm
          | cons next rest =>
              cases next with
              | literal text =>
                  -- the pattern may reach further than it has written
                  refine ⟨?_, ?_⟩
                  · rw [hurl]
                    exact Nat.add_le_add_left hreach a
                  · rw [hdrop]
                    exact List.prefix_append text _
              | pattern q => exact absurd rfl (hseparated.1 q rest)

end Part

namespace Template

/-- **ACCEPTANCE**: a template in which every pattern is the last part or is followed by a literal,
    and in which a simple expression has an exploded variable only by itself, matches all that it
    is expanded to, whichever flat values its variables have or lack: where its parts have ended is
    a split of the URL, and the search finds that one or a greater one. -/
theorem matchUrl_render {config : Config} {source : Text} {t : Template} {parts : List Part}
    (hparse : Template.parse config source = .ok t) (hparts : t.parts = .ok parts)
    (hstrict : t.config.strictQuery = false) (hseparated : Part.AreSeparated parts)
    (halone : ∀ e ∈ t.expressions, e.operator = .simple → e.ExplodesAlone)
    (hflat : env.IsFlat t.config.keywordLists) :
    Matching.IsSplit t.config.strictQuery (t.render env) parts 0
      (Part.ends t.config.keywordLists env 0 parts) ∧
    ∃ result, (t.matchUrl (t.render env)).value = .ok result := by
  have hstretch : ∀ p, .pattern p ∈ parts →
      p.IsStretch (p.render t.config.keywordLists env) ∧
      ∀ start, ∃ bound, p.bind false (p.render t.config.keywordLists env) start = .ok bound := by
    intro p hp
    have hvalid := isValid_of_parts hparse hparts hp
    refine ⟨Pattern.isStretch_render hvalid, fun start => ?_⟩
    cases p with
    | query lead groups => exact Pattern.exists_bind_query hvalid lead start
    | items layout specs =>
        have he : ⟨layout.operator, specs⟩ ∈ t.expressions :=
          mem_expressions_of_parts hparts hp (List.mem_singleton_self _)
        refine Pattern.exists_bind_items (areWellFormed_of_parse hparse _ he) ?_ hflat false start
        rintro rfl
        exact halone _ he rfl
  have hsplit := Part.isSplit_ends hstretch hseparated (Nat.zero_le _)
    (List.drop_zero.trans (render_eq hparts env))
  obtain ⟨result, hresult⟩ := Matching.exists_solve_of_isSplit hsplit
  rw [Matching.matchUrl_value _ hparts, hstrict, ← List.drop_zero (l := t.render env), hresult]
  exact ⟨List.drop_zero (l := t.render env) ▸ hsplit, ⟨result⟩, rfl⟩

/-- The letter after the first expression can be one of its own, and one of two variables of the
    second may be without a value. -/
theorem matchUrl_render_letter :
    let simple : List VarSpec := [⟨"a".toText, false, none⟩, ⟨"b".toText, false, none⟩]
    let path : List VarSpec := [⟨"p".toText, true, none⟩, ⟨"q".toText, false, none⟩]
    let t : Template := .mk "\x7ba,b\x7dx\x7b/p*,q\x7d".toText
      [.expression ⟨.simple, simple⟩, .literal "x".toText, .expression ⟨.pathSegment, path⟩]
      ⟨true, false⟩
    let env : Environment :=
      [("b".toText, .list [.scalar (.text "x".toText), .scalar .null, .scalar (.text [])]),
        ("p".toText,
          .map [(.text "k".toText, .scalar .null), (.text "l".toText, .scalar (.int 1))])]
    let parts : List Part :=
      [.pattern (.items .commas simple), .literal "x".toText, .pattern (.items .slashes path)]
    t.render env = "x,x/l=1".toText ∧ Part.ends true env 0 parts = [2, 3, 7] ∧
    Matching.IsSplit false (t.render env) parts 0 [2, 3, 7] ∧
    (t.matchUrl (t.render env)).value = .ok ⟨
      [("a".toText, some (.ofText "x".toText)), ("b".toText, none),
        ("p".toText, some (.assoc [("l".toText, .ofText "1".toText)])), ("q".toText, none)]⟩ := by
  intro simple path t env parts
  have hparse : parse ⟨true, false⟩ t.source = .ok t := by decide +kernel
  have hparts : t.parts = .ok parts := rfl
  have halone : ∀ e ∈ t.expressions, e.operator = .simple → e.ExplodesAlone := by
    simp [t, simple, expressions, Segment.expression?, Expression.ExplodesAlone]
  have hflat : env.IsFlat true := by
    refine Environment.isFlat_of_data true ?_
    simp [env, Datum.IsFlat, -Prod.forall]
  have hends : Part.ends true env 0 parts = [2, 3, 7] := by decide +kernel
  obtain ⟨hsplit, -⟩ := matchUrl_render hparse hparts rfl ⟨nofun, nofun, trivial⟩ halone hflat
  have hrender : t.render env = "x,x/l=1".toText := by decide
  refine ⟨hrender, hends, hends ▸ hsplit, ?_⟩
  rw [hrender]
  exact (Matching.matchUrl_value "x,x/l=1".toText hparts).trans (by cbv)

end Template

end UriTemplate
