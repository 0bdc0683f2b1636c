import Mathlib.Data.Nat.Find
import UriTemplate.Proofs.Matching.Errors
import UriTemplate.Proofs.Matching.Fill

/-! # Walks — matching without turning back

    A walk takes every pattern up to the first end that would be tried, binds the
    stretch, and goes on from there; it never comes back to try another end.  What a
    match tells when it fails is what the walk tells, however many ends were tried:

    * `Pattern.fst_cuts` — the first end, said without the list of all ends;
    * `Walk.solve_of_step`, `Walk.step_of_solve` — what is solved before one step of
      a walk, and what after it;
    * `Walk.solve_of_run`, `Walk.run_of_solve` — so a walk that comes to the end is
      a match, and a match that fails fails as the walk does;
    * **`Template.matchUrl_walk`** — what this says of a template. -/

namespace UriTemplate

/-! ## The first end -/

namespace Pattern

/-- Where a stretch ends at first: before a literal, at the last place within reach where that
    stands, if there is any; elsewhere as far as the pattern reaches. -/
def firstEnd (p : Pattern) (later : List Part) (url : Text) : Nat :=
  match later with
  | .literal next :: _ =>
      if ∃ n ≤ p.reach url, next <+: url.drop n then
        Nat.findGreatest (fun n => next <+: url.drop n) (p.reach url)
      else p.reach url
  | _ => p.reach url

variable (p : Pattern) (later : List Part) (url : Text)

/-- Before a literal the end that is tried first is the first end. -/
theorem fst_cuts_literal (next : Text) : (p.cuts (.literal next :: later) url).1
    = ⟨p.firstEnd (.literal next :: later) url,
        url.drop (p.firstEnd (.literal next :: later) url)⟩ := by
  have hfirst : (p.cuts (.literal next :: later) url).1
      ∈ p.candidates (.literal next :: later) url := List.mem_cons_self
  rw [candidates_of_literal] at hfirst
  unfold firstEnd
  dsimp only
  by_cases hplace : ∃ n ≤ p.reach url, next <+: url.drop n
  · rw [if_pos hplace]
    obtain ⟨n, hn, hnext⟩ := hplace
    have hlast : (⟨Nat.findGreatest (fun n => next <+: url.drop n) (p.reach url), _⟩ : Cut)
        ∈ p.candidates (.literal next :: later) url :=
      mem_candidates_of_isPrefix (Nat.findGreatest_le _)
        (Nat.findGreatest_spec (P := fun n => next <+: url.drop n) hn hnext)
    rcases List.mem_cons.1 hlast with heq | hother
    · exact heq.symm
    · -- an end further to the right would be a greater place
      have hlt := List.rel_of_pairwise_cons (p.pairwise_candidates _ url) hother
      have hnil : Cut.places next 0 (p.reach url) url ≠ [] := by
        intro hnil
        rw [candidates_of_literal, if_pos hnil] at hlast
        have hmem : (⟨n, url.drop n⟩ : Cut) ∈ Cut.places next 0 (p.reach url) url :=
          Cut.mem_places.2 ⟨n, hn, Nat.le_trans hn (p.reach_le_length url), hnext,
            by rw [Nat.zero_add]⟩
        rw [hnil] at hmem
        exact List.not_mem_nil hmem
      rw [if_neg hnil] at hfirst
      obtain ⟨j, hj, -, hnext, heq⟩ := Cut.mem_places.1 (List.mem_reverse.1 hfirst)
      have hle := Nat.le_findGreatest (P := fun n => next <+: url.drop n) hj hnext
      rw [heq] at hlt
      have hlt : Nat.findGreatest (fun n => next <+: url.drop n) (p.reach url) < 0 + j := hlt
      omega
  · rw [if_neg hplace]
    have hnil : Cut.places next 0 (p.reach url) url = [] := by
      refine List.eq_nil_iff_forall_not_mem.2 fun cut hcut => ?_
      obtain ⟨j, hj, -, hnext, -⟩ := Cut.mem_places.1 hcut
      exact hplace ⟨j, hj, hnext⟩
    rw [if_pos hnil] at hfirst
    exact List.mem_singleton.1 hfirst

/-- The end that is tried first is the first end. -/
theorem fst_cuts :
    (p.cuts later url).1 = ⟨p.firstEnd later url, url.drop (p.firstEnd later url)⟩ := by
  cases later with
  | nil => rfl
  | cons part later =>
      cases part with
      | literal next => exact p.fst_cuts_literal later url next
      | pattern q => rfl

end Pattern

/-! ## Walks -/

/-- How far a walk has come: the position, the URL from there, and what is bound. -/
structure Walk where
  start : Nat
  rest : Text
  bound : Bindings

namespace Walk

/-- The walk past one part, with the parts `later` after it. -/
def step (strict : Bool) (part : Part) (later : List Part) (w : Walk) : Except MatchError Walk :=
  match part with
  | .literal text =>
      if text <+: w.rest then .ok ⟨w.start + text.length, w.rest.drop text.length, w.bound⟩
      else .error ⟨.literal text (w.rest.take text.length), some w.start⟩
  | .pattern p =>
      let n := p.firstEnd later w.rest
      match p.bind strict (w.rest.take n) w.start with
      | .error e => .error e
      | .ok found => .ok ⟨w.start + n, w.rest.drop n, w.bound.fill found⟩

/-- The walk past all parts, to the end of the URL. -/
def run (strict : Bool) : List Part → Walk → Except MatchError Bindings
  | [], w => if w.rest = [] then .ok w.bound else .error ⟨.literal [] w.rest, some w.start⟩
  | part :: later, w =>
      match w.step strict part later with
      | .error e => .error e
      | .ok next => next.run strict later

open Matching

variable {strict : Bool} {part : Part} {parts later : List Part} {w next : Walk}
  {bindings found : Bindings} {e : MatchError}

/-- **STEP**: if the rest is solved from where the step leads to, all is solved from where it
    began, and comes to the same. -/
theorem solve_of_step (hstep : w.step strict part later = .ok next)
    (h : solve strict later next.start next.rest = .ok found) :
    ∃ all, solve strict (part :: later) w.start w.rest = .ok all ∧
      w.bound.fill all = next.bound.fill found := by
  cases part with
  | literal text =>
      rw [step] at hstep
      split at hstep
      · next hprefix =>
          obtain ⟨rest, hrest⟩ := hprefix
          obtain rfl := Except.ok.inj hstep
          rw [← hrest, List.drop_left] at h
          refine ⟨found, ?_, rfl⟩
          rw [solve, List.isPrefixOf?_eq_some_iff_append_eq.2 hrest]
          exact h
      · cases hstep
  | pattern p =>
      rw [step] at hstep
      cases hbind : p.bind strict (w.rest.take (p.firstEnd later w.rest)) w.start with
      | error e =>
          rw [hbind] at hstep
          cases hstep
      | ok bound =>
          rw [hbind] at hstep
          obtain rfl := Except.ok.inj hstep
          refine ⟨bound.fill found, ?_, (Bindings.fill_fill w.bound bound found).symm⟩
          rw [solve_pattern, Pattern.fst_cuts]
          refine firstSuccess_of_ok ?_ _
          rw [solveCut, hbind]
          exact congrArg (Except.map bound.fill) h

/-- **STEP**: what fails fails at this step, or from where it leads to. -/
theorem step_of_solve (h : solve strict (part :: later) w.start w.rest = .error e) :
    w.step strict part later = .error e ∨
      ∃ next, w.step strict part later = .ok next ∧
        solve strict later next.start next.rest = .error e := by
  cases part with
  | literal text =>
      rw [solve] at h
      rw [step]
      cases hrest : text.isPrefixOf? w.rest with
      | none =>
          rw [hrest] at h
          left
          rw [if_neg]
          · obtain rfl := Except.error.inj h
            rfl
          · rintro ⟨rest, heq⟩
            rw [List.isPrefixOf?_eq_some_iff_append_eq.2 heq] at hrest
            cases hrest
      | some rest =>
          rw [hrest] at h
          have heq := List.isPrefixOf?_eq_some_iff_append_eq.1 hrest
          right
          rw [if_pos ⟨rest, heq⟩]
          refine ⟨_, rfl, ?_⟩
          dsimp only
          rw [← heq, List.drop_left]
          exact h
  | pattern p =>
      rw [solve_pattern, Pattern.fst_cuts] at h
      rw [step]
      rcases solveCut_eq_error (eq_error_of_firstSuccess h) with hbind | ⟨bound, hbind, hrest⟩
      · left
        rw [hbind]
      · right
        rw [hbind]
        exact ⟨_, rfl, hrest⟩

/-- **RUN**: a walk that comes to the end has solved what was before it. -/
theorem solve_of_run (h : w.run strict parts = .ok bindings) :
    ∃ all, solve strict parts w.start w.rest = .ok all ∧ bindings = w.bound.fill all := by
  induction parts generalizing w with
  | nil =>
      rw [run] at h
      split at h
      · next hrest =>
          obtain rfl := Except.ok.inj h
          rw [solve, hrest]
          exact ⟨[], rfl, (Bindings.fill_nil w.bound).symm⟩
      · cases h
  | cons part later ih =>
      rw [run] at h
      cases hstep : w.step strict part later with
      | error e =>
          rw [hstep] at h
          cases h
      | ok next =>
          rw [hstep] at h
          obtain ⟨found, hfound, rfl⟩ := ih h
          obtain ⟨all, hall, heq⟩ := solve_of_step hstep hfound
          exact ⟨all, hall, heq.symm⟩

/-- **RUN**: what cannot be solved fails as the walk does. -/
theorem run_of_solve (h : solve strict parts w.start w.rest = .error e) :
    w.run strict parts = .error e := by
  induction parts generalizing w with
  | nil =>
      rw [solve] at h
      rw [run]
      cases hrest : w.rest with
      | nil =>
          rw [hrest] at h
          cases h
      | cons c rest =>
          rw [hrest] at h
          rw [if_neg (List.cons_ne_nil c rest)]
          exact h
  | cons part later ih =>
      rw [run]
      rcases step_of_solve h with hstep | ⟨next, hstep, hrest⟩
      · rw [hstep]
      · rw [hstep]
        exact ih hrest

end Walk

namespace Template

/-- **NO TURNING BACK**: the walk through the parts of a template that takes the first end for every
    pattern, binds it and goes on.  If it comes to the end, a match gives what it has bound; and
    whenever a match fails, the walk fails, and the match tells just the error that it met, however
    many other ends were tried. -/
theorem matchUrl_walk {t : Template} {parts : List Part} (hparts : t.parts = .ok parts)
    (url : Text) :
    (∀ bindings, Walk.run t.config.strictQuery parts ⟨0, url, []⟩ = .ok bindings →
      (t.matchUrl url).value = .ok ⟨bindings⟩) ∧
    ∀ fault, (t.matchUrl url).value = .error fault →
      ∃ e, Walk.run t.config.strictQuery parts ⟨0, url, []⟩ = .error e ∧ fault = .mismatch e := by
  rw [Matching.matchUrl_value url hparts]
  constructor
  · intro bindings h
    obtain ⟨all, hall, rfl⟩ := Walk.solve_of_run h
    dsimp only at hall ⊢
    rw [hall, Bindings.nil_fill]
    rfl
  · intro fault h
    cases hsolve : Matching.solve t.config.strictQuery parts 0 url with
    | ok bindings =>
        rw [hsolve] at h
        cases h
    | error e =>
        rw [hsolve] at h
        exact ⟨e, Walk.run_of_solve hsolve, (Except.error.inj h).symm⟩

/-- The literal stands at two places.  From both the match fails, and it tells what the walk meets
    behind the last; where the URL ends there, the walk arrives. -/
theorem matchUrl_walk_edit :
    let path : List VarSpec := [⟨"path".toText, true, none⟩]
    let t : Template := .mk "\x7b/path*\x7d/e".toText
      [.expression ⟨.pathSegment, path⟩, .literal "/e".toText] ⟨true, false⟩
    t.parts = .ok [.pattern (.items .slashes path), .literal "/e".toText] ∧
    (t.matchUrl "/a/e/b/e/c".toText).value
      = .error (.mismatch ⟨.literal [] "/c".toText, some 8⟩) ∧
    Walk.run false [.pattern (.items .slashes path), .literal "/e".toText]
      ⟨0, "/a/e/b/e/c".toText, []⟩ = .error ⟨.literal [] "/c".toText, some 8⟩ ∧
    (t.matchUrl "/a/e/b/e".toText).value
      = .ok ⟨[("path".toText, some (.ofTexts ["a".toText, "e".toText, "b".toText]))]⟩ := by
  intro path t
  have hparts : t.parts = .ok [.pattern (.items .slashes path), .literal "/e".toText] := rfl
  have hfails : (t.matchUrl "/a/e/b/e/c".toText).value
      = .error (.mismatch ⟨.literal [] "/c".toText, some 8⟩) :=
    (Matching.matchUrl_value _ hparts).trans rfl
  obtain ⟨e, hwalk, he⟩ := (matchUrl_walk hparts _).2 _ hfails
  rw [← Fault.mismatch.inj he] at hwalk
  exact ⟨hparts, hfails, hwalk, (matchUrl_walk hparts _).1 _ rfl⟩

end Template

end UriTemplate
