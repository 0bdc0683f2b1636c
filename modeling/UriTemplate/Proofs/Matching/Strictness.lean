import UriTemplate.Proofs.Matching.Split
import UriTemplate.Proofs.Template.WellFormed

/-! # Strictness — refusing what nobody took

    A strict query refuses the parameters that no variable takes, and strictness does
    nothing else.  But a query that is refused makes the search turn to another end,
    so the two searches may go different ways.  They are compared by all the choices of
    ends that a search has (`IsChoice`), whichever of them it comes to:

    * `Pattern.bind_strict_eq_ok_iff` — a pattern binds a stretch strictly just when it
      binds it and leaves nothing over;
    * `isChoice_iff_isSplit` — the choices under which everything matches are the splits;
    * `isChoice_strict_iff` — the strict ones are those that leave nothing over;
    * `Template.matchUrl_strict` — so strictness only rejects more, and what it rejects
      leaves something over whichever ends are chosen. -/

namespace UriTemplate

/-! ## What is left over -/

/-- Bound strictly means bound, with no parameter left. -/
theorem Declared.bind_strict_eq_ok_iff {ι : Type} [DecidableEq ι] {ds : List (Declared ι)}
    {ps : List Parameter} {bound : Bindings} :
    bind true ds ps = .ok bound ↔ bind false ds ps = .ok bound ∧ (Finding.all ds ps).2 = [] := by
  unfold bind
  cases hall : Finding.all ds ps with
  | mk findings left =>
      cases left with
      | nil => exact ⟨fun h => ⟨h, rfl⟩, And.left⟩
      | cons p left => exact ⟨nofun, fun h => nomatch h.2⟩

/-- The parameters of a query that no variable takes. -/
def Query.leftOver (groups : List (List VarSpec)) (query : Text) (offset : Int) :
    List Parameter :=
  match read query offset with
  | .error _ => []
  | .ok ps => (Finding.all (Declared.ofGroups groups) ps).2

namespace Pattern

/-- The parameters of a stretch that no variable takes; only queries have parameters. -/
def leftOver : Pattern → Text → Nat → List Parameter
  | query _ groups, _ :: parameters, start => Query.leftOver groups parameters (start + 1)
  | _, _, _ => []

/-- **STRICT BINDING**: a stretch is bound strictly just when it is bound and nothing is left. -/
theorem bind_strict_eq_ok_iff {p : Pattern} {stretch : Text} {start : Nat} {bound : Bindings} :
    p.bind true stretch start = .ok bound ↔
      p.bind false stretch start = .ok bound ∧ p.leftOver stretch start = [] := by
  match p, stretch with
  | items _ _, _ => exact (and_iff_left rfl).symm
  | query _ _, [] => exact (and_iff_left rfl).symm
  | query lead groups, c :: parameters =>
      show Query.bind true groups parameters (start + 1) = _ ↔
        Query.bind false groups parameters (start + 1) = _ ∧
          Query.leftOver groups parameters (start + 1) = []
      unfold Query.bind Query.leftOver
      cases Query.read parameters (start + 1) with
      | error e => exact ⟨nofun, fun h => nomatch h.1⟩
      | ok ps => exact Declared.bind_strict_eq_ok_iff

end Pattern

namespace Matching

variable {strict : Bool} {url : Text}

/-! ## Choices of ends -/

/-- Is there an end for each part, chosen for a pattern among those that are offered, such that
    every literal stands in its place and every pattern binds its stretch? -/
def IsChoice (strict : Bool) (url : Text) : List Part → Nat → List Nat → Prop
  | [], a, [] => a = url.length
  | .literal text :: later, a, b :: ends =>
      text <+: url.drop a ∧ b = a + text.length ∧ IsChoice strict url later b ends
  | .pattern p :: later, a, b :: ends =>
      (∃ cut ∈ p.candidates later (url.drop a), b = a + cut.length) ∧
        (∃ bound, p.bind strict (url.slice a b) a = .ok bound) ∧ IsChoice strict url later b ends
  | _, _, _ => False

/-- Does some query leave parameters of its stretch over? -/
def LeavesOver (url : Text) : List Part → Nat → List Nat → Prop
  | .literal _ :: later, _, b :: ends => LeavesOver url later b ends
  | .pattern p :: later, a, b :: ends =>
      p.leftOver (url.slice a b) a ≠ [] ∨ LeavesOver url later b ends
  | _, _, _ => False

/-- A literal that stands at a position spans its text. -/
theorem slice_eq_of_isPrefix {text : Text} {a : Nat} (h : text <+: url.drop a) :
    url.slice a (a + text.length) = text := by
  rw [Text.slice, Nat.add_sub_cancel_left]
  exact (List.prefix_iff_eq_take.1 h).symm

/-- The choices under which everything matches are the splits. -/
theorem isChoice_iff_isSplit {parts : List Part} {a : Nat} {ends : List Nat} :
    IsChoice strict url parts a ends ↔ IsSplit strict url parts a ends := by
  induction parts generalizing a ends with
  | nil => cases ends <;> exact Iff.rfl
  | cons part later ih =>
      cases ends with
      | nil => cases part <;> exact Iff.rfl
      | cons b ends =>
          cases part with
          | literal text =>
              rw [IsChoice, ih]
              constructor
              · rintro ⟨hstands, rfl, hsplit⟩
                exact isSplit_literal.2
                  ⟨Nat.le_add_right _ _, slice_eq_of_isPrefix hstands, hsplit⟩
              · intro h
                obtain ⟨hb, hdrop⟩ := drop_of_isSplit_literal h
                exact ⟨⟨_, hdrop.symm⟩, hb, (isSplit_literal.1 h).2.2⟩
          | pattern p =>
              have hslice : ∀ n, url.slice a (a + n) = (url.drop a).take n := by
                intro n
                rw [Text.slice, Nat.add_sub_cancel_left]
              rw [IsChoice, ih, isSplit_pattern]
              constructor
              · rintro ⟨⟨cut, hcut, rfl⟩, hbind, hsplit⟩
                rw [hslice] at hbind
                exact ⟨cut, hcut, rfl, hbind, hsplit⟩
              · rintro ⟨cut, hcut, rfl, hbind, hsplit⟩
                rw [← hslice] at hbind
                exact ⟨⟨cut, hcut, rfl⟩, hbind, hsplit⟩

/-- **STRICT CHOICES**: a choice of ends is a strict one just when it leaves nothing over. -/
theorem isChoice_strict_iff {parts : List Part} {a : Nat} {ends : List Nat} :
    IsChoice true url parts a ends ↔
      IsChoice false url parts a ends ∧ ¬ LeavesOver url parts a ends := by
  induction parts generalizing a ends with
  | nil => cases ends <;> exact (and_iff_left id).symm
  | cons part later ih =>
      cases ends with
      | nil => cases part <;> exact (and_iff_left id).symm
      | cons b ends =>
          cases part with
          | literal text =>
              rw [IsChoice, IsChoice, LeavesOver, ih, and_assoc, and_assoc]
          | pattern p =>
              have hbind : (∃ bound, p.bind true (url.slice a b) a = .ok bound) ↔
                  (∃ bound, p.bind false (url.slice a b) a = .ok bound) ∧
                    p.leftOver (url.slice a b) a = [] := by
                simp only [Pattern.bind_strict_eq_ok_iff, exists_and_right]
              rw [IsChoice, IsChoice, LeavesOver, ih, hbind, not_or, not_not]
              constructor
              · rintro ⟨hcut, ⟨hbound, hnil⟩, hlater, hleft⟩
                exact ⟨⟨hcut, hbound, hlater⟩, hnil, hleft⟩
              · rintro ⟨⟨hcut, hbound, hlater⟩, hnil, hleft⟩
                exact ⟨hcut, ⟨hbound, hnil⟩, hlater, hleft⟩

end Matching

namespace Template

open Matching

/-- A template matches just when there is a choice of ends under which all of its parts do. -/
theorem exists_matchUrl_iff_isChoice {t : Template} {parts : List Part}
    (hparts : t.parts = .ok parts) {url : Text} :
    (∃ result, (t.matchUrl url).value = .ok result) ↔
      ∃ ends, IsChoice t.config.strictQuery url parts 0 ends := by
  simp only [isChoice_iff_isSplit]
  exact exists_matchUrl_iff_isSplit hparts url

/-- **STRICTNESS**: what matches where parameters may not be left matches where they may.  And a URL
    that matches only there leaves a parameter of some query over, under every choice of ends that
    lets all parts match. -/
theorem matchUrl_strict {keywordLists : Bool} {source : Text} {lenient strict : Template}
    (hlenient : parse ⟨keywordLists, false⟩ source = .ok lenient)
    (hstrict : parse ⟨keywordLists, true⟩ source = .ok strict) {parts : List Part}
    (hparts : lenient.parts = .ok parts) (url : Text) :
    ((∃ result, (strict.matchUrl url).value = .ok result) →
      ∃ result, (lenient.matchUrl url).value = .ok result) ∧
    ((∃ result, (lenient.matchUrl url).value = .ok result) →
      (∀ result, (strict.matchUrl url).value ≠ .ok result) →
      ∀ ends, IsChoice false url parts 0 ends → LeavesOver url parts 0 ends) := by
  obtain ⟨hsource, hconfig, hread⟩ := parse_eq_ok_iff_read.1 hlenient
  obtain ⟨hsource', hconfig', hread'⟩ := parse_eq_ok_iff_read.1 hstrict
  have hsegments : strict.segments = lenient.segments := Except.ok.inj (hread'.symm.trans hread)
  -- the parts of a template do not depend on its configuration
  have hsame : strict.parts = .ok parts := by
    rw [Template.parts, hsegments, hsource', ← hsource]
    exact hparts
  have hstrictly : (∃ result, (strict.matchUrl url).value = .ok result) ↔
      ∃ ends, IsChoice true url parts 0 ends := by
    rw [exists_matchUrl_iff_isChoice hsame, hconfig']
  rw [exists_matchUrl_iff_isChoice hparts, hstrictly, hconfig]
  constructor
  · rintro ⟨ends, hends⟩
    exact ⟨ends, (isChoice_strict_iff.1 hends).1⟩
  · intro _ hrejected ends hends
    by_contra hnothing
    obtain ⟨result, hresult⟩ := hstrictly.2 ⟨ends, isChoice_strict_iff.2 ⟨hends, hnothing⟩⟩
    exact hrejected result hresult

/-- The query must leave a parameter to the literal after it, and then has another left over. -/
theorem matchUrl_strict_literal :
    let specs : List VarSpec := [⟨"a".toText, false, none⟩]
    let segments : List Segment := [.expression ⟨.query, specs⟩, .literal "&b=2".toText]
    let source : Text := "\x7b?a\x7d&b=2".toText
    let lenient : Template := .mk source segments ⟨true, false⟩
    let strict : Template := .mk source segments ⟨true, true⟩
    let parts : List Part := [.pattern (.query .question [specs]), .literal "&b=2".toText]
    let url : Text := "?a=1&b=2&b=2".toText
    (lenient.matchUrl url).value = .ok ⟨[("a".toText, some (.ofText "1".toText))]⟩ ∧
    (strict.matchUrl url).value = .error (.mismatch ⟨.extraItems 1, some 5⟩) ∧
    IsChoice false url parts 0 [8, 12] ∧ LeavesOver url parts 0 [8, 12] := by
  intro specs segments source lenient strict parts url
  have hlenient : parse ⟨true, false⟩ source = .ok lenient := by decide +kernel
  have hstrict : parse ⟨true, true⟩ source = .ok strict := by decide +kernel
  have hparts : lenient.parts = .ok parts := rfl
  have hsame : strict.parts = .ok parts := rfl
  have haccepted : (lenient.matchUrl url).value
      = .ok ⟨[("a".toText, some (.ofText "1".toText))]⟩ := (matchUrl_value url hparts).trans rfl
  have hrejected : (strict.matchUrl url).value = .error (.mismatch ⟨.extraItems 1, some 5⟩) :=
    (matchUrl_value url hsame).trans rfl
  have hchoice : IsChoice false url parts 0 [8, 12] :=
    ⟨⟨⟨8, "&b=2".toText⟩, List.mem_cons_self, rfl⟩, ⟨_, rfl⟩, ⟨[], rfl⟩, rfl, rfl⟩
  refine ⟨haccepted, hrejected, hchoice, ?_⟩
  exact (matchUrl_strict hlenient hstrict hparts url).2 ⟨_, haccepted⟩
    (fun result hresult => nomatch hrejected.symm.trans hresult) [8, 12] hchoice

end Template

end UriTemplate
