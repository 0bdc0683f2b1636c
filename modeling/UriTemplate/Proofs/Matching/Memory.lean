import UriTemplate.Matching
import UriTemplate.Proofs.Matching.Candidates

/-! # Memory — remembered outcomes are the plain ones

    `Matching.search` solves each pair of parts left and position once and keeps the
    outcome; `Matching.solve` solves every pair afresh.  The two come to the same:

    * `states` lists every state that the memory is in during a search, in order;
    * `Trace.Step` says all that can happen from one of them to the next: something
      is taken up, something is reported, or the plain outcome is kept under a key
      that had none;
    * `search_eq_and_path` is the simulation: from a sound memory (`Trace.Sound`) a
      search has the plain outcome, and its states are a path of such steps.

    Soundness and the entries themselves are kept by a step, hence along a path. -/

namespace UriTemplate.Matching

/-! ## One possible end -/

/-- What a stretch up to a possible end comes to, everything after it solved afresh. -/
def solveCut (strict : Bool) (p : Pattern) (later : List Part) (start : Nat) (url : Text)
    (cut : Cut) : Outcome :=
  match p.bind strict (url.take cut.length) start with
  | .error e => .error e
  | .ok bound => (solve strict later (start + cut.length) cut.rest).map bound.fill

/-- What a stretch up to a possible end binds, and what the parts after it come to. -/
def bindCut (strict : Bool) (p : Pattern) (later : List Part) (start : Nat) (url : Text)
    (cut : Cut) (trace : Trace) : Outcome × Trace :=
  match p.bind strict (url.take cut.length) start with
  | .error e => (.error e, trace)
  | .ok bound =>
      let (outcome, trace) := search strict later (start + cut.length) cut.rest trace
      (outcome.map bound.fill, trace)

/-- The record of a stretch that was turned down. -/
def rejection (p : Pattern) (later : List Part) (start : Nat) (stretch : Text) (e : MatchError) :
    Record :=
  .stretchRejected p.toExpression.toText later.length start stretch e

/-- The same as `solveCut` with a memory; a failure is reported. -/
def searchCut (strict : Bool) (p : Pattern) (later : List Part) (start : Nat) (url : Text)
    (cut : Cut) (trace : Trace) : Outcome × Trace :=
  let (outcome, trace) := bindCut strict p later start url cut trace
  match outcome with
  | .ok bindings => (.ok bindings, trace)
  | .error e => (.error e, trace.report (rejection p later start (url.take cut.length) e))

theorem solve_pattern (strict : Bool) (p : Pattern) (later : List Part) (start : Nat)
    (url : Text) :
    solve strict (.pattern p :: later) start url
      = firstSuccess (solveCut strict p later start url) (p.cuts later url).1
          (p.cuts later url).2 := rfl

/-! ## The states of the memory -/

namespace Trace

variable {α : Type}

/-- The states while something is remembered or found; none if it is known. -/
def statesOfRemember (trace : Trace) (key : Nat × Nat) (find : Trace → Outcome × Trace)
    (states : Trace → List Trace) : List Trace :=
  match trace.solved[key]? with
  | some _ => []
  | none => trace.enter key :: states (trace.enter key) ++ [(trace.remember key find).2]

/-- The states while attempts are made until one succeeds. -/
def statesOfFirstSuccess (attempt : α → Trace → Outcome × Trace) (states : α → Trace → List Trace) :
    α → List α → Trace → List Trace
  | a, [], trace => states a trace
  | a, b :: others, trace =>
      states a trace ++
        match attempt a trace with
        | (.ok _, _) => []
        | (.error _, trace) => statesOfFirstSuccess attempt states b others trace

end Trace

/-- The states while one possible end is tried; `passed` gives those while the parts after it are
    matched. -/
def statesOfCut (strict : Bool) (p : Pattern) (later : List Part) (start : Nat) (url : Text)
    (passed : Nat → Text → Trace → List Trace) (cut : Cut) (trace : Trace) : List Trace :=
  (match p.bind strict (url.take cut.length) start with
    | .error _ => []
    | .ok _ => passed (start + cut.length) cut.rest trace) ++
  match searchCut strict p later start url cut trace with
  | (.ok _, _) => []
  | (.error _, trace) => [trace]

/-- Every state that the memory is in during `search`, in order, the first one left out. -/
def states (strict : Bool) : List Part → Nat → Text → Trace → List Trace
  | [], start, url, trace =>
      trace.statesOfRemember (0, start) (fun trace => (atEnd start url, trace)) fun _ => []
  | .literal text :: later, start, url, trace =>
      trace.statesOfRemember (later.length + 1, start)
        (fun trace =>
          match text.isPrefixOf? url with
          | some rest => search strict later (start + text.length) rest trace
          | none => (missing text start url, trace))
        fun trace =>
          match text.isPrefixOf? url with
          | some rest => states strict later (start + text.length) rest trace
          | none => []
  | .pattern p :: later, start, url, trace =>
      trace.statesOfRemember (later.length + 1, start)
        (Trace.firstSuccess (searchCut strict p later start url) (p.cuts later url).1
          (p.cuts later url).2)
        (Trace.statesOfFirstSuccess (searchCut strict p later start url)
          (statesOfCut strict p later start url (states strict later)) (p.cuts later url).1
          (p.cuts later url).2)

/-! ## Steps and paths -/

namespace Trace

/-- All that can happen to the memory while `parts` are matched against `url`: something is taken
    up, something is reported, or the plain outcome is kept under a key that had none. -/
inductive Step (strict : Bool) (parts : List Part) (url : Text) : Trace → Trace → Prop where
  | enter (trace : Trace) (key : Nat × Nat) : Step strict parts url trace (trace.enter key)
  | report (trace : Trace) (record : Record) : Step strict parts url trace (trace.report record)
  | keep (trace : Trace) (later : List Part) (start : Nat) :
      later <:+ parts → trace.solved[(later.length, start)]? = none →
      Step strict parts url trace
        (trace.keep (later.length, start) (solve strict later start (url.drop start)))

/-- The states `l` lead from one state to another, each from the one before it. -/
inductive Path (R : Trace → Trace → Prop) : Trace → List Trace → Trace → Prop where
  | done (trace : Trace) : Path R trace [] trace
  | step {trace next last : Trace} {l : List Trace} :
      R trace next → Path R next l last → Path R trace (next :: l) last

/-- Every entry is the plain outcome of the last so many parts at its position. -/
def Sound (strict : Bool) (parts : List Part) (url : Text) (trace : Trace) : Prop :=
  ∀ n start outcome, trace.solved[(n, start)]? = some outcome →
    ∃ later, later <:+ parts ∧ later.length = n ∧
      outcome = solve strict later start (url.drop start)

/-- No entry of the first is lost or changed in the second. -/
def Extends (trace next : Trace) : Prop :=
  ∀ (key : Nat × Nat) (outcome : Outcome),
    trace.solved[key]? = some outcome → next.solved[key]? = some outcome

namespace Path

variable {R S : Trace → Trace → Prop} {a b c : Trace} {l m : List Trace}

theorem append (h : Path R a l b) (h' : Path R b m c) : Path R a (l ++ m) c := by
  induction h with
  | done _ => exact h'
  | step hstep _ ih => exact .step hstep (ih h')

theorem single (h : R a b) : Path R a [b] b := .step h (.done b)

theorem mono (hRS : ∀ s s', R s s' → S s s') (h : Path R a l b) : Path S a l b := by
  induction h with
  | done _ => exact .done _
  | step hstep _ ih => exact .step (hRS _ _ hstep) ih

/-- What a step keeps, every state of a path has. -/
theorem preserves {P : Trace → Prop} (hP : ∀ s s', P s → R s s' → P s') (ha : P a)
    (h : Path R a l b) : (∀ s ∈ l, P s) ∧ P b := by
  induction h with
  | done _ => exact ⟨fun s hs => (List.not_mem_nil hs).elim, ha⟩
  | step hstep _ ih =>
      have hnext := hP _ _ ha hstep
      obtain ⟨hall, hlast⟩ := ih hnext
      refine ⟨fun s hs => ?_, hlast⟩
      rcases List.mem_cons.1 hs with rfl | hs
      · exact hnext
      · exact hall s hs

end Path

theorem Extends.refl (trace : Trace) : Extends trace trace := fun _ _ h => h

theorem Extends.trans {a b c : Trace} (h : Extends a b) (h' : Extends b c) : Extends a c :=
  fun key outcome hk => h' key outcome (h key outcome hk)

namespace Step

variable {strict : Bool} {parts tail : List Part} {url : Text} {trace next : Trace}

/-- What can happen for the last parts can happen for all of them. -/
theorem mono (htail : tail <:+ parts) (h : Step strict tail url trace next) :
    Step strict parts url trace next := by
  cases h with
  | enter key => exact .enter trace key
  | report record => exact .report trace record
  | keep later start hlater hnew => exact .keep trace later start (hlater.trans htail) hnew

/-- A step keeps a memory sound. -/
theorem sound (hs : trace.Sound strict parts url) (h : Step strict parts url trace next) :
    next.Sound strict parts url := by
  cases h with
  | enter key => exact hs
  | report record => exact hs
  | keep later start hlater hnew =>
      intro n i outcome hfound
      rw [show (trace.keep _ _).solved = trace.solved.insert _ _ from rfl,
        Std.HashMap.getElem?_insert] at hfound
      split at hfound
      · next hkey =>
          obtain ⟨rfl, rfl⟩ := Prod.mk.inj (eq_of_beq hkey)
          exact ⟨later, hlater, rfl, (Option.some.inj hfound).symm⟩
      · exact hs n i outcome hfound

/-- A step changes no entry. -/
theorem extends_of_step (h : Step strict parts url trace next) : Extends trace next := by
  cases h with
  | enter key => exact Extends.refl trace
  | report record => exact Extends.refl trace
  | keep later start hlater hnew =>
      intro key outcome hfound
      rw [show (trace.keep _ _).solved = trace.solved.insert _ _ from rfl,
        Std.HashMap.getElem?_insert, if_neg, hfound]
      rintro hkey
      rw [eq_of_beq hkey, hfound] at hnew
      exact nomatch hnew

/-- Only the outcomes of the parts in question are kept. -/
theorem solved_eq_none {n i : Nat} (hn : parts.length < n) (hnew : trace.solved[(n, i)]? = none)
    (h : Step strict parts url trace next) : next.solved[(n, i)]? = none := by
  cases h with
  | enter key => exact hnew
  | report record => exact hnew
  | keep later start hlater _ =>
      rw [show (trace.keep _ _).solved = trace.solved.insert _ _ from rfl,
        Std.HashMap.getElem?_insert, if_neg, hnew]
      intro hkey
      have hlen : later.length = n := congrArg Prod.fst (eq_of_beq hkey)
      have := hlater.length_le
      omega

end Step

/-- Along a path of steps every earlier memory is part of every later one. -/
theorem Path.pairwise_extends {R : Trace → Trace → Prop} {a b : Trace} {l : List Trace}
    (hR : ∀ s s', R s s' → Extends s s') (h : Path R a l b) : (a :: l).Pairwise Extends := by
  induction h with
  | done trace => exact List.pairwise_singleton Extends trace
  | step hstep hpath ih =>
      have hnext := hR _ _ hstep
      refine List.Pairwise.cons (fun s hs => ?_) ih
      rcases List.mem_cons.1 hs with rfl | hs
      · exact hnext
      · exact (hpath.preserves (fun _ _ h h' => h.trans (hR _ _ h')) hnext).1 s hs

/-! ## The simulation -/

/-- From every sound memory, `find` comes to `outcome`, and `states` are the states on the way,
    each from the one before it by `R`. -/
def Finds (strict : Bool) (parts : List Part) (url : Text) (R : Trace → Trace → Prop)
    (find : Trace → Outcome × Trace) (states : Trace → List Trace) (outcome : Outcome) : Prop :=
  ∀ trace, Sound strict parts url trace →
    (find trace).1 = outcome ∧ Path R trace (states trace) (find trace).2

variable {strict : Bool} {parts later : List Part} {url : Text} {R : Trace → Trace → Prop}

theorem remember_known {trace : Trace} {key : Nat × Nat} {outcome : Outcome}
    (h : trace.solved[key]? = some outcome) (find : Trace → Outcome × Trace) :
    trace.remember key find = (outcome, trace) := by
  rw [remember, h]

theorem remember_new {trace : Trace} {key : Nat × Nat} (h : trace.solved[key]? = none)
    (find : Trace → Outcome × Trace) :
    trace.remember key find
      = ((find (trace.enter key)).1,
          (find (trace.enter key)).2.keep key (find (trace.enter key)).1) := by
  rw [remember, h]

theorem statesOfRemember_known {trace : Trace} {key : Nat × Nat} {outcome : Outcome}
    (h : trace.solved[key]? = some outcome) (find : Trace → Outcome × Trace)
    (states : Trace → List Trace) : trace.statesOfRemember key find states = [] := by
  rw [statesOfRemember, h]

theorem statesOfRemember_new {trace : Trace} {key : Nat × Nat} (h : trace.solved[key]? = none)
    (find : Trace → Outcome × Trace) (states : Trace → List Trace) :
    trace.statesOfRemember key find states
      = trace.enter key :: (states (trace.enter key) ++ [(trace.remember key find).2]) := by
  rw [statesOfRemember, h]
  rfl

/-- Remembering comes to what finding comes to.  While it is found nothing may be kept under the
    key (`hnew`), or the outcome would be kept twice. -/
theorem finds_remember {find : Trace → Outcome × Trace} {states : Trace → List Trace} {start : Nat}
    (hlater : later <:+ parts)
    (hR : ∀ s s', R s s' → Step strict later url s s')
    (hnew : ∀ s s', s.solved[(later.length, start)]? = none → R s s' →
      s'.solved[(later.length, start)]? = none)
    (hfind : Finds strict parts url R find states (solve strict later start (url.drop start))) :
    Finds strict parts url (Step strict later url)
      (fun trace => trace.remember (later.length, start) find)
      (fun trace => trace.statesOfRemember (later.length, start) find states)
      (solve strict later start (url.drop start)) := by
  intro trace hs
  dsimp only
  cases hknown : trace.solved[(later.length, start)]? with
  | some outcome =>
      -- of one length there are only one last parts, so the entry is about these
      obtain ⟨other, hother, hlen, rfl⟩ := hs _ _ _ hknown
      obtain rfl : other = later := List.IsSuffix.eq_of_length (List.suffix_of_suffix_length_le
        hother hlater (Nat.le_of_eq hlen)) hlen
      rw [remember_known hknown, statesOfRemember_known hknown]
      exact ⟨rfl, .done trace⟩
  | none =>
      obtain ⟨hfirst, hpath⟩ := hfind (trace.enter (later.length, start)) hs
      have hlast : (find (trace.enter (later.length, start))).2.solved[(later.length, start)]?
          = none :=
        (hpath.preserves hnew (show (trace.enter _).solved[_]? = none from hknown)).2
      rw [statesOfRemember_new hknown, remember_new hknown, hfirst]
      exact ⟨rfl, .step (.enter trace _)
        ((hpath.mono hR).append (.single (.keep _ later start (List.suffix_refl later) hlast)))⟩

/-- Attempts with a memory come to what the attempts without one come to. -/
theorem finds_firstSuccess {α : Type} {attempt : α → Trace → Outcome × Trace}
    {states : α → Trace → List Trace} {plain : α → Outcome}
    (hR : ∀ s s', Sound strict parts url s → R s s' → Sound strict parts url s') (a : α)
    (others : List α) (h : ∀ b ∈ a :: others,
      Finds strict parts url R (attempt b) (states b) (plain b)) :
    Finds strict parts url R (firstSuccess attempt a others)
      (statesOfFirstSuccess attempt states a others) (Matching.firstSuccess plain a others) := by
  induction others generalizing a with
  | nil => exact h a List.mem_cons_self
  | cons b others ih =>
      intro trace hs
      obtain ⟨hfirst, hpath⟩ := h a List.mem_cons_self trace hs
      unfold firstSuccess statesOfFirstSuccess Matching.firstSuccess
      rw [← hfirst]
      cases hresult : attempt a trace with
      | mk outcome after =>
          rw [hresult] at hpath
          cases outcome with
          | ok bindings =>
              refine ⟨rfl, ?_⟩
              rw [List.append_nil]
              exact hpath
          | error e =>
              -- the next attempt begins with the memory that this one has left
              have hafter : Sound strict parts url after := (hpath.preserves hR hs).2
              obtain ⟨hrest, hpath'⟩ :=
                ih b (fun c hc => h c (List.mem_cons_of_mem a hc)) after hafter
              dsimp only
              rw [← hrest]
              cases hothers : firstSuccess attempt b others after with
              | mk outcome last =>
                  rw [hothers] at hpath'
                  cases outcome with
                  | ok bindings => exact ⟨rfl, hpath.append hpath'⟩
                  | error e' => exact ⟨rfl, hpath.append hpath'⟩

/-- One possible end comes to the same with a memory, if the parts after it do. -/
theorem finds_searchCut {p : Pattern} {start : Nat} {cut : Cut}
    (hcut : cut.rest = (url.drop start).drop cut.length)
    (h : ∀ i, Finds strict parts url (Step strict later url) (search strict later i (url.drop i))
      (states strict later i (url.drop i)) (solve strict later i (url.drop i))) :
    Finds strict parts url (Step strict later url)
      (searchCut strict p later start (url.drop start) cut)
      (statesOfCut strict p later start (url.drop start) (states strict later) cut)
      (solveCut strict p later start (url.drop start) cut) := by
  intro trace hs
  rw [List.drop_drop] at hcut
  unfold searchCut statesOfCut searchCut bindCut solveCut
  cases p.bind strict ((url.drop start).take cut.length) start with
  | error e => exact ⟨rfl, .single (.report trace _)⟩
  | ok bound =>
      obtain ⟨hfirst, hpath⟩ := h (start + cut.length) trace hs
      dsimp only
      rw [hcut, ← hfirst]
      cases hresult : search strict later (start + cut.length)
        (url.drop (start + cut.length)) trace with
      | mk outcome after =>
          rw [hresult] at hpath
          cases outcome with
          | ok bindings => exact ⟨rfl, hpath.append (.done after)⟩
          | error e => exact ⟨rfl, hpath.append (.single (.report after _))⟩

/-- **SIMULATION**: for the last parts of a template, from every sound memory, a search comes to
    the plain outcome, and its states are a path of steps. -/
theorem finds_search (hlater : later <:+ parts) (start : Nat) :
    Finds strict parts url (Step strict later url) (search strict later start (url.drop start))
      (states strict later start (url.drop start))
      (solve strict later start (url.drop start)) := by
  induction later generalizing start with
  | nil =>
      refine finds_remember (R := fun _ _ => False) hlater (fun _ _ h => h.elim)
        (fun _ _ _ h => h.elim) ?_
      exact fun trace _ => ⟨rfl, .done trace⟩
  | cons part later ih =>
      have htail : later <:+ parts := (List.suffix_cons part later).trans hlater
      have hR : ∀ s s', Step strict later url s s' → Step strict (part :: later) url s s' :=
        fun _ _ => Step.mono (List.suffix_cons part later)
      -- the keys below this one are about fewer parts
      have hnew : ∀ s s', s.solved[((part :: later).length, start)]? = none →
          Step strict later url s s' → s'.solved[((part :: later).length, start)]? = none :=
        fun _ _ h => Step.solved_eq_none (Nat.lt_succ_self later.length) h
      cases part with
      | literal text =>
          refine finds_remember hlater hR hnew fun trace hs => ?_
          rw [solve]
          cases hrest : text.isPrefixOf? (url.drop start) with
          | none => exact ⟨rfl, .done trace⟩
          | some rest =>
              have hurl : text ++ rest = url.drop start :=
                List.isPrefixOf?_eq_some_iff_append_eq.1 hrest
              obtain rfl : rest = url.drop (start + text.length) := by
                rw [← List.drop_drop, ← hurl, List.drop_left]
              exact ih htail (start + text.length) trace hs
      | pattern p =>
          refine finds_remember hlater hR hnew ?_
          rw [solve_pattern]
          refine finds_firstSuccess (fun s s' hs hstep => (hstep.mono htail).sound hs) _ _ ?_
          intro cut hcut
          exact finds_searchCut (Pattern.eq_of_mem_candidates hcut).2 (ih htail)

/-- An empty memory is sound. -/
theorem sound_empty : Sound strict parts url empty := by
  intro n start outcome h
  exact nomatch (Std.HashMap.getElem?_empty.symm.trans h)

end Trace

variable (strict : Bool) (parts : List Part) (url : Text)

/-- From an empty memory a search comes to the plain outcome. -/
theorem finds_from_empty :
    (search strict parts 0 url .empty).1 = solve strict parts 0 url ∧
    Trace.Path (Trace.Step strict parts url) .empty (states strict parts 0 url .empty)
      (search strict parts 0 url .empty).2 :=
  Trace.finds_search (List.suffix_refl parts) 0 .empty Trace.sound_empty

/-- A result, or the fault of a URL that does not fit. -/
def toResult : Outcome → Except Fault MatchResult
  | .ok bindings => .ok ⟨bindings⟩
  | .error e => .error (.mismatch e)

variable {parts}

/-- What a template gives for a URL is what plain search for its parts comes to. -/
theorem matchUrl_value {t : Template} (hparts : t.parts = .ok parts) :
    (t.matchUrl url).value = toResult (solve t.config.strictQuery parts 0 url) := by
  rw [Template.matchUrl, hparts, ← (finds_from_empty _ parts url).1]
  dsimp only
  cases (search t.config.strictQuery parts 0 url .empty).1 with
  | ok bindings => rfl
  | error e => rfl

/-- **TRANSPARENCY**: the memory does not show.  A template gives what plain search for its parts
    comes to, bindings and errors alike.  On the way from the empty memory to the last one, in
    every state, each entry is the plain outcome of the last so many parts at its position; and
    no entry is ever lost or changed, whatever is made of the bindings that were read from it. -/
theorem memory_transparent {t : Template} (hparts : t.parts = .ok parts) :
    let strict := t.config.strictQuery
    let passed := states strict parts 0 url .empty
    (t.matchUrl url).value = toResult (solve strict parts 0 url) ∧
    (search strict parts 0 url .empty).1 = solve strict parts 0 url ∧
    Trace.Path (Trace.Step strict parts url) .empty passed (search strict parts 0 url .empty).2 ∧
    (∀ trace ∈ passed, trace.Sound strict parts url) ∧
    (.empty :: passed).Pairwise Trace.Extends := by
  intro strict passed
  obtain ⟨hfirst, hpath⟩ := finds_from_empty strict parts url
  refine ⟨matchUrl_value url hparts, hfirst, hpath, ?_, ?_⟩
  · exact (hpath.preserves (fun _ _ hs hstep => hstep.sound hs) Trace.sound_empty).1
  · exact hpath.pairwise_extends fun _ _ => Trace.Step.extends_of_step

/-- The longest stretch of the path leaves nothing for the literal, so the search turns back. -/
theorem memory_transparent_edit :
    let path : List VarSpec := [⟨"path".toText, false, none⟩]
    let t : Template := .mk "\x7b/path\x7d/edit".toText
      [.expression ⟨.pathSegment, path⟩, .literal "/edit".toText] ⟨true, false⟩
    t.parts = .ok [.pattern (.items .slashes path), .literal "/edit".toText] ∧
    (t.matchUrl "/a/b/edit".toText).value
      = .ok ⟨[("path".toText, some (.ofTexts ["a".toText, "b".toText]))]⟩ :=
  ⟨rfl, (memory_transparent "/a/b/edit".toText rfl).1.trans rfl⟩

end UriTemplate.Matching
