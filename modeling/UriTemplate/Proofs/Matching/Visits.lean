import Mathlib
import UriTemplate.Proofs.Matching.Memory
import UriTemplate.Proofs.RoundTrip.Written

/-! # Visits — each part is matched once at each position

    With its memory a search takes up each pair of parts left and position once, and
    so turns down each stretch of the URL once for one expression:

    * `Trace.IsOrderly` is what every state of the memory has, and `Trace.Continues`
      what matching some of the parts may add to it; both are kept by each step
      (`enter`, `keep` and `report`);
    * `Trace.visits_search` — so they are kept by a whole search, whatever it comes
      to;
    * **`Template.matchUrl_visits`** — what this says of the records of a match, and how
      many there can be. -/

namespace UriTemplate

/-! ## Rejected stretches -/

/-- A stretch that was turned down: how many parts follow its expression, and from where to where
    it goes. -/
structure Rejection where
  later : Nat
  start : Nat
  stop : Nat
deriving DecidableEq

/-- The key under which the expression is remembered: the parts from it on, and the position. -/
def Rejection.key (r : Rejection) : Nat × Nat := (r.later + 1, r.start)

/-- The stretch that a record reports. -/
def Record.rejection? : Record → Option Rejection
  | .stretchRejected _ later start stretch _ => some ⟨later, start, start + stretch.length⟩
  | .compiled _ _ | .registered _ _ | .routeRejected _ _ _ => none

namespace Matching

/-- A record of a stretch of `url` that did not do for one of the patterns among `parts`. -/
def IsRejectionOf (parts : List Part) (url : Text) (record : Record) : Prop :=
  ∃ (p : Pattern) (later : List Part) (start length : Nat) (e : MatchError),
    .pattern p :: later <:+ parts ∧ start + length ≤ url.length ∧
      record = rejection p later start ((url.drop start).take length) e

variable {parts tail later : List Part} {url : Text}

theorem IsRejectionOf.mono (htail : tail <:+ parts) {record : Record}
    (h : IsRejectionOf tail url record) : IsRejectionOf parts url record := by
  obtain ⟨p, later, start, length, e, hlater, hlength, rfl⟩ := h
  exact ⟨p, later, start, length, e, hlater.trans htail, hlength, rfl⟩

/-- It stands in the URL, and fewer parts follow. -/
theorem IsRejectionOf.exists_rejection {record : Record} (h : IsRejectionOf parts url record) :
    ∃ r, record.rejection? = some r ∧ r.start ≤ r.stop ∧ r.stop ≤ url.length ∧
      ∃ p later, .pattern p :: later <:+ parts ∧ later.length = r.later := by
  obtain ⟨p, later, start, length, e, hlater, hlength, rfl⟩ := h
  refine ⟨_, rfl, Nat.le_add_right _ _, ?_, p, later, hlater, rfl⟩
  show start + ((url.drop start).take length).length ≤ url.length
  rw [List.length_take, List.length_drop]
  omega

namespace Trace

/-- The stretches that were turned down, the latest first. -/
def rejections (trace : Trace) : List Rejection := trace.reported.filterMap Record.rejection?

/-! ## Orderly traces -/

/-- Every key is taken up once, and of those with less than `n` parts left every one that was taken
    up is solved.  What was turned down belongs to a key that was taken up, and for one key the
    stretches get shorter. -/
structure IsOrderly (n : Nat) (trace : Trace) : Prop where
  nodup : trace.entered.Nodup
  solved : ∀ key ∈ trace.entered, key.1 < n → trace.solved[key]?.isSome
  entered : ∀ r ∈ trace.rejections, r.key ∈ trace.entered
  descending : trace.rejections.Pairwise fun r older => r.key = older.key → r.stop < older.stop

/-- What matching parts adds to a trace: keys with less than `n` parts left, and rejections. -/
structure Continues (n : Nat) (parts : List Part) (url : Text) (trace next : Trace) : Prop where
  solved : ∀ key : Nat × Nat, trace.solved[key]?.isSome → next.solved[key]?.isSome
  subset : trace.entered ⊆ next.entered
  entered : ∀ key ∈ next.entered, key ∈ trace.entered ∨ key.1 < n
  reported : ∀ record ∈ next.reported, record ∈ trace.reported ∨ IsRejectionOf parts url record

variable {n m start : Nat} {trace next last : Trace}

/-- What is kept stays. -/
theorem isSome_keep {key k : Nat × Nat} (outcome : Outcome) (h : trace.solved[key]?.isSome) :
    (trace.keep k outcome).solved[key]?.isSome := by
  rw [keep, Std.HashMap.getElem?_insert]
  split
  · rfl
  · exact h

/-- **TAKING UP**: a key that is not solved was not taken up. -/
theorem IsOrderly.enter (h : IsOrderly (n + 1) trace) (hnew : trace.solved[(n, start)]? = none) :
    IsOrderly n (trace.enter (n, start)) where
  nodup := by
    refine List.nodup_cons.2 ⟨fun hmem => ?_, h.nodup⟩
    have hsolved := h.solved _ hmem (Nat.lt_succ_self n)
    rw [hnew] at hsolved
    cases hsolved
  solved key hkey hlt := by
    rcases List.mem_cons.1 hkey with rfl | hkey
    · exact absurd hlt (Nat.lt_irrefl n)
    · exact h.solved key hkey (Nat.lt_succ_of_lt hlt)
  entered r hr := List.mem_cons_of_mem _ (h.entered r hr)
  descending := h.descending

/-- **KEEPING**: afterwards every key with `n` parts left that was taken up is solved. -/
theorem IsOrderly.keep (h : IsOrderly n trace) (outcome : Outcome)
    (hsolved : ∀ key ∈ trace.entered, key.1 = n →
      key = (n, start) ∨ trace.solved[key]?.isSome) :
    IsOrderly (n + 1) (trace.keep (n, start) outcome) where
  nodup := h.nodup
  solved key hkey hlt := by
    rcases Nat.lt_succ_iff_lt_or_eq.1 hlt with hlt | heq
    · exact isSome_keep outcome (h.solved key hkey hlt)
    · rcases hsolved key hkey heq with rfl | hsome
      · rw [Trace.keep, Std.HashMap.getElem?_insert_self]
        rfl
      · exact isSome_keep outcome hsome
  entered := h.entered
  descending := h.descending

/-- **REPORTING**: a stretch is turned down for a key that was taken up, and is shorter than those
    turned down for it before. -/
theorem IsOrderly.report (h : IsOrderly n trace) (p : Pattern) (stretch : Text) (e : MatchError)
    (hmem : (later.length + 1, start) ∈ trace.entered)
    (hshorter : ∀ r ∈ trace.rejections, r.key = (later.length + 1, start) →
      start + stretch.length < r.stop) :
    IsOrderly n (trace.report (rejection p later start stretch e)) where
  nodup := h.nodup
  solved := h.solved
  entered := List.forall_mem_cons.2 ⟨hmem, h.entered⟩
  descending := List.pairwise_cons.2
    ⟨fun r hr hkey => hshorter r hr hkey.symm, h.descending⟩

theorem isOrderly_empty (n : Nat) : IsOrderly n empty :=
  ⟨List.nodup_nil, fun _ h => (List.not_mem_nil h).elim, fun _ h => (List.not_mem_nil h).elim,
    List.Pairwise.nil⟩

namespace Continues

theorem refl (trace : Trace) : Continues n parts url trace trace :=
  ⟨fun _ h => h, fun _ h => h, fun _ h => Or.inl h, fun _ h => Or.inl h⟩

theorem trans (h : Continues n parts url trace next) (h' : Continues n parts url next last) :
    Continues n parts url trace last where
  solved key hkey := h'.solved key (h.solved key hkey)
  subset := fun _ hkey => h'.subset (h.subset hkey)
  entered key hkey := (h'.entered key hkey).elim (h.entered key) Or.inr
  reported record hrecord := (h'.reported record hrecord).elim (h.reported record) Or.inr

theorem mono (hn : n ≤ m) (htail : tail <:+ parts) (h : Continues n tail url trace next) :
    Continues m parts url trace next where
  solved := h.solved
  subset := h.subset
  entered key hkey := (h.entered key hkey).imp_right (Nat.lt_of_lt_of_le · hn)
  reported record hrecord := (h.reported record hrecord).imp_right (·.mono htail)

theorem enter (trace : Trace) {key : Nat × Nat} (hkey : key.1 < n) :
    Continues n parts url trace (trace.enter key) where
  solved _ h := h
  subset := List.subset_cons_self key trace.entered
  entered := List.forall_mem_cons.2 ⟨Or.inr hkey, fun _ h => Or.inl h⟩
  reported _ h := Or.inl h

theorem keep (trace : Trace) (key : Nat × Nat) (outcome : Outcome) :
    Continues n parts url trace (trace.keep key outcome) where
  solved _ h := isSome_keep outcome h
  subset := fun _ h => h
  entered _ h := Or.inl h
  reported _ h := Or.inl h

theorem report (trace : Trace) {record : Record} (h : IsRejectionOf parts url record) :
    Continues n parts url trace (trace.report record) where
  solved _ h := h
  subset := fun _ h => h
  entered _ h := Or.inl h
  reported := List.forall_mem_cons.2 ⟨Or.inr h, fun _ h => Or.inl h⟩

/-- What is turned down on the way is turned down before fewer parts. -/
theorem mem_rejections (h : Continues n parts url trace next) {r : Rejection}
    (hr : r ∈ next.rejections) : r ∈ trace.rejections ∨ r.later < parts.length := by
  obtain ⟨record, hrecord, hsome⟩ := List.mem_filterMap.1 hr
  rcases h.reported record hrecord with hold | hnew
  · exact Or.inl (List.mem_filterMap.2 ⟨record, hold, hsome⟩)
  · obtain ⟨r', hr', -, -, p, later, hlater, hlength⟩ := hnew.exists_rejection
    obtain rfl : r' = r := Option.some.inj (hr'.symm.trans hsome)
    have := hlater.length_le
    rw [List.length_cons] at this
    exact Or.inr (by omega)

end Continues

/-! ## Runs -/

/-- From an orderly trace `find` comes to an orderly one that continues it. -/
def Visits (n : Nat) (parts : List Part) (url : Text) (find : Trace → Outcome × Trace) : Prop :=
  ∀ trace, IsOrderly n trace →
    IsOrderly n (find trace).2 ∧ Continues n parts url trace (find trace).2

/-- Remembering: what was not solved is taken up, for the first time, and solved. -/
theorem visits_remember {find : Trace → Outcome × Trace}
    (h : ∀ trace, IsOrderly n trace → (n, start) ∈ trace.entered →
      (∀ r ∈ trace.rejections, r.key ≠ (n, start)) →
      IsOrderly n (find trace).2 ∧ Continues n parts url trace (find trace).2) :
    Visits (n + 1) parts url fun trace => trace.remember (n, start) find := by
  intro trace horderly
  dsimp only
  cases hknown : trace.solved[(n, start)]? with
  | some outcome =>
      rw [remember_known hknown]
      exact ⟨horderly, .refl trace⟩
  | none =>
      rw [remember_new hknown]
      have hentered := horderly.enter hknown
      have hnew : (n, start) ∉ trace.entered := (List.nodup_cons.1 hentered.nodup).1
      obtain ⟨hfound, hcontinues⟩ := h (trace.enter (n, start)) hentered List.mem_cons_self
        fun r hr hkey => hnew (hkey ▸ horderly.entered r hr)
      -- of the keys with as many parts left only this one was taken up since, as a search goes on
      -- to fewer parts; the others were solved before
      refine ⟨hfound.keep _ fun key hkey hn => ?_, ?_⟩
      · rcases hcontinues.entered key hkey with hmem | hlt
        · rcases List.mem_cons.1 hmem with heq | hold
          · exact Or.inl heq
          · refine Or.inr (hcontinues.solved key ?_)
            exact horderly.solved key hold (by omega)
        · omega
      · exact ((Continues.enter trace (Nat.lt_succ_self n)).trans
          (hcontinues.mono (Nat.le_succ n) (List.suffix_refl parts))).trans (.keep _ _ _)

/-- One end: what is turned down on the way stands before fewer parts, and then the stretch itself
    may be. -/
theorem visits_searchCut {strict : Bool} {p : Pattern} {cut : Cut}
    (hpart : .pattern p :: later <:+ parts) (hlength : start + cut.length ≤ url.length)
    (hcut : cut.rest = (url.drop start).drop cut.length)
    (h : ∀ i ≤ url.length,
      Visits (later.length + 1) later url (search strict later i (url.drop i)))
    (horderly : IsOrderly (later.length + 1) trace)
    (hmem : (later.length + 1, start) ∈ trace.entered)
    (hshorter : ∀ r ∈ trace.rejections, r.key = (later.length + 1, start) →
      start + cut.length < r.stop) :
    let next := (searchCut strict p later start (url.drop start) cut trace).2
    IsOrderly (later.length + 1) next ∧ Continues (later.length + 1) parts url trace next ∧
      ∀ r ∈ next.rejections, r.key = (later.length + 1, start) → start + cut.length ≤ r.stop := by
  intro next
  have hstretch : ((url.drop start).take cut.length).length = cut.length := by
    rw [List.length_take, List.length_drop]
    omega
  obtain ⟨hbound, hcontinues⟩ :
      IsOrderly (later.length + 1) (bindCut strict p later start (url.drop start) cut trace).2 ∧
      Continues (later.length + 1) later url trace
        (bindCut strict p later start (url.drop start) cut trace).2 := by
    unfold bindCut
    split
    · exact ⟨horderly, .refl trace⟩
    · rw [hcut, List.drop_drop]
      exact h _ hlength trace horderly
  -- so far nothing more was turned down for this key
  have hlast : ∀ r ∈ (bindCut strict p later start (url.drop start) cut trace).2.rejections,
      r.key = (later.length + 1, start) → start + cut.length < r.stop := by
    intro r hr hkey
    rcases hcontinues.mem_rejections hr with hold | hlt
    · exact hshorter r hold hkey
    · have hlater : r.later + 1 = later.length + 1 := congrArg Prod.fst hkey
      omega
  have hparts := hcontinues.mono (Nat.le_refl _) ((List.suffix_cons _ later).trans hpart)
  simp only [next, searchCut]
  split
  · exact ⟨hbound, hparts, fun r hr hkey => (hlast r hr hkey).le⟩
  · next e _ =>
      refine ⟨hbound.report p _ e (hcontinues.subset hmem) ?_,
        hparts.trans (.report _ ⟨p, later, start, cut.length, e, hpart, hlength, rfl⟩),
        List.forall_mem_cons.2 ⟨fun _ => ?_, fun r hr hkey => (hlast r hr hkey).le⟩⟩
      · rw [hstretch]
        exact hlast
      · exact Nat.add_le_add_left hstretch.ge start

/-- All ends: each one is before those that were turned down. -/
theorem visits_firstSuccess (start : Nat) {key : Nat × Nat}
    {attempt : Cut → Trace → Outcome × Trace} {a : Cut} {others : List Cut}
    (h : ∀ cut ∈ a :: others, ∀ trace, IsOrderly n trace → key ∈ trace.entered →
      (∀ r ∈ trace.rejections, r.key = key → start + cut.length < r.stop) →
      IsOrderly n (attempt cut trace).2 ∧ Continues n parts url trace (attempt cut trace).2 ∧
        ∀ r ∈ (attempt cut trace).2.rejections, r.key = key → start + cut.length ≤ r.stop)
    (hends : (a :: others).Pairwise fun cut other => other.length < cut.length)
    (horderly : IsOrderly n trace) (hmem : key ∈ trace.entered)
    (hshorter : ∀ r ∈ trace.rejections, r.key = key → start + a.length < r.stop) :
    IsOrderly n (firstSuccess attempt a others trace).2 ∧
      Continues n parts url trace (firstSuccess attempt a others trace).2 := by
  induction others generalizing a trace with
  | nil =>
      obtain ⟨hfound, hcontinues, -⟩ := h a List.mem_cons_self trace horderly hmem hshorter
      exact ⟨hfound, hcontinues⟩
  | cons b others ih =>
      obtain ⟨hfound, hcontinues, hlast⟩ := h a List.mem_cons_self trace horderly hmem hshorter
      obtain ⟨hlt, hothers⟩ := List.pairwise_cons.1 hends
      -- what was turned down so far goes as far as `a` at least, and `b` is shorter
      have hb : b.length < a.length := hlt b List.mem_cons_self
      obtain ⟨hrest, hcontinues'⟩ := ih (fun cut hcut => h cut (List.mem_cons_of_mem a hcut))
        hothers hfound (hcontinues.subset hmem) fun r hr hkey =>
          Nat.lt_of_lt_of_le (Nat.add_lt_add_left hb start) (hlast r hr hkey)
      unfold firstSuccess
      cases hresult : attempt a trace with
      | mk outcome after =>
          rw [hresult] at hfound hcontinues hrest hcontinues'
          cases outcome with
          | ok bindings => exact ⟨hfound, hcontinues⟩
          | error e =>
              dsimp only
              cases hother : firstSuccess attempt b others after with
              | mk outcome last =>
                  rw [hother] at hrest hcontinues'
                  cases outcome with
                  | ok bindings => exact ⟨hrest, hcontinues.trans hcontinues'⟩
                  | error e' => exact ⟨hrest, hcontinues.trans hcontinues'⟩

/-- **RUN**: a search takes up nothing twice, and turns nothing down twice. -/
theorem visits_search (strict : Bool) (parts : List Part) {start : Nat}
    (hstart : start ≤ url.length) :
    Visits (parts.length + 1) parts url (search strict parts start (url.drop start)) := by
  induction parts generalizing start with
  | nil => exact visits_remember fun trace horderly _ _ => ⟨horderly, .refl trace⟩
  | cons part later ih =>
      cases part with
      | literal text =>
          refine visits_remember fun trace horderly _ _ => ?_
          cases hrest : text.isPrefixOf? (url.drop start) with
          | none => exact ⟨horderly, .refl trace⟩
          | some rest =>
              have hurl : text ++ rest = url.drop start :=
                List.isPrefixOf?_eq_some_iff_append_eq.1 hrest
              obtain rfl : rest = url.drop (start + text.length) := by
                rw [← List.drop_drop, ← hurl, List.drop_left]
              have hlength : start + text.length ≤ url.length := by
                have := congrArg List.length hurl
                rw [List.length_append, List.length_drop, List.length_drop] at this
                omega
              -- a literal is turned down without a record, so only later parts add to the trace
              obtain ⟨hfound, hcontinues⟩ := ih hlength trace horderly
              exact ⟨hfound, hcontinues.mono (Nat.le_refl _) (List.suffix_cons _ later)⟩
      | pattern p =>
          refine visits_remember fun trace horderly hmem hnone => ?_
          refine visits_firstSuccess start ?_ (p.pairwise_candidates later _) horderly
            hmem fun r hr hkey => absurd hkey (hnone r hr)
          intro cut hcut trace horderly hmem hshorter
          obtain ⟨hreach, hrest⟩ := Pattern.eq_of_mem_candidates hcut
          have hlength : start + cut.length ≤ url.length := by
            have := p.reach_le_length (url.drop start)
            rw [List.length_drop] at this
            omega
          exact visits_searchCut (List.suffix_refl _) hlength hrest (fun i hi => ih hi) horderly
            hmem hshorter

end Trace

/-! ## How many stretches there are -/

/-- How many parts follow each pattern. -/
def followers : List Part → List Nat
  | [] => []
  | .literal _ :: later => followers later
  | .pattern _ :: later => later.length :: followers later

theorem mem_followers {p : Pattern} (h : .pattern p :: later <:+ parts) :
    later.length ∈ followers parts := by
  induction parts with
  | nil => exact absurd (List.suffix_nil.1 h) (List.cons_ne_nil _ _)
  | cons part parts ih =>
      rcases List.suffix_cons_iff.1 h with heq | htail
      · obtain ⟨rfl, rfl⟩ := List.cons.inj heq
        exact List.mem_cons_self
      · cases part with
        | literal text => exact ih htail
        | pattern q => exact List.mem_cons_of_mem _ (ih htail)

/-- Each pattern is made of one expression at least. -/
theorem length_followers_le (h : ∀ part ∈ parts, part.HasGroups) :
    (followers parts).length
      ≤ ((parts.flatMap Part.segments).filterMap Segment.expression?).length := by
  induction parts with
  | nil => exact Nat.le_refl 0
  | cons part parts ih =>
      obtain ⟨hpart, hparts⟩ := List.forall_mem_cons.1 h
      rw [List.flatMap_cons, List.filterMap_append, List.length_append]
      have hrest := ih hparts
      cases part with
      | literal text => exact hrest.trans (Nat.le_add_left _ _)
      | pattern p =>
          have hself : 1 ≤ ((Part.pattern p).segments.filterMap Segment.expression?).length := by
            match p, hpart with
            | .items _ specs, _ => exact Nat.le_refl 1
            | .query _ (specs :: groups), _ => exact Nat.le_add_left 1 _
          rw [followers, List.length_cons]
          omega

/-- All stretches of a text of `n` code points before so many parts. -/
def stretches (followers : List Nat) (n : Nat) : List Rejection :=
  followers.flatMap fun later => (List.range (n + 1)).flatMap fun stop =>
    (List.range (stop + 1)).map fun start => ⟨later, start, stop⟩

theorem mem_stretches {followers : List Nat} {n : Nat} {r : Rejection} :
    r ∈ stretches followers n ↔ r.later ∈ followers ∧ r.start ≤ r.stop ∧ r.stop ≤ n := by
  obtain ⟨later, start, stop⟩ := r
  simp only [stretches, List.mem_flatMap, List.mem_map, List.mem_range, Rejection.mk.injEq]
  constructor
  · rintro ⟨_, hlater, _, hstop, _, hstart, rfl, rfl, rfl⟩
    exact ⟨hlater, Nat.le_of_lt_succ hstart, Nat.le_of_lt_succ hstop⟩
  · rintro ⟨hlater, hstart, hstop⟩
    exact ⟨later, hlater, stop, Nat.lt_succ_of_le hstop, start, Nat.lt_succ_of_le hstart,
      rfl, rfl, rfl⟩

theorem two_mul_sum_range (n : Nat) :
    2 * ((List.range (n + 1)).map (· + 1)).sum = (n + 1) * (n + 2) := by
  induction n with
  | zero => rfl
  | succ n ih =>
      rw [List.range_succ, List.map_append, List.sum_append, Nat.mul_add, ih]
      simp only [List.map_cons, List.map_nil, List.sum_cons, List.sum_nil]
      ring

theorem two_mul_length_stretches (followers : List Nat) (n : Nat) :
    2 * (stretches followers n).length = followers.length * ((n + 1) * (n + 2)) := by
  simp only [stretches, List.length_flatMap, List.length_map, List.length_range]
  rw [List.map_const', List.sum_replicate_nat, Nat.mul_left_comm, two_mul_sum_range]

/-- Records of different stretches are not more than there are stretches. -/
theorem length_le_of_isRejectionOf {records : List Record}
    (h : ∀ record ∈ records, IsRejectionOf parts url record)
    (hnodup : (records.filterMap Record.rejection?).Nodup) :
    2 * records.length ≤ (followers parts).length * ((url.length + 1) * (url.length + 2)) := by
  have hlength : (records.filterMap Record.rejection?).length = records.length := by
    rw [List.length_filterMap_eq_countP, List.countP_eq_length]
    intro record hrecord
    obtain ⟨r, hr, -⟩ := (h record hrecord).exists_rejection
    rw [hr]
    rfl
  have hsubset : records.filterMap Record.rejection?
      ⊆ stretches (followers parts) url.length := by
    intro r hr
    obtain ⟨record, hrecord, hsome⟩ := List.mem_filterMap.1 hr
    obtain ⟨r', hr', hstart, hstop, p, later, hlater, hlength⟩ :=
      (h record hrecord).exists_rejection
    obtain rfl : r' = r := Option.some.inj (hr'.symm.trans hsome)
    exact mem_stretches.2 ⟨hlength ▸ mem_followers hlater, hstart, hstop⟩
  rw [← two_mul_length_stretches, ← hlength]
  exact Nat.mul_le_mul_left 2 (List.subperm_of_subset hnodup hsubset).length_le

end Matching

namespace Template

open Matching

/-- A template has an expression for each pattern. -/
theorem length_followers_of_parts {t : Template} {parts : List Part} (h : t.parts = .ok parts) :
    (followers parts).length ≤ t.expressions.length := by
  rw [expressions, ← segments_of_parts h]
  exact length_followers_le (hasGroups_of_parts h)

/-- The records of matching are those of the search, in order. -/
theorem matchUrl_records {t : Template} {parts : List Part} (h : t.parts = .ok parts)
    (url : Text) : (t.matchUrl url).records
      = (search t.config.strictQuery parts 0 url .empty).2.reported.reverse := by
  rw [matchUrl, h]
  dsimp only
  split <;> rfl

/-- **VISITS**: matching takes up each pair of parts left and position once.  So it reports each
    stretch of the URL once at most for one expression, for one start from the longest to the
    shortest, and not more records than there are stretches: of a URL of `n` code points
    `(n + 1) * (n + 2) / 2` for each expression. -/
theorem matchUrl_visits {t : Template} {parts : List Part} (hparts : t.parts = .ok parts)
    (url : Text) :
    let trace := (search t.config.strictQuery parts 0 url .empty).2
    let records := (t.matchUrl url).records
    let rejections := records.filterMap Record.rejection?
    trace.entered.Nodup ∧
    records = trace.reported.reverse ∧
    (∀ record ∈ records, IsRejectionOf parts url record) ∧
    rejections.Nodup ∧
    (rejections.Pairwise fun r next => r.key = next.key → next.stop < r.stop) ∧
    records.length ≤ t.expressions.length * (url.length + 1) * (url.length + 2) / 2 := by
  intro trace records rejections
  obtain ⟨horderly, hcontinues⟩ := Trace.visits_search t.config.strictQuery parts
    (Nat.zero_le url.length) .empty (Trace.isOrderly_empty _)
  have hrecords : records = trace.reported.reverse := matchUrl_records hparts url
  have hall : ∀ record ∈ records, IsRejectionOf parts url record := by
    intro record hrecord
    rw [hrecords, List.mem_reverse] at hrecord
    exact (hcontinues.reported record hrecord).resolve_left List.not_mem_nil
  have hdescending : rejections.Pairwise fun r next => r.key = next.key → next.stop < r.stop := by
    rw [show rejections = trace.rejections.reverse by
      simp only [rejections, hrecords, List.filterMap_reverse, Trace.rejections]]
    rw [List.pairwise_reverse]
    exact horderly.descending.imp fun h hkey => h hkey.symm
  have hnodup : rejections.Nodup :=
    hdescending.imp fun h heq => absurd (h (congrArg _ heq)) (heq ▸ Nat.lt_irrefl _)
  refine ⟨horderly.nodup, hrecords, hall, hnodup, hdescending, ?_⟩
  have hcount := length_le_of_isRejectionOf hall hnodup
  rw [Nat.le_div_iff_mul_le Nat.zero_lt_two, Nat.mul_assoc]
  calc records.length * 2
      ≤ (followers parts).length * ((url.length + 1) * (url.length + 2)) := by omega
    _ ≤ t.expressions.length * ((url.length + 1) * (url.length + 2)) :=
        Nat.mul_le_mul_right _ (length_followers_of_parts hparts)

/-- Two splits of the first hyphens lead to the last expression before the end of the URL, where
    it is turned down once. -/
theorem matchUrl_visits_hyphens :
    let a : List VarSpec := [⟨"a".toText, false, none⟩]
    let b : List VarSpec := [⟨"b".toText, false, none⟩]
    let c : List VarSpec := [⟨"c".toText, false, none⟩]
    let t : Template := .mk "\x7ba\x7d-\x7bb\x7d-\x7bc\x7d!".toText
      [.expression ⟨.simple, a⟩, .literal ['-'], .expression ⟨.simple, b⟩, .literal ['-'],
        .expression ⟨.simple, c⟩, .literal ['!']] ⟨true, false⟩
    let records := (t.matchUrl "---".toText).records
    t.parts = .ok [.pattern (.items .commas a), .literal ['-'], .pattern (.items .commas b),
      .literal ['-'], .pattern (.items .commas c), .literal ['!']] ∧
    records.length ≤ 3 * 4 * 5 / 2 ∧
    records.filterMap Record.rejection?
      = [⟨3, 3, 3⟩, ⟨5, 0, 2⟩, ⟨1, 3, 3⟩, ⟨3, 2, 2⟩, ⟨5, 0, 1⟩, ⟨3, 1, 2⟩, ⟨1, 2, 3⟩, ⟨3, 1, 1⟩,
          ⟨5, 0, 0⟩] :=
  ⟨rfl, (matchUrl_visits rfl _).2.2.2.2.2, by cbv⟩

end Template

end UriTemplate
