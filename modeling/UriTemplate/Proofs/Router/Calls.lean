import UriTemplate.Proofs.Matching.Errors
import UriTemplate.Router

/-! # Calls — a router from its first call to its last

    A router is used by calls, in any order (`Call`, `Router.reply`).  An addition is
    done statement by statement: three checks that may stop it, then an entry in the
    table of names, then the route itself (`Statement`, `adding`).  Since all checks
    come before all writing, an addition that stops has changed nothing, and it is
    what `Router.add` says (`adding_eq`).

    What holds between calls is `Router.IsConsistent`: the table of names lists the
    named routes, no name twice, and every route can be matched.  It holds of an empty
    router, every call keeps it (`IsConsistent.reply`), and so it holds after any calls
    (`IsConsistent.after`).

    * **`Router.calls_contract`** — what this says of a router after any calls, and of
      every call that can follow. -/

namespace UriTemplate

variable {τ : Type}

/-! ## Statements -/

/-- What a statement does to a router: how it leaves it, and the fault if it stops. -/
abbrev Statement (τ : Type) := Router τ → Router τ × Option Fault

namespace Statement

/-- Look at the router, and perhaps stop. -/
def check (refuse : Router τ → Option Fault) : Statement τ := fun r => (r, refuse r)

/-- Write to the router and go on. -/
def write (update : Router τ → Router τ) : Statement τ := fun r => (update r, none)

/-- One statement after the other until one stops.  What has been written by then stays. -/
def runAll : List (Statement τ) → Statement τ
  | [], r => (r, none)
  | s :: later, r =>
      match s r with
      | (left, some fault) => (left, some fault)
      | (left, none) => runAll later left

theorem runAll_writes (updates : List (Router τ → Router τ)) (r : Router τ) :
    runAll (updates.map write) r = (updates.foldl (fun left update => update left) r, none) := by
  induction updates generalizing r with
  | nil => rfl
  | cons update updates ih => exact ih (update r)

/-- **ALL OR NOTHING**: with all checks before all writing, whatever stops has written nothing. -/
theorem runAll_checks_writes (refusals : List (Router τ → Option Fault))
    (updates : List (Router τ → Router τ)) (r : Router τ) :
    runAll (refusals.map check ++ updates.map write) r =
      match refusals.findSome? (· r) with
      | some fault => (r, some fault)
      | none => (updates.foldl (fun left update => update left) r, none) := by
  induction refusals with
  | nil => exact runAll_writes updates r
  | cons refuse refusals ih =>
      rw [List.map_cons, List.cons_append, runAll, check, List.findSome?_cons]
      cases refuse r with
      | some fault => rfl
      | none => exact ih

end Statement

namespace Router

/-! ## Additions -/

/-- The checks of an addition, in order. -/
def refusals (route : Route τ) : List (Router τ → Option Fault) :=
  [fun r => if r.isComplete then some .frozen else none,
   fun _ => match route.template.requireMatchable with
    | .error fault => some fault
    | .ok () => none,
   fun r => route.name.bind fun name =>
    (OrderedMap.get? r.named name).map fun existing =>
      .nameTaken name existing.template.source route.template.source]

/-- What an addition then writes, in order. -/
def updates (route : Route τ) : List (Router τ → Router τ) :=
  [fun r => match route.name with
    | some name => ⟨r.config, r.routes, OrderedMap.insert r.named name route, r.isComplete⟩
    | none => r,
   fun r => ⟨r.config, r.routes ++ [route], r.named, r.isComplete⟩]

/-- An addition, statement by statement. -/
def adding (route : Route τ) : Statement τ :=
  Statement.runAll ((refusals route).map .check ++ (updates route).map .write)

/-- An addition leaves what `add` gives, or the router as it was. -/
theorem adding_eq (r : Router τ) (route : Route τ) :
    adding route r = match (r.add route).value with
      | .ok next => (next, none)
      | .error fault => (r, some fault) := by
  rw [adding, Statement.runAll_checks_writes, add]
  obtain ⟨config, routes, named, isComplete⟩ := r
  cases isComplete with
  | true => rfl
  | false =>
      rw [refusals, updates, takeName]
      cases hmatchable : route.template.requireMatchable with
      | error fault => rfl
      | ok _ =>
          cases hname : route.name with
          | none => rfl
          | some name =>
              cases hget : OrderedMap.get? named name with
              | some existing => simp [hget]
              | none => simp [hget]

end Router

/-! ## Calls -/

/-- What can be asked of a router. -/
inductive Call (τ : Type) where
  | add (route : Route τ)
  | addTemplate (source : Text) (target : τ) (name : Option Text)
  | complete
  | matchUrl (url : Text)
  | urlFor (name : Text) (env : Environment)
  | routes

/-- What a router answers. -/
inductive Answer (τ : Type) where
  | added (route : Route τ)
  | completed
  | found (m : RouteMatch τ)
  | expanded (s : Text)
  | listed (routes : List (Route τ))

/-- Does the call ask for a new route? -/
def Call.IsAddition : Call τ → Prop
  | add _ | addTemplate _ _ _ => True
  | complete | matchUrl _ | urlFor _ _ | routes => False

/-- The route that was added, if one was. -/
def Answer.added? : Except Fault (Answer τ) → Option (Route τ)
  | .ok (added route) => some route
  | _ => none

/-- The entry of a route in a table of names. -/
def Route.entry? (route : Route τ) : Option (Text × Route τ) := route.name.map (·, route)

namespace Router

/-- How an addition leaves the router, and what it answers. -/
def replyAdding (r : Router τ) (route : Route τ) : Router τ × Except Fault (Answer τ) :=
  match adding route r with
  | (left, some fault) => (left, .error fault)
  | (left, none) => (left, .ok (.added route))

/-- How a call leaves the router, and what it answers. -/
def reply (r : Router τ) : Call τ → Router τ × Except Fault (Answer τ)
  | .add route => r.replyAdding route
  | .addTemplate source target name =>
      match Template.parse r.config source with
      | .error e => (r, .error (.parse e))
      | .ok template => r.replyAdding ⟨template, target, name⟩
  | .complete => (r.complete, .ok .completed)
  | .matchUrl url => (r, (r.matchUrl url).value.map .found)
  | .urlFor name env => (r, (r.urlFor name env).map .expanded)
  | .routes => (r, .ok (.listed r.routes))

/-- The router after some calls, whatever they were answered. -/
def after (r : Router τ) (calls : List (Call τ)) : Router τ :=
  calls.foldl (fun left call => (left.reply call).1) r

/-- The answers to some calls. -/
def answers (r : Router τ) : List (Call τ) → List (Except Fault (Answer τ))
  | [] => []
  | call :: calls => (r.reply call).2 :: answers (r.reply call).1 calls

/-- The router with one more route. -/
def withRoute (r : Router τ) (route : Route τ) : Router τ :=
  ⟨r.config, r.routes ++ [route], r.named ++ route.entry?.toList, r.isComplete⟩

/-- Can the route be added? -/
structure Admits (r : Router τ) (route : Route τ) : Prop where
  isOpen : r.isComplete = false
  matchable : route.template.isMatchable = true
  isFree : ∀ name ∈ route.name, OrderedMap.get? r.named name = none

end Router

theorem Template.requireMatchable_eq {t : Template} :
    t.requireMatchable = .ok () ∧ t.isMatchable = true ∨
      ∃ operator, t.requireMatchable = .error (.unsupported operator t.source) ∧
        t.isMatchable = false := by
  rw [requireMatchable]
  cases hparts : t.parts with
  | ok found => exact Or.inl ⟨rfl, isMatchable_iff_exists_parts.2 ⟨found, hparts⟩⟩
  | error fault =>
      have hno : t.isMatchable = false := by
        rw [Bool.eq_false_iff]
        intro hmatchable
        obtain ⟨found, hfound⟩ := isMatchable_iff_exists_parts.1 hmatchable
        cases hparts.symm.trans hfound
      rw [parts] at hparts
      split at hparts
      · cases hparts
      · cases hparts
        exact Or.inr ⟨_, rfl, hno⟩

/-- A text that is no template is told so as an invalid one. -/
theorem Template.kind_of_parse {config : Config} {source : Text} {e : ParseError}
    (h : parse config source = .error e) : e.kind = .invalidTemplate := by
  have hnodes : ∀ {nodes : List Node}, Segment.ofNodes source nodes = .error e →
      e.kind = .invalidTemplate := by
    intro nodes hsegments
    induction nodes with
    | nil => cases hsegments
    | cons n nodes ih =>
        cases n with
        | literal kind text => exact ih (Except.map_eq_error_iff.1 hsegments)
        | expression sigil specs offset =>
            rw [Segment.ofNodes] at hsegments
            split at hsegments
            · cases hsegments
              rfl
            · exact ih (Except.map_eq_error_iff.1 hsegments)
  rw [parse_eq_error_iff_read, Segment.read] at h
  split at h
  · exact hnodes h
  · cases h
    rfl

namespace Router

/-! ## What a call can do -/

/-- **ADDITIONS**: a route that is admitted is put at the end.  Any other is refused, because the
    router is complete, an operator cannot be matched, or the name is taken. -/
theorem add_cases (r : Router τ) (route : Route τ) :
    (r.Admits route ∧ (r.add route).value = .ok (r.withRoute route)) ∨
    (¬ r.Admits route ∧ ∃ fault, (r.add route).value = .error fault ∧
      fault.kind ∈ [FaultKind.state, .unsupportedOperator, .configuration] ∧
      (r.isComplete = true → fault = .frozen)) := by
  rw [add]
  cases hcomplete : r.isComplete with
  | true =>
      refine Or.inr ⟨fun hadmits => ?_, .frozen, rfl, List.mem_cons_self, fun _ => rfl⟩
      exact Bool.false_ne_true (hadmits.isOpen.symm.trans hcomplete)
  | false =>
      rw [if_neg Bool.false_ne_true]
      rcases route.template.requireMatchable_eq with ⟨hok, hmatchable⟩ | ⟨operator, herror, hno⟩
      · rw [hok, takeName]
        cases hname : route.name with
        | none =>
            have hfree : ∀ name ∈ route.name, OrderedMap.get? r.named name = none := by
              rw [hname]
              nofun
            refine Or.inl ⟨⟨hcomplete, hmatchable, hfree⟩, ?_⟩
            simp [withRoute, Route.entry?, hname, hcomplete]
        | some name =>
            cases hget : OrderedMap.get? r.named name with
            | some existing =>
                have hnot : ¬ r.Admits route := by
                  intro hadmits
                  cases hget.symm.trans (hadmits.isFree name hname)
                refine Or.inr ⟨hnot, .nameTaken name existing.template.source
                  route.template.source, ?_, by simp [Fault.kind], nofun⟩
                simp only [hget]
            | none =>
                have hfree : ∀ other ∈ route.name, OrderedMap.get? r.named other = none := by
                  rw [hname]
                  rintro _ ⟨⟩
                  exact hget
                refine Or.inl ⟨⟨hcomplete, hmatchable, hfree⟩, ?_⟩
                simp [withRoute, Route.entry?, hname, hget, hcomplete,
                  OrderedMap.insert_of_get?_eq_none hget]
      · rw [herror]
        refine Or.inr ⟨fun hadmits => ?_, _, rfl, by simp [Fault.kind], nofun⟩
        exact Bool.false_ne_true (hno.symm.trans hadmits.matchable)

/-- Statement by statement, too, a refused route leaves everything as it was. -/
theorem replyAdding_eq (r : Router τ) (route : Route τ) :
    r.replyAdding route = match (r.add route).value with
      | .ok next => (next, .ok (.added route))
      | .error fault => (r, .error fault) := by
  rw [replyAdding, adding_eq]
  cases (r.add route).value with
  | ok next => rfl
  | error fault => rfl

/-- A text that is a template is added as one. -/
theorem reply_addTemplate {r : Router τ} {source : Text} {t : Template} {target : τ}
    {name : Option Text} (h : Template.parse r.config source = .ok t) :
    r.reply (.addTemplate source target name) = r.replyAdding ⟨t, target, name⟩ := by
  rw [reply, h]

/-- **CALLS**: an addition adds its route or changes nothing, and of the others only one does
    anything, which is to complete the router. -/
theorem reply_cases (r : Router τ) (call : Call τ) :
    (call.IsAddition ∧ ∃ route, r.Admits route ∧
      r.reply call = (r.withRoute route, .ok (.added route))) ∨
    (call.IsAddition ∧ ∃ fault, r.reply call = (r, .error fault) ∧ fault.kind ∈
      [FaultKind.state, .unsupportedOperator, .configuration, .invalidTemplate]) ∨
    (call = .complete ∧ r.reply call = (r.complete, .ok .completed)) ∨
    (¬ call.IsAddition ∧ ∃ answer, r.reply call = (r, answer) ∧ Answer.added? answer = none) := by
  have hadding : ∀ route,
      (∃ route', r.Admits route' ∧
        r.replyAdding route = (r.withRoute route', .ok (.added route'))) ∨
      ∃ fault, r.replyAdding route = (r, .error fault) ∧ fault.kind ∈
        [FaultKind.state, .unsupportedOperator, .configuration, .invalidTemplate] := by
    intro route
    rw [replyAdding_eq]
    rcases r.add_cases route with ⟨hadmits, hvalue⟩ | ⟨-, fault, hvalue, hkind, -⟩
    · exact Or.inl ⟨route, hadmits, by rw [hvalue]⟩
    · refine Or.inr ⟨fault, by rw [hvalue], ?_⟩
      exact List.mem_append_left [FaultKind.invalidTemplate] hkind
  cases call with
  | add route =>
      rcases hadding route with h | h
      · exact Or.inl ⟨trivial, h⟩
      · exact Or.inr (Or.inl ⟨trivial, h⟩)
  | addTemplate source target name =>
      rw [reply]
      cases hparse : Template.parse r.config source with
      | error e =>
          refine Or.inr (Or.inl ⟨trivial, .parse e, rfl, ?_⟩)
          rw [Fault.kind, Template.kind_of_parse hparse]
          decide
      | ok template =>
          rcases hadding ⟨template, target, name⟩ with h | h
          · exact Or.inl ⟨trivial, h⟩
          · exact Or.inr (Or.inl ⟨trivial, h⟩)
  | complete => exact Or.inr (Or.inr (Or.inl ⟨rfl, rfl⟩))
  | matchUrl url =>
      refine Or.inr (Or.inr (Or.inr ⟨id, _, rfl, ?_⟩))
      cases (r.matchUrl url).value <;> rfl
  | urlFor name env =>
      refine Or.inr (Or.inr (Or.inr ⟨id, _, rfl, ?_⟩))
      cases r.urlFor name env <;> rfl
  | routes => exact Or.inr (Or.inr (Or.inr ⟨id, _, rfl, rfl⟩))

/-! ## Between calls -/

/-- The table of names lists the routes that have one, no name twice; and every route can be
    matched. -/
structure IsConsistent (r : Router τ) : Prop where
  named : r.named = r.routes.filterMap Route.entry?
  distinct : (r.routes.filterMap Route.name).Nodup
  matchable : ∀ route ∈ r.routes, route.template.isMatchable = true

theorem keys_filterMap_entry? (routes : List (Route τ)) :
    OrderedMap.keys (routes.filterMap Route.entry?) = routes.filterMap Route.name := by
  rw [OrderedMap.keys, List.map_filterMap]
  congr 1
  funext route
  rw [Route.entry?, Option.map_map]
  exact Option.map_id'

/-- What is listed under a name is the first route that has it. -/
theorem get?_filterMap_entry? (routes : List (Route τ)) (name : Text) :
    OrderedMap.get? (routes.filterMap Route.entry?) name
      = routes.find? fun route => route.name = some name := by
  induction routes with
  | nil => rfl
  | cons route routes ih =>
      rw [List.find?_cons, List.filterMap_cons, Route.entry?]
      cases hname : route.name with
      | none => exact ih
      | some other =>
          simp only [Option.map_some, OrderedMap.get?, Option.some.injEq]
          by_cases heq : other = name
          · rw [if_pos heq, decide_eq_true heq]
          · rw [if_neg heq, decide_eq_false heq, ih]

theorem isConsistent_empty (config : Config) : (empty config : Router τ).IsConsistent :=
  ⟨rfl, List.nodup_nil, nofun⟩

/-- A route that is admitted keeps the router consistent. -/
theorem IsConsistent.withRoute {r : Router τ} (h : r.IsConsistent) {route : Route τ}
    (hadmits : r.Admits route) : (r.withRoute route).IsConsistent where
  named := by
    show r.named ++ _ = (r.routes ++ [route]).filterMap Route.entry?
    rw [h.named, List.filterMap_append, List.filterMap_cons]
    cases route.entry? <;> rfl
  distinct := by
    show ((r.routes ++ [route]).filterMap Route.name).Nodup
    rw [List.filterMap_append]
    cases hname : route.name with
    | none =>
        rw [List.filterMap_cons_none hname, List.filterMap_nil, List.append_nil]
        exact h.distinct
    | some name =>
        rw [List.filterMap_cons_some hname, List.filterMap_nil]
        refine h.distinct.append (List.nodup_singleton name) ?_
        rw [List.disjoint_singleton, ← keys_filterMap_entry?, ← h.named]
        intro hmem
        have hcontains := OrderedMap.contains_iff_mem_keys.2 hmem
        rw [OrderedMap.contains, hadmits.isFree name hname] at hcontains
        cases hcontains
  matchable := List.forall_mem_append.2 ⟨h.matchable, List.forall_mem_singleton.2 hadmits.matchable⟩

/-- **STEP**: every call keeps a router consistent. -/
theorem IsConsistent.reply {r : Router τ} (h : r.IsConsistent) (call : Call τ) :
    (r.reply call).1.IsConsistent := by
  rcases r.reply_cases call with
    ⟨-, route, hadmits, heq⟩ | ⟨-, fault, heq, -⟩ | ⟨-, heq⟩ | ⟨-, answer, heq, -⟩
  · rw [heq]; exact h.withRoute hadmits
  · rw [heq]; exact h
  · rw [heq]; exact ⟨h.named, h.distinct, h.matchable⟩
  · rw [heq]; exact h

/-- **RUN**: so does any number of calls. -/
theorem IsConsistent.after {r : Router τ} (h : r.IsConsistent) (calls : List (Call τ)) :
    (r.after calls).IsConsistent := by
  induction calls generalizing r with
  | nil => exact h
  | cons call calls ih => exact ih (h.reply call)

/-- A call adds at most one route, at the end, and says so. -/
theorem routes_reply (r : Router τ) (call : Call τ) :
    (r.reply call).1.routes = r.routes ++ (Answer.added? (r.reply call).2).toList := by
  rcases r.reply_cases call with
    ⟨-, route, -, heq⟩ | ⟨-, fault, heq, -⟩ | ⟨-, heq⟩ | ⟨-, answer, heq, hnone⟩
  · rw [heq]; rfl
  · rw [heq]; exact (List.append_nil _).symm
  · rw [heq]; exact (List.append_nil _).symm
  · rw [heq, hnone]; exact (List.append_nil _).symm

/-- **ORDER**: the routes are those that were added, in that order. -/
theorem routes_after (r : Router τ) (calls : List (Call τ)) :
    (r.after calls).routes = r.routes ++ (r.answers calls).filterMap Answer.added? := by
  induction calls generalizing r with
  | nil => exact (List.append_nil _).symm
  | cons call calls ih =>
      rw [answers, List.filterMap_cons]
      refine (ih (r.reply call).1).trans ?_
      rw [routes_reply, List.append_assoc]
      cases Answer.added? (r.reply call).2 <;> rfl

/-- A complete router stays as it is. -/
theorem after_of_isComplete {r : Router τ} (h : r.isComplete = true) (calls : List (Call τ)) :
    r.after calls = r := by
  induction calls with
  | nil => rfl
  | cons call calls ih =>
      have hstep : (r.reply call).1 = r := by
        rcases r.reply_cases call with
          ⟨-, route, hadmits, -⟩ | ⟨-, fault, heq, -⟩ | ⟨-, heq⟩ | ⟨-, answer, heq, -⟩
        · cases h.symm.trans hadmits.isOpen
        · rw [heq]
        · rw [heq]
          obtain ⟨config, routes, named, isComplete⟩ := r
          cases h
          rfl
        · rw [heq]
      rw [after, List.foldl_cons, hstep]
      exact ih

/-- To a complete router nothing can be added. -/
theorem replyAdding_of_isComplete {r : Router τ} (h : r.isComplete = true) (route : Route τ) :
    r.replyAdding route = (r, .error .frozen) := by
  rw [replyAdding_eq]
  rcases r.add_cases route with ⟨hadmits, -⟩ | ⟨-, fault, hvalue, -, hfrozen⟩
  · cases h.symm.trans hadmits.isOpen
  · rw [hvalue, hfrozen h]

/-- A name is expanded with the template of the first route that has it. -/
theorem IsConsistent.urlFor_eq {r : Router τ} (h : r.IsConsistent) (name : Text)
    (env : Environment) :
    r.urlFor name env = match r.routes.find? fun route => route.name = some name with
      | some route => .ok (route.template.render env)
      | none => .error (.noRoute name) := by
  have hget : OrderedMap.get? r.named name
      = r.routes.find? fun route => route.name = some name := by
    rw [h.named, get?_filterMap_entry?]
  cases hfind : r.routes.find? fun route => route.name = some name with
  | some route => simp only [urlFor, hget, hfind]
  | none => simp only [urlFor, hget, hfind]

/-- **ROUTER**: after any calls on an empty router the table of names lists the routes that have
    one, no name twice; every route can be matched; and the routes are those that were added, in
    order.  Of the calls that can follow, an addition does what `add` and `addTemplate` say, and
    one that is refused changes nothing; nor does matching, expanding or listing.  Once the router
    is complete, its routes and names are settled, and every addition is refused unless its text is
    no template to begin with.  A name that is registered is expanded with the template of its first
    route, whatever is called in between. -/
theorem calls_contract (config : Config) (before : List (Call τ)) :
    let start : Router τ := empty config
    let r := start.after before
    (r.named = r.routes.filterMap Route.entry? ∧ (r.routes.filterMap Route.name).Nodup) ∧
    (∀ route ∈ r.routes, route.template.isMatchable = true) ∧
    (r.routes = (start.answers before).filterMap Answer.added? ∧
      (r.reply .routes).2 = .ok (.listed r.routes)) ∧
    (∀ route, (r.add route).value
      = (r.reply (.add route)).2.map fun _ => (r.reply (.add route)).1) ∧
    (∀ source target name, (r.addTemplate source target name).value
      = (r.reply (.addTemplate source target name)).2.map
          fun _ => (r.reply (.addTemplate source target name)).1) ∧
    (∀ call fault, call.IsAddition → (r.reply call).2 = .error fault →
      (r.reply call).1 = r ∧ fault.kind ∈
        [FaultKind.state, .unsupportedOperator, .configuration, .invalidTemplate]) ∧
    (∀ call, ¬ call.IsAddition → call ≠ .complete → (r.reply call).1 = r) ∧
    (∀ later, let s := (r.reply .complete).1.after later
      s.routes = r.routes ∧ s.named = r.named ∧
      (∀ route, s.reply (.add route) = (s, .error .frozen)) ∧
      ∀ source target name t, Template.parse s.config source = .ok t →
        s.reply (.addTemplate source target name) = (s, .error .frozen)) ∧
    (∀ name route, r.routes.find? (fun route => route.name = some name) = some route →
      ∀ later env, ((r.after later).reply (.urlFor name env)).2
        = .ok (.expanded (route.template.render env))) := by
  intro start r
  have hr : r.IsConsistent := (isConsistent_empty config).after before
  refine ⟨⟨hr.named, hr.distinct⟩, hr.matchable, ?_, ?_, ?_, ?_, ?_, ?_, ?_⟩
  · exact ⟨routes_after start before, rfl⟩
  · intro route
    rw [reply, replyAdding_eq]
    cases (r.add route).value <;> rfl
  · intro source target name
    rw [reply, addTemplate, Template.compile]
    cases Template.parse r.config source with
    | error e => rfl
    | ok t =>
        dsimp only
        rw [replyAdding_eq]
        cases (r.add ⟨t, target, name⟩).value <;> rfl
  · intro call fault hcall hfault
    rcases r.reply_cases call with
      ⟨-, route, -, heq⟩ | ⟨-, other, heq, hkind⟩ | ⟨rfl, -⟩ | ⟨hno, -⟩
    · rw [heq] at hfault
      cases hfault
    · rw [heq] at hfault ⊢
      cases hfault
      exact ⟨rfl, hkind⟩
    · exact hcall.elim
    · exact absurd hcall hno
  · intro call hcall hcomplete
    rcases r.reply_cases call with ⟨hyes, -⟩ | ⟨hyes, -⟩ | ⟨heq, -⟩ | ⟨-, answer, heq, -⟩
    · exact absurd hyes hcall
    · exact absurd hyes hcall
    · exact absurd heq hcomplete
    · rw [heq]
  · intro later s
    have hs : s = r.complete := after_of_isComplete rfl later
    have hcomplete : s.isComplete = true := by rw [hs]; rfl
    refine ⟨by rw [hs]; rfl, by rw [hs]; rfl, replyAdding_of_isComplete hcomplete, ?_⟩
    intro source target name t hparse
    exact (reply_addTemplate hparse).trans (replyAdding_of_isComplete hcomplete _)
  · intro name route hfind later env
    have hlater := (hr.after later).urlFor_eq name env
    rw [routes_after, List.find?_append, hfind] at hlater
    rw [reply, hlater]
    rfl

/-- A route is added and takes its name, so that a second one is refused; a URL goes to the first.
    Its name is good for expansions from then on, and the complete router takes no more. -/
theorem calls_contract_page :
    let page : Route Nat :=
      ⟨.mk "/x\x7b/a\x7d".toText
        [.literal "/x".toText, .expression ⟨.pathSegment, [⟨"a".toText, false, none⟩]⟩]
        ⟨true, false⟩, 0, some "p".toText⟩
    let start : Router Nat := empty ⟨true, false⟩
    let calls : List (Call Nat) :=
      [.addTemplate page.template.source 0 page.name, .addTemplate "\x7bb\x7d".toText 1 page.name,
        .matchUrl "/x/1".toText]
    let r := start.after calls
    start.answers calls =
      [.ok (.added page),
        .error (.nameTaken "p".toText page.template.source "\x7bb\x7d".toText),
        .ok (.found ⟨0, page, ⟨[("a".toText, some (.ofText "1".toText))]⟩⟩)] ∧
    r.routes = [page] ∧ r.named = [("p".toText, page)] ∧
    (∀ later, ((r.after later).reply (.urlFor "p".toText [("a".toText, .scalar (.int 2))])).2
      = .ok (.expanded "/x/2".toText)) ∧
    r.complete.reply (.addTemplate "\x7bb\x7d".toText 1 none) = (r.complete, .error .frozen) := by
  intro page start calls r
  let other : Template :=
    .mk "\x7bb\x7d".toText [.expression ⟨.simple, [⟨"b".toText, false, none⟩]⟩] ⟨true, false⟩
  have hpage : Template.parse ⟨true, false⟩ page.template.source = .ok page.template := by
    decide +kernel
  have hother : Template.parse ⟨true, false⟩ other.source = .ok other := by decide +kernel
  have hmatch : (page.template.matchUrl "/x/1".toText).value
      = .ok ⟨[("a".toText, some (.ofText "1".toText))]⟩ :=
    (Matching.matchUrl_value _ rfl).trans rfl
  let added : Router Nat := ⟨⟨true, false⟩, [page], [("p".toText, page)], false⟩
  have hfirst : start.reply (.addTemplate page.template.source 0 page.name)
      = (added, .ok (.added page)) := (reply_addTemplate hpage).trans rfl
  have hsecond : added.reply (.addTemplate other.source 1 page.name)
      = (added, .error (.nameTaken "p".toText page.template.source other.source)) :=
    (reply_addTemplate hother).trans rfl
  have hthird : (added.reply (.matchUrl "/x/1".toText)).2
      = .ok (.found ⟨0, page, ⟨[("a".toText, some (.ofText "1".toText))]⟩⟩) := by
    rw [reply, matchUrl, tryRoutes, hmatch]
    rfl
  have hanswers : start.answers calls =
      [.ok (.added page), .error (.nameTaken "p".toText page.template.source other.source),
        .ok (.found ⟨0, page, ⟨[("a".toText, some (.ofText "1".toText))]⟩⟩)] := by
    rw [answers, hfirst, answers, hsecond, answers, hthird]
    rfl
  have hr : r = added := by
    show (((start.reply _).1.reply _).1.reply (.matchUrl "/x/1".toText)).1 = added
    rw [hfirst, hsecond]
    rfl
  obtain ⟨⟨hnamed, -⟩, -, ⟨hroutes, -⟩, -, -, -, -, hcomplete, hurl⟩ :=
    calls_contract ⟨true, false⟩ calls
  obtain ⟨-, -, -, hfrozen⟩ := hcomplete []
  have hroutes : r.routes = [page] := by
    rw [hroutes, hanswers]
    rfl
  refine ⟨hanswers, hroutes, ?_, fun later => ?_, ?_⟩
  · rw [hroutes] at hnamed
    exact hnamed
  · refine (hurl "p".toText page ?_ later _).trans rfl
    rw [hroutes]
    rfl
  · refine hfrozen _ _ _ other ?_
    show Template.parse r.config other.source = .ok other
    rw [hr]
    exact hother

end Router

end UriTemplate
