import UriTemplate.Proofs.Router.Calls

/-! # First match — which route a URL goes to

    A router tries its routes in order.  Since every one of them can be matched, there
    are two ways to go on: the route fits, or it leaves an attempt, which is its source
    with its error (`Route.IsAttempt`).  Routes that all fail are passed over, and their
    attempts gathered (`Router.tryRoutes_append`); so either all fail, or there is a
    first that fits (`Route.forall_or_exists_first`).

    * `Router.IsConsistent.matchUrl_eq_ok_iff`, `matchUrl_eq_error_iff` — when a route is
      found, and when there is a fault;
    * **`Router.matchUrl_first`** — what this says of a router after any calls, and of
      one more route. -/

namespace UriTemplate

variable {τ : Type}

/-- A template that can be matched has a result for a URL, or says where the URL does not fit. -/
theorem Template.matchUrl_cases {t : Template} (h : t.isMatchable = true) (url : Text) :
    (∃ result, (t.matchUrl url).value = .ok result) ∨
      ∃ e, (t.matchUrl url).value = .error (.mismatch e) := by
  obtain ⟨found, hfound⟩ := isMatchable_iff_exists_parts.1 h
  rw [Matching.matchUrl_value url hfound]
  cases Matching.solve t.config.strictQuery found 0 url with
  | ok bindings => exact Or.inl ⟨⟨bindings⟩, rfl⟩
  | error e => exact Or.inr ⟨e, rfl⟩

namespace Route

/-- Does the template fit the URL, with this result? -/
def Fits (url : Text) (route : Route τ) (result : MatchResult) : Prop :=
  (route.template.matchUrl url).value = .ok result

/-- Is the attempt what a route leaves that the URL does not fit? -/
def IsAttempt (url : Text) (route : Route τ) (attempt : Text × MatchError) : Prop :=
  attempt.1 = route.template.source ∧
    (route.template.matchUrl url).value = .error (.mismatch attempt.2)

variable {url : Text} {route : Route τ}

/-- A route that leaves an attempt does not fit. -/
theorem IsAttempt.not_fits {attempt : Text × MatchError} (h : IsAttempt url route attempt)
    (result : MatchResult) : ¬ route.Fits url result := by
  intro hfits
  cases h.2.symm.trans hfits

/-- **TRIAL**: a route that can be matched fits, or leaves an attempt. -/
theorem fits_or_isAttempt (h : route.template.isMatchable = true) (url : Text) :
    (∃ result, route.Fits url result) ∨ ∃ attempt, IsAttempt url route attempt := by
  rcases Template.matchUrl_cases h url with hresult | ⟨e, he⟩
  · exact Or.inl hresult
  · exact Or.inr ⟨(route.template.source, e), rfl, he⟩

/-- **TRIALS**: of several such routes all leave an attempt, or there is a first that fits. -/
theorem forall_or_exists_first {routes : List (Route τ)}
    (h : ∀ route ∈ routes, route.template.isMatchable = true) (url : Text) :
    (∃ attempts, List.Forall₂ (IsAttempt url) routes attempts) ∨
    ∃ before route later attempts result, routes = before ++ route :: later ∧
      List.Forall₂ (IsAttempt url) before attempts ∧ route.Fits url result := by
  induction routes with
  | nil => exact Or.inl ⟨[], .nil⟩
  | cons route routes ih =>
      obtain ⟨hroute, hroutes⟩ := List.forall_mem_cons.1 h
      rcases fits_or_isAttempt hroute url with ⟨result, hfits⟩ | ⟨attempt, hattempt⟩
      · exact Or.inr ⟨[], route, routes, [], result, rfl, .nil, hfits⟩
      · rcases ih hroutes with
          ⟨attempts, hall⟩ | ⟨before, first, later, attempts, result, heq, hbefore, hfits⟩
        · exact Or.inl ⟨attempt :: attempts, .cons hattempt hall⟩
        · exact Or.inr ⟨route :: before, first, later, attempt :: attempts, result,
            congrArg (route :: ·) heq, .cons hattempt hbefore, hfits⟩

/-- Routes that all leave an attempt do not fit. -/
theorem not_fits_of_forall₂ {routes : List (Route τ)} {attempts : List (Text × MatchError)}
    (h : List.Forall₂ (IsAttempt url) routes attempts) :
    ∀ route ∈ routes, ∀ result, ¬ route.Fits url result := by
  induction h with
  | nil => nofun
  | cons hattempt _ ih => exact List.forall_mem_cons.2 ⟨hattempt.not_fits, ih⟩

end Route

/-- Is this the first of the routes that the URL fits, with what its template alone gives? -/
structure RouteMatch.IsFirst (m : RouteMatch τ) (routes : List (Route τ)) (url : Text) : Prop where
  registered : routes[m.index]? = some m.route
  fits : m.route.Fits url m.result
  earlier : ∀ route ∈ routes.take m.index, ∀ result, ¬ route.Fits url result

/-- Routes after it do not matter. -/
theorem RouteMatch.IsFirst.append {m : RouteMatch τ} {routes : List (Route τ)} {url : Text}
    (h : m.IsFirst routes url) (more : List (Route τ)) : m.IsFirst (routes ++ more) url := by
  obtain ⟨hlt, -⟩ := List.getElem?_eq_some_iff.1 h.registered
  refine ⟨?_, h.fits, ?_⟩
  · rw [List.getElem?_append_left hlt]
    exact h.registered
  · rw [List.take_append_of_le_length (Nat.le_of_lt hlt)]
    exact h.earlier

/-- There is one first route. -/
theorem RouteMatch.IsFirst.unique {m n : RouteMatch τ} {routes : List (Route τ)} {url : Text}
    (hm : m.IsFirst routes url) (hn : n.IsFirst routes url) : m = n := by
  have hle : ∀ {m n : RouteMatch τ}, m.IsFirst routes url → n.IsFirst routes url →
      ¬ m.index < n.index := by
    intro m n hm hn hlt
    have hmem : m.route ∈ routes.take n.index := by
      rw [List.mem_iff_getElem?]
      exact ⟨m.index, by rw [List.getElem?_take_of_lt hlt]; exact hm.registered⟩
    exact hn.earlier _ hmem _ hm.fits
  have hindex : m.index = n.index := by
    have := hle hm hn
    have := hle hn hm
    omega
  obtain ⟨index, route, result⟩ := m
  obtain ⟨_, route', result'⟩ := n
  obtain rfl : index = _ := hindex
  obtain rfl : route = route' := Option.some.inj (hm.registered.symm.trans hn.registered)
  obtain rfl : result = result' := Except.ok.inj (hm.fits.symm.trans hn.fits)
  rfl

namespace Router

variable {url : Text} {route : Route τ} {result : MatchResult}
  {attempts : List (Text × MatchError)}

/-- Trying stops at a route that fits. -/
theorem tryRoutes_of_fits (h : route.Fits url result) (index : Nat)
    (attempts : List (Text × MatchError)) (later : List (Route τ)) :
    (tryRoutes url index attempts (route :: later)).value = .ok ⟨index, route, result⟩ := by
  rw [tryRoutes, show (route.template.matchUrl url).value = .ok result from h]

/-- Routes that leave attempts are passed over. -/
theorem tryRoutes_append {before : List (Route τ)}
    (h : List.Forall₂ (Route.IsAttempt url) before attempts) (index : Nat)
    (earlier : List (Text × MatchError)) (later : List (Route τ)) :
    (tryRoutes url index earlier (before ++ later)).value
      = (tryRoutes url (index + before.length) (earlier ++ attempts) later).value := by
  induction h generalizing index earlier with
  | nil => rw [List.append_nil, List.nil_append, List.length_nil, Nat.add_zero]
  | @cons route attempt before attempts hattempt _ ih =>
      obtain ⟨source, e⟩ := attempt
      obtain ⟨rfl, herror⟩ : source = _ ∧ _ := hattempt
      have hcons : earlier ++ (route.template.source, e) :: attempts
          = earlier ++ [(route.template.source, e)] ++ attempts := (List.append_assoc _ [_] _).symm
      rw [List.cons_append, tryRoutes, herror, hcons, List.length_cons, Nat.add_comm before.length,
        ← Nat.add_assoc]
      exact ih (index + 1) (earlier ++ [(route.template.source, e)])

/-- If all routes leave an attempt, no route fits. -/
theorem matchUrl_of_forall₂ {r : Router τ}
    (h : List.Forall₂ (Route.IsAttempt url) r.routes attempts) :
    (r.matchUrl url).value = .error (.noMatch ⟨url, attempts⟩) := by
  have heq := tryRoutes_append h 0 [] []
  rw [List.append_nil] at heq
  exact heq

/-- The first route that fits is the one. -/
theorem matchUrl_of_append {r : Router τ} {before later : List (Route τ)}
    (hroutes : r.routes = before ++ route :: later)
    (hbefore : List.Forall₂ (Route.IsAttempt url) before attempts) (hfits : route.Fits url result) :
    (r.matchUrl url).value = .ok ⟨before.length, route, result⟩ := by
  rw [matchUrl, hroutes, tryRoutes_append hbefore, Nat.zero_add]
  exact tryRoutes_of_fits hfits _ _ later

/-- **TRYING**: a router with routes that can be matched gives all their attempts, or the first of
    them that fits. -/
theorem IsConsistent.matchUrl_cases {r : Router τ} (h : r.IsConsistent) (url : Text) :
    (∃ attempts, List.Forall₂ (Route.IsAttempt url) r.routes attempts ∧
      (r.matchUrl url).value = .error (.noMatch ⟨url, attempts⟩)) ∨
    ∃ m : RouteMatch τ, m.IsFirst r.routes url ∧ (r.matchUrl url).value = .ok m := by
  rcases Route.forall_or_exists_first h.matchable url with
    ⟨attempts, hall⟩ | ⟨before, route, later, attempts, result, heq, hbefore, hfits⟩
  · exact Or.inl ⟨attempts, hall, matchUrl_of_forall₂ hall⟩
  · refine Or.inr ⟨⟨before.length, route, result⟩, ⟨?_, hfits, ?_⟩,
      matchUrl_of_append heq hbefore hfits⟩
    · rw [heq, List.getElem?_append_right (Nat.le_refl _), Nat.sub_self]
      rfl
    · rw [heq, List.take_left]
      exact Route.not_fits_of_forall₂ hbefore

/-- The route that is found is the first. -/
theorem IsConsistent.matchUrl_eq_ok_iff {r : Router τ} (h : r.IsConsistent) {m : RouteMatch τ} :
    (r.matchUrl url).value = .ok m ↔ m.IsFirst r.routes url := by
  rcases h.matchUrl_cases url with ⟨attempts, hall, herror⟩ | ⟨first, hfirst, hok⟩
  · rw [herror]
    refine ⟨nofun, fun hm => ?_⟩
    exact absurd hm.fits
      (Route.not_fits_of_forall₂ hall _ (List.mem_of_getElem? hm.registered) _)
  · rw [hok]
    constructor
    · rintro ⟨⟩
      exact hfirst
    · exact fun hm => congrArg Except.ok (hfirst.unique hm)

/-- The only fault lists one attempt of each route. -/
theorem IsConsistent.matchUrl_eq_error_iff {r : Router τ} (h : r.IsConsistent) {fault : Fault} :
    (r.matchUrl url).value = .error fault ↔ ∃ attempts, fault = .noMatch ⟨url, attempts⟩ ∧
      List.Forall₂ (Route.IsAttempt url) r.routes attempts := by
  constructor
  · intro hfault
    rcases h.matchUrl_cases url with ⟨attempts, hall, herror⟩ | ⟨m, -, hok⟩
    · cases herror.symm.trans hfault
      exact ⟨attempts, rfl, hall⟩
    · cases hok.symm.trans hfault
  · rintro ⟨attempts, rfl, hall⟩
    exact matchUrl_of_forall₂ hall

/-- An addition that succeeds puts its route at the end, and it can be matched. -/
theorem IsConsistent.reply_of_added {r : Router τ} (h : r.IsConsistent) {call : Call τ}
    (hadded : (r.reply call).2 = .ok (.added route)) :
    (r.reply call).1.routes = r.routes ++ [route] ∧ route.template.isMatchable = true := by
  have hroutes := r.routes_reply call
  rw [hadded] at hroutes
  refine ⟨hroutes, (h.reply call).matchable route ?_⟩
  rw [hroutes]
  exact List.mem_append_right _ List.mem_cons_self

/-- **ROUTING**: after any calls on an empty router, a URL goes to the first route whose template
    fits it, with what that template gives for it.  If none fits, the fault lists every route, in
    order, with its source and its own error, and there is no other fault.  One more route changes
    nothing for a URL that some route fits; any other URL goes to the new route, or there is one
    attempt more at the end.  So whatever is called later, a URL stays with its route. -/
theorem matchUrl_first (config : Config) (before : List (Call τ)) (url : Text) :
    let r := (empty config : Router τ).after before
    (∀ m, (r.matchUrl url).value = .ok m ↔ m.IsFirst r.routes url) ∧
    (∀ fault, (r.matchUrl url).value = .error fault ↔ ∃ attempts,
      fault = .noMatch ⟨url, attempts⟩ ∧ List.Forall₂ (Route.IsAttempt url) r.routes attempts) ∧
    ((∃ fault, (r.matchUrl url).value = .error fault) ↔
      ∀ route ∈ r.routes, ∀ result, ¬ route.Fits url result) ∧
    (∀ call route, (r.reply call).2 = .ok (.added route) →
      let s := (r.reply call).1
      (∀ m, (r.matchUrl url).value = .ok m → (s.matchUrl url).value = .ok m) ∧
      ∀ attempts, (r.matchUrl url).value = .error (.noMatch ⟨url, attempts⟩) →
        (∃ attempt, route.IsAttempt url attempt ∧
          (s.matchUrl url).value = .error (.noMatch ⟨url, attempts ++ [attempt]⟩)) ∨
        ∃ result, route.Fits url result ∧
          (s.matchUrl url).value = .ok ⟨r.routes.length, route, result⟩) ∧
    ∀ later m, (r.matchUrl url).value = .ok m → ((r.after later).matchUrl url).value = .ok m := by
  intro r
  have hr : r.IsConsistent := (isConsistent_empty config).after before
  -- a router that has grown gives the same for a URL that some route fits
  have hstays : ∀ {s : Router τ} {more : List (Route τ)}, s.IsConsistent →
      s.routes = r.routes ++ more → ∀ m, (r.matchUrl url).value = .ok m →
      (s.matchUrl url).value = .ok m := by
    intro s more hs hroutes m hm
    rw [hs.matchUrl_eq_ok_iff, hroutes]
    exact (hr.matchUrl_eq_ok_iff.1 hm).append more
  refine ⟨fun m => hr.matchUrl_eq_ok_iff, fun fault => hr.matchUrl_eq_error_iff, ⟨?_, ?_⟩,
    fun call route hadded => ?_, fun later => hstays (hr.after later) (routes_after r later)⟩
  · rintro ⟨fault, hfault⟩
    obtain ⟨attempts, -, hall⟩ := hr.matchUrl_eq_error_iff.1 hfault
    exact Route.not_fits_of_forall₂ hall
  · intro hnone
    rcases hr.matchUrl_cases url with ⟨attempts, -, herror⟩ | ⟨m, hfirst, -⟩
    · exact ⟨_, herror⟩
    · exact absurd hfirst.fits (hnone _ (List.mem_of_getElem? hfirst.registered) _)
  · obtain ⟨hroutes, hmatchable⟩ := hr.reply_of_added hadded
    refine ⟨hstays (hr.reply call) hroutes, fun attempts hfault => ?_⟩
    obtain ⟨_, ⟨⟩, hall⟩ := hr.matchUrl_eq_error_iff.1 hfault
    rcases Route.fits_or_isAttempt hmatchable url with ⟨result, hfits⟩ | ⟨attempt, hattempt⟩
    · exact Or.inr ⟨result, hfits, matchUrl_of_append hroutes hall hfits⟩
    · refine Or.inl ⟨attempt, hattempt, matchUrl_of_forall₂ ?_⟩
      rw [hroutes]
      exact List.rel_append hall (.cons hattempt .nil)

/-- Of two routes that both fit a URL the first keeps it, and a URL that does not fit the first goes
    to the second once that is added. -/
theorem matchUrl_first_second :
    let first : Route Nat :=
      ⟨.mk "\x7ba\x7d.x".toText
        [.expression ⟨.simple, [⟨"a".toText, false, none⟩]⟩, .literal ".x".toText]
        ⟨true, false⟩, 0, none⟩
    let second : Route Nat :=
      ⟨.mk "\x7bb\x7d".toText [.expression ⟨.simple, [⟨"b".toText, false, none⟩]⟩]
        ⟨true, false⟩, 1, none⟩
    let call : Call Nat := .addTemplate second.template.source 1 none
    let r := (empty ⟨true, false⟩ : Router Nat).after [.addTemplate first.template.source 0 none]
    let s := (r.reply call).1
    (r.reply call).2 = .ok (.added second) ∧
    (r.matchUrl "1.x".toText).value = .ok ⟨0, first, ⟨[("a".toText, some (.ofText "1".toText))]⟩⟩ ∧
    (s.matchUrl "1.x".toText).value = .ok ⟨0, first, ⟨[("a".toText, some (.ofText "1".toText))]⟩⟩ ∧
    (r.matchUrl "1".toText).value = .error (.noMatch ⟨"1".toText,
      [("\x7ba\x7d.x".toText, ⟨.literal ".x".toText [], some 1⟩)]⟩) ∧
    (s.matchUrl "1".toText).value
      = .ok ⟨1, second, ⟨[("b".toText, some (.ofText "1".toText))]⟩⟩ := by
  intro first second call r s
  have hfirst : Template.parse ⟨true, false⟩ first.template.source = .ok first.template := by
    decide +kernel
  have hsecond : Template.parse ⟨true, false⟩ second.template.source = .ok second.template := by
    decide +kernel
  have hr : r = ⟨⟨true, false⟩, [first], [], false⟩ :=
    (congrArg Prod.fst (reply_addTemplate hfirst)).trans rfl
  have hadded : (r.reply call).2 = .ok (.added second) := by
    rw [hr]
    exact (congrArg Prod.snd (reply_addTemplate hsecond)).trans rfl
  have hfits : first.Fits "1.x".toText ⟨[("a".toText, some (.ofText "1".toText))]⟩ :=
    (Matching.matchUrl_value _ rfl).trans rfl
  have hattempt : first.IsAttempt "1".toText
      ("\x7ba\x7d.x".toText, ⟨.literal ".x".toText [], some 1⟩) :=
    ⟨rfl, (Matching.matchUrl_value _ rfl).trans rfl⟩
  have hlater : second.Fits "1".toText ⟨[("b".toText, some (.ofText "1".toText))]⟩ :=
    (Matching.matchUrl_value _ rfl).trans rfl
  have hroutes : r.routes = [first] := by rw [hr]
  obtain ⟨hone, -, -, hstays, -⟩ := matchUrl_first ⟨true, false⟩
    [.addTemplate first.template.source 0 none] "1.x".toText
  have hfound : (r.matchUrl "1.x".toText).value
      = .ok ⟨0, first, ⟨[("a".toText, some (.ofText "1".toText))]⟩⟩ := by
    refine (hone _).2 ?_
    show RouteMatch.IsFirst _ r.routes _
    rw [hroutes]
    exact ⟨rfl, hfits, List.forall_mem_nil _⟩
  obtain ⟨-, hnone, -, hgrows, -⟩ := matchUrl_first ⟨true, false⟩
    [.addTemplate first.template.source 0 none] "1".toText
  have hfault : (r.matchUrl "1".toText).value = .error (.noMatch ⟨"1".toText,
      [("\x7ba\x7d.x".toText, ⟨.literal ".x".toText [], some 1⟩)]⟩) := by
    refine (hnone _).2 ⟨_, rfl, ?_⟩
    show List.Forall₂ _ r.routes _
    rw [hroutes]
    exact .cons hattempt .nil
  refine ⟨hadded, hfound, (hstays call second hadded).1 _ hfound, hfault, ?_⟩
  rcases (hgrows call second hadded).2 _ hfault with ⟨attempt, hno, -⟩ | ⟨result, hyes, hs⟩
  · exact absurd hlater (hno.not_fits _)
  · cases hyes.symm.trans hlater
    have hlength : r.routes.length = 1 := congrArg List.length hroutes
    exact hs.trans (congrArg (fun n => Except.ok (RouteMatch.mk n second _)) hlength)

end Router

end UriTemplate
