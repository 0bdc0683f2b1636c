import UriTemplate.Expansion
import UriTemplate.Matching
import UriTemplate.Template.Parse

/-! # Routers — ordered templates with targets

    Routes are added until the router is complete (`Router.complete`); a URL goes to
    the first route that fits it.  Routes with a name can be expanded by name.  An
    addition either succeeds or leaves the router as it was. -/

namespace UriTemplate

/-- A template, what the caller wants back when a URL fits it, and the name it is expanded
    under. -/
structure Route (τ : Type) where
  template : Template
  target : τ
  name : Option Text

/-- Routes in order, the named ones under their names, and whether more may be added. -/
structure Router (τ : Type) where
  config : Config
  routes : List (Route τ)
  named : OrderedMap (Route τ)
  isComplete : Bool

/-- The route that a URL goes to: its place among the routes, and the values found. -/
structure RouteMatch (τ : Type) where
  index : Nat
  route : Route τ
  result : MatchResult

namespace Router

variable {τ : Type}

/-- A router without routes. -/
def empty (config : Config) : Router τ := ⟨config, [], [], false⟩

/-- Register the name of a route, if it has one and the name is free. -/
def takeName (r : Router τ) (route : Route τ) : Except Fault (OrderedMap (Route τ)) :=
  match route.name with
  | none => .ok r.named
  | some name =>
      match OrderedMap.get? r.named name with
      | some existing =>
          .error (.nameTaken name existing.template.source route.template.source)
      | none => .ok (OrderedMap.insert r.named name route)

/-- Add a route at the end. -/
def add (r : Router τ) (route : Route τ) : Logged (Except Fault (Router τ)) :=
  if r.isComplete then ⟨.error .frozen, []⟩
  else
    match route.template.requireMatchable with
    | .error fault => ⟨.error fault, []⟩
    | .ok () =>
        match r.takeName route with
        | .error fault => ⟨.error fault, []⟩
        | .ok named =>
            ⟨.ok ⟨r.config, r.routes ++ [route], named, false⟩,
              [.registered route.template.source route.name]⟩

/-- Read a template with the router's configuration and add a route for it. -/
def addTemplate (r : Router τ) (source : Text) (target : τ) (name : Option Text) :
    Logged (Except Fault (Router τ)) :=
  match Template.compile r.config source with
  | ⟨.error e, records⟩ => ⟨.error (.parse e), records⟩
  | ⟨.ok template, records⟩ =>
      let added := r.add ⟨template, target, name⟩
      ⟨added.value, records ++ added.records⟩

/-- Allow no more routes. -/
def complete (r : Router τ) : Router τ := ⟨r.config, r.routes, r.named, true⟩

/-- Try routes in order, the first of them at place `index`, after the failed `attempts`. -/
def tryRoutes (url : Text) (index : Nat) (attempts : List (Text × MatchError)) :
    List (Route τ) → Logged (Except Fault (RouteMatch τ))
  | [] => ⟨.error (.noMatch ⟨url, attempts⟩), []⟩
  | route :: routes =>
      let tried := route.template.matchUrl url
      match tried.value with
      | .ok result => ⟨.ok ⟨index, route, result⟩, tried.records⟩
      | .error (.mismatch e) =>
          let source := route.template.source
          let rest := tryRoutes url (index + 1) (attempts ++ [(source, e)]) routes
          ⟨rest.value, tried.records ++ .routeRejected source url e :: rest.records⟩
      | .error fault => ⟨.error fault, tried.records⟩

/-- The first route that fits a URL. -/
def matchUrl (r : Router τ) (url : Text) : Logged (Except Fault (RouteMatch τ)) :=
  tryRoutes url 0 [] r.routes

/-- Expand the template of a named route. -/
def urlFor (r : Router τ) (name : Text) (env : Environment) : Except Fault Text :=
  match OrderedMap.get? r.named name with
  | some route => .ok (route.template.render env)
  | none => .error (.noRoute name)

end Router

end UriTemplate
