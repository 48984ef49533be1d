import LockFreeKV.Crow.Connection
import LockFreeKV.Server.Consistency

/-!
# Replies as responses

What comes out of a request becomes a response: a document with its type, one of the fixed texts,
a file, or what the router answers itself.
-/
namespace LockFreeKV.Server

open LockFreeKV.Lib LockFreeKV.Engine LockFreeKV.Http LockFreeKV.Crow

/-! ## Responses -/

/-- `response`, with the type of its body. -/
def typedAnswer (type : Bytes) (htype : FieldOk (ofString "Content-Type", type)) (code : Nat)
    (text : Bytes) : Answer where
  code := code
  headers := [(ofString "Content-Type", type)]
  body := text
  headersOk _ hfield := List.mem_singleton.mp hfield ▸ htype
  noLength := by
    have hname : ¬ sameName (ofString "Content-Type") (ofString "content-length") := by decide
    simp [named, hname]

theorem fieldOk_document :
    FieldOk (ofString "Content-Type", ofString "application/json; charset=utf-8") :=
  (fieldOk_iff _).mpr (by decide)

theorem fieldOk_text : FieldOk (ofString "Content-Type", ofString "text/plain") :=
  (fieldOk_iff _).mpr (by decide)

/-- `response(code, body)` of a JSON body. -/
def documentAnswer : Nat → Bytes → Answer := typedAnswer _ fieldOk_document

/-- `response(code, "txt", text)`. -/
def textAnswer : Nat → Bytes → Answer := typedAnswer _ fieldOk_text

/-- A response of the router, with one field, if that can be written. -/
def routerAnswer (code : Nat) (name : String) (value : Bytes) : Option Answer :=
  if h : FieldOk (ofString name, value) ∧
      named [(ofString name, value)] (ofString "content-length") = [] then
    some
      { code := code
        headers := [(ofString name, value)]
        body := []
        headersOk := fun _ hfield => List.mem_singleton.mp hfield ▸ h.1
        noLength := h.2 }
  else none

/-- `response(404)`. -/
def notFoundAnswer : Answer := ⟨404, [], [], fun _ h => (by cases h), rfl⟩

namespace Setup

variable (su : Setup)

/-- The response to a request, `host` being the value of its `Host` and `files` what is found below
the static directory. -/
def handled (files : Bytes → Option StaticFile) (r : Incoming) (host : Bytes) :
    Outcome → Option Handled
  | .document reply =>
    (reply.text su.rapidjson).map fun text => .assign (documentAnswer reply.code text)
  | .decided (.allow methods) => (routerAnswer 204 "Allow" methods).map .assign
  | .decided .notFound => if r.method = .options then some (.assign notFoundAnswer) else some (.error 404)
  | .decided .methodNotAllowed => some (.error 405)
  | .decided .redirect =>
    (routerAnswer 301 "Location" (if host = [] then r.url ++ ofString "/"
      else ofString "http://" ++ host ++ r.url ++ ofString "/")).map .assign
  | .decided (.run rule params) =>
    match rule.handler with
    | .itemListing => some (.assign (textAnswer 501 (ofString "Item listing is not supported")))
    | .helloWorld => some (.assign (textAnswer 200 (ofString "Hello, World!\n")))
    | .staticFile => some (.staticFile (files (params.stringParams.getD 0 [])))
    | _ => none
  | .decided _ => none

/-- What can come out of a request. -/
def Ends (r : Incoming) (outcome : Outcome) : Prop :=
  su.stage r = .ok (.inl outcome) ∨
    ∃ op res, su.stage r = .ok (.inr op) ∧ r.finish op res = some outcome

end Setup

/-! ## What comes out of a request -/

section Ends

variable {T : Type} [DecidableEq T] {cfg : Config Bytes T} {su : Setup} {s s' : State cfg}
  {e : Event T} {es : List (Event T)} {r : Incoming} {outcome : Outcome}

/-- All outcomes, of handlers that have ended and of replies, are those of their requests. -/
structure Accounted (su : Setup) (es : List (Event T)) (s : State cfg) : Prop where
  fits : Fits su s
  ended : ∀ t r outcome, s.task t = .ended r outcome → su.Ends r outcome
  replied : ∀ t r outcome, .reply t r outcome ∈ es → su.Ends r outcome

theorem Accounted.step (hp : Accounted su es s) (h : Moves su s e s') : Accounted su (es ++ [e]) s' := by
  have hreplied : (∀ t r outcome, e ≠ .reply t r outcome) →
      ∀ t r outcome, .reply t r outcome ∈ es ++ [e] → su.Ends r outcome := by
    intro hother t r outcome hm
    rcases List.mem_append.mp hm with hm | hm
    · exact hp.replied t r outcome hm
    · exact absurd (List.mem_singleton.mp hm).symm (hother t r outcome)
  have hupdate : ∀ (t : T) (task : Task Incoming Outcome),
      (∀ r outcome, task = .ended r outcome → su.Ends r outcome) →
      ∀ u r outcome, Function.update s.task t task u = .ended r outcome → su.Ends r outcome := by
    intro t task htask u r outcome hu
    by_cases hut : u = t
    · subst hut
      exact htask r outcome (by simpa using hu)
    · exact hp.ended u r outcome (by simpa [hut] using hu)
  refine ⟨hp.fits.moves h, ?_, ?_⟩
  · cases h with
    | receive _ => exact hupdate _ _ (fun _ _ h => by cases h)
    | settle _ hstage =>
      refine hupdate _ _ fun _ _ h => ?_
      cases h
      exact .inl hstage
    | call _ _ _ => exact hupdate _ _ (fun _ _ h => by cases h)
    | advance _ _ _ _ => exact hp.ended
    | @ret t r op res outcome hcalling hpc hfinish =>
      refine hupdate _ _ fun _ _ h => ?_
      cases h
      obtain ⟨op', hstage, hop⟩ := hp.fits.calling t r hcalling
      rw [hpc] at hop
      obtain rfl : op = op' := Option.some.inj hop
      exact .inr ⟨op, res, hstage, hfinish⟩
    | reply _ => exact hupdate _ _ (fun _ _ h => by cases h)
  · cases h with
    | @reply t r outcome hended =>
      intro u r' outcome' hm
      rcases List.mem_append.mp hm with hm | hm
      · exact hp.replied u r' outcome' hm
      · cases List.mem_singleton.mp hm
        exact hp.ended t r outcome hended
    | _ => exact hreplied fun _ _ _ h => by cases h

end Ends

/-! ## Responses in sync -/

section Delivery

variable {su : Setup} {files : Bytes → Option StaticFile} {r : Incoming} {outcome : Outcome}
  {req : Crow.Request} {h : Handled}

end Delivery

end LockFreeKV.Server
