import LockFreeKV.Engine.Alone
import LockFreeKV.Engine.Statistics
import LockFreeKV.Http.Routing
import LockFreeKV.Http.Stages
import LockFreeKV.Lib.Caller

/-!
# The threads of the server

Any number of threads take requests off their connections. A thread looks its request up in
the router, runs the handler up to its engine call, makes the atomic steps of the call, ends
the handler with the result and replies; between any two of these the others go on. An
incoming request has passed the HTTP parser's bound and is not for the lone percent sign, at
which the decoder reads out of bounds.
-/
namespace LockFreeKV.Server

open LockFreeKV.Lib LockFreeKV.Engine LockFreeKV.Http LockFreeKV.Crow

/-- What the server works with. -/
structure Setup where
  rapidjson : Rapidjson
  strtod : Strtod
  router : Router Handler
  validated : Router.validate routes = .ok router

/-- A request, and where its handler throws. -/
structure Incoming where
  method : HTTPMethod
  url : Bytes
  body : Bytes
  failures : FailPoint → Bool
  bounded : url.length ≤ 80 * 1024
  decodable : url ≠ ofString "/api/records/%"

/-- A reply: a JSON document, or what the router decides without the engine. -/
inductive Outcome
  | document (reply : Reply)
  | decided (d : Decision Handler)

/-- What a request is for. -/
inductive Work
  | record (request : RecordRequest)
  | statistics
  | other (d : Decision Handler)

namespace Setup

variable (su : Setup)

/-- The handler that the router has found, with its arguments. -/
def work (r : Incoming) : Work :=
  match su.router.handle su.strtod r.method r.url with
  | .run rule params =>
    match rule.handler with
    | .getRecord => .record (.get (params.stringParams.getD 0 []))
    | .postRecord => .record (.post (params.stringParams.getD 0 []) r.body)
    | .statisticsReads => .statistics
    | _ => .other (.run rule params)
  | d => .other d

/-- The request up to the engine call, if it makes one. -/
def stage (r : Incoming) : Except Fault (Outcome ⊕ Engine.Op Bytes Bytes) :=
  match su.work r with
  | .record request =>
    (request.stage r.failures su.rapidjson).map fun
      | .replies reply => .inl (.document reply)
      | .calls op => .inr (.kv op)
  | .statistics => .ok (.inr .readStatistics)
  | .other d => .ok (.inl (.decided d))

end Setup

/-- `GET /api/statistics/reads` behind the engine call. -/
def statisticsReply (failures : FailPoint → Bool) (reads : AccessStatistics) : Reply :=
  replyWith failures 200 (((JsonBody.empty.addCounter "total"
    (reads.successOperations + reads.failedOperations)).addCounter "succeeded"
      reads.successOperations).addCounter "failed" reads.failedOperations)

theorem statisticsReads_eq (failures : FailPoint → Bool) {h : Hashing Bytes}
    (engine : DataEngine h Bytes) : statisticsReads failures engine =
      (statisticsReply failures engine.getReadStatistics, engine) := respond_eq ..

/-- The request behind the engine call. -/
def Incoming.finish (r : Incoming) :
    Engine.Op Bytes Bytes → Result Bytes Bytes → Option Outcome
  | .readStatistics, .statistics reads => some (.document (statisticsReply r.failures reads))
  | op, res => (Http.finish r.failures op res).map .document

variable {T : Type}

structure State (cfg : Config Bytes T) where
  engine : Engine.State cfg Bytes
  task : T → Task Incoming Outcome

/-- What the scheduler lets happen next. -/
inductive Choice (T : Type)
  | receive (t : T) (r : Incoming)
  | dispatch (t : T)
  | advance (t : T) (fresh : Addr)
  | ret (t : T)
  | reply (t : T)

inductive Event (T : Type)
  | receive (t : T) (r : Incoming)
  | settle (t : T)
  | engine (e : Engine.Event T Bytes Bytes)
  | reply (t : T) (r : Incoming) (outcome : Outcome)

namespace State

variable [DecidableEq T] {cfg : Config Bytes T}

/-- The server in front of an engine, with no request. -/
def around (engine : Engine.State cfg Bytes) : State cfg := ⟨engine, fun _ => .idle⟩

def setTask (s : State cfg) (t : T) (task : Task Incoming Outcome) : State cfg :=
  { s with task := Function.update s.task t task }

def next (su : Setup) (s : State cfg) : Choice T → Option (Event T × State cfg)
  | .receive t r =>
    match s.task t with
    | .idle => some (.receive t r, s.setTask t (.begun r))
    | _ => none
  | .dispatch t =>
    match s.task t with
    | .begun r =>
      match su.stage r with
      | .error _ => none
      | .ok (.inl outcome) => some (.settle t, s.setTask t (.ended r outcome))
      | .ok (.inr op) =>
        (s.engine.next (.call t op)).map fun x =>
          (.engine x.1, ⟨x.2, Function.update s.task t (.calling r)⟩)
    | _ => none
  | .advance t fresh =>
    match s.task t with
    | .calling _ => (s.engine.next (.advance t fresh)).map fun x => (.engine x.1, ⟨x.2, s.task⟩)
    | _ => none
  | .ret t =>
    match s.task t with
    | .calling r =>
      match s.engine.pc t with
      | .returned op res =>
        (r.finish op res).map fun outcome => (.engine (t, .ret op res),
          ⟨s.engine.setPc t .idle, Function.update s.task t (.ended r outcome)⟩)
      | _ => none
    | _ => none
  | .reply t =>
    match s.task t with
    | .ended r outcome => some (.reply t r outcome, s.setTask t .idle)
    | _ => none

/-- Some choice of the scheduler leads from `s` to `s'`, and `e` is what happens. -/
def Step (su : Setup) (s : State cfg) (e : Event T) (s' : State cfg) : Prop :=
  ∃ c, s.next su c = some (e, s')

end State

/-- The code of a JSON reply. -/
def Event.code : Event T → Option Nat
  | .reply _ _ (.document answer) => some answer.code
  | _ => none

/-! ## The outcomes of a step -/

/-- What a step does. -/
inductive Moves [DecidableEq T] {cfg : Config Bytes T} (su : Setup) (s : State cfg) :
    Event T → State cfg → Prop
  | receive {t : T} {r : Incoming} (h : s.task t = .idle) :
      Moves su s (.receive t r) (s.setTask t (.begun r))
  | settle {t : T} {r : Incoming} {outcome : Outcome} (h : s.task t = .begun r)
      (hstage : su.stage r = .ok (.inl outcome)) :
      Moves su s (.settle t) (s.setTask t (.ended r outcome))
  | call {t : T} {r : Incoming} {op : Engine.Op Bytes Bytes} (h : s.task t = .begun r)
      (hstage : su.stage r = .ok (.inr op)) (hidle : s.engine.pc t = .idle) :
      Moves su s (.engine (t, .call op))
        ⟨s.engine.setPc t op.start, Function.update s.task t (.calling r)⟩
  | advance {t : T} {r : Incoming} {a : Act Bytes Bytes} {engine : Engine.State cfg Bytes}
      (h : s.task t = .calling r) (hs : s.engine.Step (t, a) engine) (hcall : ∀ op, a ≠ .call op)
      (hret : ∀ op res, a ≠ .ret op res) : Moves su s (.engine (t, a)) ⟨engine, s.task⟩
  | ret {t : T} {r : Incoming} {op : Engine.Op Bytes Bytes} {res : Result Bytes Bytes}
      {outcome : Outcome} (h : s.task t = .calling r) (hpc : s.engine.pc t = .returned op res)
      (hfinish : r.finish op res = some outcome) :
      Moves su s (.engine (t, .ret op res))
        ⟨s.engine.setPc t .idle, Function.update s.task t (.ended r outcome)⟩
  | reply {t : T} {r : Incoming} {outcome : Outcome} (h : s.task t = .ended r outcome) :
      Moves su s (.reply t r outcome) (s.setTask t .idle)

section Inversion

variable [DecidableEq T] {cfg : Config Bytes T} {su : Setup} {s s' : State cfg} {e : Event T}

theorem moves_of_step (h : s.Step su e s') : Moves su s e s' := by
  obtain ⟨c, hc⟩ := h
  cases c with
  | receive t r =>
    rw [State.next] at hc
    split at hc
    · next hidle => cases hc; exact .receive hidle
    · cases hc
  | dispatch t =>
    rw [State.next] at hc
    split at hc
    · next r hbegun =>
      split at hc
      · cases hc
      · next outcome hstage => cases hc; exact .settle hbegun hstage
      · next op hstage =>
        obtain ⟨x, hx, heq⟩ := Option.map_eq_some_iff.mp hc
        rw [Engine.State.next] at hx
        split at hx
        · next hidle =>
          cases hx
          cases heq
          exact .call hbegun hstage hidle
        · cases hx
    · cases hc
  | advance t fresh =>
    rw [State.next] at hc
    split at hc
    · next r hcalling =>
      obtain ⟨x, hx, heq⟩ := Option.map_eq_some_iff.mp hc
      cases heq
      obtain ⟨y, hy, rfl⟩ := Option.map_eq_some_iff.mp hx
      obtain ⟨hcall, hret⟩ := (advance_sound hy).inside
      exact .advance hcalling ⟨_, hx⟩ hcall hret
    · cases hc
  | ret t =>
    rw [State.next] at hc
    split at hc
    · next r hcalling =>
      split at hc
      · next op res hpc =>
        obtain ⟨outcome, hfinish, heq⟩ := Option.map_eq_some_iff.mp hc
        cases heq
        exact .ret hcalling hpc hfinish
      · cases hc
    · cases hc
  | reply t =>
    rw [State.next] at hc
    split at hc
    · next r outcome hended => cases hc; exact .reply hended
    · cases hc

/-- The engine's part of a step. -/
theorem Moves.engine {x : Engine.Event T Bytes Bytes} (h : Moves su s (.engine x) s') :
    s.engine.Step x s'.engine := by
  cases h with
  | @call t r op _ _ hidle => exact ⟨.call t op, by rw [Engine.State.next, hidle]⟩
  | advance _ hs _ _ => exact hs
  | @ret t r op res outcome _ hpc _ => exact ⟨.ret t, by rw [Engine.State.next, hpc]⟩

/-- The engine's event. -/
def Event.inEngine : Event T → Option (Engine.Event T Bytes Bytes)
  | .engine x => some x
  | _ => none

/-- Every run of the server is one of its engine. -/
theorem engine_run {es : List (Event T)} (hrun : Run (State.Step su) s es s') :
    Run Engine.State.Step s.engine (es.filterMap Event.inEngine) s'.engine := by
  have hstep : ∀ (m : State cfg) (a : Engine.State cfg Bytes) (e : Event T) (m' : State cfg),
      a = m.engine → m.Step su e m' → ∃ a', a' = m'.engine ∧
        ((e.inEngine = none ∧ a' = a) ∨ ∃ f, e.inEngine = some f ∧ a.Step f a') := by
    rintro m _ e m' rfl hs
    have hmoves := moves_of_step hs
    cases e with
    | engine x => exact ⟨_, rfl, .inr ⟨x, rfl, hmoves.engine⟩⟩
    | _ =>
      cases hmoves
      exact ⟨_, rfl, .inl ⟨rfl, rfl⟩⟩
  obtain ⟨_, hengine, rfl⟩ := hrun.simulate (fun m a => a = m.engine) Event.inEngine hstep rfl
  exact hengine

/-! ## Tasks and calls -/

/-- A thread is in the engine exactly while its request is, in the call of that request. -/
structure Fits (su : Setup) (s : State cfg) : Prop where
  calling : ∀ t r, s.task t = .calling r →
    ∃ op, su.stage r = .ok (.inr op) ∧ (s.engine.pc t).op = some op
  resting : ∀ t, (∀ r, s.task t ≠ .calling r) → s.engine.pc t = .idle

/-- The engine step of one thread keeps its call, and the others where they are. -/
theorem op_of_advance {engine engine' : Engine.State cfg Bytes} {t : T} {a : Act Bytes Bytes}
    (hs : engine.Step (t, a) engine') (hcall : ∀ op, a ≠ .call op)
    (hret : ∀ op res, a ≠ .ret op res) :
    (engine'.pc t).op = (engine.pc t).op ∧ ∀ u, u ≠ t → engine'.pc u = engine.pc u := by
  obtain ⟨u, op, _, heq, rfl⟩ | ⟨u, op, res, _, heq, rfl⟩ | ⟨u, x, m, pc, hadv, heq, rfl⟩ :=
    Engine.State.step_cases hs
  · exact absurd (Prod.mk.inj heq).2 (hcall op)
  · exact absurd (Prod.mk.inj heq).2 (hret op res)
  · obtain ⟨rfl, rfl⟩ := Prod.mk.inj heq
    refine ⟨by simpa using hadv.op.1, fun u hu => ?_⟩
    simp [hu]

omit [DecidableEq T] in
theorem Fits.around {engine : Engine.State cfg Bytes} (hidle : ∀ t, engine.pc t = .idle) :
    Fits su (State.around engine) :=
  ⟨fun _ _ h => (by cases h), fun t _ => hidle t⟩

theorem Fits.moves (hf : Fits su s) (h : Moves su s e s') : Fits su s' := by
  have hother : ∀ t task (engine' : Engine.State cfg Bytes),
      (∀ u, u ≠ t → engine'.pc u = s.engine.pc u) →
      (∀ r, task = .calling r → ∃ op, su.stage r = .ok (.inr op) ∧
        (engine'.pc t).op = some op) →
      ((∀ r, task ≠ .calling r) → engine'.pc t = .idle) →
      Fits su (⟨engine', Function.update s.task t task⟩ : State cfg) := by
    intro t task engine' hpcs hcalling hresting
    refine ⟨fun u r hu => ?_, fun u hu => ?_⟩
    · by_cases hut : u = t
      · subst hut
        exact hcalling r (by simpa using hu)
      · rw [hpcs u hut]
        exact hf.calling u r (by simpa [hut] using hu)
    · by_cases hut : u = t
      · subst hut
        exact hresting (by simpa using hu)
      · rw [hpcs u hut]
        exact hf.resting u (by simpa [hut] using hu)
  cases h with
  | receive h => exact hother _ _ _ (fun _ _ => rfl) (by simp) fun _ => hf.resting _ (by simp [h])
  | settle h _ => exact hother _ _ _ (fun _ _ => rfl) (by simp) fun _ => hf.resting _ (by simp [h])
  | @call t r op h hstage hidle =>
    refine hother _ _ _ (fun u hu => by simp [Engine.State.setPc, hu]) (fun r' hr => ?_) (by simp)
    cases hr
    exact ⟨op, hstage, by simpa [Engine.State.setPc] using op.start_op⟩
  | @advance t r a engine' h hs hcall hret =>
    obtain ⟨hop, hpcs⟩ := op_of_advance hs hcall hret
    have hup := hother t (s.task t) engine' hpcs
      (fun r' hr => by rw [hop]; exact hf.calling t r' hr) (fun hno => absurd h (hno r))
    rwa [Function.update_eq_self] at hup
  | ret h hpc _ =>
    refine hother _ _ _ (fun u hu => by simp [Engine.State.setPc, hu]) (by simp) fun _ => ?_
    simp [Engine.State.setPc]
  | reply h => exact hother _ _ _ (fun _ _ => rfl) (by simp) fun _ => hf.resting _ (by simp [h])

theorem fits_of_run {es : List (Event T)} (hf : Fits su s) (hrun : Run (State.Step su) s es s') :
    Fits su s' :=
  hrun.invariant (fun _ m => Fits su m) hf fun _ _ _ _ hm hs => hm.moves (moves_of_step hs)

end Inversion

end LockFreeKV.Server
