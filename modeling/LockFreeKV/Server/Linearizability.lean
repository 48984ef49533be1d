import LockFreeKV.Engine.Linearizability
import LockFreeKV.Server.Step

/-!
# Requests are linearizable

Whatever the interleaving, the replies to all requests but those for the statistics are the
replies of a server that handles one request at a time: each takes effect at one instant
between its arrival and its reply. The engine is an atomic table, and the threads of the
server are callers of it.
-/
namespace LockFreeKV.Server

open LockFreeKV.Lib LockFreeKV.Engine LockFreeKV.Http LockFreeKV.Crow

namespace Setup

variable (su : Setup)

/-- The request is not for the statistics. -/
def onRecords (r : Incoming) : Bool :=
  match su.work r with
  | .statistics => false
  | _ => true

/-- The handlers of records around the engine. A request for the statistics is none of theirs,
and no handler faults. -/
def handlers : Caller Incoming Outcome (KvOp Bytes Bytes) (KvRes Bytes) where
  stage r :=
    match su.stage r with
    | .ok (.inl outcome) => .inl outcome
    | .ok (.inr (.kv op)) => .inr op
    | _ => .inl (.decided .notFound)
  finish r res :=
    match su.stage r with
    | .ok (.inr op) => (r.finish op (.kv res)).getD (.decided .notFound)
    | _ => .decided .notFound

/-- Requests handled one at a time, on the map of the records. -/
def requestSpec : SeqSpec (Bytes → Option Bytes) Incoming Outcome :=
  (mapSpec Bytes Bytes).through su.handlers

variable {T : Type}

/-- The event of the atomic object of requests. -/
def requestEvent : Event T → Option (CallEvent T Incoming Outcome)
  | .receive t r => if su.onRecords r then some (.invoke t r) else none
  | .settle t => some (.effect t)
  | .engine (t, a) => if a.takesEffect then some (.effect t) else none
  | .reply t r outcome => if su.onRecords r then some (.respond t r outcome) else none

/-- The event of the callers. -/
def callerEvent : Event T → Option (CallerEvent T (KvOp Bytes Bytes) (KvRes Bytes) Incoming Outcome)
  | .receive t r => if su.onRecords r then some (.receive t r) else none
  | .settle t => some (.settle t)
  | .engine x => (callEvent x).map .object
  | .reply t r outcome => if su.onRecords r then some (.reply t r outcome) else none

/-- The task of a thread, unless it is with the statistics. -/
def visible : Task Incoming Outcome → Task Incoming Outcome
  | .idle => .idle
  | .begun r => if su.onRecords r then .begun r else .idle
  | .calling r => if su.onRecords r then .calling r else .idle
  | .ended r outcome => if su.onRecords r then .ended r outcome else .idle

end Setup

/-- An atomic step is an effect, or nothing the object notices. -/
theorem callEvent_of_advance {T : Type} {t : T} {a : Act Bytes Bytes} (hcall : ∀ op, a ≠ .call op)
    (hret : ∀ op res, a ≠ .ret op res) :
    callEvent (t, a) = if a.takesEffect then some (.effect t) else none := by
  cases a with
  | call op => exact absurd rfl (hcall op)
  | ret op res => exact absurd rfl (hret op res)
  | _ => rfl

section Simulation

variable {T : Type} [DecidableEq T] {cfg : Config Bytes T} {su : Setup} {s s' : State cfg}
  {e : Event T}

omit [DecidableEq T] in
/-- The callers' events are those of the requests. -/
theorem callerEvent_outer (e : Event T) :
    (su.callerEvent e).bind CallerEvent.outer = su.requestEvent e := by
  cases e with
  | receive t r => by_cases h : su.onRecords r <;> simp [Setup.callerEvent, Setup.requestEvent, h,
      CallerEvent.outer]
  | settle t => rfl
  | reply t r outcome => by_cases h : su.onRecords r <;> simp [Setup.callerEvent,
      Setup.requestEvent, h, CallerEvent.outer]
  | engine x =>
    obtain ⟨t, a⟩ := x
    cases a with
    | call op => cases op <;> rfl
    | ret op res => cases op <;> cases res <;> rfl
    | casHead exchanged => cases exchanged <;> rfl
    | casNext exchanged => cases exchanged <;> rfl
    | getHead node => cases node <;> rfl
    | getNext node => cases node <;> rfl
    | _ => rfl

omit [DecidableEq T] in
/-- What a stage tells about the work. -/
theorem stage_cases {r : Incoming} {x : Outcome ⊕ Op Bytes Bytes} (h : su.stage r = .ok x) :
    (su.onRecords r = true ∧ ((∃ outcome, x = .inl outcome) ∨ ∃ op, x = .inr (.kv op))) ∨
    (su.onRecords r = false ∧ x = .inr .readStatistics) := by
  unfold Setup.stage at h
  unfold Setup.onRecords
  cases hwork : su.work r with
  | record request =>
    rw [hwork] at h
    cases hstage : request.stage r.failures su.rapidjson with
    | error fault => simp [hstage, Except.map] at h
    | ok stage =>
      simp only [hstage, Except.map, Except.ok.injEq] at h
      subst h
      cases stage with
      | replies reply => exact .inl ⟨rfl, .inl ⟨_, rfl⟩⟩
      | calls op => exact .inl ⟨rfl, .inr ⟨op, rfl⟩⟩
  | statistics =>
    rw [hwork] at h
    cases h
    exact .inr ⟨rfl, rfl⟩
  | other d =>
    rw [hwork] at h
    cases h
    exact .inl ⟨rfl, .inl ⟨_, rfl⟩⟩

omit [DecidableEq T] in
/-- A request is finished with a result of its own kind. -/
theorem result_of_finish {r : Incoming} {op : KvOp Bytes Bytes} {res : Result Bytes Bytes}
    {outcome : Outcome} (h : r.finish (.kv op) res = some outcome) : ∃ res', res = .kv res' := by
  cases res with
  | kv res' => exact ⟨res', rfl⟩
  | _ => cases op <;> cases h

/-- The server stands where the callers around the atomic table do. -/
structure Serves (su : Setup) (s : State cfg)
    (c : CallerState (Table cfg.toHashing Bytes) T (KvOp Bytes Bytes) (KvRes Bytes) Incoming Outcome) :
    Prop where
  object : Simulates s.engine c.object
  task : ∀ t, c.task t = su.visible (s.task t)
  fits : Fits su s

theorem Serves.update {engine' : Engine.State cfg Bytes}
    {c : CallerState (Table cfg.toHashing Bytes) T (KvOp Bytes Bytes) (KvRes Bytes) Incoming Outcome}
    (hs : Serves su s c) {object} (hobj : Simulates engine' object) {t : T}
    {task : Task Incoming Outcome}
    (hfits : Fits su (⟨engine', Function.update s.task t task⟩ : State cfg)) :
    Serves su ⟨engine', Function.update s.task t task⟩
      ⟨object, Function.update c.task t (su.visible task)⟩ where
  object := hobj
  fits := hfits
  task u := by
    by_cases hu : u = t
    · subst hu
      simp
    · simpa [hu] using hs.task u

/-- **One step of the server** is a step of the callers, or none. -/
theorem Serves.step
    {c : CallerState (Table cfg.toHashing Bytes) T (KvOp Bytes Bytes) (KvRes Bytes) Incoming Outcome}
    (hs : Serves su s c) (hstep : s.Step su e s') :
    ∃ c', Serves su s' c' ∧ ((su.callerEvent e = none ∧ c' = c) ∨
      ∃ f, su.callerEvent e = some f ∧
        su.handlers.Step (tableSpec cfg.toHashing Bytes) c f c') := by
  have hmoves := moves_of_step hstep
  have hfits := hs.fits.moves hmoves
  -- a request for the statistics is not seen
  have hhidden : ∀ {engine' t task}, Simulates engine' c.object → su.visible task = c.task t →
      Fits su (⟨engine', Function.update s.task t task⟩ : State cfg) →
      Serves su ⟨engine', Function.update s.task t task⟩ c := by
    intro engine' t task hobj hsame hf
    have hup := hs.update hobj hf
    rwa [hsame, Function.update_eq_self] at hup
  cases hmoves with
  | @receive t r h =>
    by_cases hr : su.onRecords r = true
    · have hidle : c.task t = .idle := by rw [hs.task, h]; rfl
      refine ⟨_, hs.update hs.object hfits, .inr ⟨.receive t r, by simp [Setup.callerEvent, hr], ?_⟩⟩
      rw [Setup.visible, if_pos hr]
      exact .receive hidle
    · refine ⟨c, hhidden hs.object ?_ hfits, .inl ⟨by simp [Setup.callerEvent, hr], rfl⟩⟩
      rw [hs.task, h]
      exact if_neg hr
  | @settle t r outcome h hstage =>
    have hr : su.onRecords r = true := by
      obtain ⟨hr, -⟩ | ⟨-, hx⟩ := stage_cases hstage
      · exact hr
      · cases hx
    have hbegun : c.task t = .begun r := by rw [hs.task, h, Setup.visible, if_pos hr]
    refine ⟨_, hs.update hs.object hfits, .inr ⟨.settle t, rfl, ?_⟩⟩
    rw [Setup.visible, if_pos hr]
    exact .settle hbegun (by simp [Setup.handlers, hstage])
  | @call t r op h hstage hidle =>
    obtain ⟨object, hobj, hcase⟩ := simulates_step hs.object (Moves.engine (.call h hstage hidle))
    obtain ⟨hr, ⟨_, hx⟩ | ⟨op', hx⟩⟩ | ⟨hr, hx⟩ := stage_cases hstage
    · cases hx
    · cases hx
      have hbegun : c.task t = .begun r := by rw [hs.task, h, Setup.visible, if_pos hr]
      obtain ⟨hnone, -⟩ | ⟨f, hf, hinner⟩ := hcase
      · cases hnone
      · cases hf
        refine ⟨_, hs.update hobj hfits, .inr ⟨_, rfl, ?_⟩⟩
        rw [Setup.visible, if_pos hr]
        exact .invoke hbegun (by simp [Setup.handlers, hstage]) hinner
    · cases hx
      obtain ⟨-, rfl⟩ | ⟨f, hf, -⟩ := hcase
      · refine ⟨c, hhidden hobj ?_ hfits, .inl ⟨rfl, rfl⟩⟩
        rw [hs.task, h]
        simp [Setup.visible, hr]
      · cases hf
  | @advance t r a engine' h hadv hcall hret =>
    obtain ⟨object, hobj, hcase⟩ := simulates_step hs.object hadv
    have hkeep : Serves su (⟨engine', s.task⟩ : State cfg) ⟨object, c.task⟩ := ⟨hobj, hs.task, hfits⟩
    rw [callEvent_of_advance hcall hret] at hcase
    obtain ⟨hnone, rfl⟩ | ⟨f, hf, hinner⟩ := hcase
    · refine ⟨_, hkeep, .inl ⟨?_, rfl⟩⟩
      rw [Setup.callerEvent, callEvent_of_advance hcall hret, hnone]
      rfl
    · obtain rfl : f = .effect t := by
        split at hf <;> cases hf
        rfl
      refine ⟨_, hkeep, .inr ⟨.object (.effect t), ?_, .effect hinner⟩⟩
      rw [Setup.callerEvent, callEvent_of_advance hcall hret, hf]
      rfl
  | @ret t r op res outcome h hpc hfinish =>
    have hmove : Moves su s (.engine (t, .ret op res)) _ := .ret h hpc hfinish
    obtain ⟨object, hobj, hcase⟩ := simulates_step hs.object hmove.engine
    obtain ⟨op', hstage, hop⟩ := hs.fits.calling t r h
    obtain rfl : op = op' := by simpa [hpc, Pc.op] using hop
    obtain ⟨hr, ⟨_, hx⟩ | ⟨op', hx⟩⟩ | ⟨hr, hx⟩ := stage_cases hstage
    · cases hx
    · cases hx
      obtain ⟨res', rfl⟩ := result_of_finish hfinish
      have hcalling : c.task t = .calling r := by rw [hs.task, h, Setup.visible, if_pos hr]
      have hreply : su.handlers.finish r res' = outcome := by
        simp [Setup.handlers, hstage, hfinish]
      obtain ⟨hnone, -⟩ | ⟨f, hf, hinner⟩ := hcase
      · cases hnone
      · cases hf
        refine ⟨_, hs.update hobj hfits, .inr ⟨_, rfl, ?_⟩⟩
        rw [Setup.visible, if_pos hr, ← hreply]
        exact .respond hcalling hinner
    · cases hx
      obtain ⟨-, rfl⟩ | ⟨f, hf, -⟩ := hcase
      · refine ⟨c, hhidden hobj ?_ hfits, .inl ⟨by cases res <;> rfl, rfl⟩⟩
        rw [hs.task, h]
        simp [Setup.visible, hr]
      · cases res <;> cases hf
  | @reply t r outcome h =>
    by_cases hr : su.onRecords r = true
    · have hended : c.task t = .ended r outcome := by rw [hs.task, h, Setup.visible, if_pos hr]
      refine ⟨_, hs.update hs.object hfits,
        .inr ⟨.reply t r outcome, by simp [Setup.callerEvent, hr], .reply hended⟩⟩
    · refine ⟨c, hhidden hs.object ?_ hfits, .inl ⟨by simp [Setup.callerEvent, hr], rfl⟩⟩
      rw [hs.task, h]
      exact (if_neg hr).symm

/-- What the server does from a quiet state on is what the callers do. -/
theorem Serves.run {es : List (Event T)}
    {c : CallerState (Table cfg.toHashing Bytes) T (KvOp Bytes Bytes) (KvRes Bytes) Incoming Outcome}
    (hs : Serves su s c) (hrun : Run (State.Step su) s es s') :
    ∃ c', Run (su.handlers.Step (tableSpec cfg.toHashing Bytes)) c (es.filterMap su.callerEvent) c' ∧
      Serves su s' c' :=
  hrun.simulate (Serves su) su.callerEvent (fun _ _ _ _ hc hstep => hc.step hstep) hs

omit [DecidableEq T] in
/-- The quiet server around an engine that holds a table. -/
theorem Serves.quiet {engine : Engine.State cfg Bytes} {tab : Table cfg.toHashing Bytes}
    (hobj : Simulates engine ⟨tab, fun _ => .idle⟩) (hidle : ∀ t, engine.pc t = .idle) :
    Serves su (State.around engine) ⟨⟨tab, fun _ => .idle⟩, fun _ => .idle⟩ :=
  ⟨hobj, fun _ => rfl, Fits.around hidle⟩

/-- A run around an engine that holds a table is a run of the requests on its map, and the table
afterwards is the map of that run. -/
theorem requests_of_run {engine : Engine.State cfg Bytes} {tab : Table cfg.toHashing Bytes}
    (hobj : Simulates engine ⟨tab, fun _ => .idle⟩) (hidle : ∀ t, engine.pc t = .idle)
    {es : List (Event T)} (hrun : Run (State.Step su) (State.around engine) es s) :
    ∃ (a : AtomicState (Bytes → Option Bytes) T Incoming Outcome)
      (object : AtomicState (Table cfg.toHashing Bytes) T (KvOp Bytes Bytes) (KvRes Bytes)),
      Run su.requestSpec.Step ⟨tab.toMap, fun _ => .idle⟩ (es.filterMap su.requestEvent) a ∧
      Simulates s.engine object ∧ a.obj = object.obj.toMap ∧
      (∀ t r outcome, s.task t = .ended r outcome → su.onRecords r = true →
        a.status t = .done r outcome) ∧
      Fits su s := by
  obtain ⟨c, hcallers, hserves⟩ := (Serves.quiet hobj hidle).run hrun
  obtain ⟨b, hb, hshows⟩ := (Caller.Shows.quiet tab).run hcallers
  have hevents : (es.filterMap su.callerEvent).filterMap CallerEvent.outer =
      es.filterMap su.requestEvent := by
    rw [List.filterMap_filterMap]
    exact congrArg (es.filterMap ·) (funext callerEvent_outer)
  rw [hevents] at hb
  have hmap := (table_abstracts_map.through su.handlers).run_between hb
  refine ⟨_, c.object, hmap, hserves.object, congrArg Table.toMap hshows.obj, ?_, hserves.fits⟩
  intro t r outcome htask hr
  rw [hshows.status, hserves.task, htask, Setup.visible, if_pos hr]
  rfl

end Simulation

end LockFreeKV.Server
