import LockFreeKV.Lib.AtomicObject

/-!
# Requests that make one call

A caller replies to a request by itself, or calls one operation of an object and makes its
reply from the result. `SeqSpec.through` does both at once. Callers that run concurrently
around an atomic object are an atomic object of requests: a request takes effect where its
operation does, or where its reply is made without one.
-/
namespace LockFreeKV.Lib

variable {A T Op Res Req Rep : Type*}

/-- What a request comes to: its reply, or an operation, and the reply made from the result. -/
structure Caller (Req Rep Op Res : Type*) where
  stage : Req → Rep ⊕ Op
  finish : Req → Res → Rep

/-- The requests of a caller as operations on the object. -/
def SeqSpec.through (spec : SeqSpec A Op Res) (c : Caller Req Rep Op Res) : SeqSpec A Req Rep where
  init := spec.init
  apply req a :=
    match c.stage req with
    | .inl rep => (a, rep)
    | .inr op => ((spec.apply op a).1, c.finish req (spec.apply op a).2)

theorem SeqSpec.through_reply {spec : SeqSpec A Op Res} {c : Caller Req Rep Op Res} {req : Req}
    {rep : Rep} (h : c.stage req = .inl rep) (a : A) : (spec.through c).apply req a = (a, rep) := by
  simp [through, h]

theorem SeqSpec.through_call {spec : SeqSpec A Op Res} {c : Caller Req Rep Op Res} {req : Req}
    {op : Op} (h : c.stage req = .inr op) (a : A) : (spec.through c).apply req a =
      ((spec.apply op a).1, c.finish req (spec.apply op a).2) := by
  simp [through, h]

/-- An abstraction of the object is one of the requests on it. -/
theorem SeqSpec.Abstracts.through {B : Type*} {spec : SeqSpec A Op Res} {spec' : SeqSpec B Op Res}
    {f : A → B} (hf : spec.Abstracts spec' f) (c : Caller Req Rep Op Res) :
    (spec.through c).Abstracts (spec'.through c) f where
  init := hf.init
  apply req a := by
    cases hstage : c.stage req with
    | inl rep => rw [through_reply hstage, through_reply hstage]
    | inr op => rw [through_call hstage, through_call hstage, hf.apply]

/-- How far a thread has come with a request. -/
inductive Task (Req Rep : Type*)
  | idle
  | begun (req : Req)
  | calling (req : Req)
  | ended (req : Req) (rep : Rep)

def Task.isCalling {Req Rep : Type*} : Task Req Rep → Bool
  | .calling _ => true
  | _ => false

def Task.request {Req Rep : Type*} : Task Req Rep → Option Req
  | .idle => none
  | .begun req | .calling req | .ended req _ => some req

inductive CallerEvent (T Op Res Req Rep : Type*)
  | receive (t : T) (req : Req)
  | settle (t : T)
  | object (e : CallEvent T Op Res)
  | reply (t : T) (req : Req) (rep : Rep)

/-- The event of the atomic object of requests. -/
def CallerEvent.outer : CallerEvent T Op Res Req Rep → Option (CallEvent T Req Rep)
  | .receive t req => some (.invoke t req)
  | .settle t => some (.effect t)
  | .object (.effect t) => some (.effect t)
  | .object (.invoke _ _) => none
  | .object (.respond _ _ _) => none
  | .reply t req rep => some (.respond t req rep)

structure CallerState (A T Op Res Req Rep : Type*) where
  object : AtomicState A T Op Res
  task : T → Task Req Rep

namespace Caller

variable [DecidableEq T] (c : Caller Req Rep Op Res) (spec : SeqSpec A Op Res)

/-- One step of the callers or of the object. -/
inductive Step : CallerState A T Op Res Req Rep → CallerEvent T Op Res Req Rep →
    CallerState A T Op Res Req Rep → Prop
  | receive {s : CallerState A T Op Res Req Rep} {t : T} {req : Req} (h : s.task t = .idle) :
      Step s (.receive t req) ⟨s.object, Function.update s.task t (.begun req)⟩
  | settle {s : CallerState A T Op Res Req Rep} {t : T} {req : Req} {rep : Rep}
      (h : s.task t = .begun req) (hstage : c.stage req = .inl rep) :
      Step s (.settle t) ⟨s.object, Function.update s.task t (.ended req rep)⟩
  | invoke {s : CallerState A T Op Res Req Rep} {t : T} {req : Req} {op : Op}
      {object : AtomicState A T Op Res} (h : s.task t = .begun req)
      (hstage : c.stage req = .inr op) (hs : spec.Step s.object (.invoke t op) object) :
      Step s (.object (.invoke t op)) ⟨object, Function.update s.task t (.calling req)⟩
  | effect {s : CallerState A T Op Res Req Rep} {t : T} {object : AtomicState A T Op Res}
      (hs : spec.Step s.object (.effect t) object) : Step s (.object (.effect t)) ⟨object, s.task⟩
  | respond {s : CallerState A T Op Res Req Rep} {t : T} {req : Req} {op : Op} {res : Res}
      {object : AtomicState A T Op Res} (h : s.task t = .calling req)
      (hs : spec.Step s.object (.respond t op res) object) :
      Step s (.object (.respond t op res))
        ⟨object, Function.update s.task t (.ended req (c.finish req res))⟩
  | reply {s : CallerState A T Op Res Req Rep} {t : T} {req : Req} {rep : Rep}
      (h : s.task t = .ended req rep) :
      Step s (.reply t req rep) ⟨s.object, Function.update s.task t .idle⟩

/-- Where a request stands as an operation, by its task and its operation on the object. -/
def status : Task Req Rep → Status Op Res → Status Req Rep
  | .idle, _ => .idle
  | .begun req, _ => .pending req
  | .calling req, .done _ res => .done req (c.finish req res)
  | .calling req, _ => .pending req
  | .ended req rep, _ => .done req rep

/-- A thread uses the object only while it is calling, for the operation of its request. -/
def Agrees : Task Req Rep → Status Op Res → Prop
  | .calling req, st => ∃ op, c.stage req = .inr op ∧ (st = .pending op ∨ ∃ res, st = .done op res)
  | _, st => st = .idle

/-- The requests stand where their tasks and operations say. -/
structure Shows (s : CallerState A T Op Res Req Rep) (a : AtomicState A T Req Rep) : Prop where
  obj : a.obj = s.object.obj
  agrees : ∀ t, c.Agrees (s.task t) (s.object.status t)
  status : ∀ t, a.status t = c.status (s.task t) (s.object.status t)

variable {c spec}

omit [DecidableEq T] in
/-- Nothing is going on. -/
theorem Shows.quiet (a : A) :
    c.Shows (⟨⟨a, fun _ => .idle⟩, fun _ => .idle⟩ : CallerState A T Op Res Req Rep)
      ⟨a, fun _ => .idle⟩ :=
  ⟨rfl, fun _ => rfl, fun _ => rfl⟩

/-- The frame of a step: one thread's task and operation move on. -/
theorem Shows.update {s : CallerState A T Op Res Req Rep} {a : AtomicState A T Req Rep}
    (hs : c.Shows s a) (obj : A) (t : T) {task : Task Req Rep} {st : Status Op Res}
    (hagrees : c.Agrees task st) :
    c.Shows ⟨⟨obj, Function.update s.object.status t st⟩, Function.update s.task t task⟩
      ⟨obj, Function.update a.status t (c.status task st)⟩ where
  obj := rfl
  agrees t' := by
    by_cases ht : t' = t
    · subst ht
      simpa using hagrees
    · simpa [ht] using hs.agrees t'
  status t' := by
    by_cases ht : t' = t
    · subst ht
      simp
    · simpa [ht] using hs.status t'

/-- **One step of the callers** is a step of the atomic object of requests, or none. -/
theorem Shows.step {s s' : CallerState A T Op Res Req Rep} {a : AtomicState A T Req Rep}
    {e : CallerEvent T Op Res Req Rep} (hs : c.Shows s a) (hstep : Step c spec s e s') :
    ∃ a', c.Shows s' a' ∧ ((e.outer = none ∧ a' = a) ∨
      ∃ f, e.outer = some f ∧ (spec.through c).Step a f a') := by
  have hobj := hs.obj
  -- a step that leaves the thread's operation on the object as it is
  have hkeep : ∀ t task, c.Agrees task (s.object.status t) →
      c.Shows ⟨s.object, Function.update s.task t task⟩
        ⟨a.obj, Function.update a.status t (c.status task (s.object.status t))⟩ := by
    intro t task hagrees
    have hup := hs.update a.obj t hagrees
    rw [Function.update_eq_self] at hup
    rw [hobj] at hup ⊢
    exact hup
  cases hstep with
  | @receive t req h =>
    have hidle : s.object.status t = .idle := by simpa [h, Agrees] using hs.agrees t
    have hstat : a.status t = .idle := by rw [hs.status, h]; rfl
    exact ⟨_, hkeep t (.begun req) hidle, .inr ⟨_, rfl, .invoke hstat⟩⟩
  | @settle t req rep h hstage =>
    have hidle : s.object.status t = .idle := by simpa [h, Agrees] using hs.agrees t
    have hstat : a.status t = .pending req := by rw [hs.status, h]; rfl
    refine ⟨_, hkeep t (.ended req rep) hidle, .inr ⟨_, rfl, ?_⟩⟩
    have heff : (spec.through c).Step a (.effect t) _ := .effect hstat
    rw [SeqSpec.through_reply hstage] at heff
    exact heff
  | @invoke t req op object h hstage hinner =>
    have hstat : a.status t = .pending req := by rw [hs.status, h]; rfl
    cases hinner with
    | invoke hidle =>
      have hagrees : c.Agrees (.calling req) (.pending op) := ⟨op, hstage, .inl rfl⟩
      have hup := hs.update s.object.obj t hagrees
      have hsame : Function.update a.status t (c.status (.calling req) (.pending op)) = a.status := by
        rw [show c.status (.calling req) (.pending op) = a.status t from hstat.symm,
          Function.update_eq_self]
      rw [hsame, ← hobj] at hup
      exact ⟨a, hobj ▸ hup, .inl ⟨rfl, rfl⟩⟩
  | @effect t object hinner =>
    cases hinner with
    | @effect _ op hpending =>
      have hagrees := hs.agrees t
      rw [hpending] at hagrees
      cases htask : s.task t with
      | calling req =>
        rw [htask] at hagrees
        obtain ⟨op', hstage, hop⟩ := hagrees
        obtain rfl : op = op' := by
          rcases hop with hop | ⟨res, hop⟩ <;> cases hop
          rfl
        have hstat : a.status t = .pending req := by rw [hs.status, htask, hpending]; rfl
        have hdone : c.Agrees (.calling req) (.done op (spec.apply op s.object.obj).2) :=
          ⟨op, hstage, .inr ⟨_, rfl⟩⟩
        have hup := hs.update (spec.apply op s.object.obj).1 t hdone
        have hsame : Function.update s.task t (.calling req) = s.task := by
          rw [← htask, Function.update_eq_self]
        rw [hsame] at hup
        refine ⟨_, hup, .inr ⟨_, rfl, ?_⟩⟩
        have heff : (spec.through c).Step a (.effect t) _ := .effect hstat
        rw [SeqSpec.through_call hstage, hobj] at heff
        exact heff
      | _ => rw [htask] at hagrees; cases hagrees
  | @respond t req op res object h hinner =>
    cases hinner with
    | respond hdone =>
      have hstat : a.status t = .done req (c.finish req res) := by rw [hs.status, h, hdone]; rfl
      have hagrees : c.Agrees (.ended req (c.finish req res)) .idle := rfl
      have hup := hs.update s.object.obj t hagrees
      have hsame : Function.update a.status t
          (c.status (.ended req (c.finish req res)) (.idle : Status Op Res)) = a.status := by
        rw [show c.status (.ended req (c.finish req res)) (.idle : Status Op Res) = a.status t
          from hstat.symm, Function.update_eq_self]
      rw [hsame, ← hobj] at hup
      exact ⟨a, hobj ▸ hup, .inl ⟨rfl, rfl⟩⟩
  | @reply t req rep h =>
    have hidle : s.object.status t = .idle := by simpa [h, Agrees] using hs.agrees t
    have hstat : a.status t = .done req rep := by rw [hs.status, h]; rfl
    exact ⟨_, hkeep t .idle hidle, .inr ⟨_, rfl, .respond hstat⟩⟩

/-- Every run of the callers is a run of the atomic object of requests. -/
theorem Shows.run {s s' : CallerState A T Op Res Req Rep} {a : AtomicState A T Req Rep}
    {es : List (CallerEvent T Op Res Req Rep)} (hs : c.Shows s a)
    (hrun : Run (Step c spec) s es s') :
    ∃ a', Run (spec.through c).Step a (es.filterMap CallerEvent.outer) a' ∧ c.Shows s' a' :=
  hrun.simulate c.Shows CallerEvent.outer (fun _ _ _ _ hs hstep => hs.step hstep) hs

end Caller

end LockFreeKV.Lib
