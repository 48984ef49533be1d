import LockFreeKV.Lib.Run
import Mathlib.Logic.Function.Basic

/-!
# Atomic objects

A sequential specification says what one operation does to a value. Its atomic
object is the transition system in which threads invoke operations, each
operation takes effect in one indivisible step between its invocation and its
response, and the response carries the result of that step. A system whose
events project to runs of an atomic object is linearizable, the projected effect
events being the linearization points.
-/
namespace LockFreeKV.Lib

variable {A B T Op Res : Type*}

/-- What an operation does to a value, and what it returns. -/
structure SeqSpec (A Op Res : Type*) where
  init : A
  apply : Op → A → A × Res

/-- Where a thread stands with its current operation. -/
inductive Status (Op Res : Type*)
  | idle
  | pending (op : Op)
  | done (op : Op) (res : Res)

inductive CallEvent (T Op Res : Type*)
  | invoke (t : T) (op : Op)
  | effect (t : T)
  | respond (t : T) (op : Op) (res : Res)

structure AtomicState (A T Op Res : Type*) where
  obj : A
  status : T → Status Op Res

namespace SeqSpec

variable [DecidableEq T]

/-- The object's initial value, no operation running. -/
def start (spec : SeqSpec A Op Res) : AtomicState A T Op Res where
  obj := spec.init
  status := fun _ => .idle

/-- One step of the atomic object: an invocation, an effect or a response. -/
inductive Step (spec : SeqSpec A Op Res) :
    AtomicState A T Op Res → CallEvent T Op Res → AtomicState A T Op Res → Prop
  | invoke {a : AtomicState A T Op Res} {t : T} {op : Op} (h : a.status t = .idle) :
      Step spec a (.invoke t op) ⟨a.obj, Function.update a.status t (.pending op)⟩
  | effect {a : AtomicState A T Op Res} {t : T} {op : Op} (h : a.status t = .pending op) :
      Step spec a (.effect t) ⟨(spec.apply op a.obj).1,
        Function.update a.status t (.done op (spec.apply op a.obj).2)⟩
  | respond {a : AtomicState A T Op Res} {t : T} {op : Op} {res : Res}
      (h : a.status t = .done op res) :
      Step spec a (.respond t op res) ⟨a.obj, Function.update a.status t .idle⟩

/-- `f` abstracts the values of one specification to those of another. -/
structure Abstracts (spec : SeqSpec A Op Res) (spec' : SeqSpec B Op Res) (f : A → B) : Prop where
  init : f spec.init = spec'.init
  apply : ∀ op a, spec'.apply op (f a) = (f (spec.apply op a).1, (spec.apply op a).2)

/-- An abstraction of the values carries every run over, events included. -/
theorem Abstracts.run {spec : SeqSpec A Op Res} {spec' : SeqSpec B Op Res} {f : A → B}
    (hf : spec.Abstracts spec' f) {es : List (CallEvent T Op Res)} {a : AtomicState A T Op Res}
    (h : Run spec.Step spec.start es a) :
    Run spec'.Step spec'.start es ⟨f a.obj, a.status⟩ := by
  let abs (m : AtomicState A T Op Res) : AtomicState B T Op Res := ⟨f m.obj, m.status⟩
  have hstep : ∀ m b e m', b = abs m → spec.Step m e m' → ∃ b', b' = abs m' ∧
      ((some e = none ∧ b' = b) ∨ ∃ e', some e = some e' ∧ spec'.Step b e' b') := by
    rintro m b e m' rfl hs
    refine ⟨abs m', rfl, .inr ⟨e, rfl, ?_⟩⟩
    cases hs with
    | invoke hidle => exact .invoke hidle
    | @effect t op hpending =>
      have heff : spec'.Step (abs m) (.effect t) ⟨(spec'.apply op (f m.obj)).1,
          Function.update m.status t (.done op (spec'.apply op (f m.obj)).2)⟩ := .effect hpending
      simpa only [hf.apply] using heff
    | respond hdone => exact .respond hdone
  have hstart : spec'.start = abs spec.start := by simp [abs, start, hf.init]
  obtain ⟨b, hrun, rfl⟩ := h.simulate (fun m b => b = abs m) some hstep hstart
  rwa [List.filterMap_some] at hrun

/-- The same for a run between any two states. -/
theorem Abstracts.run_between {spec : SeqSpec A Op Res} {spec' : SeqSpec B Op Res} {f : A → B}
    (hf : spec.Abstracts spec' f) {es : List (CallEvent T Op Res)} {a a' : AtomicState A T Op Res}
    (h : Run spec.Step a es a') :
    Run spec'.Step ⟨f a.obj, a.status⟩ es ⟨f a'.obj, a'.status⟩ := by
  induction h with
  | nil => exact .nil
  | @snoc m a' es e _ hs ih =>
    refine ih.snoc ?_
    cases hs with
    | invoke hidle => exact .invoke hidle
    | @effect t op hpending =>
      have heff : spec'.Step ⟨f m.obj, m.status⟩ (.effect t) _ := .effect hpending
      simpa only [hf.apply] using heff
    | respond hdone => exact .respond hdone

/-! ## Restarts -/

/-- Runs one after another, each from the value that the one before has left. Operations that
are under way at the end of a run are forgotten. -/
inductive Sessions (spec : SeqSpec A Op Res) : A → List (List (CallEvent T Op Res)) → A → Prop
  | nil (obj : A) : Sessions spec obj [] obj
  | cons {obj obj' : A} {es : List (CallEvent T Op Res)} {ess : List (List (CallEvent T Op Res))}
      {a : AtomicState A T Op Res} (h : Run spec.Step ⟨obj, fun _ => .idle⟩ es a)
      (hrest : Sessions spec a.obj ess obj') : Sessions spec obj (es :: ess) obj'

theorem Sessions.split {spec : SeqSpec A Op Res} {obj obj' : A}
    {ess ess' : List (List (CallEvent T Op Res))} (h : Sessions spec obj (ess ++ ess') obj') :
    ∃ m, Sessions spec obj ess m ∧ Sessions spec m ess' obj' := by
  induction ess generalizing obj with
  | nil => exact ⟨obj, .nil obj, h⟩
  | cons es ess ih =>
    cases h with
    | cons hrun hrest =>
      obtain ⟨m, hleft, hright⟩ := ih hrest
      exact ⟨m, .cons hrun hleft, hright⟩

/-- What no operation destroys survives runs and restarts. -/
theorem Sessions.preserves {spec : SeqSpec A Op Res} {P : A → Prop}
    (hP : ∀ op a, P a → P (spec.apply op a).1) {obj obj' : A}
    {ess : List (List (CallEvent T Op Res))} (h : Sessions spec obj ess obj') (h0 : P obj) :
    P obj' := by
  induction h with
  | nil => exact h0
  | cons hrun _ ih =>
    refine ih (hrun.invariant (fun _ a => P a.obj) h0 fun _ m e m' hm hs => ?_)
    cases hs with
    | effect => exact hP _ _ hm
    | _ => exact hm

end SeqSpec

end LockFreeKV.Lib
