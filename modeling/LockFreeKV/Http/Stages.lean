import LockFreeKV.Engine.Sequential
import LockFreeKV.Http.Exceptions

/-!
# The handlers around their engine call

A handler of a record calls the engine at most once. Its stage in front of the call is a
reply or the operation; behind the call the reply is made from the result. Between the
two any number of other threads use the engine.
-/
namespace LockFreeKV.Http

open LockFreeKV.Lib LockFreeKV.Engine

/-- What a handler has come to without the engine. -/
inductive Stage
  | replies (reply : Reply)
  | calls (op : KvOp Bytes Bytes)

section Stages

variable (failures : FailPoint → Bool)

/-- The `catch` block. -/
def errorReply (body : JsonBody) : Reply :=
  ⟨500, body.add "error" .literal (ofString "Server internal error"), leftScope⟩

/-- `return crow::response(code, body)` inside the `try` block. -/
def replyWith (code : Nat) (body : JsonBody) : Reply :=
  if failures .response then errorReply body else ⟨code, body, inScope⟩

/-- `GET` up to `get`. -/
def getStage (nameRaw : Bytes) : Except Fault Stage :=
  if failures .urlDecode then .ok (.replies (errorReply .empty))
  else do
    let name ← urlDecode nameRaw
    let body := JsonBody.empty.add "name" .name name
    if failures .addName then return .replies (errorReply .empty)
    else if name = [] then
      return .replies (replyWith failures 400 (body.add "error" .literal nameEmpty))
    else return .calls (.get name)

/-- `POST` up to `set`. -/
def postStage (R : Rapidjson) (nameRaw reqBody : Bytes) : Except Fault Stage :=
  if failures .urlDecode then .ok (.replies (errorReply .empty))
  else do
    let name ← urlDecode nameRaw
    let body := JsonBody.empty.add "name" .name name
    if failures .addName then return .replies (errorReply .empty)
    else if name = [] then
      return .replies (replyWith failures 400 (body.add "error" .literal nameEmpty))
    else if failures .parseRequest then return .replies (errorReply body)
    else
      match requestValue R reqBody with
      | .error message =>
        return .replies (replyWith failures 400 (body.add "error" .literal message))
      | .ok value =>
        if failures .setAllocation then return .replies (errorReply body)
        else return .calls (.set name value)

def RecordRequest.stage (R : Rapidjson) : RecordRequest → Except Fault Stage
  | .get nameRaw => getStage failures nameRaw
  | .post nameRaw reqBody => postStage failures R nameRaw reqBody

/-- `GET` behind `get`. -/
def getReply (name : Bytes) : Option Bytes → Reply
  | none =>
    replyWith failures 404 ((JsonBody.empty.add "name" .name name).add "error" .literal
      (ofString "Item not found"))
  | some value =>
    if failures .copyValue then errorReply (JsonBody.empty.add "name" .name name)
    else replyWith failures 200 ((JsonBody.empty.add "name" .name name).add "value" .value value)

/-- `POST` behind `set`. -/
def setReply (name : Bytes) : Reply := replyWith failures 200 (JsonBody.empty.add "name" .name name)

/-- The reply that a handler makes from the result of its call. -/
def finish : Op Bytes Bytes → Result Bytes Bytes → Option Reply
  | .kv (.get name), .kv (.found r) => some (getReply failures name r)
  | .kv (.set name _), .kv .stored => some (setReply failures name)
  | _, _ => none

/-- A stage completed on an engine that nobody else uses. -/
def Stage.complete {h : Hashing Bytes} (engine : DataEngine h Bytes) :
    Stage → Reply × DataEngine h Bytes
  | .replies reply => (reply, engine)
  | .calls (.get name) => (getReply failures name (engine.get name).1, (engine.get name).2)
  | .calls (.set name value) => (setReply failures name, engine.set name value)

variable {failures} {h : Hashing Bytes} {engine : DataEngine h Bytes}

theorem respond_eq (code : Nat) (body : JsonBody) :
    respond failures code body engine = (replyWith failures code body, engine) := by
  unfold respond replyWith
  split <;> rfl

theorem getRecord_stage (nameRaw : Bytes) :
    getRecord failures engine nameRaw =
      (getStage failures nameRaw).map (Stage.complete failures engine) := by
  unfold getRecord getStage
  split
  · rfl
  cases urlDecode nameRaw with
  | error fault => rfl
  | ok name =>
    simp only [bind, Except.bind, pure, Except.pure, DataEngine.get, respond_eq]
    split
    · rfl
    split
    · rfl
    · simp only [Except.map, Stage.complete, DataEngine.get]
      cases engine.table.toMap name with
      | none => rfl
      | some value =>
        simp only [getReply]
        split <;> rfl

theorem postRecord_stage (R : Rapidjson) (nameRaw reqBody : Bytes) :
    postRecord failures R engine nameRaw reqBody =
      (postStage failures R nameRaw reqBody).map (Stage.complete failures engine) := by
  unfold postRecord postStage
  split
  · rfl
  cases urlDecode nameRaw with
  | error fault => rfl
  | ok name =>
    simp only [bind, Except.bind, pure, Except.pure, respond_eq]
    split
    · rfl
    split
    · rfl
    split
    · rfl
    cases requestValue R reqBody with
    | error message => rfl
    | ok value =>
      simp only
      split <;> rfl

/-- **The stages make up the handler.** -/
theorem RecordRequest.run_stage (R : Rapidjson) (request : RecordRequest) :
    request.run failures R engine =
      (request.stage failures R).map (Stage.complete failures engine) := by
  cases request with
  | get nameRaw => exact getRecord_stage nameRaw
  | post nameRaw reqBody => exact postRecord_stage R nameRaw reqBody

/-- The engine call of a stage, and the reply made from its result. -/
theorem finish_call (op : KvOp Bytes Bytes) :
    finish failures (.kv op) (engine.call (.kv op)).1 =
      some ((Stage.calls op).complete failures engine).1 ∧
    ((Stage.calls op).complete failures engine).2 = (engine.call (.kv op)).2 := by
  cases op <;> exact ⟨rfl, rfl⟩

/-! ## The stages of a request with a name -/

theorem getStage_eq {nameRaw name : Bytes} (hname : urlDecode nameRaw = .ok name)
    (hne : name ≠ []) :
    getStage failures nameRaw = .ok (if throwsEarly failures then .replies (errorReply .empty)
      else .calls (.get name)) := by
  unfold getStage throwsEarly
  cases failures .urlDecode with
  | true => rfl
  | false =>
    simp only [hname, bind, Except.bind, if_neg hne]
    cases failures .addName <;> rfl

/-- **When a `GET` comes to its lookup.** -/
theorem getStage_calls_iff {nameRaw : Bytes} {op : KvOp Bytes Bytes} :
    getStage failures nameRaw = .ok (.calls op) ↔ throwsEarly failures = false ∧
      ∃ name, urlDecode nameRaw = .ok name ∧ name ≠ [] ∧ op = .get name := by
  unfold getStage throwsEarly
  cases failures .urlDecode with
  | true => simp
  | false =>
    cases urlDecode nameRaw with
    | error fault => simp [bind, Except.bind]
    | ok name =>
      cases failures .addName with
      | true => simp [bind, Except.bind, pure, Except.pure]
      | false =>
        by_cases hne : name = []
        · simp [bind, Except.bind, pure, Except.pure, hne]
        · simp [bind, Except.bind, pure, Except.pure, hne, eq_comm]

/-- **When a `POST` comes to `set`.** -/
theorem postStage_calls_iff {R : Rapidjson} {nameRaw reqBody : Bytes} {op : KvOp Bytes Bytes} :
    postStage failures R nameRaw reqBody = .ok (.calls op) ↔
      (throwsEarly failures = false ∧ failures .parseRequest = false ∧
        failures .setAllocation = false) ∧
      ∃ name value, urlDecode nameRaw = .ok name ∧ name ≠ [] ∧
        posted R (cStr reqBody) = some value ∧ op = .set name value := by
  simp only [← requestValue_eq_ok]
  unfold postStage throwsEarly
  cases failures .urlDecode with
  | true => simp
  | false =>
    cases urlDecode nameRaw with
    | error fault => simp [bind, Except.bind]
    | ok name =>
      cases failures .addName with
      | true => simp [bind, Except.bind, pure, Except.pure]
      | false =>
        by_cases hne : name = []
        · simp [bind, Except.bind, pure, Except.pure, hne]
        cases failures .parseRequest with
        | true => simp [bind, Except.bind, pure, Except.pure, hne]
        | false =>
          cases requestValue R reqBody with
          | error message => simp [bind, Except.bind, pure, Except.pure, hne]
          | ok value =>
            cases failures .setAllocation <;>
              simp [bind, Except.bind, pure, Except.pure, hne, eq_comm]

/-- A `POST` sets the name it carries, or has its reply without the engine. -/
theorem postStage_cases (failures : FailPoint → Bool) (R : Rapidjson) {nameRaw name : Bytes}
    (reqBody : Bytes) (hname : urlDecode nameRaw = .ok name) :
    (∃ reply, postStage failures R nameRaw reqBody = .ok (.replies reply)) ∨
    ∃ value, postStage failures R nameRaw reqBody = .ok (.calls (.set name value)) := by
  unfold postStage
  split
  · exact .inl ⟨_, rfl⟩
  simp only [hname, bind, Except.bind, pure, Except.pure]
  split
  · exact .inl ⟨_, rfl⟩
  split
  · exact .inl ⟨_, rfl⟩
  split
  · exact .inl ⟨_, rfl⟩
  cases requestValue R reqBody with
  | error message => exact .inl ⟨_, rfl⟩
  | ok value =>
    simp only
    split
    · exact .inl ⟨_, rfl⟩
    · exact .inr ⟨value, rfl⟩

/-- A 404 means that the lookup has found nothing and that the reply could be built. -/
theorem getReply_code_iff (failures : FailPoint → Bool) (name : Bytes) (r : Option Bytes) :
    (getReply failures name r).code = 404 ↔ r = none ∧ failures .response = false := by
  cases r with
  | none => cases hfail : failures .response <;> simp [getReply, replyWith, hfail, errorReply]
  | some value =>
    cases hcopy : failures .copyValue <;> cases hfail : failures .response <;>
      simp [getReply, replyWith, hcopy, hfail, errorReply]

end Stages

end LockFreeKV.Http
