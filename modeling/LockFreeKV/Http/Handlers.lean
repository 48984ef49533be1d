import LockFreeKV.Http.UrlDecode
import LockFreeKV.Engine.Table
import LockFreeKV.Rapidjson

/-!
# The request handlers

A reply is built in a `JsonBody` that refers to its strings without copying them,
and is turned into text when the response is constructed. An exception inside the
`try` block of a handler ends the lifetime of the block's variables and adds an
error to the members that are there. `FailPoint` lists where one can arise; the
results of this development without failures take `noFailure`.
-/
namespace LockFreeKV.Http

open LockFreeKV.Lib LockFreeKV.Engine

/-- What a string reference points into: a literal, or a variable of the `try` block. -/
inductive Owner
  | literal
  | name
  | value
  deriving DecidableEq, Repr

inductive MemberValue
  | string (owner : Owner) (data : Bytes)
  | uint64 (n : UInt64)
  deriving DecidableEq, Repr

/-- `HttpServerHelpers::JsonBody`. -/
structure JsonBody where
  members : List (Bytes × MemberValue)
  deriving DecidableEq, Repr

namespace JsonBody

def empty : JsonBody := ⟨[]⟩

/-- `add` of a string: the value is referred to, with a length of 32 bits. -/
def add (body : JsonBody) (name : String) (owner : Owner) (value : Bytes) : JsonBody :=
  ⟨body.members ++ [(ofString name, .string owner (stringRef value))]⟩

/-- `add` of a counter. -/
def addCounter (body : JsonBody) (name : String) (value : UInt64) : JsonBody :=
  ⟨body.members ++ [(ofString name, .uint64 value)]⟩

def memberJson : MemberValue → Json
  | .string _ data => .string data
  | .uint64 n => .number (ofString (toString n.toNat))

def toJson (body : JsonBody) : Json :=
  .object (body.members.map fun m => (m.1, memberJson m.2))

/-- Every string that is referred to lives. -/
def alive (living : Owner → Bool) (body : JsonBody) : Bool :=
  body.members.all fun m =>
    match m.2 with
    | .string owner _ => living owner
    | .uint64 _ => true

/-- `dump`, without a result when it reads a string that is gone. -/
def dump (R : Rapidjson) (living : Owner → Bool) (body : JsonBody) : Option Bytes :=
  if body.alive living then some (R.accept body.toJson) else none

end JsonBody

/-- A `crow::response` made from a body; `living` tells which variables live at that time. -/
structure Reply where
  code : Nat
  body : JsonBody
  living : Owner → Bool

/-- The text of the reply. -/
def Reply.text (R : Rapidjson) (reply : Reply) : Option Bytes := reply.body.dump R reply.living

/-- The variables of the `try` block are in scope. -/
def inScope : Owner → Bool := fun _ => true

/-- They have been left. -/
def leftScope (owner : Owner) : Bool := owner == .literal

/-- Where the `try` blocks can throw: in `url_decode`, when the name is added to the document and
the allocator of its members is set up, in the copy of the value inside `get`, in the allocator of
the request's document, in an allocation of `set`, and when the response is constructed. Later
members fit into what the first one has allocated. -/
inductive FailPoint
  | urlDecode
  | addName
  | copyValue
  | parseRequest
  | setAllocation
  | response
  deriving DecidableEq, Repr

def noFailure : FailPoint → Bool := fun _ => false

/-- The exception comes while the document has no member. -/
def FailPoint.early : FailPoint → Bool
  | .urlDecode | .addName => true
  | _ => false

/-- A handler throws in front of everything else that it does. -/
def throwsEarly (failures : FailPoint → Bool) : Bool := failures .urlDecode || failures .addName

section Handlers

variable {h : Hashing Bytes} (failures : FailPoint → Bool)

/-- The `catch` block. -/
def serverError (body : JsonBody) (engine : DataEngine h Bytes) : Reply × DataEngine h Bytes :=
  (⟨500, body.add "error" .literal (ofString "Server internal error"), leftScope⟩, engine)

/-- `return crow::response(code, body)` inside the `try` block. -/
def respond (code : Nat) (body : JsonBody) (engine : DataEngine h Bytes) :
    Reply × DataEngine h Bytes :=
  if failures .response then serverError body engine else (⟨code, body, inScope⟩, engine)

def nameEmpty : Bytes := ofString "Item name cannot be empty"

/-- `GET /api/records/<string>`. -/
def getRecord (engine : DataEngine h Bytes) (nameRaw : Bytes) :
    Except Fault (Reply × DataEngine h Bytes) :=
  if failures .urlDecode then .ok (serverError .empty engine)
  else do
    let name ← urlDecode nameRaw
    let body := JsonBody.empty.add "name" .name name
    if failures .addName then return serverError .empty engine
    else if name = [] then
      return respond failures 400 (body.add "error" .literal nameEmpty) engine
    else
      match engine.get name with
      | (none, engine') =>
        return respond failures 404 (body.add "error" .literal (ofString "Item not found")) engine'
      | (some value, engine') =>
        if failures .copyValue then return serverError body engine'
        else return respond failures 200 (body.add "value" .value value) engine'

/-- What the `POST` handler finds in the request's body: the value to store, or the error. -/
def requestValue (R : Rapidjson) (body : Bytes) : Except Bytes Bytes :=
  match R.parse (cStr body) with
  | none => .error (ofString "Invalid JSON syntax in request body")
  | some (.object members) =>
    match members.find? fun m => m.1 = ofString "value" with
    | none =>
      .error (ofString "Request JSON format: root object must have 'value' member")
    | some (_, .string value) => .ok value
    | some _ =>
      .error (ofString
        "Request JSON format: root object's 'value' member must have value of type string")
  | some _ => .error (ofString "Request JSON format: root element must be an Object")

/-- `POST /api/records/<string>`. -/
def postRecord (R : Rapidjson) (engine : DataEngine h Bytes) (nameRaw reqBody : Bytes) :
    Except Fault (Reply × DataEngine h Bytes) :=
  if failures .urlDecode then .ok (serverError .empty engine)
  else do
    let name ← urlDecode nameRaw
    let body := JsonBody.empty.add "name" .name name
    if failures .addName then return serverError .empty engine
    else if name = [] then
      return respond failures 400 (body.add "error" .literal nameEmpty) engine
    else if failures .parseRequest then return serverError body engine
    else
      match requestValue R reqBody with
      | .error message => return respond failures 400 (body.add "error" .literal message) engine
      | .ok value =>
        if failures .setAllocation then return serverError body engine
        else return respond failures 200 body (engine.set name value)

/-- `GET /api/statistics/reads`. -/
def statisticsReads (engine : DataEngine h Bytes) : Reply × DataEngine h Bytes :=
  let reads := engine.getReadStatistics
  let body := ((JsonBody.empty.addCounter "total"
    (reads.successOperations + reads.failedOperations)).addCounter "succeeded"
      reads.successOperations).addCounter "failed" reads.failedOperations
  respond failures 200 body engine

end Handlers

/-! ## The handlers behind the decoder -/

/-- `GET` behind the decoder. -/
theorem getRecord_decoded (failures : FailPoint → Bool) {h : Hashing Bytes}
    (engine : DataEngine h Bytes) {nameRaw name : Bytes} (hfail : throwsEarly failures = false)
    (hname : urlDecode nameRaw = .ok name) :
    getRecord failures engine nameRaw = .ok
      (if name = [] then
        respond failures 400
          ((JsonBody.empty.add "name" .name name).add "error" .literal nameEmpty) engine
      else
        match engine.table.toMap name with
        | none =>
          respond failures 404 ((JsonBody.empty.add "name" .name name).add "error" .literal
            (ofString "Item not found")) (engine.get name).2
        | some value =>
          if failures .copyValue then
            serverError (JsonBody.empty.add "name" .name name) (engine.get name).2
          else
            respond failures 200
              ((JsonBody.empty.add "name" .name name).add "value" .value value)
              (engine.get name).2) := by
  obtain ⟨hdecode, hadd⟩ := Bool.or_eq_false_iff.mp hfail
  rw [getRecord, if_neg (by simp [hdecode]), hname]
  simp only [bind, Except.bind, DataEngine.get]
  rw [if_neg (by simp [hadd])]
  by_cases hne : name = []
  · simp only [if_pos hne, pure, Except.pure]
  · simp only [if_neg hne]
    cases engine.table.toMap name with
    | none => rfl
    | some value =>
      simp only [pure, Except.pure]
      split <;> rfl

/-- `POST` behind the decoder. -/
theorem postRecord_decoded (failures : FailPoint → Bool) (R : Rapidjson) {h : Hashing Bytes}
    (engine : DataEngine h Bytes) {nameRaw name : Bytes} (reqBody : Bytes)
    (hfail : throwsEarly failures = false) (hname : urlDecode nameRaw = .ok name) :
    postRecord failures R engine nameRaw reqBody = .ok
      (if name = [] then
        respond failures 400
          ((JsonBody.empty.add "name" .name name).add "error" .literal nameEmpty) engine
      else if failures .parseRequest then
        serverError (JsonBody.empty.add "name" .name name) engine
      else
        match requestValue R reqBody with
        | .error message =>
          respond failures 400
            ((JsonBody.empty.add "name" .name name).add "error" .literal message) engine
        | .ok value =>
          if failures .setAllocation then
            serverError (JsonBody.empty.add "name" .name name) engine
          else
            respond failures 200 (JsonBody.empty.add "name" .name name)
              (engine.set name value)) := by
  obtain ⟨hdecode, hadd⟩ := Bool.or_eq_false_iff.mp hfail
  rw [postRecord, if_neg (by simp [hdecode]), hname]
  simp only [bind, Except.bind, pure, Except.pure]
  rw [if_neg (by simp [hadd])]
  split_ifs
  · rfl
  · rfl
  all_goals
    cases requestValue R reqBody with
    | error message => rfl
    | ok value => rfl

/-! ## Without failures -/

@[simp] theorem JsonBody.dump_inScope (R : Rapidjson) (body : JsonBody) :
    body.dump R inScope = some (R.accept body.toJson) := by
  refine if_pos (List.all_eq_true.mpr fun m _ => ?_)
  cases m.2 <;> rfl

@[simp] theorem respond_noFailure {h : Hashing Bytes} (code : Nat) (body : JsonBody)
    (engine : DataEngine h Bytes) :
    respond noFailure code body engine = (⟨code, body, inScope⟩, engine) := rfl

theorem getRecord_eq {h : Hashing Bytes} (engine : DataEngine h Bytes) {nameRaw name : Bytes}
    (hname : urlDecode nameRaw = .ok name) (hne : name ≠ []) :
    getRecord noFailure engine nameRaw = .ok
      (match engine.table.toMap name with
      | none =>
        (⟨404, (JsonBody.empty.add "name" .name name).add "error" .literal
          (ofString "Item not found"), inScope⟩, (engine.get name).2)
      | some value =>
        (⟨200, (JsonBody.empty.add "name" .name name).add "value" .value value, inScope⟩,
          (engine.get name).2)) := by
  rw [getRecord_decoded noFailure engine rfl hname, if_neg hne]
  cases engine.table.toMap name <;> simp [noFailure]

theorem postRecord_eq (R : Rapidjson) {h : Hashing Bytes} (engine : DataEngine h Bytes)
    {nameRaw name : Bytes} (reqBody : Bytes) (hname : urlDecode nameRaw = .ok name)
    (hne : name ≠ []) :
    postRecord noFailure R engine nameRaw reqBody = .ok
      (match requestValue R reqBody with
      | .error message =>
        (⟨400, (JsonBody.empty.add "name" .name name).add "error" .literal message, inScope⟩, engine)
      | .ok value =>
        (⟨200, JsonBody.empty.add "name" .name name, inScope⟩, engine.set name value)) := by
  rw [postRecord_decoded noFailure R engine reqBody rfl hname, if_neg hne]
  cases requestValue R reqBody <;> simp [noFailure]

/-- What the router binds to `<string>`: a nonempty piece of the path, without a slash, in a
request line that the HTTP parser has not refused for its size. -/
structure RawSegment where
  bytes : Bytes
  nonempty : bytes ≠ []
  noSlash : '/'.toUInt8 ∉ bytes
  bounded : bytes.length ≤ 80 * 1024

/-- The requests of the interface. -/
inductive Request
  | get (nameRaw : RawSegment)
  | post (nameRaw : RawSegment) (body : Bytes)
  | statistics

variable {h : Hashing Bytes}

/-- One request, without a failure. -/
def handle (R : Rapidjson) (engine : DataEngine h Bytes) :
    Request → Except Fault (Reply × DataEngine h Bytes)
  | .get nameRaw => getRecord noFailure engine nameRaw.bytes
  | .post nameRaw body => postRecord noFailure R engine nameRaw.bytes body
  | .statistics => .ok (statisticsReads noFailure engine)

/-- Requests handled one after another. -/
def serve (R : Rapidjson) (engine : DataEngine h Bytes) :
    List Request → Except Fault (List Reply × DataEngine h Bytes)
  | [] => .ok ([], engine)
  | request :: requests => do
    let (reply, engine') ← handle R engine request
    let (replies, engine'') ← serve R engine' requests
    return (reply :: replies, engine'')

end LockFreeKV.Http
