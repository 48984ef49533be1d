import LockFreeKV.Http.Service

/-!
# Exceptions inside the handlers

`throws` is the point at which a request leaves the `try` block. What the engine has
done by then stays done: a lookup has been counted, and an accepted record is in the
map when the construction of its reply fails. The document lives on in the `catch`
block with the members it has, and refers to variables that are gone unless the
exception came before the first of them was added.
-/
namespace LockFreeKV.Http

open LockFreeKV.Lib LockFreeKV.Engine

/-- A request to `/api/records/<string>`. -/
inductive RecordRequest
  | get (nameRaw : Bytes)
  | post (nameRaw reqBody : Bytes)

section Throws

variable {h : Hashing Bytes} (failures : FailPoint → Bool)

/-- The exception of `return crow::response(code, body)`, if there is one. -/
def respondThrows : Option FailPoint := if failures .response then some .response else none

def getThrows (engine : DataEngine h Bytes) (nameRaw : Bytes) : Option FailPoint :=
  if failures .urlDecode then some .urlDecode
  else
    match urlDecode nameRaw with
    | .error _ => none
    | .ok name =>
      if failures .addName then some .addName
      else if name = [] then respondThrows failures
      else
        match engine.table.toMap name with
        | none => respondThrows failures
        | some _ => if failures .copyValue then some .copyValue else respondThrows failures

def postThrows (R : Rapidjson) (nameRaw reqBody : Bytes) : Option FailPoint :=
  if failures .urlDecode then some .urlDecode
  else
    match urlDecode nameRaw with
    | .error _ => none
    | .ok name =>
      if failures .addName then some .addName
      else if name = [] then respondThrows failures
      else if failures .parseRequest then some .parseRequest
      else
        match requestValue R reqBody with
        | .error _ => respondThrows failures
        | .ok _ => if failures .setAllocation then some .setAllocation else respondThrows failures

namespace RecordRequest

/-- The handler of the request. -/
def run (R : Rapidjson) (engine : DataEngine h Bytes) :
    RecordRequest → Except Fault (Reply × DataEngine h Bytes)
  | .get nameRaw => getRecord failures engine nameRaw
  | .post nameRaw reqBody => postRecord failures R engine nameRaw reqBody

/-- The first point on the handler's path that fails. -/
def throws (R : Rapidjson) (engine : DataEngine h Bytes) : RecordRequest → Option FailPoint
  | .get nameRaw => getThrows failures engine nameRaw
  | .post nameRaw reqBody => postThrows failures R nameRaw reqBody

end RecordRequest

end Throws

/-- What the document of a reply has to be: an object with distinct names, with one error and no
value in a reply about a failure, whose strings live when they are read. -/
structure WellFormed (R : Rapidjson) (reply : Reply) : Prop where
  distinct : (reply.body.members.map Prod.fst).Nodup
  error : 400 ≤ reply.code → ofString "value" ∉ reply.body.members.map Prod.fst ∧
    (reply.body.members.map Prod.fst).count (ofString "error") = 1
  alive : reply.body.alive reply.living = true
  serialised : reply.text R = some (R.accept reply.body.toJson)

/-- How a handler ends that throws at `thrown`. -/
inductive Ends (R : Rapidjson) : Option FailPoint → Reply → Prop
  | answered {code : Nat} {body : JsonBody} (hcode : code < 500)
      (hbody : WellFormed R ⟨code, body, inScope⟩) : Ends R none ⟨code, body, inScope⟩
  | unnamed {p : FailPoint} (hp : p.early = true) : Ends R (some p)
      ⟨500, JsonBody.empty.add "error" .literal (ofString "Server internal error"), leftScope⟩
  | failed {p : FailPoint} {body : JsonBody} (hp : p.early = false)
      (hbody : body.alive leftScope = false) :
      Ends R (some p)
        ⟨500, body.add "error" .literal (ofString "Server internal error"), leftScope⟩

@[simp] theorem JsonBody.alive_empty (living : Owner → Bool) :
    JsonBody.empty.alive living = true := rfl

@[simp] theorem JsonBody.alive_add (living : Owner → Bool) (body : JsonBody) (name : String)
    (owner : Owner) (value : Bytes) :
    (body.add name owner value).alive living = (body.alive living && living owner) := by
  simp [JsonBody.alive, JsonBody.add]

@[simp] theorem JsonBody.names_add (body : JsonBody) (name : String) (owner : Owner)
    (value : Bytes) : (body.add name owner value).members.map Prod.fst =
      body.members.map Prod.fst ++ [ofString name] := by
  simp [JsonBody.add]

/-- A reply whose strings live is the serialisation of its document. -/
theorem text_of_alive (R : Rapidjson) {reply : Reply}
    (halive : reply.body.alive reply.living = true) :
    reply.text R = some (R.accept reply.body.toJson) := if_pos halive

theorem alive_inScope (body : JsonBody) : body.alive inScope = true :=
  List.all_eq_true.mpr fun m _ => by cases m.2 <;> rfl

variable {h : Hashing Bytes} {failures : FailPoint → Bool} {R : Rapidjson}

section Ends

variable {engine : DataEngine h Bytes} {body : JsonBody} {name : Bytes}

/-- The three documents that a handler wants to reply with. -/
theorem wellFormed_stored (name : Bytes) :
    WellFormed R ⟨200, JsonBody.empty.add "name" .name name, inScope⟩ where
  distinct := by simp [JsonBody.empty]
  error hcode := absurd hcode (by decide : ¬ 400 ≤ 200)
  alive := alive_inScope _
  serialised := text_of_alive R (alive_inScope _)

theorem wellFormed_found (name value : Bytes) : WellFormed R
    ⟨200, (JsonBody.empty.add "name" .name name).add "value" .value value, inScope⟩ where
  distinct := by
    have hne : ofString "name" ≠ ofString "value" := by decide
    simpa [JsonBody.empty] using hne
  error hcode := absurd hcode (by decide : ¬ 400 ≤ 200)
  alive := alive_inScope _
  serialised := text_of_alive R (alive_inScope _)

theorem wellFormed_error (code : Nat) (name message : Bytes) : WellFormed R
    ⟨code, (JsonBody.empty.add "name" .name name).add "error" .literal message, inScope⟩ where
  distinct := by
    have hne : ofString "name" ≠ ofString "error" := by decide
    simpa [JsonBody.empty] using hne
  error _ := by
    simp only [JsonBody.names_add, JsonBody.empty, List.map_nil, List.nil_append]
    decide
  alive := alive_inScope _
  serialised := text_of_alive R (alive_inScope _)

/-- A document with the name refers to a variable of the `try` block. -/
theorem dead_name (name : Bytes) : (JsonBody.empty.add "name" .name name).alive leftScope = false := by
  simp [leftScope]

theorem ends_respond {code : Nat} (hcode : code < 500) (hbody : WellFormed R ⟨code, body, inScope⟩)
    (hdead : body.alive leftScope = false) :
    Ends R (respondThrows failures) (respond failures code body engine).1 := by
  unfold respond respondThrows
  split
  · exact .failed (by decide) hdead
  · exact .answered hcode hbody

@[simp] theorem respond_engine (code : Nat) (body : JsonBody) (engine : DataEngine h Bytes) :
    (respond failures code body engine).2 = engine := by
  unfold respond
  split <;> rfl

end Ends

/-- The point at which a handler throws that throws early. -/
def earlyPoint (failures : FailPoint → Bool) : FailPoint :=
  if failures .urlDecode then .urlDecode else .addName

theorem early_earlyPoint (failures : FailPoint → Bool) : (earlyPoint failures).early = true := by
  unfold earlyPoint
  split <;> rfl

theorem early_iff {p : FailPoint} : p.early = true ↔ p = .urlDecode ∨ p = .addName := by
  cases p <;> simp [FailPoint.early]

/-- A reply tells that the handler has thrown early, or that the name has been decoded. -/
theorem getRecord_ok {engine engine' : DataEngine h Bytes} {nameRaw : Bytes} {reply : Reply}
    (hrun : getRecord failures engine nameRaw = .ok (reply, engine')) :
    throwsEarly failures = true ∧ getThrows failures engine nameRaw = some (earlyPoint failures) ∧
      (reply, engine') = serverError .empty engine ∨
    throwsEarly failures = false ∧ ∃ name, urlDecode nameRaw = .ok name := by
  unfold getRecord at hrun
  unfold getThrows throwsEarly earlyPoint
  cases hdecode : failures .urlDecode with
  | true =>
    rw [if_pos hdecode] at hrun
    exact .inl ⟨rfl, rfl, (Except.ok.inj hrun).symm⟩
  | false =>
    rw [if_neg (by simp [hdecode])] at hrun
    cases hname : urlDecode nameRaw with
    | error fault =>
      rw [hname] at hrun
      cases hrun
    | ok name =>
      cases hadd : failures .addName with
      | true =>
        simp only [hname, bind, Except.bind, hadd, if_true] at hrun
        exact .inl ⟨rfl, rfl, (Except.ok.inj hrun).symm⟩
      | false => exact .inr ⟨rfl, name, rfl⟩

theorem postRecord_ok {engine engine' : DataEngine h Bytes} {nameRaw reqBody : Bytes}
    {reply : Reply} (hrun : postRecord failures R engine nameRaw reqBody = .ok (reply, engine')) :
    throwsEarly failures = true ∧
      postThrows failures R nameRaw reqBody = some (earlyPoint failures) ∧
      (reply, engine') = serverError .empty engine ∨
    throwsEarly failures = false ∧ ∃ name, urlDecode nameRaw = .ok name := by
  unfold postRecord at hrun
  unfold postThrows throwsEarly earlyPoint
  cases hdecode : failures .urlDecode with
  | true =>
    rw [if_pos hdecode] at hrun
    exact .inl ⟨rfl, rfl, (Except.ok.inj hrun).symm⟩
  | false =>
    rw [if_neg (by simp [hdecode])] at hrun
    cases hname : urlDecode nameRaw with
    | error fault =>
      rw [hname] at hrun
      cases hrun
    | ok name =>
      cases hadd : failures .addName with
      | true =>
        simp only [hname, bind, Except.bind, hadd, if_true] at hrun
        exact .inl ⟨rfl, rfl, (Except.ok.inj hrun).symm⟩
      | false => exact .inr ⟨rfl, name, rfl⟩

theorem getThrows_decoded (engine : DataEngine h Bytes) {nameRaw name : Bytes}
    (hfail : throwsEarly failures = false) (hname : urlDecode nameRaw = .ok name) :
    getThrows failures engine nameRaw =
      if name = [] then respondThrows failures
      else
        match engine.table.toMap name with
        | none => respondThrows failures
        | some _ => if failures .copyValue then some .copyValue else respondThrows failures := by
  obtain ⟨hdecode, hadd⟩ := Bool.or_eq_false_iff.mp hfail
  rw [getThrows, if_neg (by simp [hdecode]), hname]
  exact if_neg (by simp [hadd])

theorem postThrows_decoded {nameRaw name : Bytes} (reqBody : Bytes)
    (hfail : throwsEarly failures = false) (hname : urlDecode nameRaw = .ok name) :
    postThrows failures R nameRaw reqBody =
      if name = [] then respondThrows failures
      else if failures .parseRequest then some .parseRequest
      else
        match requestValue R reqBody with
        | .error _ => respondThrows failures
        | .ok _ =>
          if failures .setAllocation then some .setAllocation else respondThrows failures := by
  obtain ⟨hdecode, hadd⟩ := Bool.or_eq_false_iff.mp hfail
  rw [postThrows, if_neg (by simp [hdecode]), hname]
  exact if_neg (by simp [hadd])

theorem getRecord_ends {engine engine' : DataEngine h Bytes} {nameRaw : Bytes} {reply : Reply}
    (hrun : getRecord failures engine nameRaw = .ok (reply, engine')) :
    Ends R (getThrows failures engine nameRaw) reply := by
  obtain ⟨-, hthrows, heq⟩ | ⟨hfail, name, hname⟩ := getRecord_ok hrun
  · rw [hthrows, (Prod.mk.inj heq).1]
    exact .unnamed (early_earlyPoint failures)
  · rw [getRecord_decoded failures engine hfail hname] at hrun
    rw [getThrows_decoded engine hfail hname]
    have hreply := congrArg Prod.fst (Except.ok.inj hrun)
    simp only at hreply ⊢
    rw [← hreply]
    split
    · exact ends_respond (by decide) (wellFormed_error ..) (by simp [leftScope])
    · cases engine.table.toMap name with
      | none => exact ends_respond (by decide) (wellFormed_error ..) (by simp [leftScope])
      | some value =>
        simp only
        split
        · exact .failed (by decide) (dead_name name)
        · exact ends_respond (by decide) (wellFormed_found ..) (by simp [leftScope])

theorem postRecord_ends {engine engine' : DataEngine h Bytes} {nameRaw reqBody : Bytes}
    {reply : Reply} (hrun : postRecord failures R engine nameRaw reqBody = .ok (reply, engine')) :
    Ends R (postThrows failures R nameRaw reqBody) reply := by
  obtain ⟨-, hthrows, heq⟩ | ⟨hfail, name, hname⟩ := postRecord_ok hrun
  · rw [hthrows, (Prod.mk.inj heq).1]
    exact .unnamed (early_earlyPoint failures)
  · rw [postRecord_decoded failures R engine reqBody hfail hname] at hrun
    rw [postThrows_decoded reqBody hfail hname]
    have hreply := congrArg Prod.fst (Except.ok.inj hrun)
    simp only at hreply ⊢
    rw [← hreply]
    split
    · exact ends_respond (by decide) (wellFormed_error ..) (by simp [leftScope])
    · split
      · exact .failed (by decide) (dead_name name)
      · cases requestValue R reqBody with
        | error message =>
          exact ends_respond (by decide) (wellFormed_error ..) (by simp [leftScope])
        | ok value =>
          simp only
          split
          · exact .failed (by decide) (dead_name name)
          · exact ends_respond (by decide) (wellFormed_stored name) (dead_name name)

theorem RecordRequest.run_ends {engine engine' : DataEngine h Bytes} {request : RecordRequest}
    {reply : Reply} (hrun : request.run failures R engine = .ok (reply, engine')) :
    Ends R (request.throws failures R engine) reply := by
  cases request with
  | get nameRaw => exact getRecord_ends hrun
  | post nameRaw reqBody => exact postRecord_ends hrun

/-! ## The document on the exception path -/

theorem Ends.wellFormed_iff {thrown : Option FailPoint} {reply : Reply}
    (hends : Ends R thrown reply) :
    WellFormed R reply ↔
      thrown = none ∨ thrown = some .urlDecode ∨ thrown = some .addName := by
  cases hends with
  | answered hcode hbody => exact ⟨fun _ => .inl rfl, fun _ => hbody⟩
  | @unnamed p hp =>
    refine ⟨fun _ => by simpa using early_iff.mp hp,
      fun _ => ⟨?_, fun _ => ?_, rfl, text_of_alive R rfl⟩⟩
    · simp [JsonBody.empty]
    · simp only [JsonBody.names_add, JsonBody.empty, List.map_nil, List.nil_append]
      decide
  | @failed p body hp hbody =>
    constructor
    · intro hwell
      have halive := hwell.alive
      rw [JsonBody.alive_add, hbody] at halive
      cases halive
    · intro hthrown
      have hearly : p.early = true := early_iff.mpr (by simpa using hthrown)
      rw [hp] at hearly
      cases hearly

/-- **When the reply's document is well formed.** Exactly if the handler does not throw, or throws
before the name has been added. -/
theorem reply_wellFormed_iff (failures : FailPoint → Bool) (R : Rapidjson)
    (engine engine' : DataEngine h Bytes) (request : RecordRequest) (reply : Reply)
    (hrun : request.run failures R engine = .ok (reply, engine')) :
    WellFormed R reply ↔ request.throws failures R engine = none ∨
      request.throws failures R engine = some .urlDecode ∨
      request.throws failures R engine = some .addName :=
  (RecordRequest.run_ends hrun).wellFormed_iff

/-- Only the construction of a reply fails. -/
def responseFails : FailPoint → Bool := fun p => p == .response

theorem reply_wellFormed_iff_undecoded : ∃ reply engine',
    (RecordRequest.get (ofString "a")).run (fun _ => true) Rapidjson.reference
      (.new byLength Bytes) = .ok (reply, engine') ∧ WellFormed Rapidjson.reference reply :=
  ⟨_, _, rfl, (reply_wellFormed_iff (fun _ => true) Rapidjson.reference (.new byLength Bytes) _
    (.get (ofString "a")) _ rfl).mpr (.inr (.inl (by decide)))⟩

/-- The 404 cannot be built: its error stays in the document beside the second one, and the name
is gone when the document is read. -/
theorem reply_dangling : ∃ reply engine',
    (RecordRequest.get (ofString "a")).run responseFails Rapidjson.reference
      (.new byLength Bytes) = .ok (reply, engine') ∧
    reply.code = 500 ∧ reply.text Rapidjson.reference = none ∧
    (reply.body.members.map Prod.fst).count (ofString "error") = 2 ∧
    ¬ WellFormed Rapidjson.reference reply := by
  refine ⟨_, _, rfl, rfl, by decide, by decide, fun hwell => ?_⟩
  have hcount := (hwell.error (by decide)).2
  exact absurd hcount (by decide)

/-! ## The engine on the exception path -/

/-- The counters and the map after a `GET`, whatever its reply is. -/
theorem getRecord_engine {engine engine' : DataEngine h Bytes} {nameRaw : Bytes} {reply : Reply}
    (hrun : getRecord failures engine nameRaw = .ok (reply, engine')) :
    (getThrows failures engine nameRaw = some (earlyPoint failures) ∧ engine' = engine) ∨
    throwsEarly failures = false ∧ ∃ name, urlDecode nameRaw = .ok name ∧
      engine' = if name = [] then engine else (engine.get name).2 := by
  obtain ⟨-, hthrows, heq⟩ | ⟨hfail, name, hname⟩ := getRecord_ok hrun
  · exact .inl ⟨hthrows, (Prod.mk.inj heq).2⟩
  · refine .inr ⟨hfail, name, hname, ?_⟩
    rw [getRecord_decoded failures engine hfail hname] at hrun
    have hengine := congrArg Prod.snd (Except.ok.inj hrun)
    simp only at hengine
    rw [← hengine]
    split
    · exact respond_engine ..
    · cases engine.table.toMap name with
      | none => exact respond_engine ..
      | some value =>
        simp only
        split
        · rfl
        · exact respond_engine ..

theorem respondThrows_cases (failures : FailPoint → Bool) :
    respondThrows failures = none ∨ respondThrows failures = some .response := by
  unfold respondThrows
  split
  · exact .inr rfl
  · exact .inl rfl

/-- A record is stored exactly by an accepted `POST` that gets to its reply. -/
theorem postRecord_engine {engine engine' : DataEngine h Bytes} {nameRaw reqBody : Bytes}
    {reply : Reply} (hrun : postRecord failures R engine nameRaw reqBody = .ok (reply, engine')) :
    engine' = engine ∧ (∀ name value, urlDecode nameRaw = .ok name → name ≠ [] →
        requestValue R reqBody = .ok value →
        postThrows failures R nameRaw reqBody ≠ some .response) ∨
    ∃ name value, urlDecode nameRaw = .ok name ∧ name ≠ [] ∧ requestValue R reqBody = .ok value ∧
      engine' = engine.set name value ∧
      (postThrows failures R nameRaw reqBody = none ∨
        postThrows failures R nameRaw reqBody = some .response) := by
  obtain ⟨-, hthrows, heq⟩ | ⟨hfail, name, hname⟩ := postRecord_ok hrun
  · refine .inl ⟨(Prod.mk.inj heq).2, fun name value _ _ _ hresponse => ?_⟩
    have hpoint := early_earlyPoint failures
    rw [hthrows] at hresponse
    rw [Option.some.inj hresponse] at hpoint
    cases hpoint
  · rw [postRecord_decoded failures R engine reqBody hfail hname] at hrun
    have hengine := congrArg Prod.snd (Except.ok.inj hrun)
    rw [postThrows_decoded reqBody hfail hname, hname]
    simp only at hengine ⊢
    rw [← hengine]
    by_cases hne : name = []
    · refine .inl ⟨by rw [if_pos hne, respond_engine], fun name' value hname' hne' => ?_⟩
      obtain rfl : name = name' := Except.ok.inj hname'
      exact absurd hne hne'
    rw [if_neg hne, if_neg hne]
    by_cases hparse : failures .parseRequest = true
    · exact .inl ⟨by rw [if_pos hparse]; rfl, by simp [hparse]⟩
    rw [if_neg hparse, if_neg hparse]
    cases hvalue : requestValue R reqBody with
    | error message => exact .inl ⟨respond_engine .., by simp⟩
    | ok value =>
      by_cases halloc : failures .setAllocation = true
      · exact .inl ⟨by simp [halloc, serverError], by simp [halloc]⟩
      · refine .inr ⟨name, value, rfl, hne, rfl, ?_, ?_⟩
        · simp [halloc]
        · simpa [halloc] using respondThrows_cases failures

/-- What a request leaves in the engine when its handler has thrown at `thrown`. -/
def AfterException (R : Rapidjson) (thrown : Option FailPoint)
    (engine engine' : DataEngine h Bytes) : RecordRequest → Prop
  | .get nameRaw =>
    engine'.table.toMap = engine.table.toMap ∧
    (thrown = some .urlDecode ∨ thrown = some .addName ∨ urlDecode nameRaw = .ok [] →
      engine' = engine) ∧
    ∀ name, urlDecode nameRaw = .ok name → name ≠ [] → thrown ≠ some .urlDecode →
      thrown ≠ some .addName →
      engine'.getReadStatistics = (engine.get name).2.getReadStatistics
  | .post nameRaw reqBody =>
    engine'.getReadStatistics = engine.getReadStatistics ∧
    (thrown ≠ some .response ∨ urlDecode nameRaw = .ok [] ∨
      (∃ message, requestValue R reqBody = .error message) → engine' = engine) ∧
    ∀ name value, urlDecode nameRaw = .ok name → name ≠ [] → requestValue R reqBody = .ok value →
      thrown = some .response →
      engine'.table.toMap = Function.update engine.table.toMap name (some value)

theorem getThrows_late {engine : DataEngine h Bytes} {nameRaw name : Bytes} {p : FailPoint}
    (hfail : throwsEarly failures = false) (hname : urlDecode nameRaw = .ok name)
    (hthrows : getThrows failures engine nameRaw = some p) : p.early = false := by
  have hrespond : respondThrows failures = some p → p.early = false := by
    rcases respondThrows_cases failures with hnone | hsome
    · simp [hnone]
    · rw [hsome]
      rintro ⟨⟩
      rfl
  rw [getThrows_decoded engine hfail hname] at hthrows
  split at hthrows
  · exact hrespond hthrows
  · split at hthrows
    · exact hrespond hthrows
    · split at hthrows
      · cases hthrows
        rfl
      · exact hrespond hthrows

theorem Ends.throws_of_code {thrown : Option FailPoint} {reply : Reply}
    (hends : Ends R thrown reply) (hcode : reply.code = 500) : thrown ≠ none := by
  cases hends with
  | answered hlt hbody =>
    simp only at hcode
    omega
  | unnamed => simp
  | failed => simp

/-- **What a 500 leaves behind.** A `GET` has not touched the map, and has been counted if it got
past the decoder with a name. A `POST` has counted nothing, and has stored its record exactly if it
was accepted and only the construction of the reply failed. -/
theorem serverError_effect (failures : FailPoint → Bool) (R : Rapidjson)
    (engine engine' : DataEngine h Bytes) (request : RecordRequest) (reply : Reply)
    (hrun : request.run failures R engine = .ok (reply, engine')) (hcode : reply.code = 500) :
    AfterException R (request.throws failures R engine) engine engine' request := by
  have hthrows := (RecordRequest.run_ends hrun).throws_of_code hcode
  cases request with
  | get nameRaw =>
    rcases getRecord_engine hrun with ⟨hthrown, rfl⟩ | ⟨hfail, name, hname, rfl⟩
    · refine ⟨rfl, fun _ => rfl, fun name _ _ hdecode hadd => ?_⟩
      rcases early_iff.mp (early_earlyPoint failures) with hp | hp
      · exact absurd (hthrown.trans (congrArg some hp)) hdecode
      · exact absurd (hthrown.trans (congrArg some hp)) hadd
    · refine ⟨?_, fun hno => ?_, fun name' hname' hne _ _ => ?_⟩
      · split
        · rfl
        · rw [DataEngine.get_table]
      · rcases hno with hdecode | hadd | hempty
        · cases getThrows_late hfail hname hdecode
        · cases getThrows_late hfail hname hadd
        · rw [hname] at hempty
          rw [if_pos (Except.ok.inj hempty)]
      · obtain rfl : name = name' := Except.ok.inj (hname.symm.trans hname')
        rw [if_neg hne]
  | post nameRaw reqBody =>
    rcases postRecord_engine hrun with ⟨rfl, hno⟩ | ⟨name, value, hname, hne, hvalue, rfl, hthrown⟩
    · exact ⟨rfl, fun _ => rfl, fun name value hname hne hvalue hthrown =>
        absurd hthrown (hno name value hname hne hvalue)⟩
    · refine ⟨rfl, fun hno => ?_, fun name' value' hname' _ hvalue' _ => ?_⟩
      · rcases hno with hresponse | hempty | ⟨message, herror⟩
        · exact absurd hthrown (not_or.mpr ⟨hthrows, hresponse⟩)
        · exact absurd (Except.ok.inj (hname.symm.trans hempty)) hne
        · rw [hvalue] at herror
          cases herror
      · obtain rfl : name = name' := Except.ok.inj (hname.symm.trans hname')
        obtain rfl : value = value' := Except.ok.inj (hvalue.symm.trans hvalue')
        rw [DataEngine.set_table, Table.toMap_set]

/-- A `POST` whose value is stored and whose reply cannot be built. -/
def storingRequest : RecordRequest := .post (ofString "a") (ofString "\x7b\"value\":\"x\"\x7d")

/-- The value has been read and counted, its copy fails. -/
def copyFails : FailPoint → Bool := fun p => p == .copyValue

def oneRecord : DataEngine byLength Bytes := (DataEngine.new byLength Bytes).set (ofString "a") []

theorem serverError_effect_stored : ∃ reply engine',
    storingRequest.run responseFails Rapidjson.reference (.new byLength Bytes) =
      .ok (reply, engine') ∧
    engine'.table.toMap = Function.update (DataEngine.new byLength Bytes).table.toMap
      (ofString "a") (some (ofString "x")) := by
  refine ⟨_, _, rfl, ?_⟩
  exact (serverError_effect responseFails Rapidjson.reference (.new byLength Bytes) _
    storingRequest _ rfl rfl).2.2 _ _ (by decide) (by decide) rfl rfl

/-- Both kinds of change: a record stored, and a read counted as successful. -/
theorem serverError_not_clean :
    (∃ reply engine', storingRequest.run responseFails Rapidjson.reference
        (.new byLength Bytes) = .ok (reply, engine') ∧ reply.code = 500 ∧
      engine'.table.toMap ≠ (DataEngine.new byLength Bytes).table.toMap) ∧
    ∃ reply engine', (RecordRequest.get (ofString "a")).run copyFails Rapidjson.reference
        oneRecord = .ok (reply, engine') ∧ reply.code = 500 ∧
      engine'.getReadStatistics ≠ oneRecord.getReadStatistics := by
  refine ⟨⟨_, _, rfl, rfl, fun hsame => ?_⟩, _, _, rfl, rfl, by decide⟩
  have hvalue := congrFun hsame (ofString "a")
  cases hvalue

end LockFreeKV.Http
