import LockFreeKV.Server.Linearizability

/-!
# What requests are for

The router hands a request to the handlers of a record when its URL is that of a record and
its method is one of theirs. `alone` handles a request without any other; what the atomic
object of requests does with a request is what is done to it alone.
-/
namespace LockFreeKV.Server

open LockFreeKV.Lib LockFreeKV.Engine LockFreeKV.Http LockFreeKV.Crow

namespace Setup

variable (su : Setup) {h : Hashing Bytes}

/-- A request handled while nothing else happens. -/
def alone (engine : DataEngine h Bytes) (r : Incoming) :
    Except Fault (Outcome × DataEngine h Bytes) :=
  match su.work r with
  | .record request =>
    (request.run r.failures su.rapidjson engine).map fun x => (.document x.1, x.2)
  | .statistics =>
    .ok (.document (statisticsReads r.failures engine).1, (statisticsReads r.failures engine).2)
  | .other d => .ok (.decided d, engine)

/-- The request reads the record `name`: `GET` or `HEAD` of a segment that decodes to it. -/
def Gets (r : Incoming) (name : Bytes) : Prop := su.stage r = .ok (.inr (.kv (.get name)))

/-- The request stores a record: `POST` of a value to a segment that decodes to `name`. -/
def Posts (r : Incoming) (name value : Bytes) : Prop :=
  su.stage r = .ok (.inr (.kv (.set name value)))

end Setup

section Work

variable {su : Setup} {r : Incoming}

theorem handle_decision (su : Setup) (r : Incoming) :
    su.router.handle su.strtod r.method r.url = decision r.method r.url :=
  handle_eq_decision su.validated ..

/-- The requests for records, by their URL and method. -/
theorem work_record_iff {request : RecordRequest} :
    su.work r = .record request ↔ ∃ nameRaw, nameRaw ≠ [] ∧ '/'.toUInt8 ∉ nameRaw ∧
      r.url = ofString "/api/records/" ++ nameRaw ∧
      ((r.method = .get ∨ r.method = .head) ∧ request = .get nameRaw ∨
        r.method = .post ∧ request = .post nameRaw r.body) := by
  rw [Setup.work, handle_decision]
  constructor
  · intro hwork
    split at hwork
    · next rule params hdec =>
      obtain ⟨hm, res, h, hres, hfor, rfl⟩ := decision_run_iff.mp hdec
      have hmethod := (handlerFor_iff.mp hfor).1
      have hseg := fun hrecord => segment_of_run hrecord hdec
      cases h with
      | getRecord =>
        obtain ⟨nameRaw, rfl, hne, hno, hurl⟩ := hseg (.inl rfl)
        cases hwork
        refine ⟨nameRaw, hne, hno, hurl, .inl ⟨?_, rfl⟩⟩
        unfold actual at hmethod
        split at hmethod
        · next hhead => exact .inr hhead
        · exact .inl hmethod.symm
      | postRecord =>
        obtain ⟨nameRaw, rfl, hne, hno, hurl⟩ := hseg (.inr rfl)
        cases hwork
        refine ⟨nameRaw, hne, hno, hurl, .inr ⟨?_, rfl⟩⟩
        unfold actual at hmethod
        split at hmethod
        · cases hmethod
        · exact hmethod.symm
      | _ => cases hwork
    · cases hwork
  · rintro ⟨nameRaw, hne, hno, hurl, hcase⟩
    have hres : resource r.url = some (.record nameRaw) := resource_iff.mpr ⟨⟨hne, hno⟩, hurl⟩
    obtain ⟨hm, rfl⟩ | ⟨hm, rfl⟩ := hcase
    · have hdec : decision r.method r.url = .run Handler.getRecord.rule (strings [nameRaw]) := by
        refine decision_run_iff.mpr ⟨?_, _, _, hres, ?_, rfl⟩
        · rcases hm with hm | hm <;> simp [hm]
        · rcases hm with hm | hm <;> simp [hm, actual, handlerFor]
      rw [hdec]
      rfl
    · have hdec : decision r.method r.url = .run Handler.postRecord.rule (strings [nameRaw]) := by
        refine decision_run_iff.mpr ⟨by simp [hm], _, _, hres, ?_, rfl⟩
        simp [hm, actual, handlerFor]
      rw [hdec]
      rfl

/-- The requests for the statistics. -/
theorem work_statistics_iff : su.work r = .statistics ↔
    (r.method = .get ∨ r.method = .head) ∧ r.url = ofString "/api/statistics/reads" := by
  rw [Setup.work, handle_decision]
  constructor
  · intro hwork
    split at hwork
    · next rule params hdec =>
      obtain ⟨hm, res, h, hres, hfor, rfl⟩ := decision_run_iff.mp hdec
      obtain ⟨hmethod, hserves⟩ := handlerFor_iff.mp hfor
      cases h with
      | statisticsReads =>
        have hurl : r.url = ofString "/api/statistics/reads" := by
          cases res <;> cases hserves
          exact (resource_iff.mp hres).2
        unfold actual at hmethod
        split at hmethod
        · next hhead => exact ⟨.inr hhead, hurl⟩
        · exact ⟨.inl hmethod.symm, hurl⟩
      | _ => cases hwork
    · cases hwork
  · rintro ⟨hm, hurl⟩
    have hres : resource r.url = some .statisticsReads := resource_iff.mpr ⟨trivial, hurl⟩
    have hdec : decision r.method r.url = .run Handler.statisticsReads.rule (strings []) := by
      refine decision_run_iff.mpr ⟨?_, _, _, hres, ?_, rfl⟩
      · rcases hm with hm | hm <;> simp [hm]
      · rcases hm with hm | hm <;> simp [hm, actual, handlerFor]
    rw [hdec]
    rfl

/-- The decoder has no fault on the segment of an incoming request. -/
theorem decode_ok {nameRaw : Bytes} (hne : nameRaw ≠ [])
    (hurl : r.url = ofString "/api/records/" ++ nameRaw) :
    ∃ name, urlDecode nameRaw = .ok name ∧ name ≠ [] ∧ name.length < 2 ^ 32 := by
  have hpercent : nameRaw ≠ ['%'.toUInt8] := by
    rintro rfl
    exact r.decodable hurl
  obtain ⟨name, hname, hname', hlen⟩ := urlDecode_ok hne hpercent
  have hbound := r.bounded
  rw [hurl, List.length_append] at hbound
  exact ⟨name, hname, hname', by omega⟩

/-- The calls of the engine are those of the handlers of a record. -/
theorem stage_call_iff {op : KvOp Bytes Bytes} : su.stage r = .ok (.inr (.kv op)) ↔
    ∃ request, su.work r = .record request ∧
      request.stage r.failures su.rapidjson = .ok (.calls op) := by
  unfold Setup.stage
  cases hwork : su.work r with
  | statistics => simp
  | other d => simp
  | record request =>
    cases hstage : request.stage r.failures su.rapidjson with
    | error fault => simp [Except.map, hstage]
    | ok stage => cases stage <;> simp [Except.map, hstage]

/-- **What is read**: `GET` or `HEAD` of the URL of a record whose segment decodes to the name,
with a handler that does not throw in front of the lookup. -/
theorem gets_iff {name : Bytes} : su.Gets r name ↔
    (r.method = .get ∨ r.method = .head) ∧ throwsEarly r.failures = false ∧
      ∃ nameRaw, nameRaw ≠ [] ∧ '/'.toUInt8 ∉ nameRaw ∧
        r.url = ofString "/api/records/" ++ nameRaw ∧ urlDecode nameRaw = .ok name := by
  constructor
  · intro h
    obtain ⟨request, hwork, hstage⟩ := stage_call_iff.mp h
    obtain ⟨nameRaw, hne, hno, hurl, ⟨hmethod, rfl⟩ | ⟨-, rfl⟩⟩ := work_record_iff.mp hwork
    · obtain ⟨hearly, name', hname, -, hop⟩ := getStage_calls_iff.mp hstage
      cases hop
      exact ⟨hmethod, hearly, nameRaw, hne, hno, hurl, hname⟩
    · obtain ⟨-, _, _, -, -, -, hop⟩ := postStage_calls_iff.mp hstage
      cases hop
  · rintro ⟨hmethod, hearly, nameRaw, hne, hno, hurl, hname⟩
    obtain ⟨name', hname', hne', -⟩ := decode_ok hne hurl
    obtain rfl := Except.ok.inj (hname.symm.trans hname')
    refine stage_call_iff.mpr ⟨.get nameRaw,
      work_record_iff.mpr ⟨nameRaw, hne, hno, hurl, .inl ⟨hmethod, rfl⟩⟩, ?_⟩
    exact getStage_calls_iff.mpr ⟨hearly, name, hname, hne', rfl⟩

/-- **What is stored**: `POST` of a body that asks to store the value, to the URL of a record whose
segment decodes to the name, with a handler that does not throw in front of `set` or in it. -/
theorem posts_iff {name value : Bytes} : su.Posts r name value ↔
    r.method = .post ∧ posted su.rapidjson (cStr r.body) = some value ∧
      (throwsEarly r.failures = false ∧ r.failures .parseRequest = false ∧
        r.failures .setAllocation = false) ∧
      ∃ nameRaw, nameRaw ≠ [] ∧ '/'.toUInt8 ∉ nameRaw ∧
        r.url = ofString "/api/records/" ++ nameRaw ∧ urlDecode nameRaw = .ok name := by
  constructor
  · intro h
    obtain ⟨request, hwork, hstage⟩ := stage_call_iff.mp h
    obtain ⟨nameRaw, hne, hno, hurl, ⟨-, rfl⟩ | ⟨hmethod, rfl⟩⟩ := work_record_iff.mp hwork
    · obtain ⟨-, _, -, -, hop⟩ := getStage_calls_iff.mp hstage
      cases hop
    · obtain ⟨hthrows, _, _, hname, -, hvalue, hop⟩ := postStage_calls_iff.mp hstage
      cases hop
      exact ⟨hmethod, hvalue, hthrows, nameRaw, hne, hno, hurl, hname⟩
  · rintro ⟨hmethod, hvalue, hthrows, nameRaw, hne, hno, hurl, hname⟩
    obtain ⟨name', hname', hne', -⟩ := decode_ok hne hurl
    obtain rfl := Except.ok.inj (hname.symm.trans hname')
    refine stage_call_iff.mpr ⟨.post nameRaw r.body,
      work_record_iff.mpr ⟨nameRaw, hne, hno, hurl, .inr ⟨hmethod, rfl⟩⟩, ?_⟩
    exact postStage_calls_iff.mpr ⟨hthrows, name, value, hname, hne', hvalue, rfl⟩

/-- What is posted fits into the 32-bit lengths of the document. -/
theorem storable_of_posts {name value : Bytes} (h : su.Posts r name value) :
    name.length < 2 ^ 32 ∧ value.length < 2 ^ 32 := by
  obtain ⟨-, hvalue, -, nameRaw, hne, -, hurl, hname⟩ := posts_iff.mp h
  obtain ⟨decoded, hname', -, hlen⟩ := decode_ok hne hurl
  obtain rfl := Except.ok.inj (hname.symm.trans hname')
  exact ⟨hlen, posted_length hvalue⟩

theorem stage_ok (su : Setup) (r : Incoming) : ∃ x, su.stage r = .ok x := by
  unfold Setup.stage
  cases hwork : su.work r with
  | statistics => exact ⟨_, rfl⟩
  | other d => exact ⟨_, rfl⟩
  | record request =>
    obtain ⟨nameRaw, hne, -, hurl, hcase⟩ := work_record_iff.mp hwork
    obtain ⟨name, hname, hname', -⟩ := decode_ok hne hurl
    obtain ⟨stage, hstage⟩ : ∃ stage, request.stage r.failures su.rapidjson = .ok stage := by
      obtain ⟨-, rfl⟩ | ⟨-, rfl⟩ := hcase
      · exact ⟨_, getStage_eq hname hname'⟩
      · rcases postStage_cases r.failures su.rapidjson r.body hname with ⟨reply, h⟩ | ⟨value, h⟩
        · exact ⟨_, h⟩
        · exact ⟨_, h⟩
    simp only [hstage, Except.map]
    exact ⟨_, rfl⟩

/-- **The atomic object handles a request as it is handled alone.** -/
theorem requestSpec_alone (hr : su.onRecords r = true) {h : Hashing Bytes}
    (engine : DataEngine h Bytes) : ∃ outcome engine', su.alone engine r = .ok (outcome, engine') ∧
      su.requestSpec.apply r engine.table.toMap = (engine'.table.toMap, outcome) := by
  obtain ⟨x, hx⟩ := stage_ok su r
  cases hwork : su.work r with
  | statistics => simp [Setup.onRecords, hwork] at hr
  | other d =>
    have hstage : su.stage r = .ok (.inl (.decided d)) := by rw [Setup.stage, hwork]
    have hreply : su.handlers.stage r = .inl (.decided d) := by simp [Setup.handlers, hstage]
    refine ⟨.decided d, engine, by rw [Setup.alone, hwork], ?_⟩
    exact SeqSpec.through_reply hreply _
  | record request =>
    cases hst : request.stage r.failures su.rapidjson with
    | error fault =>
      rw [Setup.stage, hwork] at hx
      simp [hst, Except.map] at hx
    | ok stage =>
      have halone : su.alone engine r = .ok (.document (stage.complete r.failures engine).1,
          (stage.complete r.failures engine).2) := by
        rw [Setup.alone, hwork]
        simp only [RecordRequest.run_stage, hst, Except.map]
      refine ⟨_, _, halone, ?_⟩
      cases stage with
      | replies reply =>
        have hreply : su.handlers.stage r = .inl (.document reply) := by
          simp [Setup.handlers, Setup.stage, hwork, hst, Except.map]
        exact SeqSpec.through_reply hreply _
      | calls op =>
        have hstage : su.stage r = .ok (.inr (.kv op)) := by
          simp [Setup.stage, hwork, hst, Except.map]
        have hcall : su.handlers.stage r = .inr op := by simp [Setup.handlers, hstage]
        refine (SeqSpec.through_call hcall _).trans ?_
        cases op with
        | get name =>
          have hfound : (engine.get name).1 = engine.table.toMap name := by
            rw [DataEngine.get]
            cases engine.table.toMap name <;> rfl
          simp [Setup.handlers, hstage, Incoming.finish, Http.finish, mapSpec, Stage.complete,
            DataEngine.get_table, hfound]
        | set name value =>
          simp [Setup.handlers, hstage, Incoming.finish, Http.finish, mapSpec, Stage.complete,
            DataEngine.set_table, Table.toMap_set]

end Work

/-! ## A set-up server -/

/-- No floating point number is ever read. -/
def noNumbers : Strtod := ⟨fun _ => none, fun _ _ h => (by cases h)⟩

theorem eq_ok_getD {ε α : Type} {x : Except ε α} (h : ∃ a, x = .ok a) (d : α) :
    x = .ok (x.toOption.getD d) := by
  obtain ⟨a, rfl⟩ := h
  rfl

/-- The router of the application. -/
def appRouter : Router Handler := (Router.validate routes).toOption.getD fun _ => .new

def setUp : Setup where
  rapidjson := Rapidjson.reference
  strtod := noNumbers
  router := appRouter
  validated := eq_ok_getD routes_set_up _

end LockFreeKV.Server
