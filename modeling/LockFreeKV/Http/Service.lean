import LockFreeKV.Http.Handlers
import LockFreeKV.Lib.AssocList

/-!
# The interface as a key-value service

The reference is a map from decoded names to values with the numbers of reads that
found their name and that did not. It replies with JSON documents and reads what is
posted by itself. The handlers refine it: request by request the reply is the text of
the reference's, and the engine's table and counters stand for its state. A value
fits into 32 bits of length because rapidjson handed it out, a name because the HTTP
parser let it pass, so the string references in a reply are whole.
-/
namespace LockFreeKV.Http

open LockFreeKV.Lib LockFreeKV.Engine

/-- The state of the reference service. -/
structure Service where
  records : Bytes → Option Bytes
  found : Nat
  missed : Nat

/-- A reply with string members. -/
def answer (code : Nat) (members : List (Bytes × Bytes)) : Nat × Json :=
  (code, .object (Json.strings members))

/-- A counter, modulo `2^64`. -/
def counter (n : Nat) : Json := .number (ofString (toString (n % 2 ^ 64)))

/-- The name of the record that a path segment stands for. -/
def RawSegment.decoded (nameRaw : RawSegment) : Bytes :=
  match urlDecode nameRaw.bytes with
  | .ok name => name
  | .error _ => []

/-- The value that a text asks to store, as a parser reads it: the string that the first member
`value` of an object is. -/
def posted (R : Rapidjson) (text : Bytes) : Option Bytes :=
  match R.parse text with
  | some (.object members) =>
    match members.find? fun m => m.1 = ofString "value" with
    | some (_, .string value) => some value
    | _ => none
  | _ => none

/-- What is wrong with a text that asks to store nothing. -/
def complaint (R : Rapidjson) (text : Bytes) : Bytes :=
  match R.parse text with
  | none => ofString "Invalid JSON syntax in request body"
  | some (.object members) =>
    if ofString "value" ∈ members.map Prod.fst then
      ofString "Request JSON format: root object's 'value' member must have value of type string"
    else ofString "Request JSON format: root object must have 'value' member"
  | some _ => ofString "Request JSON format: root element must be an Object"

namespace Service

def empty : Service := ⟨fun _ => none, 0, 0⟩

/-- A body is a text up to its first NUL byte. -/
def handle (R : Rapidjson) (s : Service) : Request → (Nat × Json) × Service
  | .get nameRaw =>
    match s.records nameRaw.decoded with
    | some value =>
      (answer 200 [(ofString "name", nameRaw.decoded), (ofString "value", value)],
        { s with found := s.found + 1 })
    | none =>
      (answer 404
          [(ofString "name", nameRaw.decoded), (ofString "error", ofString "Item not found")],
        { s with missed := s.missed + 1 })
  | .post nameRaw body =>
    match posted R (cStr body) with
    | some value =>
      (answer 200 [(ofString "name", nameRaw.decoded)],
        { s with records := Function.update s.records nameRaw.decoded (some value) })
    | none =>
      (answer 400
        [(ofString "name", nameRaw.decoded), (ofString "error", complaint R (cStr body))], s)
  | .statistics =>
    ((200, .object [(ofString "total", counter (s.found + s.missed)),
      (ofString "succeeded", counter s.found), (ofString "failed", counter s.missed)]), s)

/-- The replies to requests handled one after another. -/
def serve (R : Rapidjson) (s : Service) : List Request → List (Nat × Json)
  | [] => []
  | request :: requests => (s.handle R request).1 :: serve R (s.handle R request).2 requests

/-- The state after requests handled one after another. -/
def after (R : Rapidjson) (s : Service) (requests : List Request) : Service :=
  requests.foldl (fun s request => (s.handle R request).2) s

end Service

/-- The records that accepted `POST` requests store, in order. -/
def accepted (R : Rapidjson) (requests : List Request) : List (Bytes × Bytes) :=
  requests.filterMap fun
    | .post nameRaw body => (posted R (cStr body)).map fun value => (nameRaw.decoded, value)
    | _ => none

/-- **What the handler reads** is what a body asks to store. -/
theorem requestValue_eq (R : Rapidjson) (body : Bytes) : requestValue R body =
    match posted R (cStr body) with
    | some value => .ok value
    | none => .error (complaint R (cStr body)) := by
  unfold requestValue posted complaint
  cases R.parse (cStr body) with
  | none => rfl
  | some v =>
    cases v with
    | object members =>
      simp only
      cases hfind : members.find? fun m => m.1 = ofString "value" with
      | none =>
        have hno : ofString "value" ∉ members.map Prod.fst := fun hmem => by
          obtain ⟨m, hm, hname⟩ := List.mem_map.mp hmem
          exact absurd (decide_eq_true hname) (List.find?_eq_none.mp hfind m hm)
        simp [hno]
      | some m =>
        obtain ⟨name, value⟩ := m
        have hmem : ofString "value" ∈ members.map Prod.fst := by
          refine List.mem_map.mpr ⟨_, List.mem_of_find?_eq_some hfind, ?_⟩
          simpa using List.find?_some hfind
        cases value <;> simp [hmem]
    | _ => rfl

theorem requestValue_eq_ok {R : Rapidjson} {body value : Bytes} :
    requestValue R body = .ok value ↔ posted R (cStr body) = some value := by
  rw [requestValue_eq]
  cases posted R (cStr body) <;> simp

/-- The path segment of a request for a record. -/
def Request.segment : Request → Option RawSegment
  | .get nameRaw => some nameRaw
  | .post nameRaw _ => some nameRaw
  | .statistics => none

/-- The segment is not a lone percent sign. -/
def Request.Decodable (request : Request) : Prop :=
  ∀ nameRaw, request.segment = some nameRaw → nameRaw.bytes ≠ ['%'.toUInt8]

theorem RawSegment.decode_ok {nameRaw : RawSegment} (hraw : nameRaw.bytes ≠ ['%'.toUInt8]) :
    urlDecode nameRaw.bytes = .ok nameRaw.decoded ∧ nameRaw.decoded ≠ [] ∧
      nameRaw.decoded.length < 2 ^ 32 := by
  obtain ⟨name, hname, hne, hlen⟩ := urlDecode_ok nameRaw.nonempty hraw
  have hdecoded : nameRaw.decoded = name := by rw [RawSegment.decoded, hname]
  have hbounded := nameRaw.bounded
  exact ⟨by rw [hdecoded, hname], by rwa [hdecoded], by rw [hdecoded]; omega⟩

/-- The value of an accepted body is a string that rapidjson handed out. -/
theorem posted_length {R : Rapidjson} {text value : Bytes} (h : posted R text = some value) :
    value.length < 2 ^ 32 := by
  unfold posted at h
  split at h
  · next members hparse =>
    split at h
    · next name value' hfind =>
      cases h
      exact (R.sizeBounded _ _ hparse _ (List.mem_of_find?_eq_some hfind)).2 _ rfl
    · cases h
  · cases h

/-- An accepted record has its name from a segment and its value from a body. -/
theorem mem_accepted {R : Rapidjson} {requests : List Request} {r : Bytes × Bytes}
    (hr : r ∈ accepted R requests) :
    ∃ nameRaw body, .post nameRaw body ∈ requests ∧ r.1 = nameRaw.decoded ∧
      posted R (cStr body) = some r.2 := by
  obtain ⟨request, hm, hsome⟩ := List.mem_filterMap.mp hr
  cases request with
  | get nameRaw => cases hsome
  | statistics => cases hsome
  | post nameRaw body =>
    obtain ⟨value, hv, rfl⟩ := Option.map_eq_some_iff.mp hsome
    exact ⟨nameRaw, body, hm, rfl, hv⟩

/-- What `POST` requests store has lengths of 32 bits. -/
theorem storable_accepted {R : Rapidjson} {requests : List Request}
    (hdec : ∀ request ∈ requests, request.Decodable) :
    Rapidjson.Storable (accepted R requests) := by
  intro r hr
  obtain ⟨nameRaw, body, hm, hname, hvalue⟩ := mem_accepted hr
  have hlen := (RawSegment.decode_ok (hdec _ hm nameRaw rfl)).2.2
  exact ⟨by rwa [hname], posted_length hvalue⟩

/-- The errors for a body are short ASCII texts, and not about the name. -/
theorem complaint_short (R : Rapidjson) (text : Bytes) : complaint R text ≠ nameEmpty ∧
    (complaint R text).length < 2 ^ 32 ∧ Ascii (complaint R text) := by
  unfold complaint
  split
  · decide
  · split <;> decide
  · decide

variable {h : Hashing Bytes}

/-- The engine stands for a state of the service. -/
structure Refines (engine : DataEngine h Bytes) (s : Service) : Prop where
  records : engine.table.toMap = s.records
  found : engine.successReads = UInt64.ofNat s.found
  missed : engine.failedReads = UInt64.ofNat s.missed
  bounded : ∀ name value, s.records name = some value → value.length < 2 ^ 32

theorem refines_new : Refines (.new h Bytes) .empty :=
  ⟨rfl, rfl, rfl, fun _ _ h => by cases h⟩

/-- The reply is the reference's and does not complain about an empty name. -/
structure Answers (R : Rapidjson) (reply : Reply) (a : Nat × Json) : Prop where
  code : reply.code = a.1
  text : reply.text R = some (R.accept a.2)
  named : ∀ owner, (ofString "error", MemberValue.string owner nameEmpty) ∉ reply.body.members

theorem text_strings (R : Rapidjson) (code : Nat) (body : JsonBody) {ms : List (Bytes × Bytes)}
    (hms : body.toJson = .object (Json.strings ms)) :
    (⟨code, body, inScope⟩ : Reply).text R = some (R.accept (answer code ms).2) := by
  rw [Reply.text, JsonBody.dump_inScope, hms, answer]

theorem toJson_name {name : Bytes} (hname : name.length < 2 ^ 32) :
    (JsonBody.empty.add "name" .name name).toJson =
      .object (Json.strings [(ofString "name", name)]) := by
  simp [JsonBody.toJson, JsonBody.add, JsonBody.empty, JsonBody.memberJson, Json.strings,
    stringRef_eq hname]

theorem toJson_name_add {name value : Bytes} (hname : name.length < 2 ^ 32)
    (hvalue : value.length < 2 ^ 32) (key : String) (owner : Owner) :
    ((JsonBody.empty.add "name" .name name).add key owner value).toJson =
      .object (Json.strings [(ofString "name", name), (ofString key, value)]) := by
  simp [JsonBody.toJson, JsonBody.add, JsonBody.empty, JsonBody.memberJson, Json.strings,
    stringRef_eq hname, stringRef_eq hvalue]

theorem named_add {name value : Bytes} {key : String} {owner : Owner}
    (hkey : ofString key ≠ ofString "error" ∨ stringRef value ≠ nameEmpty) (owner' : Owner) :
    (ofString "error", MemberValue.string owner' nameEmpty) ∉
      ((JsonBody.empty.add "name" .name name).add key owner value).members := by
  have hname : ofString "error" ≠ ofString "name" := by decide
  simp only [JsonBody.add, JsonBody.empty, List.nil_append, List.cons_append, List.mem_cons,
    List.not_mem_nil, or_false, Prod.mk.injEq, MemberValue.string.injEq, not_or, not_and]
  refine ⟨fun heq => absurd heq hname, fun heq _ hvalue => ?_⟩
  rcases hkey with hkey | hkey
  · exact hkey heq.symm
  · exact hkey hvalue.symm

namespace Refines

variable {engine : DataEngine h Bytes} {s : Service} {name : Bytes}

theorem get_found (hr : Refines engine s) {value : Bytes} (hv : s.records name = some value) :
    Refines (engine.get name).2 { s with found := s.found + 1 } where
  records := by rw [DataEngine.get_table, hr.records]
  found := by simp [DataEngine.get, hr.records, hv, hr.found, UInt64.ofNat_add]
  missed := by simp [DataEngine.get, hr.records, hv, hr.missed]
  bounded := hr.bounded

theorem get_missed (hr : Refines engine s) (hv : s.records name = none) :
    Refines (engine.get name).2 { s with missed := s.missed + 1 } where
  records := by rw [DataEngine.get_table, hr.records]
  found := by simp [DataEngine.get, hr.records, hv, hr.found]
  missed := by simp [DataEngine.get, hr.records, hv, hr.missed, UInt64.ofNat_add]
  bounded := hr.bounded

theorem set (hr : Refines engine s) {value : Bytes} (hlen : value.length < 2 ^ 32) :
    Refines (engine.set name value)
      { s with records := Function.update s.records name (some value) } where
  records := by rw [DataEngine.set_table, Table.toMap_set, hr.records]
  found := hr.found
  missed := hr.missed
  bounded name' value' h := by
    have h' : Function.update s.records name (some value) name' = some value' := h
    by_cases hn : name' = name
    · subst hn
      rw [Function.update_self] at h'
      rwa [← Option.some.inj h']
    · exact hr.bounded name' value' (by simpa [hn] using h')

end Refines

/-- **One request**: the handler gives the reference's reply and stands for its next state. -/
theorem handle_refines (R : Rapidjson) {engine : DataEngine h Bytes} {s : Service}
    (hr : Refines engine s) {request : Request} (hdec : request.Decodable) :
    ∃ reply engine', handle R engine request = .ok (reply, engine') ∧
      Answers R reply (s.handle R request).1 ∧ Refines engine' (s.handle R request).2 := by
  cases request with
  | get nameRaw =>
    obtain ⟨hname, hne, hlen⟩ := RawSegment.decode_ok (hdec nameRaw rfl)
    rw [handle, getRecord_eq engine hname hne, hr.records, Service.handle]
    cases hv : s.records nameRaw.decoded with
    | none =>
      exact ⟨_, _, rfl, ⟨rfl, text_strings R 404 _ (toJson_name_add hlen (by decide) ..),
        named_add (.inr (by decide))⟩, hr.get_missed hv⟩
    | some value =>
      have hvalue := hr.bounded _ _ hv
      exact ⟨_, _, rfl, ⟨rfl, text_strings R 200 _ (toJson_name_add hlen hvalue ..),
        named_add (.inl (by decide))⟩, hr.get_found hv⟩
  | post nameRaw body =>
    obtain ⟨hname, hne, hlen⟩ := RawSegment.decode_ok (hdec nameRaw rfl)
    rw [handle, postRecord_eq R engine body hname hne, Service.handle, requestValue_eq]
    cases hv : posted R (cStr body) with
    | none =>
      obtain ⟨hmessage, hshort, -⟩ := complaint_short R (cStr body)
      exact ⟨_, _, rfl, ⟨rfl, text_strings R 400 _ (toJson_name_add hlen hshort ..),
        named_add (.inr (by rwa [stringRef_eq hshort]))⟩, hr⟩
    | some value =>
      have hname' : ofString "error" ≠ ofString "name" := by decide
      exact ⟨_, _, rfl, ⟨rfl, text_strings R 200 _ (toJson_name hlen),
        by simp [JsonBody.add, JsonBody.empty, hname']⟩, hr.set (posted_length hv)⟩
  | statistics =>
    refine ⟨_, _, rfl, ⟨rfl, ?_, ?_⟩, hr⟩
    · simp [Reply.text, JsonBody.toJson, JsonBody.addCounter, JsonBody.empty,
        JsonBody.memberJson, Service.handle, DataEngine.getReadStatistics, hr.found, hr.missed,
        ← UInt64.ofNat_add, counter]
    · simp [JsonBody.addCounter, JsonBody.empty]

/-! ## Sequences of requests -/

theorem serve_refines (R : Rapidjson) {requests : List Request}
    (hdec : ∀ request ∈ requests, request.Decodable) {engine : DataEngine h Bytes} {s : Service}
    (hr : Refines engine s) :
    ∃ replies engine', serve R engine requests = .ok (replies, engine') ∧
      List.Forall₂ (Answers R) replies (s.serve R requests) ∧
      Refines engine' (s.after R requests) := by
  induction requests generalizing engine s with
  | nil => exact ⟨[], engine, rfl, .nil, hr⟩
  | cons request requests ih =>
    obtain ⟨reply, engine1, hhandle, hanswer, hr1⟩ := handle_refines R hr (hdec request (by simp))
    obtain ⟨replies, engine2, hserve, hanswers, hr2⟩ :=
      ih (fun r hm => hdec r (by simp [hm])) hr1
    refine ⟨reply :: replies, engine2, ?_, .cons hanswer hanswers, hr2⟩
    rw [serve, hhandle]
    simp [bind, Except.bind, hserve, pure, Except.pure]

/-- The decoder reads behind the end of a lone percent sign. -/
theorem handle_lone (R : Rapidjson) (engine : DataEngine h Bytes) {request : Request}
    (hlone : ¬ request.Decodable) : handle R engine request = .error .outOfBounds := by
  have hfault : urlDecode ['%'.toUInt8] = .error .outOfBounds := by decide
  simp only [Request.Decodable, not_forall, not_not] at hlone
  obtain ⟨nameRaw, hs, hraw⟩ := hlone
  cases request with
  | get _ =>
    cases hs
    rw [handle, getRecord, if_neg (by simp [noFailure]), hraw, hfault]
    rfl
  | post _ body =>
    cases hs
    rw [handle, postRecord, if_neg (by simp [noFailure]), hraw, hfault]
    rfl
  | statistics => cases hs

/-- What has been served was decodable. -/
theorem decodable_of_serve {R : Rapidjson} {requests : List Request} {engine : DataEngine h Bytes}
    {result : List Reply × DataEngine h Bytes} (hserve : serve R engine requests = .ok result) :
    ∀ request ∈ requests, request.Decodable := by
  induction requests generalizing engine result with
  | nil => simp
  | cons request requests ih =>
    by_cases hdec : request.Decodable
    · rw [serve] at hserve
      cases hhandle : handle R engine request with
      | error fault => rw [hhandle] at hserve; cases hserve
      | ok handled =>
        rw [hhandle] at hserve
        cases hrest : serve R handled.2 requests with
        | error fault => simp [bind, Except.bind, hrest] at hserve
        | ok rest => exact List.forall_mem_cons.mpr ⟨hdec, ih hrest⟩
    · rw [serve, handle_lone R engine hdec] at hserve
      cases hserve

namespace Service

theorem serve_append (R : Rapidjson) (s : Service) (before rest : List Request) :
    s.serve R (before ++ rest) = s.serve R before ++ (s.after R before).serve R rest := by
  induction before generalizing s with
  | nil => rfl
  | cons request before ih => rw [List.cons_append, serve, serve, ih, List.cons_append]; rfl

theorem length_serve (R : Rapidjson) (s : Service) (requests : List Request) :
    (s.serve R requests).length = requests.length := by
  induction requests generalizing s with
  | nil => rfl
  | cons request requests ih => rw [serve, List.length_cons, ih, List.length_cons]

/-- The map holds what the accepted requests stored, the last one of a name winning. -/
theorem records_after (R : Rapidjson) (s : Service) (requests : List Request) :
    (s.after R requests).records = override s.records (accepted R requests) := by
  induction requests generalizing s with
  | nil => rfl
  | cons request requests ih =>
    have hcons : s.after R (request :: requests) = (s.handle R request).2.after R requests := rfl
    rw [hcons, ih]
    cases request with
    | get nameRaw => cases hv : s.records nameRaw.decoded <;> simp [handle, accepted, hv]
    | post nameRaw body => cases hv : posted R (cStr body) <;> simp [handle, accepted, hv]
    | statistics => rfl

end Service

/-- The reply to one of the requests is the reference's in the state that the requests before it
lead to. -/
theorem answers_at {R : Rapidjson} {s : Service} {before rest : List Request} {request : Request}
    {replies : List Reply}
    (hanswers : List.Forall₂ (Answers R) replies (s.serve R (before ++ request :: rest))) :
    ∃ reply, replies[before.length]? = some reply ∧
      Answers R reply ((s.after R before).handle R request).1 := by
  have hlen' : before.length < (s.serve R (before ++ request :: rest)).length := by
    rw [Service.length_serve]
    simp
  have hlen : before.length < replies.length := by rwa [hanswers.length_eq]
  refine ⟨replies[before.length], List.getElem?_eq_getElem hlen, ?_⟩
  have hget : (s.serve R (before ++ request :: rest))[before.length]? =
      some ((s.after R before).handle R request).1 := by
    rw [Service.serve_append, List.getElem?_append_right (by rw [Service.length_serve]),
      Service.length_serve, Nat.sub_self]
    rfl
  have hsame := Option.some.inj ((List.getElem?_eq_getElem hlen').symm.trans hget)
  have hanswer := hanswers.get hlen hlen'
  simpa only [List.get_eq_getElem, hsame] using hanswer

/-- A parser of the grammar reads the same in every body. -/
theorem posted_of_readsGrammar {R : Rapidjson} (hR : R.ReadsGrammar) (body : Bytes) :
    posted R (cStr body) = posted Rapidjson.reference (cStr body) := by
  rw [posted, posted, hR _ (zero_notMem_cStr body)]

theorem complaint_of_readsGrammar {R : Rapidjson} (hR : R.ReadsGrammar) (body : Bytes) :
    complaint R (cStr body) = complaint Rapidjson.reference (cStr body) := by
  rw [complaint, complaint, hR _ (zero_notMem_cStr body)]

theorem handle_of_readsGrammar {R : Rapidjson} (hR : R.ReadsGrammar) (s : Service)
    (request : Request) : s.handle R request = s.handle Rapidjson.reference request := by
  cases request with
  | get _ | statistics => rfl
  | post nameRaw body =>
    rw [Service.handle, Service.handle, posted_of_readsGrammar hR, complaint_of_readsGrammar hR]

theorem serve_of_readsGrammar {R : Rapidjson} (hR : R.ReadsGrammar) (s : Service)
    (requests : List Request) : s.serve R requests = s.serve Rapidjson.reference requests := by
  induction requests generalizing s with
  | nil => rfl
  | cons request requests ih => rw [Service.serve, Service.serve, handle_of_readsGrammar hR, ih]

theorem accepted_of_readsGrammar {R : Rapidjson} (hR : R.ReadsGrammar) (requests : List Request) :
    accepted R requests = accepted Rapidjson.reference requests := by
  refine List.filterMap_congr fun request _ => ?_
  cases request with
  | get _ | statistics => rfl
  | post nameRaw body => simp only [posted_of_readsGrammar hR]

/-- **The interface refines the reference service.** With a parser of the grammar, from an empty
engine with any bucket count and hash, every sequence of requests whose segments are longer than
one byte when they contain a percent sign is served, each with the status and the document of the
reference. In particular a `GET` finds the value that the last accepted `POST` before it had in
its body under the same decoded name, and no reply complains about an empty name. -/
theorem api_refines_service (R : Rapidjson) (hR : R.ReadsGrammar) (h : Hashing Bytes)
    (requests : List Request)
    (hraw : ∀ request ∈ requests, ∀ nameRaw, request.segment = some nameRaw →
      '%'.toUInt8 ∈ nameRaw.bytes → 1 < nameRaw.bytes.length) :
    ∃ replies engine, serve R (.new h Bytes) requests = .ok (replies, engine) ∧
      List.Forall₂ (Answers R) replies (Service.empty.serve Rapidjson.reference requests) ∧
      ∀ before nameRaw rest, requests = before ++ .get nameRaw :: rest →
        ∃ reply, replies[before.length]? = some reply ∧
          (reply.code, reply.text R) =
            match override (fun _ => none) (accepted Rapidjson.reference before)
              nameRaw.decoded with
            | some value => (200, some (R.accept (.object (Json.strings
                [(ofString "name", nameRaw.decoded), (ofString "value", value)]))))
            | none => (404, some (R.accept (.object (Json.strings
                [(ofString "name", nameRaw.decoded),
                  (ofString "error", ofString "Item not found")])))) := by
  have hdec : ∀ request ∈ requests, request.Decodable := fun request hm nameRaw hs hlone => by
    have hlen := hraw request hm nameRaw hs (by rw [hlone]; simp)
    rw [hlone] at hlen
    simp at hlen
  obtain ⟨replies, engine, hserve, hanswers, _⟩ := serve_refines R hdec (refines_new (h := h))
  refine ⟨replies, engine, hserve, serve_of_readsGrammar hR _ _ ▸ hanswers, ?_⟩
  rintro before nameRaw rest rfl
  obtain ⟨reply, hreply, hanswer⟩ := answers_at hanswers
  refine ⟨reply, hreply, ?_⟩
  have hrecords := Service.records_after R .empty before
  rw [accepted_of_readsGrammar hR] at hrecords
  rw [hanswer.code, hanswer.text, Service.handle, hrecords]
  cases hv : override Service.empty.records (accepted Rapidjson.reference before)
      nameRaw.decoded with
  | none => rw [show override (fun _ => none) _ _ = _ from hv]; rfl
  | some value => rw [show override (fun _ => none) _ _ = _ from hv]; rfl

/-- The statuses and texts of the replies are those of the reference. -/
theorem texts_of_answers {R : Rapidjson} {replies : List Reply} {as : List (Nat × Json)}
    (h : List.Forall₂ (Answers R) replies as) :
    replies.map (fun reply => (reply.code, reply.text R)) =
      as.map fun a => (a.1, some (R.accept a.2)) := by
  induction h with
  | nil => rfl
  | cons hanswer _ ih => rw [List.map_cons, List.map_cons, hanswer.code, hanswer.text, ih]

/-- Two buckets, keys hashed by their length. -/
def byLength : Hashing Bytes := ⟨2, by decide, List.length⟩

def upperSegment : RawSegment := ⟨ofString "a%2Fb", by decide, by decide, by decide⟩

def lowerSegment : RawSegment := ⟨ofString "a%2fb", by decide, by decide, by decide⟩

def otherSegment : RawSegment := ⟨ofString "a+b", by decide, by decide, by decide⟩

/-- A value is stored under one spelling of a name, looked up under another and under a name
that was not stored. -/
def spellings : List Request :=
  [.post upperSegment (ofString "\x7b\"value\":\"x\"\x7d"), .get lowerSegment, .get otherSegment,
    .statistics]

theorem api_refines_service_spellings : ∃ replies engine,
    serve Rapidjson.reference (.new byLength Bytes) spellings = .ok (replies, engine) ∧
    replies.map (fun reply => (reply.code, reply.text Rapidjson.reference)) =
      [(200, some (ofString "\x7b\"name\":\"a/b\"\x7d")),
        (200, some (ofString "\x7b\"name\":\"a/b\",\"value\":\"x\"\x7d")),
        (404, some (ofString "\x7b\"name\":\"a b\",\"error\":\"Item not found\"\x7d")),
        (200, some (ofString "\x7b\"total\":2,\"succeeded\":1,\"failed\":1\x7d"))] := by
  obtain ⟨replies, engine, hserve, hanswers, _⟩ :=
    api_refines_service Rapidjson.reference Rapidjson.reference_readsGrammar byLength spellings (by
      intro request hm nameRaw hs _
      simp only [spellings, List.mem_cons, List.not_mem_nil, or_false] at hm
      rcases hm with rfl | rfl | rfl | rfl <;> cases hs <;> decide)
  refine ⟨replies, engine, hserve, (texts_of_answers hanswers).trans ?_⟩
  rfl

end LockFreeKV.Http
