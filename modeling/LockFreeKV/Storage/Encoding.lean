import LockFreeKV.Storage.Process

/-!
# The texts that the program emits

The replies of the record handlers and the database file are objects of strings. The
writer copies the bytes from `0x80` on, so such a text is JSON in UTF-8 exactly when
its strings are UTF-8, and nothing on the way of a name or a value into the store
checks that they are.
-/
namespace LockFreeKV.Storage

open LockFreeKV.Lib LockFreeKV.Engine LockFreeKV.Http

/-- The text is UTF-8 and JSON for an object with these members. -/
structure ValidJson (text : Bytes) (ms : List (Bytes × Bytes)) : Prop where
  utf8 : WellFormedUtf8 text
  json : Json.read text = some (.object (Json.strings ms))

/-- The members of the reply to a request for a record. -/
def replyMembers (R : Rapidjson) (records : Bytes → Option Bytes) :
    Request → Option (List (Bytes × Bytes))
  | .get nameRaw =>
    some [(ofString "name", nameRaw.decoded),
      match records nameRaw.decoded with
      | some value => (ofString "value", value)
      | none => (ofString "error", ofString "Item not found")]
  | .post nameRaw body =>
    some ((ofString "name", nameRaw.decoded) ::
      match posted R (cStr body) with
      | some _ => []
      | none => [(ofString "error", complaint R (cStr body))])
  | .statistics => none

/-- The requests are served, the reply to each request for a record is valid and has the record's
name and its stored value, and so has the file that is written afterwards. -/
def EmitsValidJson (R : Rapidjson) (h : Hashing Bytes) (requests : List Request) (file : File) :
    Prop :=
  ∃ replies engine, serve R (.new h Bytes) requests = .ok (replies, engine) ∧
    (∀ before request rest ms, requests = before ++ request :: rest →
      replyMembers R (recordMap (accepted R before)) request = some ms →
      ∃ reply text, replies[before.length]? = some reply ∧ reply.text R = some text ∧
        ValidJson text ms) ∧
    ∃ text, (storeData R engine file).2.content = some text ∧
      ValidJson text engine.table.enumerate

/-- Every name is UTF-8 when it is decoded, and so is every value that is the last one accepted
for its name when the name is read or the run ends. -/
structure Utf8Run (R : Rapidjson) (requests : List Request) : Prop where
  decodable : ∀ request ∈ requests, request.Decodable
  names : ∀ request ∈ requests, ∀ nameRaw, request.segment = some nameRaw →
    WellFormedUtf8 nameRaw.decoded
  read : ∀ before nameRaw rest value, requests = before ++ .get nameRaw :: rest →
    recordMap (accepted R before) nameRaw.decoded = some value → WellFormedUtf8 value
  final : ∀ name value, recordMap (accepted R requests) name = some value → WellFormedUtf8 value

variable {R : Rapidjson} {escape : UInt8 → Bytes} {ms : List (Bytes × Bytes)}

/-- Names and values are UTF-8. -/
def Utf8Members (ms : List (Bytes × Bytes)) : Prop :=
  ∀ m ∈ ms, WellFormedUtf8 m.1 ∧ WellFormedUtf8 m.2

@[simp] theorem utf8Members_nil : Utf8Members [] := by simp [Utf8Members]

@[simp] theorem utf8Members_cons (m : Bytes × Bytes) :
    Utf8Members (m :: ms) ↔ (WellFormedUtf8 m.1 ∧ WellFormedUtf8 m.2) ∧ Utf8Members ms :=
  List.forall_mem_cons

/-- The text of an object of strings is always JSON; it is UTF-8 when the strings are. -/
theorem validJson_iff (hw : R.WritesWith escape) (he : Json.Escapes escape)
    (ms : List (Bytes × Bytes)) :
    ValidJson (R.accept (.object (Json.strings ms))) ms ↔ Utf8Members ms := by
  rw [hw, Utf8Members, ← he.wellFormed_write_object_iff]
  exact ⟨fun hvalid => hvalid.utf8, fun hutf8 => ⟨hutf8, he.read_write_object ms⟩⟩

/-- The reference's reply has these members. -/
theorem handle_replyMembers {s : Service} {request : Request}
    (hms : replyMembers R s.records request = some ms) :
    ∃ code, (s.handle R request).1 = answer code ms := by
  cases request with
  | get nameRaw =>
    cases hms
    cases hv : s.records nameRaw.decoded with
    | some value => exact ⟨200, by rw [Service.handle, hv]⟩
    | none => exact ⟨404, by rw [Service.handle, hv]⟩
  | post nameRaw body =>
    cases hms
    cases hv : posted R (cStr body) with
    | some value => exact ⟨200, by rw [Service.handle, hv]⟩
    | none => exact ⟨400, by rw [Service.handle, hv]⟩
  | statistics => cases hms

/-- The members of a reply are UTF-8 when the name is, and the value that a `GET` finds. -/
theorem utf8_replyMembers_iff {records : Bytes → Option Bytes} {request : Request}
    (hms : replyMembers R records request = some ms) :
    Utf8Members ms ↔ ∀ nameRaw, request.segment = some nameRaw →
      WellFormedUtf8 nameRaw.decoded ∧
        ∀ value, request = .get nameRaw → records nameRaw.decoded = some value →
          WellFormedUtf8 value := by
  have hname : WellFormedUtf8 (ofString "name") := Ascii.wellFormed (by decide)
  have hvalue : WellFormedUtf8 (ofString "value") := Ascii.wellFormed (by decide)
  have herror : WellFormedUtf8 (ofString "error") := Ascii.wellFormed (by decide)
  have hmissing : WellFormedUtf8 (ofString "Item not found") := Ascii.wellFormed (by decide)
  cases request with
  | get nameRaw =>
    cases hms
    cases hv : records nameRaw.decoded <;>
      simp [Request.segment, hv, hname, hvalue, herror, hmissing]
  | post nameRaw body =>
    cases hms
    cases hv : posted R (cStr body) with
    | some value => simp [Request.segment, hname]
    | none =>
      have hmessage := (complaint_short R (cStr body)).2.2.wellFormed
      simp [Request.segment, hname, herror, hmessage]
  | statistics => cases hms

theorem replyMembers_isSome (records : Bytes → Option Bytes) {request : Request}
    {nameRaw : RawSegment} (hs : request.segment = some nameRaw) :
    ∃ ms, replyMembers R records request = some ms := by
  cases request with
  | get _ => exact ⟨_, rfl⟩
  | post _ body => exact ⟨_, rfl⟩
  | statistics => cases hs

/-- The replies and the file of a run whose requests can be decoded, with the conditions under
which each of them is valid. -/
theorem emits (hw : R.WritesWith escape) (he : Json.Escapes escape) (h : Hashing Bytes)
    {requests : List Request} (hdec : ∀ request ∈ requests, request.Decodable) {file : File}
    (hfile : file.writable = true) :
    ∃ replies engine, serve R (.new h Bytes) requests = .ok (replies, engine) ∧
      (∀ before request rest ms, requests = before ++ request :: rest →
        replyMembers R (recordMap (accepted R before)) request = some ms →
        ∃ reply text, replies[before.length]? = some reply ∧ reply.text R = some text ∧
          (ValidJson text ms ↔ Utf8Members ms)) ∧
      engine.table.toMap = recordMap (accepted R requests) ∧
      ∃ text, (storeData R engine file).2.content = some text ∧
        (ValidJson text engine.table.enumerate ↔ Utf8Members engine.table.enumerate) := by
  obtain ⟨replies, engine, hserve, hanswers, hr⟩ := serve_refines R hdec (refines_new (h := h))
  have hmap : engine.table.toMap = recordMap (accepted R requests) := by
    rw [hr.records, Service.records_after]
    rfl
  have hnothing : Rapidjson.Storable [] := by simp [Rapidjson.Storable]
  have hs := storable_served hdec hnothing hmap
  refine ⟨replies, engine, hserve, ?_, hmap, _, by rw [storeData_eq R hs hfile],
    validJson_iff hw he _⟩
  rintro before request rest ms rfl hms
  obtain ⟨reply, hreply, hanswer⟩ := answers_at hanswers
  have hrecords : (Service.empty.after R before).records = recordMap (accepted R before) :=
    Service.records_after ..
  rw [← hrecords] at hms
  obtain ⟨code, hcode⟩ := handle_replyMembers hms
  exact ⟨reply, _, hreply, by rw [hanswer.text, hcode]; rfl, validJson_iff hw he ms⟩

/-- **Which runs emit valid JSON.** From an empty engine all replies of the record handlers and
the file that is written afterwards are JSON in UTF-8, with the stored names and values, exactly
when every name and every value that is read or kept is UTF-8. -/
theorem emitsValidJson_iff (hw : R.WritesWith escape) (he : Json.Escapes escape)
    (h : Hashing Bytes) (requests : List Request) {file : File} (hfile : file.writable = true) :
    EmitsValidJson R h requests file ↔ Utf8Run R requests := by
  constructor
  · intro hemits
    obtain ⟨replies, engine, hserve, hreplies, text, htext, hvalid⟩ := hemits
    have hdec := decodable_of_serve hserve
    obtain ⟨_, _, hserve', hreplies', hmap, text', htext', hfinal⟩ := emits hw he h hdec hfile
    cases hserve.symm.trans hserve'
    obtain rfl := Option.some.inj (htext.symm.trans htext')
    -- every reply that is valid has members in UTF-8
    have hutf8 : ∀ before request rest ms, requests = before ++ request :: rest →
        replyMembers R (recordMap (accepted R before)) request = some ms → Utf8Members ms := by
      intro before request rest ms hsplit hms
      obtain ⟨reply, text, hreply, htext, hvalid⟩ := hreplies before request rest ms hsplit hms
      obtain ⟨_, _, hreply', htext', hiff⟩ := hreplies' before request rest ms hsplit hms
      obtain rfl := Option.some.inj (hreply.symm.trans hreply')
      obtain rfl := Option.some.inj (htext.symm.trans htext')
      exact hiff.mp hvalid
    refine ⟨hdec, ?_, ?_, ?_⟩
    · intro request hm nameRaw hs
      obtain ⟨before, rest, hsplit⟩ := List.append_of_mem hm
      obtain ⟨ms, hms⟩ := replyMembers_isSome (recordMap (accepted R before)) hs
      exact ((utf8_replyMembers_iff hms).mp (hutf8 _ _ _ _ hsplit hms) nameRaw hs).1
    · intro before nameRaw rest value hsplit hv
      have hs : (Request.get nameRaw).segment = some nameRaw := rfl
      obtain ⟨ms, hms⟩ := replyMembers_isSome (recordMap (accepted R before)) hs
      exact ((utf8_replyMembers_iff hms).mp (hutf8 _ _ _ _ hsplit hms) nameRaw hs).2 value rfl hv
    · intro name value hv
      rw [← hmap] at hv
      exact (hfinal.mp hvalid _ (engine.table.mem_enumerate.mpr hv)).2
  · intro hrun
    obtain ⟨replies, engine, hserve, hreplies, hmap, text, htext, hfinal⟩ :=
      emits hw he h hrun.decodable hfile
    refine ⟨replies, engine, hserve, ?_, text, htext, hfinal.mpr ?_⟩
    · intro before request rest ms hsplit hms
      obtain ⟨reply, text, hreply, htext, hiff⟩ := hreplies before request rest ms hsplit hms
      refine ⟨reply, text, hreply, htext, hiff.mpr ((utf8_replyMembers_iff hms).mpr ?_)⟩
      intro nameRaw hs
      refine ⟨hrun.names request (by rw [hsplit]; simp) nameRaw hs, ?_⟩
      rintro value rfl hv
      exact hrun.read before nameRaw rest value hsplit hv
    · intro m hm
      have hv := engine.table.mem_enumerate.mp hm
      rw [hmap] at hv
      obtain ⟨nameRaw, body, hpost, hname, -⟩ := mem_accepted (mem_of_override_eq_some hv)
      refine ⟨?_, hrun.final m.1 m.2 hv⟩
      rw [hname]
      exact hrun.names _ hpost nameRaw rfl

/-- A segment that is decoded to the single byte `0xFF`. -/
def strayByte : RawSegment := ⟨ofString "%FF", by decide, by decide, by decide⟩

/-- A segment that is decoded to a character of two bytes. -/
def twoBytes : RawSegment := ⟨ofString "%C3%A9", by decide, by decide, by decide⟩

theorem emitsValidJson_iff_twoBytes :
    EmitsValidJson Rapidjson.reference threeBuckets
      [.post twoBytes (ofString "\x7b\"value\":\"1\"\x7d"), .get twoBytes] ⟨none, true, true⟩ := by
  have hname : WellFormedUtf8 twoBytes.decoded := ⟨[Char.ofNat 233], by decide⟩
  have hvalue : WellFormedUtf8 (ofString "1") := Ascii.wellFormed (by decide)
  have haccepted : accepted Rapidjson.reference
      [.post twoBytes (ofString "\x7b\"value\":\"1\"\x7d"), .get twoBytes] =
        [(twoBytes.decoded, ofString "1")] := by rfl
  -- every prefix of the requests stores no other value
  have hall : ∀ before rest : List Request,
      [.post twoBytes (ofString "\x7b\"value\":\"1\"\x7d"), .get twoBytes] = before ++ rest →
      ∀ name value, recordMap (accepted Rapidjson.reference before) name = some value →
        WellFormedUtf8 value := by
    intro before rest hsplit name value hv
    have hmem := mem_of_override_eq_some hv
    have hsub : (name, value) ∈ accepted Rapidjson.reference (before ++ rest) := by
      rw [accepted, List.filterMap_append]
      exact List.mem_append_left _ hmem
    rw [← hsplit, haccepted, List.mem_singleton] at hsub
    cases hsub
    exact hvalue
  refine (emitsValidJson_iff Rapidjson.reference_writesWith Json.shortEscape_escapes threeBuckets
    _ rfl).mpr ⟨?_, ?_, fun before nameRaw rest value hsplit => hall before _ hsplit _ value,
      hall _ [] (by simp)⟩
  · intro request hm nameRaw hs
    simp only [List.mem_cons, List.not_mem_nil, or_false] at hm
    rcases hm with rfl | rfl <;> cases hs <;> decide
  · intro request hm nameRaw hs
    simp only [List.mem_cons, List.not_mem_nil, or_false] at hm
    rcases hm with rfl | rfl <;> cases hs <;> exact hname

/-- The reply to a `GET` of the segment `%FF` has the byte `0xFF`. -/
theorem strayByte_emitted :
    ¬ EmitsValidJson Rapidjson.reference threeBuckets [.get strayByte] ⟨none, true, true⟩ := by
  intro hemits
  obtain ⟨replies, engine, hserve, hreplies, -⟩ := hemits
  have hserve' : (serve Rapidjson.reference (.new threeBuckets Bytes) [.get strayByte]).map
      (fun result => result.1.map (Reply.text Rapidjson.reference)) = .ok [some
        (ofString "\x7b\"name\":\"" ++ 255 ::
          ofString "\",\"error\":\"Item not found\"\x7d")] := by rfl
  rw [hserve] at hserve'
  have htexts := Except.ok.inj hserve'
  obtain ⟨reply, text, hreply, htext, hvalid⟩ := hreplies [] (.get strayByte) [] _ rfl rfl
  have hsame := congrArg (·[0]?) htexts
  simp only [List.getElem?_map] at hsame
  rw [show replies[0]? = some reply from hreply] at hsame
  obtain rfl := Option.some.inj (htext.symm.trans (Option.some.inj hsame))
  exact absurd (hvalid.utf8.lt (x := 255) (by simp)) (by decide)

end LockFreeKV.Storage
