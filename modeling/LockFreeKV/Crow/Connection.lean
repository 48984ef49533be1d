import LockFreeKV.Crow.Response
import LockFreeKV.Lib.Run
import Mathlib.Data.List.Infix

/-!
# A connection

A connection hands its requests to the router, one after another, and writes the answers. A small
answer is written asynchronously: the response stays as it is until the write has ended. What one
read brings is parsed to its end, so that several requests may come before that. Here the client
is there until the connection is closed, and the buffers of a write hold what they are filled with.
-/
namespace LockFreeKV.Crow

open LockFreeKV.Lib

/-- `request`: what a connection looks at, and what it hands to the router. No value has the end of
a line in it, and the parser takes `CONNECT` for a request to upgrade. -/
structure Request where
  method : HTTPMethod
  url : Bytes
  body : Bytes
  host : Option Bytes
  httpMajor : Nat
  httpMinor : Nat
  connectionKeepAlive : Bool
  connectionClose : Bool
  upgrade : Bool
  upgradeValue : Bytes
  expectValue : Bytes
  hostOk : ∀ name ∈ host, 13 ∉ name
  connectUpgrades : method = .connect → upgrade = true

namespace Request

def checkVersion (r : Request) (major minor : Nat) : Bool :=
  r.httpMajor == major && r.httpMinor == minor

/-- `keep_alive` of `set_connection_parameters`. -/
def keepAlive (r : Request) : Bool :=
  if r.checkVersion 1 0 then r.connectionKeepAlive else r.checkVersion 1 1

/-- `close_connection` of `set_connection_parameters`. -/
def closeConnection (r : Request) : Bool :=
  if r.checkVersion 1 0 then !r.connectionKeepAlive else r.checkVersion 1 1 && r.connectionClose

def isInvalidRequest (r : Request) : Bool := r.checkVersion 1 1 && r.host.isNone

/-- The request goes to `handle_upgrade`. One for HTTP/2 does not. -/
def upgrades (r : Request) : Bool :=
  r.checkVersion 1 1 && r.upgrade && r.upgradeValue.take 2 != ofString "h2"

/-- `handle_header` answers the header by itself. -/
def expectsContinue (r : Request) : Bool :=
  r.checkVersion 1 1 && r.expectValue == ofString "100-continue"

end Request

/-- A response that a handler or the router makes, with no length of its own. -/
structure Answer where
  code : Nat
  headers : List (Bytes × Bytes)
  body : Bytes
  headersOk : ∀ field ∈ headers, FieldOk field
  noLength : named headers (ofString "content-length") = []

def Answer.response (a : Answer) : Response :=
  { Response.new with code := a.code, headers := a.headers, body := a.body }

/-- What is done to the response before its `end`: one is assigned to it, `get_error` sets its
code, or the route of the static files looks a file up. -/
inductive Handled
  | assign (a : Answer)
  | error (code : Nat)
  | staticFile (file : Option StaticFile)

def Handled.fill : Handled → Response → Response
  | .assign a, res => res.assign a.response
  | .error code, res => { res with code := code }
  | .staticFile file, res => res.setStaticFileInfo file

namespace Response

/-- `handle` of the router tells the response that it is for `HEAD`. -/
def forMethod (res : Response) (m : HTTPMethod) : Response :=
  if m = .head then { res with skipBody := true } else res

def location (res : Response) : Bytes := res.getHeaderValue (ofString "Location")

/-- A partial `Location` is completed. -/
def locate (res : Response) (r : Request) : Response :=
  if res.location ≠ [] ∧ ¬ ofString "://" <:+: res.location then
    res.setHeader (ofString "location") (ofString "http://" ++ r.host.getD [] ++ res.location)
  else res

end Response

/-- The write of the response does not end before `complete_request` does. -/
def Response.isAsync (res : Response) : Bool :=
  res.file.isNone && decide (res.body.length < streamThreshold)

namespace Writer

/-- What is written behind the header. -/
def payload (w : Writer) (res : Response) : Bytes :=
  match res.file with
  | some file => (filePieces file.content.length w.stack file.content).flatten
  | none =>
    if res.body.length < streamThreshold then res.body
    else (streamPieces res.body.length res.body).flatten

/-- What `complete_request` writes. -/
def complete (w : Writer) (r : Request) (res : Response) : Bytes :=
  w.header r.keepAlive (res.locate r).prepare ++ w.payload (res.locate r).prepare

end Writer

/-- `Connection`, with the number of writes that have not ended, whether the header of a request
has been answered whose message is not complete, and whether the parser goes on in what has been
read. -/
structure Connection where
  res : Response
  resBodyCopy : Bytes
  writing : Nat
  closing : Bool
  continued : Bool
  reading : Bool
  isOpen : Bool

namespace Connection

def start : Connection := ⟨.new, [], 0, false, false, false, true⟩

/-- What the parser comes to, `first` telling that a new read has brought it; or the end of a
write. -/
inductive Input
  | header (first : Bool) (r : Request)
  | request (first : Bool) (w : Writer) (r : Request) (h : Handled)
  | written

/-- A request with what the router and the handlers do with it, whether it comes to that, and what
is written; a header that is answered; a request to upgrade, with what the router does; or the end
of a write. -/
inductive Event
  | answer (r : Request) (h : Handled) (called : Bool) (sent : Bytes)
  | continued (r : Request)
  | upgraded (r : Request) (h : Handled)
  | written

/-- The parser comes to the next header or request: nothing is read behind one that closes the
connection, but the read that has brought it may have brought others. -/
def takes (c : Connection) (first : Bool) : Bool :=
  c.isOpen && if first then !c.closing else c.reading

/-- The response to a request without a host. -/
def rejected (c : Connection) : Response := c.res.assign { Response.new with code := 400 }

/-- `handle`, up to `complete_request`, and whether the router is called. -/
def respond (c : Connection) (r : Request) (h : Handled) : Response × Bool :=
  if r.isInvalidRequest then (c.rejected, false)
  else if c.res.completed then (c.res, false)
  else ((h.fill (c.res.forMethod r.method)).finish, true)

/-- The connection behind `complete_request`. An asynchronous write takes the body over. -/
def written (c : Connection) (r : Request) (res : Response) : Connection :=
  if res.isAsync then
    { c with
      res := { res with body := c.resBodyCopy }, resBodyCopy := res.body, writing := c.writing + 1,
      closing := r.closeConnection, continued := false, reading := !r.upgrade }
  else
    { c with
      res := res.clear, closing := r.closeConnection, continued := false, reading := !r.upgrade,
      isOpen := c.isOpen && !r.closeConnection }

/-- `handle` of a request to upgrade. There is no route for one, and what the router makes of the
response is not written. -/
def upgraded (c : Connection) (r : Request) (h : Handled) : Connection :=
  { c with
    res := (h.fill (if r.isInvalidRequest then c.rejected else c.res)).finish
    closing := true, continued := false, reading := false }

def next (c : Connection) : Input → Option (Event × Connection)
  | .header first r =>
    if c.takes first && !c.continued && r.expectsContinue then
      some (.continued r, { c with writing := c.writing + 1, continued := true, reading := true })
    else none
  | .request first w r h =>
    if c.takes first && r.expectsContinue == c.continued then
      if r.upgrades then some (.upgraded r h, c.upgraded r h)
      else
        let (filled, called) := c.respond r h
        let c' := c.written r (filled.locate r).prepare
        some (.answer r h called (w.complete r filled),
          if called && r.keepAlive then
            { c' with res := c'.res.setHeader (ofString "connection") (ofString "Keep-Alive") }
          else c')
    else none
  | .written =>
    if 0 < c.writing then
      some (.written,
        { c with
          res := c.res.clear, resBodyCopy := [], writing := c.writing - 1, reading := false,
          isOpen := c.isOpen && !c.closing })
    else none

def Step (c : Connection) (e : Event) (c' : Connection) : Prop :=
  ∃ input, c.next input = some (e, c')

end Connection

/-! ## What is delivered -/

namespace Handled

/-- The file that is sent. -/
def file : Handled → Option StaticFile
  | .staticFile file => file
  | _ => none

def code : Handled → Nat
  | .assign a => knownCode a.code
  | .error code => knownCode code
  | .staticFile (some _) => 200
  | .staticFile none => 404

def body : Handled → Bytes
  | .assign a => a.body
  | .error _ => []
  | .staticFile (some file) => file.content
  | .staticFile none => []

/-- The fields of the response. -/
def headers (r : Request) : Handled → List (Bytes × Bytes)
  | .assign a => (a.response.locate r).headers
  | _ => []

end Handled

/-- What a request is answered with: an invalid one with 400. -/
def Request.handled (r : Request) (h : Handled) : Handled :=
  if r.isInvalidRequest then .error 400 else h

def Request.isHead (r : Request) : Bool := r.method == .head

/-- The message has the code, the fields and, but for `HEAD`, the body of an answer, or the text
of an error without one. -/
structure Carries (m : Message) (r : Request) (h : Handled) : Prop where
  code : m.code = h.code
  body : m.body = if r.isHead then [] else refill h.code h.body
  headers : ∀ field ∈ h.headers r, field ∈ m.fields

/-- The client reads the answer that was made, whatever follows it. -/
def Delivered (r : Request) (h : Handled) (sent : Bytes) : Prop :=
  ∃ m, Carries m r h ∧ ∀ rest, readMessage r.isHead (sent ++ rest) = some (m, rest)

/-- When an answer is delivered; `before` tells that `HEAD` was handled before on the connection. -/
def InSync (before : Bool) (r : Request) (h : Handled) : Prop :=
  if r.isInvalidRequest then before = false ∧ r.isHead = false
  else
    match h.file with
    | some file =>
      if before || r.isHead then file.content = [] else file.content.length % 16384 = 0
    | none =>
      if r.isHead then h.code < 400
      else if before then h.body = refill h.code []
      else bodiless false h.code = true → h.body = []

/-- The response of a connection that waits for a request. -/
structure Resting (before : Bool) (res : Response) : Prop where
  notCompleted : res.completed = false
  noFile : res.file = none
  noBody : res.body = []
  skipBody : res.skipBody = before
  manualLength : res.manualLengthHeader = before
  headers : ∀ field ∈ res.headers, field = (ofString "connection", ofString "Keep-Alive")

section Written

variable {res res' : Response} {r : Request} {h : Handled} {w : Writer} {before : Bool}

theorem prepared_eq : (res.locate r).prepare =
    { res with
      code := knownCode res.code, body := refill (knownCode res.code) res.body,
      headers := (res.locate r).headers } := by
  unfold Response.locate
  split <;> rfl

/-- A completed `Location` does not change the announced length. -/
theorem named_locate : named (res.locate r).headers (ofString "content-length") =
    named res.headers (ofString "content-length") := by
  unfold Response.locate
  split
  · rw [named_setHeader, if_neg (by decide)]
  · rfl

theorem fieldsOk_locate (hok : ∀ field ∈ res.headers, FieldOk field) :
    ∀ field ∈ (res.locate r).headers, FieldOk field := by
  unfold Response.locate
  split
  · next hpartial =>
    refine fieldsOk_setHeader hok ?_
    obtain ⟨location, hlocation⟩ : ∃ location,
        fieldValue res.headers (ofString "Location") = some location := by
      refine Option.ne_none_iff_exists'.mp fun hnone => hpartial.1 ?_
      rw [Response.location, Response.getHeaderValue, hnone]
      rfl
    have hvalue : res.location = location := by
      rw [Response.location, Response.getHeaderValue, hlocation]
      rfl
    obtain ⟨field, hfield, rfl⟩ := Option.map_eq_some_iff.mp hlocation
    have hline : 13 ∉ field.2 := (hok field (List.mem_of_find?_eq_some hfield)).valueLine
    have hhost : 13 ∉ r.host.getD [] := by
      cases hr : r.host with
      | none => simp
      | some name => exact r.hostOk name hr
    have hname : 13 ∉ ofString "location" ∧ ':'.toUInt8 ∉ ofString "location" := by decide
    have hscheme : 13 ∉ ofString "http://" := by decide
    have hfirst : ofString "http://" = 'h'.toUInt8 :: ofString "ttp://" := by decide
    refine ⟨hname.1, hname.2, ?_, ?_⟩
    · rw [hvalue]
      simp [hscheme, hhost, hline]
    · rw [hfirst]
      simp only [List.cons_append, List.head?_cons, Option.some.injEq, ne_eq]
      decide
  · exact hok

/-- A field that stays before stays behind. -/
theorem mem_locate {field : Bytes × Bytes} (hmem : field ∈ res.headers → field ∈ res'.headers)
    (hsame : named res'.headers (ofString "Location") = named res.headers (ofString "Location")) :
    field ∈ (res.locate r).headers → field ∈ (res'.locate r).headers := by
  have hvalue : res'.location = res.location := by
    rw [Response.location, Response.getHeaderValue, fieldValue_eq, hsame, ← fieldValue_eq]
    rfl
  unfold Response.locate
  rw [hvalue]
  split
  · intro hfield
    rcases List.mem_append.mp hfield with hold | hlast
    · obtain ⟨hin, hother⟩ := List.mem_filter.mp hold
      exact List.mem_append_left _ (List.mem_filter.mpr ⟨hmem hin, hother⟩)
    · exact List.mem_append_right _ hlast
  · exact hmem

theorem payload_none (hfile : res.file = none) : w.payload res = res.body := by
  rw [Writer.payload, hfile]
  simp only [flatten_streamPieces, ite_self]

/-- What is delivered of a response that is written. -/
theorem delivered_iff_announced (hok : ∀ field ∈ res.headers, FieldOk field)
    (hcode : knownCode res.code = h.code)
    (hheaders : ∀ field ∈ h.headers r, field ∈ (res.locate r).headers) :
    Delivered r h (w.complete r res) ↔
      w.payload (res.locate r).prepare = (if r.isHead then [] else refill h.code h.body) ∧
      Announced r.isHead ⟨h.code, w.fields r.keepAlive (res.locate r).prepare,
        w.payload (res.locate r).prepare⟩ := by
  have hprepared : (res.locate r).prepare.code = knownCode res.code :=
    congrArg Response.code prepared_eq
  have hread : ∀ m, (∀ rest, readMessage r.isHead (w.header r.keepAlive (res.locate r).prepare ++
      (w.payload (res.locate r).prepare ++ rest)) = some (m, rest)) ↔ _ :=
    readAnswer_iff hprepared (fieldsOk_locate hok) (w.payload (res.locate r).prepare)
  simp only [Delivered, Writer.complete, List.append_assoc, hread, hprepared, hcode]
  constructor
  · rintro ⟨m, hcarries, rfl, hannounced⟩
    exact ⟨hcarries.body, hannounced⟩
  · rintro ⟨hbody, hannounced⟩
    refine ⟨_, ⟨rfl, hbody, fun field hfield => ?_⟩, rfl, hannounced⟩
    exact List.mem_append_left _ ((w.walk_perm _).mem_iff.mpr (hheaders field hfield))

/-- What it is to announce the length. -/
theorem announced_iff {head : Bool} {code : Nat} {sent : Bytes}
    (hone : (named res.headers (ofString "content-length")).length ≤ 1) :
    Announced head ⟨code, w.fields r.keepAlive (res.locate r).prepare, sent⟩ ↔
      if bodiless head code then sent = []
      else
        match named res.headers (ofString "content-length") with
        | [] => res.manualLengthHeader = false ∧
            (refill (knownCode res.code) res.body).length = sent.length
        | field :: _ => readDecimal field.2 = some sent.length := by
  have hnamed : named (res.locate r).prepare.headers (ofString "content-length") =
      named res.headers (ofString "content-length") := named_locate
  rw [Announced, announced_length (hnamed ▸ hone), hnamed]
  split
  · rfl
  · cases named res.headers (ofString "content-length") with
    | cons field rest => rfl
    | nil =>
      have hbody : (res.locate r).prepare.body = refill (knownCode res.code) res.body :=
        congrArg Response.body prepared_eq
      have hmanual : (res.locate r).prepare.manualLengthHeader = res.manualLengthHeader := by
        rw [prepared_eq]
      rw [hmanual, hbody]
      cases res.manualLengthHeader <;> simp [readDecimal_decimal]

/-- What is written, when it is a body. -/
theorem payload_prepared (hfile : res.file = none) :
    w.payload (res.locate r).prepare = refill (knownCode res.code) res.body := by
  rw [payload_none (by rw [prepared_eq, hfile]), prepared_eq]

/-- The rest of the last buffer is written with a file. -/
theorem payload_file {file : StaticFile} (hfile : res.file = some file) :
    ∃ rest, w.payload (res.locate r).prepare = file.content ++ rest ∧
      (rest = [] ↔ file.content.length % 16384 = 0) := by
  have hprepared : (res.locate r).prepare.file = some file := by rw [prepared_eq, hfile]
  rw [Writer.payload, hprepared]
  exact flatten_filePieces w.stack_length le_rfl

/-- The response of a request that the router has been called for. -/
structure Filled (skip : Bool) (r : Request) (h : Handled) (res : Response) : Prop where
  code : knownCode res.code = h.code
  file : res.file = h.file
  body : h.file = none → res.body = if skip then [] else h.body
  manualLength : res.manualLengthHeader = skip
  headersOk : ∀ field ∈ res.headers, FieldOk field
  length : named res.headers (ofString "content-length") =
    if skip then
      [(ofString "Content-Length", decimal (if h.file = none then h.body.length else 0))]
    else
      match h.file with
      | some file => [(ofString "Content-Length", decimal file.content.length)]
      | none => []
  headers : ∀ field ∈ h.headers r, field ∈ (res.locate r).headers

theorem named_of_resting (hresting : Resting before res) :
    named res.headers (ofString "content-length") = [] := by
  refine List.filter_eq_nil_iff.mpr fun field hfield => ?_
  rw [hresting.headers field hfield]
  decide

theorem fieldsOk_of_resting (hresting : Resting before res) : ∀ field ∈ res.headers, FieldOk field := by
  intro field hfield
  rw [hresting.headers field hfield]
  exact (fieldOk_iff _).mpr (by decide)

theorem forMethod_eq (hresting : Resting before res) :
    res.forMethod r.method = { res with skipBody := before || r.isHead } := by
  unfold Response.forMethod Request.isHead
  split
  · next hhead => simp [hhead]
  · next hother =>
    have hno : (r.method == .head) = false := beq_eq_false_iff_ne.mpr hother
    rw [hno, Bool.or_false, ← hresting.skipBody]

/-- The response behind the handler, before its `end`. -/
structure Made (before skip : Bool) (r : Request) (h : Handled) (res : Response) : Prop where
  code : knownCode res.code = h.code
  file : res.file = h.file
  body : res.body = if h.file = none then h.body else []
  notCompleted : res.completed = false
  skipBody : res.skipBody = skip
  manualLength : res.manualLengthHeader = before
  headersOk : ∀ field ∈ res.headers, FieldOk field
  length : named res.headers (ofString "content-length") =
    match h.file with
    | some file => [(ofString "Content-Length", decimal file.content.length)]
    | none => []
  headers : ∀ field ∈ h.headers r, field ∈ (res.locate r).headers

theorem made_of_resting (hresting : Resting before res) (skip : Bool) :
    Made before skip r h (h.fill { res with skipBody := skip }) := by
  have hnone : ∀ field ∈ ([] : List (Bytes × Bytes)), field ∈
      ((h.fill { res with skipBody := skip }).locate r).headers := fun _ hf => by cases hf
  have hnamed := named_of_resting hresting
  have hok := fieldsOk_of_resting hresting
  cases h with
  | assign a =>
    refine ⟨rfl, rfl, rfl, rfl, rfl, hresting.manualLength, a.headersOk, a.noLength, ?_⟩
    exact fun field hf => @mem_locate a.response _ _ field id rfl hf
  | error code =>
    exact ⟨rfl, hresting.noFile, hresting.noBody, hresting.notCompleted, rfl, hresting.manualLength, hok,
      hnamed, hnone⟩
  | staticFile file =>
    cases file with
    | none =>
      exact ⟨rfl, hresting.noFile, hresting.noBody, hresting.notCompleted, rfl, hresting.manualLength, hok,
        hnamed, hnone⟩
    | some file =>
      have hlength := fieldOk_length file.content.length
      obtain ⟨content, mimeType, hmime⟩ := file
      cases mimeType with
      | none =>
        exact ⟨rfl, rfl, hresting.noBody, hresting.notCompleted, rfl, hresting.manualLength,
          fieldsOk_addHeader hok hlength, named_addHeader.trans (congrArg (· ++ _) hnamed), hnone⟩
      | some mime =>
        refine ⟨rfl, rfl, hresting.noBody, hresting.notCompleted, rfl, hresting.manualLength,
          fieldsOk_addHeader (fieldsOk_addHeader hok hlength) (hmime mime rfl), ?_, hnone⟩
        exact named_addHeader.trans
          (congrArg (· ++ _) (named_addHeader.trans (congrArg (· ++ _) hnamed)))

/-- No field of a response tells a length. -/
theorem headers_noLength {field : Bytes × Bytes} (hfield : field ∈ h.headers r) :
    sameName field.1 (ofString "Content-Length") = false := by
  have hlower : sameName field.1 (ofString "Content-Length") =
      sameName field.1 (ofString "content-length") := by
    have hsame : sameName (ofString "Content-Length") (ofString "content-length") = true := by decide
    rw [sameName_comm, sameName_congr hsame, sameName_comm]
  rw [hlower]
  cases h with
  | assign a =>
    have hnone : named (a.response.locate r).headers (ofString "content-length") = [] :=
      named_locate.trans a.noLength
    exact Bool.eq_false_iff.mpr (List.filter_eq_nil_iff.mp hnone field hfield)
  | error code => cases hfield
  | staticFile file => cases hfield

theorem filled_of_resting (hresting : Resting before res) : Filled (before || r.isHead) r h
    (h.fill (res.forMethod r.method)).finish := by
  rw [forMethod_eq hresting]
  have hmade := made_of_resting (r := r) (h := h) hresting (before || r.isHead)
  generalize h.fill { res with skipBody := before || r.isHead } = made at hmade
  rw [Response.finish, if_neg (by simp [hmade.notCompleted]), hmade.skipBody]
  cases hskip : before || r.isHead with
  | false =>
    have hbefore : before = false := (Bool.or_eq_false_iff.mp hskip).1
    rw [if_neg (by simp)]
    refine ⟨hmade.code, hmade.file, fun hno => ?_, hmade.manualLength.trans hbefore,
      hmade.headersOk, hmade.length, fun field hfield => ?_⟩
    · exact hmade.body.trans (if_pos hno)
    · exact @mem_locate made _ _ field id rfl (hmade.headers field hfield)
  | true =>
    rw [if_pos rfl]
    refine ⟨hmade.code, hmade.file, fun _ => rfl, rfl, ?_, ?_, fun field hfield => ?_⟩
    · exact fieldsOk_setHeader hmade.headersOk (fieldOk_length _)
    · refine named_setHeader.trans ?_
      rw [if_pos (by decide), hmade.body]
      by_cases hno : h.file = none
      · simp [hno]
      · simp [hno]
    · refine mem_locate (fun hin => List.mem_append_left _ ?_) ?_ (hmade.headers field hfield)
      · exact List.mem_filter.mpr ⟨hin, by simp [headers_noLength hfield]⟩
      · exact named_setHeader.trans (if_neg (by decide))

/-- What is delivered of a response with a body. -/
theorem delivered_body_iff (hok : ∀ field ∈ res.headers, FieldOk field)
    (hcode : knownCode res.code = h.code)
    (hheaders : ∀ field ∈ h.headers r, field ∈ (res.locate r).headers) (hfile : res.file = none)
    (hone : (named res.headers (ofString "content-length")).length ≤ 1) :
    Delivered r h (w.complete r res) ↔
      refill h.code res.body = (if r.isHead then [] else refill h.code h.body) ∧
      if bodiless r.isHead h.code then refill h.code res.body = []
      else
        match named res.headers (ofString "content-length") with
        | [] => res.manualLengthHeader = false
        | field :: _ => readDecimal field.2 = some (refill h.code res.body).length := by
  rw [delivered_iff_announced hok hcode hheaders, announced_iff hone, payload_prepared hfile, hcode]
  cases named res.headers (ofString "content-length") <;> simp

/-- An invalid request is answered in sync unless the answer has no length, or no body is read. -/
theorem delivered_invalid_iff (hresting : Resting before res) :
    Delivered r (.error 400) (w.complete r (res.assign { Response.new with code := 400 })) ↔
      before = false ∧ r.isHead = false := by
  have hfilled : ∃ filled, res.assign { Response.new with code := 400 } = filled ∧
      filled.code = 400 ∧ filled.body = [] ∧ filled.headers = [] ∧ filled.file = none ∧
      filled.manualLengthHeader = before := ⟨_, rfl, rfl, rfl, rfl, rfl, hresting.manualLength⟩
  obtain ⟨filled, heq, hcode, hbody, hheaders, hfile, hmanual⟩ := hfilled
  have hknown : knownCode filled.code = 400 := by rw [hcode]; rfl
  have hnamed : named filled.headers (ofString "content-length") = [] := by rw [hheaders]; rfl
  have htext : refill 400 [] ≠ [] := by
    rw [Ne, refill_nil_iff]
    omega
  rw [heq, delivered_body_iff (by simp [hheaders]) hknown (fun _ hf => by cases hf) hfile
    (by simp [hnamed]), hnamed, hbody, hmanual]
  cases hhead : r.isHead with
  | true => simp [Handled.code, show knownCode 400 = 400 from rfl, htext]
  | false => simp [Handled.code, Handled.body, show knownCode 400 = 400 from rfl, bodiless]

/-- A handled request without a file. -/
theorem delivered_handled_iff (hfilled : Filled (before || r.isHead) r h res) (hfile : h.file = none) :
    Delivered r h (w.complete r res) ↔
      if r.isHead then h.code < 400
      else if before then h.body = refill h.code []
      else bodiless false h.code = true → h.body = [] := by
  have hnamed := hfilled.length
  have hone : (named res.headers (ofString "content-length")).length ≤ 1 := by
    rw [hnamed, hfile]
    split <;> simp
  rw [delivered_body_iff hfilled.headersOk hfilled.code hfilled.headers (hfilled.file.trans hfile) hone,
    hnamed, hfile, hfilled.body hfile, hfilled.manualLength]
  cases r.isHead with
  | true => simp [bodiless, refill_nil_iff]
  | false =>
    cases before with
    | true =>
      simp only [Bool.or_false, if_true, Bool.false_eq_true, if_false, readDecimal_decimal]
      rw [refill_nil_eq_iff]
      constructor
      · rintro ⟨hnil | heq, hsync⟩
        · have htext : refill h.code [] = [] := by
            split at hsync
            · exact hsync
            · rw [hnil] at hsync
              exact List.length_eq_zero_iff.mp (Option.some.inj hsync).symm
          rw [hnil, htext]
        · exact heq
      · intro heq
        refine ⟨.inr heq, ?_⟩
        split
        · next hbodiless => exact refill_nil_iff.mpr (lt_of_bodiless hbodiless)
        · rw [heq]
    | false =>
      simp only [Bool.or_false, Bool.false_eq_true, if_false, true_and]
      constructor
      · intro hsync hbodiless
        rw [if_pos hbodiless, refill_of_lt (lt_of_bodiless hbodiless)] at hsync
        exact hsync
      · intro hsync
        split
        · next hbodiless =>
          rw [refill_of_lt (lt_of_bodiless hbodiless)]
          exact hsync hbodiless
        · trivial

/-- A file. -/
theorem delivered_file_iff {file : StaticFile} (hfilled : Filled (before || r.isHead) r h res)
    (hfile : h.file = some file) :
    Delivered r h (w.complete r res) ↔
      if before || r.isHead then file.content = [] else file.content.length % 16384 = 0 := by
  have hgiven : h.code = 200 ∧ h.body = file.content := by
    cases h with
    | staticFile file' =>
      obtain rfl : file' = some file := hfile
      exact ⟨rfl, rfl⟩
    | _ => cases hfile
  have hnamed := hfilled.length
  simp only [hfile, reduceCtorEq, if_false] at hnamed
  have hone : (named res.headers (ofString "content-length")).length ≤ 1 := by
    rw [hnamed]
    split <;> simp
  obtain ⟨rest, hpayload, hrest⟩ := payload_file (w := w) (r := r) (hfilled.file.trans hfile)
  rw [delivered_iff_announced hfilled.headersOk hfilled.code hfilled.headers, announced_iff hone,
    hpayload, hnamed, hgiven.1, hgiven.2, refill_of_lt (by omega), ← hrest]
  have hempty : file.content = [] → rest = [] := fun h => hrest.mpr (by rw [h]; rfl)
  cases r.isHead with
  | true => simpa [bodiless] using hempty
  | false =>
    cases before with
    | true =>
      simp only [bodiless, Bool.or_false, if_true, Bool.false_eq_true, if_false, readDecimal_decimal]
      constructor
      · rintro ⟨-, hlength⟩
        have hnil := List.length_eq_zero_iff.mp (Option.some.inj hlength).symm
        exact (List.append_eq_nil_iff.mp hnil).1
      · intro hnil
        simp [hnil, hempty hnil]
    | false =>
      simp only [bodiless, Bool.or_false, Bool.false_eq_true, if_false, readDecimal_decimal]
      constructor
      · rintro ⟨hsame, -⟩
        simpa using hsame
      · intro hnil
        simp [hnil]

/-- **When an answer is delivered** that a connection gives when it waits for a request. -/
theorem delivered_iff {c : Connection} (hresting : Resting before c.res) :
    Delivered r (r.handled h) (w.complete r (c.respond r h).1) ↔ InSync before r h := by
  unfold Connection.respond Request.handled InSync
  by_cases hinvalid : r.isInvalidRequest = true
  · rw [if_pos hinvalid, if_pos hinvalid, if_pos hinvalid]
    exact delivered_invalid_iff hresting
  · rw [if_neg hinvalid, if_neg hinvalid, if_neg hinvalid, if_neg (by simp [hresting.notCompleted])]
    have hfilled := filled_of_resting (r := r) (h := h) hresting
    cases hfile : h.file with
    | some file => exact delivered_file_iff hfilled hfile
    | none => exact delivered_handled_iff hfilled hfile

end Written

/-! ## Runs -/

namespace Connection

variable {c c' : Connection} {e : Event} {es : List Event} {before : Bool}

/-- What is written. -/
def Event.sent : Event → Bytes
  | .answer _ _ _ sent => sent
  | .continued _ => ofString "HTTP/1.1 100 Continue" ++ crlf ++ crlf
  | .upgraded _ _ | .written => []

/-- The router is called for `HEAD`. -/
def Event.isHead : Event → Bool
  | .answer r _ called _ => called && r.isHead
  | .continued _ | .upgraded _ _ | .written => false

/-- The connection behind `complete_request`. -/
def finished (c : Connection) (r : Request) (h : Handled) : Connection :=
  c.written r ((c.respond r h).1.locate r).prepare

/-- What a step does. -/
inductive Moves (c : Connection) : Event → Connection → Prop
  | answer (first : Bool) (w : Writer) (r : Request) (h : Handled)
      (headers : List (Bytes × Bytes)) (htakes : c.takes first = true)
      (hupgrades : r.upgrades = false)
      (hkept : headers = (c.finished r h).res.headers ∨ headers = ((c.finished r h).res.setHeader
        (ofString "connection") (ofString "Keep-Alive")).headers) :
      Moves c (.answer r h (c.respond r h).2 (w.complete r (c.respond r h).1))
        { c.finished r h with res := { (c.finished r h).res with headers := headers } }
  | continued (first : Bool) (r : Request) (htakes : c.takes first = true) :
      Moves c (.continued r)
        { c with writing := c.writing + 1, continued := true, reading := true }
  | upgraded (first : Bool) (r : Request) (h : Handled) (htakes : c.takes first = true)
      (hupgrades : r.upgrades = true) : Moves c (.upgraded r h) (c.upgraded r h)
  | written (hpos : 0 < c.writing) :
      Moves c .written
        { c with
          res := c.res.clear, resBodyCopy := [], writing := c.writing - 1, reading := false,
          isOpen := c.isOpen && !c.closing }

theorem step_cases (h : Step c e c') : Moves c e c' := by
  obtain ⟨input, hnext⟩ := h
  cases input with
  | header first r =>
    simp only [next] at hnext
    split at hnext
    · next hguard =>
      simp only [Option.some.injEq, Prod.mk.injEq] at hnext
      obtain ⟨rfl, rfl⟩ := hnext
      simp only [Bool.and_eq_true] at hguard
      exact .continued first r hguard.1.1
    · cases hnext
  | request first w r h =>
    simp only [next] at hnext
    split at hnext
    · next hguard =>
      have htakes := ((Bool.and_eq_true _ _).mp hguard).1
      split at hnext
      · next hupgrades =>
        simp only [Option.some.injEq, Prod.mk.injEq] at hnext
        obtain ⟨rfl, rfl⟩ := hnext
        exact .upgraded first r h htakes hupgrades
      · next hupgrades =>
        have hstays := Bool.eq_false_iff.mpr hupgrades
        simp only [Option.some.injEq, Prod.mk.injEq] at hnext
        obtain ⟨rfl, rfl⟩ := hnext
        split
        · exact .answer first w r h _ htakes hstays (.inr rfl)
        · exact .answer first w r h _ htakes hstays (.inl rfl)
    · cases hnext
  | written =>
    simp only [next] at hnext
    split at hnext
    · next hpos =>
      simp only [Option.some.injEq, Prod.mk.injEq] at hnext
      obtain ⟨rfl, rfl⟩ := hnext
      exact .written hpos
    · cases hnext

/-- What becomes of a request that the parser comes to. -/
theorem request_cases {first : Bool} {w : Writer} {r : Request} {h : Handled}
    (hnext : c.next (.request first w r h) = some (e, c')) : c.takes first = true ∧
      (r.upgrades = false ∧
          e = .answer r h (c.respond r h).2 (w.complete r (c.respond r h).1) ∧
          c'.closing = r.closeConnection ∨
        r.upgrades = true ∧ e = .upgraded r h ∧ c' = c.upgraded r h) := by
  simp only [next] at hnext
  split at hnext
  · next hguard =>
    refine ⟨((Bool.and_eq_true _ _).mp hguard).1, ?_⟩
    split at hnext
    · next hupgrades =>
      simp only [Option.some.injEq, Prod.mk.injEq] at hnext
      exact .inr ⟨hupgrades, hnext.1.symm, hnext.2.symm⟩
    · next hupgrades =>
      simp only [Option.some.injEq, Prod.mk.injEq] at hnext
      obtain ⟨rfl, rfl⟩ := hnext
      refine .inl ⟨Bool.eq_false_iff.mpr hupgrades, rfl, ?_⟩
      split
      · show (c.finished r h).closing = _
        rw [finished, written]
        split <;> rfl
      · show (c.finished r h).closing = _
        rw [finished, written]
        split <;> rfl
  · cases hnext

/-- Once nothing is taken any more, nothing will be. -/
theorem takes_of_step (h : Step c e c') {first : Bool} (htakes : c'.takes first = true) :
    ∃ first, c.takes first = true := by
  cases step_cases h with
  | answer before w r h headers hbefore _ _ => exact ⟨before, hbefore⟩
  | continued before r hbefore => exact ⟨before, hbefore⟩
  | upgraded before r h hbefore _ => exact ⟨before, hbefore⟩
  | written hpos =>
    refine ⟨true, ?_⟩
    cases first with
    | true => simpa [takes] using htakes
    | false => simp [takes] at htakes

theorem takes_of_run (hrun : Run Step c es c') {first : Bool} (htakes : c'.takes first = true) :
    ∃ first, c.takes first = true := by
  induction hrun generalizing first with
  | nil => exact ⟨first, htakes⟩
  | snoc _ hs ih =>
    obtain ⟨_, hm⟩ := takes_of_step hs htakes
    exact ih hm

/-- What holds of a connection, `before` telling whether `HEAD` was handled on it. -/
structure Kept (before : Bool) (c : Connection) : Prop where
  ready : c.writing = 0 → Resting before c.res
  skipBody : c.res.skipBody = before
  manualLength : c.res.manualLengthHeader = before
  noFile : c.res.file = none
  small : c.res.body.length < streamThreshold
  copySmall : c.resBodyCopy.length < streamThreshold

theorem kept_start : Kept false start :=
  ⟨fun _ => ⟨rfl, rfl, rfl, rfl, rfl, fun _ h => by cases h⟩, rfl, rfl, rfl, by decide, by decide⟩

theorem marks_of_fill (h : Handled) (res : Response) :
    (h.fill res).skipBody = res.skipBody ∧
      (h.fill res).manualLengthHeader = res.manualLengthHeader ∧
      (res.completed = false → (h.fill res).completed = false) := by
  cases h with
  | assign a => exact ⟨rfl, rfl, fun _ => rfl⟩
  | error code => exact ⟨rfl, rfl, id⟩
  | staticFile file =>
    cases file with
    | none => exact ⟨rfl, rfl, id⟩
    | some file =>
      obtain ⟨content, mimeType, hmime⟩ := file
      cases mimeType <;> exact ⟨rfl, rfl, id⟩

/-- A response keeps its two marks, and has both from the first `HEAD` on. -/
theorem marks_of_respond (r : Request) (h : Handled) (hskip : c.res.skipBody = before)
    (hmanual : c.res.manualLengthHeader = before) :
    (c.respond r h).1.skipBody = (before || ((c.respond r h).2 && r.isHead)) ∧
      (c.respond r h).1.manualLengthHeader = (before || ((c.respond r h).2 && r.isHead)) := by
  unfold respond
  split
  · simp [rejected, Response.assign, hskip, hmanual]
  · split
    · simp [hskip, hmanual]
    · next hopen =>
      obtain ⟨hskip', hmanual', hcompleted⟩ := marks_of_fill h (c.res.forMethod r.method)
      have hmethod : (c.res.forMethod r.method).skipBody = (before || r.isHead) ∧
          (c.res.forMethod r.method).manualLengthHeader = before ∧
          (c.res.forMethod r.method).completed = false := by
        unfold Response.forMethod Request.isHead
        split
        · next hhead => simp [hhead, hmanual, hopen]
        · next hother => simp [hother, hskip, hmanual, hopen]
      rw [Response.finish, if_neg (by simp [hcompleted hmethod.2.2]), hskip', hmethod.1]
      simp only [Bool.true_and]
      split
      · next hmark => exact ⟨hskip'.trans hmethod.1, hmark.symm⟩
      · next hmark =>
        obtain ⟨hno, -⟩ := Bool.or_eq_false_iff.mp (Bool.eq_false_iff.mpr hmark)
        refine ⟨rfl, hmanual'.trans (hmethod.2.1.trans ?_)⟩
        rw [Bool.eq_false_iff.mpr hmark, hno]

/-- What is written keeps the marks, and the response has been cleared when no write is left. -/
theorem written_res (c : Connection) (r : Request) (res : Response) :
    (c.written r res).res.skipBody = res.skipBody ∧
      (c.written r res).res.manualLengthHeader = res.manualLengthHeader ∧
      ((c.written r res).writing = 0 → (c.written r res).res = res.clear) := by
  unfold written
  split
  · exact ⟨rfl, rfl, fun hzero => absurd hzero (Nat.succ_ne_zero _)⟩
  · exact ⟨rfl, rfl, fun _ => rfl⟩

/-- Only small bodies stay, and no file. -/
theorem written_small (r : Request) (res : Response) (hkept : Kept before c) :
    (c.written r res).res.file = none ∧ (c.written r res).res.body.length < streamThreshold ∧
      (c.written r res).resBodyCopy.length < streamThreshold := by
  unfold written
  split
  · next hasync =>
    obtain ⟨hfile, hsmall⟩ := (Bool.and_eq_true _ _).mp hasync
    exact ⟨Option.isNone_iff_eq_none.mp hfile, hkept.copySmall, of_decide_eq_true hsmall⟩
  · exact ⟨rfl, Nat.zero_lt_succ _, hkept.copySmall⟩

theorem marks_of_finished (r : Request) (h : Handled) (hkept : Kept before c) :
    (c.finished r h).res.skipBody = (before || ((c.respond r h).2 && r.isHead)) ∧
      (c.finished r h).res.manualLengthHeader = (before || ((c.respond r h).2 && r.isHead)) := by
  obtain ⟨hskip, hmanual⟩ := marks_of_respond r h hkept.skipBody hkept.manualLength
  obtain ⟨hskip', hmanual', -⟩ := written_res c r ((c.respond r h).1.locate r).prepare
  rw [prepared_eq] at hskip' hmanual'
  rw [finished, prepared_eq]
  exact ⟨hskip'.trans hskip, hmanual'.trans hmanual⟩

theorem kept_of_step (hkept : Kept before c) (h : Step c e c') {first : Bool}
    (htakes : c'.takes first = true) : Kept (before || e.isHead) c' := by
  cases step_cases h with
  | written hpos =>
    rw [Event.isHead, Bool.or_false]
    exact ⟨fun _ => ⟨rfl, rfl, rfl, hkept.skipBody, hkept.manualLength, fun _ h => by cases h⟩,
      hkept.skipBody, hkept.manualLength, rfl, Nat.zero_lt_succ _, Nat.zero_lt_succ _⟩
  | continued _ r _ =>
    rw [Event.isHead, Bool.or_false]
    exact { hkept with ready := fun hzero => absurd hzero (Nat.succ_ne_zero _) }
  | upgraded _ r handled _ _ =>
    -- no request is taken behind this one
    cases first <;> simp [takes, upgraded] at htakes
  | answer _ w r handled headers _ _ hheaders =>
    obtain ⟨hskip, hmanual⟩ := marks_of_finished r handled hkept
    obtain ⟨hfile, hsmall, hcopy⟩ :=
      written_small r ((c.respond r handled).1.locate r).prepare hkept
    refine ⟨fun hzero => ?_, hskip, hmanual, hfile, hsmall, hcopy⟩
    obtain ⟨-, -, hcleared⟩ := written_res c r ((c.respond r handled).1.locate r).prepare
    have hres : (c.finished r handled).res = _ := hcleared hzero
    refine ⟨congrArg Response.completed hres, congrArg Response.file hres, congrArg Response.body hres,
      hskip, hmanual, fun field hfield => ?_⟩
    rw [hres] at hheaders
    rcases hheaders with rfl | rfl
    · cases hfield
    · exact List.mem_singleton.mp hfield

/-- A connection that takes requests. -/
theorem kept_of_run (hrun : Run Step start es c) {first : Bool} (htakes : c.takes first = true) :
    Kept (es.any Event.isHead) c := by
  refine hrun.invariant (fun es c => (∃ first, c.takes first = true) → Kept (es.any Event.isHead) c)
    (fun _ => kept_start) (fun es m e m' hkept hstep htakes => ?_) ⟨first, htakes⟩
  obtain ⟨first, htakes⟩ := htakes
  rw [List.any_append, List.any_cons, List.any_nil, Bool.or_false]
  exact kept_of_step (hkept (takes_of_step hstep htakes)) hstep htakes

/-! ## Requests that come too early -/

/-- The response to a request that the router is called for has been completed, and is written
asynchronously when it is small. -/
theorem respond_called {r : Request} {h : Handled} (hkept : Kept before c)
    (hcalled : (c.respond r h).2 = true) (hfile : h.file = none)
    (hsmall : h.body.length < streamThreshold) :
    (c.respond r h).1.completed = true ∧ ((c.respond r h).1.locate r).prepare.isAsync = true := by
  have hopen : r.isInvalidRequest = false ∧ c.res.completed = false := by
    unfold respond at hcalled
    split at hcalled
    · cases hcalled
    · next hvalid =>
      split at hcalled
      · cases hcalled
      · next hopen => exact ⟨Bool.eq_false_iff.mpr hvalid, Bool.eq_false_iff.mpr hopen⟩
  have hmethod : (c.res.forMethod r.method).file = none ∧
      (c.res.forMethod r.method).body.length < streamThreshold ∧
      (c.res.forMethod r.method).completed = false := by
    unfold Response.forMethod
    split <;> exact ⟨hkept.noFile, hkept.small, hopen.2⟩
  have hfill : (h.fill (c.res.forMethod r.method)).file = none ∧
      (h.fill (c.res.forMethod r.method)).body.length < streamThreshold := by
    cases h with
    | assign a => exact ⟨rfl, hsmall⟩
    | error code => exact ⟨hmethod.1, hmethod.2.1⟩
    | staticFile file =>
      obtain rfl : file = none := hfile
      exact ⟨hmethod.1, hmethod.2.1⟩
  have hcompleted := (marks_of_fill h (c.res.forMethod r.method)).2.2 hmethod.2.2
  have hfinish : (h.fill (c.res.forMethod r.method)).finish.completed = true ∧
      (h.fill (c.res.forMethod r.method)).finish.file = none ∧
      (h.fill (c.res.forMethod r.method)).finish.body.length < streamThreshold := by
    rw [Response.finish, if_neg (by simp [hcompleted])]
    split
    · exact ⟨rfl, hfill.1, Nat.zero_lt_succ _⟩
    · exact ⟨rfl, hfill.1, hfill.2⟩
  rw [respond, if_neg (by simp [hopen.1]), if_neg (by simp [hopen.2])]
  refine ⟨hfinish.1, ?_⟩
  rw [Response.isAsync, prepared_eq, hfinish.2.1]
  exact decide_eq_true (refill_small hfinish.2.2)

/-- An answered request has left a response that is completed until its write ends. -/
theorem completed_of_answer {r : Request} {h : Handled} {sent : Bytes} (hkept : Kept before c)
    (hstep : Step c (.answer r h true sent) c') (hfile : h.file = none)
    (hsmall : h.body.length < streamThreshold) : c'.res.completed = true := by
  generalize he : Event.answer r h true sent = e at hstep
  cases step_cases hstep with
  | answer _ w r' h' headers _ _ hheaders =>
    simp only [Event.answer.injEq] at he
    obtain ⟨rfl, rfl, hyes, -⟩ := he
    obtain ⟨hdone, hasync⟩ := respond_called hkept hyes.symm hfile hsmall
    show (c.finished _ _).res.completed = true
    rw [finished, written, if_pos hasync, prepared_eq]
    exact hdone
  | _ => cases he

/-- Answers to headers leave the response alone. -/
theorem res_of_continued (hrun : Run Step c es c') (hes : ∀ e ∈ es, ∃ r, e = .continued r) :
    c'.res = c.res := by
  induction hrun with
  | nil => rfl
  | @snoc m m' es e _ hs ih =>
    obtain ⟨r, rfl⟩ := hes e (by simp)
    rw [← ih fun e he => hes e (by simp [he])]
    generalize he : Event.continued r = e at hs
    cases step_cases hs with
    | continued _ r _ => rfl
    | _ => cases he

/-- **Requests that come too early are answered, but not handled.** In every run, a valid request
that is not one to upgrade is answered, and handed to the router when no write is under way. Right
behind a small answer to another request, it is not. A request to upgrade is not answered, and
no request is taken behind it. -/
theorem requests_handed_over (hrun : Run Step start es c) {first : Bool} {w : Writer} {r : Request}
    {h : Handled} (hnext : c.next (.request first w r h) = some (e, c'))
    (hvalid : r.isInvalidRequest = false) :
    (r.upgrades = false → ∃ called sent, e = .answer r h called sent ∧
      (c.writing = 0 → called = true) ∧
      ∀ past r₀ h₀ sent₀ mid, es = past ++ .answer r₀ h₀ true sent₀ :: mid →
        (∀ x ∈ mid, ∃ r', x = .continued r') → h₀.file = none →
        h₀.body.length < streamThreshold → called = false) ∧
    (r.upgrades = true → e.sent = [] ∧ ∀ later c'' first, Run Step c' later c'' →
      c''.takes first = false) := by
  obtain ⟨htakes, hcase⟩ := request_cases hnext
  refine ⟨fun hstays => ?_, fun hupgrades => ?_⟩
  · obtain ⟨-, rfl, -⟩ | ⟨hupgrades, -, -⟩ := hcase
    · have hcalled : (c.respond r h).2 = !c.res.completed := by
        rw [respond, if_neg (by simp [hvalid])]
        cases c.res.completed <;> rfl
      refine ⟨_, _, rfl, fun hzero => ?_, ?_⟩
      · rw [hcalled, ((kept_of_run hrun htakes).ready hzero).notCompleted]
        rfl
      · rintro past r₀ h₀ sent₀ mid rfl hmid hfile hsmall
        obtain ⟨m, hpast, hlast⟩ := hrun.split
        obtain ⟨m', hstep₀, hquiet⟩ := hlast.cons_split
        obtain ⟨_, htakes'⟩ := takes_of_run hquiet htakes
        obtain ⟨_, htakes''⟩ := takes_of_step hstep₀ htakes'
        rw [hcalled, res_of_continued hquiet hmid,
          completed_of_answer (kept_of_run hpast htakes'') hstep₀ hfile hsmall]
        rfl
    · rw [hstays] at hupgrades
      cases hupgrades
  · obtain ⟨hstays, -, -⟩ | ⟨-, rfl, rfl⟩ := hcase
    · rw [hupgrades] at hstays
      cases hstays
    · refine ⟨rfl, fun later c'' first hlater => ?_⟩
      refine Bool.eq_false_iff.mpr fun htaken => ?_
      obtain ⟨first', hstopped⟩ := takes_of_run hlater htaken
      cases first' <;> simp [takes, upgraded] at hstopped

/-- What a test's answers are written with. -/
def plainWriter : Writer where
  serverName := ofString "Crow/1.0"
  date := ofString "Thu, 01 Jan 1970 00:00:00 GMT"
  walk := id
  stack := List.replicate 16384 0
  serverNameOk := (fieldOk_iff _).mpr (by decide)
  dateOk := (fieldOk_iff _).mpr (by decide)
  walk_perm _ := .refl _
  stack_length := List.length_replicate ..

def asks (m : HTTPMethod) : Request where
  method := m
  url := ofString "/"
  body := []
  host := some (ofString "localhost")
  httpMajor := 1
  httpMinor := 1
  connectionKeepAlive := false
  connectionClose := false
  upgrade := m == .connect
  upgradeValue := []
  expectValue := []
  hostOk name hname := by
    obtain rfl := Option.mem_some.mp hname
    decide
  connectUpgrades hconnect := by simp [hconnect]

def hello : Answer where
  code := 200
  headers := [(ofString "Content-Type", ofString "text/plain")]
  body := ofString "Hello, World!\n"
  headersOk field hfield := by
    obtain rfl := List.mem_singleton.mp hfield
    exact (fieldOk_iff _).mpr (by decide)
  noLength := by decide

/-- Two requests come together: the second is not handled. -/
theorem requests_handed_over_hurry : ∃ sent c sent' c',
    start.next (.request true plainWriter (asks .get) (.assign hello)) =
      some (.answer (asks .get) (.assign hello) true sent, c) ∧
    c.next (.request false plainWriter (asks .get) (.assign hello)) =
      some (.answer (asks .get) (.assign hello) false sent', c') := by
  have hvalid : (asks .get).isInvalidRequest = false := rfl
  obtain ⟨⟨e, c⟩, hfirst⟩ : ∃ x,
      start.next (.request true plainWriter (asks .get) (.assign hello)) = some x := ⟨_, rfl⟩
  obtain ⟨⟨e', c'⟩, hsecond⟩ : ∃ x,
      c.next (.request false plainWriter (asks .get) (.assign hello)) = some x := by
    cases hfirst
    exact ⟨_, rfl⟩
  obtain ⟨called, sent, rfl, hcalled, -⟩ := (requests_handed_over .nil hfirst hvalid).1 rfl
  obtain rfl := hcalled rfl
  obtain ⟨called', sent', rfl, -, hearly⟩ :=
    (requests_handed_over (.single ⟨_, hfirst⟩) hsecond hvalid).1 rfl
  obtain rfl := hearly [] _ _ _ [] rfl (by simp) rfl (by decide)
  exact ⟨sent, c, sent', c', hfirst, hsecond⟩

/-! ## A client that waits -/

/-- Each request comes by itself, behind the last answer. None waits for an answer to its header,
and none is to upgrade. -/
def nextPatient (c : Connection) : Input → Option (Event × Connection)
  | .header _ _ => none
  | .request first w r h =>
    if first && c.writing == 0 && !r.upgrades then c.next (.request first w r h) else none
  | .written => c.next .written

def PatientStep (c : Connection) (e : Event) (c' : Connection) : Prop :=
  ∃ input, c.nextPatient input = some (e, c')

theorem written_of_patient (hnext : c.nextPatient .written = some (e, c')) : e = .written := by
  simp only [nextPatient, next] at hnext
  split at hnext <;> cases hnext
  rfl

theorem answer_of_patient {first : Bool} {w : Writer} {r : Request} {h : Handled}
    (hnext : c.nextPatient (.request first w r h) = some (e, c')) :
    c.next (.request first w r h) = some (e, c') ∧ c.writing = 0 ∧ c.takes true = true ∧
      e = .answer r h (c.respond r h).2 (w.complete r (c.respond r h).1) := by
  simp only [nextPatient] at hnext
  split at hnext
  · next hguard =>
    simp only [Bool.and_eq_true, beq_iff_eq, Bool.not_eq_true'] at hguard
    obtain ⟨⟨rfl, hzero⟩, hstays⟩ := hguard
    obtain ⟨htakes, ⟨-, rfl, -⟩ | ⟨hupgrades, -, -⟩⟩ := request_cases hnext
    · exact ⟨hnext, hzero, htakes, rfl⟩
    · rw [hstays] at hupgrades
      cases hupgrades
  · cases hnext

/-- What happens when a client waits. -/
theorem patient_cases (h : PatientStep c e c') : Step c e c' ∧
    (e = .written ∨ ∃ (w : Writer) (r : Request) (h : Handled), c.writing = 0 ∧ c.takes true = true ∧
      e = .answer r h (c.respond r h).2 (w.complete r (c.respond r h).1)) := by
  obtain ⟨input, hnext⟩ := h
  cases input with
  | header first r => cases hnext
  | request first w r h =>
    obtain ⟨hstep, hzero, htakes, heq⟩ := answer_of_patient hnext
    exact ⟨⟨_, hstep⟩, .inr ⟨w, r, h, hzero, htakes, heq⟩⟩
  | written => exact ⟨⟨.written, hnext⟩, .inl (written_of_patient hnext)⟩

/-- No answer to a header is waited for. -/
theorem continued_of_patient (hs : PatientStep c e c') (hquiet : c.continued = false) :
    c'.continued = false := by
  obtain ⟨hstep, hcase⟩ := patient_cases hs
  cases step_cases hstep with
  | answer _ w r h headers _ _ _ =>
    show (c.finished r h).continued = false
    rw [finished, written]
    split <;> rfl
  | written _ => exact hquiet
  | continued _ _ _ | upgraded _ _ _ _ _ => simp at hcase

/-- A request, with what it is answered with. -/
def Event.answered : Event → Option (Request × Handled)
  | .answer r h _ _ => some (r, r.handled h)
  | .continued _ | .upgraded _ _ | .written => none

/-- What one answer is to a client that waits. -/
theorem delivered_of_run (hrun : Run PatientStep start es c) {past future : List Event}
    {r : Request} {h : Handled} {called : Bool} {sent : Bytes}
    (heq : es = past ++ .answer r h called sent :: future) :
    called = !r.isInvalidRequest ∧
      (Delivered r (r.handled h) sent ↔ InSync (past.any Event.isHead) r h) := by
  subst heq
  obtain ⟨m, hpast, hfuture⟩ := hrun.split
  obtain ⟨m', hstep, -⟩ := hfuture.cons_split
  obtain ⟨-, hwritten | ⟨w, r', h', hzero, htakes, heq⟩⟩ := patient_cases hstep
  · cases hwritten
  · simp only [Event.answer.injEq] at heq
    obtain ⟨rfl, rfl, rfl, rfl⟩ := heq
    have hresting :=
      (kept_of_run (hpast.mono fun _ _ _ h => (patient_cases h).1) htakes).ready hzero
    refine ⟨?_, delivered_iff hresting⟩
    rw [respond, hresting.notCompleted]
    cases r.isInvalidRequest <;> rfl

end Connection

end LockFreeKV.Crow
