import LockFreeKV.Crow.Router
import LockFreeKV.Lib.HttpMessage

/-!
# Writing a response

One `response` object serves all requests of a connection. It is filled by the router or a
handler, completed, written and cleared; `skip_body` and `manual_length_header` belong to none of
these and stay as they are. The order in which the header map is walked is left open.
-/
namespace LockFreeKV.Crow

open LockFreeKV.Lib

/-- `statusCodes`, without what is the same in all lines. -/
def statusTexts : List (Nat × String) :=
  [(100, "100 Continue"), (101, "101 Switching Protocols"), (200, "200 OK"), (201, "201 Created"),
    (202, "202 Accepted"), (203, "203 Non-Authoritative Information"), (204, "204 No Content"),
    (205, "205 Reset Content"), (206, "206 Partial Content"), (300, "300 Multiple Choices"),
    (301, "301 Moved Permanently"), (302, "302 Found"), (303, "303 See Other"),
    (304, "304 Not Modified"), (307, "307 Temporary Redirect"), (308, "308 Permanent Redirect"),
    (400, "400 Bad Request"), (401, "401 Unauthorized"), (403, "403 Forbidden"),
    (404, "404 Not Found"), (405, "405 Method Not Allowed"),
    (407, "407 Proxy Authentication Required"), (409, "409 Conflict"), (410, "410 Gone"),
    (413, "413 Payload Too Large"), (415, "415 Unsupported Media Type"),
    (416, "416 Range Not Satisfiable"), (417, "417 Expectation Failed"),
    (428, "428 Precondition Required"), (429, "429 Too Many Requests"),
    (451, "451 Unavailable For Legal Reasons"), (500, "500 Internal Server Error"),
    (501, "501 Not Implemented"), (502, "502 Bad Gateway"), (503, "503 Service Unavailable"),
    (504, "504 Gateway Timeout"), (506, "506 Variant Also Negotiates")]

/-- A code without a line becomes 500. -/
def knownCode (code : Nat) : Nat := if (statusTexts.lookup code).isSome then code else 500

def statusText (code : Nat) : Bytes := ofString ((statusTexts.lookup code).getD "")

/-- The first line. -/
def statusLine (code : Nat) : Bytes := ofString "HTTP/1.1 " ++ statusText code

/-- A static file that `stat` finds, with the type that its extension has. It does not change while
it is sent. -/
structure StaticFile where
  content : Bytes
  mimeType : Option Bytes
  mimeTypeOk : ∀ mime ∈ mimeType, FieldOk (ofString "Content-Type", mime)

/-- `response`. -/
structure Response where
  code : Nat
  body : Bytes
  headers : List (Bytes × Bytes)
  skipBody : Bool
  manualLengthHeader : Bool
  completed : Bool
  file : Option StaticFile

namespace Response

/-- A default response. -/
def new : Response := ⟨200, [], [], false, false, false, none⟩

def setHeader (res : Response) (key value : Bytes) : Response :=
  { res with headers := res.headers.filter (fun field => !sameName field.1 key) ++ [(key, value)] }

def addHeader (res : Response) (key value : Bytes) : Response :=
  { res with headers := res.headers ++ [(key, value)] }

def hasHeader (res : Response) (key : Bytes) : Bool :=
  res.headers.any fun field => sameName field.1 key

def getHeaderValue (res : Response) (key : Bytes) : Bytes := (fieldValue res.headers key).getD []

/-- `operator=`. -/
def assign (res r : Response) : Response :=
  { res with
    body := r.body, code := r.code, headers := r.headers, completed := r.completed, file := r.file }

def clear (res : Response) : Response :=
  { res with body := [], code := 200, headers := [], completed := false, file := none }

/-- `end`, up to the call of the completion handler. -/
def finish (res : Response) : Response :=
  if res.completed then res
  else if res.skipBody then
    { res.setHeader (ofString "Content-Length") (decimal res.body.length) with
      body := [], manualLengthHeader := true, completed := true }
  else { res with completed := true }

/-- `set_static_file_info_unsafe`, up to the `end` for a file that is not there. -/
def setStaticFileInfo (res : Response) : Option StaticFile → Response
  | some file =>
    let res := { res with file := some file, code := 200 }.addHeader (ofString "Content-Length")
      (decimal file.content.length)
    match file.mimeType with
    | some mime => res.addHeader (ofString "Content-Type") mime
    | none => res
  | none => { res with code := 404 }

end Response

/-! ## What a connection writes -/

/-- What an answer is written with. -/
structure Writer where
  serverName : Bytes
  date : Bytes
  walk : List (Bytes × Bytes) → List (Bytes × Bytes)
  /-- What is on the stack where a file is read to. -/
  stack : Bytes
  serverNameOk : FieldOk (ofString "Server", serverName)
  dateOk : FieldOk (ofString "Date", date)
  walk_perm : ∀ headers, (walk headers).Perm headers
  stack_length : stack.length = 16384

/-- The fields that are written behind those of the response. -/
def Writer.ownFields (w : Writer) (addKeepAlive : Bool) (res : Response) : List (Bytes × Bytes) :=
  (if res.manualLengthHeader || res.hasHeader (ofString "content-length") then []
    else [(ofString "Content-Length", decimal res.body.length)]) ++
  (if res.hasHeader (ofString "server") then [] else [(ofString "Server", w.serverName)]) ++
  (if res.hasHeader (ofString "date") then [] else [(ofString "Date", w.date)]) ++
  (if addKeepAlive then [(ofString "Connection", ofString "Keep-Alive")] else [])

/-- All fields. -/
def Writer.fields (w : Writer) (addKeepAlive : Bool) (res : Response) : List (Bytes × Bytes) :=
  w.walk res.headers ++ w.ownFields addKeepAlive res

/-- An error without a body gets its text, with the end of its line. -/
def refill (code : Nat) (body : Bytes) : Bytes :=
  if 400 ≤ code ∧ body = [] then statusText code ++ crlf else body

theorem refill_nil_iff {code : Nat} : refill code [] = [] ↔ code < 400 := by
  unfold refill
  by_cases hcode : 400 ≤ code
  · simp [hcode, crlf]
  · simp [hcode]
    omega

theorem refill_of_ne {code : Nat} {body : Bytes} (hne : body ≠ []) : refill code body = body :=
  if_neg fun h => hne h.2

theorem refill_of_lt {code : Nat} (hcode : code < 400) (body : Bytes) : refill code body = body :=
  if_neg fun h => absurd h.1 (by omega)

theorem lt_of_bodiless {code : Nat} (h : bodiless false code = true) : code < 400 := by
  simp only [bodiless, Bool.false_or, Bool.or_eq_true, decide_eq_true_eq, beq_iff_eq] at h
  omega

/-- The text of an error that lost its body is the body itself, unless there was another. -/
theorem refill_nil_eq_iff {code : Nat} {body : Bytes} :
    refill code [] = refill code body ↔ body = [] ∨ body = refill code [] := by
  by_cases hnil : body = []
  · simp [hnil]
  · simp [hnil, refill_of_ne hnil, eq_comm]

/-- The default of `res_stream_threshold_`. -/
def streamThreshold : Nat := 1048576

theorem refill_small {code : Nat} {body : Bytes} (hbody : body.length < streamThreshold) :
    (refill code body).length < streamThreshold := by
  have htexts : ∀ entry ∈ statusTexts, (ofString entry.2).length ≤ 100 := by decide
  have htext : (statusText code).length ≤ 100 := by
    unfold statusText
    cases hlookup : statusTexts.lookup code with
    | none => exact Nat.zero_le _
    | some text =>
      obtain ⟨before, after, heq, -⟩ := List.lookup_eq_some_iff.mp hlookup
      exact htexts (code, text) (heq ▸ by simp)
  unfold refill
  split
  · rw [List.length_append]
    exact Nat.lt_of_le_of_lt (Nat.add_le_add_right htext _) (by decide)
  · exact hbody

/-- The code and the body that are written. -/
def Response.prepare (res : Response) : Response :=
  { res with code := knownCode res.code, body := refill (knownCode res.code) res.body }

/-- `prepare_buffers`, for a response that has been prepared. -/
def Writer.header (w : Writer) (addKeepAlive : Bool) (res : Response) : Bytes :=
  headerBytes (statusLine res.code) (w.fields addKeepAlive res)

/-- The pieces in which a large body is written. -/
def streamPieces : Nat → Bytes → List Bytes
  | 0, body => [body]
  | n + 1, body =>
    if 16384 < body.length then body.take 16384 :: streamPieces n (body.drop 16384) else [body]

/-- The pieces of a file. The whole buffer is written, whatever has been read into it. -/
def filePieces : Nat → Bytes → Bytes → List Bytes
  | 0, _, _ => []
  | n + 1, buf, content =>
    if content = [] then []
    else
      let read := content.take 16384
      let buf := read ++ buf.drop read.length
      buf :: filePieces n buf (content.drop 16384)

theorem flatten_streamPieces (n : Nat) (body : Bytes) : (streamPieces n body).flatten = body := by
  induction n generalizing body with
  | zero => simp [streamPieces]
  | succ n ih =>
    unfold streamPieces
    split
    · rw [List.flatten_cons, ih, List.take_append_drop]
    · simp

/-- What is written of a file is its content and, unless that fills the last buffer, the rest of
the buffer. -/
theorem flatten_filePieces {n : Nat} {buf content : Bytes} (hbuf : buf.length = 16384)
    (hn : content.length ≤ n) : ∃ rest, (filePieces n buf content).flatten = content ++ rest ∧
      (rest = [] ↔ content.length % 16384 = 0) := by
  induction n generalizing buf content with
  | zero =>
    obtain rfl : content = [] := List.length_eq_zero_iff.mp (by omega)
    exact ⟨[], rfl, by simp⟩
  | succ n ih =>
    unfold filePieces
    split
    · next hnil => exact ⟨[], by simp [hnil], by simp [hnil]⟩
    · next hne =>
      have hpos : 0 < content.length := List.length_pos_iff.mpr hne
      by_cases hshort : content.length ≤ 16384
      · have hdrop : content.drop 16384 = [] := List.drop_eq_nil_iff.mpr hshort
        have htake : content.take 16384 = content := List.take_of_length_le hshort
        have hnone : filePieces n (content ++ buf.drop content.length) [] = [] := by
          cases n <;> simp [filePieces]
        refine ⟨buf.drop content.length, ?_, ?_⟩
        · simp only [htake, hdrop, hnone, List.flatten_cons, List.flatten_nil, List.append_nil]
        · rw [List.drop_eq_nil_iff, hbuf]
          omega
      · have hlen : (content.take 16384).length = 16384 := by
          rw [List.length_take]
          omega
        have hnext : (content.take 16384 ++ buf.drop (content.take 16384).length).length =
            16384 := by
          rw [List.length_append, List.length_drop, hlen, hbuf]
        have hfewer : (content.drop 16384).length ≤ n := by
          rw [List.length_drop]
          omega
        obtain ⟨rest, hrest, hiff⟩ := ih hnext hfewer
        refine ⟨rest, ?_, ?_⟩
        · simp only [List.flatten_cons, hrest]
          rw [hlen, ← hbuf, List.drop_length, List.append_nil, hbuf, ← List.append_assoc,
            List.take_append_drop]
        · rw [hiff, List.length_drop]
          omega

/-! ## Lines and fields -/

theorem statusTexts_ok : ∀ entry ∈ statusTexts,
    LineOk (ofString "HTTP/1.1 " ++ ofString entry.2) ∧
      readCode (ofString "HTTP/1.1 " ++ ofString entry.2) = some entry.1 := by decide

/-- The first line can be written, and the code read from it. -/
theorem statusLine_ok (code : Nat) : LineOk (statusLine (knownCode code)) ∧
    readCode (statusLine (knownCode code)) = some (knownCode code) := by
  have hknown : ∃ text, statusTexts.lookup (knownCode code) = some text := by
    unfold knownCode
    split
    · next h => exact Option.isSome_iff_exists.mp h
    · exact ⟨_, rfl⟩
  obtain ⟨text, htext⟩ := hknown
  obtain ⟨before, after, heq, -⟩ := List.lookup_eq_some_iff.mp htext
  have hmem : (knownCode code, text) ∈ statusTexts := heq ▸ by simp
  rw [statusLine, statusText, htext]
  exact statusTexts_ok _ hmem

section Headers

variable {res : Response} {key key' value : Bytes} {w : Writer} {addKeepAlive : Bool}

theorem named_setHeader : named (res.setHeader key value).headers key' =
    if sameName key key' then [(key, value)] else named res.headers key' := by
  have hset : named (res.setHeader key value).headers key' =
      named (res.headers.filter fun field => !sameName field.1 key) key' ++
        named [(key, value)] key' := named_append
  split
  · next hsame =>
    have hnone : named (res.headers.filter fun field => !sameName field.1 key) key' = [] := by
      refine List.filter_eq_nil_iff.mpr fun field hfield hname => ?_
      have hother := (List.mem_filter.mp hfield).2
      rw [sameName_comm, sameName_congr hsame, sameName_comm, hname] at hother
      cases hother
    rw [hset, hnone, List.nil_append, named_singleton, if_pos hsame]
  · next hother =>
    rw [hset, named_singleton, if_neg hother, List.append_nil, named, List.filter_filter]
    refine List.filter_congr fun field _ => ?_
    cases hname : sameName field.1 key' with
    | false => rfl
    | true =>
      have hno : sameName field.1 key = false := by
        rw [sameName_congr hname, sameName_comm]
        exact Bool.eq_false_iff.mpr hother
      rw [hno]
      rfl

theorem named_addHeader : named (res.addHeader key value).headers key' =
    named res.headers key' ++ named [(key, value)] key' := named_append

theorem hasHeader_iff : res.hasHeader key = true ↔ named res.headers key ≠ [] := by
  rw [Response.hasHeader, List.any_eq_true, named, Ne, List.filter_eq_nil_iff]
  simp

theorem fieldsOk_addHeader (h : ∀ field ∈ res.headers, FieldOk field) (hnew : FieldOk (key, value)) :
    ∀ field ∈ (res.addHeader key value).headers, FieldOk field := by
  intro field hfield
  rcases List.mem_append.mp hfield with hold | hlast
  · exact h field hold
  · obtain rfl := List.mem_singleton.mp hlast
    exact hnew

theorem fieldsOk_setHeader (h : ∀ field ∈ res.headers, FieldOk field) (hnew : FieldOk (key, value)) :
    ∀ field ∈ (res.setHeader key value).headers, FieldOk field := by
  intro field hfield
  rcases List.mem_append.mp hfield with hold | hlast
  · exact h field (List.mem_filter.mp hold).1
  · obtain rfl := List.mem_singleton.mp hlast
    exact hnew

theorem fieldOk_length (n : Nat) : FieldOk (ofString "Content-Length", decimal n) := by
  have hdigit : ∀ c ∈ decimal n, c ≠ 13 ∧ c ≠ ' '.toUInt8 := fun c hc => by
    have h := isDecimal_of_mem_decimal hc
    constructor <;> rintro rfl <;> cases h
  have hname : 13 ∉ ofString "Content-Length" ∧ ':'.toUInt8 ∉ ofString "Content-Length" := by decide
  refine ⟨hname.1, hname.2, fun hc => (hdigit 13 hc).1 rfl, fun hc => ?_⟩
  exact (hdigit _ (List.mem_of_mem_head? hc)).2 rfl

/-- Every field can be written. -/
theorem fieldsOk (h : ∀ field ∈ res.headers, FieldOk field) :
    ∀ field ∈ w.fields addKeepAlive res, FieldOk field := by
  have hshown : ∀ (c : Bool) (own : Bytes × Bytes), FieldOk own →
      ∀ field ∈ (if c then [] else [own]), FieldOk field := by
    intro c own hown field hfield
    cases c with
    | true => cases hfield
    | false =>
      obtain rfl := List.mem_singleton.mp hfield
      exact hown
  intro field hfield
  simp only [Writer.fields, Writer.ownFields, List.mem_append] at hfield
  rcases hfield with hfield | ((hfield | hfield) | hfield) | hfield
  · exact h field ((w.walk_perm _).mem_iff.mp hfield)
  · exact hshown _ _ (fieldOk_length _) field hfield
  · exact hshown _ _ w.serverNameOk field hfield
  · exact hshown _ _ w.dateOk field hfield
  · cases addKeepAlive with
    | false => cases hfield
    | true =>
      obtain rfl := List.mem_singleton.mp hfield
      exact (fieldOk_iff _).mpr (by decide)

/-- The length that an answer announces. -/
theorem announced_length (hone : (named res.headers (ofString "content-length")).length ≤ 1) :
    fieldValue (w.fields addKeepAlive res) (ofString "content-length") =
      match named res.headers (ofString "content-length") with
      | [] => if res.manualLengthHeader then none else some (decimal res.body.length)
      | field :: _ => some field.2 := by
  have hown : named (w.ownFields addKeepAlive res) (ofString "content-length") =
      if res.manualLengthHeader || res.hasHeader (ofString "content-length") then []
      else [(ofString "Content-Length", decimal res.body.length)] := by
    have hother : ∀ (c : Bool) (name value : Bytes),
        sameName name (ofString "content-length") = false →
        named (if c then [] else [(name, value)]) (ofString "content-length") = [] := by
      intro c name value hno
      cases c with
      | true => rfl
      | false => exact (named_singleton _).trans (if_neg (by simp [hno]))
    have hlast : named (if addKeepAlive then [(ofString "Connection", ofString "Keep-Alive")] else [])
        (ofString "content-length") = [] := by
      cases addKeepAlive <;> decide
    rw [Writer.ownFields, named_append, named_append, named_append, hlast,
      hother _ _ w.serverName (by decide), hother _ _ w.date (by decide), List.append_nil,
      List.append_nil, List.append_nil]
    split
    · rfl
    · rfl
  rw [fieldValue_eq, Writer.fields, named_append, named_perm (w.walk_perm _).symm hone, hown]
  cases hnamed : named res.headers (ofString "content-length") with
  | nil =>
    have hno : res.hasHeader (ofString "content-length") = false :=
      Bool.eq_false_iff.mpr fun h => hasHeader_iff.mp h hnamed
    rw [hno, Bool.or_false]
    cases res.manualLengthHeader <;> rfl
  | cons field rest => rfl

/-- **An answer is read back** exactly when it announces the length of what is sent behind its
header. -/
theorem readAnswer_iff {head : Bool} {code : Nat} (hcode : res.code = knownCode code)
    (hfields : ∀ field ∈ res.headers, FieldOk field) (sent : Bytes) (m : Message) :
    (∀ rest, readMessage head (w.header addKeepAlive res ++ (sent ++ rest)) = some (m, rest)) ↔
      m = ⟨res.code, w.fields addKeepAlive res, sent⟩ ∧ Announced head m := by
  have hline := statusLine_ok code
  rw [← hcode] at hline
  exact readMessage_iff hline.1 hline.2 (fieldsOk hfields) sent m

end Headers

end LockFreeKV.Crow
