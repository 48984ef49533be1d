import LockFreeKV.Http.Service

/-!
# Names on their way from the client

`Encodes e s` holds for every way to write the bytes `s` as part of a URL: each byte
as an escape with digits of either case, as itself where that is possible, or as a
plus sign for a space. The decoder undoes all of them. The client's `quote_plus` is
one, so the server's keys are the names' UTF-8 bytes.
-/
namespace LockFreeKV.Http

open LockFreeKV.Lib LockFreeKV.Engine

/-- `e` is an encoding of `s`. -/
inductive Encodes : Bytes → Bytes → Prop
  | nil : Encodes [] []
  | escaped {c first second : UInt8} {x y : Nat} {e s : Bytes} (hx : hexDigit first = some x)
      (hy : hexDigit second = some y) (hc : c.toNat = 16 * x + y) (h : Encodes e s) :
      Encodes ('%'.toUInt8 :: first :: second :: e) (c :: s)
  | literal {c : UInt8} {e s : Bytes} (hpercent : c ≠ '%'.toUInt8) (hplus : c ≠ '+'.toUInt8)
      (h : Encodes e s) : Encodes (c :: e) (c :: s)
  | space {e s : Bytes} (h : Encodes e s) : Encodes ('+'.toUInt8 :: e) (' '.toUInt8 :: s)

/-! ## The client -/

/-- The characters that `urllib.parse.quote` never quotes: letters, digits and `_.-~`. -/
def alwaysSafe (c : UInt8) : Bool :=
  ('A'.toUInt8 ≤ c && c ≤ 'Z'.toUInt8) || ('a'.toUInt8 ≤ c && c ≤ 'z'.toUInt8) ||
    ('0'.toUInt8 ≤ c && c ≤ '9'.toUInt8) || (ofString "_.-~").contains c

/-- A byte in `urllib.parse.quote`: itself, or `%02X`. -/
def quoteByte (safe : Bytes) (c : UInt8) : Bytes :=
  if alwaysSafe c || safe.contains c then [c]
  else ['%'.toUInt8, Json.hexChar (c.toNat / 16), Json.hexChar (c.toNat % 16)]

def quote (safe b : Bytes) : Bytes := b.flatMap (quoteByte safe)

/-- `urllib.parse.quote_plus` on the UTF-8 bytes of a text. -/
def quotePlus (b : Bytes) : Bytes :=
  if ' '.toUInt8 ∉ b then quote [] b
  else (quote [' '.toUInt8] b).map fun c => if c = ' '.toUInt8 then '+'.toUInt8 else c

/-- What `quote_plus` makes of one byte. -/
def quotePlusByte (c : UInt8) : Bytes := if c = ' '.toUInt8 then ['+'.toUInt8] else quoteByte [] c

theorem map_quoteByte (c : UInt8) :
    ((quoteByte [' '.toUInt8] c).map fun c => if c = ' '.toUInt8 then '+'.toUInt8 else c) =
      quotePlusByte c := by
  have hall : ∀ n < 256, ((quoteByte [' '.toUInt8] (UInt8.ofNat n)).map fun c =>
      if c = ' '.toUInt8 then '+'.toUInt8 else c) = quotePlusByte (UInt8.ofNat n) := by
    decide +kernel
  have hc := hall c.toNat c.toNat_lt
  rwa [UInt8.ofNat_toNat] at hc

/-- The bytes are quoted one by one. -/
theorem quotePlus_eq (b : Bytes) : quotePlus b = b.flatMap quotePlusByte := by
  unfold quotePlus quote
  by_cases hspace : ' '.toUInt8 ∈ b
  · rw [if_neg (not_not.mpr hspace), List.map_flatMap]
    exact congrArg b.flatMap (funext map_quoteByte)
  · rw [if_pos hspace]
    refine List.flatMap_congr fun c hc => ?_
    rw [quotePlusByte, if_neg (ne_of_mem_of_not_mem hc hspace)]

theorem quotePlusByte_cases (c : UInt8) :
    (c = ' '.toUInt8 ∧ quotePlusByte c = ['+'.toUInt8]) ∨
    (c ≠ '%'.toUInt8 ∧ c ≠ '+'.toUInt8 ∧ quotePlusByte c = [c]) ∨
    quotePlusByte c =
        ['%'.toUInt8, Json.hexChar (c.toNat / 16), Json.hexChar (c.toNat % 16)] ∧
      hexDigit (Json.hexChar (c.toNat / 16)) = some (c.toNat / 16) ∧
      hexDigit (Json.hexChar (c.toNat % 16)) = some (c.toNat % 16) := by
  have hall : ∀ n < 256, (UInt8.ofNat n = ' '.toUInt8 ∧
        quotePlusByte (UInt8.ofNat n) = ['+'.toUInt8]) ∨
      (UInt8.ofNat n ≠ '%'.toUInt8 ∧ UInt8.ofNat n ≠ '+'.toUInt8 ∧
        quotePlusByte (UInt8.ofNat n) = [UInt8.ofNat n]) ∨
      quotePlusByte (UInt8.ofNat n) = ['%'.toUInt8, Json.hexChar ((UInt8.ofNat n).toNat / 16),
          Json.hexChar ((UInt8.ofNat n).toNat % 16)] ∧
        hexDigit (Json.hexChar ((UInt8.ofNat n).toNat / 16)) = some ((UInt8.ofNat n).toNat / 16) ∧
        hexDigit (Json.hexChar ((UInt8.ofNat n).toNat % 16)) =
          some ((UInt8.ofNat n).toNat % 16) := by decide +kernel
  have hc := hall c.toNat c.toNat_lt
  rwa [UInt8.ofNat_toNat] at hc

/-- The client's encoding is one of those that the decoder has to undo. -/
theorem encodes_quotePlus (b : Bytes) : Encodes (quotePlus b) b := by
  rw [quotePlus_eq]
  induction b with
  | nil => exact .nil
  | cons c b ih =>
    rw [List.flatMap_cons]
    rcases quotePlusByte_cases c with ⟨rfl, hbyte⟩ | ⟨hpercent, hplus, hbyte⟩ | ⟨hbyte, hx, hy⟩
    · rw [hbyte]
      exact .space ih
    · rw [hbyte]
      exact .literal hpercent hplus ih
    · rw [hbyte]
      exact .escaped hx hy (by omega) ih

/-- Nothing in an encoded name ends the path segment. -/
theorem quotePlus_segment (b : Bytes) :
    '/'.toUInt8 ∉ quotePlus b ∧ '?'.toUInt8 ∉ quotePlus b := by
  have hall : ∀ n < 256, '/'.toUInt8 ∉ quotePlusByte (UInt8.ofNat n) ∧
      '?'.toUInt8 ∉ quotePlusByte (UInt8.ofNat n) := by decide +kernel
  have hbyte : ∀ c, '/'.toUInt8 ∉ quotePlusByte c ∧ '?'.toUInt8 ∉ quotePlusByte c := by
    intro c
    have hc := hall c.toNat c.toNat_lt
    rwa [UInt8.ofNat_toNat] at hc
  rw [quotePlus_eq]
  simp only [List.mem_flatMap, not_exists, not_and]
  exact ⟨fun c _ => (hbyte c).1, fun c _ => (hbyte c).2⟩

/-! ## The server -/

theorem decodeRest_encodes {e s : Bytes} (h : Encodes e s) : decodeRest e = s := by
  induction h with
  | nil => rfl
  | @escaped c first second x y e s hx hy hc h ih =>
    have hne : '%'.toUInt8 ≠ '+'.toUInt8 := by decide
    rw [decodeRest_cons, if_neg hne, if_pos rfl]
    simp only [sscanfHex_digits hx hy]
    rw [if_pos (by decide : eof ≠ 1), ih, ← hc]
    simp
  | literal hpercent hplus h ih => rw [decodeRest_cons, if_neg hplus, if_neg hpercent, ih]
  | space h ih => rw [decodeRest_cons, if_pos rfl, ih]

theorem Encodes.eq_nil {s : Bytes} (h : Encodes [] s) : s = [] := by
  cases h
  rfl

/-- A single character is decoded without a look behind its end. -/
theorem urlDecode_encodes_singleton {c : UInt8} {s : Bytes} (h : Encodes [c] s) :
    urlDecode [c] = .ok s := by
  cases h with
  | literal hpercent hplus hrest =>
    rw [hrest.eq_nil]
    simp [urlDecode, urlDecodeLoop, charAt, hplus, hpercent, bind, Except.bind]
  | space hrest =>
    rw [hrest.eq_nil]
    rfl

/-- **The decoder undoes every encoding.** -/
theorem urlDecode_encodes {e s : Bytes} (h : Encodes e s) : urlDecode e = .ok s := by
  match e with
  | [] => rw [h.eq_nil]; rfl
  | [c] => exact urlDecode_encodes_singleton h
  | c :: d :: e => rw [urlDecode_eq (by simp), decodeRest_encodes h]

theorem ofString_injective {a b : String} (h : ofString a = ofString b) : a = b := by
  have harray : a.toByteArray.data = b.toByteArray.data := Array.toList_inj.mp h
  exact String.toByteArray_inj.mp (ByteArray.ext harray)

theorem ofString_ne_nil {name : String} (h : name ≠ "") : ofString name ≠ [] := fun hnil =>
  h (ofString_injective hnil)

/-- What the handlers do with a request for `key` that the client has encoded as `nameRaw`. -/
structure Serves (R : Rapidjson) {h : Hashing Bytes} (engine : DataEngine h Bytes)
    (nameRaw key : Bytes) : Prop where
  looksUp : ∃ reply, getRecord noFailure engine nameRaw = .ok (reply, (engine.get key).2) ∧
    match engine.table.toMap key with
    | some value => reply.code = 200 ∧
        (ofString "value", .string .value (stringRef value)) ∈ reply.body.members
    | none => reply.code = 404
  stores : ∀ body value, posted R (cStr body) = some value →
    ∃ reply engine', postRecord noFailure R engine nameRaw body = .ok (reply, engine') ∧
      reply.code = 200 ∧
      engine'.table.toMap = Function.update engine.table.toMap key (some value)

theorem serves_of_encodes (R : Rapidjson) {h : Hashing Bytes} (engine : DataEngine h Bytes)
    {nameRaw key : Bytes} (henc : Encodes nameRaw key) (hne : key ≠ []) :
    Serves R engine nameRaw key where
  looksUp := by
    rw [getRecord_eq engine (urlDecode_encodes henc) hne]
    cases engine.table.toMap key with
    | none => exact ⟨_, rfl, rfl⟩
    | some value => exact ⟨_, rfl, rfl, by simp [JsonBody.add]⟩
  stores body value hvalue := by
    rw [postRecord_eq R engine body (urlDecode_encodes henc) hne, requestValue_eq_ok.mpr hvalue]
    exact ⟨_, _, rfl, rfl, by rw [DataEngine.set_table, Table.toMap_set]⟩

/-- **Names survive the way to the server.** The decoder undoes every encoding. A name that the
client sends is looked up and stored under exactly its UTF-8 bytes, and two names have the same
key only if they are equal. -/
theorem client_names_kept :
    (∀ e s, Encodes e s → urlDecode e = .ok s) ∧
    (∀ (R : Rapidjson) (h : Hashing Bytes) (engine : DataEngine h Bytes) (name : String),
      name ≠ "" → Serves R engine (quotePlus (ofString name)) (ofString name)) ∧
    ∀ name name' : String,
      urlDecode (quotePlus (ofString name)) = urlDecode (quotePlus (ofString name')) ↔
        name = name' := by
  refine ⟨fun e s henc => urlDecode_encodes henc, fun R h engine name hne =>
    serves_of_encodes R engine (encodes_quotePlus _) (ofString_ne_nil hne), fun name name' => ?_⟩
  rw [urlDecode_encodes (encodes_quotePlus _), urlDecode_encodes (encodes_quotePlus _)]
  exact ⟨fun hkeys => ofString_injective (Except.ok.inj hkeys), fun hnames => by rw [hnames]⟩

example : quotePlus (ofString "50%+ é") = ofString "50%25%2B+%C3%A9" := by decide

/-- A percent sign, a slash and a space. -/
theorem client_names_kept_mixed :
    urlDecode (ofString "%3A%2f+~") = .ok (ofString ":/ ~") ∧
    Serves Rapidjson.reference (DataEngine.new byLength Bytes)
      (quotePlus (ofString "100%/b c")) (ofString "100%/b c") := by
  refine ⟨client_names_kept.1 _ _ ?_, client_names_kept.2.1 _ _ _ _ (by decide)⟩
  have hcolon : Encodes (ofString "%3A%2f+~") (ofString ":/ ~") :=
    .escaped (x := 3) (y := 10) rfl rfl rfl (.escaped (x := 2) (y := 15) rfl rfl rfl
      (.space (.literal (by decide) (by decide) .nil)))
  exact hcolon

end LockFreeKV.Http
