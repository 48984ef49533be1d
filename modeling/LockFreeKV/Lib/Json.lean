import LockFreeKV.Lib.Bytes
import Mathlib.Data.List.TakeWhile
import Mathlib.Tactic.IntervalCases

/-!
# JSON texts as bytes

A reader for the grammar of RFC 8259 and a writer. Both treat a string as bytes:
bytes from `0x80` on are copied, so the text of a value is well-formed UTF-8 when
its strings are. The reader takes any escape of a character, and the writer is
given the escapes it uses; `read_write_object` is the round trip for objects of
strings, in whichever way the writer escapes.
-/
namespace LockFreeKV.Lib

inductive Json
  | null
  | bool (b : Bool)
  | number (literal : Bytes)
  | string (s : Bytes)
  | array (items : List Json)
  | object (members : List (Bytes × Json))

namespace Json

/-! ## Reading -/

def isBlank (c : UInt8) : Bool :=
  c == ' '.toUInt8 || c == '\t'.toUInt8 || c == '\n'.toUInt8 || c == '\r'.toUInt8

def skipBlank (b : Bytes) : Bytes := b.dropWhile isBlank

/-- Four hexadecimal digits. -/
def readHex4 : Bytes → Option (Nat × Bytes)
  | a :: b :: c :: d :: rest => do
    let a ← hexDigit a
    let b ← hexDigit b
    let c ← hexDigit c
    let d ← hexDigit d
    some (4096 * a + 256 * b + 16 * c + d, rest)
  | _ => none

/-- What follows a high surrogate must be an escaped low one. -/
def readLowSurrogate : Bytes → Option (Nat × Bytes)
  | a :: b :: rest =>
    if a = '\\'.toUInt8 ∧ b = 'u'.toUInt8 then
      match readHex4 rest with
      | some (low, rest) => if 0xDC00 ≤ low ∧ low < 0xE000 then some (low, rest) else none
      | none => none
    else none
  | _ => none

/-- The character behind `\u`. A lone surrogate is an error. -/
def readUnicode (b : Bytes) : Option (Bytes × Bytes) :=
  match readHex4 b with
  | none => none
  | some (n, rest) =>
    if 0xD800 ≤ n ∧ n < 0xDC00 then
      match readLowSurrogate rest with
      | none => none
      | some (low, rest) =>
        let code := 0x10000 + 0x400 * (n - 0xD800) + (low - 0xDC00)
        some (String.utf8EncodeChar (Char.ofNat code), rest)
    else if 0xDC00 ≤ n ∧ n < 0xE000 then none
    else some (String.utf8EncodeChar (Char.ofNat n), rest)

/-- The character behind a backslash. -/
def readEscape : Bytes → Option (Bytes × Bytes)
  | [] => none
  | c :: rest =>
    if c = 'u'.toUInt8 then readUnicode rest
    else if c = '"'.toUInt8 ∨ c = '\\'.toUInt8 ∨ c = '/'.toUInt8 then some ([c], rest)
    else if c = 'b'.toUInt8 then some ([8], rest)
    else if c = 'f'.toUInt8 then some ([12], rest)
    else if c = 'n'.toUInt8 then some ([10], rest)
    else if c = 'r'.toUInt8 then some ([13], rest)
    else if c = 't'.toUInt8 then some ([9], rest)
    else none

/-- One character of a string, escaped or not. -/
def readChar : Bytes → Option (Bytes × Bytes)
  | [] => none
  | c :: rest =>
    if c = '\\'.toUInt8 then readEscape rest
    else if c < ' '.toUInt8 then none
    else some ([c], rest)

/-- The characters of a string up to its closing quote. -/
def readChars : Nat → Bytes → Option (Bytes × Bytes)
  | 0, _ => none
  | fuel + 1, b =>
    if b.head? = some '"'.toUInt8 then some ([], b.tail)
    else
      match readChar b with
      | none => none
      | some (s, rest) => (readChars fuel rest).map fun r => (s ++ r.1, r.2)

/-- A string without its opening quote. -/
def readString (b : Bytes) : Option (Bytes × Bytes) := readChars b.length b

def isDigit (c : UInt8) : Bool := '0'.toUInt8 ≤ c && c ≤ '9'.toUInt8

/-- One digit or more. -/
def readDigits (b : Bytes) : Option (Bytes × Bytes) :=
  if b.takeWhile isDigit = [] then none else some (b.takeWhile isDigit, b.dropWhile isDigit)

/-- An optional part of a number that starts with one of the characters `start`. -/
def readPart (start : List UInt8) (signs : List UInt8) : Bytes → Option (Bytes × Bytes)
  | [] => some ([], [])
  | c :: rest =>
    if c ∈ start then
      match rest with
      | [] => none
      | d :: rest' =>
        if d ∈ signs then (readDigits rest').map fun r => (c :: d :: r.1, r.2)
        else (readDigits (d :: rest')).map fun r => (c :: r.1, r.2)
    else some ([], c :: rest)

/-- A number: sign, integer without leading zeros, fraction, exponent. -/
def readNumber (b : Bytes) : Option (Bytes × Bytes) := do
  let sign := b.takeWhile (· == '-'.toUInt8)
  if 1 < sign.length then none
  let (int, rest) ← readDigits (b.drop sign.length)
  if 1 < int.length ∧ int.head? = some '0'.toUInt8 then none
  let (fraction, rest) ← readPart ['.'.toUInt8] [] rest
  let (exponent, rest) ← readPart ['e'.toUInt8, 'E'.toUInt8] ['+'.toUInt8, '-'.toUInt8] rest
  some (sign ++ int ++ fraction ++ exponent, rest)

/-- The three literal names. -/
def readName (b : Bytes) : Option (Json × Bytes) :=
  if (ofString "null").isPrefixOf b then some (.null, b.drop 4)
  else if (ofString "true").isPrefixOf b then some (.bool true, b.drop 4)
  else if (ofString "false").isPrefixOf b then some (.bool false, b.drop 5)
  else none

mutual

/-- A value, behind white space. -/
def readValue : Nat → Bytes → Option (Json × Bytes)
  | 0, _ => none
  | fuel + 1, b =>
    match skipBlank b with
    | [] => none
    | c :: rest =>
      if c = '"'.toUInt8 then (readString rest).map fun r => (.string r.1, r.2)
      else if c = '{'.toUInt8 then
        if (skipBlank rest).head? = some '}'.toUInt8 then some (.object [], (skipBlank rest).tail)
        else (readMembers fuel rest).map fun r => (.object r.1, r.2)
      else if c = '['.toUInt8 then
        if (skipBlank rest).head? = some ']'.toUInt8 then some (.array [], (skipBlank rest).tail)
        else (readItems fuel rest).map fun r => (.array r.1, r.2)
      else
        match readName (c :: rest) with
        | some r => some r
        | none => (readNumber (c :: rest)).map fun r => (.number r.1, r.2)

/-- The members of an object up to its closing brace, at least one. -/
def readMembers : Nat → Bytes → Option (List (Bytes × Json) × Bytes)
  | 0, _ => none
  | fuel + 1, b =>
    if (skipBlank b).head? = some '"'.toUInt8 then
      match readString (skipBlank b).tail with
      | none => none
      | some (name, rest) =>
        if (skipBlank rest).head? = some ':'.toUInt8 then
          match readValue fuel (skipBlank rest).tail with
          | none => none
          | some (value, rest) =>
            if (skipBlank rest).head? = some '}'.toUInt8 then
              some ([(name, value)], (skipBlank rest).tail)
            else if (skipBlank rest).head? = some ','.toUInt8 then
              (readMembers fuel (skipBlank rest).tail).map fun r => ((name, value) :: r.1, r.2)
            else none
        else none
    else none

/-- The items of an array up to its closing bracket, at least one. -/
def readItems : Nat → Bytes → Option (List Json × Bytes)
  | 0, _ => none
  | fuel + 1, b =>
    match readValue fuel b with
    | none => none
    | some (value, rest) =>
      if (skipBlank rest).head? = some ']'.toUInt8 then some ([value], (skipBlank rest).tail)
      else if (skipBlank rest).head? = some ','.toUInt8 then
        (readItems fuel (skipBlank rest).tail).map fun r => (value :: r.1, r.2)
      else none

end

/-- A JSON text: one value and white space. -/
def read (b : Bytes) : Option Json :=
  match readValue (b.length + 1) b with
  | some (value, rest) => if skipBlank rest = [] then some value else none
  | none => none

/-! ## Writing -/

section Writing

variable (escape : UInt8 → Bytes)

def quote (s : Bytes) : Bytes := '"'.toUInt8 :: (s.flatMap escape ++ ['"'.toUInt8])

mutual

def write : Json → Bytes
  | .null => ofString "null"
  | .bool true => ofString "true"
  | .bool false => ofString "false"
  | .number literal => literal
  | .string s => quote escape s
  | .array items => '['.toUInt8 :: (writeItems items ++ [']'.toUInt8])
  | .object members => '{'.toUInt8 :: (writeMembers members ++ ['}'.toUInt8])

def writeItems : List Json → Bytes
  | [] => []
  | [value] => write value
  | value :: items => write value ++ ','.toUInt8 :: writeItems items

def writeMembers : List (Bytes × Json) → Bytes
  | [] => []
  | [(name, value)] => quote escape name ++ ':'.toUInt8 :: write value
  | (name, value) :: members =>
    quote escape name ++ ':'.toUInt8 :: (write value ++ ','.toUInt8 :: writeMembers members)

end

end Writing

/-- The digit of a number below 16. -/
def hexChar (n : Nat) : UInt8 := if n < 10 then UInt8.ofNat (48 + n) else UInt8.ofNat (55 + n)

/-- Short escapes where there are any, and `\u00XX` for the other control bytes. -/
def shortEscape (c : UInt8) : Bytes :=
  if c = '"'.toUInt8 ∨ c = '\\'.toUInt8 then ['\\'.toUInt8, c]
  else if c = 8 then ofString "\\b"
  else if c = 12 then ofString "\\f"
  else if c = 10 then ofString "\\n"
  else if c = 13 then ofString "\\r"
  else if c = 9 then ofString "\\t"
  else if c < ' '.toUInt8 then
    ofString "\\u00" ++ [hexChar (c.toNat / 16), hexChar (c.toNat % 16)]
  else [c]

example : (read (ofString " \x7b\"a\" : [1, -2.5e3, null], \"b\":\"x\\u00e9\\n\"\x7d ")).map
    (write shortEscape) = some (ofString "\x7b\"a\":[1,-2.5e3,null],\"b\":\"xé\\n\"\x7d") := by rfl

/-! ## Objects of strings -/

/-- The members with string values. -/
def strings (ms : List (Bytes × Bytes)) : List (Bytes × Json) := ms.map fun m => (m.1, .string m.2)

/-- Every character is replaced by itself or by an escape of it that the reader knows. -/
structure Escapes (escape : UInt8 → Bytes) : Prop extends Escaping escape where
  reads : ∀ c rest, readChar (escape c ++ rest) = some ([c], rest)
  unquoted : ∀ c, (escape c).head? ≠ some '"'.toUInt8

theorem skipBlank_cons {c : UInt8} (hc : isBlank c = false) (rest : Bytes) :
    skipBlank (c :: rest) = c :: rest := by simp [skipBlank, hc]

theorem quote_append (escape : UInt8 → Bytes) (s rest : Bytes) :
    quote escape s ++ rest = '"'.toUInt8 :: (s.flatMap escape ++ '"'.toUInt8 :: rest) := by
  simp [quote]

/-- The reader behind the opening brace of an object with members. -/
theorem readValue_object {rest : Bytes} (hrest : (skipBlank rest).head? ≠ some '}'.toUInt8)
    (fuel : Nat) :
    readValue (fuel + 1) ('{'.toUInt8 :: rest) =
      (readMembers fuel rest).map fun r => (.object r.1, r.2) := by
  rw [readValue, skipBlank_cons (by decide)]
  simp only [if_neg (show '{'.toUInt8 ≠ '"'.toUInt8 by decide), if_true, if_neg hrest]

theorem length_le_writeMembers (escape : UInt8 → Bytes) (ms : List (Bytes × Bytes)) :
    ms.length ≤ (writeMembers escape (strings ms)).length := by
  induction ms with
  | nil => exact Nat.le_refl 0
  | cons m ms ih =>
    cases ms with
    | nil => simp [strings, writeMembers, quote]
    | cons m' ms =>
      simp only [strings, List.map_cons, List.length_cons, writeMembers, quote,
        List.length_append] at ih ⊢
      omega

namespace Escapes

variable {escape : UInt8 → Bytes} (he : Escapes escape)

include he

theorem ne_nil (c : UInt8) : escape c ≠ [] := by
  by_cases hc : c < 128
  · exact (he.low c hc).2
  · rw [he.high c (UInt8.not_lt.mp hc)]
    exact List.cons_ne_nil _ _

theorem readChars_quote {s : Bytes} {fuel : Nat} (hfuel : s.length < fuel) (rest : Bytes) :
    readChars fuel (s.flatMap escape ++ '"'.toUInt8 :: rest) = some (s, rest) := by
  induction s generalizing fuel with
  | nil =>
    obtain ⟨fuel, rfl⟩ : ∃ k, fuel = k + 1 := ⟨fuel - 1, by omega⟩
    simp [readChars]
  | cons c s ih =>
    obtain ⟨fuel, rfl⟩ : ∃ k, fuel = k + 1 := ⟨fuel - 1, by simp at hfuel; omega⟩
    have hhead : (escape c ++ (s.flatMap escape ++ '"'.toUInt8 :: rest)).head? ≠
        some '"'.toUInt8 := by
      rw [List.head?_append_of_ne_nil _ (he.ne_nil c)]
      exact he.unquoted c
    rw [List.flatMap_cons, List.append_assoc, readChars, if_neg hhead, he.reads]
    simp only
    rw [ih (by simpa using hfuel)]
    rfl

theorem length_le_flatMap (s : Bytes) : s.length ≤ (s.flatMap escape).length := by
  induction s with
  | nil => exact Nat.le_refl 0
  | cons c s ih =>
    have hpos := List.length_pos_iff.mpr (he.ne_nil c)
    rw [List.flatMap_cons, List.length_append, List.length_cons]
    omega

theorem readString_quote (s rest : Bytes) :
    readString (s.flatMap escape ++ '"'.toUInt8 :: rest) = some (s, rest) := by
  have hle := he.length_le_flatMap s
  exact he.readChars_quote (by rw [List.length_append, List.length_cons]; omega) rest

theorem readValue_quote (s rest : Bytes) (fuel : Nat) :
    readValue (fuel + 1) (quote escape s ++ rest) = some (.string s, rest) := by
  rw [quote_append, readValue, skipBlank_cons (by decide)]
  simp only [if_pos, he.readString_quote, Option.map_some]

/-- The reader behind one member with a string value. -/
theorem readMembers_member (name value rest : Bytes) (fuel : Nat) :
    readMembers (fuel + 2) (quote escape name ++ ':'.toUInt8 :: (quote escape value ++ rest)) =
      if (skipBlank rest).head? = some '}'.toUInt8 then
        some ([(name, .string value)], (skipBlank rest).tail)
      else if (skipBlank rest).head? = some ','.toUInt8 then
        (readMembers (fuel + 1) (skipBlank rest).tail).map fun r =>
          ((name, .string value) :: r.1, r.2)
      else none := by
  rw [quote_append, readMembers, skipBlank_cons (by decide)]
  simp only [List.head?_cons, List.tail_cons, if_pos, he.readString_quote]
  rw [skipBlank_cons (by decide)]
  simp only [List.head?_cons, List.tail_cons, if_pos, he.readValue_quote]

/-- The members of a nonempty object of strings, up to the closing brace. -/
theorem readMembers_write {ms : List (Bytes × Bytes)} (hms : ms ≠ []) {fuel : Nat}
    (hfuel : ms.length < fuel) (rest : Bytes) :
    readMembers fuel (writeMembers escape (strings ms) ++ '}'.toUInt8 :: rest) =
      some (strings ms, rest) := by
  induction ms generalizing fuel with
  | nil => exact absurd rfl hms
  | cons m ms ih =>
    obtain ⟨name, value⟩ := m
    obtain ⟨fuel, rfl⟩ : ∃ k, fuel = k + 2 := ⟨fuel - 2, by simp at hfuel; omega⟩
    cases ms with
    | nil =>
      have hread := he.readMembers_member name value ('}'.toUInt8 :: rest) fuel
      rw [skipBlank_cons (by decide)] at hread
      simpa [strings, writeMembers, write] using hread
    | cons m' ms =>
      have hread := he.readMembers_member name value
        (','.toUInt8 :: (writeMembers escape (strings (m' :: ms)) ++ '}'.toUInt8 :: rest)) fuel
      have hfuel' : (m' :: ms).length < fuel + 1 := by simpa using hfuel
      have htail := ih (by simp) hfuel'
      rw [skipBlank_cons (by decide)] at hread
      simp only [List.head?_cons, List.tail_cons, htail, Option.some.injEq, Option.map_some,
        if_neg (show ','.toUInt8 ≠ '}'.toUInt8 by decide), if_true] at hread
      simpa [strings, writeMembers, write] using hread

/-- **Round trip** for objects of strings. -/
theorem read_write_object (ms : List (Bytes × Bytes)) :
    read (write escape (.object (strings ms))) = some (.object (strings ms)) := by
  cases ms with
  | nil => rfl
  | cons m ms =>
    -- the text behind the brace starts with the quote of the first name
    obtain ⟨body, hbody⟩ : ∃ body, writeMembers escape (strings (m :: ms)) ++ ['}'.toUInt8] =
        '"'.toUInt8 :: body := by
      cases ms <;> exact ⟨_, by simp [strings, writeMembers, quote]; rfl⟩
    have htext : write escape (.object (strings (m :: ms))) =
        '{'.toUInt8 :: '"'.toUInt8 :: body := by
      rw [write, hbody]
    have hlen : (m :: ms).length < ('{'.toUInt8 :: '"'.toUInt8 :: body).length := by
      have hle := length_le_writeMembers escape (m :: ms)
      rw [← htext, write]
      simp only [List.length_cons, List.length_append] at hle ⊢
      omega
    have hmembers := he.readMembers_write (List.cons_ne_nil m ms) hlen []
    rw [hbody] at hmembers
    have hquote : (skipBlank ('"'.toUInt8 :: body)).head? ≠ some '}'.toUInt8 := by
      rw [skipBlank_cons (by decide)]
      simp only [List.head?_cons, ne_eq, Option.some.injEq]
      decide
    rw [htext, read, readValue_object hquote, hmembers]
    rfl

theorem wellFormed_quote_iff (s rest : Bytes) :
    WellFormedUtf8 (quote escape s ++ rest) ↔ WellFormedUtf8 s ∧ WellFormedUtf8 rest := by
  rw [quote_append, wellFormed_cons_iff (by decide), wellFormed_separated_iff (by decide),
    he.wellFormed_iff]

theorem wellFormed_writeMembers_iff (ms : List (Bytes × Bytes)) (rest : Bytes) :
    WellFormedUtf8 (writeMembers escape (strings ms) ++ rest) ↔
      (∀ m ∈ ms, WellFormedUtf8 m.1 ∧ WellFormedUtf8 m.2) ∧ WellFormedUtf8 rest := by
  induction ms with
  | nil => simp [strings, writeMembers]
  | cons m ms ih =>
    obtain ⟨name, value⟩ := m
    cases ms with
    | nil =>
      simp only [strings, List.map_cons, List.map_nil, writeMembers, write, List.append_assoc,
        List.cons_append]
      rw [he.wellFormed_quote_iff, wellFormed_cons_iff (by decide), he.wellFormed_quote_iff]
      simp [and_assoc]
    | cons m' ms =>
      simp only [strings, List.map_cons, writeMembers, write, List.append_assoc,
        List.cons_append] at ih ⊢
      rw [he.wellFormed_quote_iff, wellFormed_cons_iff (by decide), he.wellFormed_quote_iff,
        wellFormed_cons_iff (by decide), ih, List.forall_mem_cons (a := (name, value))]
      simp only [and_assoc]

/-- The text of an object of strings is well-formed UTF-8 exactly when the strings are. -/
theorem wellFormed_write_object_iff (ms : List (Bytes × Bytes)) :
    WellFormedUtf8 (write escape (.object (strings ms))) ↔
      ∀ m ∈ ms, WellFormedUtf8 m.1 ∧ WellFormedUtf8 m.2 := by
  rw [write, wellFormed_cons_iff (by decide), he.wellFormed_writeMembers_iff]
  exact and_iff_left (wellFormed_singleton (by decide))

end Escapes

theorem shortEscape_control {c : UInt8} (hc : c < ' '.toUInt8) (rest : Bytes) :
    readChar (shortEscape c ++ rest) = some ([c], rest) := by
  have hlt : c.toNat < 32 := UInt8.lt_iff_toNat_lt.mp hc
  rw [← UInt8.ofNat_toNat (x := c)]
  generalize c.toNat = n at hlt
  interval_cases n <;> rfl

theorem shortEscape_escapes : Escapes shortEscape where
  low x hx := by
    have hall : ∀ n < 128, (shortEscape (UInt8.ofNat n)).all (· < 128) = true ∧
        shortEscape (UInt8.ofNat n) ≠ [] := by decide +kernel
    have hn := hall x.toNat (UInt8.lt_iff_toNat_lt.mp hx)
    rw [UInt8.ofNat_toNat, List.all_eq_true] at hn
    exact ⟨fun y hy => of_decide_eq_true (hn.1 y hy), hn.2⟩
  high x hx := by
    have hall : ∀ n < 256, 128 ≤ n → shortEscape (UInt8.ofNat n) = [UInt8.ofNat n] := by
      decide +kernel
    have hn := hall x.toNat x.toNat_lt (UInt8.le_iff_toNat_le.mp hx)
    rwa [UInt8.ofNat_toNat] at hn
  reads c rest := by
    by_cases hc : c < ' '.toUInt8
    · exact shortEscape_control hc rest
    · have hall : ∀ n < 256, ¬ UInt8.ofNat n < ' '.toUInt8 →
          shortEscape (UInt8.ofNat n) = [UInt8.ofNat n] ∧ UInt8.ofNat n ≠ '\\'.toUInt8 ∨
          shortEscape (UInt8.ofNat n) = ['\\'.toUInt8, UInt8.ofNat n] ∧
            (UInt8.ofNat n = '"'.toUInt8 ∨ UInt8.ofNat n = '\\'.toUInt8) := by decide +kernel
      have hn := hall c.toNat c.toNat_lt
      rw [UInt8.ofNat_toNat] at hn
      rcases hn hc with ⟨hesc, hne⟩ | ⟨hesc, rfl | rfl⟩
      · rw [hesc, List.singleton_append, readChar, if_neg hne, if_neg hc]
      · rfl
      · rfl
  unquoted c := by
    have hall : ∀ n < 256, (shortEscape (UInt8.ofNat n)).head? ≠ some '"'.toUInt8 := by
      decide +kernel
    have hn := hall c.toNat c.toNat_lt
    rwa [UInt8.ofNat_toNat] at hn

/-! ## No NUL byte in a text -/

/-- What has been read of `b` when `rest` is left has no NUL byte. -/
def Consumed (b rest : Bytes) : Prop := ∃ pre, b = pre ++ rest ∧ 0 ∉ pre

namespace Consumed

variable {b m rest : Bytes} {c : UInt8}

theorem refl (b : Bytes) : Consumed b b := ⟨[], rfl, by simp⟩

theorem trans (h : Consumed b m) (h' : Consumed m rest) : Consumed b rest := by
  obtain ⟨pre, rfl, hpre⟩ := h
  obtain ⟨pre', rfl, hpre'⟩ := h'
  exact ⟨pre ++ pre', (List.append_assoc ..).symm, by simp [hpre, hpre']⟩

theorem cons (hc : c ≠ 0) (h : Consumed b rest) : Consumed (c :: b) rest := by
  obtain ⟨pre, rfl, hpre⟩ := h
  exact ⟨c :: pre, rfl, by simp [hpre, hc.symm]⟩

theorem drop_takeWhile {p : UInt8 → Bool} (hp : p 0 = false) (b : Bytes) :
    Consumed b (b.drop (b.takeWhile p).length) := by
  have heq : b.takeWhile p ++ b.drop (b.takeWhile p).length = b :=
    List.prefix_iff_eq_append.mp (List.takeWhile_prefix p)
  refine ⟨b.takeWhile p, heq.symm, fun h0 => ?_⟩
  have htrue := List.mem_takeWhile_imp h0
  rw [hp] at htrue
  cases htrue

theorem dropWhile {p : UInt8 → Bool} (hp : p 0 = false) (b : Bytes) :
    Consumed b (b.dropWhile p) := by
  have heq : b.drop (b.takeWhile p).length = b.dropWhile p := by
    nth_rewrite 2 [← List.takeWhile_append_dropWhile (p := p) (l := b)]
    exact List.drop_left
  rw [← heq]
  exact drop_takeWhile hp b

theorem skipBlank (b : Bytes) : Consumed b (skipBlank b) := dropWhile (by decide) b

/-- Behind a character that has been looked at. -/
theorem tail (hb : b.head? = some c) (hc : c ≠ 0) : Consumed b b.tail := by
  obtain ⟨rest, rfl⟩ := List.head?_eq_some_iff.mp hb
  exact cons hc (refl rest)

theorem blank_tail (hb : (Json.skipBlank b).head? = some c) (hc : c ≠ 0) :
    Consumed b (Json.skipBlank b).tail :=
  (skipBlank b).trans (tail hb hc)

theorem drop (hb : m.isPrefixOf b = true) (hm : 0 ∉ m) : Consumed b (b.drop m.length) := by
  obtain ⟨rest, rfl⟩ := List.isPrefixOf_iff_prefix.mp hb
  exact ⟨m, by simp, hm⟩

end Consumed

theorem hexDigit_zero : hexDigit 0 = none := by decide

theorem ne_zero_of_hexDigit {c : UInt8} {d : Nat} (h : hexDigit c = some d) : c ≠ 0 := by
  rintro rfl
  rw [hexDigit_zero] at h
  cases h

theorem readHex4_consumed {b rest : Bytes} {n : Nat} (h : readHex4 b = some (n, rest)) :
    Consumed b rest := by
  match b, h with
  | c₁ :: c₂ :: c₃ :: c₄ :: b, h =>
    simp only [readHex4, Option.bind_eq_bind, Option.bind_eq_some_iff] at h
    obtain ⟨_, h₁, _, h₂, _, h₃, _, h₄, hrest⟩ := h
    cases hrest
    have h₃₄ := ((Consumed.refl rest).cons (ne_zero_of_hexDigit h₄)).cons (ne_zero_of_hexDigit h₃)
    exact (h₃₄.cons (ne_zero_of_hexDigit h₂)).cons (ne_zero_of_hexDigit h₁)

theorem readLowSurrogate_consumed {b rest : Bytes} {n : Nat}
    (h : readLowSurrogate b = some (n, rest)) : Consumed b rest := by
  match b, h with
  | c₁ :: c₂ :: b, h =>
    rw [readLowSurrogate] at h
    split_ifs at h with hc
    split at h
    · next low rest' hlow =>
      split_ifs at h
      cases h
      rw [hc.1, hc.2]
      exact ((readHex4_consumed hlow).cons (by decide)).cons (by decide)
    · cases h

theorem readUnicode_consumed {b s rest : Bytes} (h : readUnicode b = some (s, rest)) :
    Consumed b rest := by
  rw [readUnicode] at h
  split at h
  · cases h
  · next n rest' hn =>
    have hfirst := readHex4_consumed hn
    split_ifs at h
    · split at h
      · cases h
      · next low rest'' hlow =>
        have hrest : rest'' = rest := congrArg Prod.snd (Option.some.inj h)
        rw [← hrest]
        exact hfirst.trans (readLowSurrogate_consumed hlow)
    · cases h
      exact hfirst

theorem readEscape_consumed {b s rest : Bytes} (h : readEscape b = some (s, rest)) :
    Consumed b rest := by
  match b, h with
  | c :: b, h =>
    have hzero : readEscape (0 :: b) = none := rfl
    have hc : c ≠ 0 := by
      rintro rfl
      rw [hzero] at h
      cases h
    refine Consumed.cons hc ?_
    rw [readEscape] at h
    split_ifs at h
    · exact readUnicode_consumed h
    all_goals
      cases h
      exact .refl _

theorem readChar_consumed {b s rest : Bytes} (h : readChar b = some (s, rest)) :
    Consumed b rest := by
  match b, h with
  | c :: b, h =>
    rw [readChar] at h
    split_ifs at h with hslash hlow
    · rw [hslash]
      exact (readEscape_consumed h).cons (by decide)
    · cases h
      refine (Consumed.refl rest).cons fun h0 => hlow ?_
      rw [h0]
      decide

theorem readChars_consumed {fuel : Nat} {b s rest : Bytes}
    (h : readChars fuel b = some (s, rest)) : Consumed b rest := by
  induction fuel generalizing b s with
  | zero => cases h
  | succ fuel ih =>
    rw [readChars] at h
    split_ifs at h with hquote
    · cases h
      exact .tail hquote (by decide)
    · split at h
      · cases h
      · next c rest' hc =>
        obtain ⟨r, hr, heq⟩ := Option.map_eq_some_iff.mp h
        cases heq
        exact (readChar_consumed hc).trans (ih hr)

theorem readString_consumed {b s rest : Bytes} (h : readString b = some (s, rest)) :
    Consumed b rest :=
  readChars_consumed h

theorem readDigits_consumed {b s rest : Bytes} (h : readDigits b = some (s, rest)) :
    Consumed b rest := by
  rw [readDigits] at h
  split_ifs at h
  cases h
  exact .dropWhile (by decide) b

theorem readPart_consumed {start signs : List UInt8} (hstart : 0 ∉ start) (hsigns : 0 ∉ signs)
    {b s rest : Bytes} (h : readPart start signs b = some (s, rest)) : Consumed b rest := by
  match b, h with
  | [], h =>
    cases h
    exact .refl _
  | [c], h =>
    rw [readPart] at h
    split_ifs at h
    cases h
    exact .refl _
  | c :: d :: b, h =>
    rw [readPart] at h
    split_ifs at h with hc hd
    · obtain ⟨r, hr, heq⟩ := Option.map_eq_some_iff.mp h
      cases heq
      exact ((readDigits_consumed hr).cons (ne_of_mem_of_not_mem hd hsigns)).cons
        (ne_of_mem_of_not_mem hc hstart)
    · obtain ⟨r, hr, heq⟩ := Option.map_eq_some_iff.mp h
      cases heq
      exact (readDigits_consumed hr).cons (ne_of_mem_of_not_mem hc hstart)
    · cases h
      exact .refl _

theorem readNumber_consumed {b s rest : Bytes} (h : readNumber b = some (s, rest)) :
    Consumed b rest := by
  have hsign : Consumed b (b.drop (b.takeWhile (· == '-'.toUInt8)).length) :=
    .drop_takeWhile (by decide) b
  simp only [readNumber, Option.bind_eq_bind] at h
  split_ifs at h
  · cases h
  · obtain ⟨int, hint, h⟩ := Option.bind_eq_some_iff.mp h
    split_ifs at h
    · cases h
    · obtain ⟨fraction, hfraction, h⟩ := Option.bind_eq_some_iff.mp h
      obtain ⟨exponent, hexponent, h⟩ := Option.bind_eq_some_iff.mp h
      cases h
      have hint' := hsign.trans (readDigits_consumed hint)
      have hfraction' := hint'.trans (readPart_consumed (by decide) (by decide) hfraction)
      exact hfraction'.trans (readPart_consumed (by decide) (by decide) hexponent)

theorem readName_consumed {b rest : Bytes} {v : Json} (h : readName b = some (v, rest)) :
    Consumed b rest := by
  rw [readName] at h
  split_ifs at h with hn ht hf
  · cases h
    exact .drop hn (by decide)
  · cases h
    exact .drop ht (by decide)
  · cases h
    exact .drop hf (by decide)

/-- One case for each of the three readers that call each other. -/
theorem readers_consumed (fuel : Nat) :
    (∀ b v rest, readValue fuel b = some (v, rest) → Consumed b rest) ∧
    (∀ b ms rest, readMembers fuel b = some (ms, rest) → Consumed b rest) ∧
    ∀ b vs rest, readItems fuel b = some (vs, rest) → Consumed b rest := by
  induction fuel with
  | zero => refine ⟨?_, ?_, ?_⟩ <;> intro b v rest h <;> cases h
  | succ fuel ih =>
    obtain ⟨ihv, ihm, ihi⟩ := ih
    refine ⟨fun b v rest h => ?_, fun b ms rest h => ?_, fun b vs rest h => ?_⟩
    · rw [readValue] at h
      split at h
      · cases h
      · next c b' hb =>
        have hskip : Consumed b (c :: b') := hb ▸ Consumed.skipBlank b
        refine hskip.trans ?_
        split_ifs at h with hquote hbrace hempty hbracket hempty
        · obtain ⟨r, hr, heq⟩ := Option.map_eq_some_iff.mp h
          cases heq
          exact (readString_consumed hr).cons (by rw [hquote]; decide)
        · cases h
          exact (Consumed.blank_tail hempty (by decide)).cons (by rw [hbrace]; decide)
        · obtain ⟨r, hr, heq⟩ := Option.map_eq_some_iff.mp h
          cases heq
          exact (ihm _ _ _ hr).cons (by rw [hbrace]; decide)
        · cases h
          exact (Consumed.blank_tail hempty (by decide)).cons (by rw [hbracket]; decide)
        · obtain ⟨r, hr, heq⟩ := Option.map_eq_some_iff.mp h
          cases heq
          exact (ihi _ _ _ hr).cons (by rw [hbracket]; decide)
        · split at h
          · next r hr =>
            cases h
            exact readName_consumed hr
          · obtain ⟨r, hr, heq⟩ := Option.map_eq_some_iff.mp h
            cases heq
            exact readNumber_consumed hr
    · rw [readMembers] at h
      split_ifs at h with hquote
      split at h
      · cases h
      · next name b₁ hname =>
        have hfirst := (Consumed.blank_tail hquote (by decide)).trans (readString_consumed hname)
        split_ifs at h with hcolon
        split at h
        · cases h
        · next value b₂ hvalue =>
          have hmember := (hfirst.trans (.blank_tail hcolon (by decide))).trans (ihv _ _ _ hvalue)
          split_ifs at h with hend hcomma
          · cases h
            exact hmember.trans (.blank_tail hend (by decide))
          · obtain ⟨r, hr, heq⟩ := Option.map_eq_some_iff.mp h
            cases heq
            exact (hmember.trans (.blank_tail hcomma (by decide))).trans (ihm _ _ _ hr)
    · rw [readItems] at h
      split at h
      · cases h
      · next value b₁ hvalue =>
        have hfirst := ihv _ _ _ hvalue
        split_ifs at h with hend hcomma
        · cases h
          exact hfirst.trans (.blank_tail hend (by decide))
        · obtain ⟨r, hr, heq⟩ := Option.map_eq_some_iff.mp h
          cases heq
          exact (hfirst.trans (.blank_tail hcomma (by decide))).trans (ihi _ _ _ hr)

/-- **A JSON text has no NUL byte.** -/
theorem zero_notMem_of_read {text : Bytes} {v : Json} (h : read text = some v) : 0 ∉ text := by
  rw [read] at h
  split at h
  · next value rest hvalue =>
    split_ifs at h with hrest
    have hall := ((readers_consumed _).1 _ _ _ hvalue).trans (.skipBlank rest)
    rw [hrest] at hall
    obtain ⟨pre, rfl, hpre⟩ := hall
    simpa using hpre
  · cases h

end Json

end LockFreeKV.Lib
