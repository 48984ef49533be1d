import LockFreeKV.Lib.Bytes

/-!
# Messages on a stream

A message has a line, fields and a body. The reader takes messages off the front of a stream,
one after another: it reads lines up to the empty one, and of the body as much as the fields
announce, or everything. A message that announces its length is read back as it was written,
and the reader stands at the next one.
-/
namespace LockFreeKV.Lib

structure Message where
  code : Nat
  fields : List (Bytes × Bytes)
  body : Bytes
  deriving DecidableEq, Repr

def crlf : Bytes := [13, 10]

def isDecimal (c : UInt8) : Bool := 48 ≤ c && c ≤ 57

/-- The decimal digits of a number. -/
def decimal (n : Nat) : Bytes := (Nat.toDigits 10 n).map Char.toUInt8

def readDecimal (s : Bytes) : Option Nat :=
  if s ≠ [] ∧ s.all isDecimal then some (s.foldl (fun n c => 10 * n + (c.toNat - 48)) 0) else none

def fieldLine (field : Bytes × Bytes) : Bytes := field.1 ++ ofString ": " ++ field.2

/-- What stands in front of the body. -/
def headerBytes (line : Bytes) (fields : List (Bytes × Bytes)) : Bytes :=
  line ++ crlf ++ fields.flatMap (fun field => fieldLine field ++ crlf) ++ crlf

section Reader

/-- The lines up to the empty one; `cur` is what has been read of the current one. -/
def readLines (cur : Bytes) : Bytes → Option (List Bytes × Bytes)
  | 13 :: 10 :: rest =>
    if cur = [] then some ([], rest) else (readLines [] rest).map fun x => (cur :: x.1, x.2)
  | c :: rest => readLines (cur ++ [c]) rest
  | [] => none

/-- Name and value, without blanks in front of the value. -/
def readField (line : Bytes) : Option (Bytes × Bytes) :=
  match line.dropWhile (· ≠ ':'.toUInt8) with
  | [] => none
  | _ :: value => some (line.takeWhile (· ≠ ':'.toUInt8), value.dropWhile (· = ' '.toUInt8))

def lower (c : UInt8) : UInt8 := if 65 ≤ c ∧ c ≤ 90 then c + 32 else c

/-- Names are compared without their case. -/
def sameName (name name' : Bytes) : Bool := name.map lower == name'.map lower

def fieldValue (fields : List (Bytes × Bytes)) (name : Bytes) : Option Bytes :=
  (fields.find? fun field => sameName field.1 name).map Prod.snd

def readCode (line : Bytes) : Option Nat :=
  (line.dropPrefix? (ofString "HTTP/1.1 ")).bind fun rest => readDecimal (rest.take 3)

/-- No body follows. -/
def bodiless (head : Bool) (code : Nat) : Bool :=
  head || decide (code < 200) || code == 204 || code == 304

/-- Read a message, the answer to a request for its header alone or to another one. -/
def readMessage (head : Bool) (stream : Bytes) : Option (Message × Bytes) :=
  match readLines [] stream with
  | some (line :: lines, rest) =>
    match readCode line, lines.mapM readField with
    | some code, some fields =>
      if bodiless head code then some (⟨code, fields, []⟩, rest)
      else
        match fieldValue fields (ofString "content-length") with
        | none => some (⟨code, fields, rest⟩, [])
        | some text =>
          (readDecimal text).bind fun n =>
            if n ≤ rest.length then some (⟨code, fields, rest.take n⟩, rest.drop n) else none
    | _, _ => none
  | _ => none

end Reader

/-! ## Reading what was written -/

theorem digit_toUInt8 {c : Char} (hc : c.isDigit = true) :
    isDecimal c.toUInt8 = true ∧ c.toUInt8.toNat = c.toNat := by
  have hrange : 48 ≤ c.toNat ∧ c.toNat ≤ 57 := by
    simpa [Char.isDigit, UInt32.le_iff_toNat_le] using hc
  have hnat : c.toUInt8.toNat = c.toNat := by
    show c.toNat % 2 ^ 8 = c.toNat
    exact Nat.mod_eq_of_lt (by omega)
  refine ⟨?_, hnat⟩
  simp only [isDecimal, Bool.and_eq_true, decide_eq_true_eq, UInt8.le_iff_toNat_le, hnat]
  exact hrange

theorem isDecimal_of_mem_decimal {n : Nat} {c : UInt8} (hc : c ∈ decimal n) :
    isDecimal c = true := by
  obtain ⟨d, hd, rfl⟩ := List.mem_map.mp hc
  exact (digit_toUInt8 (Nat.isDigit_of_mem_toDigits (by decide) (by decide) hd)).1

theorem readDecimal_decimal (n : Nat) : readDecimal (decimal n) = some n := by
  have hfold : ∀ (cs : List Char), (∀ c ∈ cs, c.isDigit = true) → ∀ init,
      (cs.map Char.toUInt8).foldl (fun n c => 10 * n + (c.toNat - 48)) init =
        Nat.ofDigitChars 10 cs init := by
    intro cs
    induction cs with
    | nil => simp
    | cons c cs ih =>
      intro hcs init
      rw [List.map_cons, List.foldl_cons, Nat.ofDigitChars_cons,
        (digit_toUInt8 (hcs c List.mem_cons_self)).2]
      exact ih (fun c hc => hcs c (List.mem_cons_of_mem _ hc)) _
  have hok : decimal n ≠ [] ∧ (decimal n).all isDecimal = true :=
    ⟨by simp [decimal, Nat.toDigits_ne_nil], List.all_eq_true.mpr fun c hc =>
      isDecimal_of_mem_decimal hc⟩
  have hdigits : ∀ c ∈ Nat.toDigits 10 n, c.isDigit = true := fun c hc =>
    Nat.isDigit_of_mem_toDigits (by decide) (by decide) hc
  rw [readDecimal, if_pos hok, decimal, hfold _ hdigits, Nat.ofDigitChars_ten_toDigits]

/-- A line that can be written. -/
def LineOk (line : Bytes) : Prop := line ≠ [] ∧ 13 ∉ line

/-- A field that can be written. -/
structure FieldOk (field : Bytes × Bytes) : Prop where
  nameLine : 13 ∉ field.1
  noColon : ':'.toUInt8 ∉ field.1
  valueLine : 13 ∉ field.2
  noBlank : field.2.head? ≠ some ' '.toUInt8

instance (line : Bytes) : Decidable (LineOk line) := inferInstanceAs (Decidable (_ ∧ _))

theorem fieldOk_iff (field : Bytes × Bytes) : FieldOk field ↔ 13 ∉ field.1 ∧ ':'.toUInt8 ∉ field.1 ∧
    13 ∉ field.2 ∧ field.2.head? ≠ some ' '.toUInt8 :=
  ⟨fun h => ⟨h.1, h.2, h.3, h.4⟩, fun h => ⟨h.1, h.2.1, h.2.2.1, h.2.2.2⟩⟩

instance (field : Bytes × Bytes) : Decidable (FieldOk field) :=
  decidable_of_iff _ (fieldOk_iff field).symm

theorem readLines_line {line : Bytes} (hline : 13 ∉ line) (cur rest : Bytes) :
    readLines cur (line ++ rest) = readLines (cur ++ line) rest := by
  induction line generalizing cur with
  | nil => simp
  | cons c line ih =>
    simp only [List.mem_cons, not_or] at hline
    rw [List.cons_append, readLines, ih hline.2, List.append_assoc, List.singleton_append]
    rintro _ rfl
    exact absurd rfl hline.1

theorem readLines_crlf {cur : Bytes} (hcur : cur ≠ []) (rest : Bytes) :
    readLines cur (crlf ++ rest) = (readLines [] rest).map fun x => (cur :: x.1, x.2) := by
  rw [crlf, List.cons_append, List.singleton_append, readLines, if_neg hcur]

theorem lineOk_field {field : Bytes × Bytes} (h : FieldOk field) : LineOk (fieldLine field) := by
  have hsep : (13 : UInt8) ∉ ofString ": " := by decide
  refine ⟨by simp [fieldLine, show ofString ": " = [58, 32] from rfl], ?_⟩
  simp [fieldLine, h.nameLine, h.valueLine, hsep]

theorem readLines_lines {lines : List Bytes} (hlines : ∀ line ∈ lines, LineOk line) (rest : Bytes) :
    readLines [] (lines.flatMap (· ++ crlf) ++ (crlf ++ rest)) = some (lines, rest) := by
  induction lines with
  | nil => rfl
  | cons line lines ih =>
    obtain ⟨hne, hline⟩ := hlines line List.mem_cons_self
    rw [List.flatMap_cons, List.append_assoc, List.append_assoc, readLines_line hline,
      List.nil_append, readLines_crlf hne, ih fun l hl => hlines l (List.mem_cons_of_mem _ hl)]
    rfl

theorem readLines_header {line : Bytes} {fields : List (Bytes × Bytes)} (hline : LineOk line)
    (hfields : ∀ field ∈ fields, FieldOk field) (rest : Bytes) :
    readLines [] (headerBytes line fields ++ rest) = some (line :: fields.map fieldLine, rest) := by
  have hlines : ∀ l ∈ line :: fields.map fieldLine, LineOk l := by
    intro l hl
    obtain rfl | hl := List.mem_cons.mp hl
    · exact hline
    · obtain ⟨field, hfield, rfl⟩ := List.mem_map.mp hl
      exact lineOk_field (hfields field hfield)
  have hbytes : headerBytes line fields ++ rest =
      (line :: fields.map fieldLine).flatMap (· ++ crlf) ++ (crlf ++ rest) := by
    simp [headerBytes, List.flatMap_map]
  rw [hbytes, readLines_lines hlines]

theorem readField_fieldLine {field : Bytes × Bytes} (h : FieldOk field) :
    readField (fieldLine field) = some field := by
  obtain ⟨name, value⟩ := field
  have hname : ∀ c ∈ name, decide (c ≠ ':'.toUInt8) = true := fun c hc =>
    decide_eq_true fun heq => h.noColon (heq ▸ hc)
  have hline : fieldLine (name, value) = name ++ ':'.toUInt8 :: ' '.toUInt8 :: value := by
    rw [fieldLine, List.append_assoc]
    rfl
  have hvalue : (' '.toUInt8 :: value).dropWhile (· = ' '.toUInt8) = value := by
    rw [List.dropWhile_cons, if_pos (by decide)]
    cases value with
    | nil => rfl
    | cons c value =>
      rw [List.dropWhile_cons, if_neg]
      intro hc
      exact h.noBlank (by simpa using hc)
  rw [readField, hline, List.dropWhile_append_of_pos hname, List.takeWhile_append_of_pos hname,
    List.dropWhile_cons, if_neg (by simp)]
  simp [hvalue]

theorem mapM_readField {fields : List (Bytes × Bytes)} (hfields : ∀ field ∈ fields, FieldOk field) :
    (fields.map fieldLine).mapM readField = some fields := by
  induction fields with
  | nil => rfl
  | cons field fields ih =>
    rw [List.map_cons, List.mapM_cons, readField_fieldLine (hfields field List.mem_cons_self),
      ih fun f hf => hfields f (List.mem_cons_of_mem _ hf)]
    rfl

/-- The message has no body, or announces how long it is. -/
def Announced (head : Bool) (m : Message) : Prop :=
  if bodiless head m.code then m.body = []
  else (fieldValue m.fields (ofString "content-length")).bind readDecimal = some m.body.length

/-- **A message is read back**, and the reader stands behind it, whatever follows, exactly when it
announces its length. -/
theorem readMessage_iff {line : Bytes} {code : Nat} {fields : List (Bytes × Bytes)} {head : Bool}
    (hline : LineOk line) (hcode : readCode line = some code)
    (hfields : ∀ field ∈ fields, FieldOk field) (body : Bytes) (m : Message) :
    (∀ rest, readMessage head (headerBytes line fields ++ (body ++ rest)) = some (m, rest)) ↔
      m = ⟨code, fields, body⟩ ∧ Announced head m := by
  have hread : ∀ rest, readMessage head (headerBytes line fields ++ (body ++ rest)) =
      if bodiless head code then some (⟨code, fields, []⟩, body ++ rest)
      else
        match fieldValue fields (ofString "content-length") with
        | none => some (⟨code, fields, body ++ rest⟩, [])
        | some text =>
          (readDecimal text).bind fun n =>
            if n ≤ (body ++ rest).length then
              some (⟨code, fields, (body ++ rest).take n⟩, (body ++ rest).drop n)
            else none := fun rest => by
    rw [readMessage, readLines_header hline hfields]
    simp only [hcode, mapM_readField hfields]
  simp only [hread]
  by_cases hbodiless : bodiless head code = true
  · simp only [if_pos hbodiless, Option.some.injEq, Prod.mk.injEq]
    constructor
    · intro h
      obtain ⟨rfl, hbody⟩ := h []
      obtain rfl : body = [] := by simpa using hbody
      refine ⟨rfl, ?_⟩
      rw [Announced, if_pos hbodiless]
    · rintro ⟨rfl, hannounced⟩ rest
      obtain rfl : body = [] := by simpa [Announced, if_pos hbodiless] using hannounced
      exact ⟨rfl, rfl⟩
  · simp only [if_neg hbodiless]
    cases hvalue : (fieldValue fields (ofString "content-length")).bind readDecimal with
    | none =>
      constructor
      · intro h
        split at h
        · cases (Prod.mk.inj (Option.some.inj (h [0]))).2
        · next text htext =>
          rw [htext, Option.bind_some] at hvalue
          rw [hvalue] at h
          cases h []
      · rintro ⟨rfl, hannounced⟩
        rw [Announced, if_neg hbodiless, hvalue] at hannounced
        cases hannounced
    | some n =>
      obtain ⟨text, htext, hn⟩ := Option.bind_eq_some_iff.mp hvalue
      simp only [htext, hn, Option.bind_some]
      constructor
      · intro h
        have hlong := h (List.replicate n 0)
        rw [if_pos (by simp), Option.some.injEq, Prod.mk.injEq] at hlong
        obtain ⟨rfl, hrest⟩ := hlong
        have hlen : body.length = n := by
          have hl := congrArg List.length hrest
          simp only [List.length_drop, List.length_append, List.length_replicate] at hl
          omega
        subst hlen
        rw [List.take_left]
        refine ⟨rfl, ?_⟩
        rw [Announced, if_neg hbodiless, hvalue]
      · rintro ⟨rfl, hannounced⟩ rest
        rw [Announced, if_neg hbodiless, hvalue] at hannounced
        obtain rfl := Option.some.inj hannounced
        simp

/-! ## Looking a field up -/

section Fields

variable {fields fields' : List (Bytes × Bytes)} {name name' key : Bytes}

theorem sameName_iff : sameName name name' = true ↔ name.map lower = name'.map lower := beq_iff_eq

theorem sameName_congr (h : sameName name name' = true) (key : Bytes) :
    sameName name key = sameName name' key := by
  rw [sameName, sameName, sameName_iff.mp h]

theorem sameName_comm : sameName name name' = sameName name' name := Bool.beq_comm ..

/-- The fields with a name. -/
def named (fields : List (Bytes × Bytes)) (key : Bytes) : List (Bytes × Bytes) :=
  fields.filter fun field => sameName field.1 key

theorem fieldValue_eq : fieldValue fields key = (named fields key).head?.map Prod.snd := by
  rw [named, List.head?_filter]
  rfl

theorem named_append : named (fields ++ fields') key = named fields key ++ named fields' key :=
  List.filter_append ..

theorem named_singleton (field : Bytes × Bytes) :
    named [field] key = if sameName field.1 key then [field] else [] := by
  simp [named, List.filter_cons]

/-- The order of the fields does not matter when at most one has the name. -/
theorem named_perm (hperm : fields.Perm fields') (hone : (named fields key).length ≤ 1) :
    named fields' key = named fields key := by
  have hfilter : (named fields key).Perm (named fields' key) := hperm.filter _
  match hnamed : named fields key, hone with
  | [], _ => exact List.nil_perm.mp (hnamed ▸ hfilter)
  | [field], _ => exact List.singleton_perm.mp (hnamed ▸ hfilter) |>.symm

end Fields

end LockFreeKV.Lib
