import LockFreeKV.Lib.Json

/-!
# What the program uses of rapidjson

The library is not part of the repository: a parser and a writer stand for it as
parameters. That a parsed string is no longer than its 32-bit length field is part
of the interface; what else a result needs of the two is a named hypothesis.
`Rapidjson.reference` is an instance that reads and writes the grammar.
-/
namespace LockFreeKV

open LockFreeKV.Lib

/-- `StringRefType(data, static_cast<SizeType>(size))`: the length has 32 bits. -/
def stringRef (data : Bytes) : Bytes := data.take (data.length % 2 ^ 32)

theorem stringRef_eq {data : Bytes} (h : data.length < 2 ^ 32) : stringRef data = data := by
  rw [stringRef, Nat.mod_eq_of_lt h, List.take_length]

/-- Names and string values are handed out with a length of type `SizeType`. -/
def SizeBounded (members : List (Bytes × Json)) : Prop :=
  ∀ m ∈ members, m.1.length < 2 ^ 32 ∧ ∀ s, m.2 = .string s → s.length < 2 ^ 32

/-- `Document::ParseStream`, without a result on `HasParseError`, and `Document::Accept`. -/
structure Rapidjson where
  parse : Bytes → Option Json
  accept : Json → Bytes
  sizeBounded : ∀ text members, parse text = some (.object members) → SizeBounded members

namespace Rapidjson

/-- Members that rapidjson can hold: strings whose lengths have type `SizeType`. -/
def Storable (ms : List (Bytes × Bytes)) : Prop :=
  ∀ m ∈ ms, m.1.length < 2 ^ 32 ∧ m.2.length < 2 ^ 32

/-- The parser inverts the writer on every object of strings, with order and duplicates. -/
def Correct (R : Rapidjson) : Prop :=
  ∀ ms, Storable ms →
    R.parse (R.accept (.object (Json.strings ms))) = some (.object (Json.strings ms))

/-- The same for as many members as a `SizeType` counts. -/
def RoundTrips (R : Rapidjson) : Prop :=
  ∀ ms, Storable ms → ms.length < 2 ^ 32 →
    R.parse (R.accept (.object (Json.strings ms))) = some (.object (Json.strings ms))

theorem Correct.roundTrips {R : Rapidjson} (h : R.Correct) : R.RoundTrips :=
  fun ms hms _ => h ms hms

/-- The writer puts objects of strings into JSON syntax, escaping each byte by itself. -/
def WritesWith (R : Rapidjson) (escape : UInt8 → Bytes) : Prop :=
  ∀ ms, R.accept (.object (Json.strings ms)) = Json.write escape (.object (Json.strings ms))

/-- The members of a value, when it is an object. -/
def membersOf : Json → List (Bytes × Json)
  | .object members => members
  | _ => []

/-- A length fits into `SizeType`. -/
def sizeFits (m : Bytes × Json) : Bool :=
  decide (m.1.length < 2 ^ 32) &&
    match m.2 with
    | .string s => decide (s.length < 2 ^ 32)
    | _ => true

/-- The grammar, for texts whose strings fit. -/
def reference : Rapidjson where
  parse text := (Json.read text).filter fun v => (membersOf v).all sizeFits
  accept := Json.write Json.shortEscape
  sizeBounded text members h m hm := by
    obtain ⟨_, hfits⟩ := Option.filter_eq_some_iff.mp h
    have hm' := List.all_eq_true.mp hfits m hm
    obtain ⟨hname, hvalue⟩ := (Bool.and_eq_true _ _).mp hm'
    refine ⟨of_decide_eq_true hname, fun s hs => ?_⟩
    rw [hs] at hvalue
    exact of_decide_eq_true hvalue

theorem reference_writesWith : reference.WritesWith Json.shortEscape := fun _ => rfl

theorem reference_correct : reference.Correct := fun ms hms => by
  refine Option.filter_eq_some_iff.mpr ⟨Json.shortEscape_escapes.read_write_object ms, ?_⟩
  rw [membersOf, Json.strings, List.all_map, List.all_eq_true]
  intro m hm
  exact Bool.and_eq_true_iff.mpr ⟨decide_eq_true (hms m hm).1, decide_eq_true (hms m hm).2⟩

/-- The parser reads the grammar; a NUL byte would be the end of its input. -/
def ReadsGrammar (R : Rapidjson) : Prop := ∀ text, 0 ∉ text → R.parse text = reference.parse text

theorem reference_readsGrammar : reference.ReadsGrammar := fun _ _ => rfl

/-- What the grammar reads has no NUL byte. -/
theorem zero_notMem_of_reference {text : Bytes} {v : Json} (h : reference.parse text = some v) :
    0 ∉ text :=
  Json.zero_notMem_of_read (Option.filter_eq_some_iff.mp h).1

end Rapidjson

end LockFreeKV
