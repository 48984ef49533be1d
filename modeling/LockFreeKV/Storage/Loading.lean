import LockFreeKV.Storage.Process

/-!
# What a load does to a filled engine

A member is set as soon as it has been read, and there is no way back: when a value
turns out not to be a string the members in front of it are in the engine, and their
number is returned. A text that is refused before the loop leaves the engine alone.
-/
namespace LockFreeKV.Storage

open LockFreeKV.Lib LockFreeKV.Engine

variable {h : Hashing Bytes}

/-- A text has no object at its root. -/
def NoObject (R : Rapidjson) (text : Bytes) : Prop :=
  ∀ members, R.parse text ≠ some (.object members)

/-- The three kinds of texts, and what `initial_load_data` does with each. -/
structure LoadEffect (R : Rapidjson) (engine : DataEngine h Bytes) (text : Bytes)
    (result : Nat × DataEngine h Bytes) : Prop where
  whole : ∀ records, R.parse text = some (.object (Json.strings records)) →
    result.2.table.toMap = override engine.table.toMap records ∧ result.1 = records.length
  refused : NoObject R text → result = (0, engine)
  cut : ∀ leading bad rest, R.parse text = some (.object (Json.strings leading ++ bad :: rest)) →
    asRecord bad = none →
    result.2.table.toMap = override engine.table.toMap leading ∧ result.1 = leading.length

/-- Every text is of one of the kinds. -/
theorem text_cases (R : Rapidjson) (text : Bytes) :
    (∃ records, R.parse text = some (.object (Json.strings records))) ∨ NoObject R text ∨
    ∃ leading bad rest, R.parse text = some (.object (Json.strings leading ++ bad :: rest)) ∧
      asRecord bad = none := by
  by_cases hobject : NoObject R text
  · exact .inr (.inl hobject)
  · simp only [NoObject, not_forall, not_not] at hobject
    obtain ⟨members, hparse⟩ := hobject
    obtain ⟨rest, heq, hrest⟩ := exists_leading members
    rw [heq] at hparse
    cases rest with
    | nil => exact .inl ⟨_, by rw [hparse, List.append_nil]⟩
    | cons bad rest => exact .inr (.inr ⟨_, bad, rest, hparse, hrest bad rfl⟩)

theorem loadedRecords_of_noObject {R : Rapidjson} {text : Bytes} (hno : NoObject R text)
    (writable : Bool) : loadedRecords R ⟨some text, true, writable⟩ = [] := by
  simp only [loadedRecords, Option.filter_some, if_true]
  cases hparse : R.parse text with
  | none => rfl
  | some v =>
    cases v with
    | object members => exact absurd hparse (hno members)
    | _ => rfl

theorem loadedRecords_of_leading {R : Rapidjson} {text : Bytes} {leading : List (Bytes × Bytes)}
    {rest : List (Bytes × Json)} (hparse : R.parse text = some (.object (Json.strings leading ++ rest)))
    (hrest : ∀ m ∈ rest.head?, asRecord m = none) (writable : Bool) :
    loadedRecords R ⟨some text, true, writable⟩ = leading := by
  simp only [loadedRecords, Option.filter_some, if_true, hparse, Option.getD_some,
    Rapidjson.membersOf]
  exact loadedMembers_append leading hrest

theorem setAll_toMap (engine : DataEngine h Bytes) (records : List (Bytes × Bytes)) :
    (engine.setAll records).table.toMap = override engine.table.toMap records := by
  rw [DataEngine.setAll_eq, Table.toMap_foldl_set]

/-- **What a load does.** Into any engine, from any readable file: an object of strings is set
as a whole, a text without an object at its root changes nothing, and of any other object the
members in front of the first value that is no string are set and counted. -/
theorem initialLoadData_effect (R : Rapidjson) (engine : DataEngine h Bytes) (text : Bytes)
    (writable : Bool) :
    LoadEffect R engine text (initialLoadData R engine ⟨some text, true, writable⟩) where
  whole records hparse := by
    have hleading : R.parse text = some (.object (Json.strings records ++ [])) := by
      simpa using hparse
    have hloaded := loadedRecords_of_leading hleading (by simp) writable
    rw [initialLoadData_eq, hloaded]
    exact ⟨setAll_toMap engine records, rfl⟩
  refused hno := by
    rw [initialLoadData_eq, loadedRecords_of_noObject hno]
    rfl
  cut leading bad rest hparse hbad := by
    have hrest : ∀ m ∈ (bad :: rest).head?, asRecord m = none := by
      intro m hm
      obtain rfl : bad = m := by simpa using hm
      exact hbad
    rw [initialLoadData_eq, loadedRecords_of_leading hparse hrest writable]
    exact ⟨setAll_toMap engine leading, rfl⟩

/-- The record in front of the number is in the engine after a load that failed. -/
theorem load_not_atomic :
    trailingNumber.readable = true ∧ trailingNumber.records Rapidjson.reference = none ∧
    (initialLoadData Rapidjson.reference (.new oneBucket Bytes) trailingNumber).2.table.toMap ≠
      (DataEngine.new oneBucket Bytes).table.toMap := by
  refine ⟨rfl, by rfl, fun hsame => ?_⟩
  have hvalue := congrFun hsame (ofString "a")
  cases hvalue

end LockFreeKV.Storage
