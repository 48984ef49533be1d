import LockFreeKV.Engine.Table
import LockFreeKV.Rapidjson

/-!
# Loading and storing the records

`DataSerializer` turns a file into calls of a visitor and a document into a file;
`Persistency` connects it to the engine. The engine is enumerated bucket by bucket,
so the file lists the chains one after another. Filtered by bucket the list is the
chain again, which is why setting its members in order rebuilds the same table, and
by its bindings alone the same map in a table of any size.
-/
namespace LockFreeKV.Storage

open LockFreeKV.Lib LockFreeKV.Engine

/-- The database file: its content, when it exists, and whether `fopen` succeeds. -/
structure File where
  content : Option Bytes
  readable : Bool
  writable : Bool
  deriving DecidableEq, Repr

/-- Opening the file does not fail. -/
def File.Usable (file : File) : Prop := file.readable = true ∧ file.writable = true

/-- `DataSerializer::Document`. -/
structure Document where
  members : List (Bytes × Bytes)

namespace Document

def empty : Document := ⟨[]⟩

/-- `add`: the strings are referred to, with lengths of 32 bits. -/
def add (document : Document) (name value : Bytes) : Document :=
  ⟨document.members ++ [(stringRef name, stringRef value)]⟩

def toJson (document : Document) : Json := .object (Json.strings document.members)

end Document

section Serializer

variable {σ : Type} (visitor : σ → Bytes → Bytes → σ)

/-- The loop of `load` over the members. It ends at a value that is not a string; a name is
always one. -/
def loadMembers (s : σ) : List (Bytes × Json) → Bool × σ
  | [] => (true, s)
  | (name, .string value) :: rest => loadMembers (visitor s name value) rest
  | _ :: _ => (false, s)

/-- `DataSerializer::load`. -/
def load (R : Rapidjson) (file : File) (s : σ) : Bool × σ :=
  match file.content with
  | none => (true, s)
  | some text =>
    if file.readable then
      match R.parse text with
      | none => (false, s)
      | some (.object members) => loadMembers visitor s members
      | some _ => (false, s)
    else (false, s)

end Serializer

/-- `DataSerializer::save`. -/
def save (R : Rapidjson) (file : File) (document : Document) : Bool × File :=
  if file.writable then (true, { file with content := some (R.accept document.toJson) })
  else (false, file)

variable {h h' : Hashing Bytes}

/-- `Persistency::initial_load_data`. A failure of `load` is logged and not returned. -/
def initialLoadData (R : Rapidjson) (engine : DataEngine h Bytes) (file : File) :
    Nat × DataEngine h Bytes :=
  let loadVisitor := fun (s : Nat × DataEngine h Bytes) name value => (s.1 + 1, s.2.set name value)
  match load loadVisitor R file (0, engine) with
  | (false, recordCount, engine) => (recordCount, engine)
  | (true, recordCount, engine) => (recordCount, engine)

/-- `Persistency::store_data`. A failure of `save` is logged and not returned. -/
def storeData (R : Rapidjson) (engine : DataEngine h Bytes) (file : File) : Nat × File :=
  let visitor := fun (s : Nat × Document) key value => (s.1 + 1, s.2.add key value)
  let (recordCount, document) := engine.enumerate visitor (0, .empty)
  match save R file document with
  | (false, file) => (recordCount, file)
  | (true, file) => (recordCount, file)

/-! ## What the visitors receive -/

/-- The members in front of the first value that is not a string. -/
def loadedMembers : List (Bytes × Json) → List (Bytes × Bytes)
  | (name, .string value) :: rest => (name, value) :: loadedMembers rest
  | _ => []

/-- The records that `load` hands out of a file. -/
def loadedRecords (R : Rapidjson) (file : File) : List (Bytes × Bytes) :=
  match file.content.filter fun _ => file.readable with
  | none => []
  | some text => loadedMembers (Rapidjson.membersOf ((R.parse text).getD .null))

@[simp] theorem loadedMembers_strings (ms : List (Bytes × Bytes)) :
    loadedMembers (Json.strings ms) = ms := by
  induction ms with
  | nil => rfl
  | cons m ms ih => exact congrArg (m :: ·) ih

theorem mem_of_mem_loadedMembers {members : List (Bytes × Json)} {m : Bytes × Bytes}
    (hm : m ∈ loadedMembers members) : (m.1, .string m.2) ∈ members := by
  induction members using loadedMembers.induct with
  | case1 name value rest ih =>
    rw [loadedMembers, List.mem_cons] at hm
    rcases hm with rfl | hm
    · exact List.mem_cons_self
    · exact List.mem_cons_of_mem _ (ih hm)
  | case2 members hno =>
    rw [loadedMembers] at hm
    · cases hm
    · exact hno

section Visitors

variable {σ : Type} (visitor : σ → Bytes → Bytes → σ)

theorem loadMembers_snd (s : σ) (members : List (Bytes × Json)) :
    (loadMembers visitor s members).2 =
      (loadedMembers members).foldl (fun s m => visitor s m.1 m.2) s := by
  induction s, members using loadMembers.induct visitor with
  | case1 s => rfl
  | case2 s name value rest ih => rw [loadMembers, ih, loadedMembers, List.foldl_cons]
  | case3 s m rest hno =>
    rw [loadMembers, loadedMembers]
    · rfl
    · exact fun name value rest' heq => hno name value (by simpa using congrArg List.head? heq)
    · exact hno

theorem load_snd (R : Rapidjson) (file : File) (s : σ) :
    (load visitor R file s).2 =
      (loadedRecords R file).foldl (fun s m => visitor s m.1 m.2) s := by
  unfold load loadedRecords
  cases file.content with
  | none => rfl
  | some text =>
    cases file.readable with
    | false => rfl
    | true =>
      simp only [if_true, Option.filter_some]
      cases R.parse text with
      | none => rfl
      | some v =>
        cases v with
        | object members => exact loadMembers_snd visitor s members
        | _ => rfl

end Visitors

/-- Loading sets the records of the file. -/
theorem initialLoadData_eq (R : Rapidjson) (engine : DataEngine h Bytes) (file : File) :
    initialLoadData R engine file =
      ((loadedRecords R file).length, engine.setAll (loadedRecords R file)) := by
  let visitor := fun (s : Nat × DataEngine h Bytes) name value => (s.1 + 1, s.2.set name value)
  have hfold : ∀ (records : List (Bytes × Bytes)) (n : Nat) (engine : DataEngine h Bytes),
      records.foldl (fun s m => visitor s m.1 m.2) (n, engine) =
        (n + records.length, engine.setAll records) := by
    intro records
    induction records with
    | nil => exact fun _ _ => rfl
    | cons m records ih =>
      intro n engine
      rw [List.foldl_cons, ih, List.length_cons, Nat.add_assoc, Nat.add_comm 1]
      rfl
  have hload : initialLoadData R engine file = (load visitor R file (0, engine)).2 := by
    show (match load visitor R file (0, engine) with
      | (false, recordCount, engine) => (recordCount, engine)
      | (true, recordCount, engine) => (recordCount, engine)) = _
    cases load visitor R file (0, engine) with
    | mk ok s => cases ok <;> rfl
  rw [hload, load_snd, hfold, Nat.zero_add]

/-- Storing writes the records in the order of the enumeration. -/
theorem storeData_eq (R : Rapidjson) {engine : DataEngine h Bytes}
    (hs : Rapidjson.Storable engine.table.enumerate) {file : File} (hfile : file.writable = true) :
    storeData R engine file = (engine.table.enumerate.length,
      { file with
        content := some (R.accept (.object (Json.strings engine.table.enumerate))) }) := by
  have hfold : ∀ (records : List (Bytes × Bytes)) (n : Nat) (document : Document),
      Rapidjson.Storable records →
      records.foldl (fun (s : Nat × Document) r => (s.1 + 1, s.2.add r.1 r.2)) (n, document) =
        (n + records.length, ⟨document.members ++ records⟩) := by
    intro records
    induction records with
    | nil => intro n document _; simp
    | cons r records ih =>
      intro n document hr
      obtain ⟨hname, hvalue⟩ := hr r List.mem_cons_self
      rw [List.foldl_cons, ih _ _ fun m hm => hr m (List.mem_cons_of_mem _ hm), Document.add,
        stringRef_eq hname, stringRef_eq hvalue, List.length_cons, Nat.add_assoc, Nat.add_comm 1]
      simp
  rw [storeData, DataEngine.enumerate, hfold _ _ _ hs]
  simp [save, hfile, Document.empty, Document.toJson]

/-- What was stored is what is loaded. -/
theorem loadedRecords_of_parse {R : Rapidjson} {file : File} {text : Bytes}
    {ms : List (Bytes × Bytes)} (htext : file.content = some text) (hfile : file.readable = true)
    (hparse : R.parse text = some (.object (Json.strings ms))) : loadedRecords R file = ms := by
  rw [loadedRecords, htext, Option.filter_some, if_pos hfile]
  simp [hparse, Rapidjson.membersOf]

/-! ## The round trip -/

/-- Loading what was stored: the same records for any hashing, the same chains for the same. -/
theorem load_storeData {R : Rapidjson} {engine : DataEngine h Bytes}
    (hs : Rapidjson.Storable engine.table.enumerate)
    (hparse : R.parse (R.accept (.object (Json.strings engine.table.enumerate))) =
      some (.object (Json.strings engine.table.enumerate)))
    {file : File} (hfile : file.Usable) (h' : Hashing Bytes) :
    initialLoadData R (.new h' Bytes) (storeData R engine file).2 =
      (engine.table.enumerate.length, (DataEngine.new h' Bytes).setAll engine.table.enumerate) := by
  have hrecords : loadedRecords R (storeData R engine file).2 = engine.table.enumerate := by
    rw [storeData_eq R hs hfile.2]
    exact loadedRecords_of_parse rfl hfile.1 hparse
  rw [initialLoadData_eq, hrecords]

theorem setAll_enumerate_toMap (engine : DataEngine h Bytes) (h' : Hashing Bytes) :
    ((DataEngine.new h' Bytes).setAll engine.table.enumerate).table.toMap = engine.table.toMap := by
  rw [DataEngine.setAll_eq, Table.toMap_foldl_set]
  exact engine.table.override_enumerate

theorem setAll_enumerate_table (engine : DataEngine h Bytes) :
    ((DataEngine.new h Bytes).setAll engine.table.enumerate).table = engine.table := by
  rw [DataEngine.setAll_eq]
  exact engine.table.rebuild

/-- **Persistence round trip.** The engine that any sets have filled is stored and loaded: both
calls return the number of different keys and an engine of any bucket count and hash gets the
same map. With the engine's own bucket count and hash every chain is the same, and storing again
writes the same file. -/
theorem persistence_round_trip {R : Rapidjson} (hR : R.RoundTrips) (h h' : Hashing Bytes)
    {sets : List (Bytes × Bytes)} (hs : Rapidjson.Storable sets)
    (hcount : (sets.map Prod.fst).dedup.length < 2 ^ 32) {file : File} (hfile : file.Usable) :
    let engine := (DataEngine.new h Bytes).setAll sets
    let stored := storeData R engine file
    let loaded := initialLoadData R (.new h' Bytes) stored.2
    let again := initialLoadData R (.new h Bytes) stored.2
    stored.1 = (sets.map Prod.fst).dedup.length ∧ loaded.1 = (sets.map Prod.fst).dedup.length ∧
      loaded.2.table.toMap = engine.table.toMap ∧ again.2.table.bucket = engine.table.bucket ∧
      storeData R again.2 stored.2 = stored := by
  intro engine stored loaded again
  have htable : engine.table = sets.foldl (fun t r => t.set r.1 r.2) .empty := by
    rw [show engine = _ from DataEngine.setAll_eq ..]
    rfl
  have hstorable : Rapidjson.Storable engine.table.enumerate := fun m hm =>
    hs m (Table.mem_of_mem_foldl_set (htable ▸ hm))
  have hlen : engine.table.enumerate.length = (sets.map Prod.fst).dedup.length := by
    rw [htable, Table.length_foldl_set]
  have hparse := hR _ hstorable (by omega)
  have hstored : stored = _ := storeData_eq R hstorable hfile.2
  have hloaded : loaded = _ := load_storeData hstorable hparse hfile h'
  have hagain : again = _ := load_storeData hstorable hparse hfile h
  have hsame : again.2.table = engine.table := by rw [hagain]; exact setAll_enumerate_table engine
  refine ⟨by rw [hstored, hlen], by rw [hloaded, hlen], ?_, by rw [hsame], ?_⟩
  · rw [hloaded]
    exact setAll_enumerate_toMap engine h'
  · rw [storeData_eq R (by rwa [hsame]) (by rw [hstored]; exact hfile.2), hsame, hstored]

/-- Three buckets, keys hashed by their length. -/
def threeBuckets : Hashing Bytes := ⟨3, by decide, List.length⟩

def oneBucket : Hashing Bytes := ⟨1, Nat.one_pos, fun _ => 0⟩

/-- An empty name, a quote, a backslash, a NUL and bytes that are no UTF-8; one name is set
twice. -/
def awkwardSets : List (Bytes × Bytes) :=
  [(ofString "\"", [0, 255]), ([], ofString "\\"), (ofString "\"", [128]), ([1, 2, 3], [])]

theorem persistence_round_trip_awkward :
    let engine := (DataEngine.new threeBuckets Bytes).setAll awkwardSets
    let stored := storeData Rapidjson.reference engine ⟨none, true, true⟩
    let loaded := initialLoadData Rapidjson.reference (.new oneBucket Bytes) stored.2
    let again := initialLoadData Rapidjson.reference (.new threeBuckets Bytes) stored.2
    stored.1 = 3 ∧ loaded.1 = 3 ∧ loaded.2.table.toMap = engine.table.toMap ∧
      again.2.table.bucket = engine.table.bucket ∧
      storeData Rapidjson.reference again.2 stored.2 = stored :=
  persistence_round_trip Rapidjson.reference_correct.roundTrips threeBuckets oneBucket
    (by unfold Rapidjson.Storable awkwardSets; decide) (by decide) ⟨rfl, rfl⟩

end LockFreeKV.Storage
