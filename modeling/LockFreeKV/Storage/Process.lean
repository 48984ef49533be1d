import LockFreeKV.Storage.Persistency
import LockFreeKV.Http.Service

/-!
# A run of the process

The file is loaded, requests are served and the file is written again. What a file
that is not loaded as a whole keeps of its records over a run is stated for a reader
of its text: for objects it sees the string members, and of texts that are no JSON
nothing is assumed about what it sees.
-/
namespace LockFreeKV.Storage

open LockFreeKV.Lib LockFreeKV.Engine LockFreeKV.Http

variable {h : Hashing Bytes}

/-- `main`: load, serve until the server stops, store. -/
def main (R : Rapidjson) (h : Hashing Bytes) (file : File) (requests : List Request) :
    Except Fault File := do
  let (_, engine) := initialLoadData R (.new h Bytes) file
  let (_, engine) ← serve R engine requests
  let (_, file) := storeData R engine file
  return file

/-! ## The records of a file -/

/-- The record that a member is. -/
def asRecord : Bytes × Json → Option (Bytes × Bytes)
  | (name, .string value) => some (name, value)
  | _ => none

/-- The records of a file that is absent or that is an object of strings. -/
def File.records (R : Rapidjson) (file : File) : Option (List (Bytes × Bytes)) :=
  match file.content with
  | none => some []
  | some text =>
    match R.parse text with
    | some (.object members) => members.mapM asRecord
    | _ => none

/-- The map that a list of records stands for, the last one of a name winning. -/
def recordMap (records : List (Bytes × Bytes)) : Bytes → Option Bytes :=
  override (fun _ => none) records

/-- A reader of the records in a text: of an object it sees the string members. -/
def Reads (R : Rapidjson) (recordsIn : Bytes → Bytes → Option Bytes) : Prop :=
  ∀ text members, R.parse text = some (.object members) →
    recordsIn text = recordMap (members.filterMap asRecord)

theorem eq_strings_of_mapM {members : List (Bytes × Json)} {ms : List (Bytes × Bytes)}
    (h : members.mapM asRecord = some ms) : members = Json.strings ms := by
  induction members generalizing ms with
  | nil => cases h; rfl
  | cons m members ih =>
    rw [List.mapM_cons] at h
    obtain ⟨r, hr, hrest⟩ := Option.bind_eq_some_iff.mp h
    obtain ⟨ms', hms', heq⟩ := Option.bind_eq_some_iff.mp hrest
    cases heq
    obtain ⟨name, v⟩ := m
    cases v with
    | string value => cases hr; rw [ih hms']; rfl
    | _ => cases hr

theorem mapM_strings (ms : List (Bytes × Bytes)) : (Json.strings ms).mapM asRecord = some ms := by
  induction ms with
  | nil => rfl
  | cons m ms ih => rw [Json.strings, List.map_cons, List.mapM_cons, ← Json.strings, ih]; rfl

theorem filterMap_strings (ms : List (Bytes × Bytes)) :
    (Json.strings ms).filterMap asRecord = ms := by
  induction ms with
  | nil => rfl
  | cons m ms ih => rw [Json.strings, List.map_cons, List.filterMap_cons, ← Json.strings, ih]; rfl

/-- `load` succeeds on the files that have records as a whole. -/
theorem load_fst {σ : Type} (visitor : σ → Bytes → Bytes → σ) (R : Rapidjson) {file : File}
    (hfile : file.readable = true) (s : σ) :
    (load visitor R file s).1 = (file.records R).isSome := by
  have hmembers : ∀ (members : List (Bytes × Json)) (s : σ),
      (loadMembers visitor s members).1 = (members.mapM asRecord).isSome := by
    intro members
    induction members with
    | nil => exact fun _ => rfl
    | cons m members ih =>
      intro s
      obtain ⟨name, v⟩ := m
      rw [List.mapM_cons]
      cases v with
      | string value =>
        rw [loadMembers, ih]
        cases members.mapM asRecord <;> rfl
      | _ => rfl
  unfold load File.records
  cases file.content with
  | none => rfl
  | some text =>
    simp only [if_pos hfile]
    cases R.parse text with
    | none => rfl
    | some v =>
      cases v with
      | object members => exact hmembers members s
      | _ => rfl

/-- A file that has records as a whole hands out all of them. -/
theorem loadedRecords_of_records {R : Rapidjson} {file : File} {ms : List (Bytes × Bytes)}
    (hfile : file.readable = true) (h : file.records R = some ms) :
    loadedRecords R file = ms := by
  unfold File.records at h
  cases htext : file.content with
  | none =>
    rw [htext] at h
    cases h
    rw [loadedRecords, htext]
    rfl
  | some text =>
    rw [htext] at h
    simp only at h
    split at h
    · next members hparse =>
      rw [eq_strings_of_mapM h] at hparse
      exact loadedRecords_of_parse htext hfile hparse
    · cases h

/-- A file written by `save` has its records as a whole. -/
theorem records_of_parse {R : Rapidjson} {file : File} {text : Bytes} {ms : List (Bytes × Bytes)}
    (htext : file.content = some text) (hparse : R.parse text = some (.object (Json.strings ms))) :
    file.records R = some ms := by
  rw [File.records, htext]
  simp only [hparse]
  exact mapM_strings ms

theorem storable_loadedRecords (R : Rapidjson) (file : File) :
    Rapidjson.Storable (loadedRecords R file) := by
  intro m hm
  unfold loadedRecords at hm
  split at hm
  · cases hm
  · next text _ =>
    cases hparse : R.parse text with
    | none => rw [hparse] at hm; cases hm
    | some v =>
      rw [hparse] at hm
      cases v with
      | object members =>
        have hmem : (m.1, Json.string m.2) ∈ members := mem_of_mem_loadedMembers hm
        obtain ⟨hname, hvalue⟩ := R.sizeBounded _ _ hparse _ hmem
        exact ⟨hname, hvalue _ rfl⟩
      | _ => cases hm

/-! ## What a run leaves behind -/

/-- The engine after the start stands for the records that were loaded. -/
theorem refines_loaded (R : Rapidjson) (h : Hashing Bytes) (file : File) :
    Refines (initialLoadData R (.new h Bytes) file).2 ⟨recordMap (loadedRecords R file), 0, 0⟩ := by
  rw [initialLoadData_eq]
  dsimp only
  rw [DataEngine.setAll_eq]
  exact {
    records := Table.toMap_foldl_set _ _
    found := rfl
    missed := rfl
    bounded := fun name value hv =>
      (storable_loadedRecords R file _ (mem_of_override_eq_some hv)).2 }

/-- What has been loaded and what was posted fits, and nothing else is in the table. -/
theorem storable_served {R : Rapidjson} {requests : List Request} {loaded : List (Bytes × Bytes)}
    {engine : DataEngine h Bytes} (hdec : ∀ request ∈ requests, request.Decodable)
    (hloaded : Rapidjson.Storable loaded)
    (hmap : engine.table.toMap = recordMap (loaded ++ accepted R requests)) :
    Rapidjson.Storable engine.table.enumerate := by
  intro m hm
  have hvalue := engine.table.mem_enumerate.mp hm
  rw [hmap] at hvalue
  rcases List.mem_append.mp (mem_of_override_eq_some hvalue) with hold | hnew
  · exact hloaded m hold
  · exact storable_accepted hdec m hnew

/-- The file after a run is written whole and stands for the loaded records overridden by the
accepted requests. -/
theorem main_ok {R : Rapidjson} (hR : R.Correct) (h : Hashing Bytes) {file : File}
    (hfile : file.Usable) {requests : List Request}
    (hdec : ∀ request ∈ requests, request.Decodable) :
    ∃ file' text records, main R h file requests = .ok file' ∧ file'.readable = true ∧
      file'.content = some text ∧ R.parse text = some (.object (Json.strings records)) ∧
      recordMap records = recordMap (loadedRecords R file ++ accepted R requests) := by
  obtain ⟨replies, engine, hserve, _, hr⟩ := serve_refines R hdec (refines_loaded R h file)
  have hmap : engine.table.toMap = recordMap (loadedRecords R file ++ accepted R requests) := by
    rw [hr.records, Service.records_after, recordMap, recordMap, override_append]
  have hs := storable_served hdec (storable_loadedRecords R file) hmap
  refine ⟨{ file with content := some (R.accept (.object (Json.strings engine.table.enumerate))) },
    _, engine.table.enumerate, ?_, hfile.1, rfl, hR _ hs, ?_⟩
  · have hstore := storeData_eq R hs hfile.2
    simp only [main, hserve, bind, Except.bind, pure, Except.pure, hstore]
  · rw [recordMap, Table.override_enumerate, hmap]

theorem decodable_of_main {R : Rapidjson} {h : Hashing Bytes} {file file' : File}
    {requests : List Request} (hmain : main R h file requests = .ok file') :
    ∀ request ∈ requests, request.Decodable := by
  cases hserve : serve R (initialLoadData R (.new h Bytes) file).2 requests with
  | error fault => simp [main, hserve, bind, Except.bind] at hmain
  | ok result => exact decodable_of_serve hserve

/-! ## Records that a run loses -/

/-- The text is an object and the record's value is the last one of its name in front of the
first member that is no string. -/
def Kept (R : Rapidjson) (text name value : Bytes) : Prop :=
  ∃ leading rest, R.parse text = some (.object (Json.strings leading ++ rest)) ∧
    (∀ m ∈ rest.head?, asRecord m = none) ∧ recordMap leading name = some value

/-- No record is lost by a run. A file that is absent or has its records as a whole is replaced
by one that has them overridden by the accepted requests; of any other file a record whose name
was not posted is still in the file. -/
def LosesNothing (R : Rapidjson) (recordsIn : Bytes → Bytes → Option Bytes) (h : Hashing Bytes)
    (file : File) (requests : List Request) : Prop :=
  ∃ file', main R h file requests = .ok file' ∧
    (∀ initial, file.records R = some initial → (file'.records R).isSome ∧
      ∀ h' : Hashing Bytes, (initialLoadData R (.new h' Bytes) file').2.table.toMap =
        override (recordMap initial) (accepted R requests)) ∧
    (∀ text, file.content = some text → file.records R = none →
      ∃ text', file'.content = some text' ∧
        ∀ name value, recordsIn text name = some value →
          name ∉ (accepted R requests).map Prod.fst → recordsIn text' name = some value)

theorem exists_leading (members : List (Bytes × Json)) :
    ∃ rest, members = Json.strings (loadedMembers members) ++ rest ∧
      ∀ m ∈ rest.head?, asRecord m = none := by
  induction members with
  | nil => exact ⟨[], rfl, by simp⟩
  | cons m members ih =>
    obtain ⟨name, v⟩ := m
    cases v with
    | string value =>
      obtain ⟨rest, heq, hrest⟩ := ih
      exact ⟨rest, congrArg ((name, Json.string value) :: ·) heq, hrest⟩
    | _ => exact ⟨_, rfl, by rintro m ⟨⟩; rfl⟩

theorem loadedMembers_append (leading : List (Bytes × Bytes)) {rest : List (Bytes × Json)}
    (hrest : ∀ m ∈ rest.head?, asRecord m = none) :
    loadedMembers (Json.strings leading ++ rest) = leading := by
  induction leading with
  | nil =>
    cases rest with
    | nil => rfl
    | cons m rest =>
      obtain ⟨name, v⟩ := m
      cases v with
      | string value => cases hrest _ rfl
      | _ => rfl
  | cons m leading ih => exact congrArg (m :: ·) ih

/-- The records that are kept are those that are loaded. -/
theorem kept_iff {R : Rapidjson} {file : File} {text : Bytes} (htext : file.content = some text)
    (hfile : file.readable = true) (name value : Bytes) :
    Kept R text name value ↔ recordMap (loadedRecords R file) name = some value := by
  have hloaded : loadedRecords R file =
      loadedMembers (Rapidjson.membersOf ((R.parse text).getD .null)) := by
    rw [loadedRecords, htext, Option.filter_some, if_pos hfile]
  rw [hloaded]
  constructor
  · intro hkept
    obtain ⟨leading, rest, hparse, hrest, hvalue⟩ := hkept
    rw [hparse, Option.getD_some, Rapidjson.membersOf, loadedMembers_append leading hrest]
    exact hvalue
  · intro hvalue
    cases hparse : R.parse text with
    | none => rw [hparse] at hvalue; cases hvalue
    | some v =>
      rw [hparse] at hvalue
      cases v with
      | object members =>
        obtain ⟨rest, heq, hrest⟩ := exists_leading members
        exact ⟨loadedMembers members, rest, by rw [hparse, ← heq], hrest, hvalue⟩
      | _ => cases hvalue

/-- **Which runs lose no record.** A run loses no record exactly when every segment can be
decoded and the file is absent, or an object of strings, or each of its records is posted or is
the last of its name in front of the object's first member that is no string. Of a file that
is no JSON, or no object, every record has to be posted. -/
theorem losesNothing_iff {R : Rapidjson} (hR : R.Correct)
    {recordsIn : Bytes → Bytes → Option Bytes} (hreads : Reads R recordsIn) (h : Hashing Bytes)
    {file : File} (hfile : file.Usable) (requests : List Request) :
    LosesNothing R recordsIn h file requests ↔
      (∀ request ∈ requests, request.Decodable) ∧
      ∀ text, file.content = some text → file.records R = none →
        ∀ name value, recordsIn text name = some value →
          name ∈ (accepted R requests).map Prod.fst ∨ Kept R text name value := by
  constructor
  · intro hloses
    obtain ⟨file', hmain, -, hrecords⟩ := hloses
    have hdec := decodable_of_main hmain
    refine ⟨hdec, fun text htext hnone name value hin => or_iff_not_imp_left.mpr fun hno => ?_⟩
    obtain ⟨text', htext', hkept⟩ := hrecords text htext hnone
    have hin' := hkept name value hin hno
    obtain ⟨_, _, records, hmain', -, hcontent, hparse, hmap⟩ := main_ok hR h hfile hdec
    rw [hmain'] at hmain
    cases hmain
    obtain rfl := Option.some.inj (hcontent.symm.trans htext')
    rw [hreads _ _ hparse, filterMap_strings, hmap, recordMap, override_append,
      override_of_notMem _ hno] at hin'
    exact (kept_iff htext hfile.1 name value).mpr hin'
  · intro hcond
    obtain ⟨hdec, hkept⟩ := hcond
    obtain ⟨file', text', records, hmain, hreadable, hcontent, hparse, hmap⟩ :=
      main_ok hR h hfile hdec
    refine ⟨file', hmain, ?_, ?_⟩
    · intro initial hinitial
      have hfinal := records_of_parse hcontent hparse
      refine ⟨by rw [hfinal]; rfl, fun h' => ?_⟩
      rw [initialLoadData_eq, loadedRecords_of_records hreadable hfinal]
      dsimp only
      rw [DataEngine.setAll_eq]
      calc (records.foldl (fun t r => t.set r.1 r.2) (.empty : Table h' Bytes)).toMap
          = recordMap records := Table.toMap_foldl_set ..
        _ = recordMap (initial ++ accepted R requests) := by
            rw [hmap, loadedRecords_of_records hfile.1 hinitial]
        _ = override (recordMap initial) (accepted R requests) := override_append ..
    · intro text htext hnone
      refine ⟨text', hcontent, fun name value hin hno => ?_⟩
      have hold := (hkept text htext hnone name value hin).resolve_left hno
      rw [hreads _ _ hparse, filterMap_strings, hmap, recordMap, override_append,
        override_of_notMem _ hno]
      exact (kept_iff htext hfile.1 name value).mp hold

/-- The string members of an object. -/
def objectRecords (R : Rapidjson) (text : Bytes) : Bytes → Option Bytes :=
  recordMap ((Rapidjson.membersOf ((R.parse text).getD .null)).filterMap asRecord)

theorem reads_objectRecords (R : Rapidjson) : Reads R (objectRecords R) := by
  intro text members hparse
  rw [objectRecords, hparse]
  rfl

/-- A member that is no string stands behind the only record. -/
def trailingNumber : File := ⟨some (ofString "\x7b\"a\":\"1\",\"b\":2\x7d"), true, true⟩

/-- A member that is no string stands in front of the only record. -/
def leadingNumber : File := ⟨some (ofString "\x7b\"b\":2,\"a\":\"1\"\x7d"), true, true⟩

theorem losesNothing_iff_trailing :
    LosesNothing Rapidjson.reference (objectRecords Rapidjson.reference) threeBuckets
      trailingNumber [] := by
  have hleading : Rapidjson.reference.parse (ofString "\x7b\"a\":\"1\",\"b\":2\x7d") =
      some (.object (Json.strings [(ofString "a", ofString "1")] ++
        [(ofString "b", .number (ofString "2"))])) := by rfl
  refine (losesNothing_iff Rapidjson.reference_correct (reads_objectRecords _) threeBuckets
    ⟨rfl, rfl⟩ []).mpr ⟨by simp, ?_⟩
  intro text htext _ name value hin
  cases htext
  rw [reads_objectRecords _ _ _ hleading] at hin
  exact .inr ⟨_, _, hleading, by rintro m ⟨⟩; rfl, hin⟩

/-- A file whose second member is a string and whose first is none is emptied by a run without
requests. -/
theorem leadingNumber_lost :
    main Rapidjson.reference threeBuckets leadingNumber [] =
      .ok { leadingNumber with content := some (ofString "\x7b\x7d") } ∧
    objectRecords Rapidjson.reference (ofString "\x7b\"b\":2,\"a\":\"1\"\x7d") (ofString "a") =
      some (ofString "1") ∧
    ¬ LosesNothing Rapidjson.reference (objectRecords Rapidjson.reference) threeBuckets
      leadingNumber [] := by
  have hmain : main Rapidjson.reference threeBuckets leadingNumber [] =
      .ok { leadingNumber with content := some (ofString "\x7b\x7d") } := by rfl
  have hold : objectRecords Rapidjson.reference (ofString "\x7b\"b\":2,\"a\":\"1\"\x7d")
      (ofString "a") = some (ofString "1") := by rfl
  refine ⟨hmain, hold, ?_⟩
  intro hloses
  obtain ⟨file', hmain', -, hrecords⟩ := hloses
  cases hmain.symm.trans hmain'
  obtain ⟨text', htext', hkept⟩ := hrecords _ rfl (by rfl)
  cases htext'
  have hnew : objectRecords Rapidjson.reference (ofString "\x7b\x7d") (ofString "a") = none := by rfl
  exact absurd (hnew.symm.trans (hkept _ _ hold (by simp [accepted]))) (by simp)

end LockFreeKV.Storage
