import LockFreeKV.Engine.Alone
import LockFreeKV.Server.Consistency
import LockFreeKV.Storage.Process

/-!
# Sessions of the process

The main thread loads the file before any other thread is there, the threads serve, and when
the last handler has ended the main thread stores. The next session starts from the file, with
buckets, heaps and threads of its own. Session by session the records are those of one atomic
map that survives the restarts.
-/
namespace LockFreeKV.Server

open LockFreeKV.Lib LockFreeKV.Engine LockFreeKV.Http LockFreeKV.Crow LockFreeKV.Storage

/-- The calls of the engine that `initial_load_data` makes. -/
def loadCalls (R : Rapidjson) (file : File) : List (Op Bytes Bytes) :=
  (load (fun calls name value => calls ++ [.kv (.set name value)]) R file []).2

/-- `store_data`, with the records that `enumerate` reports. -/
def storeRecords (R : Rapidjson) (file : File) (records : List (Bytes × Bytes)) : File :=
  (save R file (records.foldl (fun document r => document.add r.1 r.2) .empty)).2

variable {T : Type} [DecidableEq T]

/-- A session in which the server does what `es` lists, with what it makes of the file. Requests
that are not in their handlers when the server stops are dropped, and the document has no more
members than it can count. -/
inductive Session (su : Setup) (main : T) (file : File) (es : List (Event T)) : File → Prop
  | run {cfg : Config Bytes T} {loaded stored : Engine.State cfg Bytes} {served : State cfg}
      {results : List (Result Bytes Bytes)} {records : List (Bytes × Bytes)}
      (hload : CallsAlone main (.init cfg Bytes) (loadCalls su.rapidjson file) results loaded)
      (hserve : Run (State.Step su) (.around loaded) es served)
      (hstop : ∀ t r, served.task t ≠ .calling r)
      (hstore : CallsAlone main served.engine [.enumerate] [.visited records] stored)
      (hcount : records.length < 2 ^ 32) :
      Session su main file es (storeRecords su.rapidjson file records)

/-- Sessions one after another. -/
inductive Sessions (su : Setup) (main : T) : File → List (List (Event T)) → File → Prop
  | nil (file : File) : Sessions su main file [] file
  | cons {file file' file'' : File} {es : List (Event T)} {ess : List (List (Event T))}
      (h : Session su main file es file') (hrest : Sessions su main file' ess file'') :
      Sessions su main file (es :: ess) file''

/-- The map that a session finds in the file. -/
def fileMap (R : Rapidjson) (file : File) : Bytes → Option Bytes := recordMap (loadedRecords R file)

/-! ## Loading and storing -/

theorem loadCalls_eq (R : Rapidjson) (file : File) :
    loadCalls R file = (loadedRecords R file).map fun r => .kv (.set r.1 r.2) := by
  have hfold : ∀ (records : List (Bytes × Bytes)) (calls : List (Op Bytes Bytes)),
      records.foldl (fun calls r => calls ++ [.kv (.set r.1 r.2)]) calls =
        calls ++ records.map fun r => .kv (.set r.1 r.2) := by
    intro records
    induction records with
    | nil => simp
    | cons r records ih =>
      intro calls
      rw [List.foldl_cons, ih, List.map_cons, List.append_assoc, List.singleton_append]
  rw [loadCalls, load_snd]
  exact hfold _ []

/-- The engine holds the file's records when the server starts. -/
theorem simulates_loaded {R : Rapidjson} {file : File} {main : T} {cfg : Config Bytes T}
    {results : List (Result Bytes Bytes)} {loaded : Engine.State cfg Bytes}
    (h : CallsAlone main (.init cfg Bytes) (loadCalls R file) results loaded) :
    (∃ tab, Simulates loaded ⟨tab, fun _ => .idle⟩ ∧ tab.toMap = fileMap R file) ∧
      ∀ t, loaded.pc t = .idle := by
  have hinit : Views (Engine.State.init cfg Bytes).mem (fun _ => []) (.new cfg.toHashing Bytes) :=
    ⟨fun _ => rfl, rfl, rfl⟩
  obtain ⟨-, ⟨c, hi, hv⟩, hidle⟩ := calls_alone (Inv.init cfg Bytes) hinit h
  have hpcs : ∀ t, loaded.pc t = .idle := hidle fun _ => rfl
  rw [loadCalls_eq, DataEngine.calls_set, DataEngine.setAll_eq] at hv
  refine ⟨⟨_, ⟨c, hi, hv.table, fun t => ?_⟩, Table.toMap_foldl_set _ _⟩, hpcs⟩
  rw [hpcs]
  rfl

/-- The file that is stored has the records of the enumeration. -/
theorem storeRecords_eq (R : Rapidjson) {file : File} {records : List (Bytes × Bytes)}
    (hs : Rapidjson.Storable records) (hfile : file.writable = true) :
    storeRecords R file records =
      { file with content := some (R.accept (.object (Json.strings records))) } := by
  have hfold : ∀ (records : List (Bytes × Bytes)) (document : Document),
      Rapidjson.Storable records →
      records.foldl (fun document r => document.add r.1 r.2) document =
        ⟨document.members ++ records⟩ := by
    intro records
    induction records with
    | nil => intro document _; simp
    | cons r records ih =>
      intro document hr
      obtain ⟨hname, hvalue⟩ := hr r List.mem_cons_self
      rw [List.foldl_cons, ih _ fun m hm => hr m (List.mem_cons_of_mem _ hm), Document.add,
        stringRef_eq hname, stringRef_eq hvalue]
      simp
  rw [storeRecords, hfold _ _ hs]
  simp [save, hfile, Document.empty, Document.toJson]

/-- What is found in the file again. -/
theorem fileMap_storeRecords {R : Rapidjson} (hR : R.RoundTrips) {file : File}
    (hfile : file.Usable) {records : List (Bytes × Bytes)} (hs : Rapidjson.Storable records)
    (hcount : records.length < 2 ^ 32) :
    (storeRecords R file records).Usable ∧
      fileMap R (storeRecords R file records) = recordMap records := by
  rw [storeRecords_eq R hs hfile.2]
  exact ⟨⟨hfile.1, hfile.2⟩,
    congrArg recordMap (loadedRecords_of_parse rfl hfile.1 (hR _ hs hcount))⟩

/-! ## A session -/

variable {su : Setup} {main : T} {file file' : File} {es : List (Event T)}

omit [DecidableEq T] in
theorem storable_of_source {fs : List (CallEvent T Incoming Outcome)} {name value : Bytes}
    (h : Source su (fileMap su.rapidjson file) fs name value) :
    name.length < 2 ^ 32 ∧ value.length < 2 ^ 32 := by
  rcases h with hold | ⟨t, r, -, hposts⟩
  · exact storable_loadedRecords su.rapidjson file (name, value) (mem_of_override_eq_some hold)
  · exact storable_of_posts hposts

/-- **A session** is a run of the atomic object of requests from the map of the file it found to
the map of the file it leaves. -/
theorem Session.atomic (hR : su.rapidjson.RoundTrips) (hfile : file.Usable)
    (h : Session su main file es file') :
    file'.Usable ∧ ∃ a, Run su.requestSpec.Step ⟨fileMap su.rapidjson file, fun _ => .idle⟩
      (es.filterMap su.requestEvent) a ∧ fileMap su.rapidjson file' = a.obj := by
  cases h with
  | @run cfg loaded stored served results records hload hserve hstop hstore hcount =>
    obtain ⟨⟨tab, hobj, hmap⟩, hidle⟩ := simulates_loaded hload
    obtain ⟨a, object, ha, ⟨c, hi, hr, -⟩, hfinal, -, hfits⟩ := requests_of_run hobj hidle hserve
    have hv : Views served.engine.mem c
        ⟨object.obj, served.engine.mem.successReads, served.engine.mem.failedReads⟩ :=
      ⟨hr, rfl, rfl⟩
    obtain ⟨hresult, -, -⟩ := calls_alone hi hv hstore
    obtain rfl : records = object.obj.enumerate := by
      simpa [DataEngine.calls, DataEngine.call, DataEngine.enumerate_recordVisit] using hresult
    rw [hmap] at ha
    have hs : Rapidjson.Storable object.obj.enumerate := fun m hm => by
      have hvalue := object.obj.mem_enumerate.mp hm
      rw [← hfinal] at hvalue
      exact storable_of_source ((consistent_of_requests ha).source _ _ hvalue)
    obtain ⟨husable, hagain⟩ := fileMap_storeRecords hR hfile hs hcount
    refine ⟨husable, a, ha, ?_⟩
    rw [hagain, recordMap, object.obj.override_enumerate, hfinal]

/-! ## What survives -/

/-- One session among several. -/
theorem requests_of_sessions {m m' : Bytes → Option Bytes} {past : List (List (Event T))}
    {es : List (Event T)} {future : List (List (Event T))}
    (h : su.requestSpec.Sessions m
      ((past ++ es :: future).map fun es => es.filterMap su.requestEvent) m') :
    ∃ before a, su.requestSpec.Sessions m (past.map fun es => es.filterMap su.requestEvent) before ∧
      Run su.requestSpec.Step ⟨before, fun _ => .idle⟩ (es.filterMap su.requestEvent) a ∧
      su.requestSpec.Sessions a.obj (future.map fun es => es.filterMap su.requestEvent) m' := by
  rw [List.map_append, List.map_cons] at h
  obtain ⟨before, hpast, hrest⟩ := h.split
  cases hrest with
  | cons hrun hfuture => exact ⟨before, _, hpast, hrun, hfuture⟩

/-- A value in the map behind some sessions was in the map before them, or a request that stores
it has arrived in one of them. -/
theorem source_of_sessions {m m' : Bytes → Option Bytes} {ess : List (List (Event T))}
    (h : su.requestSpec.Sessions m (ess.map fun es => es.filterMap su.requestEvent) m')
    {name value : Bytes} (hv : m' name = some value) :
    m name = some value ∨ ∃ es ∈ ess, ∃ t r, .receive t r ∈ es ∧ su.Posts r name value := by
  induction ess generalizing m with
  | nil =>
    cases h
    exact .inl hv
  | cons es ess ih =>
    cases h with
    | cons hrun hrest =>
      rcases ih hrest with hold | ⟨es', hes', hposted⟩
      · rcases (consistent_of_requests hrun).source _ _ hold with hfirst | ⟨t, r, hm, hposts⟩
        · exact .inl hfirst
        · exact .inr ⟨es, List.mem_cons_self, t, r, receive_of_invoke hm, hposts⟩
      · exact .inr ⟨es', List.mem_cons_of_mem _ hes', hposted⟩

theorem present_of_sessions {m m' : Bytes → Option Bytes} {ess : List (List (Event T))}
    (h : su.requestSpec.Sessions m (ess.map fun es => es.filterMap su.requestEvent) m')
    {name : Bytes} (hp : m name ≠ none) : m' name ≠ none :=
  h.preserves (P := fun m : Bytes → Option Bytes => m name ≠ none) (fun r _ hm => present_of_apply r hm) hp

theorem sessions_atomic (hR : su.rapidjson.RoundTrips) (hfile : file.Usable)
    {ess : List (List (Event T))} (h : Sessions su main file ess file') :
    su.requestSpec.Sessions (fileMap su.rapidjson file)
      (ess.map fun es => es.filterMap su.requestEvent) (fileMap su.rapidjson file') := by
  induction h with
  | nil => exact .nil _
  | cons hsession _ ih =>
    obtain ⟨husable, a, ha, hmap⟩ := hsession.atomic hR hfile
    refine .cons ha ?_
    rw [← hmap]
    exact ih husable

/-- **Durability across restarts.** Over any number of sessions, with any interleavings, buckets
and heaps, the records are those of one atomic map, which the last file holds. A read finds only
what was in the first file or what a request that had arrived stores; the name of an answered
`POST` is in the last file, and no read in a later session misses it; and each record of the last
file was in the first or was posted. -/
theorem sessions_durable (hR : su.rapidjson.RoundTrips) (hfile : file.Usable)
    {ess : List (List (Event T))} (h : Sessions su main file ess file') :
    su.requestSpec.Sessions (fileMap su.rapidjson file)
      (ess.map fun es => es.filterMap su.requestEvent) (fileMap su.rapidjson file') ∧
    (∀ past es future before t r outcome after name, ess = past ++ es :: future →
      es = before ++ .reply t r outcome :: after → su.Gets r name →
      ∃ found, outcome = .document (getReply r.failures name found) ∧
        ∀ value, found = some value → fileMap su.rapidjson file name = some value ∨
          ∃ es' ∈ past ++ [before], ∃ t' r', .receive t' r' ∈ es' ∧ su.Posts r' name value) ∧
    (∀ past es future t r outcome name value, ess = past ++ es :: future →
      .reply t r outcome ∈ es → su.Posts r name value →
      fileMap su.rapidjson file' name ≠ none ∧
        ∀ es' ∈ future, ∀ t' r' outcome', .reply t' r' outcome' ∈ es' → su.Gets r' name →
          ∃ value', outcome' = .document (getReply r'.failures name (some value'))) ∧
    (∀ name value, fileMap su.rapidjson file' name = some value →
      fileMap su.rapidjson file name = some value ∨
        ∃ es ∈ ess, ∃ t r, .receive t r ∈ es ∧ su.Posts r name value) := by
  have hatomic := sessions_atomic hR hfile h
  refine ⟨hatomic, ?_, ?_, fun name value hv => source_of_sessions hatomic hv⟩
  · rintro past es future before t r outcome after name rfl rfl hgets
    obtain ⟨m, a, hpast, hrun, -⟩ := requests_of_sessions hatomic
    obtain ⟨found, hout, hsource⟩ := read_reply hrun hgets
    refine ⟨found, hout, fun value hv => ?_⟩
    rcases hsource value hv with hold | hposted
    · rcases source_of_sessions hpast hold with hfirst | ⟨es', hes', hposted⟩
      · exact .inl hfirst
      · exact .inr ⟨es', List.mem_append_left _ hes', hposted⟩
    · exact .inr ⟨before, by simp, hposted⟩
  · rintro past es future t r outcome name value rfl hm hposts
    obtain ⟨m, a, -, hrun, hfuture⟩ := requests_of_sessions hatomic
    obtain ⟨before, after, rfl⟩ := List.append_of_mem hm
    obtain ⟨b, hb, hrest⟩ := stored_at_reply hrun hposts
    have ha : a.obj name ≠ none := present_of_requests hrest hb
    refine ⟨present_of_sessions hfuture ha, ?_⟩
    rintro es' hes' t' r' outcome' hm' hgets
    obtain ⟨past', future', rfl⟩ := List.append_of_mem hes'
    obtain ⟨m', a', hbetween, hrun', -⟩ := requests_of_sessions hfuture
    exact found_of_present hgets hrun' (present_of_sessions hbetween ha) (by simp) outcome'
      (List.mem_filterMap.mpr ⟨_, hm', respond_of_reply (onRecords_of_gets hgets)⟩)

/-! ## Two sessions -/

/-- What `enumerate` reports, when it ends. -/
def reported : Result Bytes Bytes → Option (List (Bytes × Bytes))
  | .visited records => some records
  | _ => none

/-- Serving around an engine, and what `enumerate` reports when all handlers have ended. -/
def serving (main : Fin 3) (loaded : Engine.State oneChain Bytes) (cs : List (Choice (Fin 3)))
    (fresh : List Addr) : Option (List (Event (Fin 3)) × List (Bytes × Bytes)) :=
  (execute (State.next setUp) (.around loaded) cs).bind fun served =>
    (served.2.engine.callAlone main .enumerate fresh).bind fun stored =>
      if ∀ t, (served.2.task t).isCalling = false then
        (reported stored.1).map fun records => (served.1, records)
      else none

theorem session_of_serving {file : File} {results : List (Result Bytes Bytes)} {main : Fin 3}
    {loaded : Engine.State oneChain Bytes} {cs : List (Choice (Fin 3))} {fresh : List Addr}
    {es : List (Event (Fin 3))} {records : List (Bytes × Bytes)}
    (hload : CallsAlone main (.init oneChain Bytes) (loadCalls Rapidjson.reference file) results
      loaded)
    (h : serving main loaded cs fresh = some (es, records)) (hcount : records.length < 2 ^ 32) :
    Session setUp main file es (storeRecords Rapidjson.reference file records) := by
  obtain ⟨⟨es', served⟩, hexec, hrest⟩ := Option.bind_eq_some_iff.mp h
  obtain ⟨⟨result, stored⟩, hstore, hrest⟩ := Option.bind_eq_some_iff.mp hrest
  split at hrest
  · next hstop =>
    obtain ⟨records', hreported, heq⟩ := Option.map_eq_some_iff.mp hrest
    obtain ⟨rfl, rfl⟩ := Prod.mk.inj heq
    obtain rfl : result = .visited records' := by
      cases result <;> cases hreported
      rfl
    refine .run hload (run_of_execute hexec) (fun t r htask => ?_) (.cons hstore (.nil _)) hcount
    have hno := hstop t
    rw [htask] at hno
    cases hno
  · cases hrest

/-- No file yet. -/
def noFile : File := ⟨none, true, true⟩

/-- The next session: the record is in the file, and one request reads it. -/
def rereading (t : Fin 3) : List (Choice (Fin 3)) :=
  [.receive t reading, .dispatch t, .advance t 0, .advance t 0, .advance t 0, .ret t, .reply t]

/-- The record that is posted in the first session is read in the second. -/
theorem sessions_durable_rereading : ∃ es es' file',
    Sessions setUp (0 : Fin 3) noFile [es, es'] file' ∧ es.filterMap Event.code = [200, 404, 200] ∧
    es'.filterMap Event.code = [200] ∧
    ∀ t outcome, .reply t posting outcome ∈ es →
      fileMap Rapidjson.reference file' (ofString "a/b") ≠ none ∧
      ∀ t' outcome', .reply t' reading outcome' ∈ es' → ∃ value',
        outcome' = .document (getReply noFailure (ofString "a/b") (some value')) := by
  have hfirst : (serving 0 (.init oneChain Bytes) meeting [0, 0, 0, 0]).map
      (fun x => (x.1.filterMap Event.code, x.2)) =
        some ([200, 404, 200], [(ofString "a/b", ofString "x")]) := by decide +kernel
  obtain ⟨⟨es, records⟩, hserving, heq⟩ := Option.map_eq_some_iff.mp hfirst
  obtain ⟨hcodes, rfl⟩ := Prod.mk.inj heq
  have hone : Session setUp 0 noFile es _ := session_of_serving (.nil _) hserving (by decide)
  have hsecond : ((Engine.State.init oneChain Bytes).callAlone 0
      (.kv (.set (ofString "a/b") (ofString "x"))) [7, 0]).bind (fun x =>
        (serving 0 x.2 (rereading 1) [0, 0, 0, 0]).map fun y => (y.1.filterMap Event.code, y.2)) =
        some ([200], [(ofString "a/b", ofString "x")]) := by decide +kernel
  obtain ⟨⟨result, loaded⟩, hload, hrest⟩ := Option.bind_eq_some_iff.mp hsecond
  obtain ⟨⟨es', records⟩, hserving', heq'⟩ := Option.map_eq_some_iff.mp hrest
  obtain ⟨hcodes', rfl⟩ := Prod.mk.inj heq'
  have hcalls : loadCalls Rapidjson.reference
      (storeRecords Rapidjson.reference noFile [(ofString "a/b", ofString "x")]) =
        [.kv (.set (ofString "a/b") (ofString "x"))] := by rfl
  have hloaded : CallsAlone 0 (.init oneChain Bytes) _ [result] loaded := .cons hload (.nil _)
  rw [← hcalls] at hloaded
  have htwo := session_of_serving hloaded hserving' (by decide)
  have hsessions := Sessions.cons hone (.cons htwo (.nil _))
  obtain ⟨-, -, hposted, -⟩ :=
    sessions_durable Rapidjson.reference_correct.roundTrips ⟨rfl, rfl⟩ hsessions
  refine ⟨es, es', _, hsessions, hcodes, hcodes', fun t outcome hm => ?_⟩
  obtain ⟨hkept, hread⟩ := hposted [] es [es'] t posting outcome _ _ rfl hm posts_posting
  exact ⟨hkept, fun t' outcome' hm' => hread es' (by simp) t' reading outcome' hm' gets_reading⟩

end LockFreeKV.Server
