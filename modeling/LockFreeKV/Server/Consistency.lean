import LockFreeKV.Server.Requests

/-!
# What clients can rely on

A record that is found was posted by a request that had arrived before the reply, or was there
from the start; once a `POST` of a name has been answered, no request for the name that arrives
later misses it. Both are invariants of the atomic object of requests, read back at the server.
-/
namespace LockFreeKV.Server

open LockFreeKV.Lib LockFreeKV.Engine LockFreeKV.Http LockFreeKV.Crow

section Spec

variable {su : Setup} {r : Incoming} {name value : Bytes}

theorem apply_gets (h : su.Gets r name) (m : Bytes → Option Bytes) :
    su.requestSpec.apply r m = (m, .document (getReply r.failures name (m name))) := by
  have hstage : su.stage r = .ok (.inr (.kv (.get name))) := h
  have hcall : su.handlers.stage r = .inr (.get name) := by simp [Setup.handlers, hstage]
  refine (SeqSpec.through_call hcall m).trans ?_
  simp [Setup.handlers, hstage, Incoming.finish, Http.finish, mapSpec]

theorem apply_posts (h : su.Posts r name value) (m : Bytes → Option Bytes) :
    su.requestSpec.apply r m =
      (Function.update m name (some value), .document (setReply r.failures name)) := by
  have hstage : su.stage r = .ok (.inr (.kv (.set name value))) := h
  have hcall : su.handlers.stage r = .inr (.set name value) := by simp [Setup.handlers, hstage]
  refine (SeqSpec.through_call hcall m).trans ?_
  simp [Setup.handlers, hstage, Incoming.finish, Http.finish, mapSpec]

/-- A request leaves the map as it is, or stores one record. -/
theorem apply_cases (su : Setup) (r : Incoming) (m : Bytes → Option Bytes) :
    (su.requestSpec.apply r m).1 = m ∨ ∃ name value, su.Posts r name value ∧
      (su.requestSpec.apply r m).1 = Function.update m name (some value) := by
  cases hcall : su.handlers.stage r with
  | inl outcome => exact .inl (congrArg Prod.fst (SeqSpec.through_reply hcall m))
  | inr op =>
    have hstage : su.stage r = .ok (.inr (.kv op)) := by
      unfold Setup.handlers at hcall
      simp only at hcall
      split at hcall <;> cases hcall
      assumption
    cases op with
    | get name => exact .inl (congrArg Prod.fst (apply_gets hstage m))
    | set name value => exact .inr ⟨name, value, hstage, congrArg Prod.fst (apply_posts hstage m)⟩

end Spec

section Invariant

variable {T : Type} [DecidableEq T] {su : Setup} {m : Bytes → Option Bytes}
  {fs : List (CallEvent T Incoming Outcome)} {f : CallEvent T Incoming Outcome}
  {a a' : AtomicState (Bytes → Option Bytes) T Incoming Outcome}

/-- The record was there from the start, or a request that stores it has arrived. -/
def Source (su : Setup) (m : Bytes → Option Bytes) (fs : List (CallEvent T Incoming Outcome))
    (name value : Bytes) : Prop :=
  m name = some value ∨ ∃ t r, .invoke t r ∈ fs ∧ su.Posts r name value

omit [DecidableEq T] in
theorem Source.snoc {name value : Bytes} (h : Source su m fs name value) :
    Source su m (fs ++ [f]) name value :=
  h.imp_right fun ⟨t, r, hm, hp⟩ => ⟨t, r, List.mem_append_left _ hm, hp⟩

/-- Where the records come from, and what the replies that are on their way say. -/
structure Consistent (su : Setup) (m : Bytes → Option Bytes)
    (fs : List (CallEvent T Incoming Outcome))
    (a : AtomicState (Bytes → Option Bytes) T Incoming Outcome) : Prop where
  pending : ∀ t r, a.status t = .pending r → .invoke t r ∈ fs
  source : ∀ name value, a.obj name = some value → Source su m fs name value
  read : ∀ t r outcome name, a.status t = .done r outcome → su.Gets r name →
    ∃ found, outcome = .document (getReply r.failures name found) ∧
      ∀ value, found = some value → Source su m fs name value
  stored : ∀ t r outcome name value, a.status t = .done r outcome → su.Posts r name value →
    a.obj name ≠ none

/-- A record once stored stays stored. -/
theorem present_of_apply {name : Bytes} (r : Incoming) (hp : m name ≠ none) :
    (su.requestSpec.apply r m).1 name ≠ none := by
  rcases apply_cases su r m with hsame | ⟨name', value', -, hup⟩
  · rwa [hsame]
  · rw [hup]
    by_cases hn : name = name'
    · subst hn
      simp
    · simpa [hn] using hp

theorem present_of_step {name : Bytes} (hs : su.requestSpec.Step a f a') (hp : a.obj name ≠ none) :
    a'.obj name ≠ none := by
  cases hs with
  | @effect t r => exact present_of_apply r hp
  | _ => exact hp

theorem present_of_requests {name : Bytes} (hrun : Run su.requestSpec.Step a fs a')
    (hp : a.obj name ≠ none) : a'.obj name ≠ none :=
  hrun.invariant (fun _ b => b.obj name ≠ none) hp fun _ _ _ _ hb hs => present_of_step hs hb

omit [DecidableEq T] in
theorem Consistent.quiet : Consistent su m ([] : List (CallEvent T Incoming Outcome))
    ⟨m, fun _ => .idle⟩ :=
  ⟨fun _ _ h => (by cases h), fun _ _ h => .inl h, fun _ _ _ _ h => (by cases h),
    fun _ _ _ _ _ h => (by cases h)⟩

/-- The frame of a step: the stepping thread and the map have to account for what is new. -/
theorem Consistent.snoc (hc : Consistent su m fs a) {obj : Bytes → Option Bytes} {t : T}
    {st : Status Incoming Outcome} (hpresent : ∀ name, a.obj name ≠ none → obj name ≠ none)
    (hpending : ∀ r, st = .pending r → .invoke t r ∈ fs ++ [f])
    (hsource : ∀ name value, obj name = some value → Source su m (fs ++ [f]) name value)
    (hread : ∀ r outcome name, st = .done r outcome → su.Gets r name →
      ∃ found, outcome = .document (getReply r.failures name found) ∧
        ∀ value, found = some value → Source su m (fs ++ [f]) name value)
    (hstored : ∀ r outcome name value, st = .done r outcome → su.Posts r name value →
      obj name ≠ none) :
    Consistent su m (fs ++ [f]) ⟨obj, Function.update a.status t st⟩ where
  pending u r h := by
    by_cases hu : u = t
    · subst hu
      exact hpending r (by simpa using h)
    · exact List.mem_append_left _ (hc.pending u r (by simpa [hu] using h))
  source := hsource
  read u r outcome name h hgets := by
    by_cases hu : u = t
    · subst hu
      exact hread r outcome name (by simpa using h) hgets
    · obtain ⟨found, hout, hsrc⟩ := hc.read u r outcome name (by simpa [hu] using h) hgets
      exact ⟨found, hout, fun value hv => (hsrc value hv).snoc⟩
  stored u r outcome name value h hposts := by
    by_cases hu : u = t
    · subst hu
      exact hstored r outcome name value (by simpa using h) hposts
    · exact hpresent name (hc.stored u r outcome name value (by simpa [hu] using h) hposts)

theorem Consistent.step (hc : Consistent su m fs a) (hs : su.requestSpec.Step a f a') :
    Consistent su m (fs ++ [f]) a' := by
  have hpresent : ∀ name, a.obj name ≠ none → a'.obj name ≠ none := fun _ => present_of_step hs
  have hold : ∀ name value, a.obj name = some value → Source su m (fs ++ [f]) name value :=
    fun name value hv => (hc.source name value hv).snoc
  cases hs with
  | @invoke t r hidle =>
    refine hc.snoc hpresent (fun r' h => ?_) hold (by simp) (by simp)
    obtain rfl := Status.pending.inj h
    exact List.mem_append_right _ (List.mem_singleton_self _)
  | respond => exact hc.snoc hpresent (by simp) hold (by simp) (by simp)
  | @effect t r hpend =>
    refine hc.snoc hpresent (by simp) (fun name value hv => ?_) (fun r' outcome name h hgets => ?_)
      (fun r' outcome name value h hposts => ?_)
    · rcases apply_cases su r a.obj with hsame | ⟨name', value', hposts, hup⟩
      · rw [hsame] at hv
        exact hold name value hv
      · rw [hup] at hv
        by_cases hn : name = name'
        · subst hn
          rw [Function.update_self, Option.some.injEq] at hv
          subst hv
          exact .inr ⟨t, r, List.mem_append_left _ (hc.pending t r hpend), hposts⟩
        · rw [Function.update_of_ne hn] at hv
          exact hold name value hv
    · obtain ⟨rfl, rfl⟩ := Status.done.inj h
      refine ⟨a.obj name, congrArg Prod.snd (apply_gets hgets a.obj), fun value hv => ?_⟩
      exact hold name value hv
    · obtain ⟨rfl, rfl⟩ := Status.done.inj h
      rw [apply_posts hposts]
      simp

theorem consistent_of_requests (hrun : Run su.requestSpec.Step ⟨m, fun _ => .idle⟩ fs a) :
    Consistent su m fs a :=
  hrun.invariant (Consistent su m) Consistent.quiet fun _ _ _ _ hc hs => hc.step hs

/-- While a name is stored and the thread has no reply under way that misses it, it makes none. -/
theorem found_of_present {t : T} {r : Incoming} {name : Bytes} (hgets : su.Gets r name)
    (hrun : Run su.requestSpec.Step a fs a') (hp : a.obj name ≠ none)
    (hst : ∀ outcome, a.status t = .done r outcome →
      ∃ value, outcome = .document (getReply r.failures name (some value))) :
    ∀ outcome, CallEvent.respond t r outcome ∈ fs →
      ∃ value, outcome = .document (getReply r.failures name (some value)) := by
  let Found (outcome : Outcome) : Prop :=
    ∃ value, outcome = .document (getReply r.failures name (some value))
  have hinv : (a'.obj name ≠ none ∧ ∀ outcome, a'.status t = .done r outcome → Found outcome) ∧
      ∀ outcome, CallEvent.respond t r outcome ∈ fs → Found outcome := by
    refine hrun.invariant (fun fs b => (b.obj name ≠ none ∧
      ∀ outcome, b.status t = .done r outcome → Found outcome) ∧
      ∀ outcome, CallEvent.respond t r outcome ∈ fs → Found outcome) ⟨⟨hp, hst⟩, by simp⟩ ?_
    rintro fs b f b' ⟨⟨hb, hbst⟩, hall⟩ hs
    have hb' := present_of_step hs hb
    cases hs with
    | @invoke u r' hidle =>
      refine ⟨⟨hb', ?_⟩, by simpa using hall⟩
      by_cases hu : t = u
      · subst hu
        simp
      · simpa [hu] using hbst
    | @effect u r' hpend =>
      refine ⟨⟨hb', fun outcome h => ?_⟩, by simpa using hall⟩
      by_cases hu : t = u
      · subst hu
        obtain ⟨rfl, rfl⟩ := Status.done.inj (by simpa using h)
        obtain ⟨value, hv⟩ := Option.ne_none_iff_exists'.mp hb
        exact ⟨value, by rw [apply_gets hgets, hv]⟩
      · exact hbst outcome (by simpa [hu] using h)
    | @respond u r' outcome' hdone =>
      refine ⟨⟨hb', ?_⟩, fun outcome hm => ?_⟩
      · by_cases hu : t = u
        · subst hu
          simp
        · simpa [hu] using hbst
      · rcases List.mem_append.mp hm with hm | hm
        · exact hall outcome hm
        · cases List.mem_singleton.mp hm
          exact hbst _ hdone
  exact hinv.2

end Invariant

/-! ## Runs of the server -/

section Runs

variable {T : Type} [DecidableEq T] {cfg : Config Bytes T} {su : Setup} {s : State cfg}
  {es : List (Event T)}

omit [DecidableEq T] in
theorem onRecords_of_gets {r : Incoming} {name : Bytes} (h : su.Gets r name) :
    su.onRecords r = true := by
  obtain ⟨hr, -⟩ | ⟨-, hx⟩ := stage_cases h
  · exact hr
  · cases hx

omit [DecidableEq T] in
theorem onRecords_of_posts {r : Incoming} {name value : Bytes} (h : su.Posts r name value) :
    su.onRecords r = true := by
  obtain ⟨hr, -⟩ | ⟨-, hx⟩ := stage_cases h
  · exact hr
  · cases hx

omit [DecidableEq T] in
/-- An arrival among the events of the requests is one at the server. -/
theorem receive_of_invoke {t : T} {r : Incoming}
    (hm : CallEvent.invoke t r ∈ es.filterMap su.requestEvent) : .receive t r ∈ es := by
  obtain ⟨e, he, hev⟩ := List.mem_filterMap.mp hm
  cases e with
  | receive u r' =>
    simp only [Setup.requestEvent, Option.ite_none_right_eq_some, Option.some.injEq,
      CallEvent.invoke.injEq] at hev
    obtain ⟨-, rfl, rfl⟩ := hev
    exact he
  | settle u => cases hev
  | engine x =>
    rw [Setup.requestEvent] at hev
    split at hev <;> cases hev
  | reply u r' outcome =>
    rw [Setup.requestEvent] at hev
    split at hev <;> cases hev

omit [DecidableEq T] in
theorem invoke_of_receive {t : T} {r : Incoming} (hr : su.onRecords r = true) :
    su.requestEvent (.receive t r) = some (.invoke t r) := by
  rw [Setup.requestEvent, if_pos hr]

omit [DecidableEq T] in
theorem respond_of_reply {t : T} {r : Incoming} {outcome : Outcome} (hr : su.onRecords r = true) :
    su.requestEvent (.reply t r outcome) = some (.respond t r outcome) := by
  rw [Setup.requestEvent, if_pos hr]

/-- The reply to a read says what was found, and what was found has a source. -/
theorem read_reply {m : Bytes → Option Bytes} {before after : List (Event T)} {t : T} {r : Incoming}
    {outcome : Outcome} {name : Bytes} {a : AtomicState (Bytes → Option Bytes) T Incoming Outcome}
    (hrun : Run su.requestSpec.Step ⟨m, fun _ => .idle⟩
      ((before ++ .reply t r outcome :: after).filterMap su.requestEvent) a)
    (hgets : su.Gets r name) :
    ∃ found, outcome = .document (getReply r.failures name found) ∧
      ∀ value, found = some value → m name = some value ∨
        ∃ t' r', .receive t' r' ∈ before ∧ su.Posts r' name value := by
  rw [List.filterMap_append, List.filterMap_cons, respond_of_reply (onRecords_of_gets hgets)] at hrun
  obtain ⟨b, hbefore, hrest⟩ := hrun.split
  obtain ⟨b', hs, -⟩ := hrest.cons_split
  cases hs with
  | respond hdone =>
    obtain ⟨found, hout, hsource⟩ :=
      (consistent_of_requests hbefore).read t r outcome name hdone hgets
    refine ⟨found, hout, fun value hv => (hsource value hv).imp_right ?_⟩
    rintro ⟨t', r', hm, hposts⟩
    exact ⟨t', r', receive_of_invoke hm, hposts⟩

/-- Behind the reply to a `POST` its name is stored. -/
theorem stored_at_reply {m : Bytes → Option Bytes} {before after : List (Event T)} {t : T}
    {r : Incoming} {outcome : Outcome} {name value : Bytes}
    {a : AtomicState (Bytes → Option Bytes) T Incoming Outcome}
    (hrun : Run su.requestSpec.Step ⟨m, fun _ => .idle⟩
      ((before ++ .reply t r outcome :: after).filterMap su.requestEvent) a)
    (hposts : su.Posts r name value) :
    ∃ b, b.obj name ≠ none ∧ Run su.requestSpec.Step b (after.filterMap su.requestEvent) a := by
  rw [List.filterMap_append, List.filterMap_cons, respond_of_reply (onRecords_of_posts hposts)]
    at hrun
  obtain ⟨b, hbefore, hrest⟩ := hrun.split
  obtain ⟨b', hs, hafter⟩ := hrest.cons_split
  cases hs with
  | respond hdone =>
    exact ⟨⟨b.obj, Function.update b.status t .idle⟩,
      (consistent_of_requests hbefore).stored t r outcome name value hdone hposts, hafter⟩

/-- A request for a stored name that arrives now will find it. -/
theorem found_after_receive {after : List (Event T)} {t : T} {r : Incoming} {name : Bytes}
    {b a : AtomicState (Bytes → Option Bytes) T Incoming Outcome}
    (hrun : Run su.requestSpec.Step b ((.receive t r :: after).filterMap su.requestEvent) a)
    (hp : b.obj name ≠ none) (hgets : su.Gets r name) {outcome : Outcome}
    (hm : .reply t r outcome ∈ after) :
    ∃ value, outcome = .document (getReply r.failures name (some value)) := by
  rw [List.filterMap_cons, invoke_of_receive (onRecords_of_gets hgets)] at hrun
  obtain ⟨b', hs, hafter⟩ := hrun.cons_split
  have hp' := present_of_step hs hp
  cases hs with
  | invoke =>
    exact found_of_present hgets hafter hp' (by simp) outcome
      (List.mem_filterMap.mpr ⟨_, hm, respond_of_reply (onRecords_of_gets hgets)⟩)

omit [DecidableEq T] in
/-- The engine of the freshly started server. -/
theorem simulates_init : Simulates (Engine.State.init cfg Bytes)
    ⟨(.empty : Table cfg.toHashing Bytes), fun _ => .idle⟩ :=
  ⟨fun _ => [], Inv.init cfg Bytes, fun _ => rfl, fun _ => rfl⟩

/-- **Requests are linearizable.** In every run of the server with any number of threads, the
requests that are not for the statistics are those of an atomic object, which handles each at one
instant between its arrival and its reply just as it is handled alone; its map is the engine's. -/
theorem requests_linearizable (hrun : Run (State.Step su) (.around (.init cfg Bytes)) es s) :
    (∃ a, Run su.requestSpec.Step ⟨fun _ => none, fun _ => .idle⟩ (es.filterMap su.requestEvent) a ∧
      (∀ name value, a.obj name = some value ↔ s.engine.Holds name value) ∧
      ∀ t r outcome, s.task t = .ended r outcome → su.onRecords r = true →
        a.status t = .done r outcome) ∧
    ∀ r, su.onRecords r = true → ∀ (h : Hashing Bytes) (engine : DataEngine h Bytes),
      ∃ outcome engine', su.alone engine r = .ok (outcome, engine') ∧
        su.requestSpec.apply r engine.table.toMap = (engine'.table.toMap, outcome) := by
  obtain ⟨a, object, ha, ⟨c, hi, hr, -⟩, hobj, hended, -⟩ :=
    requests_of_run simulates_init (fun _ => rfl) hrun
  refine ⟨⟨a, ha, fun name value => ?_, hended⟩, fun r hrec h engine => requestSpec_alone hrec engine⟩
  rw [hobj]
  exact (hi.holds_iff hr).symm

/-- **What clients can rely on.** A reply to a read names a value only if a `POST` of the name
with that value had arrived before it; behind the reply to a `POST`, a read of its name that
arrives later finds a value; and the names of all answered `POST`s are held by the engine. -/
theorem records_reliable (hrun : Run (State.Step su) (.around (.init cfg Bytes)) es s) :
    (∀ before t r outcome after name, es = before ++ .reply t r outcome :: after →
      su.Gets r name → ∃ found, outcome = .document (getReply r.failures name found) ∧
        ∀ value, found = some value → ∃ t' r', .receive t' r' ∈ before ∧ su.Posts r' name value) ∧
    (∀ before t r outcome between t' r' after name value,
      es = before ++ .reply t r outcome :: (between ++ .receive t' r' :: after) →
      su.Posts r name value → su.Gets r' name → ∀ outcome', .reply t' r' outcome' ∈ after →
      ∃ value', outcome' = .document (getReply r'.failures name (some value'))) ∧
    (∀ t r outcome name value, .reply t r outcome ∈ es → su.Posts r name value →
      ∃ value', s.engine.Holds name value' ∧
        ∃ t' r', .receive t' r' ∈ es ∧ su.Posts r' name value') := by
  obtain ⟨a, object, ha, ⟨c, hi, hr, -⟩, hobj, -, -⟩ :=
    requests_of_run simulates_init (fun _ => rfl) hrun
  have hempty : ∀ name value, (.empty : Table cfg.toHashing Bytes).toMap name ≠ some value :=
    fun _ _ h => by cases h
  refine ⟨?_, ?_, ?_⟩
  · rintro before t r outcome after name rfl hgets
    obtain ⟨found, hout, hsource⟩ := read_reply ha hgets
    exact ⟨found, hout, fun value hv => (hsource value hv).resolve_left (hempty name value)⟩
  · rintro before t r outcome between t' r' after name value rfl hposts hgets outcome' hm
    obtain ⟨b, hb, hrest⟩ := stored_at_reply ha hposts
    rw [List.filterMap_append] at hrest
    obtain ⟨b', hbetween, hafter⟩ := hrest.split
    exact found_after_receive hafter (present_of_requests hbetween hb) hgets hm
  · intro t r outcome name value hm hposts
    obtain ⟨before, after, rfl⟩ := List.append_of_mem hm
    obtain ⟨b, hb, hrest⟩ := stored_at_reply ha hposts
    obtain ⟨value', hv⟩ := Option.ne_none_iff_exists'.mp (present_of_requests hrest hb)
    refine ⟨value', (hi.holds_iff hr).mpr (hobj ▸ hv), ?_⟩
    obtain ⟨t', r', hm', hposts'⟩ :=
      ((consistent_of_requests ha).source name value' hv).resolve_left (hempty name value')
    exact ⟨t', r', receive_of_invoke hm', hposts'⟩

end Runs

/-! ## A run -/

/-- One bucket and three threads, each with a heap of its own. -/
def oneChain : Config Bytes (Fin 3) := ⟨⟨1, Nat.one_pos, List.length⟩, Fin.val⟩

/-- `POST` of a value to the record `a/b`. -/
def posting : Incoming :=
  ⟨.post, ofString "/api/records/a%2Fb", ofString "\x7b\"value\":\"x\"\x7d", noFailure, by decide,
    by decide⟩

/-- `HEAD` of the record, spelled differently. -/
def reading : Incoming := ⟨.head, ofString "/api/records/%61%2fb", [], noFailure, by decide, by decide⟩

/-- One reader misses the record, which another thread stores in the meantime; the next finds it. -/
def meeting : List (Choice (Fin 3)) :=
  [.receive 0 posting, .receive 1 reading, .dispatch 1, .dispatch 0, .advance 0 100, .advance 1 0,
    .advance 0 0, .advance 1 0, .ret 0, .reply 0, .receive 2 reading, .ret 1, .dispatch 2, .reply 1,
    .advance 2 0, .advance 2 0, .advance 2 0, .ret 2, .reply 2]

theorem meeting_runs : ∃ es s, execute (State.next setUp) (.around (.init oneChain Bytes)) meeting =
    some (es, s) ∧ es.filterMap Event.code = [200, 404, 200] := by
  have hcodes : ((execute (State.next setUp) (.around (.init oneChain Bytes)) meeting).map
      fun x => x.1.filterMap Event.code) = some [200, 404, 200] := by decide +kernel
  obtain ⟨⟨es, s⟩, hexec, hes⟩ := Option.map_eq_some_iff.mp hcodes
  exact ⟨es, s, hexec, hes⟩

theorem requests_linearizable_meeting : ∃ es s,
    execute (State.next setUp) (.around (.init oneChain Bytes)) meeting = some (es, s) ∧
    es.filterMap Event.code = [200, 404, 200] ∧
    ∃ a, Run setUp.requestSpec.Step ⟨fun _ => none, fun _ => .idle⟩
        (es.filterMap setUp.requestEvent) a ∧
      ∀ name value, a.obj name = some value ↔ s.engine.Holds name value := by
  obtain ⟨es, s, hexec, hcodes⟩ := meeting_runs
  obtain ⟨⟨a, ha, hholds, -⟩, -⟩ := requests_linearizable (run_of_execute hexec)
  exact ⟨es, s, hexec, hcodes, a, ha, hholds⟩

theorem posts_posting : setUp.Posts posting (ofString "a/b") (ofString "x") :=
  posts_iff.mpr ⟨rfl, rfl, ⟨rfl, rfl, rfl⟩, ofString "a%2Fb", by decide, by decide, by decide,
    by decide⟩

theorem gets_reading : setUp.Gets reading (ofString "a/b") :=
  gets_iff.mpr ⟨.inr rfl, rfl, ofString "%61%2fb", by decide, by decide, by decide, by decide⟩

/-- In the run the record is posted, so whoever reads its name behind the reply finds it. -/
theorem records_reliable_meeting : ∃ es s,
    execute (State.next setUp) (.around (.init oneChain Bytes)) meeting = some (es, s) ∧
    es.filterMap Event.code = [200, 404, 200] ∧
    ∀ before t outcome between t' after,
      es = before ++ .reply t posting outcome :: (between ++ .receive t' reading :: after) →
      ∀ outcome', .reply t' reading outcome' ∈ after →
      ∃ value', outcome' = .document (getReply noFailure (ofString "a/b") (some value')) := by
  obtain ⟨es, s, hexec, hcodes⟩ := meeting_runs
  obtain ⟨-, hfound, -⟩ := records_reliable (run_of_execute hexec)
  refine ⟨es, s, hexec, hcodes, fun before t outcome between t' after heq outcome' hm => ?_⟩
  exact hfound before t posting outcome between t' reading after _ _ heq posts_posting gets_reading
    outcome' hm

end LockFreeKV.Server
