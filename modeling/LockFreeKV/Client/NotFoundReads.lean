import LockFreeKV.Client.Handling

/-!
# The reads that are meant to miss

Writes and reads draw from one list of names, so no name that is meant for misses is ever
written, and none is ever read either. A read that is meant to miss is answered 404 exactly
if no write of the name it drew comes before its lookup.
-/
namespace LockFreeKV.Client

open LockFreeKV.Lib LockFreeKV.Engine LockFreeKV.Http

variable {P T : Type} [DecidableEq T] {cfg : Config Bytes T}

/-- Every read that is meant to miss is answered 404, at the server and at its client, and counted
once, as failed; no write is for a name that is meant for misses, and none is stored. -/
structure NotFoundReadsMiss (es : List (Label P T)) (s : State P cfg) : Prop where
  handled : ∀ h : Handling P T, h.In es → h.message.draw.read404 = true →
    h.reply.code = 404 ∧ readsBy h.thread false h.mid = 1 ∧ readsBy h.thread true h.mid = 0
  answered : ∀ message reply, .answered message reply ∈ es → message.draw.read404 = true →
    reply.code = 404
  writes : ∀ t message key value, .engine t message (.call (.kv (.set key value))) ∈ es →
    ∀ i, key ≠ ofString (notFoundValueNames i)
  absent : ∀ i, ¬ s.engine.Stored (ofString (notFoundValueNames i))

section Run

variable {R : Rapidjson} {s₀ s s' m₀ m₁ : State P cfg} {es base mid : List (Label P T)}
  {l : Label P T} {t : T} {message : Message P} {failures : FailPoint → Bool} {reply : Reply}

/-- A handler that has its reply keeps it until it is sent. -/
theorem Moves.keeps_reply (hm : Moves R s l s')
    (hworker : s.worker t = .replying message failures reply)
    (hl : ∀ m f r, l ≠ .replied t m f r) : s'.worker t = .replying message failures reply := by
  by_cases hactor : l.actor = some t
  · cases hm with
    | outside hlabel => rcases hlabel with rfl | ⟨m, rfl⟩ <;> cases hactor
    | answered => cases hactor
    | replied =>
      obtain rfl := Option.some.inj hactor
      exact absurd rfl (hl _ _ _)
    | received hw =>
      obtain rfl := Option.some.inj hactor
      cases hw.symm.trans hworker
    | called hw =>
      obtain rfl := Option.some.inj hactor
      cases hw.symm.trans hworker
    | advanced hw =>
      obtain rfl := Option.some.inj hactor
      cases hw.symm.trans hworker
    | returned hw =>
      obtain rfl := Option.some.inj hactor
      cases hw.symm.trans hworker
  · exact (hm.frame hactor).1.trans hworker

variable [DecidableEq P]

theorem reply_of_run (hrun : Run (State.Step R) m₀ mid m₁)
    (hworker : m₀.worker t = .replying message failures reply)
    (hno : ∀ m f r, .replied t m f r ∉ mid) : m₁.worker t = .replying message failures reply := by
  refine hrun.invariant (fun mid m => (∀ m' f r, Label.replied t m' f r ∉ mid) →
    m.worker t = .replying message failures reply) (fun _ => hworker)
    (fun mid m l m' ih hs hno => ?_) hno
  exact (State.moves_of_step hs).keeps_reply (ih fun m f r hmem => hno m f r (by simp [hmem]))
    fun m f r hl => hno m f r (by simp [hl])

theorem lookup_of_run (hg : Good s₀ base m₀) (hrun : Run (State.Step R) m₀ mid m₁)
    (hworker : m₀.worker t = .calling message failures (.get message.draw.key))
    (hpc : m₀.engine.pc t = .idle) (hno : ∀ m f r, .replied t m f r ∉ mid) :
    Lookup s₀ base t message failures mid m₁ := by
  have hinv := hrun.invariant (fun mid m => Good s₀ (base ++ mid) m ∧
    ((∀ m' f r, Label.replied t m' f r ∉ mid) → Lookup s₀ base t message failures mid m)) ?_ ?_
  · exact hinv.2 hno
  · refine ⟨by simpa using hg, fun _ => .ahead hworker (.inl hpc) (by simp) fun found => ?_⟩
    rw [hpc]
    rfl
  · intro mid m l m' ih hs
    have hm := State.moves_of_step hs
    refine ⟨?_, fun hno => ?_⟩
    · rw [← List.append_assoc]
      exact ih.1.step hm
    · exact (ih.2 fun m f r hmem => hno m f r (by simp [hmem])).step ih.1 hm
        fun m f r hl => hno m f r (by simp [hl])

omit [DecidableEq P] in
/-- A handler of a read starts with an early exception or in front of its lookup. -/
theorem Moves.received_read (hm : Moves R s (.received t message failures) s')
    (hg : Good s₀ es s) (hread : message.draw.writing = false) :
    s'.engine.pc t = .idle ∧ s'.worker t = .start message failures
      (if throwsEarly failures then .replies (errorReply .empty)
        else .calls (.get message.draw.key)) := by
  generalize hlabel : Label.received t message failures = l at hm
  cases hm with
  | received hworker hstage =>
    obtain ⟨rfl, rfl, rfl⟩ := Label.received.inj hlabel
    rw [Draw.stage_read hread] at hstage
    obtain rfl := Except.ok.inj hstage
    have hidle := hg.workers t
    rw [hworker] at hidle
    exact ⟨hidle, Function.update_self ..⟩
  | outside hl => rcases hl with rfl | ⟨m, rfl⟩ <;> cases hlabel
  | _ => cases hlabel

omit [DecidableEq P] in
theorem Moves.replied_worker (hm : Moves R s (.replied t message failures reply) s') :
    s.worker t = .replying message failures reply := by
  cases hm with
  | outside hlabel => rcases hlabel with hl | ⟨m, hl⟩ <;> cases hl
  | replied hworker => exact hworker

omit [DecidableEq T] [DecidableEq P] in
/-- With the name decoded, the condition says what the lookup has found. -/
theorem LookedUp.absent_iff {h : Handling P T} {r : Option Bytes}
    (hlooked : LookedUp s₀ (h.before ++ [.received h.thread h.message h.failures]) h.thread
      h.message h.mid r) (hdecode : throwsEarly h.failures = false) :
    h.NameAbsent s₀ ↔ r = none ∧ h.failures .response = false := by
  have hbase : ∀ p, h.before ++ [Label.received h.thread h.message h.failures] ++ p =
      h.before ++ .received h.thread h.message h.failures :: p := by simp
  constructor
  · intro habsent
    obtain ⟨a, hmem, ha⟩ := hlooked.once
    obtain ⟨p, q, hcut⟩ := List.append_of_mem hmem
    refine ⟨(hlooked.result p a q hcut ha).mpr ?_, habsent.responds⟩
    rw [hbase]
    exact habsent.absent p a q hcut ha
  · rintro ⟨hr, hresponse⟩
    obtain ⟨hdecodes, hnames⟩ := Bool.or_eq_false_iff.mp hdecode
    refine ⟨hdecodes, hnames, hresponse, fun p a q hcut ha => ?_⟩
    rw [← hbase]
    exact (hlooked.result p a q hcut ha).mp hr

/-- **One read that is meant to miss.** It is answered 404 and counted as failed exactly if nothing
is thrown and its name has not been stored before its lookup. -/
theorem Handling.misses_iff (h : Handling P T) (hstart : s₀.Start)
    (hrun : Run (State.Step R) s₀ es s) (hin : h.In es) (hread : h.message.draw.read404 = true) :
    (h.reply.code = 404 ∧ readsBy h.thread false h.mid = 1 ∧ readsBy h.thread true h.mid = 0) ↔
      h.NameAbsent s₀ := by
  obtain ⟨rfl, hno⟩ := hin
  obtain ⟨s₁, hbefore, hrest⟩ := hrun.split
  obtain ⟨s₂, hreceived, hrest⟩ := hrest.cons_split
  obtain ⟨s₃, hmid, hrest⟩ := hrest.split
  obtain ⟨s₄, hreplied, -⟩ := hrest.cons_split
  obtain ⟨hidle, hfirst⟩ := (State.moves_of_step hreceived).received_read
    (good_of_run hstart hbefore) (Draw.not_writing hread)
  have hlast := (State.moves_of_step hreplied).replied_worker
  cases hdecode : throwsEarly h.failures with
  | true =>
    rw [hdecode, if_pos rfl] at hfirst
    obtain ⟨-, -, hreply⟩ := Worker.replying.inj ((reply_of_run hmid hfirst hno).symm.trans hlast)
    refine iff_of_false (fun hmiss => ?_) fun habsent => ?_
    · rw [← hreply] at hmiss
      cases hmiss.1
    · rw [throwsEarly, habsent.decodes, habsent.names] at hdecode
      cases hdecode
  | false =>
    rw [hdecode, if_neg Bool.false_ne_true] at hfirst
    have hg := good_of_run hstart (hbefore.snoc hreceived)
    cases lookup_of_run hg hmid hfirst hidle hno with
    | ahead hworker => cases hworker.symm.trans hlast
    | behind hworker => cases hworker.symm.trans hlast
    | @replying r hworker hlooked hcount =>
      obtain ⟨-, -, hreply⟩ := Worker.replying.inj (hworker.symm.trans hlast)
      rw [hlooked.absent_iff hdecode, ← getReply_code_iff h.failures h.message.draw.key r, hreply]
      refine and_iff_left_of_imp fun hcode => ?_
      rw [← hreply, getReply_code_iff] at hcode
      obtain ⟨rfl, -⟩ := hcode
      exact ⟨hcount false, hcount true⟩

end Run

/-! ## Replies belong to handlings -/

/-- The message has been received by the thread and not been replied to since. -/
def Opened (es : List (Label P T)) (t : T) (message : Message P) (failures : FailPoint → Bool) :
    Prop :=
  ∃ before mid, es = before ++ .received t message failures :: mid ∧
    ∀ m f r, .replied t m f r ∉ mid

/-- The reply ends a handling of the message. -/
def Ended (es : List (Label P T)) (message : Message P) (reply : Reply) : Prop :=
  ∃ h : Handling P T, h.In es ∧ h.message = message ∧ h.reply = reply

/-- What a thread is at. -/
def Worker.handles : Worker P → Option (Message P × (FailPoint → Bool))
  | .free => none
  | .calling message failures _ => some (message, failures)
  | .replying message failures _ => some (message, failures)

/-- Every reply on the wire, or read by a client, ends a handling. -/
structure Delivered (es : List (Label P T)) (s : State P cfg) : Prop where
  opened : ∀ t message failures, (s.worker t).handles = some (message, failures) →
    Opened es t message failures
  outbox : ∀ message reply, (message, reply) ∈ s.outbox → Ended es message reply
  answered : ∀ message reply, .answered message reply ∈ es → Ended es message reply

section Delivered

variable {R : Rapidjson} {s s' : State P cfg} {es : List (Label P T)} {l : Label P T} {t : T}
  {message : Message P} {failures : FailPoint → Bool} {reply : Reply}

omit [DecidableEq T] in
theorem Opened.snoc (h : Opened es t message failures) (hl : ∀ m f r, l ≠ .replied t m f r) :
    Opened (es ++ [l]) t message failures := by
  obtain ⟨before, mid, rfl, hno⟩ := h
  refine ⟨before, mid ++ [l], by simp, fun m f r hmem => ?_⟩
  rcases List.mem_append.mp hmem with hold | hnew
  · exact hno m f r hold
  · exact hl m f r (List.mem_singleton.mp hnew).symm

omit [DecidableEq T] in
theorem Ended.snoc (h : Ended es message reply) (l : Label P T) :
    Ended (es ++ [l]) message reply := by
  obtain ⟨h, ⟨rfl, hno⟩, rfl, rfl⟩ := h
  exact ⟨{ h with after := h.after ++ [l] }, ⟨by simp, hno⟩, rfl, rfl⟩

omit [DecidableEq T] in
theorem Opened.ended (h : Opened es t message failures) (reply : Reply) :
    Ended (es ++ [.replied t message failures reply]) message reply := by
  obtain ⟨before, mid, rfl, hno⟩ := h
  exact ⟨⟨before, t, message, failures, mid, reply, []⟩, ⟨by simp, hno⟩, rfl, rfl⟩

omit [DecidableEq T] in
theorem Worker.start_handles (message : Message P) (failures : FailPoint → Bool) (stage : Stage) :
    (Worker.start message failures stage).handles = some (message, failures) := by
  cases stage <;> rfl

/-- The frame of a step of the thread `t`. -/
theorem Delivered.quiet (h : Delivered es s) (t : T)
    (hother : ∀ u m f r, u ≠ t → l ≠ .replied u m f r)
    (hworker : ∀ u, u ≠ t → s'.worker u = s.worker u)
    (hself : ∀ m f, (s'.worker t).handles = some (m, f) → Opened (es ++ [l]) t m f)
    (hout : ∀ m r, (m, r) ∈ s'.outbox → (m, r) ∈ s.outbox ∨ Ended (es ++ [l]) m r)
    (hanswered : ∀ m r, l ≠ .answered m r) : Delivered (es ++ [l]) s' where
  opened u m f hu := by
    by_cases ht : u = t
    · subst ht
      exact hself m f hu
    · rw [hworker u ht] at hu
      exact (h.opened u m f hu).snoc fun m f r => hother u m f r ht
  outbox m r hmem := (hout m r hmem).elim (fun hold => (h.outbox m r hold).snoc l) id
  answered m r hmem := by
    rcases List.mem_append.mp hmem with hold | hnew
    · exact (h.answered m r hold).snoc l
    · exact absurd (List.mem_singleton.mp hnew).symm (hanswered m r)

theorem Delivered.step (h : Delivered es s) (hm : Moves R s l s') : Delivered (es ++ [l]) s' := by
  cases hm with
  | outside hlabel hout =>
    refine ⟨fun u m f hu => (h.opened u m f hu).snoc fun m f r => ?_,
      fun m r hmem => (h.outbox m r (hout _ hmem)).snoc _, fun m r hmem => ?_⟩
    · rcases hlabel with rfl | ⟨m, rfl⟩ <;> simp
    · rcases hlabel with rfl | ⟨m', rfl⟩ <;> exact (h.answered m r (by simpa using hmem)).snoc _
  | @received t message failures stage inbox hworker hstage =>
    refine h.quiet t (by simp) (fun u hu => Function.update_of_ne hu ..) (fun m f hself => ?_)
      (fun m r hmem => .inl hmem) (by simp)
    simp only [Function.update_self, Worker.start_handles] at hself
    cases hself
    exact ⟨es, [], rfl, by simp⟩
  | @called t message failures op hworker hpc =>
    exact h.quiet t (by simp) (fun _ _ => rfl)
      (fun m f hself => (h.opened t m f hself).snoc (by simp)) (fun m r hmem => .inl hmem) (by simp)
  | @advanced t message failures op a mem pc hworker hadv hstep =>
    exact h.quiet t (by simp) (fun _ _ => rfl)
      (fun m f hself => (h.opened t m f hself).snoc (by simp)) (fun m r hmem => .inl hmem) (by simp)
  | @returned t message failures op o res reply hworker hpc hreply =>
    refine h.quiet t (by simp) (fun u hu => Function.update_of_ne hu ..) (fun m f hself => ?_)
      (fun m r hmem => .inl hmem) (by simp)
    simp only [Function.update_self, Worker.handles] at hself
    cases hself
    exact (h.opened t message failures (by rw [hworker]; rfl)).snoc (by simp)
  | @replied t message failures reply hworker =>
    refine h.quiet t (fun u m f r hu => ?_) (fun u hu => Function.update_of_ne hu ..)
      (fun m f hself => ?_) (fun m r hmem => ?_) (by simp)
    · simp [Ne.symm hu]
    · simp [Worker.handles] at hself
    · refine (List.mem_append.mp hmem).imp_right fun hnew => ?_
      cases List.mem_singleton.mp hnew
      exact (h.opened t message failures (by rw [hworker]; rfl)).ended reply
  | @answered message reply outbox client hmem hout =>
    refine ⟨fun u m f hu => (h.opened u m f hu).snoc (by simp),
      fun m r hr => (h.outbox m r (hout _ hr)).snoc _, fun m r hr => ?_⟩
    rcases List.mem_append.mp hr with hold | hnew
    · exact (h.answered m r hold).snoc _
    · cases List.mem_singleton.mp hnew
      exact (h.outbox message reply hmem).snoc _

theorem delivered_of_run [DecidableEq P] {s₀ : State P cfg} (hstart : s₀.Start)
    (hrun : Run (State.Step R) s₀ es s) : Delivered es s := by
  refine hrun.invariant Delivered ⟨fun t m f ht => ?_, fun m r hmem => ?_, by simp⟩
    fun _ _ _ _ hd hs => hd.step (State.moves_of_step hs)
  · rw [hstart.workers t] at ht
    cases ht
  · rw [hstart.outbox] at hmem
    cases hmem

end Delivered

/-- **The reads that are meant to miss.** In every run of any clients against a server whose store
has no name that is meant for misses, those reads are all answered 404 and counted once as failed
if and only if each of them drew a name that was not in the store at the start and that no write
had stored before its lookup, and nothing was thrown in its handler. -/
theorem not_found_reads_miss_iff [DecidableEq P] (R : Rapidjson) (s₀ s : State P cfg)
    (es : List (Label P T)) (hstart : s₀.Start) (hrun : Run (State.Step R) s₀ es s) :
    NotFoundReadsMiss es s ↔
      ∀ h : Handling P T, h.In es → h.message.draw.read404 = true → h.NameAbsent s₀ := by
  have hg := good_of_run hstart hrun
  refine ⟨fun hmiss h hin hread =>
    (h.misses_iff hstart hrun hin hread).mp (hmiss.handled h hin hread), fun habsent => ?_⟩
  have hhandled : ∀ h : Handling P T, h.In es → h.message.draw.read404 = true →
      h.reply.code = 404 ∧ readsBy h.thread false h.mid = 1 ∧ readsBy h.thread true h.mid = 0 :=
    fun h hin hread => (h.misses_iff hstart hrun hin hread).mpr (habsent h hin hread)
  refine ⟨hhandled, fun message reply hmem hread => ?_, fun t message key value hmem i => ?_,
    fun i hstored => ?_⟩
  · obtain ⟨h, hin, rfl, rfl⟩ := (delivered_of_run hstart hrun).answered message reply hmem
    exact (hhandled h hin hread).1
  · obtain ⟨-, rfl⟩ := hg.calls t message _ hmem
    exact message.draw.key_ne_notFound i
  · rcases (hg.stored _).mp hstored with h0 | ⟨l, -, hl⟩
    · exact hstart.absent i h0
    · cases l with
      | engine t message a => exact message.draw.key_ne_notFound i hl.2.2
      | _ => exact hl

/-- One heap for each thread. -/
def heapPerThread : Config Bytes Nat := { byLength with heapId := id }

def leastValue : NewValue := ⟨1000, by decide, by decide⟩

/-- A write and a read that is meant to miss, of the first name. -/
def writeFirst : Draw := ⟨1, by decide, by decide, ⟨0, by decide⟩⟩

def readFirst : Draw := ⟨11, by decide, by decide, ⟨0, by decide⟩⟩

def readMessage (attempt : Nat) : Message Nat := ⟨0, attempt, readFirst, leastValue⟩

def missSchedule : List (Choice Nat Nat) :=
  [.operate 0 readFirst leastValue, .receive 0 0 noFailure, .call 0, .advance 0 0, .advance 0 0,
    .ret 0, .reply 0, .deliver 0]

def missEvents : List (Label Nat Nat) :=
  [.requested (readMessage 0), .received 0 (readMessage 0) noFailure,
    .engine 0 (readMessage 0) (.call (.kv (.get (ofString "name_0")))),
    .engine 0 (readMessage 0) (.getHead none), .engine 0 (readMessage 0) .countFailed,
    .engine 0 (readMessage 0) (.ret (.kv (.get (ofString "name_0"))) (.kv (.found none))),
    .replied 0 (readMessage 0) noFailure (getReply noFailure (ofString "name_0") none),
    .answered (readMessage 0) (getReply noFailure (ofString "name_0") none)]

/-- Before the name is written, the read misses. -/
theorem not_found_reads_miss_iff_unwritten : ∃ s,
    execute (State.next Rapidjson.reference) (State.init Nat heapPerThread) missSchedule =
      some (missEvents, s) ∧ NotFoundReadsMiss missEvents s := by
  have hexec : ∃ s, execute (State.next Rapidjson.reference) (State.init Nat heapPerThread)
      missSchedule = some (missEvents, s) := ⟨_, rfl⟩
  obtain ⟨s, hexec⟩ := hexec
  refine ⟨s, hexec, (not_found_reads_miss_iff Rapidjson.reference (State.init Nat heapPerThread) s
    missEvents State.start_init (run_of_execute hexec)).mpr fun h hin hread => ?_⟩
  have hquiet : ∀ l ∈ missEvents, ∀ key, ¬ l.Stores key := by
    have hread : (readMessage 0).draw.writing = false := by decide
    simp [missEvents, Label.Stores, hread]
  have hfail : h.failures = noFailure := by
    have hmem : Label.received h.thread h.message h.failures ∈ missEvents := by simp [hin.1]
    have heq : h.thread = 0 ∧ h.message = readMessage 0 ∧ h.failures = noFailure := by
      simpa [missEvents] using hmem
    exact heq.2.2
  refine ⟨by rw [hfail]; rfl, by rw [hfail]; rfl, by rw [hfail]; rfl,
    fun p a q hcut _ hstored => ?_⟩
  rcases hstored with h0 | ⟨l, hl, hs⟩
  · exact State.not_stored_init _ h0
  · refine hquiet l ?_ _ hs
    rw [hin.1, hcut, List.append_assoc, ← List.cons_append, ← List.append_assoc]
    exact List.mem_append_left _ hl

def hitSchedule : List (Choice Nat Nat) :=
  [.operate 0 writeFirst leastValue, .receive 0 0 noFailure, .call 0, .advance 0 100, .advance 0 0,
    .ret 0, .reply 0, .deliver 0, .operate 0 readFirst leastValue, .receive 0 0 noFailure, .call 0,
    .advance 0 0, .advance 0 0, .advance 0 0, .ret 0, .reply 0, .deliver 0]

/-- The read behind a write of its name. -/
def hit (before after : List (Label Nat Nat)) : Handling Nat Nat where
  before := before
  thread := 0
  message := readMessage 1
  failures := noFailure
  mid :=
    [.engine 0 (readMessage 1) (.call (.kv (.get (ofString "name_0")))),
      .engine 0 (readMessage 1) (.getHead (some 100)), .engine 0 (readMessage 1) .countSuccess,
      .engine 0 (readMessage 1) .getValue,
      .engine 0 (readMessage 1) (.ret (.kv (.get (ofString "name_0")))
        (.kv (.found (some (ofString "val_1000")))))]
  reply := getReply noFailure (ofString "name_0") (some (ofString "val_1000"))
  after := after

/-- A client writes the first name, and then reads it meaning to miss. It is answered 200, and the
read is counted as successful. -/
theorem not_found_read_hits : (State.init Nat heapPerThread).Start ∧ ∃ es s before after,
    execute (State.next Rapidjson.reference) (State.init Nat heapPerThread) hitSchedule =
      some (es, s) ∧
    (hit before after).In es ∧ (hit before after).message.draw.read404 = true ∧
    (hit before after).reply.code = 200 ∧ readsBy 0 true (hit before after).mid = 1 ∧
    readsBy 0 false (hit before after).mid = 0 ∧ ¬ NotFoundReadsMiss es s := by
  refine ⟨State.start_init, ?_⟩
  have hexec : (execute (State.next Rapidjson.reference) (State.init Nat heapPerThread)
      hitSchedule).isSome := rfl
  obtain ⟨⟨es, s⟩, hexec⟩ := Option.isSome_iff_exists.mp hexec
  have hin : (hit (es.take 9) (es.drop 16)).In es := by
    cases hexec
    exact ⟨rfl, by simp [hit]⟩
  have hread : (hit (es.take 9) (es.drop 16)).message.draw.read404 = true := by
    change readFirst.read404 = true
    decide
  refine ⟨es, s, es.take 9, es.drop 16, hexec, hin, hread, rfl, rfl, rfl, fun hmiss => ?_⟩
  have hcode := (hmiss.handled _ hin hread).1
  cases hcode

end LockFreeKV.Client
