import LockFreeKV.Server.Consistency

/-!
# The read statistics, counted in replies

A read of a record is counted once, whichever thread handles it, and the reply tells where: 200
for the successes, 404 for the failures. Between the increment and the reply a read is in
progress, so the counters are the numbers of the replies when nothing is. What a request for the
statistics reports was counted at an instant of its own handling.
-/
namespace LockFreeKV.Server

open LockFreeKV.Lib LockFreeKV.Engine LockFreeKV.Http LockFreeKV.Crow

variable {T : Type}

def Event.thread : Event T → T
  | .receive t _ => t
  | .settle t => t
  | .engine x => x.1
  | .reply t _ _ => t

/-- The engine returns from a `get`, with a value or without one. -/
def Event.returnsRead (found : Bool) : Event T → Bool
  | .engine x => x.2.returnsRead found
  | _ => false

/-- The code of a reply that has found its record, or missed it. -/
def readCode (found : Bool) : Nat := if found then 200 else 404

/-- The request reads a record. -/
def Setup.isRead (su : Setup) (r : Incoming) : Bool :=
  match su.stage r with
  | .ok (.inr (.kv (.get _))) => true
  | _ => false

/-- A read of a record ends with this outcome. -/
def Setup.readEnds (su : Setup) (found : Bool) (r : Incoming) : Outcome → Bool
  | .document answer => su.isRead r && answer.code == readCode found
  | .decided _ => false

/-- A read of a record is answered. -/
def Setup.answersRead (su : Setup) (found : Bool) : Event T → Bool
  | .reply _ r outcome => su.readEnds found r outcome
  | _ => false

/-- The answer to a read is still to be sent. -/
def Setup.unsent (su : Setup) (found : Bool) : Task Incoming Outcome → Nat
  | .ended r outcome => if su.readEnds found r outcome then 1 else 0
  | _ => 0

/-- A read of a record arrives. -/
def Setup.receivesRead (su : Setup) : Event T → Bool
  | .receive _ r => su.isRead r
  | _ => false

/-- A read is with the server. -/
def Setup.underway (su : Setup) : Task Incoming Outcome → Nat
  | .idle => 0
  | .begun r => if su.isRead r then 1 else 0
  | .calling r => if su.isRead r then 1 else 0
  | .ended r _ => if su.isRead r then 1 else 0

/-- No handler throws. -/
def Sound (es : List (Event T)) : Prop := ∀ t r, .receive t r ∈ es → r.failures = noFailure

section Accounting

variable [DecidableEq T] {cfg : Config Bytes T} {su : Setup} {s s' : State cfg} {e : Event T}
  {es : List (Event T)}

omit [DecidableEq T] in
theorem isRead_iff {r : Incoming} : su.isRead r = true ↔ ∃ name, su.Gets r name := by
  unfold Setup.isRead Setup.Gets
  constructor
  · intro h
    split at h
    · next name hstage => exact ⟨name, hstage⟩
    · cases h
  · rintro ⟨name, hstage⟩
    rw [hstage]

omit [DecidableEq T] in
/-- A read ends at most one way. -/
theorem readEnds_le_one (r : Incoming) (outcome : Outcome) :
    (if su.readEnds true r outcome then 1 else 0) + (if su.readEnds false r outcome then 1 else 0) ≤
      if su.isRead r then 1 else 0 := by
  cases outcome with
  | decided d => exact Nat.zero_le _
  | document answer =>
    by_cases hread : su.isRead r = true
    · by_cases hcode : answer.code = 200 <;> simp [Setup.readEnds, hread, readCode, hcode]
      split <;> omega
    · simp [Setup.readEnds, hread]

/-- How a call of the engine ends, in the statistics of replies. -/
theorem readEnds_of_finish {r : Incoming} {op : Op Bytes Bytes} {res : Result Bytes Bytes}
    {outcome : Outcome} (hfail : r.failures = noFailure) (hstage : su.stage r = .ok (.inr op))
    (hfinish : r.finish op res = some outcome) (found : Bool) :
    su.readEnds found r outcome = (Act.ret op res).returnsRead found := by
  cases op with
  | kv op =>
    cases op with
    | get name =>
      have hread : su.isRead r = true := isRead_iff.mpr ⟨name, hstage⟩
      cases res with
      | kv res =>
        cases res with
        | found value =>
          simp only [Incoming.finish, Http.finish, Option.map_some, Option.some.injEq] at hfinish
          subst hfinish
          cases value <;> cases found <;>
            simp [Setup.readEnds, hread, hfail, getReply, replyWith, noFailure, readCode,
              Act.returnsRead]
        | stored => cases hfinish
      | _ => cases hfinish
    | set name value =>
      have hread : su.isRead r = false := by simp [Setup.isRead, hstage]
      have hnone : ∀ o, su.readEnds found r o = false := fun o => by
        cases o <;> simp [Setup.readEnds, hread]
      rw [hnone]
      rfl
  | enumerate => cases res <;> cases hfinish
  | readStatistics =>
    have hread : su.isRead r = false := by simp [Setup.isRead, hstage]
    have hnone : ∀ o, su.readEnds found r o = false := fun o => by
      cases o <;> simp [Setup.readEnds, hread]
    rw [hnone]
    rfl

/-- Replies and reads keep pace, thread by thread, and the requests under way throw nothing. -/
structure Balanced (su : Setup) (es : List (Event T)) (s : State cfg) : Prop where
  fits : Fits su s
  sound : ∀ t r, (s.task t = .begun r ∨ s.task t = .calling r) → r.failures = noFailure
  balance : ∀ found t,
    (es.countP fun e => decide (e.thread = t) && e.returnsRead found) =
      (es.countP fun e => decide (e.thread = t) && su.answersRead found e) +
        su.unsent found (s.task t)
  arrivals : ∀ t, (es.countP fun e => decide (e.thread = t) && su.answersRead true e) +
      (es.countP fun e => decide (e.thread = t) && su.answersRead false e) +
      su.underway (s.task t) ≤ es.countP fun e => decide (e.thread = t) && su.receivesRead e

theorem Balanced.around {engine : Engine.State cfg Bytes} (hidle : ∀ t, engine.pc t = .idle) :
    Balanced su [] (State.around engine) :=
  ⟨Fits.around hidle, fun _ _ h => (by rcases h with h | h <;> cases h), fun _ _ => rfl,
    fun _ => Nat.le_refl 0⟩

theorem Balanced.step (hb : Balanced su es s) (hs : s.Step su e s')
    (hfail : ∀ t r, e = .receive t r → r.failures = noFailure) : Balanced su (es ++ [e]) s' := by
  have hmoves := moves_of_step hs
  -- what is left to show of a step of the thread `t`
  have hframe : ∀ t task engine', e.thread = t →
      Fits su (⟨engine', Function.update s.task t task⟩ : State cfg) →
      (∀ r, (task = .begun r ∨ task = .calling r) → r.failures = noFailure) →
      (∀ found, (if e.returnsRead found then 1 else 0) + su.unsent found (s.task t) =
        (if su.answersRead found e then 1 else 0) + su.unsent found task) →
      ((if su.answersRead true e then 1 else 0) + (if su.answersRead false e then 1 else 0) +
        su.underway task ≤ (if su.receivesRead e then 1 else 0) + su.underway (s.task t)) →
      Balanced su (es ++ [e]) ⟨engine', Function.update s.task t task⟩ := by
    rintro t task engine' rfl hfits hsound hbalance harrives
    refine ⟨hfits, fun u r hu => ?_, fun found u => ?_, fun u => ?_⟩
    · by_cases hut : u = e.thread
      · subst hut
        exact hsound r (by simpa using hu)
      · exact hb.sound u r (by simpa [hut] using hu)
    · have hold := hb.balance found u
      simp only [List.countP_append, List.countP_singleton]
      by_cases hut : e.thread = u
      · subst hut
        have hnew := hbalance found
        simp only [decide_true, Bool.true_and, Function.update_self]
        omega
      · have hut' : u ≠ e.thread := fun h => hut h.symm
        simpa [hut, hut'] using hold
    · have hold := hb.arrivals u
      simp only [List.countP_append, List.countP_singleton]
      by_cases hut : e.thread = u
      · subst hut
        simp only [decide_true, Bool.true_and, Function.update_self]
        omega
      · have hut' : u ≠ e.thread := fun h => hut h.symm
        simpa [hut, hut'] using hold
  have hfits := hb.fits.moves hmoves
  cases hmoves with
  | @receive t r h =>
    refine hframe t _ _ rfl hfits (fun r' hr => ?_) (fun found => ?_) ?_
    · obtain rfl : r = r' := by simpa using hr
      exact hfail t r rfl
    · simp [h, Setup.unsent, Event.returnsRead, Setup.answersRead]
    · rw [h]
      show 0 + 0 + (if su.isRead r then 1 else 0) ≤ (if su.isRead r then 1 else 0) + 0
      omega
  | @settle t r outcome h hstage =>
    have hread : su.isRead r = false := by simp [Setup.isRead, hstage]
    refine hframe t _ _ rfl hfits (by simp) (fun found => ?_) ?_
    · cases outcome <;> simp [h, Setup.unsent, Event.returnsRead, Setup.answersRead,
        Setup.readEnds, hread]
    · simp [Setup.answersRead, Setup.underway, hread]
  | @call t r op h hstage hidle =>
    refine hframe t _ _ rfl hfits (fun r' hr => ?_) (fun found => ?_) ?_
    · obtain rfl : r = r' := by simpa using hr
      exact hb.sound t r (.inl h)
    · simp [h, Setup.unsent, Event.returnsRead, Setup.answersRead, Act.returnsRead]
    · simp [h, Setup.answersRead, Setup.underway]
  | @advance t r a engine' h hadv hcall hret =>
    have hup := hframe t (s.task t) engine' rfl (by rwa [Function.update_eq_self])
      (fun r' hr => hb.sound t r' hr) (fun found => ?_) (by simp [Setup.answersRead])
    · rwa [Function.update_eq_self] at hup
    · cases a with
      | ret op res => exact absurd rfl (hret op res)
      | _ => simp [Event.returnsRead, Setup.answersRead, Act.returnsRead]
  | @ret t r op res outcome h hpc hfinish =>
    obtain ⟨op', hstage, hop⟩ := hb.fits.calling t r h
    obtain rfl : op = op' := by simpa [hpc, Pc.op] using hop
    refine hframe t _ _ rfl hfits (by simp) (fun found => ?_) ?_
    · have hends := readEnds_of_finish (hb.sound t r (.inr h)) hstage hfinish found
      rw [h]
      show (if (Act.ret op res).returnsRead found then 1 else 0) + 0 =
        0 + if su.readEnds found r outcome then 1 else 0
      rw [hends, Nat.add_comm]
    · simp [h, Setup.answersRead, Setup.underway]
  | @reply t r outcome h =>
    refine hframe t _ _ rfl hfits (by simp) (fun found => ?_) ?_
    · rw [h]
      show 0 + (if su.readEnds found r outcome then 1 else 0) =
        (if su.readEnds found r outcome then 1 else 0) + 0
      rw [Nat.add_comm]
    · rw [h]
      exact Nat.le_trans (readEnds_le_one r outcome) (Nat.le_add_left _ 0)

theorem balanced_of_run (hb : Balanced su [] s) (hrun : Run (State.Step su) s es s')
    (hsound : Sound es) : Balanced su es s' :=
  hrun.invariant (fun es m => Sound es → Balanced su es m) (fun _ => hb)
    (fun es m e m' ih hs hsnd => (ih fun t r hm => hsnd t r (by simp [hm])).step hs
      fun t r he => hsnd t r (by simp [he])) hsound

omit [DecidableEq T] in
theorem countP_inEngine (p : Engine.Event T Bytes Bytes → Bool) (es : List (Event T)) :
    (es.filterMap Event.inEngine).countP p = es.countP fun e => (e.inEngine.map p).getD false := by
  rw [List.countP_filterMap]

omit [DecidableEq T] in
theorem countP_threads (p : Event T → Bool) (es : List (Event T)) :
    (es.map fun e => (e.thread, e)).countP (fun x => p x.2) = es.countP p := by
  rw [List.countP_map]
  rfl

/-- The reads that the engine returned to a thread, among the events of the server. -/
theorem returnedReadsBy_inEngine (t : T) (found : Bool) (es : List (Event T)) :
    returnedReadsBy t found (es.filterMap Event.inEngine) =
      es.countP fun e => decide (e.thread = t) && e.returnsRead found := by
  rw [returnedReadsBy, countP_inEngine]
  refine List.countP_congr fun e _ => ?_
  cases e with
  | engine x => exact Iff.rfl
  | _ => simp [Event.inEngine, Event.returnsRead]

/-- When no answer is unsent, the reads that the engine returned are the reads that were answered. -/
theorem Balanced.quiet (hb : Balanced su es s) (hquiet : ∀ t, s.task t = .idle) (found : Bool) :
    returnedReads found (es.filterMap Event.inEngine) = es.countP (su.answersRead found) := by
  rw [← countP_threads (su.answersRead found)]
  refine countP_eq_of_sources fun t => ?_
  have hthread := hb.balance found t
  rw [hquiet t, ← returnedReadsBy_inEngine] at hthread
  rw [List.countP_map]
  exact hthread

omit [DecidableEq T] in
/-- A call makes one increment at most, and only a `get` makes one. -/
theorem pc_counted_le (pc : Pc Bytes Bytes) :
    pc.counted true + pc.counted false ≤ 1 ∧
      ((∀ key, pc.op ≠ some (.kv (.get key))) → pc.counted true + pc.counted false = 0) := by
  cases pc with
  | get key p => cases p <;> simp [Pc.counted, Pc.op]
  | returned op res =>
    cases op with
    | kv op =>
      cases op with
      | get key =>
        cases res with
        | kv res => cases res with
          | found r => cases r <;> simp [Pc.counted, Pc.op]
          | stored => simp [Pc.counted]
        | _ => simp [Pc.counted]
      | set key value => simp [Pc.counted]
    | _ => simp [Pc.counted]
  | _ => simp [Pc.counted]

omit [DecidableEq T] in
/-- Between its increment and its reply a read is with the server. -/
theorem Fits.counted_le (hf : Fits su s) (t : T) :
    su.unsent true (s.task t) + su.unsent false (s.task t) +
      ((s.engine.pc t).counted true + (s.engine.pc t).counted false) ≤
        su.underway (s.task t) := by
  have hrest : (∀ r, s.task t ≠ .calling r) →
      (s.engine.pc t).counted true + (s.engine.pc t).counted false = 0 := fun h => by
    rw [hf.resting t h]
    rfl
  cases htask : s.task t with
  | calling r =>
    obtain ⟨op, hstage, hop⟩ := hf.calling t r htask
    obtain ⟨hone, hnone⟩ := pc_counted_le (s.engine.pc t)
    show 0 + 0 + _ ≤ if su.isRead r then 1 else 0
    by_cases hread : su.isRead r = true
    · rw [if_pos hread]
      omega
    · rw [hnone fun key hkey => hread ?_]
      · exact Nat.zero_le _
      · obtain rfl : op = .kv (.get key) := by simpa [hop] using hkey
        exact isRead_iff.mpr ⟨key, hstage⟩
  | ended r outcome =>
    rw [hrest (by simp [htask])]
    exact readEnds_le_one r outcome
  | idle =>
    rw [hrest (by simp [htask])]
    exact Nat.zero_le _
  | begun r =>
    rw [hrest (by simp [htask])]
    exact Nat.zero_le _

/-- The increments lie between the answers to reads and the reads that have arrived. -/
theorem Balanced.counted_between (hb : Balanced su es s)
    (hc : Counted (es.filterMap Event.inEngine) s.engine) :
    (∀ found, es.countP (su.answersRead found) ≤ counted found (es.filterMap Event.inEngine)) ∧
    counted true (es.filterMap Event.inEngine) + counted false (es.filterMap Event.inEngine) ≤
      es.countP su.receivesRead := by
  refine ⟨fun found => ?_, ?_⟩
  · rw [← countP_threads]
    refine countP_le_of_sources fun t => ?_
    have hcalls := hc.calls found t
    rw [returnedReadsBy_inEngine, hb.balance found t] at hcalls
    rw [List.countP_map]
    show _ ≤ countedBy t found _
    rw [hcalls, Nat.add_assoc]
    exact Nat.le_add_right _ _
  · have hdisjoint : ∀ e : Engine.Event T Bytes Bytes, e.2.counts true = true →
        e.2.counts false = false := fun e => by cases e.2 <;> simp [Act.counts]
    rw [← countP_threads su.receivesRead, counted, counted, countP_add_of_disjoint hdisjoint]
    refine countP_le_of_sources fun t => ?_
    have hsum : ((es.filterMap Event.inEngine).countP fun e =>
        decide (e.1 = t) && (e.2.counts true || e.2.counts false)) =
          countedBy t true (es.filterMap Event.inEngine) +
            countedBy t false (es.filterMap Event.inEngine) := by
      rw [countedBy, countedBy, countP_add_of_disjoint fun e h => ?_]
      · exact List.countP_congr fun e _ => by rw [Bool.and_or_distrib_left]
      · rw [hdisjoint e (by simp_all), Bool.and_false]
    rw [hsum, hc.calls, hc.calls, returnedReadsBy_inEngine, returnedReadsBy_inEngine,
      hb.balance, hb.balance, List.countP_map]
    have harrives := hb.arrivals t
    have hinside := hb.fits.counted_le t
    show _ ≤ es.countP fun e => decide (e.thread = t) && su.receivesRead e
    omega

/-- How far a request for the statistics has come, that arrived behind the engine's events `base`:
what it reports was loaded behind them. -/
def Reports (r : Incoming) (base mid : List (Engine.Event T Bytes Bytes)) (pc : Pc Bytes Bytes) :
    Task Incoming Outcome → Prop
  | .idle => False
  | .begun r' => r' = r
  | .calling r' => r' = r ∧ Sampled base mid pc
  | .ended r' outcome => r' = r ∧ ∃ st, outcome = .document (statisticsReply r.failures st) ∧
      Sampled base mid (.returned .readStatistics (.statistics st))

omit [DecidableEq T] in
theorem Reports.snoc {r : Incoming} {base mid : List (Engine.Event T Bytes Bytes)}
    {pc : Pc Bytes Bytes} {task : Task Incoming Outcome} (h : Reports r base mid pc task)
    (x : Engine.Event T Bytes Bytes) : Reports r base (mid ++ [x]) pc task := by
  cases task with
  | idle => exact h
  | begun r' => exact h
  | calling r' => exact ⟨h.1, h.2.snoc x⟩
  | ended r' outcome =>
    obtain ⟨hr, st, hout, hsam⟩ := h
    exact ⟨hr, st, hout, hsam.snoc x⟩

theorem Reports.step {r : Incoming} {t : T} {base mid : List (Engine.Event T Bytes Bytes)}
    (h : Reports r base mid (s.engine.pc t) (s.task t)) (hf : Fits su s)
    (hc : Counted (base ++ mid) s.engine) (hstage : su.stage r = .ok (.inr .readStatistics))
    (hs : s.Step su e s') (hreply : ∀ r' o, e ≠ .reply t r' o) :
    Reports r base (mid ++ e.inEngine.toList) (s'.engine.pc t) (s'.task t) := by
  -- an event that leaves the thread where it is
  have hother : s'.engine.pc t = s.engine.pc t → s'.task t = s.task t →
      Reports r base (mid ++ e.inEngine.toList) (s'.engine.pc t) (s'.task t) := fun hpc htask => by
    rw [hpc, htask]
    cases e with
    | engine x => exact h.snoc x
    | _ => simpa [Event.inEngine] using h
  have hmoves := moves_of_step hs
  cases hmoves with
  | @receive u r' hidle =>
    refine hother rfl (Function.update_of_ne ?_ _ _)
    rintro rfl
    rw [hidle] at h
    exact h
  | @settle u r' outcome hbegun hstage' =>
    refine hother rfl (Function.update_of_ne ?_ _ _)
    rintro rfl
    rw [hbegun] at h
    obtain rfl : r' = r := h
    rw [hstage] at hstage'
    cases hstage'
  | @call u r' op hbegun hstage' hidle =>
    by_cases hu : t = u
    · subst hu
      rw [hbegun] at h
      obtain rfl : r' = r := h
      rw [hstage] at hstage'
      cases hstage'
      simp only [Engine.State.setPc, Function.update_self]
      exact ⟨rfl, trivial⟩
    · exact hother (by simp [Engine.State.setPc, hu]) (by simp [hu])
  | @advance u r' a engine' hcalling hadv hcall hret =>
    by_cases hu : t = u
    · subst hu
      rw [hcalling] at h ⊢
      exact ⟨h.1, h.2.step hc hadv fun o res heq => hret o res (Prod.mk.inj heq).2⟩
    · exact hother ((op_of_advance hadv hcall hret).2 t hu) rfl
  | @ret u r' op res outcome hcalling hpc hfinish =>
    by_cases hu : t = u
    · subst hu
      obtain ⟨op', hstage', hop⟩ := hf.calling t r' hcalling
      rw [hcalling] at h
      obtain ⟨rfl, hsam⟩ := h
      rw [hstage] at hstage'
      cases hstage'
      rw [hpc] at hsam hop
      obtain rfl : op = .readStatistics := Option.some.inj hop
      simp only [Function.update_self]
      cases res with
      | statistics st => exact ⟨rfl, st, (Option.some.inj hfinish).symm, hsam.snoc _⟩
      | _ => exact hsam.elim
    · exact hother (by simp [Engine.State.setPc, hu]) (by simp [hu])
  | @reply u r' outcome hended =>
    refine hother rfl (Function.update_of_ne ?_ _ _)
    rintro rfl
    exact hreply r' outcome rfl

theorem stage_of_statistics {r : Incoming} (h : su.work r = .statistics) :
    su.stage r = .ok (.inr .readStatistics) := by
  rw [Setup.stage, h]

/-- What the reply to a request for the statistics reports. -/
theorem reported_of_run {before mid after : List (Event T)} {t : T} {r : Incoming}
    {outcome : Outcome} (hrun : Run (State.Step su) (.around (.init cfg Bytes))
      (before ++ .receive t r :: (mid ++ .reply t r outcome :: after)) s)
    (hreply : ∀ r' o, .reply t r' o ∉ mid) (hwork : su.work r = .statistics) :
    ∃ st, outcome = .document (statisticsReply r.failures st) ∧
      Sampled (before.filterMap Event.inEngine) (mid.filterMap Event.inEngine)
        (.returned .readStatistics (.statistics st)) := by
  obtain ⟨s₀, hbefore, hrest⟩ := hrun.split
  obtain ⟨s₁, harrive, hrest⟩ := hrest.cons_split
  obtain ⟨s₂, hmid, hrest⟩ := hrest.split
  obtain ⟨s₃, hlast, -⟩ := hrest.cons_split
  have hbase := hbefore.snoc harrive
  have hinv := hmid.invariant (fun mid m => (∀ r' o, .reply t r' o ∉ mid) →
      Run (State.Step su) (.around (.init cfg Bytes)) (before ++ [.receive t r] ++ mid) m ∧
        Reports r (before.filterMap Event.inEngine) (mid.filterMap Event.inEngine)
          (m.engine.pc t) (m.task t))
    (fun _ => ?_) (fun mid m e m' ih hs hno => ?_) hreply
  · obtain ⟨-, hreports⟩ := hinv
    cases moves_of_step hlast with
    | reply hended =>
      rw [hended] at hreports
      obtain ⟨-, st, hout, hsam⟩ := hreports
      exact ⟨st, hout, hsam⟩
  · refine ⟨by simpa using hbase, ?_⟩
    cases moves_of_step harrive with
    | receive h => simp [State.setTask, Reports]
  · obtain ⟨hm, hreports⟩ := ih fun r' o hmem => hno r' o (by simp [hmem])
    refine ⟨by simpa using hm.snoc hs, ?_⟩
    have hc := counted_of_run (engine_run hm)
    have hnone : [Event.receive t r].filterMap Event.inEngine = [] := rfl
    rw [List.filterMap_append, List.filterMap_append, hnone, List.append_nil] at hc
    have hup := hreports.step (fits_of_run (Fits.around fun _ => rfl) hm) hc
      (stage_of_statistics hwork) hs fun r' o he => hno r' o (by simp [he])
    rw [List.filterMap_append]
    cases e <;> exact hup

theorem counted_between_of_run (hrun : Run (State.Step su) (.around (.init cfg Bytes)) es s)
    (hsound : Sound es) :
    (∀ found, es.countP (su.answersRead found) ≤ counted found (es.filterMap Event.inEngine)) ∧
    counted true (es.filterMap Event.inEngine) + counted false (es.filterMap Event.inEngine) ≤
      es.countP su.receivesRead :=
  (balanced_of_run (Balanced.around fun _ => rfl) hrun hsound).counted_between
    (counted_of_run (engine_run hrun))

/-- **The statistics count replies**, in every run in which no handler throws. When no request is
being handled, the counters are the numbers of reads answered with a value and without one. What
a request for the statistics reports includes every read answered before it arrived, and its total
lies between the reads answered and the reads arrived at one instant of its handling. -/
theorem statistics_of_replies (hrun : Run (State.Step su) (.around (.init cfg Bytes)) es s)
    (hsound : Sound es) :
    ((∀ t, s.task t = .idle) →
      s.engine.mem.successReads = UInt64.ofNat (es.countP (su.answersRead true)) ∧
      s.engine.mem.failedReads = UInt64.ofNat (es.countP (su.answersRead false))) ∧
    (∀ before t r mid outcome after,
      es = before ++ .receive t r :: (mid ++ .reply t r outcome :: after) →
      (∀ r' o, .reply t r' o ∉ mid) → (r.method = .get ∨ r.method = .head) →
      r.url = ofString "/api/statistics/reads" → es.countP su.receivesRead < 2 ^ 64 →
      ∃ st, outcome = .document (statisticsReply r.failures st) ∧
        before.countP (su.answersRead true) ≤ st.successOperations.toNat ∧
        before.countP (su.answersRead false) ≤ st.failedOperations.toNat ∧
        ∃ now later, mid = now ++ later ∧
          (before ++ now).countP (su.answersRead true) +
              (before ++ now).countP (su.answersRead false) ≤
            (st.successOperations + st.failedOperations).toNat ∧
          (st.successOperations + st.failedOperations).toNat ≤
            (before ++ now).countP su.receivesRead) := by
  refine ⟨fun hquiet => ?_, ?_⟩
  · have hb := balanced_of_run (Balanced.around fun _ => rfl) hrun hsound
    have hreading : ∀ t, (s.engine.pc t).reading = false := fun t => by
      rw [hb.fits.resting t (by simp [hquiet t])]
      rfl
    have hcounters := (counted_of_run (engine_run hrun)).quiet hreading
    rw [← hb.quiet hquiet, ← hb.quiet hquiet]
    exact ⟨hcounters true, hcounters false⟩
  · rintro before t r mid outcome after rfl hreply hm hurl hsmall
    have hwork : su.work r = .statistics := work_statistics_iff.mpr ⟨hm, hurl⟩
    obtain ⟨st, hout, p, q, r', hmid, hsucc, hfail⟩ := reported_of_run hrun hreply hwork
    obtain ⟨q₁, q₂, rfl, hinstant⟩ := exists_instant (before.filterMap Event.inEngine ++ p) q
    have hmid' : mid.filterMap Event.inEngine = (p ++ q₁) ++ (q₂ ++ r') := by simp [hmid]
    obtain ⟨now, later, rfl, hnow, -⟩ := List.filterMap_eq_append_iff.mp hmid'
    -- the answers before the request
    obtain ⟨s₀, hbefore, -⟩ := hrun.split
    have hearly := (counted_between_of_run hbefore fun t r hm => hsound t r (by simp [hm])).1
    -- the instant
    have hsplit : before ++ .receive t r :: (now ++ later ++ .reply t r outcome :: after) =
        (before ++ .receive t r :: now) ++ (later ++ .reply t r outcome :: after) := by simp
    rw [hsplit] at hrun hsound hsmall
    obtain ⟨s₁, hthen, -⟩ := hrun.split
    obtain ⟨hanswers, harrived⟩ :=
      counted_between_of_run hthen fun t r hm => hsound t r (List.mem_append_left _ hm)
    have hevents : (before ++ .receive t r :: now).filterMap Event.inEngine =
        before.filterMap Event.inEngine ++ (p ++ q₁) := by
      rw [List.filterMap_append, List.filterMap_cons_none rfl, hnow]
    have hskip : ∀ kind : Event T → Bool, kind (.receive t r) = false →
        (before ++ .receive t r :: now).countP kind = (before ++ now).countP kind :=
      fun kind hkind => by simp [List.countP_append, hkind]
    have hread : su.receivesRead (.receive t r : Event T) = false := by
      simp [Setup.receivesRead, Setup.isRead, stage_of_statistics hwork]
    rw [hevents, hskip _ hread] at harrived
    rw [List.countP_append, hskip _ hread] at hsmall
    have htrue := hanswers true
    have hfalse := hanswers false
    rw [hevents, hskip _ rfl] at htrue hfalse
    have hgrown : ∀ found later, before.countP (su.answersRead found) ≤
        counted found (before.filterMap Event.inEngine ++ later) := fun found later => by
      rw [counted_append]
      exact Nat.le_trans (hearly found) (Nat.le_add_right _ _)
    have hgrownTrue := hgrown true p
    have hgrownFalse := hgrown false (p ++ (q₁ ++ q₂))
    rw [List.append_assoc, List.append_assoc] at hinstant
    have hsuccNat : st.successOperations.toNat =
        counted true (before.filterMap Event.inEngine ++ p) := by
      rw [hsucc, UInt64.toNat_ofNat', Nat.mod_eq_of_lt (by omega)]
    have hfailNat : st.failedOperations.toNat =
        counted false (before.filterMap Event.inEngine ++ (p ++ (q₁ ++ q₂))) := by
      rw [hfail, UInt64.toNat_ofNat', Nat.mod_eq_of_lt (by omega)]
    have hsumNat : (st.successOperations + st.failedOperations).toNat =
        st.successOperations.toNat + st.failedOperations.toNat := by
      rw [UInt64.toNat_add, Nat.mod_eq_of_lt (by omega)]
    exact ⟨st, hout, by omega, by omega, now, later, rfl, by omega, by omega⟩

theorem receive_of_next {c : Choice T} {t : T} {r : Incoming}
    (h : s.next su c = some (.receive t r, s')) : c = .receive t r := by
  cases c with
  | receive u r' =>
    rw [State.next] at h
    split at h <;> cases h
    rfl
  | dispatch u =>
    rw [State.next] at h
    split at h
    · split at h
      · cases h
      · cases h
      · obtain ⟨x, -, hx⟩ := Option.map_eq_some_iff.mp h
        cases hx
    · cases h
  | advance u fresh =>
    rw [State.next] at h
    split at h
    · obtain ⟨x, -, hx⟩ := Option.map_eq_some_iff.mp h
      cases hx
    · cases h
  | ret u =>
    rw [State.next] at h
    split at h
    · split at h
      · obtain ⟨x, -, hx⟩ := Option.map_eq_some_iff.mp h
        cases hx
      · cases h
    · cases h
  | reply u =>
    rw [State.next] at h
    split at h <;> cases h

/-- The handlers throw nothing if they are not told to. -/
theorem sound_of_execute {cs : List (Choice T)} (hexec : execute (State.next su) s cs = some (es, s'))
    (hcs : ∀ t r, .receive t r ∈ cs → r.failures = noFailure) : Sound es := by
  intro t r hmem
  obtain ⟨c, hc, m, m', hnext⟩ := choice_of_execute hexec hmem
  exact hcs t r (receive_of_next hnext ▸ hc)

end Accounting

/-- `GET` of the statistics. -/
def asking : Incoming :=
  ⟨.get, ofString "/api/statistics/reads", [], noFailure, by decide, by decide⟩

/-- The readers meet, and a thread is asked for the statistics. -/
def counting (t : Fin 3) : List (Choice (Fin 3)) :=
  meeting ++ [.receive t asking, .dispatch t, .advance t 0, .advance t 0, .ret t, .reply t]

theorem statistics_of_replies_counting : ∃ es s,
    execute (State.next setUp) (.around (.init oneChain Bytes)) (counting 0) = some (es, s) ∧
    es.filterMap Event.code = [200, 404, 200, 200] ∧
    ∀ before t mid outcome after,
      es = before ++ .receive t asking :: (mid ++ .reply t asking outcome :: after) →
      (∀ r' o, .reply t r' o ∉ mid) →
      ∃ st, outcome = .document (statisticsReply noFailure st) ∧
        before.countP (setUp.answersRead true) ≤ st.successOperations.toNat := by
  have hcodes : ((execute (State.next setUp) (.around (.init oneChain Bytes)) (counting 0)).map
      fun x => (x.1.filterMap Event.code, decide (x.1.length < 2 ^ 64))) =
        some ([200, 404, 200, 200], true) := by decide +kernel
  obtain ⟨⟨es, s⟩, hexec, hes⟩ := Option.map_eq_some_iff.mp hcodes
  obtain ⟨hcode, hlen⟩ := Prod.mk.inj hes
  have hsound : Sound es := sound_of_execute hexec fun t r hm => by
    simp only [counting, meeting, List.mem_append, List.mem_cons, List.not_mem_nil, or_false,
      Choice.receive.injEq, reduceCtorEq, false_or] at hm
    obtain (⟨-, rfl⟩ | ⟨-, rfl⟩ | ⟨-, rfl⟩) | ⟨-, rfl⟩ := hm <;> rfl
  obtain ⟨-, hreports⟩ := statistics_of_replies (run_of_execute hexec) hsound
  refine ⟨es, s, hexec, hcode, fun before t mid outcome after heq hreply => ?_⟩
  have hsmall : es.countP setUp.receivesRead < 2 ^ 64 :=
    Nat.lt_of_le_of_lt List.countP_le_length (of_decide_eq_true hlen)
  obtain ⟨st, hout, hsucc, -⟩ := hreports before t asking mid outcome after heq hreply
    (.inl rfl) rfl hsmall
  exact ⟨st, hout, hsucc⟩

end LockFreeKV.Server
