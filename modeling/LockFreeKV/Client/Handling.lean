import LockFreeKV.Client.Network

/-!
# Handlers among the steps of others

The store holds what it held at the start and the names of the writes that have taken
effect. `Lookup` follows the handler of a read from its reception to its reply, among the
steps of all other clients and threads: it has looked its key up at one step, and found
it exactly if the store held it then.
-/
namespace LockFreeKV.Client

open LockFreeKV.Lib LockFreeKV.Engine LockFreeKV.Http

variable {P T : Type}

/-! ## The handling of a message in a run -/

def engineEvent : Label P T → Option (Event T Bytes Bytes)
  | .engine t _ a => some (t, a)
  | _ => none

/-- The reads that a thread has counted, as successful or as failed. -/
def readsBy [DecidableEq T] (t : T) (found : Bool) (es : List (Label P T)) : Nat :=
  countedBy t found (es.filterMap engineEvent)

/-- A write of the key takes effect. -/
def Label.Stores (key : Bytes) : Label P T → Prop
  | .engine _ message a =>
    a.takesEffect = true ∧ message.draw.writing = true ∧ message.draw.key = key
  | _ => False

/-- The key was in the store at the start, or a write of it has taken effect. -/
def StoredBefore {cfg : Config Bytes T} (s₀ : State P cfg) (es : List (Label P T)) (key : Bytes) :
    Prop :=
  s₀.engine.Stored key ∨ ∃ l ∈ es, l.Stores key

/-- A message from its reception to its reply, with what comes before, between and after. -/
structure Handling (P T : Type) where
  before : List (Label P T)
  thread : T
  message : Message P
  failures : FailPoint → Bool
  mid : List (Label P T)
  reply : Reply
  after : List (Label P T)

namespace Handling

variable (h : Handling P T)

def In (es : List (Label P T)) : Prop :=
  es = h.before ++ .received h.thread h.message h.failures ::
    (h.mid ++ .replied h.thread h.message h.failures h.reply :: h.after) ∧
  ∀ message failures reply, .replied h.thread message failures reply ∉ h.mid

/-- The handler does not throw, and its name is not in the store when its lookup takes effect. -/
structure NameAbsent {cfg : Config Bytes T} (s₀ : State P cfg) : Prop where
  decodes : h.failures .urlDecode = false
  names : h.failures .addName = false
  responds : h.failures .response = false
  absent : ∀ p a q, h.mid = p ++ .engine h.thread h.message a :: q → a.takesEffect = true →
    ¬ StoredBefore s₀ (h.before ++ .received h.thread h.message h.failures :: p) h.message.draw.key

end Handling

/-! ## What the store holds -/

/-- What the engine is at when its thread is at this point of a handler. -/
def Worker.Ok : Worker P → Pc Bytes Bytes → Prop
  | .calling message _ op, pc => message.draw.Calls op ∧
      (pc = .idle ∨ pc.status = .pending op ∨ ∃ res, pc.status = .done op res)
  | _, pc => pc = .idle

section Store

variable [DecidableEq T] {cfg : Config Bytes T}

/-- The store is accounted for by the writes of the history. -/
structure Good (s₀ : State P cfg) (es : List (Label P T)) (s : State P cfg) : Prop where
  engine : ∃ c, Inv s.engine c
  workers : ∀ t, (s.worker t).Ok (s.engine.pc t)
  stored : ∀ key, s.engine.Stored key ↔ StoredBefore s₀ es key
  calls : ∀ t message op, .engine t message (.call (.kv op)) ∈ es → message.draw.Calls op

variable {R : Rapidjson} {s₀ s s' : State P cfg} {es : List (Label P T)} {l : Label P T}

omit [DecidableEq T] in
theorem storedBefore_snoc (key : Bytes) :
    StoredBefore s₀ (es ++ [l]) key ↔ l.Stores key ∨ StoredBefore s₀ es key := by
  simp only [StoredBefore, List.mem_append, List.mem_singleton]
  constructor
  · rintro (h | ⟨x, hx | rfl, hs⟩)
    · exact .inr (.inl h)
    · exact .inr (.inr ⟨x, hx, hs⟩)
    · exact .inl hs
  · rintro (hs | h | ⟨x, hx, hs⟩)
    · exact .inr ⟨l, .inr rfl, hs⟩
    · exact .inl h
    · exact .inr ⟨x, .inl hx, hs⟩

theorem Worker.start_ok {message : Message P} {failures : FailPoint → Bool} {stage : Stage}
    (hstage : (message.draw.request message.newValue).stage failures R = .ok stage) :
    (Worker.start message failures stage).Ok .idle := by
  obtain ⟨_, hsame, hcalls⟩ := Draw.exists_stage (d := message.draw) message.newValue failures R
  obtain rfl := Except.ok.inj (hstage.symm.trans hsame)
  cases stage with
  | replies reply => rfl
  | calls op => exact ⟨hcalls op rfl, .inl rfl⟩

/-- The frame of a step of the thread `t` that leaves the stored keys alone. -/
theorem Good.quiet (h : Good s₀ es s) (t : T) (hengine : ∃ c, Inv s'.engine c)
    (hworker : ∀ t', t' ≠ t → s'.worker t' = s.worker t')
    (hpc : ∀ t', t' ≠ t → s'.engine.pc t' = s.engine.pc t')
    (hok : (s'.worker t).Ok (s'.engine.pc t))
    (hstored : ∀ key, s'.engine.Stored key ↔ l.Stores key ∨ s.engine.Stored key)
    (hcalls : ∀ t message op, l = .engine t message (.call (.kv op)) → message.draw.Calls op) :
    Good s₀ (es ++ [l]) s' where
  engine := hengine
  workers t' := by
    by_cases ht : t' = t
    · exact ht ▸ hok
    · rw [hworker t' ht, hpc t' ht]
      exact h.workers t'
  stored key := by rw [storedBefore_snoc, hstored, h.stored]
  calls t message op hmem := by
    rcases List.mem_append.mp hmem with hold | hnew
    · exact h.calls t message op hold
    · exact hcalls t message op (List.mem_singleton.mp hnew).symm

omit [DecidableEq T] in
theorem Label.not_stores {t : T} {message : Message P} {a : Act Bytes Bytes}
    (ha : a.takesEffect = false) (key : Bytes) : ¬ (Label.engine t message a).Stores key :=
  fun hs => by simp [Label.Stores, ha] at hs

/-- A step of the engine inside a call. -/
theorem Good.advance (h : Good s₀ es s) {t : T} {message : Message P}
    {failures : FailPoint → Bool} {op : KvOp Bytes Bytes} {a : Act Bytes Bytes}
    {mem : Memory cfg.toHashing Bytes} {pc : Pc Bytes Bytes}
    (hworker : s.worker t = .calling message failures op)
    (hadv : Advance s.engine.mem (cfg.heapId t) (s.engine.pc t) a mem pc) :
    Good s₀ (es ++ [.engine t message a])
      { s with engine := ⟨mem, Function.update s.engine.pc t pc⟩ } := by
  obtain ⟨c, hi⟩ := h.engine
  have hok := h.workers t
  rw [hworker] at hok
  obtain ⟨hcalls, hpc⟩ := hok
  have hpc' : (s.engine.pc t).status = .pending op ∨
      ∃ res, (s.engine.pc t).status = .done op res := by
    refine hpc.resolve_left fun hidle => ?_
    rw [hidle] at hadv
    cases hadv
  have hnocall : ∀ t' m o, Label.engine t message a = .engine t' m (.call (.kv o)) →
      m.draw.Calls o := fun t' m o heq => by
    obtain ⟨rfl, rfl, rfl⟩ := Label.engine.inj heq
    generalize s.engine.pc t = p at hadv
    cases hadv
  have hframe : ∀ t', t' ≠ t → Function.update s.engine.pc t pc t' = s.engine.pc t' :=
    fun t' ht => Function.update_of_ne ht ..
  obtain ⟨heff, hstat, hstored⟩ | ⟨op', res, heff, hpend, hdone, hstored, -⟩ :=
    hi.stored_atomic hadv
  · refine h.quiet t ⟨_, hi.atomic hadv⟩ (fun _ _ => rfl) hframe ?_ (fun key => ?_) hnocall
    · simp only [hworker, Function.update_self, Worker.Ok, hstat]
      exact ⟨hcalls, .inr hpc'⟩
    · simp [Label.not_stores heff, hstored]
  · obtain rfl : op = op' := by
      rcases hpc' with hp | ⟨r, hd⟩
      · exact Status.pending.inj (hp.symm.trans hpend)
      · cases hd.symm.trans hpend
    refine h.quiet t ⟨_, hi.atomic hadv⟩ (fun _ _ => rfl) hframe ?_ (fun key => ?_) hnocall
    · simp only [hworker, Function.update_self, Worker.Ok, hdone]
      exact ⟨hcalls, .inr (.inr ⟨res, rfl⟩)⟩
    · rw [hstored, hcalls.sets_iff, Label.Stores]
      simp [heff]

/-- Every step keeps the account of the store. -/
theorem Good.step (h : Good s₀ es s) (hm : Moves R s l s') : Good s₀ (es ++ [l]) s' := by
  obtain ⟨c, hi⟩ := h.engine
  cases hm with
  | outside hlabel hout =>
    refine ⟨⟨c, hi⟩, h.workers, fun key => ?_, fun t message op hmem => ?_⟩
    · rw [storedBefore_snoc, ← h.stored]
      rcases hlabel with rfl | ⟨message, rfl⟩ <;> simp [Label.Stores]
    · rcases hlabel with rfl | ⟨message', rfl⟩ <;> exact h.calls t message op (by simpa using hmem)
  | @received t message failures stage inbox hworker hstage =>
    have hidle := h.workers t
    rw [hworker] at hidle
    refine h.quiet t ⟨c, hi⟩ (fun t' ht => Function.update_of_ne ht ..) (fun _ _ => rfl) ?_
      (fun key => by simp [Label.Stores]) (by simp)
    simp only [Function.update_self]
    rw [show s.engine.pc t = .idle from hidle]
    exact Worker.start_ok hstage
  | @called t message failures op hworker hpc =>
    have hok := h.workers t
    rw [hworker] at hok
    have hs : s.engine.Step (t, .call (.kv op)) (s.engine.setPc t (Op.kv op).start) :=
      ⟨.call t (.kv op), by simp [Engine.State.next, hpc]⟩
    refine h.quiet t ⟨_, hi.step hs⟩ (fun _ _ => rfl) (fun t' ht => Function.update_of_ne ht ..) ?_
      (fun key => ?_) fun t' m o heq => ?_
    · simp only [hworker, Engine.State.setPc, Function.update_self, Worker.Ok, Op.start_status]
      exact ⟨hok.1, .inr (.inl trivial)⟩
    · simp only [Label.not_stores (a := .call (.kv op)) rfl, false_or]
      rfl
    · obtain ⟨rfl, rfl, hop⟩ := Label.engine.inj heq
      cases hop
      exact hok.1
  | advanced hworker hadv hstep => exact h.advance hworker hadv
  | @returned t message failures op o res reply hworker hpc hreply =>
    have hs : s.engine.Step (t, .ret o res) (s.engine.setPc t .idle) :=
      ⟨.ret t, by simp [Engine.State.next, hpc]⟩
    refine h.quiet t ⟨_, hi.step hs⟩ (fun t' ht => Function.update_of_ne ht ..)
      (fun t' ht => Function.update_of_ne ht ..) ?_ (fun key => ?_) (by simp)
    · simp [Engine.State.setPc, Worker.Ok]
    · simp only [Label.not_stores (a := .ret o res) rfl, false_or]
      rfl
  | @replied t message failures reply hworker =>
    have hidle := h.workers t
    rw [hworker] at hidle
    refine h.quiet t ⟨c, hi⟩ (fun t' ht => Function.update_of_ne ht ..) (fun _ _ => rfl) ?_
      (fun key => by simp [Label.Stores]) (by simp)
    simpa [Worker.Ok] using hidle
  | answered hmem hout =>
    refine ⟨⟨c, hi⟩, h.workers, fun key => ?_, fun t message op hmem => ?_⟩
    · rw [storedBefore_snoc, ← h.stored]
      simp [Label.Stores]
    · exact h.calls t message op (by simpa using hmem)

theorem good_start (h : s₀.Start) : Good s₀ [] s₀ where
  engine := by
    obtain ⟨es, hrun⟩ := h.engine
    exact inv_of_run hrun
  workers t := by
    rw [h.workers t]
    exact h.pcs t
  stored key := by simp [StoredBefore]
  calls := by simp

variable [DecidableEq P]

theorem good_of_run (h : s₀.Start) (hrun : Run (State.Step R) s₀ es s) : Good s₀ es s :=
  hrun.invariant (Good s₀) (good_start h) fun _ _ _ _ hg hs => hg.step (State.moves_of_step hs)

end Store

/-! ## The lookup of a read -/

section Lookup

variable [DecidableEq T] {cfg : Config Bytes T} {R : Rapidjson} {s₀ s s' : State P cfg}
  {base mid : List (Label P T)} {l : Label P T} {t : T} {message : Message P}
  {failures : FailPoint → Bool} {r : Option Bytes}

/-- The handler of the message has looked its key up, with the result `r`: nothing exactly if the
key was not stored by then. -/
structure LookedUp (s₀ : State P cfg) (base : List (Label P T)) (t : T) (message : Message P)
    (mid : List (Label P T)) (r : Option Bytes) : Prop where
  once : ∃ a, .engine t message a ∈ mid ∧ a.takesEffect = true
  result : ∀ p a q, mid = p ++ .engine t message a :: q → a.takesEffect = true →
    (r = none ↔ ¬ StoredBefore s₀ (base ++ p) message.draw.key)

omit [DecidableEq T] in
theorem LookedUp.snoc (h : LookedUp s₀ base t message mid r)
    (hl : ∀ a, l = .engine t message a → a.takesEffect = false) :
    LookedUp s₀ base t message (mid ++ [l]) r where
  once := by
    obtain ⟨a, hmem, ha⟩ := h.once
    exact ⟨a, List.mem_append_left _ hmem, ha⟩
  result p a q hcut ha := by
    obtain ⟨-, -, rfl⟩ | ⟨q', -, rfl⟩ := snoc_eq_append_cons hcut
    · rw [hl a rfl] at ha
      cases ha
    · exact h.result p a q' rfl ha

omit [DecidableEq T] in
theorem LookedUp.first (hno : ∀ a, .engine t message a ∈ mid → a.takesEffect = false)
    {a : Act Bytes Bytes} (ha : a.takesEffect = true)
    (hr : r = none ↔ ¬ StoredBefore s₀ (base ++ mid) message.draw.key) :
    LookedUp s₀ base t message (mid ++ [.engine t message a]) r where
  once := ⟨a, by simp, ha⟩
  result p a' q hcut ha' := by
    obtain ⟨-, rfl, -⟩ | ⟨q', -, rfl⟩ := snoc_eq_append_cons hcut
    · exact hr
    · rw [hno a' (by simp)] at ha'
      cases ha'

omit [DecidableEq T] in
/-- A step that is no lookup of the handler leaves it without one. -/
theorem noLookup_snoc (hno : ∀ a, .engine t message a ∈ mid → a.takesEffect = false)
    (hl : ∀ a, l = .engine t message a → a.takesEffect = false) (a : Act Bytes Bytes)
    (hmem : .engine t message a ∈ mid ++ [l]) : a.takesEffect = false := by
  rcases List.mem_append.mp hmem with hold | hnew
  · exact hno a hold
  · exact hl a (List.mem_singleton.mp hnew).symm

/-- Where the handler of a read stands, `mid` after its reception: in front of its lookup, behind
it, or at its reply. -/
inductive Lookup (s₀ : State P cfg) (base : List (Label P T)) (t : T) (message : Message P)
    (failures : FailPoint → Bool) (mid : List (Label P T)) (s : State P cfg) : Prop
  | ahead (hworker : s.worker t = .calling message failures (.get message.draw.key))
      (hpc : s.engine.pc t = .idle ∨ (s.engine.pc t).status = .pending (.get message.draw.key))
      (hno : ∀ a, .engine t message a ∈ mid → a.takesEffect = false)
      (hcount : ∀ found, readsBy t found mid = (s.engine.pc t).counted found)
  | behind {r : Option Bytes}
      (hworker : s.worker t = .calling message failures (.get message.draw.key))
      (hpc : (s.engine.pc t).status = .done (.get message.draw.key) (.found r))
      (hlooked : LookedUp s₀ base t message mid r)
      (hcount : ∀ found, readsBy t found mid = (s.engine.pc t).counted found)
  | replying {r : Option Bytes}
      (hworker : s.worker t = .replying message failures (getReply failures message.draw.key r))
      (hlooked : LookedUp s₀ base t message mid r)
      (hcount : ∀ found, readsBy t found mid = if r.isSome == found then 1 else 0)

/-- The server thread that moves. -/
def Label.actor : Label P T → Option T
  | .received t _ _ => some t
  | .engine t _ _ => some t
  | .replied t _ _ _ => some t
  | _ => none

theorem readsBy_snoc_engine (t : T) (found : Bool) (mid : List (Label P T)) (a : Act Bytes Bytes) :
    readsBy t found (mid ++ [.engine t message a]) =
      readsBy t found mid + if a.counts found then 1 else 0 := by
  rw [readsBy, List.filterMap_append, countedBy_append]
  simp [readsBy, engineEvent, countedBy, List.countP_singleton]

theorem readsBy_snoc_other (hl : l.actor ≠ some t) (found : Bool) (mid : List (Label P T)) :
    readsBy t found (mid ++ [l]) = readsBy t found mid := by
  rw [readsBy, List.filterMap_append, countedBy_append]
  cases l with
  | engine u m a =>
    have hu : u ≠ t := fun hu => hl (congrArg some hu)
    simp [readsBy, engineEvent, countedBy, hu]
  | _ => rfl

/-- A step moves one server thread at most. -/
theorem Moves.frame (hm : Moves R s l s') (hl : l.actor ≠ some t) :
    s'.worker t = s.worker t ∧ s'.engine.pc t = s.engine.pc t := by
  cases hm with
  | outside => exact ⟨rfl, rfl⟩
  | answered => exact ⟨rfl, rfl⟩
  | received => exact ⟨Function.update_of_ne (fun ht => hl (congrArg some ht.symm)) .., rfl⟩
  | called => exact ⟨rfl, Function.update_of_ne (fun ht => hl (congrArg some ht.symm)) ..⟩
  | advanced => exact ⟨rfl, Function.update_of_ne (fun ht => hl (congrArg some ht.symm)) ..⟩
  | returned =>
    exact ⟨Function.update_of_ne (fun ht => hl (congrArg some ht.symm)) ..,
      Function.update_of_ne (fun ht => hl (congrArg some ht.symm)) ..⟩
  | replied => exact ⟨Function.update_of_ne (fun ht => hl (congrArg some ht.symm)) .., rfl⟩

/-- The other threads leave a handler where it stands. -/
theorem Lookup.frame (h : Lookup s₀ base t message failures mid s) (hm : Moves R s l s')
    (hl : l.actor ≠ some t) : Lookup s₀ base t message failures (mid ++ [l]) s' := by
  obtain ⟨hw, hp⟩ := hm.frame hl
  have hother : ∀ a, l = .engine t message a → a.takesEffect = false := fun a ha =>
    absurd (by rw [ha]; rfl) hl
  cases h with
  | ahead hworker hpc hno hcount =>
    refine .ahead (hw.trans hworker) (by rwa [hp]) (noLookup_snoc hno hother) fun found => ?_
    rw [readsBy_snoc_other hl, hp, hcount]
  | behind hworker hpc hlooked hcount =>
    refine .behind (hw.trans hworker) (by rwa [hp]) (hlooked.snoc hother) fun found => ?_
    rw [readsBy_snoc_other hl, hp, hcount]
  | replying hworker hlooked hcount =>
    refine .replying (hw.trans hworker) (hlooked.snoc hother) fun found => ?_
    rw [readsBy_snoc_other hl, hcount]

theorem Lookup.of_calling (h : Lookup s₀ base t message failures mid s)
    {m : Message P} {f : FailPoint → Bool} {op : KvOp Bytes Bytes}
    (hworker : s.worker t = .calling m f op) : m = message ∧ f = failures := by
  cases h with
  | ahead hw => cases hworker.symm.trans hw; exact ⟨rfl, rfl⟩
  | behind hw => cases hworker.symm.trans hw; exact ⟨rfl, rfl⟩
  | replying hw => cases hworker.symm.trans hw

/-- The handler's own steps in the engine. -/
theorem Lookup.advance (h : Lookup s₀ base t message failures mid s)
    (hg : Good s₀ (base ++ mid) s) {a : Act Bytes Bytes} {mem : Memory cfg.toHashing Bytes}
    {pc : Pc Bytes Bytes}
    (hadv : Advance s.engine.mem (cfg.heapId t) (s.engine.pc t) a mem pc) :
    Lookup s₀ base t message failures (mid ++ [.engine t message a])
      { s with engine := ⟨mem, Function.update s.engine.pc t pc⟩ } := by
  obtain ⟨c, hi⟩ := hg.engine
  have hcounts : ∀ found, readsBy t found mid = (s.engine.pc t).counted found →
      readsBy t found (mid ++ [.engine t message a]) = pc.counted found := fun found hcount => by
    rw [readsBy_snoc_engine, (hadv.counts found).2, hcount]
  have hquiet : a.takesEffect = false → ∀ a' : Act Bytes Bytes,
      Label.engine t message a = .engine t message a' → a'.takesEffect = false :=
    fun heff a' ha => by
      cases ha
      exact heff
  cases h with
  | ahead hworker hpc hno hcount =>
    have hpend : (s.engine.pc t).status = .pending (.get message.draw.key) := by
      refine hpc.resolve_left fun hidle => ?_
      rw [hidle] at hadv
      cases hadv
    obtain ⟨heff, hstat, -⟩ | ⟨op, res, heff, hop, hdone, -, hanswers⟩ := hi.stored_atomic hadv
    · refine .ahead hworker ?_ (noLookup_snoc hno (hquiet heff)) fun found => ?_
      · simp only [Function.update_self, hstat]
        exact .inr hpend
      · simp only [Function.update_self]
        exact hcounts found (hcount found)
    · obtain rfl := Status.pending.inj (hop.symm.trans hpend)
      obtain ⟨r, rfl, hr⟩ := hanswers
      rw [hg.stored] at hr
      refine .behind (r := r) hworker ?_ (.first hno heff hr) fun found => ?_
      · simp only [Function.update_self, hdone]
      · simp only [Function.update_self]
        exact hcounts found (hcount found)
  | behind hworker hpc hlooked hcount =>
    obtain ⟨heff, hstat, -⟩ | ⟨op, res, -, hop, -⟩ := hi.stored_atomic hadv
    · refine .behind hworker ?_ (hlooked.snoc (hquiet heff)) fun found => ?_
      · simp only [Function.update_self, hstat, hpc]
      · simp only [Function.update_self]
        exact hcounts found (hcount found)
    · cases hop.symm.trans hpc
  | replying hworker hlooked hcount =>
    have hidle := hg.workers t
    rw [hworker] at hidle
    rw [show s.engine.pc t = .idle from hidle] at hadv
    cases hadv

/-- The call of the engine returns, and the reply is made from its result. -/
theorem Lookup.ret (h : Lookup s₀ base t message failures mid s) {op : KvOp Bytes Bytes}
    {o : Op Bytes Bytes} {res : Result Bytes Bytes} {reply : Reply}
    (hworker : s.worker t = .calling message failures op)
    (hpc : s.engine.pc t = .returned o res) (hreply : finish failures o res = some reply) :
    Lookup s₀ base t message failures (mid ++ [.engine t message (.ret o res)])
      { s with
        engine := s.engine.setPc t .idle
        worker := Function.update s.worker t (.replying message failures reply) } := by
  cases h with
  | ahead hw hp hno hcount =>
    rcases hp with hidle | hpend
    · cases hpc.symm.trans hidle
    · exact absurd hpc (Pc.not_returned hpend o res)
  | behind hw hp hlooked hcount =>
    rw [hpc] at hp
    obtain ⟨rfl, rfl⟩ := Pc.status_returned hp
    obtain rfl := Option.some.inj hreply
    refine .replying (Function.update_self ..) (hlooked.snoc fun a ha => ?_) fun found => ?_
    · cases ha
      rfl
    · rw [readsBy_snoc_engine, hcount found, hpc]
      rfl
  | replying hw hlooked hcount => cases hworker.symm.trans hw

/-- Every step but the reply keeps the handler on its way. -/
theorem Lookup.step (h : Lookup s₀ base t message failures mid s) (hg : Good s₀ (base ++ mid) s)
    (hm : Moves R s l s') (hl : ∀ m f reply, l ≠ .replied t m f reply) :
    Lookup s₀ base t message failures (mid ++ [l]) s' := by
  by_cases hactor : l.actor = some t
  · cases hm with
    | outside hlabel => rcases hlabel with rfl | ⟨m, rfl⟩ <;> cases hactor
    | answered => cases hactor
    | received hworker =>
      obtain rfl := Option.some.inj hactor
      cases h with
      | ahead hw => cases hworker.symm.trans hw
      | behind hw => cases hworker.symm.trans hw
      | replying hw => cases hworker.symm.trans hw
    | @called t m f op hworker hpc =>
      obtain rfl := Option.some.inj hactor
      cases h with
      | ahead hw hp hno hcount =>
        cases hworker.symm.trans hw
        refine .ahead hw ?_ (noLookup_snoc hno fun a ha => ?_) fun found => ?_
        · simp only [Engine.State.setPc, Function.update_self, Op.start_status]
          exact .inr trivial
        · cases ha
          rfl
        · rw [readsBy_snoc_engine, hcount found, hpc]
          simp only [Engine.State.setPc, Function.update_self, Op.start_counted]
          rfl
      | behind hw hp => rw [hpc] at hp; cases hp
      | replying hw => cases hworker.symm.trans hw
    | @advanced t m f op a mem pc hworker hadv hstep =>
      obtain rfl := Option.some.inj hactor
      obtain ⟨rfl, rfl⟩ := h.of_calling hworker
      exact h.advance hg hadv
    | @returned t m f op o res reply hworker hpc hreply =>
      obtain rfl := Option.some.inj hactor
      obtain ⟨rfl, rfl⟩ := h.of_calling hworker
      exact h.ret hworker hpc hreply
    | replied hworker =>
      obtain rfl := Option.some.inj hactor
      exact absurd rfl (hl _ _ _)
  · exact h.frame hm hactor

end Lookup

end LockFreeKV.Client
