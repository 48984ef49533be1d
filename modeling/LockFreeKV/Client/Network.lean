import LockFreeKV.Client.Requests
import LockFreeKV.Lib.Run

/-!
# Clients and server

Any number of client processes run `one_request` again and again against one server.
Messages and replies are in flight between them and can be lost; a connection error lets
a client send its request once more, with a new value. Each server thread handles one
message at a time, and the calls of the threads run on one engine, atomic operation by
atomic operation.
-/
namespace LockFreeKV.Client

open LockFreeKV.Lib LockFreeKV.Engine LockFreeKV.Http

variable {P T : Type}

/-- One request on the wire: the attempts of a client are numbered. -/
structure Message (P : Type) where
  client : P
  attempt : Nat
  draw : Draw
  newValue : NewValue
  deriving DecidableEq

/-- Where a client process stands: between operations, in the retry loop of one, or after a
failed assertion. -/
inductive ClientPc (P : Type)
  | idle
  | waiting (message : Message P)
  | failed

/-- What a server thread is at: its handler's call of the engine, or its reply. -/
inductive Worker (P : Type)
  | free
  | calling (message : Message P) (failures : FailPoint → Bool) (op : KvOp Bytes Bytes)
  | replying (message : Message P) (failures : FailPoint → Bool) (reply : Reply)

structure State (P : Type) {T : Type} (cfg : Config Bytes T) where
  engine : Engine.State cfg Bytes
  worker : T → Worker P
  inbox : List (Message P)
  outbox : List (Message P × Reply)
  client : P → ClientPc P
  attempts : P → Nat

/-- What happens next. -/
inductive Choice (P T : Type)
  | operate (p : P) (draw : Draw) (newValue : NewValue)
  | retry (p : P) (newValue : NewValue)
  | loseMessage (i : Nat)
  | loseReply (i : Nat)
  | receive (t : T) (i : Nat) (failures : FailPoint → Bool)
  | call (t : T)
  | advance (t : T) (fresh : Addr)
  | ret (t : T)
  | reply (t : T)
  | deliver (i : Nat)

/-- What has happened. -/
inductive Label (P T : Type)
  | requested (message : Message P)
  | lost
  | received (t : T) (message : Message P) (failures : FailPoint → Bool)
  | engine (t : T) (message : Message P) (a : Act Bytes Bytes)
  | replied (t : T) (message : Message P) (failures : FailPoint → Bool) (reply : Reply)
  | answered (message : Message P) (reply : Reply)

/-- A handler after its first stage. -/
def Worker.start (message : Message P) (failures : FailPoint → Bool) : Stage → Worker P
  | .replies reply => .replying message failures reply
  | .calls op => .calling message failures op

/-- The assertions about the status. -/
def ClientPc.after (message : Message P) (reply : Reply) : ClientPc P :=
  if message.draw.writing then if reply.code = 200 then .idle else .failed
  else if reply.code = 200 ∨ reply.code = 404 then .idle else .failed

namespace State

variable [DecidableEq T] {cfg : Config Bytes T}

/-- The server before the clients start: its store is as some earlier run left it, without a name
that is meant for misses; no call is in flight. -/
structure Start (s : State P cfg) : Prop where
  engine : ∃ es, Run Engine.State.Step (Engine.State.init cfg Bytes) es s.engine
  pcs : ∀ t, s.engine.pc t = .idle
  absent : ∀ i, ¬ s.engine.Stored (ofString (notFoundValueNames i))
  workers : ∀ t, s.worker t = .free
  inbox : s.inbox = []
  outbox : s.outbox = []
  clients : ∀ p, s.client p = .idle

/-- An empty store, clients about to start. -/
def init (P : Type) (cfg : Config Bytes T) : State P cfg where
  engine := Engine.State.init cfg Bytes
  worker := fun _ => .free
  inbox := []
  outbox := []
  client := fun _ => .idle
  attempts := fun _ => 0

omit [DecidableEq T] in
theorem not_stored_init (key : Bytes) : ¬ (Engine.State.init cfg Bytes).Stored key := by
  rintro ⟨value, l, node, nd, hl, hmem, -⟩
  have hnil : Linked (Engine.State.init cfg Bytes).mem.nextOf none [] := rfl
  obtain rfl := hl.unique hnil
  cases hmem

theorem start_init : (State.init P cfg).Start where
  engine := ⟨[], .nil⟩
  pcs _ := rfl
  absent _ := not_stored_init _
  workers _ := rfl
  inbox := rfl
  outbox := rfl
  clients _ := rfl

variable [DecidableEq P]

/-- The client sends a request on a new attempt. -/
def send (s : State P cfg) (p : P) (draw : Draw) (newValue : NewValue) : Label P T × State P cfg :=
  let message : Message P := ⟨p, s.attempts p, draw, newValue⟩
  (.requested message,
    { s with
      inbox := s.inbox ++ [message]
      client := Function.update s.client p (.waiting message)
      attempts := Function.update s.attempts p (s.attempts p + 1) })

def next (R : Rapidjson) (s : State P cfg) : Choice P T → Option (Label P T × State P cfg)
  | .operate p draw newValue =>
    match s.client p with
    | .idle => some (s.send p draw newValue)
    | _ => none
  | .retry p newValue =>
    match s.client p with
    | .waiting message => some (s.send p message.draw newValue)
    | _ => none
  | .loseMessage i => some (.lost, { s with inbox := s.inbox.eraseIdx i })
  | .loseReply i => some (.lost, { s with outbox := s.outbox.eraseIdx i })
  | .receive t i failures =>
    match s.worker t, s.inbox[i]? with
    | .free, some message =>
      match (message.draw.request message.newValue).stage failures R with
      | .ok stage =>
        some (.received t message failures,
          { s with
            worker := Function.update s.worker t (.start message failures stage)
            inbox := s.inbox.eraseIdx i })
      | .error _ => none
    | _, _ => none
  | .call t =>
    match s.worker t with
    | .calling message _ op =>
      (s.engine.next (.call t (.kv op))).map fun r =>
        (.engine t message r.1.2, { s with engine := r.2 })
    | _ => none
  | .advance t fresh =>
    match s.worker t with
    | .calling message _ _ =>
      (s.engine.next (.advance t fresh)).map fun r =>
        (.engine t message r.1.2, { s with engine := r.2 })
    | _ => none
  | .ret t =>
    match s.worker t, s.engine.next (.ret t) with
    | .calling message failures _, some ((_, .ret op res), engine) =>
      (finish failures op res).map fun reply =>
        (.engine t message (.ret op res),
          { s with
            engine := engine
            worker := Function.update s.worker t (.replying message failures reply) })
    | _, _ => none
  | .reply t =>
    match s.worker t with
    | .replying message failures reply =>
      some (.replied t message failures reply,
        { s with
          worker := Function.update s.worker t .free
          outbox := s.outbox ++ [(message, reply)] })
    | _ => none
  | .deliver i =>
    match s.outbox[i]? with
    | none => none
    | some (message, reply) =>
      match s.client message.client with
      | .waiting sent =>
        if sent = message then
          some (.answered message reply,
            { s with
              outbox := s.outbox.eraseIdx i
              client := Function.update s.client message.client (.after message reply) })
        else none
      | _ => none

/-- Some choice leads from `s` to `s'`. -/
def Step (R : Rapidjson) (s : State P cfg) (l : Label P T) (s' : State P cfg) : Prop :=
  ∃ c, s.next R c = some (l, s')

end State

/-! ## The outcomes of a step -/

variable [DecidableEq T] {cfg : Config Bytes T}

/-- `Moves R s l s'`: what the system can do in `s`, seen from the server. -/
inductive Moves (R : Rapidjson) (s : State P cfg) : Label P T → State P cfg → Prop
  /-- A client sends, or something is lost. -/
  | outside {l : Label P T} {inbox : List (Message P)} {outbox : List (Message P × Reply)}
      {client : P → ClientPc P} {attempts : P → Nat}
      (hlabel : l = .lost ∨ ∃ message, l = .requested message) (hout : ∀ r ∈ outbox, r ∈ s.outbox) :
      Moves R s l ⟨s.engine, s.worker, inbox, outbox, client, attempts⟩
  | received {t : T} {message : Message P} {failures : FailPoint → Bool} {stage : Stage}
      {inbox : List (Message P)} (hworker : s.worker t = .free)
      (hstage : (message.draw.request message.newValue).stage failures R = .ok stage) :
      Moves R s (.received t message failures)
        { s with
          worker := Function.update s.worker t (.start message failures stage)
          inbox := inbox }
  | called {t : T} {message : Message P} {failures : FailPoint → Bool} {op : KvOp Bytes Bytes}
      (hworker : s.worker t = .calling message failures op) (hpc : s.engine.pc t = .idle) :
      Moves R s (.engine t message (.call (.kv op)))
        { s with engine := s.engine.setPc t (Op.kv op).start }
  | advanced {t : T} {message : Message P} {failures : FailPoint → Bool} {op : KvOp Bytes Bytes}
      {a : Act Bytes Bytes} {mem : Memory cfg.toHashing Bytes} {pc : Pc Bytes Bytes}
      (hworker : s.worker t = .calling message failures op)
      (hadv : Advance s.engine.mem (cfg.heapId t) (s.engine.pc t) a mem pc)
      (hstep : s.engine.Step (t, a) ⟨mem, Function.update s.engine.pc t pc⟩) :
      Moves R s (.engine t message a)
        { s with engine := ⟨mem, Function.update s.engine.pc t pc⟩ }
  | returned {t : T} {message : Message P} {failures : FailPoint → Bool} {op : KvOp Bytes Bytes}
      {o : Op Bytes Bytes} {res : Result Bytes Bytes} {reply : Reply}
      (hworker : s.worker t = .calling message failures op)
      (hpc : s.engine.pc t = .returned o res) (hreply : finish failures o res = some reply) :
      Moves R s (.engine t message (.ret o res))
        { s with
          engine := s.engine.setPc t .idle
          worker := Function.update s.worker t (.replying message failures reply) }
  | replied {t : T} {message : Message P} {failures : FailPoint → Bool} {reply : Reply}
      (hworker : s.worker t = .replying message failures reply) :
      Moves R s (.replied t message failures reply)
        { s with
          worker := Function.update s.worker t .free
          outbox := s.outbox ++ [(message, reply)] }
  | answered {message : Message P} {reply : Reply} {outbox : List (Message P × Reply)}
      {client : P → ClientPc P} (hmem : (message, reply) ∈ s.outbox)
      (hout : ∀ r ∈ outbox, r ∈ s.outbox) :
      Moves R s (.answered message reply) { s with outbox := outbox, client := client }

/-- Every step is one of the listed outcomes. -/
theorem State.moves_of_step [DecidableEq P] {R : Rapidjson} {s s' : State P cfg} {l : Label P T}
    (h : s.Step R l s') : Moves R s l s' := by
  obtain ⟨c, hc⟩ := h
  cases c with
  | operate p draw newValue =>
    cases hp : s.client p <;> simp only [next, hp, Option.some.injEq, reduceCtorEq] at hc
    cases hc
    exact .outside (.inr ⟨_, rfl⟩) fun _ hr => hr
  | retry p newValue =>
    cases hp : s.client p <;> simp only [next, hp, Option.some.injEq, reduceCtorEq] at hc
    cases hc
    exact .outside (.inr ⟨_, rfl⟩) fun _ hr => hr
  | loseMessage i =>
    cases hc
    exact .outside (.inl rfl) fun _ hr => hr
  | loseReply i =>
    cases hc
    exact .outside (.inl rfl) fun _ hr => List.mem_of_mem_eraseIdx hr
  | receive t i failures =>
    simp only [next] at hc
    split at hc
    · next message hworker hm =>
      split at hc
      · next stage hstage =>
        cases hc
        exact .received hworker hstage
      · cases hc
    · cases hc
  | call t =>
    simp only [next] at hc
    split at hc
    · next message failures op hworker =>
      cases hpc : s.engine.pc t <;> simp only [Engine.State.next, hpc, Option.map_some,
        Option.map_none, Option.some.injEq, reduceCtorEq] at hc
      cases hc
      exact .called hworker hpc
    · cases hc
  | advance t fresh =>
    simp only [next] at hc
    split at hc
    · next message failures op hworker =>
      obtain ⟨r, hr, heq⟩ := Option.map_eq_some_iff.mp hc
      obtain ⟨r', hadv, heq'⟩ := Option.map_eq_some_iff.mp hr
      cases heq'
      cases heq
      exact .advanced hworker (advance_sound hadv) ⟨.advance t fresh, hr⟩
    · cases hc
  | ret t =>
    simp only [next] at hc
    split at hc
    · next message failures op _ o res engine hworker hret =>
      obtain ⟨reply, hreply, heq⟩ := Option.map_eq_some_iff.mp hc
      cases hpc : s.engine.pc t <;> simp only [Engine.State.next, hpc, Option.some.injEq,
        Prod.mk.injEq, Act.ret.injEq, reduceCtorEq] at hret
      obtain ⟨⟨-, rfl, rfl⟩, rfl⟩ := hret
      cases heq
      exact .returned hworker hpc hreply
    · cases hc
  | reply t =>
    simp only [next] at hc
    split at hc
    · next message failures reply hworker =>
      cases hc
      exact .replied hworker
    · cases hc
  | deliver i =>
    simp only [next] at hc
    split at hc
    · cases hc
    · next message reply hm =>
      split at hc
      · split at hc
        · cases hc
          exact .answered (List.mem_of_getElem? hm) fun _ hr => List.mem_of_mem_eraseIdx hr
        · cases hc
      · cases hc

end LockFreeKV.Client
