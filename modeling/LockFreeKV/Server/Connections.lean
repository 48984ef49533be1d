import LockFreeKV.Server.Replies

/-!
# The server and its connections

A thread takes a request off a connection, handles it and replies on that connection, while other
threads do so on others. A connection answers an invalid request by itself. The clients wait for
each answer.
-/
namespace LockFreeKV.Server

open LockFreeKV.Lib LockFreeKV.Engine LockFreeKV.Http LockFreeKV.Crow

/-- What a handler is given of a request. Its URL is within the parser's bound, and not the one
at which the decoder reads out of bounds. -/
def incoming (req : Crow.Request) (failures : FailPoint → Bool) : Option Incoming :=
  if h : req.url.length ≤ 80 * 1024 ∧ req.url ≠ ofString "/api/records/%" then
    some ⟨req.method, req.url, req.body, failures, h.1, h.2⟩
  else none

/-- The handler's request is the one that the connection has read. -/
structure Incoming.Of (r : Incoming) (req : Crow.Request) : Prop where
  method : r.method = req.method
  url : r.url = req.url
  body : r.body = req.body

theorem of_incoming {req : Crow.Request} {failures : FailPoint → Bool} {r : Incoming}
    (h : incoming req failures = some r) : r.Of req := by
  unfold incoming at h
  split at h <;> cases h
  exact ⟨rfl, rfl, rfl⟩

variable {T K : Type}

/-- The server with its connections, each with the thread that handles its request. -/
structure Connected (cfg : Config Bytes T) (K : Type) where
  server : State cfg
  connection : K → Connection
  handling : K → Option (T × Crow.Request)

namespace Connected

/-- What happens next: a thread takes a request, goes on with it, or replies to it; a connection
refuses a request, or a write ends. -/
inductive Choice (T K : Type)
  | request (k : K) (t : T) (req : Crow.Request) (failures : FailPoint → Bool)
  | dispatch (t : T)
  | advance (t : T) (fresh : Addr)
  | ret (t : T)
  | reply (k : K) (w : Writer)
  | refuse (k : K) (w : Writer) (req : Crow.Request)
  | written (k : K)

/-- `alone`: what a connection does by itself. -/
inductive Event (T K : Type)
  | request (k : K) (t : T) (req : Crow.Request) (r : Incoming)
  | work (e : Server.Event T)
  | reply (k : K) (t : T) (r : Incoming) (outcome : Outcome) (e : Connection.Event)
  | alone (k : K) (e : Connection.Event)

section Next

variable [DecidableEq T] [DecidableEq K] {cfg : Config Bytes T}

def start (cfg : Config Bytes T) (K : Type) : Connected cfg K :=
  ⟨.around (.init cfg Bytes), fun _ => .start, fun _ => none⟩

/-- A thread goes on. -/
def work (su : Setup) (s : Connected cfg K) (choice : Server.Choice T) :
    Option (Event T K × Connected cfg K) :=
  (s.server.next su choice).map fun x => (.work x.1, { s with server := x.2 })

/-- A connection does something by itself. -/
def alone (s : Connected cfg K) (k : K) (input : Connection.Input) :
    Option (Event T K × Connected cfg K) :=
  if (s.handling k).isNone then
    ((s.connection k).nextPatient input).map fun x =>
      (.alone k x.1, { s with connection := Function.update s.connection k x.2 })
  else none

def next (su : Setup) (files : Bytes → Option StaticFile) (s : Connected cfg K) :
    Choice T K → Option (Event T K × Connected cfg K)
  | .request k t req failures =>
    if (s.handling k).isNone && (s.connection k).takes true && (s.connection k).writing == 0 &&
        !req.isInvalidRequest && !req.upgrades && !req.expectsContinue then
      match incoming req failures with
      | some r =>
        (s.server.next su (.receive t r)).map fun x =>
          (.request k t req r,
            { s with server := x.2, handling := Function.update s.handling k (some (t, req)) })
      | none => none
    else none
  | .dispatch t => s.work su (.dispatch t)
  | .advance t fresh => s.work su (.advance t fresh)
  | .ret t => s.work su (.ret t)
  | .reply k w =>
    match s.handling k with
    | some (t, req) =>
      match s.server.task t with
      | .ended r outcome =>
        match su.handled files r (req.host.getD []) outcome with
        | some h =>
          ((s.connection k).nextPatient (.request true w req h)).map fun x =>
            (.reply k t r outcome x.1,
              ⟨s.server.setTask t .idle, Function.update s.connection k x.2,
                Function.update s.handling k none⟩)
        | none => none
      | _ => none
    | none => none
  | .refuse k w req =>
    if req.isInvalidRequest then s.alone k (.request true w req (.error 400)) else none
  | .written k => s.alone k .written

def Step (su : Setup) (files : Bytes → Option StaticFile) (s : Connected cfg K) (e : Event T K)
    (s' : Connected cfg K) : Prop :=
  ∃ c, s.next su files c = some (e, s')

end Next

namespace Event

def connection : Event T K → Option K
  | .request k _ _ _ | .reply k _ _ _ _ | .alone k _ => some k
  | .work _ => none

variable [DecidableEq K]

/-- The request that a connection has come to. -/
def asked (k : K) : Event T K → Option Crow.Request
  | .request k' _ req _ | .alone k' (.answer req _ _ _) => if k' = k then some req else none
  | _ => none

/-- The request that a connection answers, with what the server replies: 400 to an invalid one. -/
def answered (su : Setup) (files : Bytes → Option StaticFile) (k : K) :
    Event T K → Option (Crow.Request × Handled)
  | .reply k' _ r outcome (.answer req _ _ _) =>
    if k' = k then (su.handled files r (req.host.getD []) outcome).map fun h => (req, h) else none
  | .alone k' (.answer req _ _ _) => if k' = k then some (req, .error 400) else none
  | _ => none

end Event

/-! ## The outcomes of a step -/

section Inversion

variable [DecidableEq T] [DecidableEq K] {cfg : Config Bytes T} {su : Setup}
  {files : Bytes → Option StaticFile} {s s' : Connected cfg K} {e : Event T K}
  {es : List (Event T K)}

/-- A connection waits for the request that it comes to. -/
structure Ready (c : Connection) (req : Crow.Request) : Prop where
  takes : c.takes true = true
  written : c.writing = 0
  stays : req.upgrades = false
  noExpect : req.expectsContinue = false
  valid : req.isInvalidRequest = false

/-- What a step does. -/
inductive Moves (su : Setup) (files : Bytes → Option StaticFile) (s : Connected cfg K) :
    Event T K → Connected cfg K → Prop
  | request {k : K} {t : T} {req : Crow.Request} {r : Incoming} (hfree : s.handling k = none)
      (hof : r.Of req) (hready : Ready (s.connection k) req) (hidle : s.server.task t = .idle) :
      Moves su files s (.request k t req r)
        { s with
          server := s.server.setTask t (.begun r)
          handling := Function.update s.handling k (some (t, req)) }
  | work {e : Server.Event T} {server : State cfg} (hs : s.server.Step su e server)
      (hkept : ∀ u, (server.task u).request = (s.server.task u).request) :
      Moves su files s (.work e) { s with server := server }
  | reply {k : K} {t : T} {req : Crow.Request} {r : Incoming} {outcome : Outcome} {h : Handled}
      {called : Bool} {sent : Bytes} {c : Connection} (hhandling : s.handling k = some (t, req))
      (hended : s.server.task t = .ended r outcome)
      (hmade : su.handled files r (req.host.getD []) outcome = some h)
      (hs : (s.connection k).PatientStep (.answer req h called sent) c) :
      Moves su files s (.reply k t r outcome (.answer req h called sent))
        ⟨s.server.setTask t .idle, Function.update s.connection k c,
          Function.update s.handling k none⟩
  | refuse {k : K} {req : Crow.Request} {called : Bool} {sent : Bytes} {c : Connection}
      (hfree : s.handling k = none) (hinvalid : req.isInvalidRequest = true)
      (hs : (s.connection k).PatientStep (.answer req (.error 400) called sent) c) :
      Moves su files s (.alone k (.answer req (.error 400) called sent))
        { s with connection := Function.update s.connection k c }
  | written {k : K} {c : Connection} (hfree : s.handling k = none)
      (hs : (s.connection k).PatientStep .written c) :
      Moves su files s (.alone k .written)
        { s with connection := Function.update s.connection k c }

omit [DecidableEq K] in
/-- Only receiving and replying change whose requests are handled. -/
theorem request_of_moves {m m' : State cfg} {x : Server.Event T} (h : Server.Moves su m x m')
    (hreceive : ∀ t r, x ≠ .receive t r) (hreply : ∀ t r outcome, x ≠ .reply t r outcome) (u : T) :
    (m'.task u).request = (m.task u).request := by
  have hupdate : ∀ {t : T} {task : Task Incoming Outcome}, task.request = (m.task t).request →
      (Function.update m.task t task u).request = (m.task u).request := by
    intro t task htask
    by_cases hut : u = t
    · subst hut
      rw [Function.update_self, htask]
    · rw [Function.update_of_ne hut]
  cases h with
  | receive _ => exact absurd rfl (hreceive _ _)
  | settle hbegun _ => exact hupdate (by rw [hbegun]; rfl)
  | call hbegun _ _ => exact hupdate (by rw [hbegun]; rfl)
  | advance _ _ _ _ => rfl
  | ret hcalling _ _ => exact hupdate (by rw [hcalling]; rfl)
  | reply _ => exact absurd rfl (hreply _ _ _)

theorem moves_of_work {choice : Server.Choice T} (h : s.work su choice = some (e, s'))
    (hreceive : ∀ t r, choice ≠ .receive t r) (hreply : ∀ t, choice ≠ .reply t) :
    Moves su files s e s' := by
  obtain ⟨⟨x, server⟩, hx, heq⟩ := Option.map_eq_some_iff.mp h
  cases heq
  have hother : (∀ t r, x ≠ .receive t r) ∧ ∀ t r outcome, x ≠ .reply t r outcome := by
    cases choice with
    | receive t r => exact absurd rfl (hreceive t r)
    | dispatch t =>
      simp only [State.next] at hx
      split at hx
      · split at hx
        · cases hx
        · cases hx
          exact ⟨by simp, by simp⟩
        · obtain ⟨y, -, heq⟩ := Option.map_eq_some_iff.mp hx
          cases heq
          exact ⟨by simp, by simp⟩
      · cases hx
    | advance t fresh =>
      simp only [State.next] at hx
      split at hx
      · obtain ⟨y, -, heq⟩ := Option.map_eq_some_iff.mp hx
        cases heq
        exact ⟨by simp, by simp⟩
      · cases hx
    | ret t =>
      simp only [State.next] at hx
      split at hx
      · split at hx
        · obtain ⟨y, -, heq⟩ := Option.map_eq_some_iff.mp hx
          cases heq
          exact ⟨by simp, by simp⟩
        · cases hx
      · cases hx
    | reply t => exact absurd rfl (hreply t)
  have hs : s.server.Step su x server := ⟨choice, hx⟩
  exact .work hs (request_of_moves (moves_of_step hs) hother.1 hother.2)

theorem moves_of_step (h : Step su files s e s') : Moves su files s e s' := by
  obtain ⟨choice, hnext⟩ := h
  cases choice with
  | request k t req failures =>
    simp only [next] at hnext
    split at hnext
    · next hguard =>
      simp only [Bool.and_eq_true, Bool.not_eq_true', Option.isNone_iff_eq_none, beq_iff_eq] at hguard
      obtain ⟨⟨⟨⟨⟨hfree, htakes⟩, hzero⟩, hvalid⟩, hstays⟩, hexpect⟩ := hguard
      split at hnext
      · next r hr =>
        obtain ⟨⟨x, server⟩, hx, heq⟩ := Option.map_eq_some_iff.mp hnext
        cases heq
        rw [State.next] at hx
        split at hx
        · next hidle =>
          cases hx
          exact .request hfree (of_incoming hr) ⟨htakes, hzero, hstays, hexpect, hvalid⟩ hidle
        · cases hx
      · cases hnext
    · cases hnext
  | dispatch t => exact moves_of_work hnext (by simp) (by simp)
  | advance t fresh => exact moves_of_work hnext (by simp) (by simp)
  | ret t => exact moves_of_work hnext (by simp) (by simp)
  | reply k w =>
    simp only [next] at hnext
    split at hnext
    · next t req hhandling =>
      split at hnext
      · next r outcome hended =>
        split at hnext
        · next h hmade =>
          obtain ⟨⟨x, c⟩, hx, heq⟩ := Option.map_eq_some_iff.mp hnext
          cases heq
          obtain ⟨-, -, -, rfl⟩ := Connection.answer_of_patient hx
          exact .reply hhandling hended hmade ⟨_, hx⟩
        · cases hnext
      · cases hnext
    · cases hnext
  | refuse k w req =>
    simp only [next, alone] at hnext
    split at hnext
    · next hinvalid =>
      split at hnext
      · next hfree =>
        obtain ⟨⟨x, c⟩, hx, heq⟩ := Option.map_eq_some_iff.mp hnext
        cases heq
        obtain ⟨-, -, -, rfl⟩ := Connection.answer_of_patient hx
        exact .refuse (Option.isNone_iff_eq_none.mp hfree) hinvalid ⟨_, hx⟩
      · cases hnext
    · cases hnext
  | written k =>
    simp only [next, alone] at hnext
    split at hnext
    · next hfree =>
      obtain ⟨⟨x, c⟩, hx, heq⟩ := Option.map_eq_some_iff.mp hnext
      cases heq
      obtain rfl := Connection.written_of_patient hx
      exact .written (Option.isNone_iff_eq_none.mp hfree) ⟨_, hx⟩
    · cases hnext

/-! ## What holds of a run -/

/-- A thread handles the request that its connection has last come to: nothing has happened on the
connection since. -/
structure Handles (es : List (Event T K)) (s : Connected cfg K) (k : K) (t : T)
    (req : Crow.Request) : Prop where
  own : ∃ before r between, es = before ++ .request k t req r :: between ∧
    (∀ e ∈ between, e.connection ≠ some k) ∧ r.Of req ∧ (s.server.task t).request = some r
  ready : Ready (s.connection k) req

/-- What holds of every run: the requests under way, each with a thread of its own, and behind the
answered ones. -/
structure Joined (su : Setup) (files : Bytes → Option StaticFile) (es : List (Event T K))
    (s : Connected cfg K) : Prop where
  handles : ∀ k t req, s.handling k = some (t, req) → Handles es s k t req
  one : ∀ k k' t req req', s.handling k = some (t, req) → s.handling k' = some (t, req') → k = k'
  order : ∀ k, es.filterMap (Event.asked k) =
    (es.filterMap (Event.answered su files k)).map Prod.fst ++ (s.handling k).toList.map Prod.snd
  quiet : ∀ k, (s.connection k).continued = false

omit [DecidableEq T] [DecidableEq K] in
/-- What happens elsewhere leaves the request of a connection alone. -/
theorem Handles.step {k : K} {t : T} {req : Crow.Request} (hp : Handles es s k t req)
    (hconnection : e.connection ≠ some k) (hsame : s'.connection k = s.connection k)
    (htask : (s'.server.task t).request = (s.server.task t).request) :
    Handles (es ++ [e]) s' k t req := by
  obtain ⟨⟨before, r, between, rfl, hbetween, hof, htaken⟩, hready⟩ := hp
  refine ⟨⟨before, r, between ++ [e], by simp, fun x hx => ?_, hof, htask.trans htaken⟩,
    hsame ▸ hready⟩
  rcases List.mem_append.mp hx with hx | hx
  · exact hbetween x hx
  · rwa [List.mem_singleton.mp hx]

omit [DecidableEq T] in
/-- The orders agree when they have grown alike. -/
theorem Joined.grow (hp : Joined su files es s) (k : K)
    (hgrown : ((s.handling k).toList.map Prod.snd) ++ (e.asked k).toList =
      ((e.answered su files k).toList.map Prod.fst) ++ (s'.handling k).toList.map Prod.snd) :
    (es ++ [e]).filterMap (Event.asked k) =
      ((es ++ [e]).filterMap (Event.answered su files k)).map Prod.fst ++
        (s'.handling k).toList.map Prod.snd := by
  have hlast : ∀ {A : Type} (f : Event T K → Option A), [e].filterMap f = (f e).toList := by
    intro A f
    cases hf : f e <;> simp [hf]
  simp only [List.filterMap_append, hlast, List.map_append, List.append_assoc, hp.order k, hgrown]

omit [DecidableEq T] in
theorem quiet_update (hquiet : ∀ k, (s.connection k).continued = false) {k : K}
    {x : Connection.Event} {c : Connection} (hs : (s.connection k).PatientStep x c) (k' : K) :
    (Function.update s.connection k c k').continued = false := by
  by_cases hk : k' = k
  · subst hk
    rw [Function.update_self]
    exact Connection.continued_of_patient hs (hquiet k')
  · rw [Function.update_of_ne hk]
    exact hquiet k'

/-- A thread takes a request. -/
theorem Joined.request (hp : Joined su files es s) {k : K} {t : T} {req : Crow.Request}
    {r : Incoming} (hfree : s.handling k = none) (hof : r.Of req)
    (hready : Ready (s.connection k) req) (hidle : s.server.task t = .idle) :
    Joined su files (es ++ [.request k t req r])
      { s with
        server := s.server.setTask t (.begun r)
        handling := Function.update s.handling k (some (t, req)) } := by
  have hfresh : ∀ k' t' req', s.handling k' = some (t', req') → t' ≠ t := by
    rintro k' t' req' hhandling rfl
    obtain ⟨before, r', between, -, -, -, htaken⟩ := (hp.handles k' t' req' hhandling).own
    rw [hidle] at htaken
    cases htaken
  have hcases : ∀ k' t' req', Function.update s.handling k (some (t, req)) k' = some (t', req') →
      (k' = k ∧ t' = t ∧ req' = req) ∨ k' ≠ k ∧ s.handling k' = some (t', req') := by
    intro k' t' req' hnew
    by_cases hk : k' = k
    · subst hk
      obtain ⟨rfl, rfl⟩ : t = t' ∧ req = req' := by simpa using hnew
      exact .inl ⟨rfl, rfl, rfl⟩
    · exact .inr ⟨hk, by simpa [hk] using hnew⟩
  refine ⟨fun k' t' req' hnew => ?_, fun k₁ k₂ t' req₁ req₂ h₁ h₂ => ?_, fun k' => hp.grow k' ?_,
    hp.quiet⟩
  · obtain ⟨rfl, rfl, rfl⟩ | ⟨hk, hold⟩ := hcases k' t' req' hnew
    · refine ⟨⟨es, r, [], rfl, fun _ hx => (by cases hx), hof, ?_⟩, hready⟩
      simp [State.setTask, Task.request]
    · refine (hp.handles k' t' req' hold).step (fun heq => hk (Option.some.inj heq).symm) rfl ?_
      simp [State.setTask, hfresh k' t' req' hold]
  · obtain ⟨rfl, rfl, -⟩ | ⟨-, hold₁⟩ := hcases k₁ t' req₁ h₁
    · obtain ⟨rfl, -⟩ | ⟨-, hold₂⟩ := hcases k₂ t' req₂ h₂
      · rfl
      · exact absurd rfl (hfresh _ _ _ hold₂)
    · obtain ⟨-, rfl, -⟩ | ⟨-, hold₂⟩ := hcases k₂ t' req₂ h₂
      · exact absurd rfl (hfresh _ _ _ hold₁)
      · exact hp.one k₁ k₂ t' req₁ req₂ hold₁ hold₂
  · by_cases hk : k = k'
    · subst hk
      simp [Event.asked, Event.answered, hfree]
    · simp [Event.asked, Event.answered, hk, Ne.symm hk]

/-- The thread of a connection replies on it. -/
theorem Joined.reply (hp : Joined su files es s) {k : K} {t : T} {req : Crow.Request}
    {r : Incoming} {outcome : Outcome} {h : Handled} {called : Bool} {sent : Bytes} {c : Connection}
    (hhandling : s.handling k = some (t, req))
    (hmade : su.handled files r (req.host.getD []) outcome = some h)
    (hs : (s.connection k).PatientStep (.answer req h called sent) c) :
    Joined su files (es ++ [.reply k t r outcome (.answer req h called sent)])
      ⟨s.server.setTask t .idle, Function.update s.connection k c,
        Function.update s.handling k none⟩ := by
  have hother : ∀ k' t' req', Function.update s.handling k none k' = some (t', req') →
      k' ≠ k ∧ s.handling k' = some (t', req') := by
    intro k' t' req' hnew
    by_cases hk : k' = k
    · subst hk
      simp at hnew
    · exact ⟨hk, by simpa [hk] using hnew⟩
  refine ⟨fun k' t' req' hnew => ?_, fun k₁ k₂ t' req₁ req₂ h₁ h₂ => ?_, fun k' => hp.grow k' ?_,
    quiet_update hp.quiet hs⟩
  · obtain ⟨hk, hold⟩ := hother k' t' req' hnew
    refine (hp.handles k' t' req' hold).step (fun heq => hk (Option.some.inj heq).symm)
      (Function.update_of_ne hk ..) ?_
    have ht : t' ≠ t := by
      rintro rfl
      exact hk (hp.one k' k t' req' req hold hhandling)
    simp [State.setTask, ht]
  · exact hp.one k₁ k₂ t' req₁ req₂ (hother _ _ _ h₁).2 (hother _ _ _ h₂).2
  · by_cases hk : k = k'
    · subst hk
      simp [Event.asked, Event.answered, hhandling, hmade]
    · simp [Event.asked, Event.answered, hk, Ne.symm hk]

omit [DecidableEq T] in
/-- A connection does something by itself. -/
theorem Joined.alone (hp : Joined su files es s) {k : K} {x : Connection.Event} {c : Connection}
    (hfree : s.handling k = none) (hs : (s.connection k).PatientStep x c) :
    Joined su files (es ++ [.alone k x])
      { s with connection := Function.update s.connection k c } := by
  refine ⟨fun k' t' req' hold => ?_, hp.one, fun k' => hp.grow k' ?_, quiet_update hp.quiet hs⟩
  · have hk : k' ≠ k := by
      rintro rfl
      simp [hfree] at hold
    exact (hp.handles k' t' req' hold).step (fun heq => hk (Option.some.inj heq).symm)
      (Function.update_of_ne hk ..) rfl
  · by_cases hk : k = k'
    · subst hk
      cases x <;> simp [Event.asked, Event.answered, hfree]
    · cases x <;> simp [Event.asked, Event.answered, hk]

theorem Joined.step (hp : Joined su files es s) (h : Moves su files s e s') :
    Joined su files (es ++ [e]) s' := by
  cases h with
  | request hfree hof hready hidle => exact hp.request hfree hof hready hidle
  | work hs hkept =>
    refine ⟨fun k t req hhandling => ?_, hp.one, fun k => hp.grow k ?_, hp.quiet⟩
    · exact (hp.handles k t req hhandling).step (by simp [Event.connection]) rfl (hkept t)
    · simp [Event.asked, Event.answered]
  | reply hhandling _ hmade hs => exact hp.reply hhandling hmade hs
  | refuse hfree _ hs => exact hp.alone hfree hs
  | written hfree hs => exact hp.alone hfree hs

end Inversion

/-! ## A run -/

end Connected

end LockFreeKV.Server
