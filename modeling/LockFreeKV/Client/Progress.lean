import LockFreeKV.Client.Handling
import LockFreeKV.Engine.Progress

/-!
# The server among its clients

Seen from the engine, a run of clients and server is a run of calls, atomic steps and
returns, so what holds of every run of the engine holds of the server's. No handler is
ever stuck: the decoder stays inside the name, the engine call goes on, and its result is
one that the handler can answer with.
-/
namespace LockFreeKV.Client

open LockFreeKV.Lib LockFreeKV.Engine LockFreeKV.Http

variable {P T : Type} [DecidableEq T] {cfg : Config Bytes T} {R : Rapidjson}
  {s₀ s s' : State P cfg} {es : List (Label P T)} {l : Label P T} {t : T}

/-- What a step does to the engine. -/
theorem Moves.engine (hm : Moves R s l s') : (engineEvent l = none ∧ s'.engine = s.engine) ∨
    ∃ e, engineEvent l = some e ∧ s.engine.Step e s'.engine := by
  cases hm with
  | outside hlabel => rcases hlabel with rfl | ⟨m, rfl⟩ <;> exact .inl ⟨rfl, rfl⟩
  | received => exact .inl ⟨rfl, rfl⟩
  | @called t message failures op hworker hpc =>
    exact .inr ⟨_, rfl, .call t (.kv op), by simp [Engine.State.next, hpc]⟩
  | advanced hworker hadv hstep => exact .inr ⟨_, rfl, hstep⟩
  | @returned t message failures op o res reply hworker hpc hreply =>
    exact .inr ⟨_, rfl, .ret t, by simp [Engine.State.next, hpc]⟩
  | replied => exact .inl ⟨rfl, rfl⟩
  | answered => exact .inl ⟨rfl, rfl⟩

variable [DecidableEq P]

/-- **The server runs the engine.** -/
theorem engine_run (hrun : Run (State.Step R) s₀ es s) :
    Run Engine.State.Step s₀.engine (es.filterMap engineEvent) s.engine := by
  have hstep : ∀ (m : State P cfg) e l m', m.engine = e → m.Step R l m' → ∃ e', m'.engine = e' ∧
      ((engineEvent l = none ∧ e' = e) ∨ ∃ f, engineEvent l = some f ∧ e.Step f e') := by
    rintro m _ l m' rfl hs
    exact ⟨m'.engine, rfl, (State.moves_of_step hs).engine⟩
  obtain ⟨_, hengine, rfl⟩ := hrun.simulate (fun m e => m.engine = e) engineEvent hstep rfl
  exact hengine

theorem engine_reachable (hstart : s₀.Start) (hrun : Run (State.Step R) s₀ es s) :
    ∃ es', Run Engine.State.Step (Engine.State.init cfg Bytes) es' s.engine := by
  obtain ⟨es₀, h₀⟩ := hstart.engine
  exact ⟨_, h₀.append (engine_run hrun)⟩

theorem finish_of_fits {op : KvOp Bytes Bytes} {res : KvRes Bytes} (hfits : op.Fits res)
    (failures : FailPoint → Bool) : ∃ reply, finish failures (.kv op) (.kv res) = some reply := by
  cases op with
  | get key =>
    obtain ⟨r, rfl⟩ := hfits
    exact ⟨_, rfl⟩
  | set key value =>
    obtain rfl := hfits
    exact ⟨_, rfl⟩

theorem step_of_next {c : Choice P T} (hnext : (s.next R c).map Prod.fst = some l) :
    ∃ s', s.Step R l s' := by
  obtain ⟨⟨_, s'⟩, hs, rfl⟩ := Option.map_eq_some_iff.mp hnext
  exact ⟨s', c, hs⟩

/-- **No handler is stuck.** -/
theorem handler_can_step (hstart : s₀.Start) (hrun : Run (State.Step R) s₀ es s)
    (hbusy : s.worker t ≠ .free) : ∃ l : Label P T, l.actor = some t ∧ ∃ s', s.Step R l s' := by
  obtain ⟨es', hengine⟩ := engine_reachable hstart hrun
  obtain ⟨c, hi⟩ := inv_of_run hengine
  have hok := (good_of_run hstart hrun).workers t
  cases hworker : s.worker t with
  | free => exact absurd hworker hbusy
  | replying message failures reply =>
    refine ⟨.replied t message failures reply, rfl, step_of_next (c := .reply t) ?_⟩
    simp [State.next, hworker]
  | calling message failures op =>
    rw [hworker] at hok
    cases hpc : s.engine.pc t with
    | idle =>
      refine ⟨.engine t message (.call (.kv op)), rfl, step_of_next (c := .call t) ?_⟩
      simp [State.next, hworker, Engine.State.next, hpc]
    | returned o res =>
      rw [hpc] at hok
      have hdone : ∃ r, (Pc.returned o res).status = .done op r := by
        rcases hok.2 with hidle | hpend | hdone
        · cases hidle
        · exact absurd rfl (Pc.not_returned hpend o res)
        · exact hdone
      obtain ⟨r, hr⟩ := hdone
      obtain ⟨rfl, rfl⟩ := Pc.status_returned hr
      obtain ⟨reply, hreply⟩ := finish_of_fits (fits_of_run hengine (hpc ▸ hr)) failures
      refine ⟨.engine t message (.ret (.kv op) (.kv r)), rfl, step_of_next (c := .ret t) ?_⟩
      simp [State.next, hworker, Engine.State.next, hpc, hreply]
    | _ =>
      obtain ⟨n, hn⟩ := hasFree_of_run hengine
      obtain ⟨r, hr⟩ := Option.isSome_iff_exists.mp
        (hi.enabled (t := t) (by simp [hpc, Pc.finished]) (hn n (Nat.le_refl n)))
      refine ⟨.engine t message r.1, rfl, step_of_next (c := .advance t n) ?_⟩
      simp [State.next, hworker, Engine.State.next, hr]

/-- A free thread can take any message that has arrived, whatever its handler will meet. -/
theorem message_can_be_received (hfree : s.worker t = .free) {message : Message P}
    (hmem : message ∈ s.inbox) (failures : FailPoint → Bool) :
    ∃ s', s.Step R (.received t message failures) s' := by
  obtain ⟨i, hi⟩ := List.mem_iff_getElem?.mp hmem
  obtain ⟨stage, hstage, -⟩ :=
    Draw.exists_stage (d := message.draw) message.newValue failures R
  refine step_of_next (c := .receive t i failures) ?_
  simp [State.next, hfree, hi, hstage]

end LockFreeKV.Client
