import LockFreeKV.Engine.Sequential

/-!
# A thread that calls alone

While no other thread is there, as before the server starts and after it has stopped, the
calls of one thread are the member functions of `DataEngine`, one after another.
-/
namespace LockFreeKV.Engine

open LockFreeKV.Lib

variable {K V T : Type} [DecidableEq K] [DecidableEq T] {cfg : Config K T} {s s' : State cfg V}
  {t : T}

/-- A call of `op` that nothing interrupts, its new nodes at `fresh`. -/
def State.callAlone (s : State cfg V) (t : T) (op : Op K V) (fresh : List Addr) :
    Option (Result K V × State cfg V) :=
  match execute State.next s (.call t op :: fresh.map (.advance t)) with
  | none => none
  | some (_, m) =>
    match m.pc t with
    | .returned _ res => some (res, m.setPc t .idle)
    | _ => none

/-- Several calls, one after another. -/
inductive CallsAlone (t : T) : State cfg V → List (Op K V) → List (Result K V) → State cfg V → Prop
  | nil (s : State cfg V) : CallsAlone t s [] [] s
  | cons {s m s' : State cfg V} {op : Op K V} {res : Result K V} {ops : List (Op K V)}
      {results : List (Result K V)} {fresh : List Addr} (h : s.callAlone t op fresh = some (res, m))
      (hrest : CallsAlone t m ops results s') : CallsAlone t s (op :: ops) (res :: results) s'

/-- The member functions, one after another. -/
def DataEngine.calls {h : Hashing K} (e : DataEngine h V) :
    List (Op K V) → List (Result K V) × DataEngine h V
  | [] => ([], e)
  | op :: ops =>
    ((e.call op).1 :: ((e.call op).2.calls ops).1, ((e.call op).2.calls ops).2)

theorem DataEngine.calls_set {h : Hashing K} (e : DataEngine h V) (records : List (K × V)) :
    (e.calls (records.map fun r => .kv (.set r.1 r.2))).2 = e.setAll records := by
  induction records generalizing e with
  | nil => rfl
  | cons r records ih => exact ih (e.set r.1 r.2)

/-- The atomic steps of one thread, and what they leave alone. -/
theorem advances_alone {fresh : List Addr} {es : List (Event T K V)}
    (h : execute State.next s (fresh.map (.advance t)) = some (es, s')) :
    Run State.Step s es s' ∧ (∀ x ∈ es, x.1 = t ∧ ∀ o r, x.2 ≠ .ret o r) ∧
      ∀ u, u ≠ t → s'.pc u = s.pc u := by
  induction fresh generalizing s es with
  | nil =>
    obtain ⟨rfl, rfl⟩ : [] = es ∧ s = s' := by simpa [execute] using h
    exact ⟨.nil, by simp, fun _ _ => rfl⟩
  | cons a fresh ih =>
    rw [List.map_cons, execute] at h
    split at h
    · cases h
    · next e m hnext =>
      obtain ⟨⟨es', s''⟩, hrest, heq⟩ := Option.map_eq_some_iff.mp h
      obtain ⟨rfl, rfl⟩ : e :: es' = es ∧ s'' = s' := by simpa using heq
      obtain ⟨⟨b, mem, pc⟩, hadv, hstep⟩ := Option.map_eq_some_iff.mp hnext
      obtain ⟨rfl, rfl⟩ : (t, b) = e ∧ (⟨mem, Function.update s.pc t pc⟩ : State cfg V) = m := by
        simpa using hstep
      obtain ⟨hrun, hbody, hpcs⟩ := ih hrest
      refine ⟨.cons ⟨_, hnext⟩ hrun, fun x hx => ?_, fun u hu => ?_⟩
      · obtain rfl | hx := List.mem_cons.mp hx
        · exact ⟨rfl, (advance_sound hadv).inside.2⟩
        · exact hbody x hx
      · rw [hpcs u hu]
        exact Function.update_of_ne hu _ _

/-- A call that nothing interrupts, as a run. -/
theorem run_of_callAlone {op : Op K V} {res : Result K V} {fresh : List Addr}
    (h : s.callAlone t op fresh = some (res, s')) :
    ∃ op' body, Run State.Step s ((t, .call op) :: (body ++ [(t, .ret op' res)])) s' ∧
      (∀ x ∈ body, x.1 = t ∧ ∀ o r, x.2 ≠ .ret o r) ∧
      ((∀ u, s.pc u = .idle) → ∀ u, s'.pc u = .idle) := by
  unfold State.callAlone at h
  split at h
  · cases h
  · next es m hexec =>
    split at h
    · next op' res' hpc =>
      obtain ⟨rfl, rfl⟩ : res' = res ∧ m.setPc t .idle = s' := by simpa using h
      rw [execute] at hexec
      split at hexec
      · cases hexec
      · next e m₁ hcall =>
        obtain ⟨⟨body, m₂⟩, hrest, heq⟩ := Option.map_eq_some_iff.mp hexec
        obtain ⟨rfl, rfl⟩ : e :: body = es ∧ m₂ = m := by simpa using heq
        obtain ⟨hrun, hbody, hpcs⟩ := advances_alone hrest
        obtain rfl : e = (t, .call op) := by
          rw [State.next] at hcall
          split at hcall <;> cases hcall
          rfl
        obtain ⟨hidle, rfl⟩ := State.step_call ⟨_, hcall⟩
        have hret : m₂.Step (t, .ret op' res') (m₂.setPc t .idle) :=
          ⟨.ret t, by rw [State.next, hpc]⟩
        refine ⟨op', body, .cons ⟨_, hcall⟩ (hrun.snoc hret), hbody, fun hall u => ?_⟩
        by_cases hu : u = t
        · simp [State.setPc, hu]
        · have hsame := hpcs u hu
          simp only [State.setPc, Function.update_of_ne hu] at hsame ⊢
          rw [hsame]
          exact hall u
    · cases h

variable {c : Chains cfg.toHashing} {e : DataEngine cfg.toHashing V}

/-- **The calls of one thread** are the member functions, one after another, and leave all
threads as idle as they were. -/
theorem calls_alone (hi : Inv s c) (hv : Views s.mem c e) {ops : List (Op K V)}
    {results : List (Result K V)} (h : CallsAlone t s ops results s') :
    results = (e.calls ops).1 ∧ (∃ c', Inv s' c' ∧ Views s'.mem c' (e.calls ops).2) ∧
      ((∀ u, s.pc u = .idle) → ∀ u, s'.pc u = .idle) := by
  induction h generalizing c e with
  | nil s => exact ⟨rfl, ⟨c, hi, hv⟩, id⟩
  | cons hcall hrest ih =>
    obtain ⟨op', body, hrun, hbody, hidle⟩ := run_of_callAlone hcall
    obtain ⟨-, rfl, c', hi', hv'⟩ := sequential hi hv hrun hbody
    obtain ⟨rfl, hc'', hidle'⟩ := ih hi' hv'
    exact ⟨rfl, hc'', fun hall => hidle' (hidle hall)⟩

end LockFreeKV.Engine
