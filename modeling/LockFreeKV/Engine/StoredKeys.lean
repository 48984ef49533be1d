import LockFreeKV.Engine.Linearizability
import LockFreeKV.Engine.Statistics

/-!
# Which keys are stored

A key is stored from the first `set` of it that takes effect, and for good. A `get`
misses exactly if its key is not stored when it takes effect.
-/
namespace LockFreeKV.Engine

open LockFreeKV.Lib

variable {K V T : Type}

/-- The key has a value. -/
def State.Stored {cfg : Config K T} (s : State cfg V) (key : K) : Prop := ∃ value, s.Holds key value

/-- The operation is a `set` of the key. -/
def KvOp.Sets (key : K) : KvOp K V → Prop
  | .get _ => False
  | .set k _ => k = key

/-- What a `get` answers when its key is stored or not. -/
def KvOp.Answers (stored : K → Prop) : KvOp K V → KvRes V → Prop
  | .get key, res => ∃ r, res = .found r ∧ (r = none ↔ ¬ stored key)
  | .set _ _, res => res = .stored

/-- A `get` answers with an optional value, a `set` with nothing. -/
def KvOp.Fits : KvOp K V → KvRes V → Prop
  | .get _, res => ∃ r, res = .found r
  | .set _ _, res => res = .stored

theorem KvOp.Answers.fits {stored : K → Prop} {op : KvOp K V} {res : KvRes V}
    (h : op.Answers stored res) : op.Fits res := by
  cases op with
  | get key =>
    obtain ⟨r, hr, -⟩ := h
    exact ⟨r, hr⟩
  | set key value => exact h

theorem Pc.status_returned {op : Op K V} {res : Result K V} {o : KvOp K V} {r : KvRes V}
    (h : (Pc.returned op res).status = .done o r) : op = .kv o ∧ res = .kv r := by
  cases op with
  | kv op =>
    cases res with
    | kv res =>
      obtain ⟨rfl, rfl⟩ := Status.done.inj h
      exact ⟨rfl, rfl⟩
    | _ => cases h
  | _ => cases h

/-- A call that has no result yet has not returned. -/
theorem Pc.not_returned {pc : Pc K V} {o : KvOp K V} (h : pc.status = .pending o) (op : Op K V)
    (res : Result K V) : pc ≠ .returned op res := by
  rintro rfl
  cases op with
  | kv op => cases res <;> cases h
  | _ => cases h

section Atomic

variable [DecidableEq K] {cfg : Config K T} {s : State cfg V} {c : Chains cfg.toHashing} {t : T}
  {tab : Table cfg.toHashing V}

theorem Inv.stored_iff (hi : Inv s c) (hr : Represents s.mem c tab) (key : K) :
    s.Stored key ↔ tab.toMap key ≠ none := by
  rw [Option.ne_none_iff_exists']
  exact exists_congr fun value => hi.holds_iff hr

omit [DecidableEq K] in
theorem Advance.callEvent {h : Hashing K} {m m' : Memory h V} {allocator : HeapID} {a : Act K V}
    {pc pc' : Pc K V} (hs : Advance m allocator pc a m' pc') :
    callEvent (t, a) = if a.takesEffect then some (.effect t) else none := by
  cases hs <;> rfl

/-- An operation of the table stores the key of a `set`, and answers by the keys stored before. -/
theorem tableSpec_stored (op : KvOp K V) (tab : Table cfg.toHashing V) :
    (∀ key, ((tableSpec cfg.toHashing V).apply op tab).1.toMap key ≠ none ↔
      op.Sets key ∨ tab.toMap key ≠ none) ∧
    op.Answers (fun key => tab.toMap key ≠ none) ((tableSpec cfg.toHashing V).apply op tab).2 := by
  cases op with
  | get key => exact ⟨fun k => by simp [tableSpec, KvOp.Sets], _, rfl, by simp⟩
  | set key value =>
    refine ⟨fun k => ?_, rfl⟩
    by_cases hk : k = key
    · subst hk
      simp [tableSpec, KvOp.Sets, Table.toMap_set]
    · simp [tableSpec, KvOp.Sets, Table.toMap_set, hk, Ne.symm hk]

variable [DecidableEq T]

/-- An atomic step changes the stored keys, and its call's result, only if the call takes effect. -/
theorem Inv.stored_atomic (hi : Inv s c) {a : Act K V} {m' : Memory cfg.toHashing V} {pc' : Pc K V}
    (hs : Advance s.mem (cfg.heapId t) (s.pc t) a m' pc') :
    (a.takesEffect = false ∧ pc'.status = (s.pc t).status ∧
      ∀ key, (⟨m', Function.update s.pc t pc'⟩ : State cfg V).Stored key ↔ s.Stored key) ∨
    ∃ op res, a.takesEffect = true ∧ (s.pc t).status = .pending op ∧ pc'.status = .done op res ∧
      (∀ key, (⟨m', Function.update s.pc t pc'⟩ : State cfg V).Stored key ↔
        op.Sets key ∨ s.Stored key) ∧
      op.Answers s.Stored res := by
  obtain ⟨tab, hr⟩ := hi.table.represents
  have hr' := hi.represents_atomic hr hs
  have hi' := hi.atomic hs
  have hev := hs.callEvent (t := t)
  obtain ⟨hnone, heff, hstat⟩ | ⟨op, hsome, heff, hpend, hdone⟩ := hi.status_atomic hr hs
  · rw [hnone] at hev
    rw [heff] at hr'
    refine .inl ⟨by simpa using hev, hstat, fun key => ?_⟩
    rw [hi.stored_iff hr, hi'.stored_iff hr', Table.effect]
  · rw [hsome] at hev
    rw [heff] at hr'
    obtain ⟨hstores, hanswers⟩ := tableSpec_stored op tab
    refine .inr ⟨op, _, by simpa using hev, hpend, hdone, fun key => ?_, ?_⟩
    · rw [hi.stored_iff hr, hi'.stored_iff hr', Table.effect, hstores]
    · have hsame : s.Stored = fun key => tab.toMap key ≠ none :=
        funext fun key => propext (hi.stored_iff hr key)
      rwa [hsame]

/-- Every result fits its operation. -/
theorem fits_of_run {es : List (Event T K V)} (hrun : Run State.Step (State.init cfg V) es s)
    {op : KvOp K V} {res : KvRes V} (hdone : (s.pc t).status = .done op res) : op.Fits res := by
  have hinv := hrun.invariant
    (fun _ m => (∃ c, Inv m c) ∧ ∀ u o r, (m.pc u).status = .done o r → KvOp.Fits o r)
    ⟨⟨_, .init cfg V⟩, fun u o r h => by cases h⟩ ?_
  · exact hinv.2 t op res hdone
  rintro _ m e m' ⟨⟨c, hi⟩, hfits⟩ hs
  refine ⟨⟨_, hi.step hs⟩, fun u o r hu => ?_⟩
  obtain ⟨v, op', hpc, rfl, rfl⟩ | ⟨v, op', res', hpc, rfl, rfl⟩ | ⟨v, a, m₁, pc', hadv, rfl, rfl⟩ :=
    State.step_cases hs
  · by_cases huv : u = v
    · subst huv
      simp only [State.setPc, Function.update_self, Op.start_status] at hu
      cases op' <;> cases hu
    · exact hfits u o r (by simpa [State.setPc, huv] using hu)
  · by_cases huv : u = v
    · subst huv
      simp only [State.setPc, Function.update_self] at hu
      cases hu
    · exact hfits u o r (by simpa [State.setPc, huv] using hu)
  · by_cases huv : u = v
    · subst huv
      simp only [Function.update_self] at hu
      obtain ⟨-, hstat, -⟩ | ⟨o', r', -, -, hdone', -, hanswers⟩ := hi.stored_atomic hadv
      · exact hfits u o r (hstat.symm.trans hu)
      · obtain ⟨rfl, rfl⟩ := Status.done.inj (hdone'.symm.trans hu)
        exact hanswers.fits
    · exact hfits u o r (by simpa [huv] using hu)

end Atomic

end LockFreeKV.Engine
