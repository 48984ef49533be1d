import LockFreeKV.Engine.Records

/-!
# Linearizability

The events of every run project to a run of an atomic object. The projection
keeps the calls and returns of `get` and `set` and marks where each takes effect:
a `set` at its successful compare-and-swap or at its store of the value pointer,
a successful `get` at its load of the value pointer, a failing one at the load
that returned null. The object is the table, and through it the key-to-value map.
-/
namespace LockFreeKV.Engine

open LockFreeKV.Lib

variable {K V T : Type}

/-- The atomic operations at which a `get` or `set` takes effect. -/
def Act.takesEffect : Act K V → Bool
  | .casHead exchanged => exchanged
  | .casNext exchanged => exchanged
  | .storeValue => true
  | .getHead node => node.isNone
  | .getNext node => node.isNone
  | .getValue => true
  | _ => false

/-- The events of the atomic object: calls, effects and returns of `get` and `set`. -/
def callEvent : Event T K V → Option (CallEvent T (KvOp K V) (KvRes V))
  | (t, .call (.kv op)) => some (.invoke t op)
  | (t, .ret (.kv op) (.kv res)) => some (.respond t op res)
  | (t, a) => if a.takesEffect then some (.effect t) else none

/-- Where the thread's `get` or `set` stands as an operation of the atomic object. -/
def Pc.status : Pc K V → Status (KvOp K V) (KvRes V)
  | .get key .countFailed => .done (.get key) (.found none)
  | .get key _ => .pending (.get key)
  | .set key value (.destroy _) => .done (.set key value) .stored
  | .set key value _ => .pending (.set key value)
  | .returned (.kv op) (.kv res) => .done op res
  | _ => .idle

/-- The engine's current value of a key: what a node with the key holds that is
reached from the key's bucket. -/
def State.Holds {cfg : Config K T} (s : State cfg V) (key : K) (value : V) : Prop :=
  ∃ l node nd, Linked s.mem.nextOf (s.mem.buckets (cfg.bucketIdx key)) l ∧ node ∈ l ∧
    s.mem.nodes node = some nd ∧ nd.key = key ∧ nd.ptrValue = value

theorem Op.start_status (op : Op K V) :
    op.start.status = match op with
      | .kv op => .pending op
      | _ => .idle := by
  cases op with
  | kv op => cases op <;> rfl
  | _ => rfl

section Simulation

variable [DecidableEq K] {cfg : Config K T} {s s' : State cfg V} {c : Chains cfg.toHashing} {t : T}

/-- What a step of a thread means to the atomic object: nothing, or the effect of the
thread's pending operation with the result it will return. -/
theorem Inv.status_atomic (hi : Inv s c) {tab : Table cfg.toHashing V}
    (hr : Represents s.mem c tab) {a : Act K V} {m' : Memory cfg.toHashing V} {pc' : Pc K V}
    (hs : Advance s.mem (cfg.heapId t) (s.pc t) a m' pc') :
    (callEvent (t, a) = none ∧ (s.pc t).effect a = none ∧ pc'.status = (s.pc t).status) ∨
    ∃ op, callEvent (t, a) = some (.effect t) ∧ (s.pc t).effect a = some op ∧
      (s.pc t).status = .pending op ∧
      pc'.status = .done op ((tableSpec cfg.toHashing V).apply op tab).2 := by
  have hpc := hi.pcs t
  generalize s.pc t = pc at hs hpc
  cases hs with
  | @headWon key value mine hnull => exact .inr ⟨.set key value, rfl, rfl, rfl, rfl⟩
  | @nextWon key value mine node nd hn hk hnull => exact .inr ⟨.set key value, rfl, rfl, rfl, rfl⟩
  | @storeValue key value ptrValue mine node nd hn => exact .inr ⟨.set key value, rfl, rfl, rfl, rfl⟩
  | @getHeadNull key hnull =>
    have hnone : tab.toMap key = none := hr.toMap_of_absent (by simp [hi.table.chain_nil hnull])
    exact .inr ⟨.get key, rfl, rfl, rfl, by simp [Pc.status, tableSpec, hnone]⟩
  | @getNextNull key node nd hn hk hnull =>
    obtain ⟨pre, heq, habsent⟩ := hi.table.cursor_end hpc hn hk hnull
    have hnone : tab.toMap key = none := hr.toMap_of_absent (by rwa [heq])
    exact .inr ⟨.get key, rfl, rfl, rfl, by simp [Pc.status, tableSpec, hnone]⟩
  | @getValue key node nd hn =>
    have hk := Option.some.inj ((Memory.keyOf_eq hn).symm.trans hpc.2)
    have hsome := hr.toMap_of_cursor hpc.1 hn hk
    exact .inr ⟨.get key, rfl, rfl, rfl, by simp [Pc.status, tableSpec, hsome]⟩
  | _ => exact .inl ⟨rfl, rfl, rfl⟩

/-- The table of an invariant state holds exactly the engine's current values. -/
theorem Inv.holds_iff (hi : Inv s c) {tab : Table cfg.toHashing V} (hr : Represents s.mem c tab)
    {key : K} {value : V} : s.Holds key value ↔ tab.toMap key = some value := by
  rw [Table.toMap, ← mem_iff_lookup (tab.nodup _), hr, Memory.recordsOf, List.mem_filterMap]
  constructor
  · intro hholds
    obtain ⟨l, node, nd, hl, hmem, hn, rfl, rfl⟩ := hholds
    obtain rfl := hl.unique (hi.table.linked _)
    exact ⟨node, hmem, Memory.recordOf_eq hn⟩
  · intro hrecord
    obtain ⟨node, hmem, hrec⟩ := hrecord
    obtain ⟨nd, hn, heq⟩ := Option.map_eq_some_iff.mp hrec
    cases heq
    exact ⟨_, node, nd, hi.table.linked _, hmem, hn, rfl, rfl⟩

variable [DecidableEq T]

/-- The simulation relation: the object is the table, and every thread's operation is
where its program counter says. -/
def Simulates (s : State cfg V) (a : AtomicState (Table cfg.toHashing V) T (KvOp K V) (KvRes V)) :
    Prop :=
  ∃ c, Inv s c ∧ Represents s.mem c a.obj ∧ ∀ t, a.status t = (s.pc t).status

theorem simulates_step {a : AtomicState (Table cfg.toHashing V) T (KvOp K V) (KvRes V)}
    {e : Event T K V} (ha : Simulates s a) (hs : s.Step e s') :
    ∃ a', Simulates s' a' ∧ ((callEvent e = none ∧ a' = a) ∨
      ∃ f, callEvent e = some f ∧ (tableSpec cfg.toHashing V).Step a f a') := by
  obtain ⟨c, hi, hr, hst⟩ := ha
  have hi' := hi.step hs
  -- the object and the status of the stepping thread move, the other threads stand still
  have hmove : ∀ {t pc'} {st : Status (KvOp K V) (KvRes V)},
      s'.pc = Function.update s.pc t pc' → pc'.status = st →
      ∀ t', Function.update a.status t st t' = (s'.pc t').status := by
    intro t pc' st hpc hstat t'
    by_cases ht : t' = t
    · subst ht; simp [hpc, hstat]
    · simp [hpc, ht, hst]
  obtain ⟨t, op, hpc, rfl, rfl⟩ | ⟨t, op, res, hpc, rfl, rfl⟩ | ⟨t, x, m', pc', hadv, rfl, rfl⟩ :=
    State.step_cases hs
  · have hidle : a.status t = .idle := by rw [hst, hpc]; rfl
    rw [hpc] at hi'
    cases op with
    | kv op =>
      exact ⟨⟨a.obj, Function.update a.status t (.pending op)⟩,
        ⟨c, hi', hr, hmove rfl (Op.start_status _)⟩, .inr ⟨_, rfl, .invoke hidle⟩⟩
    | enumerate =>
      refine ⟨a, ⟨c, hi', hr, fun t' => ?_⟩, .inl ⟨rfl, rfl⟩⟩
      rw [← hmove rfl (Op.start_status _) t', ← hidle, Function.update_eq_self]
    | readStatistics =>
      refine ⟨a, ⟨c, hi', hr, fun t' => ?_⟩, .inl ⟨rfl, rfl⟩⟩
      rw [← hmove rfl (Op.start_status _) t', ← hidle, Function.update_eq_self]
  · rw [hpc] at hi'
    have hcur : a.status t = (Pc.returned op res).status := by rw [hst, hpc]
    have hquiet : a.status t = .idle → Simulates (s.setPc t .idle) a := fun hidle =>
      ⟨c, hi', hr, fun t' => by
        rw [← hmove rfl (show (Pc.idle : Pc K V).status = .idle from rfl) t', ← hidle,
          Function.update_eq_self]⟩
    cases op with
    | kv op =>
      cases res with
      | kv res =>
        exact ⟨⟨a.obj, Function.update a.status t .idle⟩,
          ⟨c, hi', hr, hmove rfl rfl⟩, .inr ⟨_, rfl, .respond hcur⟩⟩
      | visited seen => exact ⟨a, hquiet hcur, .inl ⟨rfl, rfl⟩⟩
      | statistics stats => exact ⟨a, hquiet hcur, .inl ⟨rfl, rfl⟩⟩
    | enumerate => exact ⟨a, hquiet hcur, .inl ⟨rfl, rfl⟩⟩
    | readStatistics => exact ⟨a, hquiet hcur, .inl ⟨rfl, rfl⟩⟩
  · have hr' := hi.represents_atomic hr hadv
    obtain ⟨hev, heff, hstat⟩ | ⟨op, hev, heff, hpend, hdone⟩ := hi.status_atomic hr hadv
    · rw [heff] at hr'
      refine ⟨a, ⟨_, hi', hr', fun t' => ?_⟩, .inl ⟨hev, rfl⟩⟩
      rw [← hmove rfl (hstat.trans (hst t).symm) t', Function.update_eq_self]
    · rw [heff] at hr'
      exact ⟨⟨_, _⟩, ⟨_, hi', hr', hmove rfl hdone⟩,
        .inr ⟨_, hev, .effect ((hst t).trans hpend)⟩⟩

/-- Every run projects to a run of the atomic table. -/
theorem run_simulated_by_table {es : List (Event T K V)}
    (hrun : Run State.Step (State.init cfg V) es s) :
    ∃ a, Run (tableSpec cfg.toHashing V).Step (tableSpec cfg.toHashing V).start
      (es.filterMap callEvent) a ∧ Simulates s a :=
  hrun.simulate Simulates callEvent (fun _ _ _ _ ha hs => simulates_step ha hs)
    ⟨fun _ => [], Inv.init cfg V, fun _ => rfl, fun _ => rfl⟩

end Simulation

/-! ## What runs of the atomic map guarantee -/

section AtomicMap

variable [DecidableEq K] [DecidableEq T] {a a' : AtomicState (K → Option V) T (KvOp K V) (KvRes V)}
  {fs : List (CallEvent T (KvOp K V) (KvRes V))} {f : CallEvent T (KvOp K V) (KvRes V)}

/-- Where values come from, and that a finished `set` has stored one. -/
structure Origin (fs : List (CallEvent T (KvOp K V) (KvRes V)))
    (a : AtomicState (K → Option V) T (KvOp K V) (KvRes V)) : Prop where
  pending : ∀ t op, a.status t = .pending op → .invoke t op ∈ fs
  stored : ∀ key value, a.obj key = some value → ∃ t, .invoke t (.set key value) ∈ fs
  found : ∀ t key value, a.status t = .done (.get key) (.found (some value)) →
    ∃ t', .invoke t' (.set key value) ∈ fs
  kept : ∀ t key value res, a.status t = .done (.set key value) res → a.obj key ≠ none

/-- A key once stored stays stored. -/
theorem mapSpec_present {key : K} (hs : (mapSpec K V).Step a f a') (hp : a.obj key ≠ none) :
    a'.obj key ≠ none := by
  cases hs with
  | invoke => exact hp
  | @effect t op =>
    cases op with
    | get k => exact hp
    | set k value =>
      by_cases hk : key = k
      · subst hk; simp [mapSpec]
      · simpa [mapSpec, hk] using hp
  | respond => exact hp

omit [DecidableEq K] in
/-- The frame of a step: the stepping thread and the object have to account for what is new. -/
theorem Origin.snoc (ho : Origin fs a) {obj : K → Option V} {t : T}
    {st : Status (KvOp K V) (KvRes V)} (hpresent : ∀ key, a.obj key ≠ none → obj key ≠ none)
    (hpending : ∀ op, st = .pending op → .invoke t op ∈ fs ++ [f])
    (hstored : ∀ key value, obj key = some value → ∃ t', .invoke t' (.set key value) ∈ fs ++ [f])
    (hfound : ∀ key value, st = .done (.get key) (.found (some value)) →
      ∃ t', .invoke t' (.set key value) ∈ fs ++ [f])
    (hkept : ∀ key value res, st = .done (.set key value) res → obj key ≠ none) :
    Origin (fs ++ [f]) ⟨obj, Function.update a.status t st⟩ where
  pending t' op h' := by
    by_cases ht : t' = t
    · subst ht
      exact hpending op (by simpa using h')
    · exact List.mem_append_left _ (ho.pending t' op (by simpa [ht] using h'))
  stored := hstored
  found t' key value h' := by
    by_cases ht : t' = t
    · subst ht
      exact hfound key value (by simpa using h')
    · obtain ⟨u, hu⟩ := ho.found t' key value (by simpa [ht] using h')
      exact ⟨u, List.mem_append_left _ hu⟩
  kept t' key value res h' := by
    by_cases ht : t' = t
    · subst ht
      exact hkept key value res (by simpa using h')
    · exact hpresent key (ho.kept t' key value res (by simpa [ht] using h'))

theorem Origin.step (ho : Origin fs a) (hs : (mapSpec K V).Step a f a') :
    Origin (fs ++ [f]) a' := by
  have hpresent : ∀ key, a.obj key ≠ none → a'.obj key ≠ none := fun _ => mapSpec_present hs
  have hold : ∀ key value, a.obj key = some value →
      ∃ t', .invoke t' (.set key value) ∈ fs ++ [f] := fun key value hv => by
    obtain ⟨t', ht'⟩ := ho.stored key value hv
    exact ⟨t', List.mem_append_left _ ht'⟩
  cases hs with
  | @invoke t op hidle =>
    refine ho.snoc hpresent (fun op' h' => ?_) hold (by simp) (by simp)
    obtain rfl := Status.pending.inj h'
    exact List.mem_append_right _ (List.mem_singleton_self _)
  | @respond t op res hdone => exact ho.snoc hpresent (by simp) hold (by simp) (by simp)
  | @effect t op hpend =>
    cases op with
    | get key =>
      refine ho.snoc hpresent (by simp) hold (fun key' value h' => ?_) (by simp [mapSpec])
      obtain ⟨rfl, hres⟩ : key = key' ∧ a.obj key = some value := by simpa [mapSpec] using h'
      exact hold key value hres
    | set key value =>
      refine ho.snoc hpresent (by simp) (fun key' value' hv => ?_) (by simp [mapSpec])
        (fun key' value' res h' => ?_)
      · have hcase : a.obj key' = some value' ∨ (key' = key ∧ value' = value) := by
          by_cases hk : key' = key
          · subst hk
            simp only [mapSpec, Function.update_self, Option.some.injEq] at hv
            exact .inr ⟨rfl, hv.symm⟩
          · simp only [mapSpec, Function.update_of_ne hk] at hv
            exact .inl hv
        rcases hcase with hv' | ⟨rfl, rfl⟩
        · exact hold key' value' hv'
        · exact ⟨t, List.mem_append_left _ (ho.pending t _ hpend)⟩
      · obtain ⟨⟨rfl, -⟩, -⟩ : (key = key' ∧ value = value') ∧ _ := by simpa [mapSpec] using h'
        simp [mapSpec]

theorem origin_of_run (hrun : Run (mapSpec K V).Step (mapSpec K V).start fs a) : Origin fs a :=
  hrun.invariant Origin
    ⟨fun _ _ h => by simp [SeqSpec.start] at h, fun _ _ h => by simp [SeqSpec.start, mapSpec] at h,
      fun _ _ _ h => by simp [SeqSpec.start] at h, fun _ _ _ _ h => by simp [SeqSpec.start] at h⟩
    fun _ _ _ _ ho hs => ho.step hs

/-- While a key is stored and the thread's `get` of it has not failed, it will not fail. -/
theorem no_failed_get {t : T} {key : K} (hrun : Run (mapSpec K V).Step a fs a')
    (hp : a.obj key ≠ none) (hst : a.status t ≠ .done (.get key) (.found none)) :
    CallEvent.respond t (.get key) (.found none) ∉ fs := by
  have hinv : (a'.obj key ≠ none ∧ a'.status t ≠ .done (.get key) (.found none)) ∧
      CallEvent.respond t (.get key) (.found none) ∉ fs := by
    refine hrun.invariant (fun fs a => (a.obj key ≠ none ∧
      a.status t ≠ .done (.get key) (.found none)) ∧
      CallEvent.respond t (.get key) (.found none) ∉ fs) ⟨⟨hp, hst⟩, by simp⟩ ?_
    rintro fs b f b' ⟨⟨hb, hbst⟩, hno⟩ hs
    have hb' := mapSpec_present hs hb
    cases hs with
    | @invoke u op hidle =>
      refine ⟨⟨hb', ?_⟩, by simpa using hno⟩
      by_cases hu : t = u
      · subst hu; simp
      · simpa [hu] using hbst
    | @effect u op hpend =>
      refine ⟨⟨hb', ?_⟩, by simpa using hno⟩
      by_cases hu : t = u
      · subst hu
        simp only [Function.update_self, ne_eq, Status.done.injEq, not_and]
        rintro rfl
        simpa [mapSpec] using hb
      · simpa [hu] using hbst
    | @respond u op res hdone =>
      refine ⟨⟨hb', ?_⟩, ?_⟩
      · by_cases hu : t = u
        · subst hu; simp
        · simpa [hu] using hbst
      · simp only [List.mem_append, List.mem_singleton, CallEvent.respond.injEq, not_or]
        exact ⟨hno, by rintro ⟨rfl, rfl, rfl⟩; exact hbst hdone⟩
  exact hinv.2

theorem present_of_run {key : K} (hrun : Run (mapSpec K V).Step a fs a') (hp : a.obj key ≠ none) :
    a'.obj key ≠ none :=
  hrun.invariant (fun _ b => b.obj key ≠ none) hp fun _ _ _ _ hb hs => mapSpec_present hs hb

/-- The cut of a run in front of a response: the operation is done there. -/
theorem cut_at_response {before after : List (CallEvent T (KvOp K V) (KvRes V))} {t : T}
    {op : KvOp K V} {res : KvRes V}
    (hrun : Run (mapSpec K V).Step (mapSpec K V).start (before ++ .respond t op res :: after) a) :
    ∃ b b', Run (mapSpec K V).Step (mapSpec K V).start before b ∧ b.status t = .done op res ∧
      b'.obj = b.obj ∧ Run (mapSpec K V).Step b' after a := by
  obtain ⟨b, hbefore, hafter⟩ := hrun.split
  obtain ⟨b', hs, hrest⟩ := hafter.cons_split
  cases hs with
  | respond hdone => exact ⟨b, ⟨b.obj, Function.update b.status t .idle⟩, hbefore, hdone, rfl, hrest⟩

/-- A value found was given to an earlier `set` of the same key. -/
theorem found_from_set {before after : List (CallEvent T (KvOp K V) (KvRes V))} {t : T} {key : K}
    {value : V} (hrun : Run (mapSpec K V).Step (mapSpec K V).start
      (before ++ .respond t (.get key) (.found (some value)) :: after) a) :
    ∃ t', CallEvent.invoke t' (.set key value) ∈ before := by
  obtain ⟨b, _, hbefore, hdone, _⟩ := cut_at_response hrun
  exact (origin_of_run hbefore).found t key value hdone

/-- A key whose `set` has returned is stored. -/
theorem stored_of_returned_set {t : T} {key : K} {value : V} {res : KvRes V}
    (hrun : Run (mapSpec K V).Step (mapSpec K V).start fs a)
    (hm : .respond t (.set key value) res ∈ fs) : a.obj key ≠ none := by
  obtain ⟨before, after, rfl⟩ := List.append_of_mem hm
  obtain ⟨b, b', hbefore, hdone, hobj, hrest⟩ := cut_at_response hrun
  exact present_of_run hrest (hobj ▸ (origin_of_run hbefore).kept t key value res hdone)

/-- No `get` invoked after a `set` of its key has returned fails. -/
theorem get_after_set {before between after : List (CallEvent T (KvOp K V) (KvRes V))} {t t' : T}
    {key : K} {value : V} {res : KvRes V} (hrun : Run (mapSpec K V).Step (mapSpec K V).start
      (before ++ .respond t (.set key value) res :: (between ++ .invoke t' (.get key) :: after)) a) :
    CallEvent.respond t' (.get key) (.found none) ∉ after := by
  obtain ⟨b, b', hbefore, hdone, hobj, hrest⟩ := cut_at_response hrun
  have hp : b'.obj key ≠ none := hobj ▸ (origin_of_run hbefore).kept t key value res hdone
  obtain ⟨d, hbetween, htail⟩ := hrest.split
  obtain ⟨d', hs, hafter⟩ := htail.cons_split
  have hd' := mapSpec_present hs (present_of_run hbetween hp)
  cases hs with
  | invoke => exact no_failed_get hafter hd' (by simp)

end AtomicMap

/-! ## Linearizability of `get` and `set` -/

section Linearizable

variable [DecidableEq K] [DecidableEq T] {cfg : Config K T} {s : State cfg V}
  {es : List (Event T K V)}

omit [DecidableEq K] [DecidableEq T] in
theorem call_of_invoke {t : T} {op : KvOp K V} (hm : .invoke t op ∈ es.filterMap callEvent) :
    (t, Act.call (.kv op)) ∈ es := by
  obtain ⟨⟨u, x⟩, hx, he⟩ := List.mem_filterMap.mp hm
  cases x with
  | call o =>
    cases o with
    | kv o =>
      cases he
      exact hx
    | _ => cases he
  | ret o r => cases o <;> cases r <;> cases he
  | casHead exchanged => cases exchanged <;> cases he
  | casNext exchanged => cases exchanged <;> cases he
  | getHead node => cases node <;> cases he
  | getNext node => cases node <;> cases he
  | _ => cases he

/-- **Every run is a run of an atomic map.** Each `get` and `set` takes effect at exactly one of
its own steps, between its call and its return, with the result it returns. In particular a
value found was given to a `set` of the same key that was called before, a key whose `set` has
returned is held with the value of some `set`, and no `get` called after that fails. -/
theorem linearizable (hrun : Run State.Step (State.init cfg V) es s) :
    (∃ a, Run (mapSpec K V).Step (mapSpec K V).start (es.filterMap callEvent) a ∧
      (∀ key value, a.obj key = some value ↔ s.Holds key value) ∧
      ∀ t, a.status t = (s.pc t).status) ∧
    (∀ before after t key value,
      es = before ++ (t, .ret (.kv (.get key)) (.kv (.found (some value)))) :: after →
      ∃ t', (t', Act.call (.kv (.set key value))) ∈ before) ∧
    (∀ t key value, (t, Act.ret (.kv (.set key value)) (.kv .stored)) ∈ es →
      ∃ value', s.Holds key value' ∧ ∃ t', (t', Act.call (.kv (.set key value'))) ∈ es) ∧
    (∀ before between after t t' key value,
      es = before ++ (t, .ret (.kv (.set key value)) (.kv .stored)) ::
        (between ++ (t', .call (.kv (.get key))) :: after) →
      (t', Act.ret (.kv (.get key)) (.kv (.found none))) ∉ after) := by
  obtain ⟨b, hb, c, hi, hr, hst⟩ := run_simulated_by_table hrun
  have ha := table_abstracts_map.run hb
  have hholds : ∀ key value, b.obj.toMap key = some value ↔ s.Holds key value :=
    fun key value => (hi.holds_iff hr).symm
  refine ⟨⟨_, ha, hholds, hst⟩, ?_, ?_, ?_⟩
  · rintro before after t key value rfl
    simp only [List.filterMap_append, List.filterMap_cons, callEvent] at ha
    obtain ⟨t', hm⟩ := found_from_set ha
    exact ⟨t', call_of_invoke hm⟩
  · intro t key value hm
    have hp := stored_of_returned_set ha (List.mem_filterMap.mpr ⟨_, hm, rfl⟩)
    obtain ⟨value', hv⟩ := Option.ne_none_iff_exists'.mp hp
    obtain ⟨t', hm'⟩ := (origin_of_run ha).stored key value' hv
    exact ⟨value', (hholds key value').mp hv, t', call_of_invoke hm'⟩
  · rintro before between after t t' key value rfl hm
    simp only [List.filterMap_append, List.filterMap_cons, callEvent] at ha
    exact get_after_set ha (List.mem_filterMap.mpr ⟨_, hm, rfl⟩)

end Linearizable

/-- Two writers of one new key race for the empty bucket while a reader looks the key up. -/
def race : List (Choice Nat Nat Nat) :=
  [.call 0 (.kv (.set 5 10)), .call 1 (.kv (.set 5 20)), .call 2 (.kv (.get 5)),
    .advance 0 100, .advance 1 101, .advance 1 0, .advance 0 0, .advance 2 0, .ret 1,
    .advance 0 0, .advance 2 0, .advance 0 0, .advance 2 0, .advance 0 0, .ret 0, .ret 2]

/-- In the race the second writer links its node, the first replaces the value, and the reader
finds the replacement. -/
theorem linearizable_race : ∃ es s,
    (State.init oneBucket Nat).exec race = some (es, s) ∧
    (2, Act.ret (.kv (.get 5)) (.kv (.found (some 10)))) ∈ es ∧
    (∃ a, Run (mapSpec Nat Nat).Step (mapSpec Nat Nat).start (es.filterMap callEvent) a ∧
      ∀ key value, a.obj key = some value ↔ s.Holds key value) := by
  have hrace : ((State.init oneBucket Nat).exec race).isSome := by decide
  obtain ⟨⟨es, s⟩, hexec⟩ := Option.isSome_iff_exists.mp hrace
  obtain ⟨⟨a, ha, hholds, _⟩, _⟩ := linearizable (State.run_of_exec hexec)
  refine ⟨es, s, hexec, ?_, a, ha, hholds⟩
  cases hexec
  simp

end LockFreeKV.Engine
