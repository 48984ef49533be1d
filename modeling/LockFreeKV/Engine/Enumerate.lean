import LockFreeKV.Engine.Representation
import LockFreeKV.Engine.Linearizability
import LockFreeKV.Engine.Sequential
import LockFreeKV.Engine.Progress

/-!
# `enumerate` among other calls

While one thread walks the buckets, others link nodes and replace values. The
visitor sees each key at most once, every key that was linked when the walk began,
and only values that the key had at some instant of the walk. Without an
overlapping `set` it sees exactly the stored records.
-/
namespace LockFreeKV.Engine

open LockFreeKV.Lib

variable {K V T : Type} {h : Hashing K}

/-- What an `enumerate` has reported, and how many buckets it has walked to their end. -/
def Pc.visiting (h : Hashing K) : Pc K V → Option (List (K × V) × Nat)
  | .enumerate seen (.loadHead bucket) => some (seen, bucket)
  | .enumerate seen (.loadValue bucket _) => some (seen, bucket)
  | .enumerate seen (.loadNext bucket _) => some (seen, bucket)
  | .returned .enumerate (.visited seen) => some (seen, h.bucketCount)
  | _ => none

/-- The steps of a `set` that change the stored records. -/
def Act.changesRecords : Act K V → Bool
  | .casHead exchanged => exchanged
  | .casNext exchanged => exchanged
  | .storeValue => true
  | _ => false

variable {cfg : Config K T} {s s' : State cfg V} {c : Chains cfg.toHashing} {t : T}

/-- The value that a linked node holds is the current value of its key. -/
theorem Inv.holds_of_mem (hi : Inv s c) {b : Fin cfg.bucketCount} {node : Addr}
    (hmem : node ∈ c b) {nd : ListNode K V} (hn : s.mem.nodes node = some nd) :
    s.Holds nd.key nd.ptrValue := by
  have hb := hi.table.home b node hmem _ (Memory.keyOf_eq hn)
  subst hb
  exact ⟨_, node, nd, hi.table.linked _, hmem, hn, rfl, rfl⟩

/-- The key of some node linked in `c`. -/
def LinkedKey (m : Memory h V) (c : Chains h) (key : K) : Prop :=
  ∃ a ∈ c (h.bucketIdx key), m.keyOf a = some key

theorem Grows.linkedKey {m m' : Memory h V} {c c' : Chains h} (hg : Grows m c m' c') {key : K}
    (hk : LinkedKey m c key) : LinkedKey m' c' key := by
  obtain ⟨a, ha, hkey⟩ := hk
  exact ⟨a, hg.mem ha, (hg.key _ a ha).trans hkey⟩

variable [DecidableEq K]

omit [DecidableEq K] in
/-- An atomic step of an `enumerate` reports nothing or a record that is held now; when it
finishes a bucket, every key linked there has been reported. -/
theorem Inv.visiting_atomic (hi : Inv s c) {seen : List (K × V)} {n : Nat}
    (hv : (s.pc t).visiting cfg.toHashing = some (seen, n)) {a : Act K V}
    {m' : Memory cfg.toHashing V} {pc' : Pc K V}
    (hs : Advance s.mem (cfg.heapId t) (s.pc t) a m' pc') :
    ∃ seen' n', pc'.visiting cfg.toHashing = some (seen', n') ∧
      (seen' = seen ∨ ∃ r, seen' = seen ++ [r] ∧ s.Holds r.1 r.2) ∧
      ∀ key, LinkedKey s.mem c key → (cfg.bucketIdx key).val < n' →
        (cfg.bucketIdx key).val < n ∨ key ∈ seen'.map Prod.fst := by
  have hpc := hi.pcs t
  generalize s.pc t = pc at hs hpc hv
  cases hs with
  | @enumerateHeadNull seen b hnull =>
    cases hv
    refine ⟨_, _, rfl, .inl rfl, fun key ⟨a, ha, _⟩ hlt => .inl ?_⟩
    rcases Nat.lt_succ_iff_lt_or_eq.mp hlt with hlt | heq
    · exact hlt
    · rw [Fin.ext heq, hi.table.chain_nil hnull] at ha
      cases ha
  | enumerateHead hsome =>
    cases hv
    exact ⟨_, _, rfl, .inl rfl, fun key _ hlt => .inl hlt⟩
  | enumerateEnd hb =>
    cases hv
    exact ⟨_, _, rfl, .inl rfl, fun key _ hlt => .inl (Nat.lt_of_lt_of_le hlt hb)⟩
  | enumerateValue hn =>
    cases hv
    obtain ⟨pre, ⟨hb, post, heq⟩, _⟩ := hpc
    exact ⟨_, _, rfl, .inr ⟨_, rfl, hi.holds_of_mem (by rw [heq]; simp) hn⟩,
      fun key _ hlt => .inl hlt⟩
  | @enumerateNextNull seen bucket node nd hn hp =>
    cases hv
    obtain ⟨pre, ⟨hb, post, heq⟩, hseen⟩ := hpc
    have hl := hi.table.linked ⟨n, hb⟩
    rw [heq] at hl
    obtain rfl := hl.eq_nil_of_next_none (by rw [Memory.nextOf_eq hn, hp])
    refine ⟨_, _, rfl, .inl rfl, fun key ⟨a, ha, hkey⟩ hlt => ?_⟩
    rcases Nat.lt_succ_iff_lt_or_eq.mp hlt with hlt | hidx
    · exact .inl hlt
    · rw [Fin.ext (b := ⟨n, hb⟩) hidx, heq] at ha
      exact .inr (hseen.covers a ha key hkey)
  | enumerateNext hn hp =>
    cases hv
    exact ⟨_, _, rfl, .inl rfl, fun key _ hlt => .inl hlt⟩
  | _ => cases hv

variable [DecidableEq T]

/-- What a walk of thread `t` that began in the state `s` has achieved in the state `m`. -/
structure Walk (s : State cfg V) (c : Chains cfg.toHashing) (t : T) (es : List (Event T K V))
    (m : State cfg V) (seen : List (K × V)) (n : Nat) : Prop where
  visiting : (m.pc t).visiting cfg.toHashing = some (seen, n)
  covers : ∀ key, LinkedKey s.mem c key → (cfg.bucketIdx key).val < n → key ∈ seen.map Prod.fst
  held : ∀ r ∈ seen, Run.Passes State.Step (fun x => x.Holds r.1 r.2) s es m

/-- One step of the system during a walk, the walk's own return excluded. -/
theorem Walk.step (hi : Inv s c) {m m' : State cfg V} {es : List (Event T K V)}
    {seen : List (K × V)} {n : Nat} (hw : Walk s c t es m seen n) {e : Event T K V}
    (hrun : Run State.Step s es m) (hs : m.Step e m') (hret : ∀ o r, e ≠ (t, .ret o r)) :
    ∃ seen' n', Walk s c t (es ++ [e]) m' seen' n' := by
  obtain ⟨c', hi', hg⟩ := hi.run hrun
  have hheld : ∀ r ∈ seen, Run.Passes State.Step (fun x => x.Holds r.1 r.2) s (es ++ [e]) m' :=
    fun r hr => (hw.held r hr).snoc hs
  -- a step of another thread leaves the walk where it is
  have hother : m'.pc t = m.pc t → ∃ seen' n', Walk s c t (es ++ [e]) m' seen' n' := fun hpc =>
    ⟨seen, n, by rw [hpc]; exact hw.visiting, hw.covers, hheld⟩
  obtain ⟨u, o, hpc, rfl, rfl⟩ | ⟨u, o, r, hpc, rfl, rfl⟩ | ⟨u, a, m1, pc', hadv, rfl, rfl⟩ :=
    State.step_cases hs
  · refine hother (Function.update_of_ne ?_ _ _)
    rintro rfl
    have hv := hw.visiting
    rw [hpc] at hv
    cases hv
  · exact hother (Function.update_of_ne (fun hu => hret o r (by rw [hu])) _ _)
  · by_cases hu : t = u
    · subst hu
      obtain ⟨seen', n', hv, hseen, hnew⟩ := hi'.visiting_atomic hw.visiting hadv
      have hsub : ∀ key ∈ seen.map Prod.fst, key ∈ seen'.map Prod.fst := by
        rcases hseen with rfl | ⟨r, rfl, _⟩
        · exact fun _ hk => hk
        · intro key hk
          rw [List.map_append]
          exact List.mem_append_left _ hk
      refine ⟨seen', n', by simpa using hv, fun key hk hlt => ?_, ?_⟩
      · rcases hnew key (hg.linkedKey hk) hlt with hold | hrep
        · exact hsub key (hw.covers key hk hold)
        · exact hrep
      · rcases hseen with rfl | ⟨r, rfl, hhold⟩
        · exact hheld
        · intro r' hr'
          rcases List.mem_append.mp hr' with hr' | hr'
          · exact hheld r' hr'
          · rw [List.mem_singleton.mp hr']
            exact (Run.Passes.last hrun hhold).snoc hs
    · exact hother (Function.update_of_ne hu _ _)

/-- From the call of an `enumerate` to its return. -/
theorem Walk.run (hi : Inv s c) {es : List (Event T K V)} (hrun : Run State.Step s es s')
    (hcall : s.pc t = .enumerate [] (.loadHead 0)) (hret : ∀ o r, (t, .ret o r) ∉ es) :
    ∃ seen n, Walk s c t es s' seen n := by
  have h0 : Walk s c t [] s [] 0 :=
    ⟨by rw [hcall]; rfl, fun _ _ hlt => absurd hlt (Nat.not_lt_zero _), by simp⟩
  have hinv := hrun.invariant (fun es m => (∀ o r, (t, .ret o r) ∉ es) →
    Run State.Step s es m ∧ ∃ seen n, Walk s c t es m seen n) (fun _ => ⟨.nil, _, _, h0⟩)
    fun es m e m' ih hs hno => by
      obtain ⟨hm, seen, n, hw⟩ := ih fun o r hmem => hno o r (by simp [hmem])
      exact ⟨hm.snoc hs, hw.step hi hm hs fun o r he => hno o r (by simp [he])⟩
  exact (hinv hret).2

/-! ## Without an overlapping `set` -/

/-- Only a `set` that takes effect changes the table. -/
theorem Pc.effect_quiet {m m' : Memory h V} {allocator : HeapID} {pc pc' : Pc K V} {a : Act K V}
    (hs : Advance m allocator pc a m' pc') (hquiet : a.changesRecords = false) (tab : Table h V) :
    tab.effect (pc.effect a) = tab := by
  cases hs with
  | headWon => cases hquiet
  | nextWon => cases hquiet
  | storeValue => cases hquiet
  | _ => rfl

/-- As long as no `set` takes effect, every state stands for the same table. -/
theorem Inv.quiet_run (hi : Inv s c) {tab : Table cfg.toHashing V} (hr : Represents s.mem c tab)
    {es : List (Event T K V)} (hrun : Run State.Step s es s')
    (hquiet : ∀ e ∈ es, e.2.changesRecords = false) :
    ∃ c', Inv s' c' ∧ Represents s'.mem c' tab := by
  refine hrun.invariant (fun es m => (∀ e ∈ es, e.2.changesRecords = false) →
    ∃ c', Inv m c' ∧ Represents m.mem c' tab) (fun _ => ⟨c, hi, hr⟩) ?_ hquiet
  intro es m e m' ih hs hq
  obtain ⟨c1, hi1, hr1⟩ := ih fun x hx => hq x (by simp [hx])
  refine ⟨_, hi1.step hs, ?_⟩
  obtain ⟨u, o, hpc, rfl, rfl⟩ | ⟨u, o, r, hpc, rfl, rfl⟩ | ⟨u, a, m1, pc', hadv, rfl, rfl⟩ :=
    State.step_cases hs
  · rw [hpc]
    exact hr1
  · rw [hpc]
    exact hr1
  · have hr2 := hi1.represents_atomic hr1 hadv
    rwa [Pc.effect_quiet hadv (hq (u, a) (by simp))] at hr2

theorem Inv.quiet_holds (hi : Inv s c) {es : List (Event T K V)} (hrun : Run State.Step s es s')
    (hquiet : ∀ e ∈ es, e.2.changesRecords = false) (key : K) (value : V) :
    s'.Holds key value ↔ s.Holds key value := by
  obtain ⟨tab, hr⟩ := hi.table.represents
  obtain ⟨c', hi', hr'⟩ := hi.quiet_run hr hrun hquiet
  rw [hi.holds_iff hr, hi'.holds_iff hr']

/-- A `get` that runs alone returns the value that its key holds. -/
theorem Inv.get_alone (hi : Inv s c) {key : K} {r : Option V} {es : List (Event T K V)}
    (hrun : Run State.Step s
      ((t, .call (.kv (.get key))) :: (es ++ [(t, .ret (.kv (.get key)) (.kv (.found r)))])) s')
    (halone : ∀ x ∈ es, x.1 = t ∧ ∀ o r, x.2 ≠ .ret o r) (value : V) :
    r = some value ↔ s.Holds key value := by
  obtain ⟨tab, hr⟩ := hi.table.represents
  have hv : Views s.mem c ⟨tab, s.mem.successReads, s.mem.failedReads⟩ := ⟨hr, rfl, rfl⟩
  obtain ⟨_, hres, _⟩ := sequential hi hv hrun halone
  simp only [DataEngine.call, DataEngine.get_fst, Result.kv.injEq, KvRes.found.injEq] at hres
  rw [hi.holds_iff hr, hres]

/-- A `get` that runs alone returns. -/
theorem get_returns_alone {es₀ : List (Event T K V)}
    (hrun : Run State.Step (State.init cfg V) es₀ s) (hidle : s.pc t = .idle) (key : K) :
    ∃ r es s', Run State.Step s
        ((t, .call (.kv (.get key))) :: (es ++ [(t, .ret (.kv (.get key)) (.kv (.found r)))])) s' ∧
      ∀ x ∈ es, x.1 = t ∧ ∀ o r, x.2 ≠ .ret o r := by
  obtain ⟨S, hS⟩ := exists_setsWithin es₀
  obtain ⟨c, hi⟩ := inv_of_run hrun
  have hget : SetsWithin S [((t, .call (.kv (.get key))) : Event T K V)] := by
    intro u key' value hm
    cases List.mem_singleton.mp hm
  obtain ⟨es, res, s', halone, hes⟩ :=
    hi.returns_alone (keysIn_of_run hrun hS) (hasFree_of_run hrun) hget hidle
  obtain ⟨tab, hr⟩ := hi.table.represents
  have hv : Views s.mem c ⟨tab, s.mem.successReads, s.mem.failedReads⟩ := ⟨hr, rfl, rfl⟩
  obtain ⟨-, rfl, -⟩ := sequential hi hv halone hes
  exact ⟨_, es, s', halone, hes⟩

/-- **`enumerate` is consistent key by key.** For every complete call in every run: the visitor
is called once at most for each key, it is called for every key linked when the call began, and
each value it is given was held by its key at some instant of the call. If no `set` takes effect
during the call, it is called for exactly the pairs that a `get` running alone would return, and
there is such a `get` of every thread that is idle. -/
theorem enumerate_consistent {es₀ es : List (Event T K V)} {l : List (K × V)}
    (hrun : Run State.Step (State.init cfg V) es₀ s)
    (hcall : Run State.Step s
      ((t, .call .enumerate) :: (es ++ [(t, .ret .enumerate (.visited l))])) s')
    (hret : ∀ o r, (t, .ret o r) ∉ es) :
    (l.map Prod.fst).Nodup ∧
    (∀ b a node, s.LinkedIn b a → s.mem.nodes a = some node → node.key ∈ l.map Prod.fst) ∧
    (∀ key value, (key, value) ∈ l → Run.Passes State.Step (fun m => m.Holds key value) s
      ((t, .call .enumerate) :: (es ++ [(t, .ret .enumerate (.visited l))])) s') ∧
    ((∀ e ∈ es, e.2.changesRecords = false) → ∀ key value,
      ((key, value) ∈ l ↔ s.Holds key value) ∧
      (∀ t' r es' s'', Run State.Step s ((t', .call (.kv (.get key))) ::
          (es' ++ [(t', .ret (.kv (.get key)) (.kv (.found r)))])) s'' →
        (∀ x ∈ es', x.1 = t' ∧ ∀ o r, x.2 ≠ .ret o r) → ((key, value) ∈ l ↔ r = some value)) ∧
      ∀ t', s.pc t' = .idle → ∃ r es' s'', Run State.Step s ((t', .call (.kv (.get key))) ::
          (es' ++ [(t', .ret (.kv (.get key)) (.kv (.found r)))])) s'' ∧
        ∀ x ∈ es', x.1 = t' ∧ ∀ o r, x.2 ≠ .ret o r) := by
  obtain ⟨c, hi⟩ := inv_of_run hrun
  obtain ⟨s1, hfirst, hrest⟩ := hcall.cons_split
  obtain ⟨s2, hbody, htail⟩ := hrest.split
  obtain ⟨s3, hlast, hnil⟩ := htail.cons_split
  obtain rfl := hnil.eq_of_nil
  obtain ⟨hidle, rfl⟩ := State.step_call hfirst
  have hi1 : Inv (s.setPc t (Op.start .enumerate)) c := by
    have hi1 := hi.step hfirst
    rwa [hidle] at hi1
  obtain ⟨seen, n, hw⟩ := Walk.run hi1 hbody (by simp [State.setPc, Op.start]) hret
  obtain ⟨hpc, rfl⟩ := State.step_ret hlast
  obtain ⟨c2, hi2, _⟩ := hi1.run hbody
  have hnodup : (l.map Prod.fst).Nodup := by
    have hp := hi2.pcs t
    rwa [hpc] at hp
  -- the walk has come to the last bucket
  obtain ⟨rfl, rfl⟩ : l = seen ∧ cfg.bucketCount = n := by
    have hv := hw.visiting
    rw [hpc] at hv
    simpa [Pc.visiting] using hv
  have hcovers : ∀ key, LinkedKey s.mem c key → key ∈ l.map Prod.fst := fun key hk =>
    hw.covers key hk (Fin.isLt _)
  refine ⟨hnodup, fun b a node hl hn => ?_, fun key value hm => ?_, fun hquiet key value => ?_⟩
  · have ha := hi.linkedIn_iff.mp hl
    have hb := hi.table.home b a ha _ (Memory.keyOf_eq hn)
    exact hcovers _ ⟨a, by rwa [hb], Memory.keyOf_eq hn⟩
  · exact Run.Passes.extend (Run.single hfirst) (hw.held _ hm) (Run.single hlast)
  · have hpair : (key, value) ∈ l ↔ s.Holds key value := by
      have hconst : ∀ key value, (key, value) ∈ l → s.Holds key value := by
        intro key value hm
        obtain ⟨before, after, m, rfl, hm1, hhold, _⟩ := hw.held _ hm
        exact (hi1.quiet_holds hm1 (fun e he => hquiet e (by simp [he])) key value).mp hhold
      refine ⟨hconst key value, fun hhold => ?_⟩
      obtain ⟨l', a, nd, hl, ha, hn, rfl, rfl⟩ := hhold
      have hmem : a ∈ c (cfg.bucketIdx nd.key) := hi.linkedIn_iff.mp ⟨l', hl, ha⟩
      obtain ⟨⟨key, value⟩, hm, hkey⟩ :=
        List.mem_map.mp (hcovers nd.key ⟨a, hmem, Memory.keyOf_eq hn⟩)
      obtain ⟨tab, hr⟩ := hi.table.represents
      have hsame := (hi.holds_iff hr).mp (hconst _ _ hm)
      have hnow := (hi.holds_iff hr).mp (hi.holds_of_mem hmem hn)
      rw [show key = nd.key from hkey] at hsame hm
      rwa [Option.some.inj (hnow.symm.trans hsame)]
    refine ⟨hpair, fun t' r es' s'' hget halone => ?_, fun t' hidle => get_returns_alone hrun hidle key⟩
    rw [hpair, hi.get_alone hget halone]

/-- One key is stored and a writer of another has created its node. -/
def walkStart : List (Choice Nat Nat Nat) :=
  [.call 0 (.kv (.set 1 10)), .advance 0 100, .advance 0 0, .ret 0,
    .call 0 (.kv (.set 2 20)), .advance 0 101]

/-- The writer appends its node while the walk stands in front of the tail. -/
def walk : List (Choice Nat Nat Nat) :=
  [.call 1 .enumerate, .advance 1 0, .advance 1 0, .advance 0 0, .advance 0 0, .advance 1 0,
    .advance 1 0, .advance 1 0, .advance 1 0, .ret 1]

def walkEvents : List (Event Nat Nat Nat) :=
  [(1, .enumerateHead), (1, .enumerateValue), (0, .casHead false), (0, .casNext true),
    (1, .enumerateNext), (1, .enumerateValue), (1, .enumerateNext), (1, .enumerateEnd)]

/-- The walk reports the appended record too, and it is held during the walk. -/
theorem enumerate_consistent_append : ∃ es₀ s s',
    (State.init oneBucket Nat).exec walkStart = some (es₀, s) ∧
    s.exec walk = some ((1, .call .enumerate) ::
      (walkEvents ++ [(1, .ret .enumerate (.visited [(1, 10), (2, 20)]))]), s') ∧
    Run.Passes State.Step (fun m => m.Holds 2 20) s ((1, .call .enumerate) ::
      (walkEvents ++ [(1, .ret .enumerate (.visited [(1, 10), (2, 20)]))])) s' := by
  have hstart : ((State.init oneBucket Nat).exec walkStart).isSome := by decide
  obtain ⟨⟨es₀, s⟩, hs⟩ := Option.isSome_iff_exists.mp hstart
  have hwalk : ∃ s', s.exec walk = some ((1, .call .enumerate) ::
      (walkEvents ++ [(1, .ret .enumerate (.visited [(1, 10), (2, 20)]))]), s') := by
    cases hs
    exact ⟨_, rfl⟩
  obtain ⟨s', hw⟩ := hwalk
  obtain ⟨_, _, hheld, _⟩ := enumerate_consistent (State.run_of_exec hs) (State.run_of_exec hw)
    (by simp [walkEvents])
  exact ⟨es₀, s, s', hs, hw, hheld 2 20 (by simp)⟩

end LockFreeKV.Engine
