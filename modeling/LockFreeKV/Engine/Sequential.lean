import LockFreeKV.Engine.Records

/-!
# A call that runs alone

`DataEngine` describes the engine between calls. A complete call whose atomic
steps are not interleaved with those of another thread does to the memory what
the member function of `DataEngine` does, and returns its result. The layers above
that serve one request at a time use `DataEngine` and rest on this.
-/
namespace LockFreeKV.Engine

open LockFreeKV.Lib

variable {K V T : Type} {h : Hashing K}

/-- The records of the first `n` buckets, in the order `enumerate` meets them. -/
def Table.below (tab : Table h V) (n : Nat) : List (K × V) :=
  ((List.finRange h.bucketCount).take n).flatMap tab.bucket

@[simp] theorem Table.below_zero (tab : Table h V) : tab.below 0 = [] := by simp [Table.below]

theorem Table.below_succ (tab : Table h V) (b : Fin h.bucketCount) :
    tab.below (b + 1) = tab.below b ++ tab.bucket b := by
  simp [Table.below, List.take_add_one]

theorem Table.below_all (tab : Table h V) {n : Nat} (hn : h.bucketCount ≤ n) :
    tab.below n = tab.enumerate := by
  rw [Table.below, List.take_of_length_le (by simpa using hn), Table.enumerate]

/-- A visitor that records its calls. -/
def recordVisit (seen : List (K × V)) (key : K) (value : V) : List (K × V) := seen ++ [(key, value)]

theorem DataEngine.enumerate_recordVisit (e : DataEngine h V) :
    e.enumerate recordVisit [] = e.table.enumerate := by
  have hfold : ∀ (l seen : List (K × V)),
      l.foldl (fun s r => recordVisit s r.1 r.2) seen = seen ++ l := fun l => by
    induction l with
    | nil => simp
    | cons r l ih =>
      intro seen
      rw [List.foldl_cons, ih, recordVisit, List.append_assoc, List.singleton_append]
  exact hfold _ []

variable [DecidableEq K]

/-- The member functions, as calls. -/
def DataEngine.call (e : DataEngine h V) : Op K V → Result K V × DataEngine h V
  | .kv (.get key) => (.kv (.found (e.get key).1), (e.get key).2)
  | .kv (.set key value) => (.kv .stored, e.set key value)
  | .enumerate => (.visited (e.enumerate recordVisit []), e)
  | .readStatistics => (.statistics e.getReadStatistics, e)

/-- The memory stands for the data `e`. -/
structure Views (m : Memory h V) (c : Chains h) (e : DataEngine h V) : Prop where
  table : Represents m c e.table
  success : m.successReads = e.successReads
  failed : m.failedReads = e.failedReads

/-- Where a call of `op` that started on the data `e` stands, and the data `e'` by now. -/
def Solo (m : Memory h V) (c : Chains h) (e : DataEngine h V) (op : Op K V) (pc : Pc K V)
    (e' : DataEngine h V) : Prop :=
  match pc with
  | .idle => False
  | .get key .countFailed => op = .kv (.get key) ∧ e' = e ∧ e.table.toMap key = none
  | .get key (.loadValue _) =>
    op = .kv (.get key) ∧ e' = { e with successReads := e.successReads + 1 }
  | .get key _ => op = .kv (.get key) ∧ e' = e
  | .set key value (.destroy _) => op = .kv (.set key value) ∧ e' = e.set key value
  | .set key value _ => op = .kv (.set key value) ∧ e' = e
  | .enumerate seen (.loadHead bucket) =>
    op = .enumerate ∧ e' = e ∧ seen = e.table.below bucket
  | .enumerate seen (.loadValue bucket node) => op = .enumerate ∧ e' = e ∧ ∃ pre,
    At c bucket pre node ∧ seen = e.table.below bucket ++ pre.filterMap m.recordOf
  | .enumerate seen (.loadNext bucket node) => op = .enumerate ∧ e' = e ∧ ∃ pre,
    At c bucket pre node ∧ seen = e.table.below bucket ++ (pre ++ [node]).filterMap m.recordOf
  | .readStatistics .loadSuccess => op = .readStatistics ∧ e' = e
  | .readStatistics (.loadFailed success) =>
    op = .readStatistics ∧ e' = e ∧ success = e.successReads
  | .returned op' res => op' = op ∧ (res, e') = e.call op

theorem solo_start (m : Memory h V) (c : Chains h) (e : DataEngine h V) (op : Op K V) :
    Solo m c e op op.start e := by
  cases op with
  | kv op => cases op <;> exact ⟨rfl, rfl⟩
  | enumerate => exact ⟨rfl, rfl, by simp⟩
  | readStatistics => exact ⟨rfl, rfl⟩

variable {cfg : Config K T} {s s' : State cfg V} {c : Chains cfg.toHashing} {t : T}
  {e e' : DataEngine cfg.toHashing V} {op : Op K V}

omit [DecidableEq K] in
/-- Behind the last node of a bucket the whole bucket has been reported. -/
theorem Represents.bucket_end {m : Memory h V} {c : Chains h} {tab : Table h V}
    (hr : Represents m c tab) (ht : TableInv m c) {bucket : Nat} {pre : List Addr} {node : Addr}
    {nd : ListNode K V} (hat : At c bucket pre node) (hn : m.nodes node = some nd)
    (hp : nd.next = none) :
    tab.below bucket ++ (pre ++ [node]).filterMap m.recordOf = tab.below (bucket + 1) := by
  obtain ⟨hb, post, heq⟩ := hat
  have hl := ht.linked ⟨bucket, hb⟩
  rw [heq] at hl
  obtain rfl := hl.eq_nil_of_next_none (by rw [Memory.nextOf_eq hn, hp])
  have hbucket := tab.below_succ ⟨bucket, hb⟩
  rw [hr ⟨bucket, hb⟩, Memory.recordsOf, heq] at hbucket
  exact hbucket.symm

/-- One atomic step of a call that runs alone. -/
theorem solo_atomic (hi : Inv s c) (hv : Views s.mem c e') (hsolo : Solo s.mem c e op (s.pc t) e')
    {a : Act K V} {m' : Memory cfg.toHashing V} {pc' : Pc K V}
    (hs : Advance s.mem (cfg.heapId t) (s.pc t) a m' pc') :
    ∃ e'', Views m' (c.after (s.pc t) a) e'' ∧ Solo m' (c.after (s.pc t) a) e op pc' e'' := by
  have hpc := hi.pcs t
  have htab := hi.represents_atomic hv.table hs
  generalize s.pc t = pc at hs hpc hsolo htab
  cases hs with
  | createNode =>
    obtain ⟨rfl, rfl⟩ := hsolo
    exact ⟨_, ⟨htab, hv.success, hv.failed⟩, rfl, rfl⟩
  | headWon =>
    obtain ⟨rfl, rfl⟩ := hsolo
    exact ⟨e'.set _ _, ⟨htab, hv.success, hv.failed⟩, rfl, rfl⟩
  | headLost => exact ⟨e', hv, hsolo⟩
  | loadMine => exact ⟨e', hv, hsolo⟩
  | nextWon =>
    obtain ⟨rfl, rfl⟩ := hsolo
    exact ⟨e'.set _ _, ⟨htab, hv.success, hv.failed⟩, rfl, rfl⟩
  | nextLost => exact ⟨e', hv, hsolo⟩
  | storeValue =>
    obtain ⟨rfl, rfl⟩ := hsolo
    exact ⟨e'.set _ _, ⟨htab, hv.success, hv.failed⟩, rfl, rfl⟩
  | destroy =>
    obtain ⟨rfl, rfl⟩ := hsolo
    exact ⟨_, ⟨htab, hv.success, hv.failed⟩, rfl, rfl⟩
  | getHeadNull hnull =>
    obtain ⟨rfl, rfl⟩ := hsolo
    exact ⟨_, hv, rfl, rfl, hv.table.toMap_of_absent (by simp [hi.table.chain_nil hnull])⟩
  | getHead => exact ⟨e', hv, hsolo⟩
  | getHit =>
    obtain ⟨rfl, rfl⟩ := hsolo
    exact ⟨{ e' with successReads := e'.successReads + 1 },
      ⟨htab, congrArg (· + 1) hv.success, hv.failed⟩, rfl, rfl⟩
  | getNextNull hn hk hnull =>
    obtain ⟨rfl, rfl⟩ := hsolo
    obtain ⟨pre, heq, habsent⟩ := hi.table.cursor_end hpc hn hk hnull
    exact ⟨_, hv, rfl, rfl, hv.table.toMap_of_absent (by rwa [heq])⟩
  | getNext => exact ⟨e', hv, hsolo⟩
  | getValue hn =>
    obtain ⟨rfl, rfl⟩ := hsolo
    have hk := Option.some.inj ((Memory.keyOf_eq hn).symm.trans hpc.2)
    have hsome : e.table.toMap _ = some _ := hv.table.toMap_of_cursor hpc.1 hn hk
    exact ⟨_, hv, rfl, by simp [DataEngine.call, DataEngine.get, hsome]⟩
  | getFailed =>
    obtain ⟨rfl, rfl, hnone⟩ := hsolo
    refine ⟨{ e' with failedReads := e'.failedReads + 1 },
      ⟨htab, hv.success, congrArg (· + 1) hv.failed⟩, rfl, ?_⟩
    simp [DataEngine.call, DataEngine.get, hnone]
  | @enumerateHeadNull seen b hnull =>
    obtain ⟨rfl, rfl, rfl⟩ := hsolo
    refine ⟨_, hv, rfl, rfl, ?_⟩
    rw [Table.below_succ, hv.table b, Memory.recordsOf, hi.table.chain_nil hnull]
    simp
  | enumerateHead hsome =>
    obtain ⟨rfl, rfl, rfl⟩ := hsolo
    exact ⟨_, hv, rfl, rfl, [], hi.table.at_head hsome, by simp⟩
  | enumerateEnd hb =>
    obtain ⟨rfl, rfl, rfl⟩ := hsolo
    refine ⟨_, hv, rfl, ?_⟩
    rw [Table.below_all _ hb, DataEngine.call, DataEngine.enumerate_recordVisit]
  | enumerateValue hn =>
    obtain ⟨rfl, rfl, pre, hat, rfl⟩ := hsolo
    exact ⟨_, hv, rfl, rfl, pre, hat, by simp [Memory.recordOf_eq hn]⟩
  | enumerateNextNull hn hp =>
    obtain ⟨rfl, rfl, pre, hat, rfl⟩ := hsolo
    exact ⟨_, hv, rfl, rfl, hv.table.bucket_end hi.table hat hn hp⟩
  | @enumerateNext seen bucket node nextNode nd hn hp =>
    obtain ⟨rfl, rfl, pre, hat, rfl⟩ := hsolo
    exact ⟨_, hv, rfl, rfl, pre ++ [node], hi.table.at_next hat hn hp, rfl⟩
  | readSuccess =>
    obtain ⟨rfl, rfl⟩ := hsolo
    exact ⟨_, hv, rfl, rfl, hv.success⟩
  | readFailed =>
    obtain ⟨rfl, rfl, rfl⟩ := hsolo
    exact ⟨_, hv, rfl, by rw [DataEngine.call, DataEngine.getReadStatistics, hv.failed]⟩

variable [DecidableEq T]

/-- The steps between the call and the return of a call that runs alone. -/
theorem solo_body (hi : Inv s c) (hv : Views s.mem c e) {s1 s2 : State cfg V}
    {es : List (Event T K V)} (hcall : s.Step (t, .call op) s1) (hbody : Run State.Step s1 es s2)
    (halone : ∀ x ∈ es, x.1 = t ∧ ∀ o r, x.2 ≠ .ret o r) :
    ∃ c' e', Inv s2 c' ∧ Views s2.mem c' e' ∧ Solo s2.mem c' e op (s2.pc t) e' := by
  obtain ⟨hidle, rfl⟩ := State.step_call hcall
  have h0 : ∃ c' e', Inv (s.setPc t op.start) c' ∧ Views s.mem c' e' ∧
      Solo s.mem c' e op ((s.setPc t op.start).pc t) e' :=
    ⟨_, e, hi.step hcall, by rw [hidle]; exact hv, by simpa [State.setPc] using solo_start ..⟩
  refine hbody.invariant (fun es m => (∀ x ∈ es, x.1 = t ∧ ∀ o r, x.2 ≠ .ret o r) →
    ∃ c' e', Inv m c' ∧ Views m.mem c' e' ∧ Solo m.mem c' e op (m.pc t) e') (fun _ => h0) ?_ halone
  intro es m x m' ih hs hall
  obtain ⟨c1, e1, hi1, hv1, hsolo1⟩ := ih fun y hy => hall y (by simp [hy])
  obtain ⟨hx, hret⟩ := hall x (by simp)
  obtain ⟨u, o, hpc, rfl, rfl⟩ | ⟨u, o, r, hpc, rfl, rfl⟩ | ⟨u, a, m1, pc', hadv, rfl, rfl⟩ :=
    State.step_cases hs
  · obtain rfl : u = t := hx
    rw [hpc] at hsolo1
    exact hsolo1.elim
  · exact absurd rfl (hret o r)
  · obtain rfl : u = t := hx
    obtain ⟨e2, hv2, hsolo2⟩ := solo_atomic hi1 hv1 hsolo1 hadv
    exact ⟨_, e2, hi1.atomic hadv, hv2, by simpa using hsolo2⟩

/-- **A call that runs alone is the member function of `DataEngine`.** -/
theorem sequential (hi : Inv s c) (hv : Views s.mem c e) {op' : Op K V} {res : Result K V}
    {es : List (Event T K V)}
    (hrun : Run State.Step s ((t, .call op) :: (es ++ [(t, .ret op' res)])) s')
    (halone : ∀ x ∈ es, x.1 = t ∧ ∀ o r, x.2 ≠ .ret o r) :
    op' = op ∧ res = (e.call op).1 ∧ ∃ c', Inv s' c' ∧ Views s'.mem c' (e.call op).2 := by
  obtain ⟨s1, hcall, hrest⟩ := hrun.cons_split
  obtain ⟨s2, hbody, htail⟩ := hrest.split
  obtain ⟨s3, hret, hnil⟩ := htail.cons_split
  obtain rfl := hnil.eq_of_nil
  obtain ⟨c1, e1, hi1, hv1, hsolo1⟩ := solo_body hi hv hcall hbody halone
  obtain ⟨hpc, rfl⟩ := State.step_ret hret
  rw [hpc] at hsolo1
  obtain ⟨rfl, hres⟩ := hsolo1
  obtain ⟨rfl, rfl⟩ := Prod.ext_iff.mp hres
  exact ⟨rfl, rfl, _, hi1.step hret, by rw [hpc]; exact hv1⟩

end LockFreeKV.Engine
