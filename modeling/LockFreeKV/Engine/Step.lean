import LockFreeKV.Engine.Memory

/-!
# The atomic steps of concurrent calls

Any number of threads call `get`, `set`, `enumerate` and `get_read_statistics` on
one engine, each thread one call after another. Every `std::atomic` operation is
one indivisible step, together with the thread's local code up to the next one;
creating a node and destroying one are steps of their own. `advance` computes the
step of one thread from its program counter. `Advance` lists its outcomes, once
and for all: every invariant is proved by cases on it.
-/
namespace LockFreeKV.Engine

open LockFreeKV.Lib

inductive Op (K V : Type)
  | kv (op : KvOp K V)
  | enumerate
  | readStatistics

inductive Result (K V : Type)
  | kv (res : KvRes V)
  | visited (records : List (K × V))
  | statistics (stats : AccessStatistics)

/-- Where `set` stands. `mine` is the node held by `ptrNewNode`. -/
inductive SetPc (V : Type)
  | createNode
  | casHead (mine : Addr)
  | visit (mine node : Addr)
  | storeValue (mine node : Addr) (ptrValue : V)
  | destroy (mine : Addr)

/-- Where `get` stands. -/
inductive GetPc
  | loadHead
  | visit (node : Addr)
  | loadValue (node : Addr)
  | countFailed

/-- Where `enumerate` stands. -/
inductive EnumeratePc
  | loadHead (bucket : Nat)
  | loadValue (bucket : Nat) (node : Addr)
  | loadNext (bucket : Nat) (node : Addr)

/-- Where `get_read_statistics` stands. -/
inductive StatisticsPc
  | loadSuccess
  | loadFailed (successOperations : UInt64)

inductive Pc (K V : Type)
  | idle
  | get (key : K) (pc : GetPc)
  | set (key : K) (value : V) (pc : SetPc V)
  | enumerate (seen : List (K × V)) (pc : EnumeratePc)
  | readStatistics (pc : StatisticsPc)
  | returned (op : Op K V) (res : Result K V)

/-- What a step did, as an observer of the atomic operations sees it. -/
inductive Act (K V : Type)
  | call (op : Op K V)
  | ret (op : Op K V) (res : Result K V)
  | createNode (node : Addr)
  | casHead (exchanged : Bool)
  | casNext (exchanged : Bool)
  | loadMine
  | storeValue
  | destroy (node : Addr)
  | getHead (node : Option Addr)
  | getNext (node : Option Addr)
  | countSuccess
  | getValue
  | countFailed
  | enumerateHead
  | enumerateValue
  | enumerateNext
  | enumerateEnd
  | readSuccess
  | readFailed

variable {K V T : Type} [DecidableEq K]

section Programs

variable {h : Hashing K} (m : Memory h V)

/-- `set`. The new node's allocator is that of the calling thread. -/
def setStep (allocator : HeapID) (fresh : Addr) (key : K) (value : V) :
    SetPc V → Option (Act K V × Memory h V × Pc K V)
  | .createNode =>
    (m.createNode allocator fresh key value).map fun m' =>
      (.createNode fresh, m', .set key value (.casHead fresh))
  | .casHead mine =>
    match compareExchangeStrong (m.buckets (h.bucketIdx key)) none (some mine) with
    | (true, cell, _) =>
      some (.casHead true, m.putHead (h.bucketIdx key) cell,
        .returned (.kv (.set key value)) (.kv .stored))
    | (false, _, some node) => some (.casHead false, m, .set key value (.visit mine node))
    | (false, _, none) => none -- `assert(node != nullptr)`
  | .visit mine node =>
    match m.nodes node with
    | none => none
    | some nd =>
      if nd.key = key then
        (m.nodes mine).map fun own =>
          (.loadMine, m, .set key value (.storeValue mine node own.ptrValue))
      else
        match compareExchangeStrong nd.next none (some mine) with
        | (true, cell, _) =>
          some (.casNext true, m.putNode node { nd with next := cell },
            .returned (.kv (.set key value)) (.kv .stored))
        | (false, _, some nextNode) =>
          some (.casNext false, m, .set key value (.visit mine nextNode))
        | (false, _, none) => none -- `assert(nextNode != nullptr)`
  | .storeValue mine node ptrValue =>
    (m.nodes node).map fun nd =>
      (.storeValue, m.putNode node { nd with ptrValue := ptrValue }, .set key value (.destroy mine))
  | .destroy mine =>
    (m.deleteSelf mine).map fun m' =>
      (.destroy mine, m', .returned (.kv (.set key value)) (.kv .stored))

/-- `get`. A node whose key matches is counted before its value is loaded. -/
def getStep (key : K) : GetPc → Option (Act K V × Memory h V × Pc K V)
  | .loadHead =>
    match m.buckets (h.bucketIdx key) with
    | none => some (.getHead none, m, .get key .countFailed)
    | some node => some (.getHead (some node), m, .get key (.visit node))
  | .visit node =>
    match m.nodes node with
    | none => none
    | some nd =>
      if nd.key = key then
        some (.countSuccess, { m with successReads := m.successReads + 1 },
          .get key (.loadValue node))
      else
        match nd.next with
        | none => some (.getNext none, m, .get key .countFailed)
        | some nextNode => some (.getNext (some nextNode), m, .get key (.visit nextNode))
  | .loadValue node =>
    (m.nodes node).map fun nd =>
      (.getValue, m, .returned (.kv (.get key)) (.kv (.found (some nd.ptrValue))))
  | .countFailed =>
    some (.countFailed, { m with failedReads := m.failedReads + 1 },
      .returned (.kv (.get key)) (.kv (.found none)))

/-- `enumerate` with a visitor that records its calls. -/
def enumerateStep (seen : List (K × V)) : EnumeratePc → Option (Act K V × Memory h V × Pc K V)
  | .loadHead bucket =>
    if hb : bucket < h.bucketCount then
      match m.buckets ⟨bucket, hb⟩ with
      | none => some (.enumerateHead, m, .enumerate seen (.loadHead (bucket + 1)))
      | some node => some (.enumerateHead, m, .enumerate seen (.loadValue bucket node))
    else some (.enumerateEnd, m, .returned .enumerate (.visited seen))
  | .loadValue bucket node =>
    (m.nodes node).map fun nd =>
      (.enumerateValue, m, .enumerate (seen ++ [(nd.key, nd.ptrValue)]) (.loadNext bucket node))
  | .loadNext bucket node =>
    match m.nodes node with
    | none => none
    | some nd =>
      match nd.next with
      | none => some (.enumerateNext, m, .enumerate seen (.loadHead (bucket + 1)))
      | some nextNode => some (.enumerateNext, m, .enumerate seen (.loadValue bucket nextNode))

/-- `get_read_statistics`: the two counters are loaded one after the other. -/
def statisticsStep : StatisticsPc → Act K V × Memory h V × Pc K V
  | .loadSuccess => (.readSuccess, m, .readStatistics (.loadFailed m.successReads))
  | .loadFailed success =>
    (.readFailed, m, .returned .readStatistics (.statistics ⟨success, m.failedReads⟩))

/-- The next atomic step inside a call. -/
def advance (allocator : HeapID) (fresh : Addr) : Pc K V → Option (Act K V × Memory h V × Pc K V)
  | .get key pc => getStep m key pc
  | .set key value pc => setStep m allocator fresh key value pc
  | .enumerate seen pc => enumerateStep m seen pc
  | .readStatistics pc => some (statisticsStep m pc)
  | .idle => none
  | .returned _ _ => none

end Programs

/-- A call at its first statement. -/
def Op.start : Op K V → Pc K V
  | .kv (.get key) => .get key .loadHead
  | .kv (.set key value) => .set key value .createNode
  | .enumerate => .enumerate [] (.loadHead 0)
  | .readStatistics => .readStatistics .loadSuccess

structure State (cfg : Config K T) (V : Type) where
  mem : Memory cfg.toHashing V
  pc : T → Pc K V

abbrev Event (T K V : Type) := T × Act K V

/-- What the scheduler lets happen next: a thread calls, takes an atomic step, in which
a new node would be placed at `fresh`, or sees its call return. -/
inductive Choice (T K V : Type)
  | call (t : T) (op : Op K V)
  | advance (t : T) (fresh : Addr)
  | ret (t : T)

namespace State

variable [DecidableEq T] {cfg : Config K T}

def init (cfg : Config K T) (V : Type) : State cfg V where
  mem := .new cfg.toHashing V
  pc := fun _ => .idle

def setPc (s : State cfg V) (t : T) (pc : Pc K V) : State cfg V :=
  { s with pc := Function.update s.pc t pc }

def next (s : State cfg V) : Choice T K V → Option (Event T K V × State cfg V)
  | .call t op =>
    match s.pc t with
    | .idle => some ((t, .call op), s.setPc t op.start)
    | _ => none
  | .advance t fresh =>
    (Engine.advance s.mem (cfg.heapId t) fresh (s.pc t)).map fun r =>
      ((t, r.1), { mem := r.2.1, pc := Function.update s.pc t r.2.2 })
  | .ret t =>
    match s.pc t with
    | .returned op res => some ((t, .ret op res), s.setPc t .idle)
    | _ => none

/-- Some choice of the scheduler leads from `s` to `s'`, and `e` is what happens. -/
def Step (s : State cfg V) (e : Event T K V) (s' : State cfg V) : Prop :=
  ∃ c, s.next c = some (e, s')

/-- Execute a schedule. -/
def exec (s : State cfg V) (cs : List (Choice T K V)) : Option (List (Event T K V) × State cfg V) :=
  execute next s cs

theorem run_of_exec {s s' : State cfg V} {cs : List (Choice T K V)} {es : List (Event T K V)}
    (h : s.exec cs = some (es, s')) : Run Step s es s' := run_of_execute h

end State

/-- One bucket, so that all keys share a chain; thread `t` allocates from heap `t`. -/
def oneBucket : Config Nat Nat where
  bucketCount := 1
  bucketCount_pos := by decide
  hash := id
  heapId := id

/-! ## The outcomes of a step inside a call -/

/-- `Advance m allocator pc a m' pc'`: the atomic step at `pc` may do `a` to the memory. -/
inductive Advance {h : Hashing K} (m : Memory h V) (allocator : HeapID) :
    Pc K V → Act K V → Memory h V → Pc K V → Prop
  | createNode {key : K} {value : V} {a : Addr} (hfree : m.blocks a = none) :
      Advance m allocator (.set key value .createNode) (.createNode a)
        (m.allocate allocator a ⟨key, value, none, allocator⟩) (.set key value (.casHead a))
  | headWon {key : K} {value : V} {mine : Addr} (hp : m.buckets (h.bucketIdx key) = none) :
      Advance m allocator (.set key value (.casHead mine)) (.casHead true)
        (m.putHead (h.bucketIdx key) (some mine)) (.returned (.kv (.set key value)) (.kv .stored))
  | headLost {key : K} {value : V} {mine node : Addr}
      (hp : m.buckets (h.bucketIdx key) = some node) :
      Advance m allocator (.set key value (.casHead mine)) (.casHead false) m
        (.set key value (.visit mine node))
  | loadMine {key : K} {value : V} {mine node : Addr} {nd own : ListNode K V}
      (hn : m.nodes node = some nd) (hk : nd.key = key) (ho : m.nodes mine = some own) :
      Advance m allocator (.set key value (.visit mine node)) .loadMine m
        (.set key value (.storeValue mine node own.ptrValue))
  | nextWon {key : K} {value : V} {mine node : Addr} {nd : ListNode K V}
      (hn : m.nodes node = some nd) (hk : nd.key ≠ key) (hp : nd.next = none) :
      Advance m allocator (.set key value (.visit mine node)) (.casNext true)
        (m.putNode node { nd with next := some mine })
        (.returned (.kv (.set key value)) (.kv .stored))
  | nextLost {key : K} {value : V} {mine node nextNode : Addr} {nd : ListNode K V}
      (hn : m.nodes node = some nd) (hk : nd.key ≠ key) (hp : nd.next = some nextNode) :
      Advance m allocator (.set key value (.visit mine node)) (.casNext false) m
        (.set key value (.visit mine nextNode))
  | storeValue {key : K} {value ptrValue : V} {mine node : Addr} {nd : ListNode K V}
      (hn : m.nodes node = some nd) :
      Advance m allocator (.set key value (.storeValue mine node ptrValue)) .storeValue
        (m.putNode node { nd with ptrValue := ptrValue }) (.set key value (.destroy mine))
  | destroy {key : K} {value : V} {mine : Addr} {own : ListNode K V}
      (ho : m.nodes mine = some own) (hb : m.blocks mine = some own.allocator) :
      Advance m allocator (.set key value (.destroy mine)) (.destroy mine) (m.release mine)
        (.returned (.kv (.set key value)) (.kv .stored))
  | getHeadNull {key : K} (hp : m.buckets (h.bucketIdx key) = none) :
      Advance m allocator (.get key .loadHead) (.getHead none) m (.get key .countFailed)
  | getHead {key : K} {node : Addr} (hp : m.buckets (h.bucketIdx key) = some node) :
      Advance m allocator (.get key .loadHead) (.getHead (some node)) m (.get key (.visit node))
  | getHit {key : K} {node : Addr} {nd : ListNode K V}
      (hn : m.nodes node = some nd) (hk : nd.key = key) :
      Advance m allocator (.get key (.visit node)) .countSuccess
        { m with successReads := m.successReads + 1 } (.get key (.loadValue node))
  | getNextNull {key : K} {node : Addr} {nd : ListNode K V}
      (hn : m.nodes node = some nd) (hk : nd.key ≠ key) (hp : nd.next = none) :
      Advance m allocator (.get key (.visit node)) (.getNext none) m (.get key .countFailed)
  | getNext {key : K} {node nextNode : Addr} {nd : ListNode K V}
      (hn : m.nodes node = some nd) (hk : nd.key ≠ key) (hp : nd.next = some nextNode) :
      Advance m allocator (.get key (.visit node)) (.getNext (some nextNode)) m
        (.get key (.visit nextNode))
  | getValue {key : K} {node : Addr} {nd : ListNode K V} (hn : m.nodes node = some nd) :
      Advance m allocator (.get key (.loadValue node)) .getValue m
        (.returned (.kv (.get key)) (.kv (.found (some nd.ptrValue))))
  | getFailed {key : K} :
      Advance m allocator (.get key .countFailed) .countFailed
        { m with failedReads := m.failedReads + 1 }
        (.returned (.kv (.get key)) (.kv (.found none)))
  | enumerateHeadNull {seen : List (K × V)} {b : Fin h.bucketCount} (hp : m.buckets b = none) :
      Advance m allocator (.enumerate seen (.loadHead b)) .enumerateHead m
        (.enumerate seen (.loadHead (b + 1)))
  | enumerateHead {seen : List (K × V)} {b : Fin h.bucketCount} {node : Addr}
      (hp : m.buckets b = some node) :
      Advance m allocator (.enumerate seen (.loadHead b)) .enumerateHead m
        (.enumerate seen (.loadValue b node))
  | enumerateEnd {seen : List (K × V)} {bucket : Nat} (hb : h.bucketCount ≤ bucket) :
      Advance m allocator (.enumerate seen (.loadHead bucket)) .enumerateEnd m
        (.returned .enumerate (.visited seen))
  | enumerateValue {seen : List (K × V)} {bucket : Nat} {node : Addr} {nd : ListNode K V}
      (hn : m.nodes node = some nd) :
      Advance m allocator (.enumerate seen (.loadValue bucket node)) .enumerateValue m
        (.enumerate (seen ++ [(nd.key, nd.ptrValue)]) (.loadNext bucket node))
  | enumerateNextNull {seen : List (K × V)} {bucket : Nat} {node : Addr} {nd : ListNode K V}
      (hn : m.nodes node = some nd) (hp : nd.next = none) :
      Advance m allocator (.enumerate seen (.loadNext bucket node)) .enumerateNext m
        (.enumerate seen (.loadHead (bucket + 1)))
  | enumerateNext {seen : List (K × V)} {bucket : Nat} {node nextNode : Addr}
      {nd : ListNode K V} (hn : m.nodes node = some nd) (hp : nd.next = some nextNode) :
      Advance m allocator (.enumerate seen (.loadNext bucket node)) .enumerateNext m
        (.enumerate seen (.loadValue bucket nextNode))
  | readSuccess :
      Advance m allocator (.readStatistics .loadSuccess) .readSuccess m
        (.readStatistics (.loadFailed m.successReads))
  | readFailed {success : UInt64} :
      Advance m allocator (.readStatistics (.loadFailed success)) .readFailed m
        (.returned .readStatistics (.statistics ⟨success, m.failedReads⟩))

section Soundness

variable {h : Hashing K} {m m' : Memory h V} {allocator : HeapID} {fresh : Addr} {a : Act K V}
  {pc pc' : Pc K V}

theorem setStep_sound {key : K} {value : V} {p : SetPc V}
    (hs : setStep m allocator fresh key value p = some (a, m', pc')) :
    Advance m allocator (.set key value p) a m' pc' := by
  cases p with
  | createNode =>
    obtain ⟨_, hc, heq⟩ := Option.map_eq_some_iff.mp hs
    obtain ⟨hfree, rfl⟩ := Memory.createNode_eq_some hc
    cases heq
    exact .createNode hfree
  | casHead mine =>
    cases hp : m.buckets (h.bucketIdx key) with
    | none =>
      simp only [setStep, hp, compareExchangeStrong_none, Option.some.injEq, Prod.mk.injEq] at hs
      obtain ⟨rfl, rfl, rfl⟩ := hs
      exact .headWon hp
    | some node =>
      simp only [setStep, hp, compareExchangeStrong_some, Option.some.injEq, Prod.mk.injEq] at hs
      obtain ⟨rfl, rfl, rfl⟩ := hs
      exact .headLost hp
  | visit mine node =>
    cases hn : m.nodes node with
    | none => simp [setStep, hn] at hs
    | some nd =>
      by_cases hk : nd.key = key
      · simp only [setStep, hn, if_pos hk, Option.map_eq_some_iff, Prod.mk.injEq] at hs
        obtain ⟨own, ho, rfl, rfl, rfl⟩ := hs
        exact .loadMine hn hk ho
      · cases hp : nd.next with
        | none =>
          simp only [setStep, hn, if_neg hk, hp, compareExchangeStrong_none, Option.some.injEq,
            Prod.mk.injEq] at hs
          obtain ⟨rfl, rfl, rfl⟩ := hs
          exact .nextWon hn hk hp
        | some nextNode =>
          simp only [setStep, hn, if_neg hk, hp, compareExchangeStrong_some, Option.some.injEq,
            Prod.mk.injEq] at hs
          obtain ⟨rfl, rfl, rfl⟩ := hs
          exact .nextLost hn hk hp
  | storeValue mine node ptrValue =>
    obtain ⟨nd, hn, heq⟩ := Option.map_eq_some_iff.mp hs
    cases heq
    exact .storeValue hn
  | destroy mine =>
    obtain ⟨_, hd, heq⟩ := Option.map_eq_some_iff.mp hs
    obtain ⟨own, ho, hb, rfl⟩ := Memory.deleteSelf_eq_some hd
    cases heq
    exact .destroy ho hb

theorem getStep_sound {key : K} {p : GetPc} (hs : getStep m key p = some (a, m', pc')) :
    Advance m allocator (.get key p) a m' pc' := by
  cases p with
  | loadHead =>
    cases hp : m.buckets (h.bucketIdx key) with
    | none =>
      simp only [getStep, hp, Option.some.injEq, Prod.mk.injEq] at hs
      obtain ⟨rfl, rfl, rfl⟩ := hs
      exact .getHeadNull hp
    | some node =>
      simp only [getStep, hp, Option.some.injEq, Prod.mk.injEq] at hs
      obtain ⟨rfl, rfl, rfl⟩ := hs
      exact .getHead hp
  | visit node =>
    cases hn : m.nodes node with
    | none => simp [getStep, hn] at hs
    | some nd =>
      by_cases hk : nd.key = key
      · simp only [getStep, hn, if_pos hk, Option.some.injEq, Prod.mk.injEq] at hs
        obtain ⟨rfl, rfl, rfl⟩ := hs
        exact .getHit hn hk
      · cases hp : nd.next with
        | none =>
          simp only [getStep, hn, if_neg hk, hp, Option.some.injEq, Prod.mk.injEq] at hs
          obtain ⟨rfl, rfl, rfl⟩ := hs
          exact .getNextNull hn hk hp
        | some nextNode =>
          simp only [getStep, hn, if_neg hk, hp, Option.some.injEq, Prod.mk.injEq] at hs
          obtain ⟨rfl, rfl, rfl⟩ := hs
          exact .getNext hn hk hp
  | loadValue node =>
    obtain ⟨nd, hn, heq⟩ := Option.map_eq_some_iff.mp hs
    cases heq
    exact .getValue hn
  | countFailed =>
    cases hs
    exact .getFailed

omit [DecidableEq K] in
theorem enumerateStep_sound {seen : List (K × V)} {p : EnumeratePc}
    (hs : enumerateStep m seen p = some (a, m', pc')) :
    Advance m allocator (.enumerate seen p) a m' pc' := by
  cases p with
  | loadHead bucket =>
    by_cases hb : bucket < h.bucketCount
    · cases hp : m.buckets ⟨bucket, hb⟩ with
      | none =>
        simp only [enumerateStep, dif_pos hb, hp, Option.some.injEq, Prod.mk.injEq] at hs
        obtain ⟨rfl, rfl, rfl⟩ := hs
        exact .enumerateHeadNull (b := ⟨bucket, hb⟩) hp
      | some node =>
        simp only [enumerateStep, dif_pos hb, hp, Option.some.injEq, Prod.mk.injEq] at hs
        obtain ⟨rfl, rfl, rfl⟩ := hs
        exact .enumerateHead (b := ⟨bucket, hb⟩) hp
    · simp only [enumerateStep, dif_neg hb, Option.some.injEq, Prod.mk.injEq] at hs
      obtain ⟨rfl, rfl, rfl⟩ := hs
      exact .enumerateEnd (Nat.le_of_not_lt hb)
  | loadValue bucket node =>
    obtain ⟨nd, hn, heq⟩ := Option.map_eq_some_iff.mp hs
    cases heq
    exact .enumerateValue hn
  | loadNext bucket node =>
    cases hn : m.nodes node with
    | none => simp [enumerateStep, hn] at hs
    | some nd =>
      cases hp : nd.next with
      | none =>
        simp only [enumerateStep, hn, hp, Option.some.injEq, Prod.mk.injEq] at hs
        obtain ⟨rfl, rfl, rfl⟩ := hs
        exact .enumerateNextNull hn hp
      | some nextNode =>
        simp only [enumerateStep, hn, hp, Option.some.injEq, Prod.mk.injEq] at hs
        obtain ⟨rfl, rfl, rfl⟩ := hs
        exact .enumerateNext hn hp

/-- Every step that `advance` computes is one of the listed outcomes. -/
theorem advance_sound (hs : advance m allocator fresh pc = some (a, m', pc')) :
    Advance m allocator pc a m' pc' := by
  cases pc with
  | idle => cases hs
  | get key p => exact getStep_sound hs
  | set key value p => exact setStep_sound hs
  | enumerate seen p => exact enumerateStep_sound hs
  | readStatistics p =>
    cases p with
    | loadSuccess => cases hs; exact .readSuccess
    | loadFailed success => cases hs; exact .readFailed
  | returned op res => cases hs

end Soundness

omit [DecidableEq K] in
/-- An atomic step is no call and no return. -/
theorem Advance.inside {h : Hashing K} {m m' : Memory h V} {allocator : HeapID} {a : Act K V}
    {pc pc' : Pc K V} (hs : Advance m allocator pc a m' pc') :
    (∀ op, a ≠ .call op) ∧ ∀ op res, a ≠ .ret op res := by
  cases hs <;> exact ⟨fun _ => by simp, fun _ _ => by simp⟩

/-- What a step of the system is: a call, a return, or an atomic step of one thread. -/
theorem State.step_cases [DecidableEq T] {cfg : Config K T} {s s' : State cfg V}
    {e : Event T K V} (hs : s.Step e s') :
    (∃ t op, s.pc t = .idle ∧ e = (t, .call op) ∧ s' = s.setPc t op.start) ∨
    (∃ t op res, s.pc t = .returned op res ∧ e = (t, .ret op res) ∧ s' = s.setPc t .idle) ∨
    (∃ t a m' pc', Advance s.mem (cfg.heapId t) (s.pc t) a m' pc' ∧ e = (t, a) ∧
      s' = ⟨m', Function.update s.pc t pc'⟩) := by
  obtain ⟨c, hc⟩ := hs
  cases c with
  | call t op =>
    cases hpc : s.pc t <;> simp only [State.next, hpc, Option.some.injEq, Prod.mk.injEq,
      reduceCtorEq] at hc
    exact .inl ⟨t, op, hpc, hc.1.symm, hc.2.symm⟩
  | advance t fresh =>
    obtain ⟨⟨a, m', pc'⟩, ha, heq⟩ := Option.map_eq_some_iff.mp hc
    cases heq
    exact .inr (.inr ⟨t, a, m', pc', advance_sound ha, rfl, rfl⟩)
  | ret t =>
    cases hpc : s.pc t <;> simp only [State.next, hpc, Option.some.injEq, Prod.mk.injEq,
      reduceCtorEq] at hc
    exact .inr (.inl ⟨t, _, _, hpc, hc.1.symm, hc.2.symm⟩)

theorem State.step_call [DecidableEq T] {cfg : Config K T} {s s' : State cfg V} {t : T}
    {op : Op K V} (hs : s.Step (t, .call op) s') : s.pc t = .idle ∧ s' = s.setPc t op.start := by
  obtain ⟨u, o, hpc, heq, rfl⟩ | ⟨_, _, _, _, heq, _⟩ | ⟨_, _, _, _, hadv, heq, _⟩ :=
    State.step_cases hs
  · obtain ⟨rfl, rfl⟩ : t = u ∧ op = o := by simpa using heq
    exact ⟨hpc, rfl⟩
  · simp at heq
  · obtain ⟨rfl, rfl⟩ := Prod.ext_iff.mp heq
    generalize s.pc t = pc at hadv
    cases hadv

theorem State.step_ret [DecidableEq T] {cfg : Config K T} {s s' : State cfg V} {t : T}
    {op : Op K V} {res : Result K V} (hs : s.Step (t, .ret op res) s') :
    s.pc t = .returned op res ∧ s' = s.setPc t .idle := by
  obtain ⟨_, _, _, heq, _⟩ | ⟨u, o, r, hpc, heq, rfl⟩ | ⟨_, _, _, _, hadv, heq, _⟩ :=
    State.step_cases hs
  · simp at heq
  · obtain ⟨rfl, rfl, rfl⟩ : t = u ∧ op = o ∧ res = r := by simpa using heq
    exact ⟨hpc, rfl⟩
  · obtain ⟨rfl, rfl⟩ := Prod.ext_iff.mp heq
    generalize s.pc t = pc at hadv
    cases hadv

end LockFreeKV.Engine
