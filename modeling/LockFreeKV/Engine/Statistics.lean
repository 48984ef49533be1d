import LockFreeKV.Engine.Step
import LockFreeKV.Lib.Run
import Mathlib.Algebra.Group.Nat.Defs

/-!
# The read statistics

Each counter is the number of its increments, and every `get` makes exactly one:
this is an invariant over the events of a run, thread by thread. The statistics
call loads the counters one after the other; the sum it reports lies between the
numbers of counted reads at the two loads, and these numbers grow by one at a time.
-/
namespace LockFreeKV.Engine

open LockFreeKV.Lib

variable {K V T : Type} {h : Hashing K}

/-- The atomic increment of one of the two counters, `found` telling which. -/
def Act.counts (found : Bool) : Act K V → Bool
  | .countSuccess => found
  | .countFailed => !found
  | _ => false

/-- A `get` returns, with a value or without one. -/
def Act.returnsRead (found : Bool) : Act K V → Bool
  | .ret (.kv (.get _)) (.kv (.found r)) => r.isSome == found
  | _ => false

/-- The increments that the call at this program counter has made. -/
def Pc.counted (found : Bool) : Pc K V → Nat
  | .get _ (.loadValue _) => if found then 1 else 0
  | .returned (.kv (.get _)) (.kv (.found r)) => if r.isSome == found then 1 else 0
  | _ => 0

/-- The call that is running, or about to return. -/
def Pc.op : Pc K V → Option (Op K V)
  | .idle => none
  | .get key _ => some (.kv (.get key))
  | .set key value _ => some (.kv (.set key value))
  | .enumerate _ _ => some .enumerate
  | .readStatistics _ => some .readStatistics
  | .returned op _ => some op

/-- A `get` returns an optional value. -/
def Pc.Answered : Pc K V → Prop
  | .returned (.kv (.get _)) res => ∃ r, res = .kv (.found r)
  | _ => True

/-- A `get` is in flight: it has been called and has not returned. -/
def Pc.reading : Pc K V → Bool
  | .get _ _ => true
  | .returned (.kv (.get _)) _ => true
  | _ => false

/-- The increments among the events of a run. -/
def counted (found : Bool) (es : List (Event T K V)) : Nat := es.countP fun e => e.2.counts found

/-- The `get`s that returned with a value, or without one. -/
def returnedReads (found : Bool) (es : List (Event T K V)) : Nat :=
  es.countP fun e => e.2.returnsRead found

/-- One of the two counters. -/
def Memory.reads (m : Memory h V) (found : Bool) : UInt64 :=
  if found then m.successReads else m.failedReads

@[simp] theorem counted_append (found : Bool) (es es' : List (Event T K V)) :
    counted found (es ++ es') = counted found es + counted found es' := List.countP_append

@[simp] theorem counted_nil (found : Bool) : counted found ([] : List (Event T K V)) = 0 := rfl

theorem Op.start_op (op : Op K V) : op.start.op = some op := by
  cases op with
  | kv op => cases op <;> rfl
  | _ => rfl

theorem Op.start_counted (found : Bool) (op : Op K V) : op.start.counted found = 0 := by
  cases op with
  | kv op => cases op <;> rfl
  | _ => rfl

theorem Op.start_answered (op : Op K V) : op.start.Answered := by
  cases op with
  | kv op => cases op <;> trivial
  | _ => trivial

variable [DecidableEq T]

/-- The increments made by one thread. -/
def countedBy (t : T) (found : Bool) (es : List (Event T K V)) : Nat :=
  es.countP fun e => decide (e.1 = t) && e.2.counts found

def returnedReadsBy (t : T) (found : Bool) (es : List (Event T K V)) : Nat :=
  es.countP fun e => decide (e.1 = t) && e.2.returnsRead found

theorem countedBy_append (t : T) (found : Bool) (es es' : List (Event T K V)) :
    countedBy t found (es ++ es') = countedBy t found es + countedBy t found es' :=
  List.countP_append

theorem returnedReadsBy_append (t : T) (found : Bool) (es es' : List (Event T K V)) :
    returnedReadsBy t found (es ++ es') =
      returnedReadsBy t found es + returnedReadsBy t found es' := List.countP_append

/-- A thread that sees no return returns no read. -/
theorem returnedReadsBy_eq_zero {t : T} {es : List (Event T K V)} (found : Bool)
    (hret : ∀ o r, (t, .ret o r) ∉ es) : returnedReadsBy t found es = 0 := by
  refine List.countP_eq_zero.mpr fun e he => ?_
  obtain ⟨u, a⟩ := e
  cases a with
  | ret o r =>
    have hu : u ≠ t := fun hu => hret o r (hu ▸ he)
    simp [hu]
  | _ => simp [Act.returnsRead]

section Atomic

variable {m m' : Memory h V} {allocator : HeapID} {a : Act K V} {pc pc' : Pc K V}

/-- What an atomic step does to a counter, and to the increments of its call. -/
theorem Advance.counts (hs : Advance m allocator pc a m' pc') (found : Bool) :
    m'.reads found = m.reads found + (if a.counts found then 1 else 0) ∧
    pc'.counted found = pc.counted found + (if a.counts found then 1 else 0) := by
  cases hs with
  | getHit => cases found <;> simp [Memory.reads, Act.counts, Pc.counted]
  | getFailed => cases found <;> simp [Memory.reads, Act.counts, Pc.counted]
  | getValue => cases found <;> simp [Memory.reads, Act.counts, Pc.counted]
  | _ => simp [Memory.reads, Act.counts, Pc.counted, Memory.allocate, Memory.putHead, Memory.putNode,
      Memory.release]

theorem Advance.op (hs : Advance m allocator pc a m' pc') : pc'.op = pc.op ∧ pc.op ≠ none := by
  cases hs <;> exact ⟨rfl, by simp [Pc.op]⟩

theorem Advance.answered (hs : Advance m allocator pc a m' pc') : pc'.Answered := by
  cases hs with
  | getValue => exact ⟨_, rfl⟩
  | getFailed => exact ⟨_, rfl⟩
  | _ => trivial

/-- An atomic step is no return. -/
theorem Advance.returnsRead (hs : Advance m allocator pc a m' pc') (found : Bool) :
    a.returnsRead found = false := by
  cases hs <;> rfl

end Atomic

section Runs

variable [DecidableEq K] {cfg : Config K T} {s s' : State cfg V} {t : T}

/-- The counters and the calls in flight account for all increments of a run. -/
structure Counted (es : List (Event T K V)) (s : State cfg V) : Prop where
  reads : ∀ found, s.mem.reads found = UInt64.ofNat (counted found es)
  calls : ∀ found t, countedBy t found es = returnedReadsBy t found es + (s.pc t).counted found
  answered : ∀ t, (s.pc t).Answered

omit [DecidableEq K] in
/-- The frame of a step: what it adds to the counts and to the stepping thread's call. -/
theorem Counted.snoc {es : List (Event T K V)} (hc : Counted es s) {a : Act K V}
    {m' : Memory cfg.toHashing V} {pc' : Pc K V}
    (hreads : ∀ found, m'.reads found = s.mem.reads found + (if a.counts found then 1 else 0))
    (hcalls : ∀ found, (s.pc t).counted found + (if a.counts found then 1 else 0) =
      (if a.returnsRead found then 1 else 0) + pc'.counted found)
    (hans : pc'.Answered) :
    Counted (V := V) (es ++ [(t, a)]) ⟨m', Function.update s.pc t pc'⟩ where
  reads found := by
    have hone : counted found [(t, a)] = if a.counts found then 1 else 0 := by
      simp [counted, List.countP_singleton]
    rw [hreads, hc.reads, counted_append, hone, UInt64.ofNat_add]
    split <;> rfl
  calls found u := by
    have hadd := hc.calls found u
    rw [countedBy_append, returnedReadsBy_append]
    by_cases hu : u = t
    · subst hu
      have hone : countedBy u found [(u, a)] = if a.counts found then 1 else 0 := by
        simp [countedBy, List.countP_singleton]
      have hret : returnedReadsBy u found [(u, a)] = if a.returnsRead found then 1 else 0 := by
        simp [returnedReadsBy, List.countP_singleton]
      have hcall := hcalls found
      simp only [Function.update_self]
      omega
    · have hone : countedBy u found [(t, a)] = 0 := by simp [countedBy, Ne.symm hu]
      have hret : returnedReadsBy u found [(t, a)] = 0 := by simp [returnedReadsBy, Ne.symm hu]
      simp only [Function.update_of_ne hu]
      omega
  answered u := by
    by_cases hu : u = t
    · subst hu
      simpa using hans
    · simpa [hu] using hc.answered u

theorem Counted.step {es : List (Event T K V)} {e : Event T K V} (hc : Counted es s)
    (hs : s.Step e s') : Counted (es ++ [e]) s' := by
  obtain ⟨t, op, hpc, rfl, rfl⟩ | ⟨t, op, res, hpc, rfl, rfl⟩ | ⟨t, a, m', pc', hadv, rfl, rfl⟩ :=
    State.step_cases hs
  · refine hc.snoc (by simp [Act.counts]) (fun found => ?_) op.start_answered
    rw [hpc, op.start_counted]
    rfl
  · refine hc.snoc (by simp [Act.counts]) (fun found => ?_) trivial
    have hans := hc.answered t
    rw [hpc] at hans ⊢
    -- the increment of a `get` passes from its call to its return
    cases op with
    | kv op =>
      cases op with
      | get key =>
        obtain ⟨r, rfl⟩ := hans
        simp [Act.counts, Act.returnsRead, Pc.counted]
      | set key value => simp [Act.counts, Act.returnsRead, Pc.counted]
    | _ => simp [Act.counts, Act.returnsRead, Pc.counted]
  · refine hc.snoc (fun found => (hadv.counts found).1) (fun found => ?_) hadv.answered
    rw [(hadv.counts found).2, hadv.returnsRead found]
    simp

theorem counted_of_run {es : List (Event T K V)} (hrun : Run State.Step (State.init cfg V) es s) :
    Counted es s := by
  have h0 : Counted [] (State.init cfg V) :=
    ⟨fun found => by cases found <;> rfl, fun _ _ => rfl, fun _ => trivial⟩
  exact hrun.invariant Counted h0 fun _ _ _ _ hc hs => hc.step hs

/-- A thread that sees no return stays in its call. -/
theorem op_of_run {es : List (Event T K V)} (hrun : Run State.Step s es s') {op : Op K V}
    (hop : (s.pc t).op = some op) (hret : ∀ o r, (t, .ret o r) ∉ es) :
    (s'.pc t).op = some op := by
  refine hrun.invariant (fun es m => (∀ o r, (t, .ret o r) ∉ es) → (m.pc t).op = some op)
    (fun _ => hop) (fun es m e m' ih hs hno => ?_) hret
  have hm := ih fun o r hmem => hno o r (by simp [hmem])
  obtain ⟨u, o, hpc, rfl, rfl⟩ | ⟨u, o, r, hpc, rfl, rfl⟩ | ⟨u, a, m1, pc', hadv, rfl, rfl⟩ :=
    State.step_cases hs
  · by_cases hu : t = u
    · rw [← hu] at hpc
      simp [hpc, Pc.op] at hm
    · simpa [State.setPc, hu] using hm
  · have hu : t ≠ u := fun hu => hno o r (by simp [hu])
    simpa [State.setPc, hu] using hm
  · by_cases hu : t = u
    · subst hu
      simpa [hadv.op.1] using hm
    · simpa [hu] using hm

/-- The increments of one complete call: a `get` makes exactly one, at the counter of its
result, another call none. -/
theorem counted_of_call {before mid after : List (Event T K V)} {op op' : Op K V}
    {res : Result K V} (hrun : Run State.Step (State.init cfg V)
      (before ++ (t, .call op) :: (mid ++ (t, .ret op' res) :: after)) s)
    (hret : ∀ o r, (t, .ret o r) ∉ mid) :
    (∀ key, op = .kv (.get key) → ∃ r, res = .kv (.found r) ∧
      ∀ found, countedBy t found mid = if r.isSome == found then 1 else 0) ∧
    ((∀ key, op ≠ .kv (.get key)) → ∀ found, countedBy t found mid = 0) := by
  obtain ⟨s0, h0, hrest⟩ := hrun.split
  obtain ⟨s1, hcall, hrest⟩ := hrest.cons_split
  obtain ⟨s2, hmid, hrest⟩ := hrest.split
  obtain ⟨s3, hlast, _⟩ := hrest.cons_split
  obtain ⟨hidle, rfl⟩ := State.step_call hcall
  obtain ⟨hpc, rfl⟩ := State.step_ret hlast
  have hrun1 : Run State.Step (State.init cfg V) (before ++ [(t, .call op)]) _ := h0.snoc hcall
  have hc1 := counted_of_run hrun1
  have hc2 := counted_of_run (hrun1.append hmid)
  obtain rfl : op' = op := by
    have hop := op_of_run hmid (t := t) (by simpa [State.setPc] using op.start_op) hret
    simpa [hpc, Pc.op] using hop
  have hmade : ∀ found, countedBy t found mid = (Pc.returned op' res).counted found := by
    intro found
    have h1 := hc1.calls found t
    have h2 := hc2.calls found t
    rw [countedBy_append, returnedReadsBy_append, returnedReadsBy_eq_zero found hret, hpc] at h2
    simp only [State.setPc, Function.update_self, Op.start_counted] at h1
    omega
  refine ⟨?_, fun hno found => ?_⟩
  · rintro key rfl
    have hans := hc2.answered t
    rw [hpc] at hans
    obtain ⟨r, rfl⟩ := hans
    exact ⟨r, rfl, hmade⟩
  · rw [hmade found]
    cases op' with
    | kv op =>
      cases op with
      | get key => exact absurd rfl (hno key)
      | set key value => rfl
    | _ => rfl

omit [DecidableEq K] in
/-- With no `get` in flight a counter is the number of the `get`s that returned so. -/
theorem Counted.quiet {es : List (Event T K V)} (hc : Counted es s)
    (hquiet : ∀ t, (s.pc t).reading = false) (found : Bool) :
    s.mem.reads found = UInt64.ofNat (returnedReads found es) := by
  rw [hc.reads]
  congr 1
  refine countP_eq_of_sources fun t => ?_
  have hcalls := hc.calls found t
  have hnone : (s.pc t).counted found = 0 := by
    have hq := hquiet t
    unfold Pc.reading at hq
    unfold Pc.counted
    split at hq <;> simp_all
  rw [hnone] at hcalls
  exact hcalls

/-- What a statistics call that began after the events `base` has loaded, after the further
events `mid`: the success counter at one instant, the failure counter at a later one. -/
def Sampled (base mid : List (Event T K V)) : Pc K V → Prop
  | .readStatistics .loadSuccess => True
  | .readStatistics (.loadFailed success) =>
    ∃ p q, mid = p ++ q ∧ success = UInt64.ofNat (counted true (base ++ p))
  | .returned .readStatistics (.statistics st) => ∃ p q r, mid = p ++ (q ++ r) ∧
    st.successOperations = UInt64.ofNat (counted true (base ++ p)) ∧
    st.failedOperations = UInt64.ofNat (counted false (base ++ (p ++ q)))
  | _ => False

omit [DecidableEq T] [DecidableEq K] in
/-- Later events do not change what was loaded. -/
theorem Sampled.snoc {base mid : List (Event T K V)} {pc : Pc K V} (hs : Sampled base mid pc)
    (e : Event T K V) : Sampled base (mid ++ [e]) pc := by
  unfold Sampled at hs ⊢
  split
  · trivial
  · obtain ⟨p, q, rfl, hv⟩ := hs
    exact ⟨p, q ++ [e], by simp, hv⟩
  · obtain ⟨p, q, r, rfl, hv⟩ := hs
    exact ⟨p, q, r ++ [e], by simp, hv⟩
  · simp_all

theorem Sampled.step {base mid : List (Event T K V)} (hsam : Sampled base mid (s.pc t))
    (hc : Counted (base ++ mid) s) {e : Event T K V} (hs : s.Step e s')
    (hret : ∀ o r, e ≠ (t, .ret o r)) : Sampled base (mid ++ [e]) (s'.pc t) := by
  have hother : s'.pc t = s.pc t → Sampled base (mid ++ [e]) (s'.pc t) := fun hpc => by
    rw [hpc]
    exact hsam.snoc e
  obtain ⟨u, o, hpc, rfl, rfl⟩ | ⟨u, o, r, hpc, rfl, rfl⟩ | ⟨u, a, m1, pc', hadv, rfl, rfl⟩ :=
    State.step_cases hs
  · refine hother (Function.update_of_ne ?_ _ _)
    rintro rfl
    rw [hpc] at hsam
    exact hsam
  · exact hother (Function.update_of_ne (fun hu => hret o r (by rw [hu])) _ _)
  · by_cases hu : t = u
    · subst hu
      simp only [Function.update_self]
      generalize s.pc t = pc at hsam hadv
      cases hadv with
      | readSuccess => exact ⟨mid, [(t, .readSuccess)], rfl, hc.reads true⟩
      | readFailed =>
        obtain ⟨p, q, rfl, hv⟩ := hsam
        exact ⟨p, q, [(t, .readFailed)], by simp, hv, hc.reads false⟩
      | _ => exact hsam.elim
    · exact hother (Function.update_of_ne hu _ _)

/-- What a complete statistics call returns. -/
theorem sampled_of_call {before mid after : List (Event T K V)} {st : AccessStatistics}
    (hrun : Run State.Step (State.init cfg V) (before ++ (t, .call .readStatistics) ::
      (mid ++ (t, .ret .readStatistics (.statistics st)) :: after)) s)
    (hret : ∀ o r, (t, .ret o r) ∉ mid) :
    ∃ p q r, mid = p ++ (q ++ r) ∧
      st.successOperations =
        UInt64.ofNat (counted true (before ++ (t, .call .readStatistics) :: p)) ∧
      st.failedOperations =
        UInt64.ofNat (counted false (before ++ (t, .call .readStatistics) :: (p ++ q))) := by
  obtain ⟨s0, h0, hrest⟩ := hrun.split
  obtain ⟨s1, hcall, hrest⟩ := hrest.cons_split
  obtain ⟨s2, hmid, hrest⟩ := hrest.split
  obtain ⟨s3, hlast, _⟩ := hrest.cons_split
  obtain ⟨_, rfl⟩ := State.step_call hcall
  obtain ⟨hpc, _⟩ := State.step_ret hlast
  have hbase : Run State.Step (State.init cfg V) (before ++ [(t, .call .readStatistics)]) _ :=
    h0.snoc hcall
  have hinv := hmid.invariant (fun mid m => (∀ o r, (t, .ret o r) ∉ mid) →
      Run State.Step (State.init cfg V) (before ++ [(t, .call .readStatistics)] ++ mid) m ∧
        Sampled (before ++ [(t, .call .readStatistics)]) mid (m.pc t))
    (fun _ => ⟨by simpa using hbase, by simp [State.setPc, Op.start, Sampled]⟩)
    fun mid m e m' ih hs hno => by
      obtain ⟨hm, hsam⟩ := ih fun o r hmem => hno o r (by simp [hmem])
      refine ⟨by simpa using hm.snoc hs, hsam.step (counted_of_run hm) hs fun o r he => ?_⟩
      exact hno o r (by simp [he])
  have hsam := (hinv hret).2
  rw [hpc] at hsam
  obtain ⟨p, q, r, heq, hsuccess, hfailed⟩ := hsam
  exact ⟨p, q, r, heq, by simpa using hsuccess, by simpa using hfailed⟩

omit [DecidableEq T] [DecidableEq K] in
/-- Between two instants there is one at which the number of counted reads is the number of
successes at the first plus the number of failures at the second. -/
theorem exists_instant (p q : List (Event T K V)) : ∃ q₁ q₂, q = q₁ ++ q₂ ∧
    counted true p + counted false (p ++ q) =
      counted true (p ++ q₁) + counted false (p ++ q₁) := by
  have htotal : ∀ es : List (Event T K V),
      (es.countP fun e => e.2.counts true || e.2.counts false) =
        counted true es + counted false es := fun es => by
    induction es with
    | nil => rfl
    | cons e es ih =>
      -- an operation counts one result at most
      have hone : ¬ (e.2.counts true = true ∧ e.2.counts false = true) := by
        cases e.2 <;> simp [Act.counts]
      simp only [counted, List.countP_cons] at ih ⊢
      rw [ih]
      cases ht : e.2.counts true <;> cases hf : e.2.counts false
      · simp
      · simp [Nat.add_assoc]
      · simp [Nat.add_right_comm]
      · exact absurd ⟨ht, hf⟩ hone
  obtain ⟨q₁, q₂, rfl, hq⟩ := exists_prefix_countP
    (p := fun e : Event T K V => e.2.counts true || e.2.counts false)
    (show counted false q ≤ _ from htotal q ▸ Nat.le_add_left _ _)
  refine ⟨q₁, q₂, rfl, ?_⟩
  rw [htotal] at hq
  simp only [counted_append] at hq ⊢
  omega

/-- **The statistics lose and invent nothing**, in every run from a fresh engine. The counters
are the numbers of their increments; a complete `get` makes one increment, at the counter of its
result, and another call makes none; with no `get` in flight the counters are the numbers of the
`get`s that returned with and without a value. The sum that a statistics call reports is the
number of reads counted at one instant of the call, and of two calls that do not overlap the
later reports at least as much, if the counts stay below 2^64. -/
theorem read_statistics {es : List (Event T K V)}
    (hrun : Run State.Step (State.init cfg V) es s) :
    (s.mem.successReads = UInt64.ofNat (counted true es) ∧
      s.mem.failedReads = UInt64.ofNat (counted false es)) ∧
    (∀ before t op mid op' res after,
      es = before ++ (t, .call op) :: (mid ++ (t, .ret op' res) :: after) →
      (∀ o r, (t, .ret o r) ∉ mid) →
      (∀ key, op = .kv (.get key) → ∃ r, res = .kv (.found r) ∧
        countedBy t true mid = (if r.isSome then 1 else 0) ∧
        countedBy t false mid = (if r.isSome then 0 else 1)) ∧
      ((∀ key, op ≠ .kv (.get key)) →
        countedBy t true mid = 0 ∧ countedBy t false mid = 0)) ∧
    ((∀ t, (s.pc t).reading = false) →
      s.mem.successReads = UInt64.ofNat (returnedReads true es) ∧
      s.mem.failedReads = UInt64.ofNat (returnedReads false es)) ∧
    (∀ before t mid st after, es = before ++ (t, .call .readStatistics) ::
        (mid ++ (t, .ret .readStatistics (.statistics st)) :: after) →
      (∀ o r, (t, .ret o r) ∉ mid) →
      ∃ p q, mid = p ++ q ∧ st.successOperations + st.failedOperations =
        UInt64.ofNat (counted true (before ++ (t, .call .readStatistics) :: p) +
          counted false (before ++ (t, .call .readStatistics) :: p))) ∧
    (∀ before t mid st between t' mid' st' after,
      es = before ++ (t, .call .readStatistics) ::
        (mid ++ (t, .ret .readStatistics (.statistics st)) ::
          (between ++ (t', .call .readStatistics) ::
            (mid' ++ (t', .ret .readStatistics (.statistics st')) :: after))) →
      (∀ o r, (t, .ret o r) ∉ mid) → (∀ o r, (t', .ret o r) ∉ mid') →
      counted true es < 2 ^ 64 → counted false es < 2 ^ 64 →
      st.successOperations ≤ st'.successOperations ∧
      st.failedOperations ≤ st'.failedOperations) := by
  have hc := counted_of_run hrun
  refine ⟨⟨hc.reads true, hc.reads false⟩, ?_, fun hquiet => ⟨hc.quiet hquiet true,
    hc.quiet hquiet false⟩, ?_, ?_⟩
  · rintro before t op mid op' res after rfl hret
    obtain ⟨hget, hother⟩ := counted_of_call hrun hret
    refine ⟨fun key hop => ?_, fun hno => ⟨hother hno true, hother hno false⟩⟩
    obtain ⟨r, hres, hmade⟩ := hget key hop
    exact ⟨r, hres, by rw [hmade]; cases r <;> rfl, by rw [hmade]; cases r <;> rfl⟩
  · rintro before t mid st after rfl hret
    obtain ⟨p, q, r, rfl, hsuccess, hfailed⟩ := sampled_of_call hrun hret
    obtain ⟨q₁, q₂, rfl, hsum⟩ := exists_instant (before ++ (t, .call .readStatistics) :: p) q
    refine ⟨p ++ q₁, q₂ ++ r, by simp, ?_⟩
    simp only [List.append_assoc, List.cons_append] at hsum
    rw [hsuccess, hfailed, ← UInt64.ofNat_add, hsum]
  · rintro before t mid st between t' mid' st' after rfl hret hret' htrue hfalse
    obtain ⟨p, q, r, rfl, hsuccess, hfailed⟩ := sampled_of_call hrun hret
    have hrun' : Run State.Step (State.init cfg V) ((before ++ (t, .call .readStatistics) ::
        (p ++ (q ++ r) ++ (t, .ret .readStatistics (.statistics st)) :: between)) ++
        (t', .call .readStatistics) ::
          (mid' ++ (t', .ret .readStatistics (.statistics st')) :: after)) s := by simpa using hrun
    obtain ⟨p', q', r', rfl, hsuccess', hfailed'⟩ := sampled_of_call hrun' hret'
    rw [hsuccess, hsuccess', hfailed, hfailed']
    -- the later loads come behind the earlier ones
    simp only [counted, List.countP_append, List.countP_cons, Act.counts, Bool.false_eq_true,
      if_false] at htrue hfalse ⊢
    have hle : ∀ {m n : Nat}, m ≤ n → n < 2 ^ 64 → UInt64.ofNat m ≤ UInt64.ofNat n :=
      fun hmn hn => (UInt64.ofNat_le_iff_le (Nat.lt_of_le_of_lt hmn hn) hn).mpr hmn
    exact ⟨hle (by omega) (by omega), hle (by omega) (by omega)⟩

end Runs

/-- A `get` of a stored key is counted between the two loads of a statistics call, a failing
one before it returns. -/
def countRace : List (Choice Nat Nat Nat) :=
  [.call 0 (.kv (.set 1 10)), .advance 0 100, .advance 0 0, .ret 0, .call 0 (.kv (.get 1)),
    .call 1 .readStatistics, .call 2 (.kv (.get 2)), .advance 0 0, .advance 1 0, .advance 0 0,
    .advance 2 0, .advance 2 0, .advance 2 0, .advance 1 0, .advance 0 0, .ret 1, .ret 2, .ret 0]

def countRaceEvents : List (Event Nat Nat Nat) :=
  [(0, .call (.kv (.set 1 10))), (0, .createNode 100), (0, .casHead true),
    (0, .ret (.kv (.set 1 10)) (.kv .stored)), (0, .call (.kv (.get 1))),
    (1, .call .readStatistics), (2, .call (.kv (.get 2))), (0, .getHead (some 100)),
    (1, .readSuccess), (0, .countSuccess), (2, .getHead (some 100)), (2, .getNext none),
    (2, .countFailed), (1, .readFailed), (0, .getValue),
    (1, .ret .readStatistics (.statistics ⟨0, 1⟩)), (2, .ret (.kv (.get 2)) (.kv (.found none))),
    (0, .ret (.kv (.get 1)) (.kv (.found (some 10))))]

/-- The race ends without a `get` in flight: one found its key, one did not. -/
theorem read_statistics_countRace : ∃ s,
    (State.init oneBucket Nat).exec countRace = some (countRaceEvents, s) ∧
    s.mem.successReads = UInt64.ofNat (returnedReads true countRaceEvents) ∧
    s.mem.failedReads = UInt64.ofNat (returnedReads false countRaceEvents) ∧
    returnedReads true countRaceEvents = 1 ∧ returnedReads false countRaceEvents = 1 := by
  have hexec : ∃ s, (State.init oneBucket Nat).exec countRace = some (countRaceEvents, s) :=
    ⟨_, rfl⟩
  obtain ⟨s, hexec⟩ := hexec
  obtain ⟨_, _, hquiet, _, _⟩ := read_statistics (State.run_of_exec hexec)
  have hidle : ∀ t, (s.pc t).reading = false := by
    cases hexec
    intro t
    by_cases h0 : t = 0
    · subst h0; rfl
    · by_cases h1 : t = 1
      · subst h1; rfl
      · by_cases h2 : t = 2
        · subst h2; rfl
        · simp [State.setPc, h0, h1, h2]
          rfl
  obtain ⟨htrue, hfalse⟩ := hquiet hidle
  exact ⟨s, hexec, htrue, hfalse, rfl, rfl⟩

end LockFreeKV.Engine
