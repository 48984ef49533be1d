import LockFreeKV.Engine.Memory
import LockFreeKV.Lib.Run
import LockFreeKV.Lib.SharedMutex

/-!
# The allocators of the threads

`get_current_thread_allocator` looks its thread up in one critical section and enters
it in another. In between any number of threads may enter themselves. They have other
ids: an id belongs to one running thread at a time, and a thread does not end inside
the call. So a thread that has missed its entry is the only one that can make it.
-/
namespace LockFreeKV.Engine.Registry

open LockFreeKV.Lib

/-- A handle; the element type plays no part. -/
structure SeparateHeapAllocator where
  heap : HeapID
  deriving DecidableEq

/-- A reference to an entry: its number in the order of insertion. The entries of an
`unordered_map` stay where they are. -/
abbrev Ref := Nat

variable {T Id : Type}

/-- Where a thread stands in `get_current_thread_allocator`. -/
inductive Pc (Id : Type)
  | idle
  | lockForRead (threadId : Id)
  | find (threadId : Id)
  | leaveRead (threadId : Id) (iter : Option Ref)
  | lockForWrite (threadId : Id) (newAllocator : SeparateHeapAllocator)
  | emplace (threadId : Id) (newAllocator : SeparateHeapAllocator)
  | leaveWrite (threadId : Id) (result : Ref × Bool)
  /-- Back in `get_allocator`, with the reference. -/
  | returned (threadId : Id) (entry : Ref)
  deriving DecidableEq

inductive Act (Id : Type)
  | start (id : Id)
  | exit
  | call (threadId : Id)
  | lockForRead
  | find (iter : Option Ref)
  | leaveRead
  | lockForWrite
  /-- `inserted` is what the assertion tests. -/
  | emplace (threadId : Id) (entry : Ref) (inserted : Bool)
  | leaveWrite
  | ret (threadId : Id) (entry : Ref) (allocator : SeparateHeapAllocator)
  deriving DecidableEq

abbrev Event (T Id : Type) := T × Act Id

/-- The running threads. No two of them have the same id. -/
structure Threads (T Id : Type) where
  id : T → Option Id
  inUse : Finset Id
  mem_inUse : ∀ t i, id t = some i → i ∈ inUse
  unique : ∀ t t' i, id t = some i → id t' = some i → t = t'

namespace Threads

def none (T Id : Type) : Threads T Id := ⟨fun _ => .none, ∅, by simp, by simp⟩

variable [DecidableEq T] [DecidableEq Id]

/-- A thread starts with an id that is not in use. -/
def start (threads : Threads T Id) (t : T) (i : Id) (hfresh : i ∉ threads.inUse) :
    Threads T Id where
  id := Function.update threads.id t (some i)
  inUse := insert i threads.inUse
  mem_inUse t' i' h := by
    by_cases ht : t' = t
    · subst ht
      obtain rfl : i = i' := by simpa using h
      exact Finset.mem_insert_self ..
    · rw [Function.update_of_ne ht] at h
      exact Finset.mem_insert_of_mem (threads.mem_inUse t' i' h)
  unique t₁ t₂ i' h₁ h₂ := by
    have hother : ∀ t', threads.id t' ≠ some i := fun t' h => hfresh (threads.mem_inUse t' i h)
    by_cases ht₁ : t₁ = t <;> by_cases ht₂ : t₂ = t
    · rw [ht₁, ht₂]
    · subst ht₁
      obtain rfl : i = i' := by simpa using h₁
      exact absurd (by simpa [ht₂] using h₂) (hother t₂)
    · subst ht₂
      obtain rfl : i = i' := by simpa using h₂
      exact absurd (by simpa [ht₁] using h₁) (hother t₁)
    · rw [Function.update_of_ne ht₁] at h₁
      rw [Function.update_of_ne ht₂] at h₂
      exact threads.unique t₁ t₂ i' h₁ h₂

/-- A thread ends, and its id may be given to another one. -/
def exit (threads : Threads T Id) (t : T) (i : Id) (hid : threads.id t = some i) :
    Threads T Id where
  id := Function.update threads.id t .none
  inUse := threads.inUse.erase i
  mem_inUse t' i' h := by
    have ht : t' ≠ t := fun ht => by simp [ht] at h
    rw [Function.update_of_ne ht] at h
    refine Finset.mem_erase.mpr ⟨fun hi => ht ?_, threads.mem_inUse t' i' h⟩
    exact threads.unique t' t i (hi ▸ h) hid
  unique t₁ t₂ i' h₁ h₂ := by
    have ht₁ : t₁ ≠ t := fun ht => by simp [ht] at h₁
    have ht₂ : t₂ ≠ t := fun ht => by simp [ht] at h₂
    rw [Function.update_of_ne ht₁] at h₁
    rw [Function.update_of_ne ht₂] at h₂
    exact threads.unique t₁ t₂ i' h₁ h₂

end Threads

/-- The two static variables, and the threads. -/
structure State (T Id : Type) where
  protect : SharedMutex T
  allocators : List (Id × SeparateHeapAllocator)
  threads : Threads T Id
  pc : T → Pc Id

/-- What the scheduler lets happen next. -/
inductive Choice (T Id : Type)
  | start (t : T) (id : Id)
  | exit (t : T)
  | call (t : T)
  | advance (t : T)

namespace State

variable (s : State T Id)

def init (T Id : Type) : State T Id where
  protect := .free
  allocators := []
  threads := .none T Id
  pc := fun _ => .idle

/-- `allocators.find(threadId)`. -/
def find [DecidableEq Id] (threadId : Id) : Option Ref :=
  s.allocators.findIdx? fun entry => entry.1 = threadId

/-- `allocators.emplace(threadId, newAllocator)`: nothing happens if there is an entry. -/
def emplace [DecidableEq Id] (threadId : Id) (newAllocator : SeparateHeapAllocator) :
    List (Id × SeparateHeapAllocator) × (Ref × Bool) :=
  match s.find threadId with
  | some entry => (s.allocators, (entry, false))
  | none => (s.allocators ++ [(threadId, newAllocator)], (s.allocators.length, true))

variable [DecidableEq T] [DecidableEq Id] (hash : Id → HeapID)

def setPc (t : T) (pc : Pc Id) : State T Id := { s with pc := Function.update s.pc t pc }

/-- The next statement of the thread's call. -/
def advance (t : T) : Option (Act Id × State T Id) :=
  match s.pc t with
  | .idle => none
  | .lockForRead threadId =>
    (s.protect.lockShared t).map fun protect =>
      (.lockForRead, { s.setPc t (.find threadId) with protect := protect })
  | .find threadId =>
    some (.find (s.find threadId), s.setPc t (.leaveRead threadId (s.find threadId)))
  | .leaveRead threadId iter =>
    let pc := match iter with
      | some entry => .returned threadId entry
      | none => .lockForWrite threadId ⟨hash threadId⟩
    some (.leaveRead, { s.setPc t pc with protect := s.protect.unlockShared t })
  | .lockForWrite threadId newAllocator =>
    (s.protect.lock t).map fun protect =>
      (.lockForWrite, { s.setPc t (.emplace threadId newAllocator) with protect := protect })
  | .emplace threadId newAllocator =>
    let r := s.emplace threadId newAllocator
    some (.emplace threadId r.2.1 r.2.2,
      { s.setPc t (.leaveWrite threadId r.2) with allocators := r.1 })
  | .leaveWrite threadId result =>
    some (.leaveWrite, { s.setPc t (.returned threadId result.1) with protect := s.protect.unlock })
  | .returned threadId entry =>
    -- `get_allocator` copies the handle behind the reference, without the lock
    (s.allocators[entry]?).map fun e => (.ret threadId entry e.2, s.setPc t .idle)

def next : Choice T Id → Option (Event T Id × State T Id)
  | .start t id =>
    if hfresh : s.threads.id t = none ∧ id ∉ s.threads.inUse then
      some ((t, .start id), { s with threads := s.threads.start t id hfresh.2 })
    else none
  | .exit t =>
    match hid : s.threads.id t, s.pc t with
    | some id, .idle => some ((t, .exit), { s with threads := s.threads.exit t id hid })
    | _, _ => none
  | .call t =>
    match s.threads.id t, s.pc t with
    | some threadId, .idle => some ((t, .call threadId), s.setPc t (.lockForRead threadId))
    | _, _ => none
  | .advance t => (s.advance hash t).map fun r => ((t, r.1), r.2)

def Step (s : State T Id) (e : Event T Id) (s' : State T Id) : Prop :=
  ∃ c, s.next hash c = some (e, s')

end State

/-! ## The outcomes of a step -/

variable [DecidableEq T] [DecidableEq Id]

/-- The steps from `s`, with what they require and what they lead to. -/
inductive Moves (hash : Id → HeapID) (s : State T Id) : Event T Id → State T Id → Prop
  | start {t : T} {i : Id} (hnone : s.threads.id t = none) (hfresh : i ∉ s.threads.inUse) :
      Moves hash s (t, .start i) { s with threads := s.threads.start t i hfresh }
  | exit {t : T} {i : Id} (hid : s.threads.id t = some i) (hpc : s.pc t = .idle) :
      Moves hash s (t, .exit) { s with threads := s.threads.exit t i hid }
  | call {t : T} {i : Id} (hid : s.threads.id t = some i) (hpc : s.pc t = .idle) :
      Moves hash s (t, .call i) (s.setPc t (.lockForRead i))
  | lockForRead {t : T} {i : Id} {protect : SharedMutex T} (hpc : s.pc t = .lockForRead i)
      (hlock : s.protect.lockShared t = some protect) :
      Moves hash s (t, .lockForRead) { s.setPc t (.find i) with protect := protect }
  | find {t : T} {i : Id} (hpc : s.pc t = .find i) :
      Moves hash s (t, .find (s.find i)) (s.setPc t (.leaveRead i (s.find i)))
  | hit {t : T} {i : Id} {entry : Ref} (hpc : s.pc t = .leaveRead i (some entry)) :
      Moves hash s (t, .leaveRead)
        { s.setPc t (.returned i entry) with protect := s.protect.unlockShared t }
  | miss {t : T} {i : Id} (hpc : s.pc t = .leaveRead i none) :
      Moves hash s (t, .leaveRead)
        { s.setPc t (.lockForWrite i ⟨hash i⟩) with protect := s.protect.unlockShared t }
  | lockForWrite {t : T} {i : Id} {newAllocator : SeparateHeapAllocator} {protect : SharedMutex T}
      (hpc : s.pc t = .lockForWrite i newAllocator) (hlock : s.protect.lock t = some protect) :
      Moves hash s (t, .lockForWrite)
        { s.setPc t (.emplace i newAllocator) with protect := protect }
  | emplaceNew {t : T} {i : Id} {newAllocator : SeparateHeapAllocator}
      (hpc : s.pc t = .emplace i newAllocator) (hmiss : s.find i = none) :
      Moves hash s (t, .emplace i s.allocators.length true)
        { s.setPc t (.leaveWrite i (s.allocators.length, true)) with
          allocators := s.allocators ++ [(i, newAllocator)] }
  | emplaceOld {t : T} {i : Id} {newAllocator : SeparateHeapAllocator} {entry : Ref}
      (hpc : s.pc t = .emplace i newAllocator) (hhit : s.find i = some entry) :
      Moves hash s (t, .emplace i entry false) (s.setPc t (.leaveWrite i (entry, false)))
  | leaveWrite {t : T} {i : Id} {result : Ref × Bool} (hpc : s.pc t = .leaveWrite i result) :
      Moves hash s (t, .leaveWrite)
        { s.setPc t (.returned i result.1) with protect := s.protect.unlock }
  | ret {t : T} {i : Id} {entry : Ref} {allocator : SeparateHeapAllocator} {owner : Id}
      (hpc : s.pc t = .returned i entry) (he : s.allocators[entry]? = some (owner, allocator)) :
      Moves hash s (t, .ret i entry allocator) (s.setPc t .idle)

variable {hash : Id → HeapID} {s s' : State T Id} {e : Event T Id} {t : T}

theorem State.advance_sound {a : Act Id} (hs : s.advance hash t = some (a, s')) :
    Moves hash s (t, a) s' := by
  unfold State.advance at hs
  cases hpc : s.pc t with
  | idle => simp [hpc] at hs
  | lockForRead i =>
    simp only [hpc] at hs
    obtain ⟨protect, hlock, heq⟩ := Option.map_eq_some_iff.mp hs
    cases heq
    exact .lockForRead hpc hlock
  | find i =>
    simp only [hpc] at hs
    cases hs
    exact .find hpc
  | leaveRead i iter =>
    simp only [hpc] at hs
    cases iter with
    | none =>
      cases hs
      exact .miss hpc
    | some entry =>
      cases hs
      exact .hit hpc
  | lockForWrite i newAllocator =>
    simp only [hpc] at hs
    obtain ⟨protect, hlock, heq⟩ := Option.map_eq_some_iff.mp hs
    cases heq
    exact .lockForWrite hpc hlock
  | emplace i newAllocator =>
    simp only [hpc, State.emplace] at hs
    cases hfind : s.find i with
    | none =>
      simp only [hfind] at hs
      cases hs
      exact .emplaceNew hpc hfind
    | some entry =>
      simp only [hfind] at hs
      cases hs
      exact .emplaceOld hpc hfind
  | leaveWrite i result =>
    simp only [hpc] at hs
    cases hs
    exact .leaveWrite hpc
  | returned i entry =>
    simp only [hpc] at hs
    obtain ⟨⟨owner, allocator⟩, he, heq⟩ := Option.map_eq_some_iff.mp hs
    cases heq
    exact .ret hpc he

/-- Every step is one of the listed outcomes. -/
theorem State.Step.moves (hs : s.Step hash e s') : Moves hash s e s' := by
  obtain ⟨c, hc⟩ := hs
  cases c with
  | start t i =>
    simp only [State.next] at hc
    split at hc
    · next hfresh =>
      cases hc
      exact .start hfresh.1 hfresh.2
    · cases hc
  | exit t =>
    simp only [State.next] at hc
    split at hc
    · next i hid hpc =>
      cases hc
      exact .exit hid hpc
    · cases hc
  | call t =>
    simp only [State.next] at hc
    split at hc
    · next i hid hpc =>
      cases hc
      exact .call hid hpc
    · cases hc
  | advance t =>
    obtain ⟨⟨a, m⟩, hadv, heq⟩ := Option.map_eq_some_iff.mp hc
    cases heq
    exact State.advance_sound hadv

/-! ## The invariant -/

namespace Pc

/-- The id under which the call runs. -/
def threadId : Pc Id → Option Id
  | .idle => none
  | .lockForRead i => some i
  | .find i => some i
  | .leaveRead i _ => some i
  | .lockForWrite i _ => some i
  | .emplace i _ => some i
  | .leaveWrite i _ => some i
  | .returned i _ => some i

/-- The call has not found an entry, and has not made one. -/
def missed : Pc Id → Bool
  | .leaveRead _ none => true
  | .lockForWrite _ _ => true
  | .emplace _ _ => true
  | _ => false

/-- The entry that the call has found or made. -/
def entry : Pc Id → Option Ref
  | .leaveRead _ iter => iter
  | .leaveWrite _ result => some result.1
  | .returned _ entry => some entry
  | _ => none

def newAllocator : Pc Id → Option SeparateHeapAllocator
  | .lockForWrite _ newAllocator => some newAllocator
  | .emplace _ newAllocator => some newAllocator
  | _ => none

def reading : Pc Id → Bool
  | .find _ => true
  | .leaveRead _ _ => true
  | _ => false

def writing : Pc Id → Bool
  | .emplace _ _ => true
  | .leaveWrite _ _ => true
  | _ => false

end Pc

/-- What the call at `pc` relies on. -/
structure PcOk (hash : Id → HeapID) (s : State T Id) (t : T) (pc : Pc Id) : Prop where
  running : ∀ i, pc.threadId = some i → s.threads.id t = some i
  missed : ∀ i, pc.threadId = some i → pc.missed = true → i ∉ s.allocators.map Prod.fst
  entry : ∀ i entry, pc.threadId = some i → pc.entry = some entry →
    s.allocators[entry]? = some (i, ⟨hash i⟩)
  created : ∀ i a, pc.threadId = some i → pc.newAllocator = some a → a = ⟨hash i⟩

structure Inv (hash : Id → HeapID) (s : State T Id) : Prop where
  nodup : (s.allocators.map Prod.fst).Nodup
  handles : ∀ e ∈ s.allocators, e.2 = ⟨hash e.1⟩
  pcs : ∀ t, PcOk hash s t (s.pc t)
  guards : s.protect.Guards (fun t => (s.pc t).reading = true) fun t => (s.pc t).writing = true

omit [DecidableEq T] in
theorem State.find_eq_none {i : Id} : s.find i = none ↔ i ∉ s.allocators.map Prod.fst := by
  simp only [State.find, List.findIdx?_eq_none_iff, decide_eq_false_iff_not, List.mem_map,
    not_exists, not_and]

omit [DecidableEq T] in
theorem State.find_eq_some {i : Id} {entry : Ref} (h : s.find i = some entry) :
    ∃ a, s.allocators[entry]? = some (i, a) := by
  obtain ⟨hlt, hi, _⟩ := List.findIdx?_eq_some_iff_getElem.mp h
  have hkey : s.allocators[entry].1 = i := of_decide_eq_true hi
  exact ⟨s.allocators[entry].2, by rw [List.getElem?_eq_getElem hlt, ← hkey]⟩

namespace Inv

omit [DecidableEq T] [DecidableEq Id] in
theorem handle (h : Inv hash s) {entry : Ref} {i : Id} {a : SeparateHeapAllocator}
    (he : s.allocators[entry]? = some (i, a)) : a = ⟨hash i⟩ :=
  h.handles (i, a) (List.mem_of_getElem? he)

omit [DecidableEq Id] in
/-- The lock is still held by the threads inside the sections when one thread has moved. -/
theorem guards_setPc {protect : SharedMutex T} {Reading Writing : T → Prop}
    (h : protect.Guards Reading Writing) {pc' : Pc Id} (hr : pc'.reading = true ↔ Reading t)
    (hw : pc'.writing = true ↔ Writing t)
    (hother : ∀ t', t' ≠ t →
      ((s.pc t').reading = true ↔ Reading t') ∧ ((s.pc t').writing = true ↔ Writing t')) :
    protect.Guards (fun t' => (Function.update s.pc t pc' t').reading = true)
      fun t' => (Function.update s.pc t pc' t').writing = true := by
  refine h.congr (fun t' => ?_) fun t' => ?_
  · by_cases ht : t' = t
    · rw [ht, Function.update_self, hr]
    · rw [Function.update_of_ne ht, (hother t' ht).1]
  · by_cases ht : t' = t
    · rw [ht, Function.update_self, hw]
    · rw [Function.update_of_ne ht, (hother t' ht).2]

omit [DecidableEq Id] in
/-- The lock stays with the threads that hold it. -/
theorem guards_same (h : Inv hash s) {pc' : Pc Id} (hr : pc'.reading = (s.pc t).reading)
    (hw : pc'.writing = (s.pc t).writing) :
    s.protect.Guards (fun t' => (Function.update s.pc t pc' t').reading = true)
      fun t' => (Function.update s.pc t pc' t').writing = true :=
  guards_setPc h.guards (by rw [hr]) (by rw [hw]) fun _ _ => ⟨.rfl, .rfl⟩

omit [DecidableEq Id] in
/-- A step that leaves the entries alone. -/
theorem moved (h : Inv hash s) {pc' : Pc Id} {protect : SharedMutex T}
    (hpc : PcOk hash s t pc')
    (hguards : protect.Guards (fun t' => (Function.update s.pc t pc' t').reading = true)
      fun t' => (Function.update s.pc t pc' t').writing = true) :
    Inv hash { s.setPc t pc' with protect := protect } where
  nodup := h.nodup
  handles := h.handles
  pcs t' := by
    by_cases ht : t' = t
    · subst ht
      simpa [State.setPc] using ⟨hpc.running, hpc.missed, hpc.entry, hpc.created⟩
    · have hok := h.pcs t'
      simpa [State.setPc, ht] using ⟨hok.running, hok.missed, hok.entry, hok.created⟩
  guards := hguards

omit [DecidableEq Id] in
theorem guards_enterRead (h : Inv hash s) {pc' : Pc Id} {protect : SharedMutex T}
    (hlock : s.protect.lockShared t = some protect) (hr : pc'.reading = true)
    (hw : pc'.writing = (s.pc t).writing) :
    protect.Guards (fun t' => (Function.update s.pc t pc' t').reading = true)
      fun t' => (Function.update s.pc t pc' t').writing = true :=
  guards_setPc (h.guards.lockShared hlock) (by simp [hr]) (by rw [hw]) fun t' ht =>
    ⟨by simp [ht], .rfl⟩

omit [DecidableEq Id] in
theorem guards_leaveRead (h : Inv hash s) {pc' : Pc Id} (hr : pc'.reading = false)
    (hw : pc'.writing = (s.pc t).writing) :
    (s.protect.unlockShared t).Guards (fun t' => (Function.update s.pc t pc' t').reading = true)
      fun t' => (Function.update s.pc t pc' t').writing = true :=
  guards_setPc h.guards.unlockShared (by simp [hr]) (by rw [hw]) fun t' ht => ⟨by simp [ht], .rfl⟩

omit [DecidableEq Id] in
theorem guards_enterWrite (h : Inv hash s) {pc' : Pc Id} {protect : SharedMutex T}
    (hlock : s.protect.lock t = some protect) (hr : pc'.reading = (s.pc t).reading)
    (hw : pc'.writing = true) :
    protect.Guards (fun t' => (Function.update s.pc t pc' t').reading = true)
      fun t' => (Function.update s.pc t pc' t').writing = true := by
  have hfree : ∀ t', (s.pc t').writing ≠ true := fun t' hwriting => by
    have hholds := (h.guards.writer t').mpr hwriting
    rw [(SharedMutex.lock_eq_some hlock).1] at hholds
    cases hholds
  exact guards_setPc (h.guards.lock hlock) (by rw [hr]) (by simp [hw]) fun t' ht =>
    ⟨.rfl, iff_of_false (hfree t') ht⟩

omit [DecidableEq Id] in
theorem guards_leaveWrite (h : Inv hash s) {pc' : Pc Id} (hr : pc'.reading = (s.pc t).reading)
    (hbefore : (s.pc t).writing = true) (hw : pc'.writing = false) :
    s.protect.unlock.Guards (fun t' => (Function.update s.pc t pc' t').reading = true)
      fun t' => (Function.update s.pc t pc' t').writing = true := by
  refine guards_setPc h.guards.unlock (by rw [hr]) (by simp [hw]) fun t' ht => ⟨.rfl, ?_⟩
  exact iff_of_false (fun hwriting => ht ((h.guards.alone hbefore t').2 hwriting)) not_false

omit [DecidableEq T] [DecidableEq Id] in
/-- A thread starts or ends outside the call. -/
theorem rethreaded (h : Inv hash s) {threads : Threads T Id}
    (hsame : ∀ t i, (s.pc t).threadId = some i → threads.id t = some i) :
    Inv hash { s with threads := threads } where
  nodup := h.nodup
  handles := h.handles
  pcs t' := ⟨hsame t', (h.pcs t').missed, (h.pcs t').entry, (h.pcs t').created⟩
  guards := h.guards

omit [DecidableEq Id] in
/-- A thread that has missed its entry makes it. Nobody else is about to make one for its id. -/
theorem emplaced (h : Inv hash s) {i : Id} {newAllocator : SeparateHeapAllocator}
    (hpc : s.pc t = .emplace i newAllocator) :
    Inv hash { s.setPc t (.leaveWrite i (s.allocators.length, true)) with
      allocators := s.allocators ++ [(i, newAllocator)] } := by
  have hown := h.pcs t
  rw [hpc] at hown
  obtain rfl : newAllocator = ⟨hash i⟩ := hown.created i _ rfl rfl
  have hmissed := hown.missed i rfl rfl
  constructor
  · rw [List.map_append, List.nodup_append]
    refine ⟨h.nodup, List.nodup_singleton i, ?_⟩
    rintro j hj k hk rfl
    obtain rfl : j = i := by simpa using hk
    exact hmissed hj
  · intro e he
    rcases List.mem_append.mp he with he | he
    · exact h.handles e he
    · obtain rfl : e = (i, ⟨hash i⟩) := by simpa using he
      rfl
  · intro t'
    by_cases ht : t' = t
    · subst ht
      refine ⟨fun j hj => ?_, fun j _ hm => ?_, fun j entry hj he => ?_, fun j a _ ha => ?_⟩
      all_goals simp only [State.setPc, Function.update_self] at *
      · exact hown.running j hj
      · cases hm
      · cases hj
        cases he
        simp
      · cases ha
    · have hok := h.pcs t'
      refine ⟨fun j hj => ?_, fun j hj hm => ?_, fun j entry hj he => ?_, fun j a hj ha => ?_⟩
      all_goals simp only [State.setPc, Function.update_of_ne ht] at *
      · exact hok.running j hj
      · have hne : j ≠ i := fun hji => by
          subst hji
          exact ht (s.threads.unique t' t j (hok.running j hj) (hown.running j rfl))
        simpa [hne] using hok.missed j hj hm
      · have hentry := hok.entry j entry hj he
        rwa [List.getElem?_append_left (List.getElem?_eq_some_iff.mp hentry).1]
      · exact hok.created j a hj ha
  · exact h.guards_same (by rw [hpc]; rfl) (by rw [hpc]; rfl)

theorem step (h : Inv hash s) (hs : Moves hash s e s') : Inv hash s' := by
  cases hs with
  | @start t i hnone hfresh =>
    refine h.rethreaded fun t' j hj => ?_
    have hid := (h.pcs t').running j hj
    have ht : t' ≠ t := fun ht => by simp [ht, hnone] at hid
    simpa [Threads.start, ht] using hid
  | @exit t i hid hpc =>
    refine h.rethreaded fun t' j hj => ?_
    have ht : t' ≠ t := fun ht => by simp [ht, hpc, Pc.threadId] at hj
    simpa [Threads.exit, ht] using (h.pcs t').running j hj
  | @call t i hid hpc =>
    refine h.moved ⟨fun j hj => ?_, nofun, nofun, nofun⟩
      (h.guards_same (by rw [hpc]; rfl) (by rw [hpc]; rfl))
    cases hj
    exact hid
  | @lockForRead t i protect hpc hlock =>
    have hok := h.pcs t
    rw [hpc] at hok
    exact h.moved ⟨hok.running, nofun, nofun, nofun⟩
      (h.guards_enterRead hlock rfl (by rw [hpc]; rfl))
  | @find t i hpc =>
    have hok := h.pcs t
    rw [hpc] at hok
    refine h.moved ⟨hok.running, fun j hj hm => ?_, fun j entry hj he => ?_, nofun⟩
      (h.guards_same (by rw [hpc]; rfl) (by rw [hpc]; rfl))
    · cases hj
      cases hfind : s.find i with
      | none => exact State.find_eq_none.mp hfind
      | some entry => simp [hfind, Pc.missed] at hm
    · cases hj
      obtain ⟨a, ha⟩ := State.find_eq_some he
      rw [ha, h.handle ha]
  | @hit t i entry hpc =>
    have hok := h.pcs t
    rw [hpc] at hok
    exact h.moved ⟨hok.running, nofun, hok.entry, nofun⟩
      (h.guards_leaveRead rfl (by rw [hpc]; rfl))
  | @miss t i hpc =>
    have hok := h.pcs t
    rw [hpc] at hok
    refine h.moved ⟨hok.running, hok.missed, nofun, fun j a hj ha => ?_⟩
      (h.guards_leaveRead rfl (by rw [hpc]; rfl))
    cases hj
    cases ha
    rfl
  | @lockForWrite t i newAllocator protect hpc hlock =>
    have hok := h.pcs t
    rw [hpc] at hok
    exact h.moved ⟨hok.running, hok.missed, nofun, hok.created⟩
      (h.guards_enterWrite hlock (by rw [hpc]; rfl) rfl)
  | emplaceNew hpc hmiss => exact h.emplaced hpc
  | @emplaceOld t i newAllocator entry hpc hhit =>
    have hok := h.pcs t
    rw [hpc] at hok
    rw [State.find_eq_none.mpr (hok.missed i rfl rfl)] at hhit
    cases hhit
  | @leaveWrite t i result hpc =>
    have hok := h.pcs t
    rw [hpc] at hok
    exact h.moved ⟨hok.running, nofun, hok.entry, nofun⟩
      (h.guards_leaveWrite (by rw [hpc]; rfl) (by rw [hpc]; rfl) rfl)
  | ret hpc he =>
    exact h.moved ⟨nofun, nofun, nofun, nofun⟩
      (h.guards_same (by rw [hpc]; rfl) (by rw [hpc]; rfl))

omit [DecidableEq T] [DecidableEq Id] in
theorem init (hash : Id → HeapID) : Inv hash (State.init T Id) where
  nodup := List.nodup_nil
  handles := by simp [State.init]
  pcs t := ⟨nofun, nofun, nofun, nofun⟩
  guards := ⟨fun t => by simp [State.init, SharedMutex.free, Pc.reading],
    fun t => by simp [State.init, SharedMutex.free, Pc.writing]⟩

end Inv

theorem inv_of_run {es : List (Event T Id)}
    (hrun : Run (State.Step hash) (State.init T Id) es s) : Inv hash s :=
  hrun.invariant (fun _ m => Inv hash m) (.init hash) fun _ _ _ _ h hs => h.step hs.moves

/-! ## Runs -/

/-- No entry is changed or removed. -/
theorem entries_of_run {es : List (Event T Id)} (hrun : Run (State.Step hash) s es s') :
    s.allocators <+: s'.allocators := by
  refine hrun.invariant (fun _ m => s.allocators <+: m.allocators) List.prefix_rfl
    fun _ m e m' hgrown hs => hgrown.trans ?_
  cases hs.moves with
  | emplaceNew => exact List.prefix_append ..
  | _ => exact List.prefix_rfl

/-- What has happened so far agrees with the entries. -/
structure Recorded (hash : Id → HeapID) (es : List (Event T Id)) (s : State T Id) : Prop where
  inserted : ∀ t i entry inserted, (t, .emplace i entry inserted) ∈ es → inserted = true
  returned : ∀ t i entry a, (t, .ret i entry a) ∈ es →
    s.allocators[entry]? = some (i, ⟨hash i⟩) ∧ a = ⟨hash i⟩

theorem Recorded.step {es : List (Event T Id)} (hrec : Recorded hash es s) (h : Inv hash s)
    (hs : s.Step hash e s') : Recorded hash (es ++ [e]) s' := by
  have hold : ∀ t i entry a, (t, .ret i entry a) ∈ es →
      s'.allocators[entry]? = some (i, ⟨hash i⟩) ∧ a = ⟨hash i⟩ := fun t i entry a hm => by
    obtain ⟨he, ha⟩ := hrec.returned t i entry a hm
    obtain ⟨hlt, _⟩ := List.getElem?_eq_some_iff.mp he
    obtain ⟨rest, hrest⟩ := entries_of_run (.single hs)
    exact ⟨by rw [← hrest, List.getElem?_append_left hlt, he], ha⟩
  -- what the step itself inserts or returns
  have hnew : (∀ t i entry inserted, e = (t, .emplace i entry inserted) → inserted = true) ∧
      ∀ t i entry a, e = (t, .ret i entry a) →
        s'.allocators[entry]? = some (i, ⟨hash i⟩) ∧ a = ⟨hash i⟩ := by
    cases hs.moves with
    | @emplaceOld t i newAllocator entry hpc hhit =>
      have hok := h.pcs t
      rw [hpc] at hok
      rw [State.find_eq_none.mpr (hok.missed i rfl rfl)] at hhit
      cases hhit
    | @ret t i entry allocator owner hpc he =>
      have hok := h.pcs t
      rw [hpc] at hok
      have hentry := hok.entry i entry rfl rfl
      refine ⟨by simp, fun t' i' entry' a' heq => ?_⟩
      cases heq
      rw [hentry] at he
      cases he
      exact ⟨hentry, rfl⟩
    | _ => simp
  refine ⟨fun t i entry inserted hm => ?_, fun t i entry a hm => ?_⟩
  · rcases List.mem_append.mp hm with hm | hm
    · exact hrec.inserted t i entry inserted hm
    · exact hnew.1 t i entry inserted (List.mem_singleton.mp hm).symm
  · rcases List.mem_append.mp hm with hm | hm
    · exact hold t i entry a hm
    · exact hnew.2 t i entry a (List.mem_singleton.mp hm).symm

theorem recorded_of_run {es : List (Event T Id)}
    (hrun : Run (State.Step hash) (State.init T Id) es s) : Recorded hash es s :=
  (hrun.invariant (fun es m => Inv hash m ∧ Recorded hash es m) ⟨.init hash, by simp, by simp⟩
    fun _ _ _ _ h hs => ⟨h.1.step hs.moves, h.2.step h.1 hs⟩).2

/-- While a thread makes its entry, nobody looks one up and nobody else makes one. -/
theorem emplace_alone {es : List (Event T Id)}
    (hrun : Run (State.Step hash) (State.init T Id) es s) {t t' : T} {i : Id}
    {newAllocator : SeparateHeapAllocator} (hpc : s.pc t = .emplace i newAllocator) (ht : t' ≠ t) :
    (∀ j, s.pc t' ≠ .find j) ∧ ∀ j a, s.pc t' ≠ .emplace j a := by
  have hwriting : (s.pc t).writing = true := by rw [hpc]; rfl
  obtain ⟨hread, hwrite⟩ := (inv_of_run hrun).guards.alone hwriting t'
  refine ⟨fun j hj => hread (by rw [hj]; rfl), fun j a hj => ht (hwrite (by rw [hj]; rfl))⟩

/-- A thread that keeps its id gets the heap which its steps in the engine allocate from. -/
theorem heapId_of_ret {K : Type} {cfg : Config K T} {ids : T → Id}
    (hcfg : ∀ t, cfg.heapId t = hash (ids t)) {es : List (Event T Id)}
    (hrun : Run (State.Step hash) (State.init T Id) es s) {t : T} {entry : Ref}
    {a : SeparateHeapAllocator} (hm : (t, .ret (ids t) entry a) ∈ es) : a.heap = cfg.heapId t := by
  rw [hcfg, ((recorded_of_run hrun).returned t (ids t) entry a hm).2]

/-- **The registry is consistent**, in every run. An `emplace` that is reached inserts, no id has
two entries, no entry is ever changed or removed, and all calls under one id return the same
entry, whose heap is that of the id. -/
theorem registry_consistent {es : List (Event T Id)}
    (hrun : Run (State.Step hash) (State.init T Id) es s) :
    (∀ t i entry inserted, (t, .emplace i entry inserted) ∈ es → inserted = true) ∧
    (s.allocators.map Prod.fst).Nodup ∧
    (∀ es' s', Run (State.Step hash) s es' s' → ∀ (entry : Ref) e,
      s.allocators[entry]? = some e → s'.allocators[entry]? = some e) ∧
    (∀ t i entry a, (t, .ret i entry a) ∈ es →
      s.allocators[entry]? = some (i, a) ∧ a.heap = hash i) ∧
    ∀ t t' i entry entry' a a', (t, .ret i entry a) ∈ es → (t', .ret i entry' a') ∈ es →
      entry = entry' ∧ a = a' := by
  have hrec := recorded_of_run hrun
  have hnodup := (inv_of_run hrun).nodup
  refine ⟨hrec.inserted, hnodup, fun es' s' hrun' entry e he => ?_, fun t i entry a hm => ?_,
    fun t t' i entry entry' a a' hm hm' => ?_⟩
  · obtain ⟨hlt, _⟩ := List.getElem?_eq_some_iff.mp he
    obtain ⟨rest, hrest⟩ := entries_of_run hrun'
    rw [← hrest, List.getElem?_append_left hlt, he]
  · obtain ⟨he, rfl⟩ := hrec.returned t i entry a hm
    exact ⟨he, rfl⟩
  · obtain ⟨he, rfl⟩ := hrec.returned t i entry a hm
    obtain ⟨he', rfl⟩ := hrec.returned t' i entry' a' hm'
    refine ⟨?_, rfl⟩
    have hkey : (s.allocators.map Prod.fst)[entry]? = some i := by rw [List.getElem?_map, he]; rfl
    have hkey' : (s.allocators.map Prod.fst)[entry']? = some i := by
      rw [List.getElem?_map, he']
      rfl
    obtain ⟨hlt, _⟩ := List.getElem?_eq_some_iff.mp hkey
    exact (List.getElem?_inj hlt hnodup).mp (hkey.trans hkey'.symm)

/-- A thread with the id 7 enters itself, while a thread with the id 8 does. It ends, and a third
thread gets the id 7. -/
def reusedId : List (Choice Nat Nat) :=
  [.start 0 7, .start 1 8, .call 0, .call 1, .advance 0, .advance 1, .advance 0, .advance 1,
    .advance 0, .advance 1, .advance 1, .advance 1, .advance 1, .advance 0, .advance 0, .advance 0,
    .advance 0, .advance 1, .exit 0, .start 2 7, .call 2, .advance 2, .advance 2, .advance 2,
    .advance 2]

theorem registry_consistent_reusedId : ∃ (es : List (Event Nat Nat)) (s : State Nat Nat),
    execute (fun s => s.next fun i => 10 * i) (State.init Nat Nat) reusedId = some (es, s) ∧
    s.allocators = [(8, ⟨80⟩), (7, ⟨70⟩)] ∧ (0, .ret 7 1 ⟨70⟩) ∈ es ∧ (2, .ret 7 1 ⟨70⟩) ∈ es ∧
    ∀ t t' entry entry' a a', (t, .ret 7 entry a) ∈ es → (t', .ret 7 entry' a') ∈ es →
      entry = entry' ∧ a = a' := by
  have hsame : ∀ {es : List (Event Nat Nat)} {s : State Nat Nat},
      execute (fun s => s.next fun i => 10 * i) (State.init Nat Nat) reusedId = some (es, s) →
      ∀ t t' entry entry' a a', (t, .ret 7 entry a) ∈ es → (t', .ret 7 entry' a') ∈ es →
        entry = entry' ∧ a = a' := fun hexec t t' =>
    (registry_consistent (run_of_execute hexec)).2.2.2.2 t t' 7
  refine ⟨_, _, rfl, rfl, ?_, ?_, hsame rfl⟩
  · decide
  · decide

end LockFreeKV.Engine.Registry
