import Mathlib.Data.Finset.Insert
import Mathlib.Data.Finset.Erase

/-!
# A lock for readers and writers

Any number of threads hold the lock shared, or one holds it exclusively. A program that
takes and gives back the lock around its critical sections keeps `Guards`: the lock is
held by exactly the threads that stand inside a section. Then a writer is alone.
-/
namespace LockFreeKV.Lib

/-- Who holds the lock. -/
structure SharedMutex (T : Type*) where
  readers : Finset T
  writer : Option T
  exclusive : writer ≠ none → readers = ∅

namespace SharedMutex

variable {T : Type*} [DecidableEq T]

omit [DecidableEq T] in
def free : SharedMutex T := ⟨∅, none, fun h => absurd rfl h⟩

/-- `lock_shared`, which waits for a writer to leave. -/
def lockShared (m : SharedMutex T) (t : T) : Option (SharedMutex T) :=
  if m.writer = none then some ⟨insert t m.readers, none, fun h => absurd rfl h⟩ else none

def unlockShared (m : SharedMutex T) (t : T) : SharedMutex T where
  readers := m.readers.erase t
  writer := m.writer
  exclusive hwriter := by
    rw [m.exclusive hwriter, Finset.erase_eq_of_notMem (Finset.notMem_empty t)]

/-- `lock`, which waits until nobody holds the lock. -/
def lock (m : SharedMutex T) (t : T) : Option (SharedMutex T) :=
  if m.writer = none ∧ m.readers = ∅ then some ⟨∅, some t, fun _ => rfl⟩ else none

omit [DecidableEq T] in
def unlock (m : SharedMutex T) : SharedMutex T := ⟨m.readers, none, fun h => absurd rfl h⟩

variable {m m' : SharedMutex T} {t : T}

theorem lockShared_eq_some (h : m.lockShared t = some m') :
    m.writer = none ∧ m'.readers = insert t m.readers ∧ m'.writer = none := by
  unfold lockShared at h
  split at h
  · next hw =>
    cases h
    exact ⟨hw, rfl, rfl⟩
  · cases h

theorem lock_eq_some (h : m.lock t = some m') :
    m.writer = none ∧ m.readers = ∅ ∧ m'.readers = ∅ ∧ m'.writer = some t := by
  unfold lock at h
  split at h
  · next hfree =>
    cases h
    exact ⟨hfree.1, hfree.2, rfl, rfl⟩
  · cases h

omit [DecidableEq T] in
/-- The lock is held by the threads inside a section of readers, or inside one of writers. -/
structure Guards (m : SharedMutex T) (Reading Writing : T → Prop) : Prop where
  readers : ∀ t, t ∈ m.readers ↔ Reading t
  writer : ∀ t, m.writer = some t ↔ Writing t

namespace Guards

variable {Reading Reading' Writing Writing' : T → Prop}

omit [DecidableEq T] in
/-- A writer is alone. -/
theorem alone (h : m.Guards Reading Writing) (ht : Writing t) (t' : T) :
    ¬ Reading t' ∧ (Writing t' → t' = t) := by
  have hw := (h.writer t).mpr ht
  refine ⟨fun hr => ?_, fun ht' => ?_⟩
  · have hmem := (h.readers t').mpr hr
    rw [m.exclusive (by simp [hw])] at hmem
    exact absurd hmem (Finset.notMem_empty t')
  · exact Option.some.inj (((h.writer t').mpr ht').symm.trans hw)

omit [DecidableEq T] in
theorem congr (h : m.Guards Reading Writing) (hr : ∀ t, Reading' t ↔ Reading t)
    (hw : ∀ t, Writing' t ↔ Writing t) : m.Guards Reading' Writing' :=
  ⟨fun t => (h.readers t).trans (hr t).symm, fun t => (h.writer t).trans (hw t).symm⟩

theorem lockShared (h : m.Guards Reading Writing) (hlock : m.lockShared t = some m') :
    m'.Guards (fun t' => t' = t ∨ Reading t') Writing := by
  obtain ⟨hfree, hreaders, hwriter⟩ := lockShared_eq_some hlock
  refine ⟨fun t' => ?_, fun t' => ?_⟩
  · rw [hreaders, Finset.mem_insert, h.readers]
  · rw [hwriter, ← h.writer, hfree]

theorem unlockShared (h : m.Guards Reading Writing) :
    (m.unlockShared t).Guards (fun t' => t' ≠ t ∧ Reading t') Writing :=
  ⟨fun t' => by rw [SharedMutex.unlockShared, Finset.mem_erase, h.readers], h.writer⟩

theorem lock (h : m.Guards Reading Writing) (hlock : m.lock t = some m') :
    m'.Guards Reading fun t' => t' = t := by
  obtain ⟨_, hfree, hreaders, hwriter⟩ := lock_eq_some hlock
  refine ⟨fun t' => ?_, fun t' => ?_⟩
  · rw [hreaders, ← h.readers, hfree]
  · rw [hwriter, Option.some.injEq, eq_comm]

omit [DecidableEq T] in
theorem unlock (h : m.Guards Reading Writing) : m.unlock.Guards Reading fun _ => False :=
  ⟨h.readers, fun t' => by simp [SharedMutex.unlock]⟩

end Guards

end SharedMutex

end LockFreeKV.Lib
