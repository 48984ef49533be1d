import LockFreeKV.Engine.Table
import LockFreeKV.Lib.Chain

/-!
# The shared memory of an engine

Nodes live in a partial heap. `blocks` is the allocator's own book: which
addresses are allocated, and through which allocator handle. An address that was
released may be handed out again. Reading a node that is not there, freeing a
block twice or freeing it through another handle has no result.
-/
namespace LockFreeKV.Engine

open LockFreeKV.Lib

abbrev Addr := Nat

/-- `SeparateHeapAllocator::HeapID`, all that an allocator handle carries. -/
abbrev HeapID := Nat

/-- The bucket array's hashing, and the heap that `AllocatorFactory` gives each thread. -/
structure Config (K T : Type) extends Hashing K where
  heapId : T → HeapID

/-- `DataEngine::ListNode`. The string behind the shared pointer stands for the pointer. -/
structure ListNode (K V : Type) where
  key : K
  ptrValue : V
  next : Option Addr
  allocator : HeapID

structure Memory (h : Hashing K) (V : Type) where
  buckets : Fin h.bucketCount → Option Addr
  nodes : Addr → Option (ListNode K V)
  blocks : Addr → Option HeapID
  successReads : UInt64
  failedReads : UInt64

namespace Memory

variable {K V : Type} {h : Hashing K}

/-- `DataEngine(bucketCount)`. -/
def new (h : Hashing K) (V : Type) : Memory h V where
  buckets := fun _ => none
  nodes := fun _ => none
  blocks := fun _ => none
  successReads := 0
  failedReads := 0

def nextOf (m : Memory h V) (a : Addr) : Option (Option Addr) := (m.nodes a).map (·.next)

def keyOf (m : Memory h V) (a : Addr) : Option K := (m.nodes a).map (·.key)

def recordOf (m : Memory h V) (a : Addr) : Option (K × V) :=
  (m.nodes a).map fun node => (node.key, node.ptrValue)

def putHead (m : Memory h V) (b : Fin h.bucketCount) (p : Option Addr) : Memory h V :=
  { m with buckets := Function.update m.buckets b p }

def putNode (m : Memory h V) (a : Addr) (node : ListNode K V) : Memory h V :=
  { m with nodes := Function.update m.nodes a (some node) }

/-- Allocate a block through the handle `heap` and construct a node in it. -/
def allocate (m : Memory h V) (heap : HeapID) (a : Addr) (node : ListNode K V) : Memory h V :=
  { m with
    nodes := Function.update m.nodes a (some node)
    blocks := Function.update m.blocks a (some heap) }

/-- Destroy the node and return its block. -/
def release (m : Memory h V) (a : Addr) : Memory h V :=
  { m with
    nodes := Function.update m.nodes a none
    blocks := Function.update m.blocks a none }

/-- `create_node`: the allocator may answer with any address that is not allocated. -/
def createNode (m : Memory h V) (allocator : HeapID) (raw : Addr) (key : K) (value : V) :
    Option (Memory h V) :=
  match m.blocks raw with
  | some _ => none
  | none => some (m.allocate allocator raw ⟨key, value, none, allocator⟩)

/-- `delete_self`: the block goes back through the allocator stored in the node. -/
def deleteSelf (m : Memory h V) (a : Addr) : Option (Memory h V) :=
  match m.nodes a with
  | none => none
  | some node => if m.blocks a = some node.allocator then some (m.release a) else none

theorem createNode_eq_some {m m' : Memory h V} {allocator : HeapID} {raw : Addr} {key : K}
    {value : V} (hc : m.createNode allocator raw key value = some m') :
    m.blocks raw = none ∧ m' = m.allocate allocator raw ⟨key, value, none, allocator⟩ := by
  unfold createNode at hc
  split at hc
  · cases hc
  · next hb => exact ⟨hb, (Option.some.inj hc).symm⟩

theorem deleteSelf_eq_some {m m' : Memory h V} {a : Addr} (hd : m.deleteSelf a = some m') :
    ∃ node, m.nodes a = some node ∧ m.blocks a = some node.allocator ∧ m' = m.release a := by
  unfold deleteSelf at hd
  split at hd
  · cases hd
  · next node hn =>
    split at hd
    · next hb => exact ⟨node, hn, hb, (Option.some.inj hd).symm⟩
    · cases hd

end Memory

/-- `compare_exchange_strong(expected, desired)` on a cell: whether the exchange was
made, the cell afterwards, and what `expected` holds afterwards. -/
def compareExchangeStrong (cell expected desired : Option Addr) :
    Bool × Option Addr × Option Addr :=
  if cell = expected then (true, desired, expected) else (false, cell, cell)

@[simp] theorem compareExchangeStrong_none (desired : Option Addr) :
    compareExchangeStrong none none desired = (true, desired, none) := rfl

@[simp] theorem compareExchangeStrong_some (a : Addr) (desired : Option Addr) :
    compareExchangeStrong (some a) none desired = (false, some a, some a) := rfl

end LockFreeKV.Engine
