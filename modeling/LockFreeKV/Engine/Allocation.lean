import LockFreeKV.Engine.Step
import LockFreeKV.Lib.Blocks
import Mathlib.Data.Finset.Insert
import Mathlib.Data.Finset.Erase

/-!
# The allocations of `set`

`create_node` allocates up to five blocks, and each allocation may throw. Here it runs
one allocation at a time, and an exception destroys what the statement has made so
far. Once the node is constructed the call goes on in the model of the atomic steps,
whose values are now shared pointers. A block is named by the call that allocated it,
so a block that was released and handed out again counts as another one.
-/
namespace LockFreeKV.Engine.Alloc

open LockFreeKV.Lib

/-- The blocks that a call of `set` may allocate. -/
inductive Block
  /-- The characters of the temporary `String(key, allocator)`. -/
  | keyString
  /-- The characters of `String(value, allocator)`, which move into the shared string. -/
  | valueString
  /-- The shared string with its control block. -/
  | sharedValue
  | node
  /-- The characters of `m_key`, a copy: the rvalue reference that the constructor takes is
  itself an lvalue. -/
  | nodeKey
  deriving DecidableEq

/-- The `index`-th call of `set` that the thread makes. -/
structure CallId (T : Type) where
  thread : T
  index : Nat
  deriving DecidableEq

/-- `std::shared_ptr<const String>`, with the call that allocated the string. -/
structure SharedPtr (T V : Type) where
  block : CallId T
  string : V

/-- Where a shared pointer lives: in a node, or in a local variable of a thread. -/
inductive Owner (T : Type)
  | node (a : Addr)
  | frame (t : T)
  deriving DecidableEq

/-- What `create_node` does that may throw. -/
inductive Stage
  | allocator
  | allocate (b : Block)
  deriving DecidableEq

/-- What has to be destroyed when the statement is left: its temporaries, and the raw node
that the `catch` clause of `allocate_new` deallocates. -/
inductive Temporary
  | keyString
  | valueString
  | ptrValue
  | rawNode
  deriving DecidableEq

/-- The stages of `create_node`: the two arguments of `allocate_new` in either order, then the
node and the copy of its key. -/
def stages (keyFirst : Bool) : List Stage :=
  if keyFirst then
    [.allocator, .allocate .keyString, .allocate .valueString, .allocate .sharedValue,
      .allocate .node, .allocate .nodeKey]
  else
    [.allocator, .allocate .valueString, .allocate .sharedValue, .allocate .keyString,
      .allocate .node, .allocate .nodeKey]

/-- Which strings do not fit into the string object itself, and which argument of
`allocate_new` the compiler evaluates first. -/
structure Layout (K V : Type) where
  keyOnHeap : K → Bool
  valueOnHeap : V → Bool
  keyFirst : Bool

variable {K V T : Type}

namespace Layout

def plan (L : Layout K V) : List Stage := stages L.keyFirst

/-- Whether the stage allocates, and so may throw. -/
def needs (L : Layout K V) (key : K) (value : V) : Stage → Bool
  | .allocator => true
  | .allocate .keyString => L.keyOnHeap key
  | .allocate .valueString => L.valueOnHeap value
  | .allocate .sharedValue => true
  | .allocate .node => true
  | .allocate .nodeKey => L.keyOnHeap key

end Layout

/-- The temporaries after a stage, the youngest first. The constructed node is no longer raw:
`allocate_new` returns it. -/
def Stage.acquire (held : List Temporary) : Stage → List Temporary
  | .allocator => held
  | .allocate .keyString => .keyString :: held
  | .allocate .valueString => .valueString :: held
  | .allocate .sharedValue => .ptrValue :: held.erase .valueString
  | .allocate .node => .rawNode :: held
  | .allocate .nodeKey => held.erase .rawNode

/-! ## The heap -/

/-- The book of the blocks, and the shared pointers to each shared string. -/
structure Heap (T : Type) where
  book : Book (CallId T × Block)
  owners : CallId T → Finset (Owner T)

namespace Heap

def new (T : Type) : Heap T := ⟨Book.new, fun _ => ∅⟩

variable [DecidableEq T] (heap : Heap T)

def allocate (id : CallId T) (b : Block) (needed : Bool) : Heap T :=
  { heap with book := if needed then heap.book.allocate (id, b) else heap.book }

def release (id : CallId T) (b : Block) : Heap T :=
  { heap with book := heap.book.release (id, b) }

/-- A shared pointer is copied. -/
def share (id : CallId T) (o : Owner T) : Heap T :=
  { heap with owners := Function.update heap.owners id (insert o (heap.owners id)) }

/-- A shared pointer is destroyed; the last one destroys the string with it. -/
def drop (id : CallId T) (o : Owner T) : Heap T where
  book :=
    if (heap.owners id).erase o = ∅ then
      (heap.book.release (id, .valueString)).release (id, .sharedValue)
    else heap.book
  owners := Function.update heap.owners id ((heap.owners id).erase o)

def move (id : CallId T) (o o' : Owner T) : Heap T :=
  { heap with owners := Function.update heap.owners id (insert o' ((heap.owners id).erase o)) }

/-- `store`: the pointer `new` in a local variable and the pointer `old` in a node are swapped. -/
def swap (new old : CallId T) (t : T) (a : Addr) : Heap T :=
  if new = old then heap
  else (heap.move new (.frame t) (.node a)).move old (.node a) (.frame t)

def stage (id : CallId T) (needed : Bool) : Stage → Heap T
  | .allocator => heap
  | .allocate .sharedValue =>
    (heap.allocate id .sharedValue needed).share id (.frame id.thread)
  | .allocate b => heap.allocate id b needed

/-- The destructor of a temporary, or the `catch` clause. -/
def destroy (id : CallId T) : Temporary → Heap T
  | .keyString => heap.release id .keyString
  | .valueString => heap.release id .valueString
  | .ptrValue => heap.drop id (.frame id.thread)
  | .rawNode => heap.release id .node

/-- `delete_self` of a node at `a` that the call `id` made, and that holds `ptrValue`. -/
def deleteNode (ptrValue : CallId T) (a : Addr) (id : CallId T) : Heap T :=
  ((heap.drop ptrValue (.node a)).release id .nodeKey).release id .node

end Heap

/-! ## States and steps -/

/-- The local variables of a thread. -/
inductive Frame (K T V : Type)
  | none
  /-- In `create_node`, with the stages to come. -/
  | creating (key : K) (value : V) (todo : List Stage) (held : List Temporary)
  /-- An exception is on its way out of `set`. -/
  | unwinding (held : List Temporary)
  /-- The node is made, and the temporaries of the statement are about to die. -/
  | leaving (held : List Temporary)
  /-- A local shared pointer: the argument of `store`, or `ptrValueCopy`. -/
  | holding (id : CallId T)

/-- Where a call keeps its local shared pointer for the next atomic operation: in `store`, and
in the loop of `enumerate` until the next pointer is loaded. -/
def keepsLocal : Pc K V → Bool
  | .set _ _ (.storeValue ..) => true
  | .enumerate _ (.loadNext ..) => true
  | _ => false

/-- The atomic steps, the heap, and for each address the call that made the node there. -/
structure State (cfg : Config K T) (V : Type) where
  engine : Engine.State cfg (SharedPtr T V)
  heap : Heap T
  frame : T → Frame K T V
  calls : T → Nat
  creator : Addr → Option (CallId T)

inductive Label (K T V : Type)
  | set (key : K) (value : V)
  | stage (st : Stage)
  | failed (st : Stage)
  | construct (node : Addr) (key : K) (ptrValue : SharedPtr T V)
  | destroyed (d : Temporary)
  | threw
  | left
  | dropped
  | engine (a : Act K (SharedPtr T V))

abbrev Event (K T V : Type) := T × Label K T V

/-- What the scheduler lets happen next. A stage succeeds or throws; a node is placed at `fresh`. -/
inductive Choice (K T V : Type)
  | set (t : T) (key : K) (value : V)
  | stage (t : T) (succeeds : Bool) (fresh : Addr)
  | cleanUp (t : T)
  | call (t : T) (op : Op K (SharedPtr T V))
  | advance (t : T)
  | ret (t : T)

namespace State

variable [DecidableEq K] [DecidableEq T] {cfg : Config K T} (L : Layout K V) (s : State cfg V)

def init (cfg : Config K T) (V : Type) : State cfg V where
  engine := Engine.State.init cfg (SharedPtr T V)
  heap := .new T
  frame := fun _ => .none
  calls := fun _ => 0
  creator := fun _ => none

/-- The latest call of `set` of the thread. -/
def current (t : T) : CallId T := ⟨t, s.calls t⟩

def setFrame (t : T) (frame : Frame K T V) : State cfg V :=
  { s with frame := Function.update s.frame t frame }

/-- The last stage: the constructor of `ListNode` copies key and shared pointer, and the call
goes on with its first atomic operation. -/
def construct (t : T) (fresh : Addr) (key : K) (value : V) (heap : Heap T)
    (held : List Temporary) : Option (Event K T V × State cfg V) :=
  let ptrValue : SharedPtr T V := ⟨s.current t, value⟩
  match s.engine.next (.call t (.kv (.set key ptrValue))) with
  | none => none
  | some (_, started) =>
    (started.next (.advance t fresh)).map fun r =>
      ((t, .construct fresh key ptrValue),
        { s with
          engine := r.2
          heap := heap.share (s.current t) (.node fresh)
          frame := Function.update s.frame t (.leaving held)
          creator := Function.update s.creator fresh (some (s.current t)) })

/-- The next stage of `create_node`. -/
def create (t : T) (succeeds : Bool) (fresh : Addr) : Option (Event K T V × State cfg V) :=
  match s.frame t with
  | .creating key value (st :: todo) held =>
    if succeeds then
      let heap := s.heap.stage (s.current t) (L.needs key value st) st
      match todo with
      | [] => s.construct t fresh key value heap (st.acquire held)
      | _ :: _ =>
        some ((t, .stage st),
          { s with
            heap := heap
            frame := Function.update s.frame t (.creating key value todo (st.acquire held)) })
    else if L.needs key value st then some ((t, .failed st), s.setFrame t (.unwinding held))
    else none
  | _ => none

/-- A thread destroys the next of its local objects, or has destroyed them all. -/
def cleanUp (t : T) : Option (Event K T V × State cfg V) :=
  match s.frame t with
  | .unwinding (d :: held) =>
    some ((t, .destroyed d),
      { s with
        heap := s.heap.destroy (s.current t) d
        frame := Function.update s.frame t (.unwinding held) })
  | .unwinding [] => some ((t, .threw), s.setFrame t .none)
  | .leaving (d :: held) =>
    some ((t, .destroyed d),
      { s with
        heap := s.heap.destroy (s.current t) d
        frame := Function.update s.frame t (.leaving held) })
  | .leaving [] => some ((t, .left), s.setFrame t .none)
  | .holding id =>
    if keepsLocal (s.engine.pc t) then none
    else
      some ((t, .dropped),
        { s with
          heap := s.heap.drop id (.frame t)
          frame := Function.update s.frame t .none })
  | _ => none

/-- `ptrValueCopy = node->get_value_const_ref()`. -/
def copyValue (t : T) (node : Addr) : State cfg V :=
  match s.engine.mem.nodes node with
  | none => s
  | some nd =>
    { s with
      heap := s.heap.share nd.ptrValue.block (.frame t)
      frame := Function.update s.frame t (.holding nd.ptrValue.block) }

/-- The shared pointers that an atomic operation copies, swaps or destroys. -/
def charge (t : T) (a : Act K (SharedPtr T V)) : State cfg V :=
  match s.engine.pc t, a with
  | .set _ _ (.visit mine _), .loadMine =>
    match s.engine.mem.nodes mine with
    | none => s
    | some own =>
      { s with
        heap := s.heap.share own.ptrValue.block (.frame t)
        frame := Function.update s.frame t (.holding own.ptrValue.block) }
  | .set _ _ (.storeValue _ node ptrValue), .storeValue =>
    match s.engine.mem.nodes node with
    | none => s
    | some nd =>
      { s with
        heap := s.heap.swap ptrValue.block nd.ptrValue.block t node
        frame := Function.update s.frame t (.holding nd.ptrValue.block) }
  | .set _ _ (.destroy mine), .destroy _ =>
    match s.engine.mem.nodes mine, s.creator mine with
    | some own, some id =>
      { s with
        heap := s.heap.deleteNode own.ptrValue.block mine id
        creator := Function.update s.creator mine none }
    | _, _ => s
  | .get _ (.loadValue node), .getValue => s.copyValue t node
  | .enumerate _ (.loadValue _ node), .enumerateValue => s.copyValue t node
  | _, _ => s

/-- Whether the thread is at an atomic operation: its statement is finished, and its local
shared pointer destroyed unless it is kept for the operation. -/
def atOperation (t : T) : Bool :=
  match s.frame t with
  | .none => true
  | .holding _ => keepsLocal (s.engine.pc t)
  | _ => false

def next : Choice K T V → Option (Event K T V × State cfg V)
  | .set t key value =>
    match s.frame t, s.engine.pc t with
    | .none, .idle =>
      some ((t, .set key value),
        { s with
          frame := Function.update s.frame t (.creating key value L.plan [])
          calls := Function.update s.calls t (s.calls t + 1) })
    | _, _ => none
  | .stage t succeeds fresh => s.create L t succeeds fresh
  | .cleanUp t => s.cleanUp t
  | .call t op =>
    match s.frame t, op with
    | .none, .kv (.set _ _) => none
    | .none, op =>
      (s.engine.next (.call t op)).map fun r => ((t, .engine r.1.2), { s with engine := r.2 })
    | _, _ => none
  | .advance t =>
    if s.atOperation t then
      (s.engine.next (.advance t 0)).map fun r =>
        ((t, .engine r.1.2), { s.charge t r.1.2 with engine := r.2 })
    else none
  | .ret t =>
    match s.frame t with
    | .none =>
      (s.engine.next (.ret t)).map fun r => ((t, .engine r.1.2), { s with engine := r.2 })
    | _ => none

def Step (s : State cfg V) (e : Event K T V) (s' : State cfg V) : Prop :=
  ∃ c, s.next L c = some (e, s')

/-- Execute a schedule. -/
def exec (s : State cfg V) (cs : List (Choice K T V)) : Option (List (Event K T V) × State cfg V) :=
  execute (next L) s cs

theorem run_of_exec {L : Layout K V} {s s' : State cfg V} {cs : List (Choice K T V)}
    {es : List (Event K T V)} (h : s.exec L cs = some (es, s')) : Run (Step L) s es s' :=
  run_of_execute h

end State

/-! ## The outcomes of a step -/

variable [DecidableEq K] [DecidableEq T] {cfg : Config K T}

/-- The atomic steps go on with the node that a call of `set` has made. -/
def State.withNode (s : State cfg V) (t : T) (key : K) (value : V) (fresh : Addr) :
    Engine.State cfg (SharedPtr T V) where
  mem := s.engine.mem.allocate (cfg.heapId t) fresh
    ⟨key, ⟨s.current t, value⟩, none, cfg.heapId t⟩
  pc := Function.update s.engine.pc t (.set key ⟨s.current t, value⟩ (.casHead fresh))

/-- There, making the node is a call of its own and one step. -/
theorem State.withNode_run {s : State cfg V} {t : T} {key : K} {value : V} {fresh : Addr}
    (hidle : s.engine.pc t = .idle) (hfree : s.engine.mem.blocks fresh = none) :
    Run Engine.State.Step s.engine
      [(t, .call (.kv (.set key ⟨s.current t, value⟩))), (t, .createNode fresh)]
      (s.withNode t key value fresh) := by
  let op : Op K (SharedPtr T V) := .kv (.set key ⟨s.current t, value⟩)
  have hcall : s.engine.Step (t, .call op) (s.engine.setPc t op.start) :=
    ⟨.call t op, by simp [Engine.State.next, hidle]⟩
  refine .cons hcall (.single ⟨.advance t fresh, ?_⟩)
  simp [op, Engine.State.next, Engine.State.setPc, Op.start, Engine.advance, setStep,
    Memory.createNode, hfree, State.withNode]

/-- The steps from `s`, with what they require and what they lead to. -/
inductive Moves (L : Layout K V) (s : State cfg V) : Event K T V → State cfg V → Prop
  | set {t : T} {key : K} {value : V} (hframe : s.frame t = .none)
      (hidle : s.engine.pc t = .idle) :
      Moves L s (t, .set key value)
        { s with
          frame := Function.update s.frame t (.creating key value L.plan [])
          calls := Function.update s.calls t (s.calls t + 1) }
  | stage {t : T} {key : K} {value : V} {st st' : Stage} {todo : List Stage}
      {held : List Temporary} (hframe : s.frame t = .creating key value (st :: st' :: todo) held) :
      Moves L s (t, .stage st)
        { s with
          heap := s.heap.stage (s.current t) (L.needs key value st) st
          frame := Function.update s.frame t (.creating key value (st' :: todo) (st.acquire held)) }
  | failed {t : T} {key : K} {value : V} {st : Stage} {todo : List Stage}
      {held : List Temporary} (hframe : s.frame t = .creating key value (st :: todo) held) :
      Moves L s (t, .failed st) (s.setFrame t (.unwinding held))
  | construct {t : T} {key : K} {value : V} {st : Stage} {held : List Temporary} {fresh : Addr}
      (hframe : s.frame t = .creating key value [st] held) (hidle : s.engine.pc t = .idle)
      (hfree : s.engine.mem.blocks fresh = none) :
      Moves L s (t, .construct fresh key ⟨s.current t, value⟩)
        { s with
          engine := s.withNode t key value fresh
          heap := (s.heap.stage (s.current t) (L.needs key value st) st).share (s.current t)
            (.node fresh)
          frame := Function.update s.frame t (.leaving (st.acquire held))
          creator := Function.update s.creator fresh (some (s.current t)) }
  | unwound {t : T} {d : Temporary} {held : List Temporary}
      (hframe : s.frame t = .unwinding (d :: held)) :
      Moves L s (t, .destroyed d)
        { s with
          heap := s.heap.destroy (s.current t) d
          frame := Function.update s.frame t (.unwinding held) }
  | threw {t : T} (hframe : s.frame t = .unwinding []) :
      Moves L s (t, .threw) (s.setFrame t .none)
  | destroyed {t : T} {d : Temporary} {held : List Temporary}
      (hframe : s.frame t = .leaving (d :: held)) :
      Moves L s (t, .destroyed d)
        { s with
          heap := s.heap.destroy (s.current t) d
          frame := Function.update s.frame t (.leaving held) }
  | left {t : T} (hframe : s.frame t = .leaving []) : Moves L s (t, .left) (s.setFrame t .none)
  | dropped {t : T} {id : CallId T} (hframe : s.frame t = .holding id)
      (hkeeps : keepsLocal (s.engine.pc t) = false) :
      Moves L s (t, .dropped)
        { s with
          heap := s.heap.drop id (.frame t)
          frame := Function.update s.frame t .none }
  | call {t : T} {op : Op K (SharedPtr T V)} (hframe : s.frame t = .none)
      (hidle : s.engine.pc t = .idle) (hop : ∀ key value, op ≠ .kv (.set key value)) :
      Moves L s (t, .engine (.call op)) { s with engine := s.engine.setPc t op.start }
  | advance {t : T} {a : Act K (SharedPtr T V)} {m' : Memory cfg.toHashing (SharedPtr T V)}
      {pc' : Pc K (SharedPtr T V)} (hat : s.atOperation t = true)
      (hadv : Advance s.engine.mem (cfg.heapId t) (s.engine.pc t) a m' pc')
      (hstep : s.engine.Step (t, a) ⟨m', Function.update s.engine.pc t pc'⟩) :
      Moves L s (t, .engine a)
        { s.charge t a with engine := ⟨m', Function.update s.engine.pc t pc'⟩ }
  | ret {t : T} {op : Op K (SharedPtr T V)} {res : Result K (SharedPtr T V)}
      (hframe : s.frame t = .none) (hpc : s.engine.pc t = .returned op res) :
      Moves L s (t, .engine (.ret op res)) { s with engine := s.engine.setPc t .idle }

section Soundness

variable {L : Layout K V} {s s' : State cfg V} {e : Event K T V} {t : T}

theorem State.construct_sound {key : K} {value : V} {st : Stage} {held : List Temporary}
    {fresh : Addr} (hframe : s.frame t = .creating key value [st] held)
    (hs : s.construct t fresh key value (s.heap.stage (s.current t) (L.needs key value st) st)
      (st.acquire held) = some (e, s')) : Moves L s e s' := by
  unfold State.construct at hs
  cases hpc : s.engine.pc t with
  | idle =>
    simp only [Engine.State.next, hpc, Engine.State.setPc, Op.start, Function.update_self,
      Engine.advance, setStep, Memory.createNode, Option.map_map] at hs
    split at hs
    · cases hs
    · next hfree =>
      simp only [Option.map_some, Function.comp_apply, Function.update_idem, Option.some.injEq,
        Prod.mk.injEq] at hs
      obtain ⟨rfl, rfl⟩ := hs
      exact .construct hframe hpc hfree
  | _ => simp [Engine.State.next, hpc] at hs

theorem State.create_sound {succeeds : Bool} {fresh : Addr}
    (hs : s.create L t succeeds fresh = some (e, s')) : Moves L s e s' := by
  unfold State.create at hs
  split at hs
  · next key value st todo held hframe =>
    split at hs
    · split at hs
      · exact State.construct_sound hframe hs
      · cases hs
        exact .stage hframe
    · split at hs
      · cases hs
        exact .failed hframe
      · cases hs
  · cases hs

theorem State.cleanUp_sound (hs : s.cleanUp t = some (e, s')) : Moves L s e s' := by
  unfold State.cleanUp at hs
  split at hs
  · next hframe => cases hs; exact .unwound hframe
  · next hframe => cases hs; exact .threw hframe
  · next hframe => cases hs; exact .destroyed hframe
  · next hframe => cases hs; exact .left hframe
  · next hframe =>
    split at hs
    · cases hs
    · next hkeeps => cases hs; exact .dropped hframe (Bool.eq_false_iff.mpr hkeeps)
  · cases hs

/-- Every step is one of the listed outcomes. -/
theorem State.Step.moves (hs : s.Step L e s') : Moves L s e s' := by
  obtain ⟨c, hc⟩ := hs
  cases c with
  | set t key value =>
    simp only [State.next] at hc
    split at hc
    · next hframe hidle => cases hc; exact .set hframe hidle
    · cases hc
  | stage t succeeds fresh => exact State.create_sound hc
  | cleanUp t => exact State.cleanUp_sound hc
  | call t call =>
    simp only [State.next] at hc
    split at hc
    · cases hc
    · next op _ _ hframe hop =>
      obtain ⟨⟨⟨_, a⟩, engine⟩, hnext, heq⟩ := Option.map_eq_some_iff.mp hc
      cases heq
      simp only [Engine.State.next] at hnext
      split at hnext
      · next hidle =>
        cases hnext
        exact .call hframe hidle fun key value heq => hop key value heq
      · cases hnext
    · cases hc
  | advance t =>
    simp only [State.next] at hc
    split at hc
    · next hat =>
      obtain ⟨⟨⟨_, a⟩, engine⟩, hnext, heq⟩ := Option.map_eq_some_iff.mp hc
      cases heq
      obtain ⟨⟨a, m', pc'⟩, hadv, heq⟩ := Option.map_eq_some_iff.mp hnext
      cases heq
      exact .advance hat (advance_sound hadv) ⟨.advance t 0, hnext⟩
    · cases hc
  | ret t =>
    simp only [State.next] at hc
    split at hc
    · next hframe =>
      obtain ⟨⟨⟨_, a⟩, engine⟩, hnext, heq⟩ := Option.map_eq_some_iff.mp hc
      cases heq
      simp only [Engine.State.next] at hnext
      split at hnext
      · next op res hpc => cases hnext; exact .ret hframe hpc
      · cases hnext
    · cases hc

end Soundness

end LockFreeKV.Engine.Alloc
