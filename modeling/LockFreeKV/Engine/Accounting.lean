import LockFreeKV.Engine.Ledger
import LockFreeKV.Engine.Preservation

/-!
# Who owns which block

Where the shared pointers and the temporaries of a state live, and which calls have got
beyond the thread that makes them. The allocations of a call that has no node yet are
known to its own thread only. Here are the steps of a statement: they change the heap and
one frame.
-/
namespace LockFreeKV.Engine.Alloc

open LockFreeKV.Lib

variable {K V T : Type}

/-! ## The owners in a state -/

namespace Frame

/-- The temporaries of the statement that makes a node. -/
def held : Frame K T V → List Temporary
  | .creating _ _ _ held => held
  | .unwinding held => held
  | .leaving held => held
  | _ => []

/-- The call of `set` has no node yet, or never gets one. -/
def building : Frame K T V → Bool
  | .creating .. => true
  | .unwinding _ => true
  | _ => false

end Frame

namespace State

variable {cfg : Config K T} (s : State cfg V)

/-- The string that the node at an address points to. -/
def nodePtr (a : Addr) : Option (CallId T) := (s.engine.mem.nodes a).map (·.ptrValue.block)

/-- The shared pointer points to the string of the call `id`. -/
def Points (id : CallId T) : Owner T → Prop
  | .node a => s.nodePtr a = some id
  | .frame t => s.frame t = .holding id ∨ .ptrValue ∈ (s.frame t).held ∧ id = s.current t

/-- The temporary of the call `id` is alive. -/
def Temp (id : CallId T) (d : Temporary) : Prop :=
  id = s.current id.thread ∧ d ∈ (s.frame id.thread).held

/-- The call was made before the present one of its thread, or has its node. -/
def Begun (id : CallId T) : Prop :=
  id.index < s.calls id.thread ∨ id = s.current id.thread ∧ (s.frame id.thread).building = false

end State

/-- The temporaries that are alive in front of the stages `todo`. -/
def Layout.Stands (L : Layout K V) (todo : List Stage) (held : List Temporary) : Prop :=
  ∃ done, L.plan = done ++ todo ∧ held = done.foldl Stage.acquire []

namespace Layout

variable {L : Layout K V} {st : Stage} {todo : List Stage} {held : List Temporary}

theorem Stands.next (h : L.Stands (st :: todo) held) : L.Stands todo (st.acquire held) := by
  obtain ⟨done, hplan, rfl⟩ := h
  exact ⟨done ++ [st], by simp [hplan], by simp⟩

/-- There are seven places to stand, for each order of the arguments. -/
theorem Stands.place (h : L.Stands todo held) : ∃ n < 7, todo = (stages L.keyFirst).drop n ∧
    held = ((stages L.keyFirst).take n).foldl Stage.acquire [] := by
  obtain ⟨done, hplan, rfl⟩ := h
  have hlen : (stages L.keyFirst).length = 6 := by cases L.keyFirst <;> rfl
  rw [Layout.plan] at hplan
  refine ⟨done.length, ?_, by simp [hplan], by simp [hplan]⟩
  rw [hplan, List.length_append] at hlen
  omega

/-- No temporary is there twice, and the characters of the value have one owner. -/
theorem Stands.temporaries (h : L.Stands todo held) :
    held.Nodup ∧ (.valueString ∈ held → .ptrValue ∉ held) := by
  obtain ⟨n, hn, -, rfl⟩ := h.place
  clear h
  revert n
  cases L.keyFirst <;> decide

theorem Stands.fresh (h : L.Stands (st :: todo) held) : st ∉ todo := by
  obtain ⟨n, hn, htodo, _⟩ := h.place
  have hnodup : (stages L.keyFirst).Nodup := by cases L.keyFirst <;> decide
  have htail : (st :: todo).Nodup := htodo ▸ hnodup.sublist (List.drop_sublist ..)
  exact (List.nodup_cons.mp htail).1

/-- At `allocate_shared` the value has been made. -/
theorem Stands.sharedValue (h : L.Stands (.allocate .sharedValue :: todo) held) :
    .valueString ∈ held ∧ .ptrValue ∉ held := by
  obtain ⟨n, hn, htodo, rfl⟩ := h.place
  have hhead : ((stages L.keyFirst).drop n).head? = some (.allocate .sharedValue) := by
    rw [← htodo]
    rfl
  clear h htodo
  revert n
  cases L.keyFirst <;> decide

/-- The last stage copies the key into the raw node. -/
theorem Stands.last (h : L.Stands [st] held) : st = .allocate .nodeKey ∧ held.Nodup ∧
    .rawNode ∈ held ∧ .ptrValue ∈ held ∧ .valueString ∉ held := by
  obtain ⟨n, hn, htodo, rfl⟩ := h.place
  have hlen : (stages L.keyFirst).length = 6 := by cases L.keyFirst <;> rfl
  have hdrop := congrArg List.length htodo
  rw [List.length_drop, hlen, List.length_singleton] at hdrop
  obtain rfl : n = 5 := by omega
  clear h hlen hdrop
  generalize L.keyFirst = first at htodo ⊢
  cases first <;> cases htodo <;> decide

theorem Stands.not_last {st' : Stage} (h : L.Stands (st :: st' :: todo) held) :
    st ≠ .allocate .nodeKey := by
  obtain ⟨n, hn, htodo, -⟩ := h.place
  have hlast : ((stages L.keyFirst).drop n).head? = some (.allocate .nodeKey) →
      ((stages L.keyFirst).drop n).length = 1 := by
    clear h htodo
    revert n
    cases L.keyFirst <;> decide
  rw [← htodo] at hlast
  rintro rfl
  simpa using hlast rfl

end Layout

section Invariant

variable {cfg : Config K T}

/-- What a thread knows in its frame. -/
def FrameOk (L : Layout K V) (s : State cfg V) (t : T) : Prop :=
  match s.frame t with
  | .none => True
  | .creating _ _ todo held =>
    s.engine.pc t = .idle ∧ L.Stands todo held ∧
      ∀ b, .allocate b ∈ todo → s.heap.book (s.current t, b) = none
  | .unwinding held =>
    s.engine.pc t = .idle ∧ held.Nodup ∧ (.valueString ∈ held → .ptrValue ∉ held)
  | .leaving held => held.Nodup ∧ .valueString ∉ held ∧ .rawNode ∉ held
  | .holding id => s.Begun id

/-- Where the calls stand: which strings and nodes are known beyond the thread that makes them. -/
structure Control (L : Layout K V) (s : State cfg V) : Prop where
  frames : ∀ t, FrameOk L s t
  nodes : ∀ a id, s.nodePtr a = some id → s.Begun id
  creators : ∀ a id, s.creator a = some id → s.Begun id ∧ s.nodePtr a ≠ none
  placed : ∀ a, s.nodePtr a ≠ none → s.creator a ≠ none
  unique : ∀ a a' id, s.creator a = some id → s.creator a' = some id → a = a'
  unused : ∀ id b, s.calls id.thread < id.index → s.heap.book (id, b) = none
  pcs : ∀ t key ptrValue p, s.engine.pc t = .set key ptrValue p →
    ptrValue.block = s.current t ∧ p ≠ .createNode
  mine : ∀ t a, (s.engine.pc t).mine = some a → s.creator a = some (s.current t)
  storing : ∀ t key value mine node ptrValue,
    s.engine.pc t = .set key value (.storeValue mine node ptrValue) →
    s.frame t = .holding ptrValue.block

/-- The book accounts for the owners, and the shared pointers are where the state says. -/
structure Accounted (L : Layout K V) (s : State cfg V) : Prop extends Control L s where
  engine : ∃ c, Inv s.engine c
  points : ∀ id o, o ∈ s.heap.owners id ↔ s.Points id o
  book : s.heap.Accounts s.Temp s.creator

variable {L : Layout K V} {s s' : State cfg V} {t : T}

theorem State.Begun.mono {id : CallId T} (h : s.Begun id) (hcalls : s'.calls = s.calls)
    (hframes : ∀ t', t' ≠ t → s'.frame t' = s.frame t')
    (hbuilding : (s'.frame t).building = true → (s.frame t).building = true) : s'.Begun id := by
  rcases h with hlt | ⟨hcur, hb⟩
  · exact .inl (by rwa [hcalls])
  · refine .inr ⟨by rw [State.current, hcalls]; exact hcur, ?_⟩
    by_cases ht : id.thread = t
    · rw [ht] at hb ⊢
      exact Bool.eq_false_iff.mpr fun hb' => by simp [hbuilding hb'] at hb
    · rwa [hframes _ ht]

/-- The frame of a step of the thread `t`: what remains to be shown of it. -/
theorem Control.step (h : Control L s) (t : T) (hcalls : s'.calls = s.calls)
    (hframes : ∀ t', t' ≠ t → s'.frame t' = s.frame t')
    (hpcs : ∀ t', t' ≠ t → s'.engine.pc t' = s.engine.pc t')
    (hbuilding : (s'.frame t).building = true → (s.frame t).building = true)
    (hnew : ∀ id b, id ≠ s.current t → s.heap.book (id, b) = none → s'.heap.book (id, b) = none)
    (hother : ∀ a id, id ≠ s.current t → s.creator a = some id → s'.creator a = some id)
    (hframe : FrameOk L s' t)
    (hnodes : ∀ a id, s'.nodePtr a = some id → s'.Begun id)
    (hcreators : ∀ a id, s'.creator a = some id → s'.Begun id ∧ s'.nodePtr a ≠ none)
    (hplaced : ∀ a, s'.nodePtr a ≠ none → s'.creator a ≠ none)
    (hunique : ∀ a a' id, s'.creator a = some id → s'.creator a' = some id → a = a')
    (hpc : ∀ key ptrValue p, s'.engine.pc t = .set key ptrValue p →
      ptrValue.block = s.current t ∧ p ≠ .createNode)
    (hmine : ∀ a, (s'.engine.pc t).mine = some a → s'.creator a = some (s.current t))
    (hstoring : ∀ key value mine node ptrValue,
      s'.engine.pc t = .set key value (.storeValue mine node ptrValue) →
      s'.frame t = .holding ptrValue.block) : Control L s' := by
  have hcurrent : ∀ t', s'.current t' = s.current t' := fun t' => by
    rw [State.current, State.current, hcalls]
  have hne : ∀ t', t' ≠ t → s.current t' ≠ s.current t := fun t' ht heq =>
    ht (congrArg CallId.thread heq)
  refine ⟨fun t' => ?_, hnodes, hcreators, hplaced, hunique, fun id b hid => ?_,
    fun t' key ptrValue p hset => ?_, fun t' a ha => ?_,
    fun t' key value mine node ptrValue hset => ?_⟩
  · by_cases ht : t' = t
    · exact ht ▸ hframe
    · have hok := h.frames t'
      simp only [FrameOk, hframes t' ht, hpcs t' ht, hcurrent] at hok ⊢
      cases hf : s.frame t' with
      | creating key value todo held =>
        rw [hf] at hok
        exact ⟨hok.1, hok.2.1, fun b hb => hnew _ b (hne t' ht) (hok.2.2 b hb)⟩
      | holding id =>
        rw [hf] at hok
        exact State.Begun.mono hok hcalls hframes hbuilding
      | _ => rwa [hf] at hok
  · rw [hcalls] at hid
    refine hnew id b (fun heq => ?_) (h.unused id b hid)
    subst heq
    exact Nat.lt_irrefl _ hid
  · rw [hcurrent]
    by_cases ht : t' = t
    · subst ht
      exact hpc key ptrValue p hset
    · exact h.pcs t' key ptrValue p (by rwa [← hpcs t' ht])
  · rw [hcurrent]
    by_cases ht : t' = t
    · subst ht
      exact hmine a ha
    · exact hother a _ (hne t' ht) (h.mine t' a (by rwa [← hpcs t' ht]))
  · by_cases ht : t' = t
    · subst ht
      exact hstoring key value mine node ptrValue hset
    · rw [hframes t' ht]
      exact h.storing t' key value mine node ptrValue (by rwa [← hpcs t' ht])

/-! ## A call without a node -/

theorem State.not_begun (hbuilding : (s.frame t).building = true) : ¬ s.Begun (s.current t) := by
  rintro (hlt | ⟨_, hb⟩)
  · exact Nat.lt_irrefl _ hlt
  · exact absurd (hbuilding.symm.trans hb) (by simp)

theorem Accounted.begun_of_holding (h : Accounted L s) {id : CallId T}
    (hframe : s.frame t = .holding id) : s.Begun id := by
  have hok := h.frames t
  rwa [FrameOk, hframe] at hok

/-- The string of a call without a node has no shared pointer but the call's own temporary. -/
theorem Accounted.owner_building (h : Accounted L s) (hbuilding : (s.frame t).building = true)
    {o : Owner T} (ho : o ∈ s.heap.owners (s.current t)) :
    o = .frame t ∧ .ptrValue ∈ (s.frame t).held := by
  have hpoints := (h.points _ o).mp ho
  have hno := State.not_begun hbuilding
  cases o with
  | node a => exact absurd (h.nodes a _ hpoints) hno
  | frame t' =>
    rcases hpoints with hframe | ⟨hmem, hcur⟩
    · exact absurd (h.begun_of_holding hframe) hno
    · obtain rfl : t = t' := congrArg CallId.thread hcur
      exact ⟨rfl, hmem⟩

/-- The temporary with the characters of the value excludes a shared string. -/
theorem Accounted.owners_of_valueString (h : Accounted L s) {id : CallId T}
    (htemp : s.Temp id .valueString) : s.heap.owners id = ∅ := by
  obtain ⟨hcur, hmem⟩ := htemp
  have hok := h.frames id.thread
  rw [Finset.eq_empty_iff_forall_notMem]
  intro o ho
  rw [hcur] at ho
  cases hf : s.frame id.thread with
  | creating key value todo held =>
    rw [FrameOk, hf] at hok
    rw [hf] at hmem
    have hptr := (h.owner_building (by rw [hf]; rfl) ho).2
    rw [hf] at hptr
    exact hok.2.1.temporaries.2 hmem hptr
  | unwinding held =>
    rw [FrameOk, hf] at hok
    rw [hf] at hmem
    have hptr := (h.owner_building (by rw [hf]; rfl) ho).2
    rw [hf] at hptr
    exact hok.2.2 hmem hptr
  | leaving held =>
    rw [FrameOk, hf] at hok
    rw [hf] at hmem
    exact hok.2.1 hmem
  | _ => simp [hf, Frame.held] at hmem

/-- A raw node has not been constructed. -/
theorem Accounted.creator_of_rawNode (h : Accounted L s) {id : CallId T}
    (htemp : s.Temp id .rawNode) (a : Addr) : s.creator a ≠ some id := by
  obtain ⟨hcur, hmem⟩ := htemp
  have hok := h.frames id.thread
  intro hmade
  have hbegun := (h.creators a id hmade).1
  rw [hcur] at hbegun
  cases hf : s.frame id.thread with
  | creating key value todo held => exact State.not_begun (by rw [hf]; rfl) hbegun
  | unwinding held => exact State.not_begun (by rw [hf]; rfl) hbegun
  | leaving held =>
    rw [FrameOk, hf] at hok
    rw [hf] at hmem
    exact hok.2.2 hmem
  | _ => simp [hf, Frame.held] at hmem

/-! ## Steps inside a statement -/

section Local

variable [DecidableEq T]

/-- A step in which the thread neither performs an atomic operation nor makes a node. -/
theorem Accounted.local_step (h : Accounted L s) {heap' : Heap T} {frame' : Frame K T V}
    (hbuilding : frame'.building = true → (s.frame t).building = true)
    (hnew : ∀ id b, id ≠ s.current t → s.heap.book (id, b) = none → heap'.book (id, b) = none)
    (hstoring : ∀ key value mine node ptrValue,
      s.engine.pc t ≠ .set key value (.storeValue mine node ptrValue))
    (hframe : FrameOk L { s with heap := heap', frame := Function.update s.frame t frame' } t)
    (howners : ∀ id o, o ≠ .frame t → (o ∈ heap'.owners id ↔ o ∈ s.heap.owners id))
    (hown : ∀ id, .frame t ∈ heap'.owners id ↔
      frame' = .holding id ∨ .ptrValue ∈ frame'.held ∧ id = s.current t)
    (hbook : heap'.Accounts
      (State.Temp { s with heap := heap', frame := Function.update s.frame t frame' }) s.creator) :
    Accounted L { s with heap := heap', frame := Function.update s.frame t frame' } where
  toControl := by
    have hbegun : ∀ id, s.Begun id → State.Begun
        { s with heap := heap', frame := Function.update s.frame t frame' } id := fun id hid =>
      hid.mono (t := t) rfl (fun t' ht => by simp [ht]) (by simpa using hbuilding)
    refine h.toControl.step t rfl (fun t' ht => by simp [ht]) (fun _ _ => rfl)
      (by simpa using hbuilding) hnew (fun _ _ _ hmade => hmade) hframe
      (fun a id hptr => hbegun id (h.nodes a id hptr))
      (fun a id hmade => ⟨hbegun id (h.creators a id hmade).1, (h.creators a id hmade).2⟩)
      h.placed h.unique (h.pcs t) (h.mine t) fun key value mine node ptrValue hset => ?_
    exact absurd hset (hstoring key value mine node ptrValue)
  engine := h.engine
  points id o := by
    cases o with
    | node a =>
      rw [howners id _ (by simp), h.points]
      rfl
    | frame t' =>
      by_cases ht : t' = t
      · subst ht
        rw [hown]
        simp [State.Points, State.current]
      · rw [howners id _ (by simpa using ht), h.points]
        simp [State.Points, State.current, ht]
  book := hbook

section Temporaries

variable {engine' : Engine.State cfg (SharedPtr T V)} {heap' : Heap T} {frame' : Frame K T V}
  {creator' : Addr → Option (CallId T)} {id : CallId T} {d : Temporary}

/-- The temporaries after a step of the thread `t`. -/
theorem State.temp_update :
    State.Temp ⟨engine', heap', Function.update s.frame t frame', s.calls, creator'⟩ id d ↔
      id = s.current t ∧ d ∈ frame'.held ∨ id.thread ≠ t ∧ s.Temp id d := by
  by_cases ht : id.thread = t
  · subst ht
    simp [State.Temp, State.current]
  · have hne : id ≠ ⟨t, s.calls t⟩ := fun heq => ht (congrArg CallId.thread heq)
    simp [State.Temp, State.current, ht, hne]

theorem State.temp_iff :
    s.Temp id d ↔ id = s.current t ∧ d ∈ (s.frame t).held ∨ id.thread ≠ t ∧ s.Temp id d := by
  by_cases ht : id.thread = t
  · subst ht
    simp [State.Temp]
  · have hne : id ≠ s.current t := fun heq => ht (congrArg CallId.thread heq)
    simp [hne, ht]

theorem State.temp_same (hsame : ∀ d, d ∈ frame'.held ↔ d ∈ (s.frame t).held) :
    State.Temp ⟨engine', heap', Function.update s.frame t frame', s.calls, creator'⟩ id d ↔
      s.Temp id d := by
  rw [State.temp_update, hsame]
  exact State.temp_iff.symm

end Temporaries

theorem Stage.ptrValue_mem_acquire {st : Stage} {held : List Temporary} :
    .ptrValue ∈ st.acquire held ↔ st = .allocate .sharedValue ∨ .ptrValue ∈ held := by
  cases st with
  | allocator => simp [Stage.acquire]
  | allocate b => cases b <;> simp [Stage.acquire, List.mem_erase_of_ne]

/-- A temporary dies, on the way out or at the end of the statement. -/
theorem Accounted.destroy_step (h : Accounted L s) {d : Temporary} {held : List Temporary}
    {frame' : Frame K T V} (hheld : (s.frame t).held = d :: held) (hnodup : (d :: held).Nodup)
    (hframe' : frame'.held = held) (hholding : ∀ id, frame' ≠ .holding id)
    (hbuilding : frame'.building = true → (s.frame t).building = true)
    (hstoring : ∀ key value mine node ptrValue,
      s.engine.pc t ≠ .set key value (.storeValue mine node ptrValue))
    (hok : FrameOk L { s with
      heap := s.heap.destroy (s.current t) d, frame := Function.update s.frame t frame' } t) :
    Accounted L { s with
      heap := s.heap.destroy (s.current t) d, frame := Function.update s.frame t frame' } := by
  have hd : d ∉ held := (List.nodup_cons.mp hnodup).1
  have htemp : ∀ d', s.Temp (s.current t) d' ↔ d' ∈ d :: held := fun d' => by
    simp [State.Temp, State.current, hheld]
  have hptr : s.Temp (s.current t) .ptrValue → .frame t ∈ s.heap.owners (s.current t) := fun hmem =>
    (h.points _ _).mpr (.inr ⟨hmem.2, rfl⟩)
  refine h.local_step hbuilding (fun _ _ _ => Heap.destroy_new) hstoring hok ?_ ?_ ?_
  · intro id o ho
    cases d with
    | ptrValue =>
      by_cases hid : id = s.current t
      · subst hid
        simp [Heap.destroy, Heap.drop, State.current, ho]
      · simp [Heap.destroy, Heap.drop, hid]
    | _ => exact Iff.rfl
  · intro id
    have hmem : .frame t ∈ s.heap.owners id ↔ .ptrValue ∈ d :: held ∧ id = s.current t := by
      rw [h.points, State.Points, hheld]
      refine or_iff_right fun heq => ?_
      simp [heq, Frame.held] at hheld
    cases d with
    | ptrValue =>
      by_cases hid : id = s.current t
      · subst hid
        simp [Heap.destroy, Heap.drop, State.current, hframe', hholding, hd]
      · simp [Heap.destroy, Heap.drop, hid, hmem, hholding]
    | _ => simpa [Heap.destroy, Heap.release, hholding, hframe'] using hmem
  · refine h.book.destroy ((htemp d).mpr (by simp)) (fun x d' => ?_) h.owners_of_valueString
      h.creator_of_rawNode hptr
    rw [State.temp_update, State.temp_iff (t := t), hframe', hheld]
    by_cases hx : x = s.current t
    · subst hx
      have hiff : d' ∈ held ↔ d' ∈ d :: held ∧ ¬ d' = d :=
        ⟨fun hmem => ⟨List.mem_cons_of_mem _ hmem, fun heq => hd (heq ▸ hmem)⟩,
          fun hmem => (List.mem_cons.mp hmem.1).resolve_left hmem.2⟩
      simpa [State.current] using hiff
    · simp [hx]

/-- A stage that succeeds, and is not the last. -/
theorem Accounted.stage_step (h : Accounted L s) {key : K} {value : V} {st st' : Stage}
    {todo : List Stage} {held : List Temporary} (needed : Bool)
    (hframe : s.frame t = .creating key value (st :: st' :: todo) held) :
    Accounted L { s with
      heap := s.heap.stage (s.current t) needed st
      frame := Function.update s.frame t
        (.creating key value (st' :: todo) (st.acquire held)) } := by
  have hok := h.frames t
  rw [FrameOk, hframe] at hok
  obtain ⟨hidle, hstands, hnew⟩ := hok
  have hbuilding : (s.frame t).building = true := by rw [hframe]; rfl
  have hheld : (s.frame t).held = held := by rw [hframe]; rfl
  have hmem : ∀ id, .frame t ∈ s.heap.owners id ↔ .ptrValue ∈ held ∧ id = s.current t := by
    intro id
    rw [h.points, State.Points, hframe]
    simp [Frame.held]
  refine h.local_step (fun _ => hbuilding) (fun _ _ hne => Heap.stage_new (.inl hne))
    (by simp [hidle]) ?_ ?_ ?_ ?_
  · simp only [FrameOk, Function.update_self]
    refine ⟨hidle, hstands.next, fun b hb => ?_⟩
    exact Heap.stage_new (.inr fun heq => hstands.fresh (heq ▸ hb)) (hnew b (by simp [hb]))
  · intro id o ho
    cases st with
    | allocator => exact Iff.rfl
    | allocate b =>
      cases b with
      | sharedValue =>
        by_cases hid : id = s.current t
        · subst hid
          simp [Heap.stage, Heap.share, Heap.allocate, State.current, ho]
        · simp [Heap.stage, Heap.share, Heap.allocate, hid]
      | _ => exact Iff.rfl
  · intro id
    simp only [Frame.held, Stage.ptrValue_mem_acquire]
    cases st with
    | allocator => simpa [Heap.stage] using hmem id
    | allocate b =>
      cases b with
      | sharedValue =>
        by_cases hid : id = s.current t
        · subst hid
          simp [Heap.stage, Heap.share, State.current]
        · simp [Heap.stage, Heap.share, Heap.allocate, hid, hmem]
      | _ => simpa [Heap.stage, Heap.allocate] using hmem id
  · have hpush : ∀ d, st.acquire held = d :: held → ∀ x d', State.Temp { s with
        heap := s.heap.stage (s.current t) needed st
        frame := Function.update s.frame t (.creating key value (st' :: todo) (st.acquire held)) }
        x d' ↔ s.Temp x d' ∨ x = s.current t ∧ d' = d := by
      intro d hacquire x d'
      rw [State.temp_update, State.temp_iff (t := t), hheld, Frame.held, hacquire, List.mem_cons]
      by_cases hx : x = s.current t
      · subst hx
        simp [State.current, or_comm]
      · simp [hx]
    have hstage : ∀ b, .allocate b ∈ st :: st' :: todo → s.heap.book (s.current t, b) = none := hnew
    cases st with
    | allocator =>
      exact Book.Accounts.congr h.book (ownedBy_congr (fun _ => Iff.rfl)
        (fun _ _ => State.temp_same fun d => by rw [hheld]; rfl) fun _ => Iff.rfl)
    | allocate b =>
      have hb := hstage b (by simp)
      cases b with
      | keyString =>
        refine h.book.allocate hb needed fun x => ?_
        obtain ⟨x, b⟩ := x
        cases b <;> simp [OwnedBy, hpush .keyString rfl]
      | valueString =>
        refine h.book.allocate hb needed fun x => ?_
        obtain ⟨x, b⟩ := x
        cases b <;> simp [OwnedBy, hpush .valueString rfl, or_right_comm]
      | sharedValue =>
        obtain ⟨hvalue, hptr⟩ := hstands.sharedValue
        have hnone : s.heap.owners (s.current t) = ∅ := by
          rw [Finset.eq_empty_iff_forall_notMem]
          intro o ho
          exact hptr (hheld ▸ (h.owner_building hbuilding ho).2)
        have htemp : s.Temp (s.current t) .valueString :=
          ⟨rfl, by simpa [State.current, hheld] using hvalue⟩
        refine h.book.newShared hb needed hnone htemp _ fun x d hd => ?_
        rw [State.temp_update, State.temp_iff (t := t), hheld]
        by_cases hx : x = s.current t
        · subst hx
          have hnodup := hstands.temporaries.1
          simp [State.current, Frame.held, Stage.acquire, hd, hnodup.mem_erase_iff, and_comm]
        · simp [hx]
      | node =>
        refine h.book.allocate hb needed fun x => ?_
        obtain ⟨x, b⟩ := x
        cases b <;> simp [OwnedBy, hpush .rawNode rfl, or_right_comm]
      | nodeKey => exact absurd rfl hstands.not_last

/-- A step that ends a statement without temporaries, or starts to unwind its temporaries. -/
theorem Accounted.reframe_step (h : Accounted L s) {frame' : Frame K T V}
    (hheld : frame'.held = (s.frame t).held) (hbefore : ∀ id, s.frame t ≠ .holding id)
    (hafter : ∀ id, frame' ≠ .holding id)
    (hbuilding : frame'.building = true → (s.frame t).building = true)
    (hok : FrameOk L (s.setFrame t frame') t) : Accounted L (s.setFrame t frame') := by
  refine h.local_step hbuilding (fun _ _ _ hx => hx) ?_ hok (fun _ _ _ => Iff.rfl) (fun id => ?_) ?_
  · intro key value mine node ptrValue hset
    exact hbefore _ (h.storing t key value mine node ptrValue hset)
  · rw [h.points, State.Points, hheld]
    simp [hbefore, hafter]
  · exact Book.Accounts.congr h.book (ownedBy_congr (fun _ => Iff.rfl)
      (fun _ _ => State.temp_same fun d => by rw [hheld]) fun _ => Iff.rfl)

/-- The local shared pointer dies. -/
theorem Accounted.drop_step (h : Accounted L s) {id : CallId T} (hframe : s.frame t = .holding id)
    (hkeeps : keepsLocal (s.engine.pc t) = false) :
    Accounted L { s with
      heap := s.heap.drop id (.frame t), frame := Function.update s.frame t .none } := by
  have hmem : ∀ id', .frame t ∈ s.heap.owners id' ↔ id = id' := fun id' => by
    rw [h.points, State.Points, hframe]
    simp [Frame.held]
  have hown := (hmem id).mpr rfl
  refine h.local_step (by simp [Frame.building]) (fun _ _ _ => Heap.drop_new) ?_
    (by simp [FrameOk]) ?_ ?_ ?_
  · intro key value mine node ptrValue hset
    simp [hset, keepsLocal] at hkeeps
  · intro id' o ho
    by_cases hid : id' = id
    · subst hid
      simp [Heap.drop, ho]
    · simp [Heap.drop, hid]
  · intro id'
    by_cases hid : id' = id
    · subst hid
      simp [Heap.drop, Frame.held]
    · simp [Heap.drop, hid, hmem, Ne.symm hid, Frame.held]
  · refine Book.Accounts.congr (h.book.drop hown fun htemp => ?_) (ownedBy_congr (fun _ => Iff.rfl)
      (fun _ _ => State.temp_same fun d => by simp [hframe, Frame.held]) fun _ => Iff.rfl)
    exact Finset.ne_empty_of_mem hown (h.owners_of_valueString htemp)

/-- A thread copies the shared pointer of a node. -/
theorem Accounted.share_step (h : Accounted L s) {a : Addr} {id : CallId T}
    (hframe : s.frame t = .none) (hptr : s.nodePtr a = some id)
    (hstoring : ∀ key value mine node ptrValue,
      s.engine.pc t ≠ .set key value (.storeValue mine node ptrValue)) :
    Accounted L { s with
      heap := s.heap.share id (.frame t), frame := Function.update s.frame t (.holding id) } := by
  have hno : ∀ id', .frame t ∉ s.heap.owners id' := fun id' hmem => by
    have hpoints := (h.points _ _).mp hmem
    simp [State.Points, hframe, Frame.held] at hpoints
  have hnode : .node a ∈ s.heap.owners id := (h.points _ _).mpr hptr
  refine h.local_step (by simp [Frame.building]) (fun _ _ _ hx => hx) hstoring ?_ ?_ ?_ ?_
  · simp only [FrameOk, Function.update_self]
    exact (h.nodes a id hptr).mono (t := t) rfl (fun t' ht => by simp [ht])
      (by simp [Frame.building])
  · intro id' o ho
    by_cases hid : id' = id
    · subst hid
      simp [Heap.share, ho]
    · simp [Heap.share, hid]
  · intro id'
    by_cases hid : id' = id
    · subst hid
      simp [Heap.share]
    · simp [Heap.share, hid, hno, Ne.symm hid, Frame.held]
  · exact Book.Accounts.congr (h.book.share (Finset.ne_empty_of_mem hnode) _) (ownedBy_congr
      (fun _ => Iff.rfl) (fun _ _ => State.temp_same fun d => by simp [hframe, Frame.held])
      fun _ => Iff.rfl)

end Local

end Invariant

end LockFreeKV.Engine.Alloc
