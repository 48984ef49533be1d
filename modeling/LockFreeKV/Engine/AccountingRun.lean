import LockFreeKV.Engine.Accounting

/-!
# The owners along a run

The steps that make and destroy nodes or move shared pointers keep the books as well, so
the books are right in every reachable state.
-/
namespace LockFreeKV.Engine.Alloc

open LockFreeKV.Lib

variable {K V T : Type} [DecidableEq T] {cfg : Config K T} {L : Layout K V}
  {s s' : State cfg V} {t : T}

/-! ## A call begins, and a node is constructed -/

/-- A call of `set` begins. -/
theorem Accounted.set_step (h : Accounted L s) {key : K} {value : V} (hframe : s.frame t = .none)
    (hidle : s.engine.pc t = .idle) :
    Accounted L { s with
      frame := Function.update s.frame t (.creating key value L.plan [])
      calls := Function.update s.calls t (s.calls t + 1) } := by
  have hcurrent : ∀ t', t' ≠ t → State.current { s with
      frame := Function.update s.frame t (.creating key value L.plan [])
      calls := Function.update s.calls t (s.calls t + 1) } t' = s.current t' := fun t' ht => by
    simp [State.current, ht]
  have hcalls : ∀ t', s.calls t' ≤ Function.update s.calls t (s.calls t + 1) t' := fun t' => by
    by_cases ht : t' = t
    · subst ht
      simp
    · simp [ht]
  have hbegun : ∀ id, s.Begun id → State.Begun { s with
      frame := Function.update s.frame t (.creating key value L.plan [])
      calls := Function.update s.calls t (s.calls t + 1) } id := by
    rintro id (hlt | ⟨hcur, hb⟩)
    · exact .inl (Nat.lt_of_lt_of_le hlt (hcalls _))
    · by_cases ht : id.thread = t
      · refine .inl ?_
        rw [hcur]
        simp [State.current, ht]
      · exact .inr ⟨by rw [hcurrent _ ht]; exact hcur, by simpa [ht] using hb⟩
  have htemp : ∀ id d, State.Temp { s with
      frame := Function.update s.frame t (.creating key value L.plan [])
      calls := Function.update s.calls t (s.calls t + 1) } id d ↔ s.Temp id d := fun id d => by
    by_cases ht : id.thread = t
    · simp [State.Temp, ht, hframe, Frame.held]
    · simp [State.Temp, hcurrent _ ht, ht]
  constructor
  · refine ⟨fun t' => ?_, fun a id hptr => hbegun id (h.nodes a id hptr),
      fun a id hmade => ⟨hbegun id (h.creators a id hmade).1, (h.creators a id hmade).2⟩,
      h.placed, h.unique, fun id b hid => ?_, fun t' key' ptrValue p hset => ?_,
      fun t' a ha => ?_, fun t' key' value' mine node ptrValue hset => ?_⟩
    · by_cases ht : t' = t
      · subst ht
        simp only [FrameOk, Function.update_self]
        exact ⟨hidle, ⟨[], rfl, rfl⟩, fun b _ => h.unused _ b (by simp [State.current])⟩
      · have hok := h.frames t'
        simp only [FrameOk, Function.update_of_ne ht, hcurrent t' ht] at hok ⊢
        cases hf : s.frame t' with
        | holding id =>
          rw [hf] at hok
          exact hbegun id hok
        | _ => rwa [hf] at hok
    · exact h.unused id b (Nat.lt_of_le_of_lt (hcalls _) hid)
    · by_cases ht : t' = t
      · subst ht
        simp [hidle] at hset
      · rw [hcurrent t' ht]
        exact h.pcs t' key' ptrValue p hset
    · by_cases ht : t' = t
      · subst ht
        simp [hidle, Pc.mine] at ha
      · rw [hcurrent t' ht]
        exact h.mine t' a ha
    · by_cases ht : t' = t
      · subst ht
        simp [hidle] at hset
      · simpa [ht] using h.storing t' key' value' mine node ptrValue hset
  · exact h.engine
  · intro id o
    rw [h.points]
    cases o with
    | node a => exact Iff.rfl
    | frame t' =>
      by_cases ht : t' = t
      · subst ht
        simp [State.Points, hframe, Frame.held]
      · simp [State.Points, hcurrent t' ht, ht]
  · exact Book.Accounts.congr h.book (ownedBy_congr (fun _ => Iff.rfl) htemp fun _ => Iff.rfl)

omit [DecidableEq T] in
theorem Accounted.creator_of_free (h : Accounted L s) {a : Addr}
    (hfree : s.engine.mem.blocks a = none) : s.nodePtr a = none ∧ s.creator a = none := by
  obtain ⟨c, hi⟩ := h.engine
  have hnode : s.nodePtr a = none := by
    have hbook := hi.table.book a
    rw [hfree, eq_comm, Option.map_eq_none_iff] at hbook
    simp [State.nodePtr, hbook]
  refine ⟨hnode, Option.eq_none_iff_forall_ne_some.mpr fun id hmade => ?_⟩
  exact (h.creators a id hmade).2 hnode

/-- The last stage has led from `s` to `s'`: the node is at `fresh`. -/
structure Places (s s' : State cfg V) (t : T) (held : List Temporary) (fresh : Addr) : Prop where
  calls : s'.calls = s.calls
  frames : ∀ t', t' ≠ t → s'.frame t' = s.frame t'
  pcs : ∀ t', t' ≠ t → s'.engine.pc t' = s.engine.pc t'
  leaving : s'.frame t = .leaving (held.erase .rawNode)
  pc : ∃ key value, s'.engine.pc t = .set key ⟨s.current t, value⟩ (.casHead fresh)
  nodePtr : ∀ a, s'.nodePtr a = if a = fresh then some (s.current t) else s.nodePtr a
  creator : ∀ a, s'.creator a = if a = fresh then some (s.current t) else s.creator a
  owners : s'.heap.owners = (s.heap.share (s.current t) (.node fresh)).owners
  unused : ∀ id b, id ≠ s.current t → s.heap.book (id, b) = none → s'.heap.book (id, b) = none

namespace Places

variable {held : List Temporary} {fresh : Addr}

theorem current (hp : Places s s' t held fresh) (t' : T) : s'.current t' = s.current t' := by
  rw [State.current, State.current, hp.calls]

theorem begun (hp : Places s s' t held fresh) {id : CallId T} (hid : s.Begun id) : s'.Begun id :=
  hid.mono hp.calls hp.frames (by simp [hp.leaving, Frame.building])

theorem begun_self (hp : Places s s' t held fresh) : s'.Begun (s.current t) := by
  refine .inr ⟨(hp.current t).symm, ?_⟩
  show (s'.frame t).building = false
  rw [hp.leaving]
  rfl

/-- The raw node is the only temporary that has gone. -/
theorem temp (hp : Places s s' t held fresh) (hheld : (s.frame t).held = held)
    (hnodup : held.Nodup) (id : CallId T) (d : Temporary) :
    s'.Temp id d ↔ s.Temp id d ∧ ¬ (id = s.current t ∧ d = .rawNode) := by
  simp only [State.Temp, hp.current]
  by_cases ht : id.thread = t
  · rw [ht, hp.leaving, hheld, Frame.held, hnodup.mem_erase_iff]
    by_cases hid : id = s.current t <;> simp [hid, and_comm]
  · have hid : id ≠ s.current t := fun heq => ht (congrArg CallId.thread heq)
    simp [hp.frames _ ht, hid]

theorem control (hp : Places s s' t held fresh) (h : Control L s)
    (hbuilding : (s.frame t).building = true) (hnodup : held.Nodup) (hvalue : .valueString ∉ held)
    (hnocreator : s.creator fresh = none) : Control L s' := by
  obtain ⟨key, value, hpc⟩ := hp.pc
  -- the call had not begun, so it has made no other node
  have hfirst : ∀ a, s.creator a ≠ some (s.current t) := fun a hmade =>
    State.not_begun hbuilding (h.creators a _ hmade).1
  refine h.step t hp.calls hp.frames hp.pcs (by simp [hp.leaving, Frame.building]) hp.unused
    ?_ ?_ ?_ ?_ ?_ ?_ ?_ ?_ ?_
  · intro a id _ hmade
    have ha : a ≠ fresh := fun ha => by simp [← ha, hmade] at hnocreator
    rw [hp.creator, if_neg ha, hmade]
  · rw [FrameOk, hp.leaving]
    exact ⟨hnodup.erase _, fun hmem => hvalue (List.mem_of_mem_erase hmem),
      fun hmem => (hnodup.mem_erase_iff.mp hmem).1 rfl⟩
  · intro a id hptr
    rw [hp.nodePtr] at hptr
    split at hptr
    · exact Option.some.inj hptr ▸ hp.begun_self
    · exact hp.begun (h.nodes a id hptr)
  · intro a id hmade
    rw [hp.creator] at hmade
    rw [hp.nodePtr]
    split at hmade
    · next ha => exact ⟨Option.some.inj hmade ▸ hp.begun_self, by simp [ha]⟩
    · next ha =>
      obtain ⟨hbegun, hptr⟩ := h.creators a id hmade
      exact ⟨hp.begun hbegun, by simpa [ha] using hptr⟩
  · intro a
    rw [hp.nodePtr, hp.creator]
    split
    · simp
    · exact h.placed a
  · intro a a' id hmade hmade'
    rw [hp.creator] at hmade hmade'
    split at hmade <;> split at hmade'
    · next ha ha' => exact ha.trans ha'.symm
    · exact absurd (hmade'.trans hmade.symm) (hfirst a')
    · exact absurd (hmade.trans hmade'.symm) (hfirst a)
    · exact h.unique a a' id hmade hmade'
  · intro key' ptrValue p hset
    rw [hpc] at hset
    cases hset
    exact ⟨rfl, by simp⟩
  · intro a ha
    rw [hpc] at ha
    obtain rfl : fresh = a := Option.some.inj ha
    rw [hp.creator, if_pos rfl]
  · intro key' value' mine node ptrValue hset
    rw [hpc] at hset
    cases hset

theorem points (hp : Places s s' t held fresh) (hheld : (s.frame t).held = held)
    (hholding : ∀ id, s.frame t ≠ .holding id) (hnoptr : s.nodePtr fresh = none)
    (hpoints : ∀ id o, o ∈ s.heap.owners id ↔ s.Points id o) (id : CallId T) (o : Owner T) :
    o ∈ s'.heap.owners id ↔ s'.Points id o := by
  have hshare : o ∈ (s.heap.share (s.current t) (.node fresh)).owners id ↔
      o ∈ s.heap.owners id ∨ id = s.current t ∧ o = .node fresh := by
    by_cases hid : id = s.current t
    · subst hid
      simp [Heap.share, State.current, or_comm]
    · simp [Heap.share, hid]
  rw [hp.owners, hshare, hpoints]
  cases o with
  | node a =>
    simp only [State.Points, hp.nodePtr]
    by_cases ha : a = fresh
    · simp [ha, hnoptr, eq_comm]
    · simp [ha]
  | frame t' =>
    by_cases ht : t' = t
    · subst ht
      have hsame : .ptrValue ∈ (s'.frame t').held ↔ .ptrValue ∈ (s.frame t').held := by
        rw [hp.leaving, hheld]
        exact List.mem_erase_of_ne (by simp)
      simp [State.Points, hholding, hp.leaving, hp.current, ← hsame]
    · simp [State.Points, hp.frames t' ht, hp.current]

end Places

/-- The last stage: the node is constructed. -/
theorem Accounted.construct_step [DecidableEq K] (h : Accounted L s) {key : K} {value : V}
    {st : Stage} {held : List Temporary} {fresh : Addr} (needed : Bool)
    (hframe : s.frame t = .creating key value [st] held) (hidle : s.engine.pc t = .idle)
    (hfree : s.engine.mem.blocks fresh = none) :
    Accounted L { s with
      engine := s.withNode t key value fresh
      heap := (s.heap.stage (s.current t) needed st).share (s.current t) (.node fresh)
      frame := Function.update s.frame t (.leaving (st.acquire held))
      creator := Function.update s.creator fresh (some (s.current t)) } := by
  have hok := h.frames t
  rw [FrameOk, hframe] at hok
  obtain ⟨_, hstands, hnew⟩ := hok
  obtain ⟨rfl, hnodup, hraw, hptr, hvalue⟩ := hstands.last
  obtain ⟨hnoptr, hnocreator⟩ := h.creator_of_free hfree
  have hbuilding : (s.frame t).building = true := by rw [hframe]; rfl
  have hheld : (s.frame t).held = held := by rw [hframe]; rfl
  have hown : .frame t ∈ s.heap.owners (s.current t) :=
    (h.points _ _).mpr (.inr ⟨by rwa [hheld], rfl⟩)
  have hp : Places s { s with
      engine := s.withNode t key value fresh
      heap := (s.heap.allocate (s.current t) .nodeKey needed).share (s.current t) (.node fresh)
      frame := Function.update s.frame t (.leaving (held.erase .rawNode))
      creator := Function.update s.creator fresh (some (s.current t)) } t held fresh := by
    refine ⟨rfl, fun t' ht => by simp [ht], fun t' ht => by simp [State.withNode, ht], by simp,
      ⟨key, value, by simp [State.withNode]⟩, fun a => ?_, fun a => Function.update_apply .., rfl,
      fun id b hne hb => Heap.allocate_new (.inl hne) hb⟩
    by_cases ha : a = fresh
    · simp [State.nodePtr, State.withNode, Memory.allocate, ha]
    · simp [State.nodePtr, State.withNode, Memory.allocate, ha]
  refine ⟨hp.control h.toControl hbuilding hnodup hvalue hnocreator, ?_,
    hp.points hheld (by simp [hframe]) hnoptr h.points, ?_⟩
  · obtain ⟨c, hi⟩ := h.engine
    obtain ⟨c', hi', _⟩ := hi.run (State.withNode_run hidle hfree)
    exact ⟨c', hi'⟩
  · have hbook := h.book.newNode (hnew .nodeKey (by simp)) needed hnocreator
      ⟨rfl, by simpa [State.current, hheld] using hraw⟩ (Finset.ne_empty_of_mem hown)
      fun x d => Iff.rfl
    exact Book.Accounts.congr hbook (ownedBy_congr (fun _ => Iff.rfl) (hp.temp hheld hnodup)
      fun _ => Iff.rfl)

/-! ## Atomic operations -/

omit [DecidableEq T] in
/-- A step of the engine that leaves the shared pointers of the nodes as they are. -/
theorem Accounted.engine_step (h : Accounted L s) {engine' : Engine.State cfg (SharedPtr T V)}
    (hinv : ∃ c, Inv engine' c) (hpcs : ∀ t', t' ≠ t → engine'.pc t' = s.engine.pc t')
    (hptr : ∀ a, State.nodePtr { s with engine := engine' } a = s.nodePtr a)
    (hframe : (s.frame t).building = false)
    (hpc : ∀ key ptrValue p, engine'.pc t = .set key ptrValue p →
      ptrValue.block = s.current t ∧ p ≠ .createNode)
    (hmine : ∀ a, (engine'.pc t).mine = some a → s.creator a = some (s.current t))
    (hstoring : ∀ key value mine node ptrValue,
      engine'.pc t = .set key value (.storeValue mine node ptrValue) →
      s.frame t = .holding ptrValue.block) : Accounted L { s with engine := engine' } where
  toControl := by
    refine h.toControl.step t rfl (fun _ _ => rfl) hpcs id (fun _ _ _ hb => hb)
      (fun _ _ _ hmade => hmade) ?_ (fun a id hn => h.nodes a id (by rwa [hptr] at hn))
      (fun a id hmade => ⟨(h.creators a id hmade).1, by rw [hptr]; exact (h.creators a id hmade).2⟩)
      (fun a hn => h.placed a (by rwa [hptr] at hn)) h.unique hpc hmine hstoring
    have hok := h.frames t
    cases hf : s.frame t with
    | creating key value todo held => simp [hf, Frame.building] at hframe
    | unwinding held => simp [hf, Frame.building] at hframe
    | none => simp only [FrameOk, hf]
    | leaving held =>
      simp only [FrameOk, hf] at hok ⊢
      exact hok
    | holding id =>
      simp only [FrameOk, hf] at hok ⊢
      exact hok
  engine := hinv
  points id o := by
    rw [h.points]
    cases o with
    | node a => simp only [State.Points, hptr]
    | frame t' => exact Iff.rfl
  book := h.book

/-- Who owns what after a swap, also if both pointers point to the same string. -/
theorem Accounted.mem_swap (h : Accounted L s) {new old : CallId T} {node : Addr}
    (hframe : s.frame t = .holding new) (hold : s.nodePtr node = some old) {id : CallId T}
    {o : Owner T} : o ∈ (s.heap.swap new old t node).owners id ↔
      o = .node node ∧ id = new ∨ o = .frame t ∧ id = old ∨
        o ∈ s.heap.owners id ∧ o ≠ .node node ∧ o ≠ .frame t := by
  have hnode : .node node ∈ s.heap.owners id ↔ old = id := by
    rw [h.points, State.Points, hold, Option.some.injEq]
  have hthread : .frame t ∈ s.heap.owners id ↔ new = id := by
    rw [h.points, State.Points, hframe]
    simp [Frame.held]
  by_cases hne : new = old
  · subst hne
    rw [Heap.swap, if_pos rfl]
    by_cases ho : o = .node node
    · simp [ho, hnode, eq_comm]
    · by_cases ho' : o = .frame t
      · simp [ho', hthread, eq_comm]
      · simp [ho, ho']
  · rw [Heap.mem_swap hne]
    by_cases ho : o = .node node
    · simp [ho, hnode, eq_comm]
    · by_cases ho' : o = .frame t
      · simp [ho', hthread, eq_comm]
      · simp [ho, ho']

/-- `store`: the thread's shared pointer goes into the node, and the node's to the thread. -/
theorem Accounted.swap_step (h : Accounted L s) {engine' : Engine.State cfg (SharedPtr T V)}
    {new old : CallId T} {node : Addr} (hinv : ∃ c, Inv engine' c)
    (hpcs : ∀ t', t' ≠ t → engine'.pc t' = s.engine.pc t')
    (hframe : s.frame t = .holding new) (hold : s.nodePtr node = some old)
    (hptr : ∀ a, State.nodePtr { s with engine := engine' } a =
      if a = node then some new else s.nodePtr a)
    (hpc : ∀ key ptrValue p, engine'.pc t = .set key ptrValue p →
      ptrValue.block = s.current t ∧ p ≠ .createNode)
    (hmine : ∀ a, (engine'.pc t).mine = some a → s.creator a = some (s.current t))
    (hstoring : ∀ key value mine node ptrValue,
      engine'.pc t ≠ .set key value (.storeValue mine node ptrValue)) :
    Accounted L { s with
      engine := engine'
      heap := s.heap.swap new old t node
      frame := Function.update s.frame t (.holding old) } := by
  have hnew := h.begun_of_holding hframe
  have hmono : ∀ id, s.Begun id → State.Begun { s with
      engine := engine'
      heap := s.heap.swap new old t node
      frame := Function.update s.frame t (.holding old) } id := fun id hid =>
    hid.mono (t := t) rfl (fun t' ht => by simp [ht]) (by simp [Frame.building])
  have hthread : .frame t ∈ s.heap.owners new := (h.points _ _).mpr (.inl hframe)
  have hnode : .node node ∈ s.heap.owners old := (h.points _ _).mpr hold
  have hbooked : (s.heap.swap new old t node).book = s.heap.book := by
    unfold Heap.swap
    split <;> rfl
  constructor
  · refine h.toControl.step t rfl (fun t' ht => by simp [ht]) hpcs (by simp [Frame.building])
      (fun _ _ _ hb => by rwa [hbooked]) (fun _ _ _ hmade => hmade) ?_ ?_
      (fun a id hmade => ⟨hmono id (h.creators a id hmade).1, ?_⟩) ?_ h.unique hpc hmine
      (fun key value mine node ptrValue hset => absurd hset (hstoring key value mine node ptrValue))
    · simp only [FrameOk, Function.update_self]
      exact hmono old (h.nodes node old hold)
    · intro a id hn
      have hn' := (hptr a).symm.trans hn
      split at hn'
      · rw [← Option.some.inj hn']
        exact hmono new hnew
      · exact hmono id (h.nodes a id hn')
    · show State.nodePtr { s with engine := engine' } a ≠ none
      rw [hptr]
      split
      · simp
      · exact (h.creators a id hmade).2
    · intro a hn
      have hn' : State.nodePtr { s with engine := engine' } a ≠ none := hn
      rw [hptr] at hn'
      split at hn'
      · next ha => exact h.placed a (by simp [ha, hold])
      · exact h.placed a hn'
  · exact hinv
  · intro id o
    rw [h.mem_swap hframe hold, h.points]
    cases o with
    | node a =>
      have hpoints : State.Points { s with
          engine := engine'
          heap := s.heap.swap new old t node
          frame := Function.update s.frame t (.holding old) } id (.node a) ↔
          (if a = node then some new else s.nodePtr a) = some id := by rw [← hptr]; rfl
      rw [hpoints]
      by_cases ha : a = node
      · simp [ha, eq_comm]
      · simp [ha, State.Points]
    | frame t' =>
      by_cases ht : t' = t
      · subst ht
        simp [State.Points, Frame.held, eq_comm]
      · simp [State.Points, State.current, ht]
  · exact Book.Accounts.congr (h.book.swap hthread hnode) (ownedBy_congr (fun _ => Iff.rfl)
      (fun _ _ => State.temp_same fun d => by simp [hframe, Frame.held]) fun _ => Iff.rfl)

/-- `delete_self` of the node that the thread holds. -/
theorem Accounted.delete_step (h : Accounted L s) {engine' : Engine.State cfg (SharedPtr T V)}
    {mine : Addr} {ptr : CallId T} (hinv : ∃ c, Inv engine' c)
    (hpcs : ∀ t', t' ≠ t → engine'.pc t' = s.engine.pc t') (hframe : s.frame t = .none)
    (hmine : s.nodePtr mine = some ptr) (hmade : s.creator mine = some (s.current t))
    (hptr : ∀ a, State.nodePtr { s with engine := engine' } a =
      if a = mine then none else s.nodePtr a)
    (hpc : ∀ key ptrValue p, engine'.pc t ≠ .set key ptrValue p) :
    Accounted L { s with
      engine := engine'
      heap := s.heap.deleteNode ptr mine (s.current t)
      creator := Function.update s.creator mine none } := by
  have hcreator : ∀ a id, Function.update s.creator mine none a = some id ↔
      a ≠ mine ∧ s.creator a = some id := fun a id => by
    by_cases ha : a = mine
    · simp [ha]
    · simp [ha]
  have hnoMine : (engine'.pc t).mine = none := by
    cases hp : engine'.pc t with
    | set key ptrValue p => exact absurd hp (hpc key ptrValue p)
    | _ => rfl
  have hnode : .node mine ∈ s.heap.owners ptr := (h.points _ _).mpr hmine
  constructor
  · refine h.toControl.step t rfl (fun _ _ => rfl) hpcs id ?_ ?_ (by simp [FrameOk, hframe])
      ?_ ?_ ?_ ?_ (fun key ptrValue p hset => absurd hset (hpc key ptrValue p)) (by simp [hnoMine])
      fun key value mine node ptrValue hset => absurd hset (hpc key value _)
    · intro id b _ hb
      simpa [Heap.deleteNode, Heap.release] using Heap.drop_new hb
    · intro a id hne hid
      refine (hcreator a id).mpr ⟨fun ha => hne ?_, hid⟩
      rw [ha, hmade] at hid
      exact (Option.some.inj hid).symm
    · intro a id hn
      have hn' := (hptr a).symm.trans hn
      split at hn'
      · cases hn'
      · exact h.nodes a id hn'
    · intro a id hid
      obtain ⟨ha, hid⟩ := (hcreator a id).mp hid
      refine ⟨(h.creators a id hid).1, ?_⟩
      show State.nodePtr { s with engine := engine' } a ≠ none
      rw [hptr, if_neg ha]
      exact (h.creators a id hid).2
    · intro a hn
      have hn' : State.nodePtr { s with engine := engine' } a ≠ none := hn
      rw [hptr] at hn'
      split at hn'
      · exact absurd rfl hn'
      · next ha => simpa [ha] using h.placed a hn'
    · intro a a' id hid hid'
      exact h.unique a a' id ((hcreator a id).mp hid).2 ((hcreator a' id).mp hid').2
  · exact hinv
  · intro id o
    rw [Heap.mem_deleteNode, h.points]
    cases o with
    | node a =>
      have hpoints : State.Points { s with
          engine := engine'
          heap := s.heap.deleteNode ptr mine (s.current t)
          creator := Function.update s.creator mine none } id (.node a) ↔
          (if a = mine then none else s.nodePtr a) = some id := by rw [← hptr]; rfl
      rw [hpoints]
      by_cases ha : a = mine
      · simp [State.Points, ha, hmine, eq_comm]
      · simp [State.Points, ha]
    | frame t' => simp [State.Points, State.current]
  · refine h.book.deleteNode hnode (fun htemp => ?_) hmade
      (fun a ha => h.unique a mine _ ha hmade) fun htemp => h.creator_of_rawNode htemp mine hmade
    exact Finset.ne_empty_of_mem hnode (h.owners_of_valueString htemp)

omit [DecidableEq T] in
theorem State.not_building (hat : s.atOperation t = true) : (s.frame t).building = false := by
  unfold State.atOperation at hat
  cases hf : s.frame t <;> simp_all [Frame.building]

omit [DecidableEq T] in
/-- A local shared pointer is kept for `store` and for the loop of `enumerate` only. -/
theorem State.frame_eq_none (hat : s.atOperation t = true)
    (hkeeps : keepsLocal (s.engine.pc t) = false) : s.frame t = .none := by
  unfold State.atOperation at hat
  cases hf : s.frame t <;> simp_all

section Advance

variable {h : Hashing K} {m m' : Memory h V} {allocator : HeapID} {a : Act K V}
  {pc pc' : Pc K V}

theorem set_of_advance (hadv : Advance m allocator pc a m' pc') {key : K} {value : V} {p : SetPc V}
    (hset : pc' = .set key value p) : (∃ p', pc = .set key value p') ∧ p ≠ .createNode := by
  cases hadv <;> cases hset <;> exact ⟨⟨_, rfl⟩, by simp⟩

theorem mine_of_advance (hadv : Advance m allocator pc a m' pc')
    (hpc : ∀ key value, pc ≠ .set key value .createNode) {x : Addr} (hmine : pc'.mine = some x) :
    pc.mine = some x := by
  cases hadv with
  | createNode hfree => exact absurd rfl (hpc _ _)
  | headLost | loadMine | nextLost | storeValue => exact hmine
  | _ => cases hmine

end Advance

section Atomic

variable {a : Act K (SharedPtr T V)} {m' : Memory cfg.toHashing (SharedPtr T V)}
  {pc' : Pc K (SharedPtr T V)}

omit [DecidableEq T] in
theorem Accounted.not_createNode (h : Accounted L s) (key : K) (value : SharedPtr T V) :
    s.engine.pc t ≠ .set key value .createNode := fun hset => (h.pcs t key value _ hset).2 rfl

/-- The call of `set` keeps its string and its node. -/
theorem Accounted.advance_pc (h : Accounted L s)
    (hadv : Advance s.engine.mem (cfg.heapId t) (s.engine.pc t) a m' pc') :
    (∀ key ptrValue p, Function.update s.engine.pc t pc' t = .set key ptrValue p →
      ptrValue.block = s.current t ∧ p ≠ .createNode) ∧
    ∀ x, (Function.update s.engine.pc t pc' t).mine = some x →
      s.creator x = some (s.current t) := by
  rw [Function.update_self]
  refine ⟨fun key ptrValue p hpc' => ?_, fun x hx => ?_⟩
  · obtain ⟨⟨p', hpc⟩, hne⟩ := set_of_advance hadv hpc'
    exact ⟨(h.pcs t key ptrValue p' hpc).1, hne⟩
  · exact h.mine t x (mine_of_advance hadv h.not_createNode hx)

variable [DecidableEq K]

theorem Accounted.advance_inv (h : Accounted L s)
    (hadv : Advance s.engine.mem (cfg.heapId t) (s.engine.pc t) a m' pc') :
    ∃ c, Inv (V := SharedPtr T V) ⟨m', Function.update s.engine.pc t pc'⟩ c := by
  obtain ⟨c, hi⟩ := h.engine
  exact ⟨_, hi.atomic hadv⟩

/-- An operation that neither copies nor moves a shared pointer. -/
theorem Accounted.plain_step (h : Accounted L s) (hat : s.atOperation t = true)
    (hadv : Advance s.engine.mem (cfg.heapId t) (s.engine.pc t) a m' pc')
    (hcharge : s.charge t a = s) (hptr : ∀ x, (m'.nodes x).map (·.ptrValue.block) = s.nodePtr x)
    (hstoring : ∀ key value mine node ptrValue,
      pc' ≠ .set key value (.storeValue mine node ptrValue)) :
    Accounted L { s.charge t a with engine := ⟨m', Function.update s.engine.pc t pc'⟩ } := by
  obtain ⟨hset, hmine⟩ := h.advance_pc hadv
  rw [hcharge]
  refine h.engine_step (h.advance_inv hadv) (fun t' ht => Function.update_of_ne ht ..) hptr
    (State.not_building hat) hset hmine fun key value mine node ptrValue hpc' => ?_
  simp only [Function.update_self] at hpc'
  exact absurd hpc' (hstoring key value mine node ptrValue)

/-- An operation that copies the shared pointer of the node at `x`. -/
theorem Accounted.copy_step (h : Accounted L s) (hat : s.atOperation t = true)
    (hadv : Advance s.engine.mem (cfg.heapId t) (s.engine.pc t) a s.engine.mem pc') {x : Addr}
    {nd : ListNode K (SharedPtr T V)} (hn : s.engine.mem.nodes x = some nd)
    (hkeeps : keepsLocal (s.engine.pc t) = false)
    (hcharge : s.charge t a = { s with
      heap := s.heap.share nd.ptrValue.block (.frame t)
      frame := Function.update s.frame t (.holding nd.ptrValue.block) })
    (hstoring : ∀ key value mine node ptrValue,
      pc' = .set key value (.storeValue mine node ptrValue) → ptrValue = nd.ptrValue) :
    Accounted L { s.charge t a with
      engine := ⟨s.engine.mem, Function.update s.engine.pc t pc'⟩ } := by
  obtain ⟨hset, hmine⟩ := h.advance_pc hadv
  have hptr : s.nodePtr x = some nd.ptrValue.block := by simp [State.nodePtr, hn]
  have hcopied := h.share_step (State.frame_eq_none hat hkeeps) hptr
    fun key value mine node ptrValue hpc => by simp [hpc, keepsLocal] at hkeeps
  rw [hcharge]
  refine hcopied.engine_step (h.advance_inv hadv) (fun t' ht => Function.update_of_ne ht ..)
    (fun _ => rfl) (by simp [Frame.building]) hset hmine fun key value mine node ptrValue hpc' => ?_
  simp only [Function.update_self] at hpc' ⊢
  rw [hstoring key value mine node ptrValue hpc']

/-- An atomic operation. -/
theorem Accounted.advance_step (h : Accounted L s) (hat : s.atOperation t = true)
    (hadv : Advance s.engine.mem (cfg.heapId t) (s.engine.pc t) a m' pc') :
    Accounted L { s.charge t a with engine := ⟨m', Function.update s.engine.pc t pc'⟩ } := by
  have hinv := h.advance_inv hadv
  have hpcs : ∀ t', t' ≠ t → Function.update s.engine.pc t pc' t' = s.engine.pc t' :=
    fun t' ht => Function.update_of_ne ht ..
  obtain ⟨hset, hmine⟩ := h.advance_pc hadv
  have hstep := hadv
  generalize hp : s.engine.pc t = pc at hadv
  cases hadv with
  | createNode => exact absurd hp (h.not_createNode _ _)
  | @loadMine key value mine node nd own hn hk ho =>
    refine h.copy_step hat hstep ho (by rw [hp]; rfl) (by simp [State.charge, hp, ho]) ?_
    intro key' value' mine' node' ptrValue hpc'
    cases hpc'
    rfl
  | @nextWon key value mine node nd hn hk hnull =>
    refine h.plain_step hat hstep (by simp [State.charge, hp]) (fun x => ?_) (by simp)
    by_cases hx : x = node
    · subst hx
      simp [State.nodePtr, Memory.putNode, hn]
    · simp [State.nodePtr, Memory.putNode, hx]
  | @storeValue key value ptrValue mine node nd hn =>
    have hold : s.nodePtr node = some nd.ptrValue.block := by simp [State.nodePtr, hn]
    have hswapped := h.swap_step hinv hpcs (h.storing t key value mine node ptrValue hp) hold
      (fun x => ?_) hset hmine (by simp)
    · have hcharge : s.charge t .storeValue = { s with
          heap := s.heap.swap ptrValue.block nd.ptrValue.block t node
          frame := Function.update s.frame t (.holding nd.ptrValue.block) } := by
        simp [State.charge, hp, hn]
      rw [hcharge]
      exact hswapped
    · by_cases hx : x = node
      · simp [State.nodePtr, Memory.putNode, hx]
      · simp [State.nodePtr, Memory.putNode, hx]
  | @destroy key value mine own ho hb =>
    have hown : s.nodePtr mine = some own.ptrValue.block := by simp [State.nodePtr, ho]
    have hmade : s.creator mine = some (s.current t) := h.mine t mine (by rw [hp]; rfl)
    have hdeleted := h.delete_step hinv hpcs (State.frame_eq_none hat (by rw [hp]; rfl)) hown hmade
      (fun x => ?_) (by simp)
    · have hcharge : s.charge t (.destroy mine) = { s with
          heap := s.heap.deleteNode own.ptrValue.block mine (s.current t)
          creator := Function.update s.creator mine none } := by
        simp [State.charge, hp, ho, hmade]
      rw [hcharge]
      exact hdeleted
    · by_cases hx : x = mine
      · simp [State.nodePtr, Memory.release, hx]
      · simp [State.nodePtr, Memory.release, hx]
  | @getValue key node nd hn =>
    exact h.copy_step hat hstep hn (by rw [hp]; rfl)
      (by simp [State.charge, State.copyValue, hp, hn]) (by simp)
  | @enumerateValue seen bucket node nd hn =>
    exact h.copy_step hat hstep hn (by rw [hp]; rfl)
      (by simp [State.charge, State.copyValue, hp, hn]) (by simp)
  | _ => exact h.plain_step hat hstep (by simp [State.charge, hp]) (fun _ => rfl) (by simp)

end Atomic

/-! ## Runs -/

theorem Accounted.call_step [DecidableEq K] (h : Accounted L s) {op : Op K (SharedPtr T V)}
    (hframe : s.frame t = .none) (hidle : s.engine.pc t = .idle)
    (hop : ∀ key value, op ≠ .kv (.set key value)) :
    Accounted L { s with engine := s.engine.setPc t op.start } := by
  have hstart : ∀ key value p, op.start ≠ .set key value p := by
    intro key value p
    cases op with
    | kv op =>
      cases op with
      | get key => simp [Op.start]
      | set key value => exact absurd rfl (hop key value)
    | _ => simp [Op.start]
  obtain ⟨c, hi⟩ := h.engine
  have hcall : s.engine.Step (t, .call op) (s.engine.setPc t op.start) :=
    ⟨.call t op, by simp [Engine.State.next, hidle]⟩
  refine h.engine_step (t := t) ⟨_, hi.step hcall⟩ (fun t' ht => by simp [Engine.State.setPc, ht])
    (fun _ => rfl) (by simp [hframe, Frame.building]) ?_ ?_ ?_
  · intro key ptrValue p hset
    simp only [Engine.State.setPc, Function.update_self] at hset
    exact absurd hset (hstart key ptrValue p)
  · intro a ha
    simp [Engine.State.setPc, op.start_mine] at ha
  · intro key value mine node ptrValue hset
    simp only [Engine.State.setPc, Function.update_self] at hset
    exact absurd hset (hstart key value _)

theorem Accounted.ret_step [DecidableEq K] (h : Accounted L s) {op : Op K (SharedPtr T V)}
    {res : Result K (SharedPtr T V)} (hframe : s.frame t = .none)
    (hpc : s.engine.pc t = .returned op res) :
    Accounted L { s with engine := s.engine.setPc t .idle } := by
  obtain ⟨c, hi⟩ := h.engine
  have hret : s.engine.Step (t, .ret op res) (s.engine.setPc t .idle) :=
    ⟨.ret t, by simp [Engine.State.next, hpc]⟩
  refine h.engine_step (t := t) ⟨_, hi.step hret⟩ (fun t' ht => by simp [Engine.State.setPc, ht])
    (fun _ => rfl) (by simp [hframe, Frame.building]) ?_ ?_ ?_
  all_goals simp [Engine.State.setPc, Pc.mine]

/-- **Every step keeps the books.** -/
theorem Accounted.step [DecidableEq K] (h : Accounted L s) {e : Event K T V}
    (hs : Moves L s e s') : Accounted L s' := by
  cases hs with
  | set hframe hidle => exact h.set_step hframe hidle
  | stage hframe => exact h.stage_step _ hframe
  | @failed t key value st todo held hframe =>
    have hok := h.frames t
    rw [FrameOk, hframe] at hok
    refine h.reframe_step (by rw [hframe]; rfl) (by simp [hframe]) (by simp)
      (by simp [hframe, Frame.building]) ?_
    simp only [FrameOk, State.setFrame, Function.update_self]
    exact ⟨hok.1, hok.2.1.temporaries⟩
  | construct hframe hidle hfree => exact h.construct_step _ hframe hidle hfree
  | @unwound t d held hframe =>
    have hok := h.frames t
    rw [FrameOk, hframe] at hok
    obtain ⟨hidle, hnodup, hvalue⟩ := hok
    refine h.destroy_step (by rw [hframe]; rfl) hnodup rfl (by simp)
      (by simp [hframe, Frame.building]) (by simp [hidle]) ?_
    simp only [FrameOk, Function.update_self]
    exact ⟨hidle, (List.nodup_cons.mp hnodup).2, fun hmem hptr =>
      hvalue (List.mem_cons_of_mem _ hmem) (List.mem_cons_of_mem _ hptr)⟩
  | threw hframe =>
    exact h.reframe_step (by rw [hframe]; rfl) (by simp [hframe]) (by simp)
      (by simp [Frame.building]) (by simp [FrameOk, State.setFrame])
  | @destroyed t d held hframe =>
    have hok := h.frames t
    rw [FrameOk, hframe] at hok
    obtain ⟨hnodup, hvalue, hraw⟩ := hok
    refine h.destroy_step (by rw [hframe]; rfl) hnodup rfl (by simp) (by simp [Frame.building])
      (fun key value mine node ptrValue hset => ?_) ?_
    · simp [h.storing t key value mine node ptrValue hset] at hframe
    · simp only [FrameOk, Function.update_self]
      exact ⟨(List.nodup_cons.mp hnodup).2, fun hmem => hvalue (List.mem_cons_of_mem _ hmem),
        fun hmem => hraw (List.mem_cons_of_mem _ hmem)⟩
  | left hframe =>
    exact h.reframe_step (by rw [hframe]; rfl) (by simp [hframe]) (by simp)
      (by simp [Frame.building]) (by simp [FrameOk, State.setFrame])
  | dropped hframe hkeeps => exact h.drop_step hframe hkeeps
  | call hframe hidle hop => exact h.call_step hframe hidle hop
  | advance hat hadv => exact h.advance_step hat hadv
  | ret hframe hpc => exact h.ret_step hframe hpc

omit [DecidableEq T] in
theorem accounted_init (L : Layout K V) (cfg : Config K T) :
    Accounted L (State.init cfg V) := by
  have hno : ∀ id o, ¬ (State.init cfg V).Points id o := by
    intro id o
    cases o <;> simp [State.Points, State.init, State.nodePtr, Engine.State.init, Memory.new,
      Frame.held]
  refine ⟨⟨?_, ?_, ?_, ?_, ?_, ?_, ?_, ?_, ?_⟩, ⟨_, Inv.init cfg _⟩, ?_, ?_⟩
  · simp [FrameOk, State.init]
  · simp [State.nodePtr, State.init, Engine.State.init, Memory.new]
  · simp [State.init]
  · simp [State.nodePtr, State.init, Engine.State.init, Memory.new]
  · simp [State.init]
  · simp [State.init, Heap.new, Book.new]
  · simp [State.init, Engine.State.init]
  · simp [State.init, Engine.State.init, Pc.mine]
  · simp [State.init, Engine.State.init]
  · exact fun id o => iff_of_false (by simp [State.init, Heap.new]) (hno id o)
  · refine Book.Accounts.congr Book.Accounts.new fun x => ?_
    obtain ⟨id, b⟩ := x
    cases b <;> simp [OwnedBy, State.Temp, State.init, Heap.new, Frame.held]

/-- The books are right in every reachable state. -/
theorem accounted_of_run [DecidableEq K] {es : List (Event K T V)}
    (hrun : Run (State.Step L) (State.init cfg V) es s) : Accounted L s :=
  hrun.invariant (fun _ m => Accounted L m) (accounted_init L cfg)
    fun _ _ _ _ h hs => h.step hs.moves

end LockFreeKV.Engine.Alloc
