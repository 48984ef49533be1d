import LockFreeKV.Engine.AccountingRun
import LockFreeKV.Engine.Linearizability
import LockFreeKV.Engine.Representation

/-!
# The exception guarantee of `set`

A call of `set` either ends by an exception, and then it has not touched the engine and
has given back every block, or it returns, and then it has updated the map and its
blocks are owned by a node. A string whose node has got another value since is released by
whoever holds the last shared pointer, which may be a `get` that is still running.
-/
namespace LockFreeKV.Engine.Alloc

open LockFreeKV.Lib

variable {K V T : Type} [DecidableEq K] [DecidableEq T] {cfg : Config K T} {L : Layout K V}
  {s s' : State cfg V} {t : T}

/-! ## What a step does to the other threads -/

omit [DecidableEq K] in
theorem State.charge_others (s : State cfg V) (t : T) (a : Act K (SharedPtr T V)) :
    (s.charge t a).calls = s.calls ∧ ∀ t', t' ≠ t → (s.charge t a).frame t' = s.frame t' := by
  unfold State.charge
  split
  · split <;> simp +contextual
  · split <;> simp +contextual
  · split <;> simp +contextual
  · unfold State.copyValue
    split <;> simp +contextual
  · unfold State.copyValue
    split <;> simp +contextual
  · simp

omit [DecidableEq K] in
theorem State.charge_frame (s : State cfg V) (t : T) (a : Act K (SharedPtr T V)) :
    (s.charge t a).frame t = s.frame t ∨ ∃ id, (s.charge t a).frame t = .holding id := by
  unfold State.charge
  split
  · split <;> simp
  · split <;> simp
  · split <;> simp
  · unfold State.copyValue
    split <;> simp
  · unfold State.copyValue
    split <;> simp
  · simp

theorem Moves.others {e : Event K T V} (hs : Moves L s e s') (ht : e.1 ≠ t) :
    s'.frame t = s.frame t ∧ s'.engine.pc t = s.engine.pc t ∧ s'.calls t = s.calls t := by
  have hother : ∀ {t' : T}, t' ≠ t → ∀ (A : Type) (f : T → A) (x : A),
      Function.update f t' x t = f t := fun ht' A f x => Function.update_of_ne (Ne.symm ht') ..
  cases hs with
  | construct => simp [hother ht, State.withNode]
  | call => simp [hother ht, Engine.State.setPc]
  | ret => simp [hother ht, Engine.State.setPc]
  | @advance t' a m' pc' hat hadv hstep =>
    obtain ⟨hcalls, hframes⟩ := s.charge_others t' a
    exact ⟨hframes t (Ne.symm ht), hother ht .., by rw [← hcalls]⟩
  | _ => simp [hother ht, State.setFrame]

/-! ## The atomic operations of a run -/

/-- What a step is in the model of the atomic operations. -/
def atomic : Event K T V → List (Engine.Event T K (SharedPtr T V))
  | (t, .construct node key ptrValue) =>
    [(t, .call (.kv (.set key ptrValue))), (t, .createNode node)]
  | (t, .engine a) => [(t, a)]
  | _ => []

theorem Moves.atomic {e : Event K T V} (hs : Moves L s e s') :
    Run Engine.State.Step s.engine (atomic e) s'.engine := by
  cases hs with
  | construct hframe hidle hfree => exact State.withNode_run hidle hfree
  | @call t op hframe hidle hop =>
    exact .single ⟨.call t op, by simp [Engine.State.next, hidle]⟩
  | advance hat hadv hstep => exact .single hstep
  | @ret t op res hframe hpc => exact .single ⟨.ret t, by simp [Engine.State.next, hpc]⟩
  | _ => exact .nil

/-- The atomic operations of the other threads. -/
def othersAtomic (t : T) (es : List (Event K T V)) : List (Engine.Event T K (SharedPtr T V)) :=
  (es.filter fun e => decide (e.1 ≠ t)).flatMap Alloc.atomic

omit [DecidableEq K] in
theorem othersAtomic_snoc (es : List (Event K T V)) (e : Event K T V) :
    othersAtomic t (es ++ [e]) =
      othersAtomic t es ++ if e.1 = t then [] else Alloc.atomic e := by
  by_cases ht : e.1 = t <;> simp [othersAtomic, List.filter_append, ht]

/-! ## A call from its beginning to its end -/

/-- A call of `set` ends. -/
def Label.ends : Label K T V → Bool
  | .threw => true
  | .engine (.ret _ _) => true
  | _ => false

/-- The step makes `ptrValue` the value of the key, and changes no other key. -/
def State.SetsTo (s s' : State cfg V) (key : K) (ptrValue : SharedPtr T V) : Prop :=
  ∀ k p, s'.engine.Holds k p ↔ if k = key then p = ptrValue else s.engine.Holds k p

/-- The call has no node: its thread has not touched the engine. -/
structure Building (s₀ : State cfg V) (t : T) (key : K) (value : V) (es : List (Event K T V))
    (s : State cfg V) : Prop where
  building : (s.frame t).building = true
  arguments : ∀ key' value' todo held, s.frame t = .creating key' value' todo held →
    key' = key ∧ value' = value
  engine : Run Engine.State.Step s₀.engine (othersAtomic t es) s.engine

/-- The call has its node, and has updated the map or is going to. -/
structure Storing (L : Layout K V) (s₁ : State cfg V) (t : T) (key : K) (ptrValue : SharedPtr T V)
    (es : List (Event K T V)) (s : State cfg V) : Prop where
  building : (s.frame t).building = false
  stored : (s.engine.pc t).status = .pending (.set key ptrValue) ∨
    (s.engine.pc t).status = .done (.set key ptrValue) .stored ∧
      Run.Performs (State.Step L) (fun m e m' => e.1 = t ∧ m.SetsTo m' key ptrValue) s₁ es s

/-- An own step of a call without a node. -/
theorem Building.own {s₀ : State cfg V} {key : K} {value : V} {es : List (Event K T V)}
    (h : Building s₀ t key value es s) {a : Label K T V} (hs : Moves L s (t, a) s')
    (hends : a.ends = false) :
    Building s₀ t key value (es ++ [(t, a)]) s' ∨
      (s'.frame t).building = false ∧
        (s'.engine.pc t).status = .pending (.set key ⟨s.current t, value⟩) := by
  have hb := h.building
  have hkeep : s'.engine = s.engine →
      Run Engine.State.Step s₀.engine (othersAtomic t (es ++ [(t, a)])) s'.engine := fun heq => by
    rw [othersAtomic_snoc, if_pos rfl, List.append_nil, heq]
    exact h.engine
  cases hs with
  | @stage _ key' value' st st' todo held hframe =>
    refine .inl ⟨by simp [Frame.building], fun k v todo' held' heq => ?_, hkeep rfl⟩
    simp only [Function.update_self, Frame.creating.injEq] at heq
    obtain ⟨rfl, rfl, -⟩ := heq
    exact h.arguments _ _ _ _ hframe
  | failed hframe =>
    exact .inl ⟨by simp [State.setFrame, Frame.building], by simp [State.setFrame], hkeep rfl⟩
  | unwound hframe => exact .inl ⟨by simp [Frame.building], by simp, hkeep rfl⟩
  | construct hframe hidle hfree =>
    obtain ⟨rfl, rfl⟩ := h.arguments _ _ _ _ hframe
    exact .inr ⟨by simp [Frame.building], by simp [State.withNode, Pc.status]⟩
  | threw hframe => cases hends
  | set hframe => simp [hframe, Frame.building] at hb
  | destroyed hframe => simp [hframe, Frame.building] at hb
  | left hframe => simp [hframe, Frame.building] at hb
  | dropped hframe => simp [hframe, Frame.building] at hb
  | call hframe => simp [hframe, Frame.building] at hb
  | ret hframe => simp [hframe, Frame.building] at hb
  | advance hat => simp [State.not_building hat] at hb

/-- An atomic operation of a pending `set`: it leaves the map alone, or it is the update. -/
theorem Accounted.set_effect (h : Accounted L s) {a : Act K (SharedPtr T V)}
    {m' : Memory cfg.toHashing (SharedPtr T V)} {pc' : Pc K (SharedPtr T V)}
    (hadv : Advance s.engine.mem (cfg.heapId t) (s.engine.pc t) a m' pc') {key : K}
    {ptrValue : SharedPtr T V} (hstatus : (s.engine.pc t).status = .pending (.set key ptrValue)) :
    pc'.status = .pending (.set key ptrValue) ∨
      pc'.status = .done (.set key ptrValue) .stored ∧
        ∀ s' : State cfg V, s'.engine = ⟨m', Function.update s.engine.pc t pc'⟩ →
          s.SetsTo s' key ptrValue := by
  obtain ⟨c, hi⟩ := h.engine
  obtain ⟨tab, hr⟩ := hi.table.represents
  rcases hi.status_atomic hr hadv with ⟨_, _, hsame⟩ | ⟨op, _, heffect, hpending, hdone⟩
  · exact .inl (hsame.trans hstatus)
  · obtain rfl : op = .set key ptrValue := by simpa using hpending.symm.trans hstatus
    refine .inr ⟨hdone, fun s' hs' k p => ?_⟩
    have hr' := hi.represents_atomic hr hadv
    rw [hs', (hi.atomic hadv).holds_iff (by simpa using hr'), heffect, hi.holds_iff hr]
    have hset : tab.effect (some (.set key ptrValue)) = tab.set key ptrValue := rfl
    rw [hset, Table.toMap_set]
    by_cases hk : k = key
    · simp [hk, eq_comm]
    · simp [hk]

/-- An own step of a call that has its node. -/
theorem Storing.own {s₁ : State cfg V} {key : K} {ptrValue : SharedPtr T V}
    {es : List (Event K T V)} (h : Storing L s₁ t key ptrValue es s) (hacc : Accounted L s)
    (hrun : Run (State.Step L) s₁ es s) {a : Label K T V} (hs : s.Step L (t, a) s')
    (hends : a.ends = false) : Storing L s₁ t key ptrValue (es ++ [(t, a)]) s' := by
  have hb := h.building
  have hbusy : s.engine.pc t ≠ .idle := fun hidle => by
    rcases h.stored with hst | ⟨hst, _⟩ <;> simp [hidle, Pc.status] at hst
  have hkeep : s'.engine = s.engine → (s'.frame t).building = false →
      Storing L s₁ t key ptrValue (es ++ [(t, a)]) s' := fun heq hb' => by
    refine ⟨hb', ?_⟩
    rw [heq]
    exact h.stored.imp_right fun hdone => ⟨hdone.1, hdone.2.snoc hs⟩
  cases hs.moves with
  | set hframe hidle => exact absurd hidle hbusy
  | stage hframe => simp [hframe, Frame.building] at hb
  | failed hframe => simp [hframe, Frame.building] at hb
  | construct hframe => simp [hframe, Frame.building] at hb
  | unwound hframe => simp [hframe, Frame.building] at hb
  | threw => cases hends
  | destroyed => exact hkeep rfl (by simp [Frame.building])
  | left => exact hkeep rfl (by simp [State.setFrame, Frame.building])
  | dropped => exact hkeep rfl (by simp [Frame.building])
  | call hframe hidle => exact absurd hidle hbusy
  | ret => cases hends
  | @advance t a m' pc' hat hadv hstep =>
    have hb' : ((s.charge t a).frame t).building = false := by
      rcases s.charge_frame t a with heq | ⟨id, heq⟩
      · rw [heq, hb]
      · rw [heq]; rfl
    refine ⟨hb', ?_⟩
    simp only [Function.update_self]
    rcases h.stored with hpending | ⟨hdone, hperf⟩
    · rcases hacc.set_effect hadv hpending with hst | ⟨hst, hupdate⟩
      · exact .inl hst
      · exact .inr ⟨hst, .last hrun hs ⟨rfl, hupdate _ rfl⟩⟩
    · obtain ⟨c, hi⟩ := hacc.engine
      obtain ⟨tab, hr⟩ := hi.table.represents
      rcases hi.status_atomic hr hadv with ⟨_, _, hsame⟩ | ⟨op, _, _, hpending, _⟩
      · exact .inr ⟨hsame.trans hdone, hperf.snoc hs⟩
      · rw [hdone] at hpending
        cases hpending

/-- Only the beginning of a call of `set` counts. -/
theorem Moves.calls {a : Label K T V} (hs : Moves L s (t, a) s') (hbusy : s.frame t ≠ .none ∨
    s.engine.pc t ≠ .idle) : s'.calls = s.calls := by
  cases hs with
  | set hframe hidle =>
    rcases hbusy with hf | hp
    · exact absurd hframe hf
    · exact absurd hidle hp
  | advance => exact (s.charge_others t _).1
  | _ => rfl

/-- Where a call of `set` stands, until it ends. -/
theorem call_run {s₀ s₁ : State cfg V} (hacc : Accounted L s₀) {key : K} {value : V}
    (hcall : s₀.Step L (t, .set key value) s₁) {es : List (Event K T V)}
    (hrun : Run (State.Step L) s₁ es s) (hopen : ∀ e ∈ es, e.1 = t → e.2.ends = false) :
    Accounted L s ∧ s.current t = s₁.current t ∧
      (Building s₀ t key value es s ∨ Storing L s₁ t key ⟨s₁.current t, value⟩ es s) := by
  induction hrun with
  | nil =>
    refine ⟨hacc.step hcall.moves, rfl, .inl ?_⟩
    cases hcall.moves with
    | set hframe hidle =>
      refine ⟨by simp [Frame.building], fun key' value' todo held heq => ?_, .nil⟩
      simp only [Function.update_self, Frame.creating.injEq] at heq
      exact ⟨heq.1.symm, heq.2.1.symm⟩
  | @snoc m s' es e hpre hs ih =>
    obtain ⟨hm, hcur, hphase⟩ := ih fun e' he' => hopen e' (List.mem_append_left _ he')
    refine ⟨hm.step hs.moves, ?_⟩
    by_cases ht : e.1 = t
    · obtain ⟨u, a⟩ := e
      obtain rfl : u = t := ht
      have hends : a.ends = false := hopen (u, a) (by simp) rfl
      rcases hphase with hbuilding | hstoring
      · have hbusy : m.frame u ≠ .none := fun hf => by
          simpa [hf, Frame.building] using hbuilding.building
        have hcalls := hs.moves.calls (.inl hbusy)
        refine ⟨by rw [State.current, hcalls]; exact hcur, ?_⟩
        rcases hbuilding.own hs.moves hends with hnext | ⟨hb, hst⟩
        · exact .inl hnext
        · exact .inr ⟨hb, .inl (by rw [hst, hcur])⟩
      · have hbusy : m.engine.pc u ≠ .idle := fun hidle => by
          rcases hstoring.stored with hst | ⟨hst, _⟩ <;> simp [hidle, Pc.status] at hst
        have hcalls := hs.moves.calls (.inr hbusy)
        exact ⟨by rw [State.current, hcalls]; exact hcur,
          .inr (hstoring.own hm hpre hs hends)⟩
    · obtain ⟨hframe, hpc, hcalls⟩ := hs.moves.others ht
      refine ⟨by rw [State.current, hcalls]; exact hcur, hphase.imp (fun h => ?_) fun h => ?_⟩
      · refine ⟨by rw [hframe, h.building], by rw [hframe]; exact h.arguments, ?_⟩
        rw [othersAtomic_snoc, if_neg ht]
        exact h.engine.append hs.moves.atomic
      · refine ⟨by rw [hframe, h.building], ?_⟩
        rw [hpc]
        exact h.stored.imp_right fun hdone => ⟨hdone.1, hdone.2.snoc hs⟩

/-! ## The blocks of a call -/

/-- A linked node owns the block. -/
def State.InNode (s : State cfg V) (id : CallId T) : Block → Prop
  | .keyString => False
  | .valueString => ∃ b a, s.engine.LinkedIn b a ∧ s.nodePtr a = some id
  | .sharedValue => ∃ b a, s.engine.LinkedIn b a ∧ s.nodePtr a = some id
  | .node => ∃ b a, s.engine.LinkedIn b a ∧ s.creator a = some id
  | .nodeKey => ∃ b a, s.engine.LinkedIn b a ∧ s.creator a = some id

/-- The block is the shared string or its characters, and a running call has a local shared
pointer to it. -/
def State.HeldLocally (s : State cfg V) (id : CallId T) (b : Block) : Prop :=
  (b = .valueString ∨ b = .sharedValue) ∧ ∃ t, s.frame t = .holding id

omit [DecidableEq K] [DecidableEq T] in
/-- The node that a call holds is the one it made, with its value. -/
theorem Accounted.mine_ptr (h : Accounted L s) {a : Addr} (hmine : (s.engine.pc t).mine = some a) :
    s.creator a = some (s.current t) ∧ s.nodePtr a = some (s.current t) := by
  obtain ⟨c, hi⟩ := h.engine
  have hok := hi.pcs t
  have hptr : ∀ key ptrValue p, s.engine.pc t = .set key ptrValue p →
      Owned s.engine.mem c (cfg.heapId t) key ptrValue a → s.nodePtr a = some (s.current t) := by
    intro key ptrValue p hp ho
    rw [State.nodePtr, ho.node, Option.map_some, (h.pcs t key ptrValue p hp).1]
  refine ⟨h.mine t a hmine, ?_⟩
  cases hp : s.engine.pc t with
  | set key ptrValue p =>
    rw [hp] at hok hmine
    cases p with
    | createNode => cases hmine
    | casHead mine => cases hmine; exact hptr _ _ _ hp hok
    | visit mine node => cases hmine; exact hptr _ _ _ hp hok.1
    | storeValue mine node ptr => cases hmine; exact hptr _ _ _ hp hok.1
    | destroy mine => cases hmine; exact hptr _ _ _ hp hok
  | _ => simp [hp, Pc.mine] at hmine

omit [DecidableEq K] [DecidableEq T] in
/-- Nodes that no running call holds are linked. -/
theorem Accounted.linked (h : Accounted L s) {a : Addr} (hnode : s.nodePtr a ≠ none)
    (hfree : ∀ t, (s.engine.pc t).mine ≠ some a) : ∃ b, s.engine.LinkedIn b a := by
  obtain ⟨c, hi⟩ := h.engine
  obtain ⟨nd, hn⟩ : ∃ nd, s.engine.mem.nodes a = some nd := by
    rw [← Option.isSome_iff_exists, Option.isSome_iff_ne_none]
    exact fun hnone => hnode (by rw [State.nodePtr, hnone]; rfl)
  obtain ⟨b, hb⟩ := (hi.held a nd hn).resolve_right fun hmine => hmine.elim hfree
  exact ⟨b, hi.linkedIn_iff.mpr hb⟩

omit [DecidableEq K] [DecidableEq T] in
/-- The owners of the blocks of a call that is over. -/
theorem Accounted.owned_cases (h : Accounted L s) {id : CallId T}
    (hframe : s.frame id.thread = .none) (hmine : (s.engine.pc id.thread).mine = none) {b : Block}
    (hown : OwnedBy s.heap.owners s.Temp s.creator (id, b)) :
    s.InNode id b ∨ s.HeldLocally id b := by
  have htemp : ∀ d, ¬ s.Temp id d := fun d hd => by
    simp [State.Temp, hframe, Frame.held] at hd
  have hfree : ∀ a, s.creator a = some id ∨ s.nodePtr a = some id →
      ∀ t, (s.engine.pc t).mine ≠ some a := by
    intro a ha t ht
    obtain ⟨hcreator, hptr⟩ := h.mine_ptr ht
    have hid : id = s.current t := by
      rcases ha with ha | ha
      · exact Option.some.inj (ha.symm.trans hcreator)
      · exact Option.some.inj (ha.symm.trans hptr)
    subst hid
    rw [State.current, ht] at hmine
    cases hmine
  have hmade : (∃ a, s.creator a = some id) →
      ∃ b a, s.engine.LinkedIn b a ∧ s.creator a = some id := by
    rintro ⟨a, ha⟩
    obtain ⟨b, hb⟩ := h.linked (h.creators a id ha).2 (hfree a (.inl ha))
    exact ⟨b, a, hb, ha⟩
  have hshared : s.heap.owners id ≠ ∅ →
      (∃ b a, s.engine.LinkedIn b a ∧ s.nodePtr a = some id) ∨ ∃ t, s.frame t = .holding id := by
    intro hne
    obtain ⟨o, ho⟩ := Finset.nonempty_iff_ne_empty.mpr hne
    have hpoints := (h.points id o).mp ho
    cases o with
    | node a =>
      have ha : s.nodePtr a = some id := hpoints
      obtain ⟨b, hb⟩ := h.linked (by simp [ha]) (hfree a (.inr ha))
      exact .inl ⟨b, a, hb, ha⟩
    | frame t =>
      refine .inr ⟨t, hpoints.resolve_right ?_⟩
      rintro ⟨hmem, hid⟩
      rw [hid, State.current] at hframe
      simp [hframe, Frame.held] at hmem
  cases b with
  | keyString => exact absurd hown (htemp _)
  | valueString =>
    have hne : s.heap.owners id ≠ ∅ := Or.resolve_left hown (htemp _)
    exact (hshared hne).imp_right fun hheld => ⟨.inl rfl, hheld⟩
  | sharedValue => exact (hshared hown).imp_right fun hheld => ⟨.inr rfl, hheld⟩
  | node => exact .inl (hmade (Or.resolve_left hown (htemp _)))
  | nodeKey => exact .inl (hmade hown)

omit [DecidableEq K] [DecidableEq T] in
/-- Nobody owns a block of a call that ends by an exception. -/
theorem Accounted.not_owned (h : Accounted L s) (hframe : s.frame t = .unwinding []) (b : Block) :
    ¬ OwnedBy s.heap.owners s.Temp s.creator (s.current t, b) := by
  have hbuilding : (s.frame t).building = true := by rw [hframe]; rfl
  have htemp : ∀ d, ¬ s.Temp (s.current t) d := fun d hd => by
    simp [State.Temp, State.current, hframe, Frame.held] at hd
  have hshared : s.heap.owners (s.current t) = ∅ := by
    rw [Finset.eq_empty_iff_forall_notMem]
    intro o ho
    simpa [hframe, Frame.held] using (h.owner_building hbuilding ho).2
  have hmade : ¬ ∃ a, s.creator a = some (s.current t) :=
    not_exists.mpr fun a ha => State.not_begun hbuilding (h.creators a _ ha).1
  cases b with
  | keyString => exact htemp _
  | valueString => exact fun hown => hown.elim (htemp _) fun hne => hne hshared
  | sharedValue => exact fun hne => hne hshared
  | node => exact fun hown => hown.elim (htemp _) hmade
  | nodeKey => exact hmade

/-! ## The guarantee -/

/-- What a call that ends by an exception leaves: the engine as the steps of the others alone
make it, and its blocks released. -/
structure LeavesNothing (s₀ s₃ : State cfg V) (t : T) (id : CallId T) (es : List (Event K T V)) :
    Prop where
  engine : Run Engine.State.Step s₀.engine (othersAtomic t es) s₃.engine
  blocks : ∀ b, s₃.heap.book (id, b) = none ∨ s₃.heap.book (id, b) = some 1

/-- What a call that returns has done: it has updated the map, and each of its blocks was
released once or is owned. -/
structure Completes (L : Layout K V) (s₁ s₂ s₃ : State cfg V) (t : T) (id : CallId T) (key : K)
    (value : V) (es : List (Event K T V)) : Prop where
  updated : Run.Performs (State.Step L)
    (fun m e m' => e.1 = t ∧ m.SetsTo m' key ⟨id, value⟩) s₁ es s₂
  blocks : ∀ b, s₃.heap.book (id, b) = none ∨ s₃.heap.book (id, b) = some 1 ∨
    s₃.heap.book (id, b) = some 0 ∧ (s₃.InNode id b ∨ s₃.HeldLocally id b)

/-- No block was released twice, and once no call is running each was released or is owned by a
linked node. -/
structure Settles (s : State cfg V) : Prop where
  once : ∀ x, s.heap.book x = none ∨ s.heap.book x = some 0 ∨ s.heap.book x = some 1
  idle : (∀ t, s.frame t = .none ∧ s.engine.pc t = .idle) → ∀ id b, s.heap.book (id, b) = none ∨
    s.heap.book (id, b) = some 1 ∨ s.heap.book (id, b) = some 0 ∧ s.InNode id b

omit [DecidableEq K] [DecidableEq T] in
/-- The blocks of a call that is over. -/
theorem Accounted.blocks (h : Accounted L s) {id : CallId T} (hframe : s.frame id.thread = .none)
    (hmine : (s.engine.pc id.thread).mine = none) (b : Block) :
    s.heap.book (id, b) = none ∨ s.heap.book (id, b) = some 1 ∨
      s.heap.book (id, b) = some 0 ∧ (s.InNode id b ∨ s.HeldLocally id b) := by
  by_cases hown : OwnedBy s.heap.owners s.Temp s.creator (id, b)
  · exact (h.book.owned _ hown).imp_right fun hlive =>
      .inr ⟨hlive, h.owned_cases hframe hmine hown⟩
  · exact (h.book.released _ hown).imp_right .inl

omit [DecidableEq K] [DecidableEq T] in
theorem Accounted.settles (h : Accounted L s) : Settles s where
  once x := by
    by_cases hown : OwnedBy s.heap.owners s.Temp s.creator x
    · exact (h.book.owned x hown).imp_right .inl
    · exact (h.book.released x hown).imp_right .inr
  idle hidle id b := by
    have hmine : (s.engine.pc id.thread).mine = none := by rw [(hidle id.thread).2]; rfl
    refine (h.blocks (hidle id.thread).1 hmine b).imp_right
      (.imp_right (.imp_right fun howner => ?_))
    refine howner.resolve_right fun ⟨_, t, ht⟩ => ?_
    rw [(hidle t).1] at ht
    cases ht

/-- **The exception guarantee of `set`**, for every call in every run. If the call ends by an
exception, the engine is in the state to which the steps of the other threads alone lead, and
each block the call had allocated has been released once. If it returns, it has set its key in
the map, and each of its blocks has been released once, or is owned by a linked node, or is the
shared string that a running call has a local shared pointer to. No block is ever released
twice, and when no call is running the linked nodes are the only owners. -/
theorem set_guarantee {es₀ es : List (Event K T V)} {s₀ s₁ s₂ : State cfg V} {key : K} {value : V}
    (hreach : Run (State.Step L) (State.init cfg V) es₀ s₀)
    (hcall : s₀.Step L (t, .set key value) s₁) (hrun : Run (State.Step L) s₁ es s₂)
    (hopen : ∀ e ∈ es, e.1 = t → e.2.ends = false) :
    (∀ s₃, s₂.Step L (t, .threw) s₃ → LeavesNothing s₀ s₃ t (s₁.current t) es) ∧
    (∀ op res s₃, s₂.Step L (t, .engine (.ret op res)) s₃ →
      Completes L s₁ s₂ s₃ t (s₁.current t) key value es) ∧
    ∀ es' s', Run (State.Step L) s₂ es' s' → Settles s' := by
  obtain ⟨hacc, hcur, hphase⟩ := call_run (accounted_of_run hreach) hcall hrun hopen
  refine ⟨fun s₃ hthrew => ?_, fun op res s₃ hret => ?_, fun es' s' hrun' => ?_⟩
  · cases hthrew.moves with
    | threw hframe =>
      have hbuilding := hphase.resolve_right fun hstoring => by
        simpa [hframe, Frame.building] using hstoring.building
      refine ⟨hbuilding.engine, fun b => ?_⟩
      rw [← hcur]
      exact hacc.book.released _ (hacc.not_owned hframe b)
  · have hacc' := hacc.step hret.moves
    cases hret.moves with
    | ret hframe hpc =>
      have hstoring := hphase.resolve_left fun hbuilding => by
        simpa [hframe, Frame.building] using hbuilding.building
      refine ⟨?_, hacc'.blocks hframe (by simp [State.current, Engine.State.setPc, Pc.mine])⟩
      rcases hstoring.stored with hst | ⟨_, hperf⟩
      · rw [hpc] at hst
        cases op with
        | kv op => cases res <;> cases hst
        | _ => cases hst
      · exact hperf
    | advance hat hadv =>
      generalize s₂.engine.pc t = pc at hadv
      cases hadv
  · exact (hrun'.invariant (fun _ m => Accounted L m) hacc
      fun _ _ _ _ h hs => h.step hs.moves).settles

/-- Every string is too long for the string object. -/
def longStrings : Layout Nat Nat := ⟨fun _ => true, fun _ => true, true⟩

/-- `create_node` from its first stage to the end of its statement. -/
def createNode (t : Nat) (fresh : Addr) : List (Choice Nat Nat Nat) :=
  List.replicate 6 (.stage t true fresh) ++ List.replicate 3 (.cleanUp t)

/-- The copy of the key throws, while another thread sets the same key. -/
def throwingSchedule : List (Choice Nat Nat Nat) :=
  List.flatten [List.replicate 5 (.stage 0 true 0), [.set 1 5 8], createNode 1 100,
    [.stage 0 false 0, .cleanUp 0, .advance 1, .cleanUp 0, .cleanUp 0, .ret 1]]

theorem set_guarantee_throws : ∃ s₁ es s₂ s₃,
    (State.init oneBucket Nat).Step longStrings (0, .set 5 7) s₁ ∧
    s₁.exec longStrings throwingSchedule = some (es, s₂) ∧
    s₂.Step longStrings (0, .threw) s₃ ∧
    LeavesNothing (State.init oneBucket Nat) s₃ 0 ⟨0, 1⟩ es ∧
    s₃.heap.book (⟨0, 1⟩, .sharedValue) = some 1 := by
  have hleaves : ∀ {s₁ s₂ s₃ : State oneBucket Nat} {es : List (Event Nat Nat Nat)},
      (State.init oneBucket Nat).Step longStrings (0, .set 5 7) s₁ →
      s₁.exec longStrings throwingSchedule = some (es, s₂) →
      (∀ e ∈ es, e.1 = 0 → e.2.ends = false) → s₂.Step longStrings (0, .threw) s₃ →
      LeavesNothing (State.init oneBucket Nat) s₃ 0 (s₁.current 0) es :=
    fun hcall hexec hopen hthrew =>
      (set_guarantee .nil hcall (State.run_of_exec hexec) hopen).1 _ hthrew
  refine ⟨_, _, _, _, ⟨.set 0 5 7, rfl⟩, rfl, ⟨.cleanUp 0, rfl⟩, ?_, rfl⟩
  refine hleaves ⟨.set 0 5 7, rfl⟩ rfl ?_ ⟨.cleanUp 0, rfl⟩
  simp [Label.ends]

/-- A `set` is overtaken: a `get` has copied its shared pointer, and another `set` has
replaced it in the node. -/
def overtakenSchedule : List (Choice Nat Nat Nat) :=
  List.flatten [[.set 0 5 7], createNode 0 100,
    [.advance 0, .call 1 (.kv (.get 5)), .advance 1, .advance 1, .advance 1, .set 2 5 8],
    createNode 2 101,
    [.advance 2, .advance 2, .advance 2, .cleanUp 2, .advance 2, .ret 2, .ret 0]]

theorem set_leaves_unowned : ∃ es s,
    (State.init oneBucket Nat).exec longStrings overtakenSchedule = some (es, s) ∧
    es.getLast? = some (0, .engine (.ret (.kv (.set 5 ⟨⟨0, 1⟩, 7⟩)) (.kv .stored))) ∧
    s.heap.book (⟨0, 1⟩, .sharedValue) = some 0 ∧ ¬ s.InNode ⟨0, 1⟩ .sharedValue := by
  have hnot : ∀ {s : State oneBucket Nat} {es : List (Event Nat Nat Nat)},
      (State.init oneBucket Nat).exec longStrings overtakenSchedule = some (es, s) →
      s.heap.owners ⟨0, 1⟩ = {.frame 1} → ¬ s.InNode ⟨0, 1⟩ .sharedValue := by
    rintro s es hexec howners ⟨b, a, -, ha⟩
    have howner := ((accounted_of_run (State.run_of_exec hexec)).points ⟨0, 1⟩ (.node a)).mpr ha
    simp [howners] at howner
  refine ⟨_, _, rfl, rfl, rfl, hnot rfl ?_⟩
  decide

end LockFreeKV.Engine.Alloc
