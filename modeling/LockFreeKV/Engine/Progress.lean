import LockFreeKV.Engine.Statistics
import LockFreeKV.Engine.Ownership
import Mathlib.Data.Finset.Card

/-!
# Every call returns

A chain holds each key once, so it is no longer than the number of keys of its
bucket that are ever set. An iteration of the loops of `get` and `set` moves the
cursor one node along the chain, and nobody else moves it: the room in front of it
shrinks with each iteration. `Left` bounds the steps that a call has left by that
room, and no step of another thread adds one.
-/
namespace LockFreeKV.Engine

open LockFreeKV.Lib

variable {K V T : Type} [DecidableEq K] {h : Hashing K}

/-- The keys of `S` that fall in the bucket. -/
def bucketKeys (h : Hashing K) (S : Finset K) (b : Fin h.bucketCount) : Finset K :=
  S.filter fun key => h.bucketIdx key = b

/-- The calls among the events set keys of `S` only. -/
def SetsWithin (S : Finset K) (es : List (Event T K V)) : Prop :=
  ∀ t key value, (t, Act.call (.kv (.set key value))) ∈ es → key ∈ S

/-- The head of the loop of `get` or `set`: the key that is looked for and the cursor. -/
def Pc.loop : Pc K V → Option (K × Addr)
  | .get key (.visit node) => some (key, node)
  | .set key _ (.visit _ node) => some (key, node)
  | _ => none

/-- The thread is in its loop for `key`, with the cursor at position `i` of the bucket's chain. -/
def State.InLoop {cfg : Config K T} (s : State cfg V) (t : T) (key : K) (i : Nat) : Prop :=
  ∃ node, (s.pc t).loop = some (key, node) ∧ s.StandsAt (cfg.bucketIdx key) i node

/-- The number of keys in the bucket of `key`, less a position on its chain. -/
def room (h : Hashing K) (S : Finset K) (key : K) (i : Nat) : Nat :=
  (bucketKeys h S (h.bucketIdx key)).card - i

/-- The steps that a call makes at most, its return included. -/
def callBound (h : Hashing K) (S : Finset K) : Op K V → Nat
  | .kv (.get key) => room h S key 0 + 3
  | .kv (.set key _) => room h S key 0 + 5
  | .enumerate => h.bucketCount * (2 * S.card + 1) + 2
  | .readStatistics => 3

/-- The keys of the nodes, and those that running calls set, are in `S`. -/
structure KeysIn {cfg : Config K T} (S : Finset K) (s : State cfg V) : Prop where
  nodes : ∀ a node, s.mem.nodes a = some node → node.key ∈ S
  sets : ∀ t key value p, s.pc t = .set key value p → key ∈ S

section Chains

variable [DecidableEq T] {cfg : Config K T} {s s' : State cfg V} {c : Chains cfg.toHashing}
  {S : Finset K} {t : T}

omit [DecidableEq K] [DecidableEq T] in
theorem Inv.standsAt_iff (hi : Inv s c) {b : Fin cfg.bucketCount} {i : Nat} {a : Addr} :
    s.StandsAt b i a ↔ (c b)[i]? = some a := by
  constructor
  · intro hstands
    obtain ⟨l, hl, hget⟩ := hstands
    rwa [hl.unique (hi.table.linked b)] at hget
  · exact fun hget => ⟨c b, hi.table.linked b, hget⟩

omit [DecidableEq T] in
/-- **A chain is no longer than its bucket has keys.** -/
theorem Inv.length_le (hi : Inv s c) (hk : KeysIn S s) (b : Fin cfg.bucketCount) :
    (c b).length ≤ (bucketKeys cfg.toHashing S b).card := by
  have hnodup : ((c b).map s.mem.keyOf).Nodup :=
    (hi.table.linked b).nodup.map_on fun a ha a' ha' heq => hi.table.unique b a ha a' ha' heq
  have hsub : ((c b).map s.mem.keyOf).toFinset ⊆ (bucketKeys cfg.toHashing S b).image some := by
    intro k hk'
    obtain ⟨a, ha, rfl⟩ := List.mem_map.mp (List.mem_toFinset.mp hk')
    obtain ⟨node, hn⟩ := hi.table.node_of_mem ha
    have hkeyOf := Memory.keyOf_eq hn
    exact Finset.mem_image.mpr ⟨node.key, Finset.mem_filter.mpr ⟨hk.nodes a node hn,
      hi.table.home b a ha _ hkeyOf⟩, hkeyOf.symm⟩
  calc (c b).length = ((c b).map s.mem.keyOf).toFinset.card := by
        rw [List.toFinset_card_of_nodup hnodup, List.length_map]
    _ ≤ ((bucketKeys cfg.toHashing S b).image some).card := Finset.card_le_card hsub
    _ ≤ (bucketKeys cfg.toHashing S b).card := Finset.card_image_le

omit [DecidableEq T] in
theorem Inv.position_lt (hi : Inv s c) (hk : KeysIn S s) {b : Fin cfg.bucketCount} {i : Nat}
    {a : Addr} (hget : (c b)[i]? = some a) : i < (bucketKeys cfg.toHashing S b).card := by
  obtain ⟨hlt, _⟩ := List.getElem?_eq_some_iff.mp hget
  exact Nat.lt_of_lt_of_le hlt (hi.length_le hk b)

omit [DecidableEq K] in
/-- The nodes keep their keys, and a new one has the key of the call that creates it. -/
theorem KeysIn.atomic (hk : KeysIn S s) {a : Act K V} {m' : Memory cfg.toHashing V} {pc' : Pc K V}
    (hs : Advance s.mem (cfg.heapId t) (s.pc t) a m' pc') :
    KeysIn (V := V) S ⟨m', Function.update s.pc t pc'⟩ := by
  have hkey : ∀ key value p, s.pc t = .set key value p → key ∈ S := hk.sets t
  have hput : ∀ {a : Addr} {nd nd' : ListNode K V}, s.mem.nodes a = some nd → nd'.key = nd.key →
      ∀ x node, (s.mem.putNode a nd').nodes x = some node → node.key ∈ S := by
    intro a nd nd' hn hsame x node hx
    by_cases hxa : x = a
    · subst hxa
      have hnode : nd' = node := by simpa [Memory.putNode] using hx
      rw [← hnode, hsame]
      exact hk.nodes _ _ hn
    · exact hk.nodes x node (by simpa [Memory.putNode, hxa] using hx)
  generalize hp : s.pc t = pc at hs hkey
  have hothers : (∀ key value p, pc' = .set key value p → key ∈ S) →
      ∀ t' key value p, Function.update s.pc t pc' t' = .set key value p → key ∈ S := by
    intro hown t' key value p hpc
    by_cases ht : t' = t
    · subst ht
      exact hown key value p (by simpa using hpc)
    · exact hk.sets t' key value p (by simpa [ht] using hpc)
  refine ⟨?_, hothers ?_⟩
  · cases hs with
    | @createNode key value a hfree =>
      intro x node hx
      by_cases hxa : x = a
      · subst hxa
        have hnode : node = ⟨key, value, none, cfg.heapId t⟩ := by
          simpa [Memory.allocate, eq_comm] using hx
        rw [hnode]
        exact hkey key value _ rfl
      · exact hk.nodes x node (by simpa [Memory.allocate, hxa] using hx)
    | nextWon hn => exact hput hn rfl
    | storeValue hn => exact hput hn rfl
    | @destroy key value mine own ho hb =>
      intro x node hx
      by_cases hxa : x = mine
      · subst hxa
        simp [Memory.release] at hx
      · exact hk.nodes x node (by simpa [Memory.release, hxa] using hx)
    | _ => exact hk.nodes
  · intro key value p hpc
    cases hs <;> cases hpc <;> exact hkey _ _ _ rfl

theorem KeysIn.step (hk : KeysIn S s) {e : Event T K V} (hs : s.Step e s')
    (hS : SetsWithin S [e]) : KeysIn S s' := by
  obtain ⟨t, op, hpc, rfl, rfl⟩ | ⟨t, op, res, hpc, rfl, rfl⟩ | ⟨t, a, m', pc', hadv, rfl, rfl⟩ :=
    State.step_cases hs
  · refine ⟨hk.nodes, fun t' key value p hpc' => ?_⟩
    by_cases ht : t' = t
    · subst ht
      have hstart : op.start = .set key value p := by simpa [State.setPc] using hpc'
      cases op with
      | kv op =>
        cases op with
        | get key' => cases hstart
        | set key' value' =>
          cases hstart
          exact hS t' key value (by simp)
      | _ => cases hstart
    · exact hk.sets t' key value p (by simpa [State.setPc, ht] using hpc')
  · refine ⟨hk.nodes, fun t' key value p hpc' => ?_⟩
    by_cases ht : t' = t
    · subst ht
      simp [State.setPc] at hpc'
    · exact hk.sets t' key value p (by simpa [State.setPc, ht] using hpc')
  · exact hk.atomic hadv

/-! ## The loops -/

omit [DecidableEq K] [DecidableEq T] in
/-- The next pointer of a node leads one position further. -/
theorem Inv.next_position (hi : Inv s c) {b : Fin cfg.bucketCount} {i : Nat} {node nextNode : Addr}
    {nd : ListNode K V} (hget : (c b)[i]? = some node) (hn : s.mem.nodes node = some nd)
    (hp : nd.next = some nextNode) : (c b)[i + 1]? = some nextNode := by
  obtain ⟨hlt, heq⟩ := List.getElem?_eq_some_iff.mp hget
  have hsplit : c b = (c b).take i ++ node :: (c b).drop (i + 1) := by
    rw [← heq, List.getElem_cons_drop, List.take_append_drop]
  have hl := hi.table.linked b
  rw [hsplit] at hl
  obtain ⟨rest, hrest⟩ := hl.cons_of_next_some (by rw [Memory.nextOf_eq hn, hp])
  rw [hsplit, hrest, List.getElem?_append_right (by simp)]
  simp [Nat.min_eq_left (Nat.le_of_lt hlt)]

omit [DecidableEq K] [DecidableEq T] in
theorem Inv.head_position (hi : Inv s c) {b : Fin cfg.bucketCount} {node : Addr}
    (hp : s.mem.buckets b = some node) : (c b)[0]? = some node := by
  have hl := hi.table.linked b
  rw [hp] at hl
  cases hc : c b with
  | nil => simp [hc] at hl
  | cons a l =>
    rw [hc] at hl
    rw [List.getElem?_cons_zero, Option.some.inj hl.1]

omit [DecidableEq K] [DecidableEq T] in
theorem prefix_getElem? {l l' : List Addr} (h : l <+: l') {i : Nat} {a : Addr}
    (hget : l[i]? = some a) : l'[i]? = some a := by
  obtain ⟨ext, rfl⟩ := h
  rwa [List.getElem?_append_left (List.getElem?_eq_some_iff.mp hget).1]

/-- A node stays at its position. -/
theorem Inv.standsAt_step (hi : Inv s c) {e : Event T K V} (hs : s.Step e s')
    {b : Fin cfg.bucketCount} {i : Nat} {a : Addr} (hat : s.StandsAt b i a) :
    s'.StandsAt b i a :=
  (hi.step hs).standsAt_iff.mpr
    (prefix_getElem? (Chains.after_grows ..) (hi.standsAt_iff.mp hat))

theorem Inv.pc_step_other {e : Event T K V} (hs : s.Step e s') {t' : T} (ht : e.1 ≠ t') :
    s'.pc t' = s.pc t' := by
  obtain ⟨t, op, hpc, rfl, rfl⟩ | ⟨t, op, res, hpc, rfl, rfl⟩ | ⟨t, a, m', pc', hadv, rfl, rfl⟩ :=
    State.step_cases hs
  · exact Function.update_of_ne (Ne.symm ht) ..
  · exact Function.update_of_ne (Ne.symm ht) ..
  · exact Function.update_of_ne (Ne.symm ht) ..

/-- The step of a thread inside a call. -/
theorem State.step_running {a : Act K V} (hs : s.Step (t, a) s')
    (hrunning : (s.pc t).finished = false) :
    ∃ m' pc', Advance s.mem (cfg.heapId t) (s.pc t) a m' pc' ∧
      s' = ⟨m', Function.update s.pc t pc'⟩ := by
  obtain ⟨u, op, hpc, heq, rfl⟩ | ⟨u, op, res, hpc, heq, rfl⟩ | ⟨u, b, m', pc', hadv, heq, rfl⟩ :=
    State.step_cases hs
  · obtain ⟨rfl, rfl⟩ : t = u ∧ a = .call op := by simpa using heq
    simp [hpc, Pc.finished] at hrunning
  · obtain ⟨rfl, rfl⟩ : t = u ∧ a = .ret op res := by simpa using heq
    simp [hpc, Pc.finished] at hrunning
  · obtain ⟨rfl, rfl⟩ : t = u ∧ a = b := by simpa using heq
    exact ⟨m', pc', hadv, rfl⟩

omit [DecidableEq K] [DecidableEq T] in
theorem Pc.running_of_loop {pc : Pc K V} {p : K × Addr} (hloop : pc.loop = some p) :
    pc.finished = false := by
  cases pc <;> first | rfl | cases hloop

omit [DecidableEq K] [DecidableEq T] in
theorem Inv.loop_mem (hi : Inv s c) {key : K} {node : Addr}
    (hloop : (s.pc t).loop = some (key, node)) : node ∈ c (cfg.bucketIdx key) := by
  have hpc := hi.pcs t
  cases hp : s.pc t with
  | get k p =>
    rw [hp] at hpc hloop
    cases p with
    | visit x => cases hloop; exact hpc.mem
    | _ => cases hloop
  | set k v p =>
    rw [hp] at hpc hloop
    cases p with
    | visit mine x => cases hloop; exact hpc.2.mem
    | _ => cases hloop
  | _ => simp [hp, Pc.loop] at hloop

/-- An own iteration leaves the loop or goes one node further. -/
theorem Inv.loop_forward (hi : Inv s c) {key : K} {i : Nat} (hloop : s.InLoop t key i)
    {a : Act K V} (hs : s.Step (t, a) s') :
    (s'.pc t).loop = none ∨ s'.InLoop t key (i + 1) := by
  obtain ⟨node, hpc, hat⟩ := hloop
  have hget := hi.standsAt_iff.mp hat
  obtain ⟨m', pc', hadv, rfl⟩ := State.step_running hs (Pc.running_of_loop hpc)
  have hi' := hi.atomic hadv
  have hgrow := Chains.after_grows c (s.pc t) a (cfg.bucketIdx key)
  have hnext : ∀ {nd nextNode}, s.mem.nodes node = some nd → nd.next = some nextNode →
      pc'.loop = some (key, nextNode) →
      State.InLoop (V := V) ⟨m', Function.update s.pc t pc'⟩ t key (i + 1) := by
    intro nd nextNode hn hp hloop'
    refine ⟨nextNode, by simpa using hloop', hi'.standsAt_iff.mpr ?_⟩
    exact prefix_getElem? hgrow (hi.next_position hget hn hp)
  simp only [Function.update_self]
  generalize s.pc t = pc at hadv hpc
  cases hadv with
  | nextLost hn hk hp =>
    cases hpc
    exact .inr (hnext hn hp rfl)
  | getNext hn hk hp =>
    cases hpc
    exact .inr (hnext hn hp rfl)
  | getHead | headLost => cases hpc
  | _ => exact .inl rfl

/-- A lost exchange at the bucket's head yields its first node. -/
theorem Inv.head_lost (hi : Inv s c) {key : K} {value : V} {mine : Addr}
    (hpc : s.pc t = .set key value (.casHead mine)) (hs : s.Step (t, .casHead false) s') :
    s'.InLoop t key 0 := by
  obtain ⟨m', pc', hadv, rfl⟩ := State.step_running hs (by rw [hpc]; rfl)
  have hi' := hi.atomic hadv
  have hgrow := Chains.after_grows c (s.pc t) (.casHead false)
  rw [hpc] at hadv hgrow hi'
  cases hadv with
  | @headLost _ _ _ node hp =>
    refine ⟨node, by simp [Pc.loop], hi'.standsAt_iff.mpr ?_⟩
    exact prefix_getElem? (hgrow _) (hi.head_position hp)

/-- A lost exchange at a node yields the next one. -/
theorem Inv.next_lost (hi : Inv s c) {key : K} {i : Nat} (hloop : s.InLoop t key i)
    (hs : s.Step (t, .casNext false) s') : s'.InLoop t key (i + 1) := by
  refine (hi.loop_forward hloop hs).resolve_left fun hnone => ?_
  obtain ⟨node, hpc, _⟩ := hloop
  obtain ⟨m', pc', hadv, rfl⟩ := State.step_running hs (Pc.running_of_loop hpc)
  simp only [Function.update_self] at hnone
  generalize s.pc t = pc at hadv
  cases hadv
  simp [Pc.loop] at hnone

/-! ## The steps that are left -/

/-- Two steps for each node and one for each bucket, from `bucket` on. -/
def scanBound (h : Hashing K) (S : Finset K) (bucket : Nat) : Nat :=
  (h.bucketCount - bucket) * (2 * S.card + 1) + 2

/-- After at most `n` more steps of its own the call at `pc` has returned. -/
def Pc.Left (S : Finset K) (c : Chains h) (n : Nat) : Pc K V → Prop
  | .idle => False
  | .get key .loadHead => room h S key 0 + 3 ≤ n
  | .get key (.visit node) =>
    ∃ i, (c (h.bucketIdx key))[i]? = some node ∧ room h S key i + 2 ≤ n
  | .get _ (.loadValue _) => 2 ≤ n
  | .get _ .countFailed => 2 ≤ n
  | .set key _ .createNode => room h S key 0 + 5 ≤ n
  | .set key _ (.casHead _) => room h S key 0 + 4 ≤ n
  | .set key _ (.visit _ node) =>
    ∃ i, (c (h.bucketIdx key))[i]? = some node ∧ room h S key i + 3 ≤ n
  | .set _ _ (.storeValue ..) => 3 ≤ n
  | .set _ _ (.destroy _) => 2 ≤ n
  | .enumerate _ (.loadHead bucket) => scanBound h S bucket ≤ n
  | .enumerate _ (.loadValue bucket node) => ∃ (hb : bucket < h.bucketCount) (i : Nat),
    (c ⟨bucket, hb⟩)[i]? = some node ∧ scanBound h S (bucket + 1) + 2 * (S.card - i) ≤ n
  | .enumerate _ (.loadNext bucket node) => ∃ (hb : bucket < h.bucketCount) (i : Nat),
    (c ⟨bucket, hb⟩)[i]? = some node ∧ scanBound h S (bucket + 1) + 2 * (S.card - i) ≤ n + 1
  | .readStatistics .loadSuccess => 3 ≤ n
  | .readStatistics (.loadFailed _) => 2 ≤ n
  | .returned _ _ => 1 ≤ n

omit [DecidableEq K] [DecidableEq T] in
theorem scanBound_step {bucket : Nat} (hb : bucket < h.bucketCount) :
    scanBound h S bucket = scanBound h S (bucket + 1) + (2 * S.card + 1) := by
  obtain ⟨d, hd⟩ : ∃ d, h.bucketCount - bucket = d + 1 := ⟨h.bucketCount - bucket - 1, by omega⟩
  have hd' : h.bucketCount - (bucket + 1) = d := by omega
  rw [scanBound, scanBound, hd, hd', Nat.add_mul]
  omega

omit [DecidableEq K] [DecidableEq T] in
theorem Pc.left_start (c : Chains h) (op : Op K V) : op.start.Left S c (callBound h S op) := by
  cases op with
  | kv op => cases op <;> exact Nat.le_refl _
  | enumerate => exact Nat.le_refl _
  | readStatistics => exact Nat.le_refl _

omit [DecidableEq K] [DecidableEq T] in
theorem Pc.not_left_zero (c : Chains h) (pc : Pc K V) : ¬ pc.Left S c 0 := by
  cases pc with
  | idle => exact id
  | get key p => cases p <;> simp [Pc.Left]
  | set key value p => cases p <;> simp [Pc.Left]
  | enumerate seen p =>
    cases p with
    | loadHead bucket => simp [Pc.Left, scanBound]
    | loadValue bucket node => simp [Pc.Left, scanBound]
    | loadNext bucket node =>
      rintro ⟨hb, i, _, hle⟩
      simp only [scanBound] at hle
      omega
  | readStatistics p => cases p <;> simp [Pc.Left]
  | returned op res => simp [Pc.Left]

omit [DecidableEq K] [DecidableEq T] in
/-- The growth of the chains leaves every bound as it is. -/
theorem Pc.Left.grows {c c' : Chains h} {n : Nat} {pc : Pc K V} (hl : pc.Left S c n)
    (hg : ∀ b, c b <+: c' b) : pc.Left S c' n := by
  cases pc with
  | get key p =>
    cases p with
    | visit node =>
      obtain ⟨i, hget, hn⟩ := hl
      exact ⟨i, prefix_getElem? (hg _) hget, hn⟩
    | _ => exact hl
  | set key value p =>
    cases p with
    | visit mine node =>
      obtain ⟨i, hget, hn⟩ := hl
      exact ⟨i, prefix_getElem? (hg _) hget, hn⟩
    | _ => exact hl
  | enumerate seen p =>
    cases p with
    | loadHead bucket => exact hl
    | loadValue bucket node =>
      obtain ⟨hb, i, hget, hn⟩ := hl
      exact ⟨hb, i, prefix_getElem? (hg _) hget, hn⟩
    | loadNext bucket node =>
      obtain ⟨hb, i, hget, hn⟩ := hl
      exact ⟨hb, i, prefix_getElem? (hg _) hget, hn⟩
  | readStatistics p => cases p <;> exact hl
  | _ => exact hl

omit [DecidableEq T] in
/-- The cursor is in front of the end of what the chain can become. -/
theorem Inv.room_pos (hi : Inv s c) (hk : KeysIn S s) {key : K} {i : Nat} {node : Addr}
    (hget : (c (cfg.bucketIdx key))[i]? = some node) :
    room cfg.toHashing S key i = room cfg.toHashing S key (i + 1) + 1 := by
  have hlt := hi.position_lt hk hget
  simp only [room]
  omega

omit [DecidableEq T] in
/-- A step inside a call uses up one of the steps that are left. -/
theorem Inv.left_atomic (hi : Inv s c) (hk : KeysIn S s) {a : Act K V}
    {m' : Memory cfg.toHashing V} {pc' : Pc K V}
    (hs : Advance s.mem (cfg.heapId t) (s.pc t) a m' pc') {n : Nat}
    (hl : (s.pc t).Left S c n) : pc'.Left S c (n - 1) := by
  have hcard : ∀ {b : Fin cfg.bucketCount} {i : Nat} {a : Addr}, (c b)[i]? = some a →
      i < S.card := fun hget =>
    Nat.lt_of_lt_of_le (hi.position_lt hk hget) (Finset.card_filter_le ..)
  generalize s.pc t = pc at hs hl
  cases hs with
  | createNode => exact Nat.le_sub_of_add_le hl
  | headWon => simp only [Pc.Left] at hl ⊢; omega
  | headLost hp => exact ⟨0, hi.head_position hp, Nat.le_sub_of_add_le hl⟩
  | loadMine hn hkey ho =>
    obtain ⟨i, hget, hle⟩ := hl
    have hroom := hi.room_pos hk hget
    simp only [Pc.Left]
    omega
  | nextWon =>
    obtain ⟨i, _, hle⟩ := hl
    simp only [Pc.Left]
    omega
  | nextLost hn hkey hp =>
    obtain ⟨i, hget, hle⟩ := hl
    have hroom := hi.room_pos hk hget
    exact ⟨i + 1, hi.next_position hget hn hp, by omega⟩
  | storeValue => exact Nat.le_sub_of_add_le hl
  | destroy => exact Nat.le_sub_of_add_le hl
  | getHeadNull => simp only [Pc.Left] at hl ⊢; omega
  | getHead hp => exact ⟨0, hi.head_position hp, Nat.le_sub_of_add_le hl⟩
  | getHit hn hkey =>
    obtain ⟨i, hget, hle⟩ := hl
    have hroom := hi.room_pos hk hget
    simp only [Pc.Left]
    omega
  | getNextNull hn hkey hp =>
    obtain ⟨i, hget, hle⟩ := hl
    have hroom := hi.room_pos hk hget
    simp only [Pc.Left]
    omega
  | getNext hn hkey hp =>
    obtain ⟨i, hget, hle⟩ := hl
    have hroom := hi.room_pos hk hget
    exact ⟨i + 1, hi.next_position hget hn hp, by omega⟩
  | getValue => exact Nat.le_sub_of_add_le hl
  | getFailed => exact Nat.le_sub_of_add_le hl
  | @enumerateHeadNull seen b hp =>
    have hstep := scanBound_step (S := S) b.isLt
    simp only [Pc.Left] at hl ⊢
    omega
  | @enumerateHead seen b node hp =>
    have hstep := scanBound_step (S := S) b.isLt
    refine ⟨b.isLt, 0, hi.head_position hp, ?_⟩
    simp only [Pc.Left] at hl
    omega
  | enumerateEnd hb =>
    simp only [Pc.Left, scanBound] at hl ⊢
    omega
  | enumerateValue hn =>
    obtain ⟨hb, i, hget, hle⟩ := hl
    exact ⟨hb, i, hget, by omega⟩
  | enumerateNextNull hn hp =>
    obtain ⟨hb, i, hget, hle⟩ := hl
    have hlt := hcard hget
    simp only [Pc.Left]
    omega
  | enumerateNext hn hp =>
    obtain ⟨hb, i, hget, hle⟩ := hl
    have hlt := hcard hget
    exact ⟨hb, i + 1, hi.next_position hget hn hp, by omega⟩
  | readSuccess => exact Nat.le_sub_of_add_le hl
  | readFailed => exact Nat.le_sub_of_add_le hl

/-- The call `op` of `t` is running or about to return, with at most `n` steps left. -/
def State.Left (S : Finset K) (t : T) (op : Op K V) (s : State cfg V) (n : Nat) : Prop :=
  ∃ c, Inv s c ∧ KeysIn S s ∧ (s.pc t).op = some op ∧ (s.pc t).Left S c n

omit [DecidableEq K] [DecidableEq T] in
theorem State.not_left_zero {op : Op K V} : ¬ s.Left S t op 0 := by
  rintro ⟨c, -, -, -, hleft⟩
  exact Pc.not_left_zero c _ hleft

theorem State.Left.step {op : Op K V} {n : Nat} (hl : s.Left S t op n) {e : Event T K V}
    (hS : SetsWithin S [e]) (hs : s.Step e s') :
    (∃ res, e = (t, .ret op res)) ∨ s'.Left S t op (n - if e.1 = t then 1 else 0) := by
  obtain ⟨c, hi, hk, hop, hleft⟩ := hl
  have hi' := hi.step hs
  have hk' := hk.step hs hS
  have hgrow := Chains.after_grows c (s.pc e.1) e.2
  by_cases ht : e.1 = t
  · obtain ⟨u, a⟩ := e
    obtain rfl : u = t := ht
    obtain ⟨v, o, hidle, heq, rfl⟩ | ⟨v, o, res, hret, heq, rfl⟩ | ⟨v, b, m', pc', hadv, heq, rfl⟩ :=
      State.step_cases hs
    · obtain ⟨rfl, rfl⟩ : u = v ∧ a = .call o := by simpa using heq
      simp [hidle, Pc.op] at hop
    · obtain ⟨rfl, rfl⟩ : u = v ∧ a = .ret o res := by simpa using heq
      obtain rfl : o = op := by simpa [hret, Pc.op] using hop
      exact .inl ⟨res, rfl⟩
    · obtain ⟨rfl, rfl⟩ : u = v ∧ a = b := by simpa using heq
      refine .inr ⟨_, hi', hk', ?_⟩
      simp only [if_pos, Function.update_self]
      exact ⟨hadv.op.1.trans hop, (hi.left_atomic hk hadv hleft).grows hgrow⟩
  · refine .inr ⟨_, hi', hk', ?_⟩
    rw [if_neg ht, Nat.sub_zero, Inv.pc_step_other hs ht]
    exact ⟨hop, hleft.grows hgrow⟩

/-! ## Steps are possible -/

omit [DecidableEq K] [DecidableEq T] in
/-- The allocator has an address left. -/
def HasFree (s : State cfg V) : Prop :=
  ∃ n : Nat, ∀ a : Nat, n ≤ a → s.mem.blocks a = none

theorem HasFree.step (hfree : HasFree s) {e : Event T K V} (hs : s.Step e s') : HasFree s' := by
  obtain ⟨n, hn⟩ := hfree
  obtain ⟨t, op, hpc, rfl, rfl⟩ | ⟨t, op, res, hpc, rfl, rfl⟩ | ⟨t, a, m', pc', hadv, rfl, rfl⟩ :=
    State.step_cases hs
  · exact ⟨n, hn⟩
  · exact ⟨n, hn⟩
  · generalize s.pc t = pc at hadv
    cases hadv with
    | @createNode key value fresh _ =>
      refine ⟨max n (fresh + 1), fun x hx => ?_⟩
      have hne : x ≠ fresh := by omega
      simpa [Memory.allocate, hne] using hn x (by omega)
    | @destroy key value mine own _ _ =>
      refine ⟨n, fun x hx => ?_⟩
      by_cases hxa : x = mine
      · simp [Memory.release, hxa]
      · simpa [Memory.release, hxa] using hn x hx
    | _ => exact ⟨n, hn⟩

/-- Only finitely many nodes have been allocated. -/
theorem hasFree_of_run {es : List (Event T K V)}
    (hrun : Run State.Step (State.init cfg V) es s) : HasFree s :=
  hrun.invariant (fun _ m => HasFree m) ⟨0, fun _ _ => rfl⟩ fun _ _ _ _ hfree hs => hfree.step hs

/-- A thread with a call can take a step: no assertion fails and no node is missing. -/
theorem Inv.can_step (hi : Inv s c) (hfree : HasFree s) (hpc : s.pc t ≠ .idle) :
    ∃ a s', s.Step (t, a) s' := by
  obtain ⟨n, hn⟩ := hfree
  by_cases hf : (s.pc t).finished = true
  · cases hp : s.pc t with
    | idle => exact absurd hp hpc
    | returned op res => exact ⟨.ret op res, s.setPc t .idle, .ret t, by simp [State.next, hp]⟩
    | _ => simp [hp, Pc.finished] at hf
  · obtain ⟨r, hr⟩ := Option.isSome_iff_exists.mp
      (hi.enabled (by simpa using hf) (hn n (Nat.le_refl n)))
    exact ⟨r.1, ⟨r.2.1, Function.update s.pc t r.2.2⟩, .advance t n, by simp [State.next, hr]⟩

theorem keysIn_of_run {es : List (Event T K V)}
    (hrun : Run State.Step (State.init cfg V) es s) (hS : SetsWithin S es) : KeysIn S s :=
  hrun.invariant (fun es m => SetsWithin S es → KeysIn S m)
    (fun _ => ⟨by simp [State.init, Memory.new], by simp [State.init]⟩)
    (fun _ _ _ _ hinv hs hS' =>
      (hinv fun t key value hm => hS' t key value (by simp [hm])).step hs
        fun t key value hm => hS' t key value (List.mem_append_right _ hm)) hS

omit [DecidableEq T] in
/-- Only finitely many keys are set. -/
theorem exists_setsWithin (es : List (Event T K V)) : ∃ S : Finset K, SetsWithin S es := by
  induction es with
  | nil => exact ⟨∅, fun _ _ _ h => by cases h⟩
  | cons e es ih =>
    obtain ⟨S, hS⟩ := ih
    by_cases hset : ∃ t key value, e = (t, .call (.kv (.set key value)))
    · obtain ⟨t, key, value, rfl⟩ := hset
      refine ⟨insert key S, fun u key' value' hm => ?_⟩
      obtain heq | hm := List.mem_cons.mp hm
      · cases heq
        exact Finset.mem_insert_self _ _
      · exact Finset.mem_insert_of_mem (hS u key' value' hm)
    · refine ⟨S, fun u key value hm => ?_⟩
      obtain rfl | hm := List.mem_cons.mp hm
      · exact absurd ⟨u, key, value, rfl⟩ hset
      · exact hS u key value hm

theorem Inv.left_of_call (hi : Inv s c) (hk : KeysIn S s) {op : Op K V} {s₁ : State cfg V}
    (hcall : s.Step (t, .call op) s₁) (hS : SetsWithin S [(t, .call op)]) :
    s₁.Left S t op (callBound cfg.toHashing S op) := by
  refine ⟨_, hi.step hcall, hk.step hcall hS, ?_⟩
  obtain ⟨_, rfl⟩ := State.step_call hcall
  simp only [State.setPc, Function.update_self]
  exact ⟨op.start_op, Pc.left_start _ op⟩

/-! ## Calls that run alone -/

/-- A call that runs alone goes on until it returns. -/
theorem State.Left.returns_alone {op : Op K V} {n : Nat} (hl : s.Left S t op n) (hfree : HasFree s) :
    ∃ es res s', Run State.Step s (es ++ [(t, .ret op res)]) s' ∧
      ∀ x ∈ es, x.1 = t ∧ ∀ o r, x.2 ≠ .ret o r := by
  induction n generalizing s with
  | zero => exact absurd hl State.not_left_zero
  | succ n ih =>
    obtain ⟨c, hi, -, hop, -⟩ := id hl
    have hpc : s.pc t ≠ .idle := fun hidle => by simp [hidle, Pc.op] at hop
    obtain ⟨a, m, hs⟩ := hi.can_step hfree hpc
    by_cases hret : ∃ o res, a = .ret o res
    · obtain ⟨o, res, rfl⟩ := hret
      obtain ⟨hreturned, -⟩ := State.step_ret hs
      obtain rfl : o = op := by simpa [hreturned, Pc.op] using hop
      exact ⟨[], res, m, .single hs, fun _ hx => by cases hx⟩
    · have hS : SetsWithin S [(t, a)] := by
        intro u key value hm
        obtain ⟨rfl, rfl⟩ := Prod.mk.inj (List.mem_singleton.mp hm)
        exact absurd (State.step_call hs).1 hpc
      obtain ⟨res, heq⟩ | hl' := hl.step hS hs
      · exact absurd ⟨op, res, (Prod.mk.inj heq).2⟩ hret
      · rw [if_pos rfl, Nat.add_sub_cancel] at hl'
        obtain ⟨es, res, s', hrun, hes⟩ := ih hl' (hfree.step hs)
        refine ⟨(t, a) :: es, res, s', .cons hs hrun, fun x hx => ?_⟩
        obtain rfl | hx := List.mem_cons.mp hx
        · exact ⟨rfl, fun o r heq => hret ⟨o, r, heq⟩⟩
        · exact hes x hx

/-- A thread that calls `op` alone returns from it. -/
theorem Inv.returns_alone (hi : Inv s c) (hk : KeysIn S s) (hfree : HasFree s) {op : Op K V}
    (hS : SetsWithin S [(t, .call op)]) (hidle : s.pc t = .idle) :
    ∃ es res s', Run State.Step s ((t, .call op) :: (es ++ [(t, .ret op res)])) s' ∧
      ∀ x ∈ es, x.1 = t ∧ ∀ o r, x.2 ≠ .ret o r := by
  have hcall : s.Step (t, .call op) (s.setPc t op.start) := ⟨.call t op, by simp [State.next, hidle]⟩
  obtain ⟨es, res, s', hrun, hes⟩ := (hi.left_of_call hk hcall hS).returns_alone (hfree.step hcall)
  exact ⟨es, res, s', .cons hcall hrun, hes⟩

/-! ## Progress -/

/-- What keeps the calls going in a state of a run that sets keys of `S` only. -/
structure Progress (S : Finset K) (s : State cfg V) : Prop where
  /-- A cursor stands at one position of its bucket's chain, and the measure is positive there. -/
  position : ∀ t key node, (s.pc t).loop = some (key, node) →
    ∃! i, s.StandsAt (cfg.bucketIdx key) i node
  inside : ∀ t key i, s.InLoop t key i → i < (bucketKeys cfg.toHashing S (cfg.bucketIdx key)).card
  /-- An own iteration leaves the loop, or goes one node further and decreases the measure. -/
  forward : ∀ t key i a s', s.InLoop t key i → s.Step (t, a) s' → (s'.pc t).loop = none ∨
    s'.InLoop t key (i + 1) ∧ room cfg.toHashing S key (i + 1) < room cfg.toHashing S key i
  /-- A lost exchange yields a node: the first of the bucket, or the next on the chain. -/
  headLost : ∀ t key value mine s', s.pc t = .set key value (.casHead mine) →
    s.Step (t, .casHead false) s' → s'.InLoop t key 0
  nextLost : ∀ t key i s', s.InLoop t key i → s.Step (t, .casNext false) s' →
    s'.InLoop t key (i + 1)
  /-- The steps of the others move no cursor. -/
  others : ∀ t key i e s', s.InLoop t key i → s.Step e s' → e.1 ≠ t → s'.InLoop t key i
  /-- No call is stuck, and no assertion fails. -/
  enabled : ∀ t, s.pc t ≠ .idle → ∃ a s', s.Step (t, a) s'
  /-- A call that begins here returns within a number of own steps that is known beforehand. -/
  returns : ∀ t op s₁ es s₂, s.Step (t, .call op) s₁ → Run State.Step s₁ es s₂ →
    SetsWithin S ((t, .call op) :: es) → callBound cfg.toHashing S op ≤ ownSteps t es →
    ∃ res, (t, .ret op res) ∈ es

theorem Inv.returns (hi : Inv s c) (hk : KeysIn S s) {op : Op K V} {s₁ s₂ : State cfg V}
    {es : List (Event T K V)} (hcall : s.Step (t, .call op) s₁) (hrun : Run State.Step s₁ es s₂)
    (hS : SetsWithin S ((t, .call op) :: es)) (hn : callBound cfg.toHashing S op ≤ ownSteps t es) :
    ∃ res, (t, .ret op res) ∈ es := by
  have hwithin : ∀ e ∈ (t, .call op) :: es, SetsWithin S [e] := fun e he t' key value hm =>
    hS t' key value (List.mem_singleton.mp hm ▸ he)
  have hleft := hi.left_of_call hk hcall (hwithin _ (by simp))
  obtain ⟨e, he, res, rfl⟩ := Run.done_of_left (fun e => SetsWithin S [e])
    (fun e => ∃ res, e = (t, Act.ret op res)) (State.Left S t op)
    (fun _ => State.not_left_zero)
    (fun _ _ _ _ hP hl hs => hl.step hP hs) hrun
    (fun e he => hwithin e (List.mem_cons_of_mem _ he)) hleft hn
  exact ⟨res, he⟩

theorem Inv.progress (hi : Inv s c) (hk : KeysIn S s) (hfree : HasFree s) : Progress S s where
  position t key node hloop := by
    obtain ⟨i, hget⟩ := List.mem_iff_getElem?.mp (hi.loop_mem hloop)
    refine ⟨i, hi.standsAt_iff.mpr hget, fun j hj => ?_⟩
    have hget' := hi.standsAt_iff.mp hj
    obtain ⟨hlt, _⟩ := List.getElem?_eq_some_iff.mp hget'
    exact (List.getElem?_inj hlt (hi.table.linked _).nodup).mp (hget'.trans hget.symm)
  inside t key i hloop := by
    obtain ⟨node, _, hat⟩ := hloop
    exact hi.position_lt hk (hi.standsAt_iff.mp hat)
  forward t key i a s' hloop hs := by
    refine (hi.loop_forward hloop hs).imp_right fun hnext => ⟨hnext, ?_⟩
    obtain ⟨node, _, hat⟩ := hloop
    rw [hi.room_pos hk (hi.standsAt_iff.mp hat)]
    exact Nat.lt_succ_self _
  headLost t key value mine s' hpc hs := hi.head_lost hpc hs
  nextLost t key i s' hloop hs := hi.next_lost hloop hs
  others t key i e s' hloop hs ht := by
    obtain ⟨node, hpc, hat⟩ := hloop
    exact ⟨node, by rw [Inv.pc_step_other hs ht, hpc], hi.standsAt_step hs hat⟩
  enabled t hpc := hi.can_step hfree hpc
  returns t op s₁ es s₂ hcall hrun hS hn := hi.returns hk hcall hrun hS hn

/-- **Every call returns, whatever the others do.** In every state of every run in which only
keys of the finite set `S` are set, cursors only move forward, each own iteration decreases the
number of keys of the bucket less the position, no step of another thread increases it, and
a call that begins returns within a bound that depends on `S` alone. -/
theorem progress_of_run {es : List (Event T K V)}
    (hrun : Run State.Step (State.init cfg V) es s) (hS : SetsWithin S es) : Progress S s := by
  obtain ⟨c, hi⟩ := inv_of_run hrun
  exact hi.progress (keysIn_of_run hrun hS) (hasFree_of_run hrun)

end Chains

/-- Three `set`s of three keys of one bucket: the last to come is about to lose an exchange
at the first node. -/
def crowdedSchedule : List (Choice Nat Nat Nat) :=
  [.call 0 (.kv (.set 5 10)), .call 1 (.kv (.set 6 20)), .call 2 (.kv (.set 7 30)),
    .advance 0 100, .advance 1 101, .advance 2 102, .advance 0 0, .advance 1 0, .advance 2 0,
    .advance 1 0]

/-- The loser goes on at the second node, and a call like its own takes at most eight steps. -/
theorem progress_of_run_crowded : ∃ es s s',
    (State.init oneBucket Nat).exec crowdedSchedule = some (es, s) ∧ s.InLoop 2 7 0 ∧
    s.Step (2, .casNext false) s' ∧ s'.InLoop 2 7 1 ∧
    callBound oneBucket.toHashing {5, 6, 7} (.kv (.set 7 30) : Op Nat Nat) = 8 := by
  have hexec : ((State.init oneBucket Nat).exec crowdedSchedule).isSome := by decide
  obtain ⟨⟨es, s⟩, hexec⟩ := Option.isSome_iff_exists.mp hexec
  have hS : SetsWithin {5, 6, 7} es := by
    cases hexec
    intro t key value hm
    simp at hm
    rcases hm with ⟨rfl, rfl, rfl⟩ | ⟨rfl, rfl, rfl⟩ | ⟨rfl, rfl, rfl⟩ <;> decide
  have hloop : s.InLoop 2 7 0 := by
    cases hexec
    exact ⟨100, rfl, [100, 101], ⟨rfl, _, rfl, rfl, _, rfl, rfl⟩, rfl⟩
  have hlost : ∃ s', s.Step (2, .casNext false) s' := by
    cases hexec
    exact ⟨_, .advance 2 0, rfl⟩
  obtain ⟨s', hlost⟩ := hlost
  have hprogress := progress_of_run (State.run_of_exec hexec) hS
  exact ⟨es, s, s', hexec, hloop, hlost, hprogress.nextLost 2 7 0 s' hloop hlost, by decide⟩

end LockFreeKV.Engine
