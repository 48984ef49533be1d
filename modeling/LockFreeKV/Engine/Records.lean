import LockFreeKV.Engine.Preservation

/-!
# The table that the memory represents

The records along the chains form a table. A step changes it exactly when a `set`
takes effect, and then by `Table.set`: the chain behind a writer's cursor cannot
hold its key, so appending at the tail and replacing in place are the two cases
of one insertion.
-/
namespace LockFreeKV.Engine

open LockFreeKV.Lib

variable {K V T : Type} {h : Hashing K}

/-- The records of a bucket in chain order. -/
def Memory.recordsOf (m : Memory h V) (c : Chains h) (b : Fin h.bucketCount) : List (K × V) :=
  (c b).filterMap m.recordOf

def Represents (m : Memory h V) (c : Chains h) (t : Table h V) : Prop :=
  ∀ b, t.bucket b = m.recordsOf c b

/-- The call of the stepping thread that takes effect in this step. -/
def Pc.effect : Pc K V → Act K V → Option (KvOp K V)
  | .set key value _, .casHead true => some (.set key value)
  | .set key value _, .casNext true => some (.set key value)
  | .set key value _, .storeValue => some (.set key value)
  | .get key _, .getHead none => some (.get key)
  | .get key _, .getNext none => some (.get key)
  | .get key _, .getValue => some (.get key)
  | _, _ => none

variable {m m' : Memory h V} {c : Chains h} {t : Table h V}

theorem Memory.recordOf_of_nodes {a : Addr} (hn : m'.nodes a = m.nodes a) :
    m'.recordOf a = m.recordOf a := by simp [Memory.recordOf, hn]

theorem Memory.recordOf_eq {a : Addr} {node : ListNode K V} (hn : m.nodes a = some node) :
    m.recordOf a = some (node.key, node.ptrValue) := by simp [Memory.recordOf, hn]

theorem Memory.keyOf_of_record {a : Addr} {e : K × V} (hr : m.recordOf a = some e) :
    m.keyOf a = some e.1 := by
  obtain ⟨node, hn, rfl⟩ := Option.map_eq_some_iff.mp hr
  exact Memory.keyOf_eq hn

/-- Keys that no node of a list has are missing from its records. -/
theorem notMem_records {l : List Addr} {key : K} (hk : ∀ a ∈ l, m.keyOf a ≠ some key) :
    key ∉ (l.filterMap m.recordOf).map Prod.fst := by
  intro hm
  obtain ⟨e, he, rfl⟩ := List.mem_map.mp hm
  obtain ⟨a, ha, hr⟩ := List.mem_filterMap.mp he
  exact hk a ha (Memory.keyOf_of_record hr)

namespace Represents

theorem keep (hr : Represents m c t) (hrec : ∀ b, ∀ a ∈ c b, m'.recordOf a = m.recordOf a) :
    Represents m' c t := fun b => by
  rw [hr b, Memory.recordsOf, Memory.recordsOf]
  exact (List.filterMap_congr (hrec b)).symm

variable [DecidableEq K]

/-- Linking a node with an absent key is `Table.set`. -/
theorem link (hr : Represents m c t) {key : K} {value : V} {mine : Addr}
    (hmine : m.recordOf mine = some (key, value))
    (habsent : ∀ a ∈ c (h.bucketIdx key), m.keyOf a ≠ some key)
    (hrec : ∀ a, m'.recordOf a = m.recordOf a) :
    Represents m' (c.link key mine) (t.set key value) := fun b => by
  by_cases hb : b = h.bucketIdx key
  · subst hb
    rw [Table.set_bucket_self, hr, Memory.recordsOf, upsert_of_notMem (notMem_records habsent),
      Memory.recordsOf, Chains.link, Function.update_self, List.filterMap_append]
    simp [hrec, hmine]
  · rw [Table.set_bucket_ne t key value hb, hr b, Memory.recordsOf, Memory.recordsOf, Chains.link,
      Function.update_of_ne hb, funext hrec]

/-- Storing a value in the first node with the key is `Table.set`. -/
theorem store (hr : Represents m c t) (ht : TableInv m c) {key : K} {value : V} {node : Addr}
    {nd : ListNode K V} (hcur : Cursor m c key node) (hn : m.nodes node = some nd)
    (hk : nd.key = key) :
    Represents (m.putNode node { nd with ptrValue := value }) c (t.set key value) := fun b => by
  have hother : ∀ a, a ≠ node →
      (m.putNode node { nd with ptrValue := value }).recordOf a = m.recordOf a := fun a ha =>
    Memory.recordOf_of_nodes (by simp [Memory.putNode, ha])
  by_cases hb : b = h.bucketIdx key
  · subst hb
    obtain ⟨pre, post, heq, hpre⟩ := hcur
    obtain ⟨hnpre, hnpost⟩ := ht.mem_nodup heq
    have hnew : (m.putNode node { nd with ptrValue := value }).recordOf node = some (key, value) := by
      simp [Memory.recordOf, Memory.putNode, hk]
    have hsame : ∀ l : List Addr, node ∉ l →
        l.filterMap (m.putNode node { nd with ptrValue := value }).recordOf =
          l.filterMap m.recordOf := fun l hl =>
      List.filterMap_congr fun a ha => hother a fun hx => hl (hx ▸ ha)
    rw [Table.set_bucket_self, hr, Memory.recordsOf, Memory.recordsOf, heq, List.filterMap_append,
      List.filterMap_append, upsert_append_of_notMem (notMem_records hpre), hsame pre hnpre,
      List.filterMap_cons_some hnew, List.filterMap_cons_some (Memory.recordOf_eq hn),
      hsame post hnpost, upsert, if_pos hk, hk]
  · have hout : node ∉ c b := fun hm => hb (ht.bucket_unique hm hcur.mem)
    rw [Table.set_bucket_ne t key value hb, hr b, Memory.recordsOf, Memory.recordsOf]
    exact (List.filterMap_congr fun a ha => hother a fun hx => hout (hx ▸ ha)).symm

/-- A walk that stands on a node with its key reads the value of the key. -/
theorem toMap_of_cursor (hr : Represents m c t) {key : K} {node : Addr} {nd : ListNode K V}
    (hcur : Cursor m c key node) (hn : m.nodes node = some nd) (hk : nd.key = key) :
    t.toMap key = some nd.ptrValue := by
  obtain ⟨pre, post, heq, hpre⟩ := hcur
  rw [Table.toMap, hr, Memory.recordsOf, heq, List.filterMap_append,
    lookup_append_of_notMem (notMem_records hpre), List.filterMap_cons_some (Memory.recordOf_eq hn),
    lookup_cons, if_pos hk.symm]

theorem toMap_of_absent (hr : Represents m c t) {key : K}
    (habsent : ∀ a ∈ c (h.bucketIdx key), m.keyOf a ≠ some key) : t.toMap key = none := by
  rw [Table.toMap, hr, Memory.recordsOf]
  exact lookup_eq_none_iff.mpr (notMem_records habsent)

end Represents

/-- Every invariant state represents a table. -/
theorem TableInv.represents (ht : TableInv m c) : ∃ t : Table h V, Represents m c t := by
  refine ⟨⟨m.recordsOf c, fun b e he => ?_, fun b => ?_⟩, fun _ => rfl⟩
  · obtain ⟨a, ha, hr⟩ := List.mem_filterMap.mp he
    exact ht.home b a ha _ (Memory.keyOf_of_record hr)
  · have hkeys : ∀ l : List Addr, (∀ a ∈ l, a ∈ c b) → l.Nodup →
        ((l.filterMap m.recordOf).map Prod.fst).Nodup := by
      intro l hl hn
      induction l with
      | nil => simp
      | cons a l ih =>
        obtain ⟨ha, hn'⟩ := List.nodup_cons.mp hn
        have ih' := ih (fun x hx => hl x (by simp [hx])) hn'
        cases hra : m.recordOf a with
        | none => rwa [List.filterMap_cons_none hra]
        | some e =>
          rw [List.filterMap_cons_some hra, List.map_cons]
          refine List.nodup_cons.mpr ⟨notMem_records fun x hx hkx => ha ?_, ih'⟩
          have hsame := ht.unique b x (hl x (by simp [hx])) a (hl a (by simp))
            (hkx.trans (Memory.keyOf_of_record hra).symm)
          exact hsame ▸ hx
    exact hkeys (c b) (fun _ ha => ha) (ht.linked b).nodup

/-! ## One step -/

variable {cfg : Config K T} {s : State cfg V} {c : Chains cfg.toHashing} {t : T}
  {tab : Table cfg.toHashing V} [DecidableEq K]

/-- What an effect does to the table: only a `set` changes it. -/
def Table.effect (tab : Table h V) : Option (KvOp K V) → Table h V
  | some op => ((tableSpec h V).apply op tab).1
  | none => tab

/-- An atomic step changes the table exactly by the call that takes effect in it. -/
theorem Inv.represents_atomic (hi : Inv s c) (hr : Represents s.mem c tab) {a : Act K V}
    {m' : Memory cfg.toHashing V} {pc' : Pc K V}
    (hs : Advance s.mem (cfg.heapId t) (s.pc t) a m' pc') :
    Represents m' (c.after (s.pc t) a) (tab.effect ((s.pc t).effect a)) := by
  have hpc := hi.pcs t
  have hun : ∀ a, (s.pc t).mine = some a → ∀ b, a ∉ c b := fun a ha => hi.unlinked ha
  generalize s.pc t = pc at hs hpc hun
  cases hs with
  | @createNode key value a hfree =>
    refine hr.keep fun b x hx => Memory.recordOf_of_nodes ?_
    have hx' : x ≠ a := fun heq => by
      obtain ⟨node, hn⟩ := hi.table.node_of_mem (heq ▸ hx)
      have hb := hi.table.book a
      simp [hfree, hn] at hb
    simp [Memory.allocate, hx']
  | headWon hnull =>
    exact hr.link (Memory.recordOf_eq hpc.node) (by simp [hi.table.chain_nil hnull]) fun _ => rfl
  | @nextWon key value mine node nd hn hk hnull =>
    obtain ⟨pre, heq, habsent⟩ := hi.table.cursor_end hpc.2 hn hk hnull
    refine hr.link (Memory.recordOf_eq hpc.1.node) (by rwa [heq]) fun x => ?_
    by_cases hx : x = node
    · subst hx
      simp [Memory.recordOf, Memory.putNode, hn]
    · exact Memory.recordOf_of_nodes (by simp [Memory.putNode, hx])
  | storeValue hn =>
    obtain ⟨_, rfl, hcur, hkey⟩ := hpc
    have hk := Option.some.inj ((Memory.keyOf_eq hn).symm.trans hkey)
    exact hr.store hi.table hcur hn hk
  | @destroy key value mine own ho hb =>
    refine hr.keep fun b x hx => Memory.recordOf_of_nodes ?_
    have hx' : x ≠ mine := fun heq => hun mine rfl b (heq ▸ hx)
    simp [Memory.release, hx']
  | _ => exact hr

end LockFreeKV.Engine
