import LockFreeKV.Engine.Step
import LockFreeKV.Lib.Run

/-!
# The invariant of concurrent runs

`TableInv` relates the shared memory to one list of addresses for each bucket.
`PcOk` says what a program counter knows: a walking call stands on a linked node
and has passed no node with its key, a `set` holds an unlinked node, and an
`enumerate` has reported exactly the keys behind its cursor. Chains only grow at
their tails, so what a call knows survives the steps of the others.
-/
namespace LockFreeKV.Engine

open LockFreeKV.Lib

variable {K V T : Type} {h : Hashing K}

/-- The nodes of each bucket, in chain order. -/
abbrev Chains (h : Hashing K) := Fin h.bucketCount → List Addr

def Chains.link (c : Chains h) (key : K) (a : Addr) : Chains h :=
  Function.update c (h.bucketIdx key) (c (h.bucketIdx key) ++ [a])

structure TableInv (m : Memory h V) (c : Chains h) : Prop where
  linked : ∀ b, Linked m.nextOf (m.buckets b) (c b)
  home : ∀ b, ∀ a ∈ c b, ∀ key, m.keyOf a = some key → h.bucketIdx key = b
  unique : ∀ b, ∀ a ∈ c b, ∀ a' ∈ c b, m.keyOf a = m.keyOf a' → a = a'
  book : ∀ a, m.blocks a = (m.nodes a).map (·.allocator)

/-- A walk for `key` stands on `node`; the keys before it were compared. -/
def Cursor (m : Memory h V) (c : Chains h) (key : K) (node : Addr) : Prop :=
  ∃ pre post, c (h.bucketIdx key) = pre ++ node :: post ∧ ∀ a ∈ pre, m.keyOf a ≠ some key

/-- A node that only its `unique_ptr` points to. -/
structure Owned (m : Memory h V) (c : Chains h) (allocator : HeapID) (key : K) (value : V)
    (a : Addr) : Prop where
  node : m.nodes a = some ⟨key, value, none, allocator⟩
  unlinked : ∀ b, a ∉ c b

/-- The visitor has been called for the buckets below `bucket` and for the nodes `pre` of it. -/
structure Seen (m : Memory h V) (seen : List (K × V)) (bucket : Nat) (pre : List Addr) :
    Prop where
  nodup : (seen.map Prod.fst).Nodup
  behind : ∀ e ∈ seen, (h.bucketIdx e.1).val < bucket ∨
    (h.bucketIdx e.1).val = bucket ∧ ∃ a ∈ pre, m.keyOf a = some e.1
  covers : ∀ a ∈ pre, ∀ key, m.keyOf a = some key → key ∈ seen.map Prod.fst

/-- `enumerate` stands on `node` of bucket `bucket`, after the nodes `pre`. -/
def At (c : Chains h) (bucket : Nat) (pre : List Addr) (node : Addr) : Prop :=
  ∃ hb : bucket < h.bucketCount, ∃ post, c ⟨bucket, hb⟩ = pre ++ node :: post

/-- What a thread knows at its program counter. -/
def PcOk (m : Memory h V) (c : Chains h) (allocator : HeapID) : Pc K V → Prop
  | .idle => True
  | .get _ .loadHead => True
  | .get key (.visit node) => Cursor m c key node
  | .get key (.loadValue node) => Cursor m c key node ∧ m.keyOf node = some key
  | .get _ .countFailed => True
  | .set _ _ .createNode => True
  | .set key value (.casHead mine) => Owned m c allocator key value mine
  | .set key value (.visit mine node) => Owned m c allocator key value mine ∧ Cursor m c key node
  | .set key value (.storeValue mine node ptrValue) =>
    Owned m c allocator key value mine ∧ ptrValue = value ∧ Cursor m c key node ∧
      m.keyOf node = some key
  | .set key value (.destroy mine) => Owned m c allocator key value mine
  | .enumerate seen (.loadHead bucket) => Seen m seen bucket []
  | .enumerate seen (.loadValue bucket node) => ∃ pre, At c bucket pre node ∧ Seen m seen bucket pre
  | .enumerate seen (.loadNext bucket node) =>
    ∃ pre, At c bucket pre node ∧ Seen m seen bucket (pre ++ [node])
  | .readStatistics _ => True
  | .returned _ (.visited seen) => (seen.map Prod.fst).Nodup
  | .returned _ (.kv _) => True
  | .returned _ (.statistics _) => True

/-- The node a `set` holds by `unique_ptr`. -/
def Pc.mine : Pc K V → Option Addr
  | .set _ _ (.casHead mine) => some mine
  | .set _ _ (.visit mine _) => some mine
  | .set _ _ (.storeValue mine _ _) => some mine
  | .set _ _ (.destroy mine) => some mine
  | _ => none

structure Inv {cfg : Config K T} (s : State cfg V) (c : Chains cfg.toHashing) : Prop where
  table : TableInv s.mem c
  pcs : ∀ t, PcOk s.mem c (cfg.heapId t) (s.pc t)
  owner : ∀ t t' a, (s.pc t).mine = some a → (s.pc t').mine = some a → t = t'
  held : ∀ a node, s.mem.nodes a = some node →
    (∃ b, a ∈ c b) ∨ ∃ t, (s.pc t).mine = some a

/-- Chains grow at their tails and linked nodes keep their keys. -/
structure Grows (m : Memory h V) (c : Chains h) (m' : Memory h V) (c' : Chains h) : Prop where
  chain : ∀ b, c b <+: c' b
  key : ∀ b, ∀ a ∈ c b, m'.keyOf a = m.keyOf a

namespace Grows

variable {m m' m'' : Memory h V} {c c' c'' : Chains h}

theorem refl (m : Memory h V) (c : Chains h) : Grows m c m c :=
  ⟨fun _ => List.prefix_rfl, fun _ _ _ => rfl⟩

theorem trans (h1 : Grows m c m' c') (h2 : Grows m' c' m'' c'') : Grows m c m'' c'' where
  chain b := (h1.chain b).trans (h2.chain b)
  key b a ha := (h2.key b a ((h1.chain b).subset ha)).trans (h1.key b a ha)

theorem mem (hg : Grows m c m' c') {b : Fin h.bucketCount} {a : Addr} (ha : a ∈ c b) :
    a ∈ c' b := (hg.chain b).subset ha

theorem cursor (hg : Grows m c m' c') {key : K} {node : Addr} (hc : Cursor m c key node) :
    Cursor m' c' key node ∧ m'.keyOf node = m.keyOf node := by
  obtain ⟨pre, post, heq, hpre⟩ := hc
  obtain ⟨ext, hext⟩ := hg.chain (h.bucketIdx key)
  have hold : ∀ a ∈ pre ++ [node], m'.keyOf a = m.keyOf a := by
    intro a ha
    refine hg.key (h.bucketIdx key) a ?_
    rw [heq]
    simp only [List.mem_append, List.mem_cons, List.not_mem_nil, or_false] at ha ⊢
    rcases ha with ha | ha
    · exact .inl ha
    · exact .inr (.inl ha)
  refine ⟨⟨pre, post ++ ext, by rw [← hext, heq]; simp, fun a ha => ?_⟩, hold node (by simp)⟩
  rw [hold a (by simp [ha])]
  exact hpre a ha

theorem at_ (hg : Grows m c m' c') {bucket : Nat} {pre : List Addr} {node : Addr}
    (ha : At c bucket pre node) :
    At c' bucket pre node ∧ ∀ a ∈ pre ++ [node], m'.keyOf a = m.keyOf a := by
  obtain ⟨hb, post, heq⟩ := ha
  obtain ⟨ext, hext⟩ := hg.chain ⟨bucket, hb⟩
  refine ⟨⟨hb, post ++ ext, by rw [← hext, heq]; simp⟩, fun a hm => hg.key ⟨bucket, hb⟩ a ?_⟩
  rw [heq]
  simp only [List.mem_append, List.mem_cons, List.not_mem_nil, or_false] at hm ⊢
  rcases hm with hm | hm
  · exact .inl hm
  · exact .inr (.inl hm)

end Grows

theorem Seen.congr {m m' : Memory h V} {seen : List (K × V)} {bucket : Nat} {pre : List Addr}
    (hs : Seen m seen bucket pre) (hk : ∀ a ∈ pre, m'.keyOf a = m.keyOf a) :
    Seen m' seen bucket pre where
  nodup := hs.nodup
  behind e he := (hs.behind e he).imp_right fun ⟨hb, a, ha, hkey⟩ =>
    ⟨hb, a, ha, (hk a ha).trans hkey⟩
  covers a ha key hkey := hs.covers a ha key ((hk a ha).symm.trans hkey)

/-- The node a thread holds is as before, and still unlinked. -/
def KeepsMine (m m' : Memory h V) (c' : Chains h) (pc : Pc K V) : Prop :=
  ∀ a, pc.mine = some a → m'.nodes a = m.nodes a ∧ ∀ b, a ∉ c' b

/-- What a thread knows survives the growth of the chains. -/
theorem PcOk.stable {m m' : Memory h V} {c c' : Chains h} {allocator : HeapID} {pc : Pc K V}
    (hpc : PcOk m c allocator pc) (hg : Grows m c m' c') (hm : KeepsMine m m' c' pc) :
    PcOk m' c' allocator pc := by
  have howned : ∀ {key value a}, pc.mine = some a → Owned m c allocator key value a →
      Owned m' c' allocator key value a := fun ha ho =>
    ⟨(hm _ ha).1.trans ho.node, (hm _ ha).2⟩
  cases pc with
  | idle => trivial
  | get key p =>
    cases p with
    | loadHead => trivial
    | visit node => exact (hg.cursor hpc).1
    | loadValue node =>
      obtain ⟨hcur, hkey⟩ := hpc
      exact ⟨(hg.cursor hcur).1, (hg.cursor hcur).2.trans hkey⟩
    | countFailed => trivial
  | set key value p =>
    cases p with
    | createNode => trivial
    | casHead mine => exact howned rfl hpc
    | visit mine node => exact ⟨howned rfl hpc.1, (hg.cursor hpc.2).1⟩
    | storeValue mine node ptrValue =>
      obtain ⟨ho, hv, hcur, hkey⟩ := hpc
      exact ⟨howned rfl ho, hv, (hg.cursor hcur).1, (hg.cursor hcur).2.trans hkey⟩
    | destroy mine => exact howned rfl hpc
  | enumerate seen p =>
    cases p with
    | loadHead bucket => exact hpc.congr (by simp)
    | loadValue bucket node =>
      obtain ⟨pre, hat, hseen⟩ := hpc
      obtain ⟨hat', hkey⟩ := hg.at_ hat
      exact ⟨pre, hat', hseen.congr fun a ha => hkey a (by simp [ha])⟩
    | loadNext bucket node =>
      obtain ⟨pre, hat, hseen⟩ := hpc
      obtain ⟨hat', hkey⟩ := hg.at_ hat
      exact ⟨pre, hat', hseen.congr hkey⟩
  | readStatistics p => trivial
  | returned op res => cases res <;> exact hpc

/-! ## The table under the memory operations -/

namespace TableInv

variable {m m' : Memory h V} {c : Chains h}

theorem node_of_mem (ht : TableInv m c) {b : Fin h.bucketCount} {a : Addr} (ha : a ∈ c b) :
    ∃ node, m.nodes a = some node := by
  obtain ⟨q, hq⟩ := (ht.linked b).next_of_mem ha
  obtain ⟨node, hn, _⟩ := Option.map_eq_some_iff.mp hq
  exact ⟨node, hn⟩

/-- Two buckets share no node. -/
theorem bucket_unique (ht : TableInv m c) {b b' : Fin h.bucketCount} {a : Addr}
    (ha : a ∈ c b) (ha' : a ∈ c b') : b = b' := by
  obtain ⟨node, hn⟩ := ht.node_of_mem ha
  have hk : m.keyOf a = some node.key := by simp [Memory.keyOf, hn]
  exact (ht.home b a ha _ hk).symm.trans (ht.home b' a ha' _ hk)

theorem mem_nodup (ht : TableInv m c) {b : Fin h.bucketCount} {pre post : List Addr} {a : Addr}
    (heq : c b = pre ++ a :: post) : a ∉ pre ∧ a ∉ post := by
  have hn := (ht.linked b).nodup
  rw [heq] at hn
  have hdis := List.nodup_append.mp hn
  exact ⟨fun hm => hdis.2.2 a hm a (by simp) rfl, (List.nodup_cons.mp hdis.2.1).1⟩

/-- The chains stay as they are when the memory keeps the linked keys and next pointers. -/
theorem keep (ht : TableInv m c) (hbuckets : m'.buckets = m.buckets)
    (hnext : ∀ b, ∀ a ∈ c b, m'.nextOf a = m.nextOf a)
    (hkey : ∀ b, ∀ a ∈ c b, m'.keyOf a = m.keyOf a)
    (hbook : ∀ a, m'.blocks a = (m'.nodes a).map (·.allocator)) : TableInv m' c where
  linked b := by
    rw [hbuckets]
    exact (ht.linked b).congr (hnext b)
  home b a ha key hk := ht.home b a ha key ((hkey b a ha).symm.trans hk)
  unique b a ha a' ha' hk := ht.unique b a ha a' ha' (by rwa [← hkey b a ha, ← hkey b a' ha'])
  book := hbook

/-- Linking a node with a new key at the end of its bucket's chain. -/
theorem link (ht : TableInv m c) {key : K} {mine : Addr} (hmine : m.keyOf mine = some key)
    (habsent : ∀ a ∈ c (h.bucketIdx key), m.keyOf a ≠ some key)
    (hlinked : Linked m'.nextOf (m'.buckets (h.bucketIdx key)) (c (h.bucketIdx key) ++ [mine]))
    (hbuckets : ∀ b, b ≠ h.bucketIdx key → m'.buckets b = m.buckets b)
    (hnext : ∀ b, b ≠ h.bucketIdx key → ∀ a ∈ c b, m'.nextOf a = m.nextOf a)
    (hkey : ∀ a, m'.keyOf a = m.keyOf a)
    (hbook : ∀ a, m'.blocks a = (m'.nodes a).map (·.allocator)) :
    TableInv m' (c.link key mine) where
  linked b := by
    by_cases hb : b = h.bucketIdx key
    · subst hb
      rwa [Chains.link, Function.update_self]
    · rw [Chains.link, Function.update_of_ne hb, hbuckets b hb]
      exact (ht.linked b).congr (hnext b hb)
  home b a ha k hk := by
    rw [hkey] at hk
    by_cases hb : b = h.bucketIdx key
    · subst hb
      rw [Chains.link, Function.update_self, List.mem_append, List.mem_singleton] at ha
      rcases ha with ha | rfl
      · exact ht.home _ a ha k hk
      · rw [Option.some.inj (hmine.symm.trans hk)]
    · rw [Chains.link, Function.update_of_ne hb] at ha
      exact ht.home b a ha k hk
  unique b a ha a' ha' hk := by
    rw [hkey, hkey] at hk
    by_cases hb : b = h.bucketIdx key
    · subst hb
      rw [Chains.link, Function.update_self, List.mem_append, List.mem_singleton] at ha ha'
      rcases ha with ha | rfl
      · rcases ha' with ha' | rfl
        · exact ht.unique _ a ha a' ha' hk
        · exact absurd (hk.trans hmine) (habsent a ha)
      · rcases ha' with ha' | rfl
        · exact absurd (hk.symm.trans hmine) (habsent a' ha')
        · rfl
    · rw [Chains.link, Function.update_of_ne hb] at ha ha'
      exact ht.unique b a ha a' ha' hk
  book := hbook

end TableInv

end LockFreeKV.Engine
