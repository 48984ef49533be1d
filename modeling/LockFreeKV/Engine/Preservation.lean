import LockFreeKV.Engine.Invariant

/-!
# Every step keeps the invariant

The steps fall into five groups by what they do to the memory: nothing that the
chains depend on, allocating a node, linking one, storing a value, releasing a
node. `Pc.linked` names the node that a step links, so the chains after a step
are a function of the chains before it.
-/
namespace LockFreeKV.Engine

open LockFreeKV.Lib

variable {K V T : Type} {h : Hashing K}

/-- The key and node that a step links, if it does. -/
def Pc.linked : Pc K V → Act K V → Option (K × Addr)
  | .set key _ (.casHead mine), .casHead true => some (key, mine)
  | .set key _ (.visit mine _), .casNext true => some (key, mine)
  | _, _ => none

/-- The chains after a step. -/
def Chains.after (c : Chains h) (pc : Pc K V) (a : Act K V) : Chains h :=
  match pc.linked a with
  | some (key, mine) => c.link key mine
  | none => c

section Memory

variable {m : Memory h V} {a : Addr} {node : ListNode K V}

theorem Memory.nextOf_of_nodes {m' : Memory h V} (hn : m'.nodes a = m.nodes a) :
    m'.nextOf a = m.nextOf a := by simp [Memory.nextOf, hn]

theorem Memory.keyOf_of_nodes {m' : Memory h V} (hn : m'.nodes a = m.nodes a) :
    m'.keyOf a = m.keyOf a := by simp [Memory.keyOf, hn]

theorem Memory.keyOf_eq (hn : m.nodes a = some node) : m.keyOf a = some node.key := by
  simp [Memory.keyOf, hn]

theorem Memory.nextOf_eq (hn : m.nodes a = some node) : m.nextOf a = some node.next := by
  simp [Memory.nextOf, hn]

/-- Rewriting a node with the same key changes no key. -/
theorem Memory.keyOf_putNode {node' : ListNode K V} (hn : m.nodes a = some node)
    (hk : node'.key = node.key) (x : Addr) : (m.putNode a node').keyOf x = m.keyOf x := by
  by_cases hx : x = a
  · subst hx
    simp [Memory.keyOf, Memory.putNode, hn, hk]
  · simp [Memory.keyOf, Memory.putNode, hx]

/-- Rewriting a node with the same allocator keeps the book. -/
theorem Memory.book_putNode {node' : ListNode K V} (hn : m.nodes a = some node)
    (hal : node'.allocator = node.allocator)
    (hbook : ∀ a, m.blocks a = (m.nodes a).map (·.allocator)) (x : Addr) :
    (m.putNode a node').blocks x = ((m.putNode a node').nodes x).map (·.allocator) := by
  by_cases hx : x = a
  · subst hx
    simp [Memory.putNode, hbook, hn, hal]
  · simp [Memory.putNode, hx, hbook]

end Memory

theorem Cursor.mem {m : Memory h V} {c : Chains h} {key : K} {node : Addr}
    (hc : Cursor m c key node) : node ∈ c (h.bucketIdx key) := by
  obtain ⟨pre, post, heq, _⟩ := hc
  simp [heq]

/-- A walk that compared a node with another key has passed it. -/
theorem passed_snoc {m : Memory h V} {key : K} {pre : List Addr} {node : Addr}
    {nd : ListNode K V} (hpre : ∀ a ∈ pre, m.keyOf a ≠ some key) (hn : m.nodes node = some nd)
    (hk : nd.key ≠ key) : ∀ a ∈ pre ++ [node], m.keyOf a ≠ some key := fun a ha => by
  rcases List.mem_append.mp ha with ha | ha
  · exact hpre a ha
  · rw [List.mem_singleton.mp ha, Memory.keyOf_eq hn]
    simpa using hk

/-- The first node of a bucket starts a walk. -/
theorem TableInv.cursor_head {m : Memory h V} {c : Chains h} (ht : TableInv m c) {key : K}
    {node : Addr} (hp : m.buckets (h.bucketIdx key) = some node) : Cursor m c key node := by
  have hl := ht.linked (h.bucketIdx key)
  rw [hp] at hl
  cases hc : c (h.bucketIdx key) with
  | nil => simp [hc] at hl
  | cons b post =>
    rw [hc] at hl
    exact ⟨[], post, by rw [hc, Option.some.inj hl.1]; rfl, by simp⟩

/-- A walk moves past a node with another key to the node its next pointer names. -/
theorem TableInv.cursor_next {m : Memory h V} {c : Chains h} (ht : TableInv m c) {key : K}
    {node nextNode : Addr} {nd : ListNode K V} (hcur : Cursor m c key node)
    (hn : m.nodes node = some nd) (hk : nd.key ≠ key) (hp : nd.next = some nextNode) :
    Cursor m c key nextNode := by
  obtain ⟨pre, post, heq, hpre⟩ := hcur
  have hl := ht.linked (h.bucketIdx key)
  rw [heq] at hl
  obtain ⟨rest, rfl⟩ := hl.cons_of_next_some (by rw [Memory.nextOf_eq hn, hp])
  exact ⟨pre ++ [node], rest, by simp [heq], passed_snoc hpre hn hk⟩

/-- A walk that finds null behind a node with another key has passed the whole chain. -/
theorem TableInv.cursor_end {m : Memory h V} {c : Chains h} (ht : TableInv m c) {key : K}
    {node : Addr} {nd : ListNode K V} (hcur : Cursor m c key node)
    (hn : m.nodes node = some nd) (hk : nd.key ≠ key) (hp : nd.next = none) :
    ∃ pre, c (h.bucketIdx key) = pre ++ [node] ∧ ∀ a ∈ pre ++ [node], m.keyOf a ≠ some key := by
  obtain ⟨pre, post, heq, hpre⟩ := hcur
  have hl := ht.linked (h.bucketIdx key)
  rw [heq] at hl
  obtain rfl := hl.eq_nil_of_next_none (by rw [Memory.nextOf_eq hn, hp])
  exact ⟨pre, heq, passed_snoc hpre hn hk⟩

theorem TableInv.chain_nil {m : Memory h V} {c : Chains h} (ht : TableInv m c)
    {b : Fin h.bucketCount} (hp : m.buckets b = none) : c b = [] := by
  have hl := ht.linked b
  rw [hp] at hl
  exact hl.unique (Linked.nil_iff.mpr rfl)

/-- A node that a thread holds is on no chain and differs from every linked node. -/
theorem Owned.ne {m : Memory h V} {c : Chains h} {allocator : HeapID} {key : K} {value : V}
    {mine a : Addr} (ho : Owned m c allocator key value mine) {b : Fin h.bucketCount}
    (ha : a ∈ c b) : a ≠ mine := fun heq => ho.unlinked b (heq ▸ ha)

/-! ## `enumerate` along a chain -/

theorem Seen.next_bucket {m : Memory h V} {seen : List (K × V)} {bucket : Nat} {pre : List Addr}
    (hs : Seen m seen bucket pre) : Seen m seen (bucket + 1) [] where
  nodup := hs.nodup
  behind e he := .inl (by rcases hs.behind e he with hlt | ⟨heq, _⟩ <;> omega)
  covers := by simp

/-- Reporting the node under the cursor: its key is new. -/
theorem Seen.report {m : Memory h V} {c : Chains h} (ht : TableInv m c) {seen : List (K × V)}
    {bucket : Nat} {pre : List Addr} {node : Addr} {nd : ListNode K V}
    (hs : Seen m seen bucket pre) (hat : At c bucket pre node) (hn : m.nodes node = some nd) :
    Seen m (seen ++ [(nd.key, nd.ptrValue)]) bucket (pre ++ [node]) := by
  obtain ⟨hb, post, heq⟩ := hat
  have hmem : node ∈ c ⟨bucket, hb⟩ := by simp [heq]
  have hkey := Memory.keyOf_eq hn
  have hhome := ht.home _ node hmem _ hkey
  have hfresh : nd.key ∉ seen.map Prod.fst := by
    intro hm
    obtain ⟨e, he, hfst⟩ := List.mem_map.mp hm
    rcases hs.behind e he with hlt | ⟨_, a, ha, hka⟩
    · rw [hfst, hhome] at hlt
      exact Nat.lt_irrefl _ hlt
    · have hsame := ht.unique ⟨bucket, hb⟩ a (by simp [heq, ha]) node hmem
        (by rw [hka, hkey, hfst])
      exact (ht.mem_nodup heq).1 (hsame ▸ ha)
  refine ⟨?_, ?_, ?_⟩
  · rw [List.map_append]
    exact hs.nodup.append (by simp) (by simpa using hfresh)
  · intro e he
    rcases List.mem_append.mp he with he | he
    · exact (hs.behind e he).imp_right fun ⟨heq', a, ha, hka⟩ =>
        ⟨heq', a, by simp [ha], hka⟩
    · rw [List.mem_singleton.mp he]
      exact .inr ⟨by rw [hhome], node, by simp, hkey⟩
  · intro a ha key hka
    rw [List.map_append, List.mem_append]
    rcases List.mem_append.mp ha with ha | ha
    · exact .inl (hs.covers a ha key hka)
    · rw [List.mem_singleton.mp ha, hkey] at hka
      exact .inr (by simp [Option.some.inj hka])

theorem TableInv.at_head {m : Memory h V} {c : Chains h} (ht : TableInv m c)
    {b : Fin h.bucketCount} {node : Addr} (hp : m.buckets b = some node) : At c b [] node := by
  have hl := ht.linked b
  rw [hp] at hl
  cases hc : c b with
  | nil => simp [hc] at hl
  | cons x post =>
    rw [hc] at hl
    exact ⟨b.isLt, post, by rw [hc, Option.some.inj hl.1]; rfl⟩

theorem TableInv.at_next {m : Memory h V} {c : Chains h} (ht : TableInv m c) {bucket : Nat}
    {pre : List Addr} {node nextNode : Addr} {nd : ListNode K V} (hat : At c bucket pre node)
    (hn : m.nodes node = some nd) (hp : nd.next = some nextNode) :
    At c bucket (pre ++ [node]) nextNode := by
  obtain ⟨hb, post, heq⟩ := hat
  have hl := ht.linked ⟨bucket, hb⟩
  rw [heq] at hl
  obtain ⟨rest, rfl⟩ := hl.cons_of_next_some (by rw [Memory.nextOf_eq hn, hp])
  exact ⟨hb, rest, by simp [heq]⟩

/-! ## One step -/

variable {cfg : Config K T} {s : State cfg V} {c : Chains cfg.toHashing} {t : T}

theorem Inv.unlinked (hi : Inv s c) {a : Addr} (ha : (s.pc t).mine = some a) (b) : a ∉ c b := by
  have hp := hi.pcs t
  cases hpc : s.pc t with
  | set key value p =>
    rw [hpc] at hp ha
    cases p with
    | createNode => cases ha
    | casHead mine => cases ha; exact hp.unlinked b
    | visit mine node => cases ha; exact hp.1.unlinked b
    | storeValue mine node ptrValue => cases ha; exact hp.1.unlinked b
    | destroy mine => cases ha; exact hp.unlinked b
  | _ => simp [hpc, Pc.mine] at ha

variable [DecidableEq T]

/-- The frame of a step: what remains to be shown of the memory and of the stepping thread. -/
theorem Inv.advance (hi : Inv s c) {m' : Memory cfg.toHashing V} {c' : Chains cfg.toHashing}
    {pc' : Pc K V} (htable : TableInv m' c') (hgrows : Grows s.mem c m' c')
    (hpc : PcOk m' c' (cfg.heapId t) pc')
    (hkeep : ∀ t', t' ≠ t → KeepsMine s.mem m' c' (s.pc t'))
    (howner : ∀ a, pc'.mine = some a → (s.pc t).mine = some a ∨ ∀ t', (s.pc t').mine ≠ some a)
    (hheld : ∀ a node, m'.nodes a = some node →
      (∃ b, a ∈ c' b) ∨ pc'.mine = some a ∨ ∃ t', t' ≠ t ∧ (s.pc t').mine = some a) :
    Inv (V := V) ⟨m', Function.update s.pc t pc'⟩ c' where
  table := htable
  pcs t' := by
    by_cases ht : t' = t
    · subst ht
      simpa using hpc
    · simpa [ht] using (hi.pcs t').stable hgrows (hkeep t' ht)
  owner t1 t2 a h1 h2 := by
    -- a node that the step brings into the thread's hands was in nobody's
    have hother : ∀ t', t' ≠ t → (s.pc t').mine = some a → pc'.mine ≠ some a := by
      intro t' ht' hm hp
      rcases howner a hp with hold | hnone
      · exact ht' (hi.owner t' t a hm hold)
      · exact hnone t' hm
    by_cases ht1 : t1 = t <;> by_cases ht2 : t2 = t
    · exact ht1.trans ht2.symm
    · subst ht1
      simp only [Function.update_self, Function.update_of_ne ht2] at h1 h2
      exact absurd h1 (hother t2 ht2 h2)
    · subst ht2
      simp only [Function.update_self, Function.update_of_ne ht1] at h1 h2
      exact absurd h2 (hother t1 ht1 h1)
    · simp only [Function.update_of_ne ht1, Function.update_of_ne ht2] at h1 h2
      exact hi.owner t1 t2 a h1 h2
  held a node hn := by
    rcases hheld a node hn with hl | hp | ⟨t', ht', hm⟩
    · exact .inl hl
    · exact .inr ⟨t, by simpa using hp⟩
    · exact .inr ⟨t', by simpa [ht'] using hm⟩

/-- Steps that leave nodes, buckets and the book alone. -/
theorem Inv.read (hi : Inv s c) {m' : Memory cfg.toHashing V} {pc' : Pc K V}
    (hnodes : m'.nodes = s.mem.nodes) (hbuckets : m'.buckets = s.mem.buckets)
    (hblocks : m'.blocks = s.mem.blocks) (hmine : pc'.mine = (s.pc t).mine)
    (hpc : PcOk s.mem c (cfg.heapId t) pc') :
    Inv (V := V) ⟨m', Function.update s.pc t pc'⟩ c := by
  have hg : Grows s.mem c m' c :=
    ⟨fun _ => List.prefix_rfl, fun _ a _ => Memory.keyOf_of_nodes (congrFun hnodes a)⟩
  have hkeep : ∀ pc : Pc K V, (∃ t', pc.mine = (s.pc t').mine) → KeepsMine s.mem m' c pc := by
    rintro pc ⟨t', hm⟩ a ha
    exact ⟨congrFun hnodes a, hi.unlinked (hm ▸ ha)⟩
  refine hi.advance ?_ hg (hpc.stable hg (hkeep pc' ⟨t, hmine⟩)) (fun t' _ => hkeep _ ⟨t', rfl⟩) ?_ ?_
  · exact hi.table.keep hbuckets (fun _ a _ => Memory.nextOf_of_nodes (congrFun hnodes a)) hg.key
      (by simpa [hnodes, hblocks] using hi.table.book)
  · exact fun a ha => .inl (hmine ▸ ha)
  · intro a node hn
    rw [hnodes] at hn
    rcases hi.held a node hn with hl | ⟨t', hm⟩
    · exact .inl hl
    · by_cases ht : t' = t
      · exact .inr (.inl (by rw [hmine, ← ht, hm]))
      · exact .inr (.inr ⟨t', ht, hm⟩)

/-- Allocating a node at an address that is not allocated. -/
theorem Inv.allocate (hi : Inv s c) {a : Addr} {node : ListNode K V} {pc' : Pc K V}
    {heap : HeapID} (hheap : node.allocator = heap)
    (hfree : s.mem.blocks a = none) (hnone : (s.pc t).mine = none) (hmine : pc'.mine = some a)
    (hpc : (∀ b, a ∉ c b) → PcOk (s.mem.allocate heap a node) c (cfg.heapId t) pc') :
    Inv (V := V) ⟨s.mem.allocate heap a node, Function.update s.pc t pc'⟩ c := by
  have hempty : s.mem.nodes a = none := by
    have hb := hi.table.book a
    rw [hfree] at hb
    exact Option.map_eq_none_iff.mp hb.symm
  have hfresh : ∀ b, a ∉ c b := fun b hm => by
    obtain ⟨nd, hn⟩ := hi.table.node_of_mem hm
    exact absurd (hempty.symm.trans hn) (by simp)
  have hsame : ∀ x, x ≠ a → (s.mem.allocate heap a node).nodes x = s.mem.nodes x := fun x hx => by
    simp [Memory.allocate, hx]
  have hlinked : ∀ b, ∀ x ∈ c b, (s.mem.allocate heap a node).nodes x = s.mem.nodes x :=
    fun b x hx => hsame x fun heq => hfresh b (heq ▸ hx)
  have hnobody : ∀ t', (s.pc t').mine ≠ some a := by
    intro t' hm
    have hp := hi.pcs t'
    cases hpc : s.pc t' with
    | set key value p =>
      rw [hpc] at hp hm
      have howned : ∀ mine, some mine = some a → Owned s.mem c (cfg.heapId t') key value mine →
          False := fun mine heq ho => by
        rw [Option.some.inj heq] at ho
        exact absurd (hempty.symm.trans ho.node) (by simp)
      cases p with
      | createNode => cases hm
      | casHead mine => exact howned mine hm hp
      | visit mine node => exact howned mine hm hp.1
      | storeValue mine node ptrValue => exact howned mine hm hp.1
      | destroy mine => exact howned mine hm hp
    | _ => simp [hpc, Pc.mine] at hm
  refine hi.advance ?_ ⟨fun _ => List.prefix_rfl, fun b x hx =>
    Memory.keyOf_of_nodes (hlinked b x hx)⟩ (hpc hfresh) ?_ ?_ ?_
  · refine hi.table.keep rfl (fun b x hx => Memory.nextOf_of_nodes (hlinked b x hx))
      (fun b x hx => Memory.keyOf_of_nodes (hlinked b x hx)) fun x => ?_
    by_cases hx : x = a
    · subst hx
      simp [Memory.allocate, hheap]
    · simp [Memory.allocate, hx, hi.table.book x]
  · intro t' _ x hm
    exact ⟨hsame x fun heq => hnobody t' (heq ▸ hm), hi.unlinked hm⟩
  · intro x hx
    rw [hmine] at hx
    exact .inr fun t' hm => hnobody t' (hm.trans hx.symm)
  · intro x nd hn
    by_cases hx : x = a
    · exact .inr (.inl (by rw [hmine, hx]))
    · rw [hsame x hx] at hn
      rcases hi.held x nd hn with hl | ⟨t', hm⟩
      · exact .inl hl
      · exact .inr (.inr ⟨t', fun ht => by simp [ht, hnone] at hm, hm⟩)

/-- Linking the thread's node behind a chain without its key. `m'` differs from the
memory before only in the pointer that was null. -/
theorem Inv.link (hi : Inv s c) {key : K} {value : V} {mine : Addr}
    {m' : Memory cfg.toHashing V} {op : Op K V} {res : KvRes V}
    (hmine : (s.pc t).mine = some mine) (ho : Owned s.mem c (cfg.heapId t) key value mine)
    (habsent : ∀ a ∈ c (cfg.bucketIdx key), s.mem.keyOf a ≠ some key)
    (hlinked : Linked m'.nextOf (m'.buckets (cfg.bucketIdx key)) (c (cfg.bucketIdx key) ++ [mine]))
    (hbuckets : ∀ b, b ≠ cfg.bucketIdx key → m'.buckets b = s.mem.buckets b)
    (hnodes : ∀ a, a ∉ c (cfg.bucketIdx key) → m'.nodes a = s.mem.nodes a)
    (hkey : ∀ a, m'.keyOf a = s.mem.keyOf a)
    (hbook : ∀ a, m'.blocks a = (m'.nodes a).map (·.allocator)) :
    Inv (V := V) ⟨m', Function.update s.pc t (.returned op (.kv res))⟩ (c.link key mine) := by
  have hother : ∀ b, b ≠ cfg.bucketIdx key → ∀ a ∈ c b, a ∉ c (cfg.bucketIdx key) :=
    fun b hb a ha ha' => hb (hi.table.bucket_unique ha ha')
  have hsub : ∀ b a, a ∈ c.link key mine b → a ∈ c b ∨ a = mine := by
    intro b a ha
    by_cases hb : b = cfg.bucketIdx key
    · subst hb
      simpa [Chains.link] using ha
    · rw [Chains.link, Function.update_of_ne hb] at ha
      exact .inl ha
  have hg : Grows s.mem c m' (c.link key mine) := by
    refine ⟨fun b => ?_, fun _ a _ => hkey a⟩
    by_cases hb : b = cfg.bucketIdx key
    · subst hb
      simp [Chains.link]
    · simp [Chains.link, hb]
  refine hi.advance ?_ hg trivial ?_ (by simp [Pc.mine]) ?_
  · exact hi.table.link (Memory.keyOf_eq ho.node) habsent hlinked hbuckets
      (fun b hb a ha => Memory.nextOf_of_nodes (hnodes a (hother b hb a ha))) hkey hbook
  · intro t' ht' a hm
    refine ⟨hnodes a (hi.unlinked hm _), fun b ha => ?_⟩
    rcases hsub b a ha with ha | rfl
    · exact hi.unlinked hm b ha
    · exact ht' (hi.owner t' t a hm hmine)
  · intro a node hn
    by_cases ha : a = mine
    · exact .inl ⟨cfg.bucketIdx key, by simp [Chains.link, ha]⟩
    · by_cases hm : a ∈ c (cfg.bucketIdx key)
      · exact .inl ⟨_, hg.mem hm⟩
      · rw [hnodes a hm] at hn
        rcases hi.held a node hn with ⟨b, hl⟩ | ⟨t', hm'⟩
        · exact .inl ⟨b, hg.mem hl⟩
        · refine .inr (.inr ⟨t', fun ht => ha ?_, hm'⟩)
          rw [ht, hmine] at hm'
          exact (Option.some.inj hm').symm

/-- Storing a value in a linked node. -/
theorem Inv.store (hi : Inv s c) {b : Fin cfg.bucketCount} {node : Addr} {nd : ListNode K V}
    {ptrValue : V} {pc' : Pc K V} (hn : s.mem.nodes node = some nd) (hmem : node ∈ c b)
    (hmine : pc'.mine = (s.pc t).mine) (hpc : PcOk s.mem c (cfg.heapId t) pc') :
    Inv (V := V)
      ⟨s.mem.putNode node { nd with ptrValue := ptrValue }, Function.update s.pc t pc'⟩ c := by
  have hkey : ∀ a, (s.mem.putNode node { nd with ptrValue := ptrValue }).keyOf a =
      s.mem.keyOf a := Memory.keyOf_putNode hn rfl
  have hg : Grows s.mem c (s.mem.putNode node { nd with ptrValue := ptrValue }) c :=
    ⟨fun _ => List.prefix_rfl, fun _ a _ => hkey a⟩
  have hkeep : ∀ pc : Pc K V, (∃ t', pc.mine = (s.pc t').mine) →
      KeepsMine s.mem (s.mem.putNode node { nd with ptrValue := ptrValue }) c pc := by
    rintro pc ⟨t', hm⟩ a ha
    have hun : ∀ b, a ∉ c b := hi.unlinked (hm ▸ ha)
    have hne : a ≠ node := fun heq => hun b (heq ▸ hmem)
    exact ⟨by simp [Memory.putNode, hne], hun⟩
  refine hi.advance ?_ hg (hpc.stable hg (hkeep pc' ⟨t, hmine⟩)) (fun t' _ => hkeep _ ⟨t', rfl⟩)
    (fun a ha => .inl (hmine ▸ ha)) ?_
  · refine hi.table.keep rfl (fun _ a _ => ?_) hg.key
      (Memory.book_putNode hn rfl hi.table.book)
    by_cases ha : a = node
    · subst ha
      simp [Memory.nextOf, Memory.putNode, hn]
    · simp [Memory.nextOf, Memory.putNode, ha]
  · intro a node' hn'
    by_cases ha : a = node
    · exact .inl ⟨b, ha ▸ hmem⟩
    · have hold : s.mem.nodes a = some node' := by simpa [Memory.putNode, ha] using hn'
      rcases hi.held a node' hold with hl | ⟨t', hm⟩
      · exact .inl hl
      · by_cases ht : t' = t
        · exact .inr (.inl (by rw [hmine, ← ht, hm]))
        · exact .inr (.inr ⟨t', ht, hm⟩)

/-- Releasing the node the thread holds. -/
theorem Inv.release (hi : Inv s c) {mine : Addr} {op : Op K V} {res : KvRes V}
    (hmine : (s.pc t).mine = some mine) :
    Inv (V := V) ⟨s.mem.release mine, Function.update s.pc t (.returned op (.kv res))⟩ c := by
  have hsame : ∀ a, a ≠ mine → (s.mem.release mine).nodes a = s.mem.nodes a := fun a ha => by
    simp [Memory.release, ha]
  have hlinked : ∀ b, ∀ a ∈ c b, (s.mem.release mine).nodes a = s.mem.nodes a :=
    fun b a ha => hsame a fun heq => hi.unlinked hmine b (heq ▸ ha)
  refine hi.advance ?_ ⟨fun _ => List.prefix_rfl, fun b a ha =>
    Memory.keyOf_of_nodes (hlinked b a ha)⟩ trivial ?_ (by simp [Pc.mine]) ?_
  · refine hi.table.keep rfl (fun b a ha => Memory.nextOf_of_nodes (hlinked b a ha))
      (fun b a ha => Memory.keyOf_of_nodes (hlinked b a ha)) fun a => ?_
    by_cases ha : a = mine
    · subst ha
      simp [Memory.release]
    · simp [Memory.release, ha, hi.table.book a]
  · intro t' ht' a hm
    exact ⟨hsame a fun heq => ht' (hi.owner t' t a hm (heq ▸ hmine)), hi.unlinked hm⟩
  · intro a node hn
    have ha : a ≠ mine := fun heq => by simp [Memory.release, heq] at hn
    rw [hsame a ha] at hn
    rcases hi.held a node hn with hl | ⟨t', hm⟩
    · exact .inl hl
    · refine .inr (.inr ⟨t', fun ht => ha ?_, hm⟩)
      rw [ht, hmine] at hm
      exact (Option.some.inj hm).symm

/-- A call's first program counter knows nothing. -/
theorem pcOk_start (m : Memory h V) (c : Chains h) (allocator : HeapID) (op : Op K V) :
    PcOk m c allocator op.start := by
  cases op with
  | kv op => cases op <;> trivial
  | enumerate => exact ⟨List.nodup_nil, by simp, by simp⟩
  | readStatistics => trivial

theorem Op.start_mine (op : Op K V) : op.start.mine = none := by
  cases op with
  | kv op => cases op <;> rfl
  | _ => rfl

/-- An atomic step inside a call keeps the invariant. -/
theorem Inv.atomic [DecidableEq K] (hi : Inv s c) {a : Act K V} {m' : Memory cfg.toHashing V}
    {pc' : Pc K V} (hs : Advance s.mem (cfg.heapId t) (s.pc t) a m' pc') :
    Inv (V := V) ⟨m', Function.update s.pc t pc'⟩ (c.after (s.pc t) a) := by
  have hpc := hi.pcs t
  generalize hp : s.pc t = pc at hs hpc
  cases hs with
  | createNode hfree =>
    exact hi.allocate rfl hfree (by rw [hp]; rfl) rfl fun hfresh =>
      ⟨by simp [Memory.allocate], hfresh⟩
  | @headWon key value mine hnull =>
    have hnil := hi.table.chain_nil hnull
    refine hi.link (by rw [hp]; rfl) hpc (by simp [hnil]) ?_ (fun b hb => ?_) (fun _ _ => rfl)
      (fun _ => rfl) hi.table.book
    · simp [hnil, Memory.putHead, Memory.nextOf, hpc.node]
    · simp [Memory.putHead, hb]
  | headLost hsome =>
    exact hi.read rfl rfl rfl (by rw [hp]; rfl) ⟨hpc, hi.table.cursor_head hsome⟩
  | loadMine hn hk ho =>
    obtain ⟨howned, hcur⟩ := hpc
    refine hi.read rfl rfl rfl (by rw [hp]; rfl) ⟨howned, ?_, hcur, by rw [Memory.keyOf_eq hn, hk]⟩
    rw [howned.node] at ho
    rw [← Option.some.inj ho]
  | @nextWon key value mine node nd hn hk hnull =>
    obtain ⟨howned, hcur⟩ := hpc
    obtain ⟨pre, heq, habsent⟩ := hi.table.cursor_end hcur hn hk hnull
    have hmem := hcur.mem
    have hne : node ≠ mine := howned.ne hmem
    refine hi.link (by rw [hp]; rfl) howned (by rwa [heq]) ?_ (fun _ _ => rfl) (fun a ha => ?_)
      (Memory.keyOf_putNode hn rfl) (Memory.book_putNode hn rfl hi.table.book)
    · have hl := hi.table.linked (cfg.bucketIdx key)
      rw [heq] at hl ⊢
      refine hl.extend ?_ ?_ fun a ha => Memory.nextOf_of_nodes ?_
      · simp [Memory.nextOf, Memory.putNode]
      · simp [Memory.nextOf, Memory.putNode, hne.symm, howned.node]
      · have ha' : a ≠ node := fun hx => (hi.table.mem_nodup heq).1 (hx ▸ ha)
        simp [Memory.putNode, ha']
    · have ha' : a ≠ node := fun hx => ha (hx ▸ hmem)
      simp [Memory.putNode, ha']
  | nextLost hn hk hnext =>
    exact hi.read rfl rfl rfl (by rw [hp]; rfl) ⟨hpc.1, hi.table.cursor_next hpc.2 hn hk hnext⟩
  | storeValue hn =>
    exact hi.store hn hpc.2.2.1.mem (by rw [hp]; rfl) hpc.1
  | destroy ho hb => exact hi.release (by rw [hp]; rfl)
  | getHeadNull => exact hi.read rfl rfl rfl (by rw [hp]; rfl) trivial
  | getHead hsome => exact hi.read rfl rfl rfl (by rw [hp]; rfl) (hi.table.cursor_head hsome)
  | getHit hn hk =>
    exact hi.read rfl rfl rfl (by rw [hp]; rfl) ⟨hpc, by rw [Memory.keyOf_eq hn, hk]⟩
  | getNextNull => exact hi.read rfl rfl rfl (by rw [hp]; rfl) trivial
  | getNext hn hk hnext =>
    exact hi.read rfl rfl rfl (by rw [hp]; rfl) (hi.table.cursor_next hpc hn hk hnext)
  | getValue => exact hi.read rfl rfl rfl (by rw [hp]; rfl) trivial
  | getFailed => exact hi.read rfl rfl rfl (by rw [hp]; rfl) trivial
  | enumerateHeadNull => exact hi.read rfl rfl rfl (by rw [hp]; rfl) hpc.next_bucket
  | enumerateHead hsome =>
    exact hi.read rfl rfl rfl (by rw [hp]; rfl) ⟨[], hi.table.at_head hsome, hpc⟩
  | enumerateEnd => exact hi.read rfl rfl rfl (by rw [hp]; rfl) hpc.nodup
  | enumerateValue hn =>
    obtain ⟨pre, hat, hseen⟩ := hpc
    exact hi.read rfl rfl rfl (by rw [hp]; rfl) ⟨pre, hat, hseen.report hi.table hat hn⟩
  | enumerateNextNull =>
    obtain ⟨pre, hat, hseen⟩ := hpc
    exact hi.read rfl rfl rfl (by rw [hp]; rfl) hseen.next_bucket
  | @enumerateNext seen bucket node nextNode nd hn hnext =>
    obtain ⟨pre, hat, hseen⟩ := hpc
    exact hi.read rfl rfl rfl (by rw [hp]; rfl) ⟨pre ++ [node], hi.table.at_next hat hn hnext, hseen⟩
  | readSuccess => exact hi.read rfl rfl rfl (by rw [hp]; rfl) trivial
  | readFailed => exact hi.read rfl rfl rfl (by rw [hp]; rfl) trivial

/-- **Every step keeps the invariant.** -/
theorem Inv.step [DecidableEq K] {s' : State cfg V} {e : Event T K V} (hi : Inv s c)
    (hs : s.Step e s') : Inv s' (c.after (s.pc e.1) e.2) := by
  obtain ⟨t, op, hpc, rfl, rfl⟩ | ⟨t, op, res, hpc, rfl, rfl⟩ | ⟨t, a, m', pc', ha, rfl, rfl⟩ :=
    State.step_cases hs
  · rw [hpc]
    exact hi.read rfl rfl rfl (by rw [hpc, op.start_mine]; rfl) (pcOk_start ..)
  · rw [hpc]
    exact hi.read rfl rfl rfl (by rw [hpc]; rfl) trivial
  · exact hi.atomic ha

omit [DecidableEq T] in
/-- No node and no call: the invariant of the fresh engine. -/
theorem Inv.init (cfg : Config K T) (V : Type) : Inv (State.init cfg V) fun _ => [] where
  table := by
    refine ⟨fun _ => rfl, by simp, by simp, fun _ => rfl⟩
  pcs _ := trivial
  owner _ _ _ h := by simp [State.init, Pc.mine] at h
  held _ _ h := by simp [State.init, Memory.new] at h

omit [DecidableEq T] in
theorem Chains.after_grows (c : Chains h) (pc : Pc K V) (a : Act K V) (b : Fin h.bucketCount) :
    c b <+: c.after pc a b := by
  unfold Chains.after
  cases pc.linked a with
  | none => exact List.prefix_rfl
  | some r =>
    by_cases hb : b = h.bucketIdx r.1
    · subst hb
      simp [Chains.link]
    · simp [Chains.link, hb]

omit [DecidableEq T] in
/-- An atomic step keeps the key of every linked node. -/
theorem Inv.grows_atomic [DecidableEq K] (hi : Inv s c) {a : Act K V}
    {m' : Memory cfg.toHashing V} {pc' : Pc K V}
    (hs : Advance s.mem (cfg.heapId t) (s.pc t) a m' pc') :
    Grows s.mem c m' (c.after (s.pc t) a) := by
  refine ⟨fun b => Chains.after_grows c _ _ b, fun b x hx => ?_⟩
  have hun : ∀ a, (s.pc t).mine = some a → ∀ b, a ∉ c b := fun a ha => hi.unlinked ha
  generalize s.pc t = pc at hs hun
  cases hs with
  | @createNode key value a hfree =>
    have hx' : x ≠ a := fun heq => by
      obtain ⟨node, hn⟩ := hi.table.node_of_mem (heq ▸ hx)
      have hb := hi.table.book a
      simp [hfree, hn] at hb
    exact Memory.keyOf_of_nodes (by simp [Memory.allocate, hx'])
  | nextWon hn => exact Memory.keyOf_putNode hn (by rfl) x
  | storeValue hn => exact Memory.keyOf_putNode hn (by rfl) x
  | @destroy key value mine own ho hb =>
    have hx' : x ≠ mine := fun heq => hun mine rfl b (heq ▸ hx)
    exact Memory.keyOf_of_nodes (by simp [Memory.release, hx'])
  | _ => rfl

theorem Inv.grows [DecidableEq K] {s' : State cfg V} {e : Event T K V} (hi : Inv s c)
    (hs : s.Step e s') : Grows s.mem c s'.mem (c.after (s.pc e.1) e.2) := by
  obtain ⟨t, op, hpc, rfl, rfl⟩ | ⟨t, op, res, hpc, rfl, rfl⟩ | ⟨t, a, m', pc', ha, rfl, rfl⟩ :=
    State.step_cases hs
  · rw [hpc]
    exact .refl _ _
  · rw [hpc]
    exact .refl _ _
  · exact hi.grows_atomic ha

/-- Along a run the invariant holds and the chains grow. -/
theorem Inv.run [DecidableEq K] {s' : State cfg V} {es : List (Event T K V)} (hi : Inv s c)
    (hrun : Run State.Step s es s') : ∃ c', Inv s' c' ∧ Grows s.mem c s'.mem c' :=
  hrun.invariant (fun _ m => ∃ c', Inv m c' ∧ Grows s.mem c m.mem c') ⟨c, hi, .refl _ _⟩
    fun _ _ _ _ ⟨_, hi', hg⟩ hs => ⟨_, hi'.step hs, hg.trans (hi'.grows hs)⟩

/-- Every reachable state satisfies the invariant. -/
theorem inv_of_run [DecidableEq K] {es : List (Event T K V)}
    (hrun : Run State.Step (State.init cfg V) es s) : ∃ c, Inv s c := by
  obtain ⟨c, hi, _⟩ := (Inv.init cfg V).run hrun
  exact ⟨c, hi⟩

end LockFreeKV.Engine
