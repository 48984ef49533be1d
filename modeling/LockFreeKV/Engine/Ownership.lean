import LockFreeKV.Engine.Representation
import Mathlib.Data.Finset.Lattice.Fold
import Mathlib.Data.Fintype.Basic

/-!
# Who owns which node

The allocator's book says which blocks are live. In every reachable state a live
block is either at one position of one chain or in the hands of one `set`, and
what a cursor points to is linked. The destructor is the member function itself:
freeing a block that is not live, or through another handle than it was allocated
with, has no result, so that it has one is already part of the statement.
-/
namespace LockFreeKV.Engine

open LockFreeKV.Lib

variable {K V T : Type} {h : Hashing K}

/-- The node a call stands on. -/
def Pc.cursor : Pc K V → Option Addr
  | .get _ (.visit node) => some node
  | .get _ (.loadValue node) => some node
  | .set _ _ (.visit _ node) => some node
  | .set _ _ (.storeValue _ node _) => some node
  | .enumerate _ (.loadValue _ node) => some node
  | .enumerate _ (.loadNext _ node) => some node
  | _ => none

/-- No call is running in the thread: it is idle or about to see its call return. -/
def Pc.finished : Pc K V → Bool
  | .idle => true
  | .returned _ _ => true
  | _ => false

namespace Memory

/-- The inner loop of `~DataEngine`: load the next pointer, then delete the node. Every
release is recorded with the handle it went through. -/
def deleteChain : Nat → Memory h V → Option Addr → Option (Memory h V × List (Addr × HeapID))
  | _, m, none => some (m, [])
  | 0, _, some _ => none
  | fuel + 1, m, some current =>
    match m.nodes current with
    | none => none
    | some node =>
      match m.deleteSelf current with
      | none => none
      | some m' =>
        (deleteChain fuel m' node.next).map fun r => (r.1, (current, node.allocator) :: r.2)

/-- The outer loop. -/
def deleteBuckets (fuel : Nat) :
    Memory h V → List (Fin h.bucketCount) → Option (Memory h V × List (Addr × HeapID))
  | m, [] => some (m, [])
  | m, b :: bs =>
    match deleteChain fuel m (m.buckets b) with
    | none => none
    | some (m', released) =>
      (deleteBuckets fuel m' bs).map fun r => (r.1, released ++ r.2)

/-- `~DataEngine`. -/
def destroy (fuel : Nat) (m : Memory h V) : Option (Memory h V × List (Addr × HeapID)) :=
  m.deleteBuckets fuel (List.finRange h.bucketCount)

/-- The memory without the nodes of a list. -/
structure Without (m : Memory h V) (l : List Addr) (m' : Memory h V) : Prop where
  gone : ∀ a ∈ l, m'.nodes a = none ∧ m'.blocks a = none
  rest : ∀ a, a ∉ l → m'.nodes a = m.nodes a ∧ m'.blocks a = m.blocks a
  buckets : m'.buckets = m.buckets

theorem Without.nil (m : Memory h V) : m.Without [] m := ⟨by simp, fun _ _ => ⟨rfl, rfl⟩, rfl⟩

theorem Without.append {m m' m'' : Memory h V} {l l' : List Addr} (h1 : m.Without l m')
    (h2 : m'.Without l' m'') : m.Without (l ++ l') m'' where
  gone a ha := by
    by_cases hl' : a ∈ l'
    · exact h2.gone a hl'
    · have hl : a ∈ l := (List.mem_append.mp ha).resolve_right hl'
      exact ⟨(h2.rest a hl').1.trans (h1.gone a hl).1, (h2.rest a hl').2.trans (h1.gone a hl).2⟩
  rest a ha := by
    simp only [List.mem_append, not_or] at ha
    exact ⟨(h2.rest a ha.2).1.trans (h1.rest a ha.1).1, (h2.rest a ha.2).2.trans (h1.rest a ha.1).2⟩
  buckets := h2.buckets.trans h1.buckets

theorem without_release (m : Memory h V) (a : Addr) : m.Without [a] (m.release a) where
  gone b hb := by simp [release, List.mem_singleton.mp hb]
  rest b hb := by simp [release, List.mem_singleton.not.mp hb]
  buckets := rfl

/-- The inner loop releases the nodes of the chain, first to last, each through the handle
in the allocator's book. -/
theorem deleteChain_linked {m : Memory h V} {p : Option Addr} {l : List Addr}
    (hl : Linked m.nextOf p l) (hbook : ∀ a ∈ l, m.blocks a = (m.nodes a).map (·.allocator))
    {fuel : Nat} (hfuel : l.length ≤ fuel) :
    ∃ m' released, deleteChain fuel m p = some (m', released) ∧ released.map Prod.fst = l ∧
      (∀ r ∈ released, m.blocks r.1 = some r.2) ∧ m.Without l m' := by
  induction l generalizing m p fuel with
  | nil =>
    obtain rfl := Linked.nil_iff.mp hl
    exact ⟨m, [], by simp [deleteChain], rfl, by simp, .nil m⟩
  | cons a l ih =>
    have hnodup := hl.nodup
    obtain ⟨rfl, q, hq, hrest⟩ := hl
    obtain ⟨node, hn, rfl⟩ := Option.map_eq_some_iff.mp hq
    have hb : m.blocks a = some node.allocator := by rw [hbook a (by simp), hn]; rfl
    have hdel : m.deleteSelf a = some (m.release a) := by simp [deleteSelf, hn, hb]
    -- the rest of the chain does not meet `a` again, so the release leaves it alone
    have hne : ∀ x ∈ l, x ≠ a := fun x hx heq => (List.nodup_cons.mp hnodup).1 (heq ▸ hx)
    have hsame : ∀ x ∈ l, (m.release a).nodes x = m.nodes x ∧ (m.release a).blocks x = m.blocks x :=
      fun x hx => (without_release m a).rest x (by simpa using hne x hx)
    obtain ⟨fuel, rfl⟩ : ∃ k, fuel = k + 1 := ⟨fuel - 1, by simp at hfuel; omega⟩
    have hrest' : Linked (m.release a).nextOf node.next l :=
      hrest.congr fun x hx => by simp [nextOf, (hsame x hx).1]
    obtain ⟨m', released, hrun, hfst, hheap, hwithout⟩ := ih hrest'
      (fun x hx => by rw [(hsame x hx).1, (hsame x hx).2, hbook x (by simp [hx])])
      (Nat.le_of_succ_le_succ hfuel)
    refine ⟨m', (a, node.allocator) :: released, ?_, by simp [hfst], ?_,
      (without_release m a).append hwithout⟩
    · simp [deleteChain, hn, hdel, hrun]
    · intro r hr
      rcases List.mem_cons.mp hr with rfl | hr
      · exact hb
      · have hmem : r.1 ∈ l := hfst ▸ List.mem_map_of_mem hr
        rw [← (hsame _ hmem).2]
        exact hheap r hr

/-- The outer loop releases the chains of the buckets it is given, bucket by bucket. -/
theorem deleteBuckets_linked {m : Memory h V} {c : Chains h} (bs : List (Fin h.bucketCount))
    (hbs : bs.Nodup) (hl : ∀ b ∈ bs, Linked m.nextOf (m.buckets b) (c b))
    (hdis : ∀ b ∈ bs, ∀ b' ∈ bs, ∀ a, a ∈ c b → a ∈ c b' → b = b')
    (hbook : ∀ b ∈ bs, ∀ a ∈ c b, m.blocks a = (m.nodes a).map (·.allocator))
    {fuel : Nat} (hfuel : ∀ b ∈ bs, (c b).length ≤ fuel) :
    ∃ m' released, deleteBuckets fuel m bs = some (m', released) ∧
      released.map Prod.fst = bs.flatMap c ∧ (∀ r ∈ released, m.blocks r.1 = some r.2) ∧
      m.Without (bs.flatMap c) m' := by
  induction bs generalizing m with
  | nil => exact ⟨m, [], rfl, rfl, by simp, .nil m⟩
  | cons b bs ih =>
    obtain ⟨hb, hbs'⟩ := List.nodup_cons.mp hbs
    obtain ⟨m1, rel1, hrun1, hfst1, hheap1, hw1⟩ :=
      deleteChain_linked (hl b (by simp)) (hbook b (by simp)) (hfuel b (by simp))
    have hsame : ∀ b' ∈ bs, ∀ a ∈ c b', m1.nodes a = m.nodes a ∧ m1.blocks a = m.blocks a :=
      fun b' hb' a ha => hw1.rest a fun hab =>
        hb (hdis b (by simp) b' (by simp [hb']) a hab ha ▸ hb')
    obtain ⟨m2, rel2, hrun2, hfst2, hheap2, hw2⟩ := @ih m1 hbs'
      (fun b' hb' => by
        rw [hw1.buckets]
        exact (hl b' (by simp [hb'])).congr fun a ha => by simp [nextOf, (hsame b' hb' a ha).1])
      (fun x hx y hy => hdis x (by simp [hx]) y (by simp [hy]))
      (fun b' hb' a ha => by
        rw [(hsame b' hb' a ha).1, (hsame b' hb' a ha).2, hbook b' (by simp [hb']) a ha])
      (fun b' hb' => hfuel b' (by simp [hb']))
    refine ⟨m2, rel1 ++ rel2, by simp [deleteBuckets, hrun1, hrun2], by simp [hfst1, hfst2], ?_,
      hw1.append hw2⟩
    intro r hr
    rcases List.mem_append.mp hr with hr | hr
    · exact hheap1 r hr
    · have hmem : r.1 ∈ bs.flatMap c := hfst2 ▸ List.mem_map_of_mem hr
      obtain ⟨b', hb', ha⟩ := List.mem_flatMap.mp hmem
      rw [← (hsame b' hb' _ ha).2]
      exact hheap2 r hr

end Memory

section Reachable

variable {cfg : Config K T} {s s' : State cfg V} {c : Chains cfg.toHashing} {t : T}

/-- What a cursor points to is linked. -/
theorem Inv.cursor_linked (hi : Inv s c) {a : Addr} (ha : (s.pc t).cursor = some a) :
    ∃ b, a ∈ c b := by
  have hpc := hi.pcs t
  have hat : ∀ {bucket pre node}, At c bucket pre node → node = a → ∃ b, a ∈ c b := by
    rintro bucket pre node ⟨hb, post, heq⟩ rfl
    exact ⟨⟨bucket, hb⟩, by simp [heq]⟩
  cases hp : s.pc t with
  | get key p =>
    rw [hp] at hpc ha
    cases p with
    | visit node => cases ha; exact ⟨_, hpc.mem⟩
    | loadValue node => cases ha; exact ⟨_, hpc.1.mem⟩
    | _ => cases ha
  | set key value p =>
    rw [hp] at hpc ha
    cases p with
    | visit mine node => cases ha; exact ⟨_, hpc.2.mem⟩
    | storeValue mine node ptrValue => cases ha; exact ⟨_, hpc.2.2.1.mem⟩
    | _ => cases ha
  | enumerate seen p =>
    rw [hp] at hpc ha
    cases p with
    | loadHead bucket => cases ha
    | loadValue bucket node => obtain ⟨_, h, _⟩ := hpc; exact hat h (Option.some.inj ha)
    | loadNext bucket node => obtain ⟨_, h, _⟩ := hpc; exact hat h (Option.some.inj ha)
  | _ => simp [hp, Pc.cursor] at ha

/-- A running call is never stuck: it meets no released node, fails no assertion and frees
no block wrongly, whatever free address the allocator offers it. -/
theorem Inv.enabled [DecidableEq K] (hi : Inv s c) (hrunning : (s.pc t).finished = false)
    {fresh : Addr} (hfresh : s.mem.blocks fresh = none) :
    (Engine.advance s.mem (cfg.heapId t) fresh (s.pc t)).isSome := by
  have hpc := hi.pcs t
  have hlive : ∀ a, (s.pc t).cursor = some a → ∃ nd, s.mem.nodes a = some nd := fun a ha => by
    obtain ⟨b, hb⟩ := hi.cursor_linked ha
    exact hi.table.node_of_mem hb
  cases hp : s.pc t with
  | idle => simp [hp, Pc.finished] at hrunning
  | returned op res => simp [hp, Pc.finished] at hrunning
  | get key p =>
    rw [hp] at hlive
    cases p with
    | loadHead => cases hb : s.mem.buckets (cfg.bucketIdx key) <;> simp [Engine.advance, getStep, hb]
    | visit node =>
      obtain ⟨nd, hn⟩ := hlive node rfl
      by_cases hk : nd.key = key
      · simp [Engine.advance, getStep, hn, hk]
      · cases hx : nd.next <;> simp [Engine.advance, getStep, hn, hk, hx]
    | loadValue node =>
      obtain ⟨nd, hn⟩ := hlive node rfl
      simp [Engine.advance, getStep, hn]
    | countFailed => rfl
  | set key value p =>
    rw [hp] at hlive hpc
    cases p with
    | createNode => simp [Engine.advance, setStep, Memory.createNode, hfresh]
    | casHead mine => cases hb : s.mem.buckets (cfg.bucketIdx key) <;> simp [Engine.advance, setStep, hb]
    | visit mine node =>
      obtain ⟨nd, hn⟩ := hlive node rfl
      by_cases hk : nd.key = key
      · simp [Engine.advance, setStep, hn, hk, hpc.1.node]
      · cases hx : nd.next <;> simp [Engine.advance, setStep, hn, hk, hx]
    | storeValue mine node ptrValue =>
      obtain ⟨nd, hn⟩ := hlive node rfl
      simp [Engine.advance, setStep, hn]
    | destroy mine =>
      have hb : s.mem.blocks mine = some (cfg.heapId t) := by
        rw [hi.table.book, hpc.node]
        rfl
      simp [Engine.advance, setStep, Memory.deleteSelf, hpc.node, hb]
  | enumerate seen p =>
    rw [hp] at hlive
    cases p with
    | loadHead bucket =>
      by_cases hb : bucket < cfg.bucketCount
      · cases hx : s.mem.buckets ⟨bucket, hb⟩ <;> simp [Engine.advance, enumerateStep, hb, hx]
      · simp [Engine.advance, enumerateStep, hb]
    | loadValue bucket node =>
      obtain ⟨nd, hn⟩ := hlive node rfl
      simp [Engine.advance, enumerateStep, hn]
    | loadNext bucket node =>
      obtain ⟨nd, hn⟩ := hlive node rfl
      cases hx : nd.next <;> simp [Engine.advance, enumerateStep, hn, hx]
  | readStatistics p => rfl

theorem Inv.live_iff (hi : Inv s c) {a : Addr} :
    s.mem.blocks a ≠ none ↔ ∃ node, s.mem.nodes a = some node := by
  rw [hi.table.book, ne_eq, Option.map_eq_none_iff, Option.eq_none_iff_forall_not_mem]
  simp

theorem Inv.live_of_linked (hi : Inv s c) {b : Fin cfg.bucketCount} {a : Addr} (ha : a ∈ c b) :
    s.mem.blocks a ≠ none := hi.live_iff.mpr (hi.table.node_of_mem ha)

variable [DecidableEq K] [DecidableEq T]

/-- The book keeps the handle of a linked node: later steps neither release nor reuse it. -/
theorem Inv.blocks_step (hi : Inv s c) {e : Event T K V} (hs : s.Step e s')
    {b : Fin cfg.bucketCount} {a : Addr} (ha : a ∈ c b) :
    s'.mem.blocks a = s.mem.blocks a ∧ e ≠ (e.1, .destroy a) := by
  obtain ⟨t, op, hpc, rfl, rfl⟩ | ⟨t, op, res, hpc, rfl, rfl⟩ | ⟨t, x, m', pc', hadv, rfl, rfl⟩ :=
    State.step_cases hs
  · exact ⟨rfl, by simp⟩
  · exact ⟨rfl, by simp⟩
  · have hun : ∀ x, (s.pc t).mine = some x → x ≠ a := fun x hx heq =>
      hi.unlinked hx b (heq ▸ ha)
    generalize s.pc t = pc at hadv hun
    cases hadv with
    | @createNode key value fresh hfree =>
      have hne : a ≠ fresh := fun heq => hi.live_of_linked ha (heq ▸ hfree)
      exact ⟨by simp [Memory.allocate, hne], by simp⟩
    | @destroy key value mine own ho hb =>
      have hne : mine ≠ a := hun mine rfl
      exact ⟨by simp [Memory.release, hne.symm], by simpa using hne⟩
    | _ => exact ⟨rfl, by simp⟩

theorem Inv.blocks_run (hi : Inv s c) {es : List (Event T K V)} (hrun : Run State.Step s es s')
    {b : Fin cfg.bucketCount} {a : Addr} (ha : a ∈ c b) :
    s'.mem.blocks a = s.mem.blocks a ∧ ∀ t, (t, Act.destroy a) ∉ es := by
  have hinv := hrun.invariant (fun es m => (∃ c', Inv m c' ∧ Grows s.mem c m.mem c') ∧
    m.mem.blocks a = s.mem.blocks a ∧ ∀ t, (t, Act.destroy a) ∉ es)
    ⟨⟨c, hi, .refl _ _⟩, rfl, by simp⟩ fun es m e m' ⟨⟨c', hi', hg⟩, hb, hno⟩ hs => by
      obtain ⟨hb', he⟩ := hi'.blocks_step hs (hg.mem ha)
      refine ⟨⟨_, hi'.step hs, hg.trans (hi'.grows hs)⟩, hb'.trans hb, fun t hm => ?_⟩
      rcases List.mem_append.mp hm with hm | hm
      · exact hno t hm
      · obtain rfl := List.mem_singleton.mp hm
        exact he rfl
  exact hinv.2

omit [DecidableEq K] [DecidableEq T] in
/-- Only a running `set` holds a node. -/
theorem Pc.mine_of_finished {pc : Pc K V} (hf : pc.finished = true) : pc.mine = none := by
  cases pc <;> first | rfl | cases hf

/-- The node is number `i` of the bucket's chain. -/
def State.StandsAt (s : State cfg V) (b : Fin cfg.bucketCount) (i : Nat) (a : Addr) : Prop :=
  ∃ l, Linked s.mem.nextOf (s.mem.buckets b) l ∧ l[i]? = some a

omit [DecidableEq K] [DecidableEq T] in
/-- A linked node has one position in the whole array. -/
theorem Inv.standsAt_unique (hi : Inv s c) {b : Fin cfg.bucketCount} {a : Addr} (ha : a ∈ c b) :
    ∃! p : Fin cfg.bucketCount × Nat, s.StandsAt p.1 p.2 a := by
  obtain ⟨i, hget⟩ := List.mem_iff_getElem?.mp ha
  refine ⟨(b, i), ⟨c b, hi.table.linked b, hget⟩, ?_⟩
  rintro ⟨b', j⟩ ⟨l, hl, hget'⟩
  obtain rfl := hl.unique (hi.table.linked b')
  obtain rfl := hi.table.bucket_unique (List.mem_of_getElem? hget') ha
  have hlt : j < (c b').length := (List.getElem?_eq_some_iff.mp hget').1
  rw [(List.getElem?_inj hlt (hi.table.linked b').nodup).mp (hget'.trans hget.symm)]

omit [DecidableEq K] [DecidableEq T] in
/-- A live block is linked at one place and held by nobody, or held by one thread and linked
nowhere. -/
theorem Inv.owned_or_linked (hi : Inv s c) {a : Addr} (hlive : s.mem.blocks a ≠ none) :
    ((∃! p : Fin cfg.bucketCount × Nat, s.StandsAt p.1 p.2 a) ∧ ∀ t, (s.pc t).mine ≠ some a) ∨
    ((∃! t, (s.pc t).mine = some a) ∧ ∀ b, ¬ s.LinkedIn b a) := by
  obtain ⟨node, hn⟩ := hi.live_iff.mp hlive
  by_cases hl : ∃ b, a ∈ c b
  · obtain ⟨b, hb⟩ := hl
    exact .inl ⟨hi.standsAt_unique hb, fun t ht => hi.unlinked ht b hb⟩
  · obtain ⟨t, ht⟩ := (hi.held a node hn).resolve_left hl
    exact .inr ⟨⟨t, ht, fun t' ht' => hi.owner t' t a ht' ht⟩,
      fun b hb => hl ⟨b, hi.linkedIn_iff.mp hb⟩⟩

omit [DecidableEq K] [DecidableEq T] in
/-- When no call is running the live blocks are the linked nodes, and the destructor releases
each of them once, through the handle it was allocated with. -/
theorem Inv.destroy (hi : Inv s c) (hidle : ∀ t, (s.pc t).finished = true) :
    (∀ a, s.mem.blocks a ≠ none ↔ ∃ b, a ∈ c b) ∧
    ∃ n, ∀ fuel, n ≤ fuel → ∃ m released, s.mem.destroy fuel = some (m, released) ∧
      (released.map Prod.fst).Nodup ∧
      (∀ a, a ∈ released.map Prod.fst ↔ s.mem.blocks a ≠ none) ∧
      (∀ r ∈ released, s.mem.blocks r.1 = some r.2) ∧ ∀ a, m.blocks a = none := by
  have hlinked : ∀ a, s.mem.blocks a ≠ none ↔ ∃ b, a ∈ c b := fun a => by
    refine ⟨fun hlive => ?_, fun ⟨b, hb⟩ => hi.live_of_linked hb⟩
    obtain ⟨node, hn⟩ := hi.live_iff.mp hlive
    refine (hi.held a node hn).resolve_right fun ⟨t, ht⟩ => ?_
    rw [Pc.mine_of_finished (hidle t)] at ht
    cases ht
  -- fuel for the longest chain
  refine ⟨hlinked, Finset.univ.sup fun b => (c b).length, fun fuel hfuel => ?_⟩
  obtain ⟨m, released, hrun, hfst, hheap, hwithout⟩ :=
    Memory.deleteBuckets_linked (List.finRange cfg.bucketCount) (List.nodup_finRange _)
      (fun b _ => hi.table.linked b) (fun b _ b' _ a ha ha' => hi.table.bucket_unique ha ha')
      (fun b _ a _ => hi.table.book a)
      (fun b _ => (Finset.le_sup (f := fun b => (c b).length) (Finset.mem_univ b)).trans hfuel)
  have hmem : ∀ a, a ∈ released.map Prod.fst ↔ s.mem.blocks a ≠ none := fun a => by
    rw [hfst, hlinked, List.mem_flatMap]
    simp
  refine ⟨m, released, hrun, ?_, hmem, hheap, fun a => ?_⟩
  · rw [hfst, List.nodup_flatMap]
    refine ⟨fun b _ => (hi.table.linked b).nodup, (List.nodup_finRange _).imp fun {b b'} hne => ?_⟩
    exact fun a ha ha' => hne (hi.table.bucket_unique ha ha')
  · by_cases ha : a ∈ (List.finRange cfg.bucketCount).flatMap c
    · exact (hwithout.gone a ha).2
    · rw [(hwithout.rest a ha).2]
      by_contra hlive
      exact ha (hfst ▸ (hmem a).mpr hlive)

/-- **Ownership is exact**, in every state of every run. A live block is linked at one position
of one chain, or held by one running `set`, never both. A linked node stays allocated, and no
thread destroys it. What a cursor points to is linked and live, and no running call is stuck.
Once all calls are over, the live blocks are the linked nodes, and the destructor releases each
once through the handle in the allocator's book. -/
theorem ownership_exact {es es' : List (Event T K V)}
    (hrun : Run State.Step (State.init cfg V) es s) (hrun' : Run State.Step s es' s') :
    (∀ a, s.mem.blocks a ≠ none →
      ((∃! p : Fin cfg.bucketCount × Nat, s.StandsAt p.1 p.2 a) ∧ ∀ t, (s.pc t).mine ≠ some a) ∨
      ((∃! t, (s.pc t).mine = some a) ∧ ∀ b, ¬ s.LinkedIn b a)) ∧
    (∀ b a, s.LinkedIn b a → s.mem.blocks a ≠ none ∧ s'.mem.blocks a = s.mem.blocks a ∧
      ∀ t, (t, Act.destroy a) ∉ es') ∧
    (∀ t a, (s.pc t).cursor = some a → s.mem.blocks a ≠ none ∧ ∃ b, s.LinkedIn b a) ∧
    (∀ t fresh, (s.pc t).finished = false → s.mem.blocks fresh = none →
      (Engine.advance s.mem (cfg.heapId t) fresh (s.pc t)).isSome) ∧
    ((∀ t, (s.pc t).finished = true) →
      (∀ a, s.mem.blocks a ≠ none ↔ ∃ b, s.LinkedIn b a) ∧
      ∃ n, ∀ fuel, n ≤ fuel → ∃ m released, s.mem.destroy fuel = some (m, released) ∧
        (released.map Prod.fst).Nodup ∧
        (∀ a, a ∈ released.map Prod.fst ↔ s.mem.blocks a ≠ none) ∧
        (∀ r ∈ released, s.mem.blocks r.1 = some r.2) ∧ ∀ a, m.blocks a = none) := by
  obtain ⟨c, hi⟩ := inv_of_run hrun
  refine ⟨fun a hlive => hi.owned_or_linked hlive, ?_, ?_, fun t fresh hr hf => hi.enabled hr hf, ?_⟩
  · intro b a ha
    have hmem := hi.linkedIn_iff.mp ha
    exact ⟨hi.live_of_linked hmem, hi.blocks_run hrun' hmem⟩
  · intro t a ha
    obtain ⟨b, hb⟩ := hi.cursor_linked ha
    exact ⟨hi.live_of_linked hb, b, hi.linkedIn_iff.mpr hb⟩
  · intro hidle
    obtain ⟨hlinked, hdestroy⟩ := hi.destroy hidle
    exact ⟨fun a => (hlinked a).trans (exists_congr fun b => hi.linkedIn_iff.symm), hdestroy⟩

end Reachable

/-- Two `set`s of one new key; the second wins the empty bucket. -/
def loserSchedule : List (Choice Nat Nat Nat) :=
  [.call 0 (.kv (.set 5 10)), .call 1 (.kv (.set 5 20)), .advance 0 100, .advance 1 101,
    .advance 1 0, .advance 0 0, .advance 0 0, .advance 0 0, .advance 0 0]

/-- The loser's node is released at once, the winner's only by the destructor, through the heap
of the thread that created it. -/
theorem ownership_exact_loser : ∃ es s,
    (State.init oneBucket Nat).exec loserSchedule = some (es, s) ∧
    (0, Act.destroy 100) ∈ es ∧ s.mem.blocks 101 = some 1 ∧
    ∃ n, ∀ fuel, n ≤ fuel → ∃ m released, s.mem.destroy fuel = some (m, released) ∧
      (101, 1) ∈ released ∧ ∀ a, m.blocks a = none := by
  have hexec : ((State.init oneBucket Nat).exec loserSchedule).isSome := by decide
  obtain ⟨⟨es, s⟩, hexec⟩ := Option.isSome_iff_exists.mp hexec
  obtain ⟨_, _, _, _, hend⟩ := ownership_exact (State.run_of_exec hexec) .nil
  have hidle : ∀ t, (s.pc t).finished = true := by
    cases hexec
    intro t
    by_cases h0 : t = 0
    · subst h0; rfl
    · by_cases h1 : t = 1
      · subst h1; rfl
      · simp [State.setPc, h0, h1]
        rfl
  have hblock : s.mem.blocks 101 = some 1 := by cases hexec; rfl
  obtain ⟨_, n, hn⟩ := hend hidle
  refine ⟨es, s, hexec, ?_, hblock, n, fun fuel hfuel => ?_⟩
  · cases hexec
    simp
  · obtain ⟨m, released, hrun, _, hmem, hheap, hgone⟩ := hn fuel hfuel
    obtain ⟨r, hr, hfst⟩ := List.mem_map.mp ((hmem 101).mpr (by simp [hblock]))
    have hsnd : r = (101, 1) := by
      have hb := hheap r hr
      rw [hfst, hblock] at hb
      exact Prod.ext hfst (Option.some.inj hb).symm
    exact ⟨m, released, hrun, hsnd ▸ hr, hgone⟩

end LockFreeKV.Engine
