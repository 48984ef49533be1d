import LockFreeKV.Engine.Preservation

/-!
# The bucket array in every reachable state

The invariant, read off the memory: `Linked` chains are finite, end in null and
are determined by the bucket's pointer, so the statements below are about the
chains that a walk through the next pointers finds.
-/
namespace LockFreeKV.Engine

open LockFreeKV.Lib

variable {K V T : Type} [DecidableEq K] [DecidableEq T] {cfg : Config K T} {s s' : State cfg V}
  {es es' : List (Event T K V)}

/-- The node is on the chain of the bucket. -/
def State.LinkedIn (s : State cfg V) (b : Fin cfg.bucketCount) (a : Addr) : Prop :=
  ∃ l, Linked s.mem.nextOf (s.mem.buckets b) l ∧ a ∈ l

omit [DecidableEq K] [DecidableEq T] in
theorem Inv.linkedIn_iff {c : Chains cfg.toHashing} (hi : Inv s c) {b : Fin cfg.bucketCount}
    {a : Addr} : s.LinkedIn b a ↔ a ∈ c b := by
  constructor
  · intro hlinked
    obtain ⟨l, hl, ha⟩ := hlinked
    rwa [hl.unique (hi.table.linked b)] at ha
  · exact fun ha => ⟨c b, hi.table.linked b, ha⟩

omit [DecidableEq K] [DecidableEq T] in
/-- A node in the hands of a `set` is constructed, unlinked, and its next pointer is null. -/
theorem Inv.mine_unlinked {c : Chains cfg.toHashing} (hi : Inv s c) {t : T} {a : Addr}
    (ha : (s.pc t).mine = some a) :
    (∃ node, s.mem.nodes a = some node ∧ node.next = none ∧
      node.allocator = cfg.heapId t) ∧ ∀ b, a ∉ c b := by
  refine ⟨?_, hi.unlinked ha⟩
  have hpc := hi.pcs t
  have howned : ∀ {key value mine}, Owned s.mem c (cfg.heapId t) key value mine → mine = a →
      ∃ node, s.mem.nodes a = some node ∧ node.next = none ∧ node.allocator = cfg.heapId t := by
    rintro key value mine ho rfl
    exact ⟨_, ho.node, rfl, rfl⟩
  cases hp : s.pc t with
  | set key value p =>
    rw [hp] at hpc ha
    cases p with
    | createNode => cases ha
    | casHead mine => exact howned hpc (Option.some.inj ha)
    | visit mine node => exact howned hpc.1 (Option.some.inj ha)
    | storeValue mine node ptrValue => exact howned hpc.1 (Option.some.inj ha)
    | destroy mine => exact howned hpc (Option.some.inj ha)
  | _ => simp [hp, Pc.mine] at ha

/-- **The representation invariant**, in every state of every run. Each chain is finite, repeats
no node and ends in null; chains of different buckets are disjoint; nodes stand in the bucket of
their key; no two linked nodes have one key; a node that is not linked has a null next pointer and
is held by a running `set`. Later chains extend earlier ones, with the same keys. -/
theorem representation_invariant (hrun : Run State.Step (State.init cfg V) es s)
    (hrun' : Run State.Step s es' s') :
    (∀ b, ∃ l, Linked s.mem.nextOf (s.mem.buckets b) l ∧ l.Nodup) ∧
    (∀ b b' a, s.LinkedIn b a → s.LinkedIn b' a → b = b') ∧
    (∀ b a node, s.LinkedIn b a → s.mem.nodes a = some node → cfg.bucketIdx node.key = b) ∧
    (∀ b b' a a' node node', s.LinkedIn b a → s.LinkedIn b' a' → s.mem.nodes a = some node →
      s.mem.nodes a' = some node' → node.key = node'.key → a = a') ∧
    (∀ a node, s.mem.nodes a = some node → (∀ b, ¬ s.LinkedIn b a) →
      node.next = none ∧ ∃ t, (s.pc t).mine = some a) ∧
    (∀ t a, (s.pc t).mine = some a →
      (∃ node, s.mem.nodes a = some node ∧ node.next = none) ∧ ∀ b, ¬ s.LinkedIn b a) ∧
    (∀ b l l', Linked s.mem.nextOf (s.mem.buckets b) l → Linked s'.mem.nextOf (s'.mem.buckets b) l' →
      l <+: l' ∧ l.map s'.mem.keyOf = l.map s.mem.keyOf) := by
  obtain ⟨c, hi⟩ := inv_of_run hrun
  obtain ⟨c', hi', hg⟩ := hi.run hrun'
  have hmine : ∀ t a, (s.pc t).mine = some a →
      (∃ node, s.mem.nodes a = some node ∧ node.next = none) ∧ ∀ b, ¬ s.LinkedIn b a := by
    intro t a ha
    obtain ⟨⟨node, hn, hnext, _⟩, hun⟩ := hi.mine_unlinked ha
    exact ⟨⟨node, hn, hnext⟩, fun b hb => hun b (hi.linkedIn_iff.mp hb)⟩
  refine ⟨fun b => ⟨c b, hi.table.linked b, (hi.table.linked b).nodup⟩, ?_, ?_, ?_, ?_, hmine, ?_⟩
  · intro b b' a ha ha'
    exact hi.table.bucket_unique (hi.linkedIn_iff.mp ha) (hi.linkedIn_iff.mp ha')
  · intro b a node ha hn
    exact hi.table.home b a (hi.linkedIn_iff.mp ha) _ (Memory.keyOf_eq hn)
  · intro b b' a a' node node' ha ha' hn hn' hkey
    rw [hi.linkedIn_iff] at ha ha'
    have hb : b = b' := by
      rw [← hi.table.home b a ha _ (Memory.keyOf_eq hn),
        ← hi.table.home b' a' ha' _ (Memory.keyOf_eq hn'), hkey]
    subst hb
    exact hi.table.unique b a ha a' ha' (by rw [Memory.keyOf_eq hn, Memory.keyOf_eq hn', hkey])
  · intro a node hn hun
    rcases hi.held a node hn with ⟨b, hb⟩ | ⟨t, ht⟩
    · exact absurd (hi.linkedIn_iff.mpr hb) (hun b)
    · obtain ⟨⟨node', hn', hnext⟩, _⟩ := hmine t a ht
      rw [Option.some.inj (hn.symm.trans hn')]
      exact ⟨hnext, t, ht⟩
  · intro b l l' hl hl'
    rw [hl.unique (hi.table.linked b), hl'.unique (hi'.table.linked b)]
    exact ⟨hg.chain b, List.map_congr_left (hg.key b)⟩

/-- Two writers of different keys have each created a node. -/
def tailRaceStart : List (Choice Nat Nat Nat) :=
  [.call 0 (.kv (.set 1 10)), .call 1 (.kv (.set 2 20)), .advance 0 100, .advance 1 101]

/-- The first links its node; the second loses the head and links behind it. -/
def tailRaceEnd : List (Choice Nat Nat Nat) :=
  [.advance 0 0, .advance 1 0, .ret 0, .advance 1 0, .ret 1]

/-- After the race for the tail the one chain is `[100, 101]`, and it was empty before. -/
theorem representation_invariant_tailRace : ∃ es s es' s',
    (State.init oneBucket Nat).exec tailRaceStart = some (es, s) ∧
    s.exec tailRaceEnd = some (es', s') ∧
    s'.LinkedIn (oneBucket.bucketIdx 1) 100 ∧ s'.LinkedIn (oneBucket.bucketIdx 2) 101 ∧
    (∀ b l l', Linked s.mem.nextOf (s.mem.buckets b) l → Linked s'.mem.nextOf (s'.mem.buckets b) l' →
      l <+: l' ∧ l.map s'.mem.keyOf = l.map s.mem.keyOf) := by
  have hstart : ((State.init oneBucket Nat).exec tailRaceStart).isSome := by decide
  have hend : ((((State.init oneBucket Nat).exec tailRaceStart).get (by decide)).2.exec
      tailRaceEnd).isSome := by decide
  obtain ⟨⟨es, s⟩, hs⟩ := Option.isSome_iff_exists.mp hstart
  obtain ⟨⟨es', s'⟩, hs'⟩ := Option.isSome_iff_exists.mp hend
  simp only [hs, Option.get_some] at hs'
  obtain ⟨_, _, _, _, _, _, hgrow⟩ :=
    representation_invariant (State.run_of_exec hs) (State.run_of_exec hs')
  have hchain : Linked s'.mem.nextOf (s'.mem.buckets (oneBucket.bucketIdx 1)) [100, 101] := by
    cases hs
    cases hs'
    exact ⟨rfl, some 101, rfl, rfl, none, rfl, rfl⟩
  exact ⟨es, s, es', s', hs, hs', ⟨_, hchain, by simp⟩, ⟨_, hchain, by simp⟩, hgrow⟩

end LockFreeKV.Engine
