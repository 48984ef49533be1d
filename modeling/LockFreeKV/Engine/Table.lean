import LockFreeKV.Lib.AssocList
import LockFreeKV.Lib.AtomicObject
import Mathlib.Data.List.Dedup
import Mathlib.Data.List.FinRange
import Mathlib.Data.List.Flatten

/-!
# The engine between calls

A table is what the bucket array holds when only the keys and values of the
nodes are looked at: for each bucket the records of its chain, in chain order.
Records stand in the bucket of their key and no key occurs twice; both facts are
fields, so every table has them. `DataEngine` adds the two read counters. Its
operations are the member functions run without interference; that the atomic
steps of the running engine compose to them is proved with the steps.
-/
namespace LockFreeKV.Engine

open LockFreeKV.Lib

/-- `m_buckets.size()` and `std::hash`. The constructor's bucket count is positive. -/
structure Hashing (K : Type) where
  bucketCount : Nat
  bucketCount_pos : 0 < bucketCount
  hash : K → Nat

/-- `Hash()(key) % m_buckets.size()`. -/
def Hashing.bucketIdx {K : Type} (h : Hashing K) (key : K) : Fin h.bucketCount :=
  ⟨h.hash key % h.bucketCount, Nat.mod_lt _ h.bucketCount_pos⟩

variable {K V : Type} {h : Hashing K}

@[ext]
structure Table (h : Hashing K) (V : Type) where
  bucket : Fin h.bucketCount → List (K × V)
  home : ∀ b, ∀ e ∈ bucket b, h.bucketIdx e.1 = b
  nodup : ∀ b, ((bucket b).map Prod.fst).Nodup

namespace Table

def empty : Table h V where
  bucket := fun _ => []
  home := by simp
  nodup := by simp

/-- The records in the order `enumerate` meets them. -/
def enumerate (t : Table h V) : List (K × V) :=
  (List.finRange h.bucketCount).flatMap t.bucket

theorem nodup_enumerate (t : Table h V) : (t.enumerate.map Prod.fst).Nodup := by
  unfold enumerate
  rw [List.map_flatMap, List.nodup_flatMap]
  refine ⟨fun b _ => t.nodup b, (List.nodup_finRange _).imp fun {b b'} hne => ?_⟩
  intro k hk hk'
  obtain ⟨e, he, rfl⟩ := List.mem_map.mp hk
  obtain ⟨e', he', hfst⟩ := List.mem_map.mp hk'
  exact hne ((t.home b e he).symm.trans (hfst ▸ t.home b' e' he'))

variable [DecidableEq K]

/-- Compare the keys along the chain: replace the value on a hit, append at the end. -/
def set (t : Table h V) (key : K) (value : V) : Table h V where
  bucket := Function.update t.bucket (h.bucketIdx key)
    (upsert key value (t.bucket (h.bucketIdx key)))
  home := by
    intro b e he
    by_cases hb : b = h.bucketIdx key
    · subst hb
      rw [Function.update_self] at he
      have hk : e.1 ∈ (upsert key value (t.bucket (h.bucketIdx key))).map Prod.fst :=
        List.mem_map_of_mem he
      rw [map_fst_upsert] at hk
      have hold : e.1 ∈ (t.bucket (h.bucketIdx key)).map Prod.fst ∨ e.1 = key := by
        split at hk
        · exact .inl hk
        · simpa using hk
      rcases hold with hm | heq
      · obtain ⟨e', he', hfst⟩ := List.mem_map.mp hm
        exact hfst ▸ t.home _ e' he'
      · rw [heq]
    · rw [Function.update_of_ne hb] at he
      exact t.home b e he
  nodup := by
    intro b
    by_cases hb : b = h.bucketIdx key
    · subst hb
      rw [Function.update_self]
      exact nodup_upsert (t.nodup _)
    · rw [Function.update_of_ne hb]
      exact t.nodup b

/-- The key-to-value map a table stands for. -/
def toMap (t : Table h V) (key : K) : Option V := (t.bucket (h.bucketIdx key)).lookup key

@[simp] theorem toMap_empty : (empty : Table h V).toMap = fun _ => none := rfl

theorem set_bucket_self (t : Table h V) (key : K) (value : V) :
    (t.set key value).bucket (h.bucketIdx key) =
      upsert key value (t.bucket (h.bucketIdx key)) := Function.update_self ..

theorem set_bucket_ne (t : Table h V) (key : K) (value : V) {b : Fin h.bucketCount}
    (hb : b ≠ h.bucketIdx key) : (t.set key value).bucket b = t.bucket b :=
  Function.update_of_ne hb ..

theorem toMap_set (t : Table h V) (key : K) (value : V) :
    (t.set key value).toMap = Function.update t.toMap key (some value) := by
  funext k
  unfold toMap
  by_cases hb : h.bucketIdx k = h.bucketIdx key
  · rw [hb, set_bucket_self, lookup_upsert]
    by_cases hk : k = key
    · subst hk; simp
    · simp [hk, hb]
  · have hk : k ≠ key := fun hk => hb (by rw [hk])
    rw [set_bucket_ne t key value hb, Function.update_of_ne hk]

theorem mem_enumerate (t : Table h V) {key : K} {value : V} :
    (key, value) ∈ t.enumerate ↔ t.toMap key = some value := by
  unfold enumerate toMap
  rw [← mem_iff_lookup (t.nodup _), List.mem_flatMap]
  constructor
  · intro hmem
    obtain ⟨b, _, hm⟩ := hmem
    rwa [t.home b _ hm]
  · exact fun hm => ⟨_, List.mem_finRange _, hm⟩

theorem mem_keys (t : Table h V) {key : K} :
    key ∈ t.enumerate.map Prod.fst ↔ t.toMap key ≠ none := by
  rw [Option.ne_none_iff_exists', List.mem_map]
  constructor
  · intro hkey
    obtain ⟨⟨_, value⟩, he, rfl⟩ := hkey
    exact ⟨value, t.mem_enumerate.mp he⟩
  · intro hvalue
    obtain ⟨value, hv⟩ := hvalue
    exact ⟨_, t.mem_enumerate.mpr hv, rfl⟩

/-- The enumeration stands for the map: it has one value for each key. -/
theorem override_enumerate (t : Table h V) : override (fun _ => none) t.enumerate = t.toMap := by
  funext key
  cases hm : t.toMap key with
  | some value =>
    rw [override_of_nodup _ t.nodup_enumerate,
      (mem_iff_lookup t.nodup_enumerate).mp (t.mem_enumerate.mpr hm)]
    rfl
  | none => exact override_of_notMem _ fun hk => t.mem_keys.mp hk hm

/-- Setting the records of a list in order applies its bindings to the map. -/
theorem toMap_foldl_set (t : Table h V) (l : List (K × V)) :
    (l.foldl (fun t e => t.set e.1 e.2) t).toMap = override t.toMap l := by
  induction l generalizing t with
  | nil => rfl
  | cons e l ih => rw [List.foldl_cons, ih, toMap_set, override_cons]

/-- The bucket of a table after a list has been set: the list's records of that bucket. -/
theorem foldl_set_bucket (t : Table h V) (l : List (K × V)) (b : Fin h.bucketCount) :
    (l.foldl (fun t e => t.set e.1 e.2) t).bucket b =
      (l.filter fun e => h.bucketIdx e.1 = b).foldl (fun l e => upsert e.1 e.2 l) (t.bucket b) := by
  induction l generalizing t with
  | nil => rfl
  | cons e l ih =>
    rw [List.foldl_cons, ih]
    by_cases hb : h.bucketIdx e.1 = b
    · subst hb
      rw [List.filter_cons_of_pos (by simp), List.foldl_cons, set_bucket_self]
    · rw [List.filter_cons_of_neg (by simpa using hb), set_bucket_ne t _ _ (Ne.symm hb)]

omit [DecidableEq K] in
/-- What `enumerate` meets in one bucket. -/
theorem filter_enumerate (t : Table h V) (b : Fin h.bucketCount) :
    (t.enumerate.filter fun e => h.bucketIdx e.1 = b) = t.bucket b := by
  have hbucket : ∀ b', (t.bucket b').filter (fun e => h.bucketIdx e.1 = b) =
      if b' = b then t.bucket b else [] := by
    intro b'
    by_cases hb : b' = b
    · subst hb
      rw [if_pos rfl, List.filter_eq_self]
      simpa using t.home b'
    · rw [if_neg hb, List.filter_eq_nil_iff]
      intro e he
      simpa [t.home b' e he] using hb
  have hlist : ∀ bs : List (Fin h.bucketCount), bs.Nodup →
      (bs.flatMap t.bucket).filter (fun e => h.bucketIdx e.1 = b) =
        if b ∈ bs then t.bucket b else [] := by
    intro bs hbs
    induction bs with
    | nil => rfl
    | cons b' bs ih =>
      obtain ⟨hb', hbs'⟩ := List.nodup_cons.mp hbs
      rw [List.flatMap_cons, List.filter_append, hbucket, ih hbs']
      by_cases hb : b' = b
      · subst hb
        simp [hb']
      · simp [hb, Ne.symm hb]
  rw [enumerate, hlist _ (List.nodup_finRange _), if_pos (List.mem_finRange b)]

/-- The records of a table that was filled from a list are the list's. -/
theorem mem_of_mem_foldl_set {l : List (K × V)} {e : K × V}
    (he : e ∈ (l.foldl (fun t e => t.set e.1 e.2) (empty : Table h V)).enumerate) : e ∈ l := by
  have hmap := (mem_enumerate _).mp he
  rw [toMap_foldl_set, toMap_empty] at hmap
  exact mem_of_override_eq_some hmap

/-- A table that was filled from a list has one record for each of the list's keys. -/
theorem length_foldl_set (l : List (K × V)) :
    (l.foldl (fun t e => t.set e.1 e.2) (empty : Table h V)).enumerate.length =
      (l.map Prod.fst).dedup.length := by
  have hperm : ((l.foldl (fun t e => t.set e.1 e.2) (empty : Table h V)).enumerate.map Prod.fst).Perm
      (l.map Prod.fst).dedup := by
    refine (List.perm_ext_iff_of_nodup (nodup_enumerate _) (List.nodup_dedup _)).mpr fun k => ?_
    rw [mem_keys, List.mem_dedup, toMap_foldl_set, toMap_empty, override_ne_none_iff]
  simpa using hperm.length_eq

/-- Setting the records that `enumerate` met, in its order, rebuilds the table. -/
theorem rebuild (t : Table h V) : t.enumerate.foldl (fun t e => t.set e.1 e.2) empty = t := by
  ext1
  funext b
  rw [foldl_set_bucket, filter_enumerate]
  exact foldl_upsert_nil (t.nodup b)

end Table

/-- The calls that take effect on the stored records. -/
inductive KvOp (K V : Type)
  | get (key : K)
  | set (key : K) (value : V)

/-- A `get` returns an optional value, a `set` nothing. -/
inductive KvRes (V : Type)
  | found (value : Option V)
  | stored

section Specifications

variable [DecidableEq K]

/-- `get` and `set` on tables. -/
def tableSpec (h : Hashing K) (V : Type) : SeqSpec (Table h V) (KvOp K V) (KvRes V) where
  init := .empty
  apply
    | .get key, t => (t, .found (t.toMap key))
    | .set key value, t => (t.set key value, .stored)

/-- `get` and `set` on key-to-value maps. -/
def mapSpec (K V : Type) [DecidableEq K] : SeqSpec (K → Option V) (KvOp K V) (KvRes V) where
  init := fun _ => none
  apply
    | .get key, m => (m, .found (m key))
    | .set key value, m => (Function.update m key (some value), .stored)

/-- The bucket order of a table is invisible to `get` and `set`. -/
theorem table_abstracts_map : (tableSpec h V).Abstracts (mapSpec K V) Table.toMap where
  init := rfl
  apply op t := by
    cases op with
    | get key => rfl
    | set key value => simp [mapSpec, tableSpec, Table.toMap_set]

end Specifications

/-- `AccessStatistics`. -/
structure AccessStatistics where
  successOperations : UInt64
  failedOperations : UInt64
  deriving DecidableEq, Repr

/-- The engine's data when no call is in flight. -/
@[ext]
structure DataEngine (h : Hashing K) (V : Type) where
  table : Table h V
  successReads : UInt64
  failedReads : UInt64

namespace DataEngine

/-- `DataEngine(bucketCount)`. -/
def new (h : Hashing K) (V : Type) : DataEngine h V := ⟨.empty, 0, 0⟩

/-- `enumerate`: the visitor is called on every record, bucket by bucket. -/
def enumerate {σ : Type} (e : DataEngine h V) (visitor : σ → K → V → σ) (s : σ) : σ :=
  e.table.enumerate.foldl (fun s r => visitor s r.1 r.2) s

/-- `get_read_statistics`. -/
def getReadStatistics (e : DataEngine h V) : AccessStatistics := ⟨e.successReads, e.failedReads⟩

variable [DecidableEq K]

/-- `get`: one of the two counters moves. -/
def get (e : DataEngine h V) (key : K) : Option V × DataEngine h V :=
  match e.table.toMap key with
  | some value => (some value, { e with successReads := e.successReads + 1 })
  | none => (none, { e with failedReads := e.failedReads + 1 })

/-- `set`. -/
def set (e : DataEngine h V) (key : K) (value : V) : DataEngine h V :=
  { e with table := e.table.set key value }

/-- `set` called for the records of a list. -/
def setAll (e : DataEngine h V) (records : List (K × V)) : DataEngine h V :=
  records.foldl (fun e r => e.set r.1 r.2) e

theorem get_fst (e : DataEngine h V) (key : K) : (e.get key).1 = e.table.toMap key := by
  unfold get; split <;> simp_all

@[simp] theorem get_table (e : DataEngine h V) (key : K) : (e.get key).2.table = e.table := by
  unfold get; split <;> rfl

@[simp] theorem set_table (e : DataEngine h V) (key : K) (value : V) :
    (e.set key value).table = e.table.set key value := rfl

/-- The table is filled and the counters stand still. -/
theorem setAll_eq (e : DataEngine h V) (records : List (K × V)) :
    e.setAll records =
      { e with table := records.foldl (fun t r => t.set r.1 r.2) e.table } := by
  unfold setAll
  induction records generalizing e with
  | nil => rfl
  | cons r records ih => rw [List.foldl_cons, ih]; rfl

end DataEngine

end LockFreeKV.Engine
