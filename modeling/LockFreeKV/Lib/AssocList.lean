import Mathlib.Data.List.Nodup
import Mathlib.Logic.Function.Basic

/-!
# Association lists with insertion at the end

`upsert` replaces the value of a key in place and appends an absent key. On lists
without repeated keys it is the association-list form of `Function.update`.
`override` applies a list of bindings to a partial map, the last binding winning.
-/
namespace LockFreeKV.Lib

variable {K V : Type*} [DecidableEq K]

/-- Replace the value of `k` where it stands, or append the pair. -/
def upsert (k : K) (v : V) : List (K × V) → List (K × V)
  | [] => [(k, v)]
  | (k', v') :: l => if k' = k then (k', v) :: l else (k', v') :: upsert k v l

variable {k k' : K} {v : V} {l pre post : List (K × V)}

theorem lookup_cons (e : K × V) :
    (e :: l).lookup k = if k = e.1 then some e.2 else l.lookup k := by
  obtain ⟨b, w⟩ := e
  rw [List.lookup_cons]
  by_cases h : k = b
  · simp [h]
  · have hb : (k == b) = false := by simpa using h
    simp [hb, h]

theorem upsert_append_of_notMem (h : k ∉ pre.map Prod.fst) :
    upsert k v (pre ++ post) = pre ++ upsert k v post := by
  induction pre with
  | nil => rfl
  | cons e pre ih =>
    simp only [List.map_cons, List.mem_cons, not_or] at h
    rw [List.cons_append, upsert, if_neg (Ne.symm h.1), ih h.2, List.cons_append]

theorem upsert_of_notMem (h : k ∉ l.map Prod.fst) : upsert k v l = l ++ [(k, v)] := by
  have happ : upsert k v (l ++ []) = l ++ upsert k v [] := upsert_append_of_notMem h
  simpa [upsert] using happ

theorem lookup_upsert : (upsert k v l).lookup k' = if k' = k then some v else l.lookup k' := by
  induction l with
  | nil => simp [upsert, lookup_cons]
  | cons e l ih =>
    obtain ⟨b, w⟩ := e
    by_cases hb : b = k
    · subst hb
      by_cases h : k' = b <;> simp [upsert, lookup_cons, h]
    · rw [upsert, if_neg hb]
      by_cases h : k' = b
      · subst h
        simp [lookup_cons, hb]
      · simp [lookup_cons, h, ih]

theorem map_fst_upsert :
    (upsert k v l).map Prod.fst =
      if k ∈ l.map Prod.fst then l.map Prod.fst else l.map Prod.fst ++ [k] := by
  induction l with
  | nil => simp [upsert]
  | cons e l ih =>
    obtain ⟨b, w⟩ := e
    by_cases hb : b = k
    · simp [upsert, hb]
    · rw [upsert, if_neg hb, List.map_cons, ih]
      by_cases hk : k ∈ l.map Prod.fst <;> simp_all [Ne.symm hb]

theorem nodup_upsert (h : (l.map Prod.fst).Nodup) : ((upsert k v l).map Prod.fst).Nodup := by
  rw [map_fst_upsert]
  split
  · exact h
  · next hk => exact h.append (by simp) (by simpa using hk)

theorem lookup_eq_none_iff : l.lookup k = none ↔ k ∉ l.map Prod.fst := by
  induction l with
  | nil => simp
  | cons e l ih =>
    by_cases h : k = e.1
    · simp [lookup_cons, h]
    · rw [lookup_cons, if_neg h, ih, List.map_cons, List.mem_cons, not_or]
      exact (and_iff_right h).symm

theorem lookup_append_of_notMem (h : k ∉ pre.map Prod.fst) :
    (pre ++ post).lookup k = post.lookup k := by
  induction pre with
  | nil => rfl
  | cons e pre ih =>
    simp only [List.map_cons, List.mem_cons, not_or] at h
    rw [List.cons_append, lookup_cons, if_neg h.1, ih h.2]

/-- Without repeated keys, membership and lookup agree. -/
theorem mem_iff_lookup (h : (l.map Prod.fst).Nodup) : (k, v) ∈ l ↔ l.lookup k = some v := by
  induction l with
  | nil => simp
  | cons e l ih =>
    obtain ⟨b, w⟩ := e
    obtain ⟨hb, hl⟩ := List.nodup_cons.mp h
    by_cases hk : k = b
    · subst hk
      have hno : (k, v) ∉ l := fun hm => hb (List.mem_map.mpr ⟨_, hm, rfl⟩)
      simp [lookup_cons, hno, eq_comm]
    · simp [lookup_cons, hk, ih hl]

/-- The map after the bindings of a list have been applied in order. -/
def override (m : K → Option V) (l : List (K × V)) : K → Option V :=
  l.foldl (fun m e => Function.update m e.1 (some e.2)) m

@[simp] theorem override_nil (m : K → Option V) : override m [] = m := rfl

@[simp] theorem override_cons (m : K → Option V) (e : K × V) (l : List (K × V)) :
    override m (e :: l) = override (Function.update m e.1 (some e.2)) l := rfl

theorem override_append (m : K → Option V) (l l' : List (K × V)) :
    override m (l ++ l') = override (override m l) l' := List.foldl_append ..

theorem override_of_notMem (m : K → Option V) (h : k ∉ l.map Prod.fst) :
    override m l k = m k := by
  induction l generalizing m with
  | nil => rfl
  | cons e l ih =>
    simp only [List.map_cons, List.mem_cons, not_or] at h
    rw [override_cons, ih _ h.2, Function.update_of_ne h.1]

/-- A value that a list puts into the empty map is one of the list's. -/
theorem mem_of_override_eq_some (h : override (fun _ => none) l k = some v) : (k, v) ∈ l := by
  have hgen : ∀ (m : K → Option V), override m l k = some v → m k = some v ∨ (k, v) ∈ l := by
    clear h
    induction l with
    | nil => exact fun m h => .inl h
    | cons e l ih =>
      intro m h
      rcases ih _ h with hm | hm
      · have hm : Function.update m e.1 (some e.2) k = some v := hm
        by_cases hk : k = e.1
        · subst hk
          rw [Function.update_self] at hm
          exact .inr (by simp [← Option.some.inj hm])
        · exact .inl (by rwa [Function.update_of_ne hk] at hm)
      · exact .inr (List.mem_cons_of_mem _ hm)
  exact (hgen _ h).resolve_left (by simp)

/-- A list puts a value into the empty map for each of its keys. -/
theorem override_ne_none_iff : override (fun _ => none) l k ≠ none ↔ k ∈ l.map Prod.fst := by
  have hgen : ∀ (m : K → Option V), override m l k ≠ none ↔ m k ≠ none ∨ k ∈ l.map Prod.fst := by
    induction l with
    | nil => simp
    | cons e l ih =>
      intro m
      rw [override_cons, ih, List.map_cons, List.mem_cons]
      by_cases hk : k = e.1
      · simp [hk]
      · simp [hk]
  rw [hgen]
  simp

/-- Inserting the pairs of a list without repeated keys into the empty list gives it back. -/
theorem foldl_upsert_nil (h : (l.map Prod.fst).Nodup) :
    l.foldl (fun l e => upsert e.1 e.2 l) [] = l := by
  have hgen : ∀ pre : List (K × V), ((pre ++ l).map Prod.fst).Nodup →
      l.foldl (fun l e => upsert e.1 e.2 l) pre = pre ++ l := by
    clear h
    induction l with
    | nil => simp
    | cons e l ih =>
      intro pre hn
      have hfresh : e.1 ∉ pre.map Prod.fst := by
        rw [List.map_append, List.map_cons, List.nodup_append] at hn
        exact fun hm => hn.2.2 _ hm _ (by simp) rfl
      rw [List.foldl_cons, upsert_of_notMem hfresh, ih _ (by simpa using hn)]
      simp
  simpa using hgen [] (by simpa using h)

/-- Overriding by a list without repeated keys reads the list first. -/
theorem override_of_nodup (m : K → Option V) (h : (l.map Prod.fst).Nodup) :
    override m l k = (l.lookup k).or (m k) := by
  induction l generalizing m with
  | nil => simp
  | cons e l ih =>
    obtain ⟨b, w⟩ := e
    obtain ⟨hb, hl⟩ := List.nodup_cons.mp h
    rw [override_cons, ih _ hl]
    by_cases hk : k = b
    · subst hk
      rw [lookup_eq_none_iff.mpr hb]
      simp [lookup_cons]
    · simp [lookup_cons, hk]

end LockFreeKV.Lib
