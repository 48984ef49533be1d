import Mathlib.Logic.Function.Basic
import Mathlib.Data.List.Basic

/-!
# Loops over the cells of a map

A loop that visits keys one after another and rewrites the cell of each key by a step that
may fail. When every key is visited once, the loop succeeds with a map exactly when each
cell's step succeeds with that map's cell; a loop of such loops works cell by cell too.
-/
namespace LockFreeKV.Lib

variable {κ α β ε : Type} [DecidableEq κ]

/-- Rewrite the cells of the keys, in order. -/
def updateEach (f : κ → α → Except ε α) (keys : List κ) (cells : κ → α) : Except ε (κ → α) :=
  keys.foldlM (fun cells k => (f k (cells k)).map (Function.update cells k)) cells

theorem updateEach_cons (f : κ → α → Except ε α) (k : κ) (keys : List κ) (cells : κ → α) :
    updateEach f (k :: keys) cells =
      (f k (cells k)).bind fun a => updateEach f keys (Function.update cells k a) := by
  unfold updateEach
  rw [List.foldlM_cons]
  cases f k (cells k) <;> rfl

theorem updateEach_ok_iff {f : κ → α → Except ε α} {keys : List κ} (hkeys : keys.Nodup)
    {cells cells' : κ → α} :
    updateEach f keys cells = .ok cells' ↔
      ∀ k, if k ∈ keys then f k (cells k) = .ok (cells' k) else cells' k = cells k := by
  induction keys generalizing cells with
  | nil =>
    simp only [List.not_mem_nil, if_false]
    constructor
    · intro h k
      cases h
      rfl
    · intro h
      exact congrArg Except.ok (funext h).symm
  | cons key keys ih =>
    obtain ⟨hfresh, hnodup⟩ := List.nodup_cons.mp hkeys
    rw [updateEach_cons]
    cases hkey : f key (cells key) with
    | error err =>
      simp only [Except.bind, reduceCtorEq, false_iff, not_forall]
      exact ⟨key, by simp [hkey]⟩
    | ok a =>
      rw [Except.bind, ih hnodup]
      refine forall_congr' fun k => ?_
      by_cases hk : k = key
      · subst hk
        simp only [hfresh, if_false, List.mem_cons_self, if_true, Function.update_self, hkey,
          Except.ok.injEq]
        exact eq_comm
      · simp [hk]

/-- Every cell is rewritten by its own step. -/
theorem updateEach_all_iff {f : κ → α → Except ε α} {keys : List κ} (hkeys : keys.Nodup)
    (hall : ∀ k, k ∈ keys) {cells cells' : κ → α} :
    updateEach f keys cells = .ok cells' ↔ ∀ k, f k (cells k) = .ok (cells' k) := by
  rw [updateEach_ok_iff hkeys]
  exact forall_congr' fun k => by rw [if_pos (hall k)]

/-- A loop of loops over all keys goes through the cells independently. -/
theorem foldlM_updateEach_iff {g : β → κ → α → Except ε α} {keys : List κ} (hkeys : keys.Nodup)
    (hall : ∀ k, k ∈ keys) {bs : List β} {cells cells' : κ → α} :
    bs.foldlM (fun cells b => updateEach (g b) keys cells) cells = .ok cells' ↔
      ∀ k, bs.foldlM (fun a b => g b k a) (cells k) = .ok (cells' k) := by
  induction bs generalizing cells with
  | nil =>
    constructor
    · intro h k
      cases h
      rfl
    · intro h
      exact congrArg Except.ok (funext fun k => Except.ok.inj (h k))
  | cons b bs ih =>
    simp only [List.foldlM_cons]
    constructor
    · intro h k
      cases hb : updateEach (g b) keys cells with
      | error err => rw [hb] at h; cases h
      | ok mid =>
        rw [hb] at h
        have hcell := (updateEach_all_iff hkeys hall).mp hb k
        rw [hcell]
        exact ih.mp h k
    · intro h
      -- the cells in between are those that the loops for the single keys pass
      have hmid : ∀ k, ∃ a, g b k (cells k) = .ok a := fun k => by
        have hk := h k
        cases hstep : g b k (cells k) with
        | error err => rw [hstep] at hk; cases hk
        | ok a => exact ⟨a, rfl⟩
      obtain ⟨mid, hmid⟩ := Classical.axiomOfChoice hmid
      rw [(updateEach_all_iff hkeys hall).mpr hmid]
      refine ih.mpr fun k => ?_
      have hk := h k
      rw [hmid k] at hk
      exact hk

end LockFreeKV.Lib
