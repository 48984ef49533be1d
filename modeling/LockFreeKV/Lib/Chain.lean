import Mathlib.Data.List.Nodup

/-!
# Null-terminated chains over a partial heap

`next a` is `none` when no node lives at `a`, and otherwise the node's next
pointer, where `some none` is the null pointer. A pointer determines the chain
that starts at it, so a chain that ends in null repeats no node.
-/
namespace LockFreeKV.Lib

variable {A : Type*}

/-- Following `next` from the pointer `p` visits exactly the nodes of the list, and ends in null. -/
def Linked (next : A → Option (Option A)) : Option A → List A → Prop
  | p, [] => p = none
  | p, a :: l => p = some a ∧ ∃ q, next a = some q ∧ Linked next q l

namespace Linked

variable {next next' : A → Option (Option A)} {p : Option A} {l l' pre post : List A} {a x y : A}

@[simp] theorem nil_iff : Linked next p [] ↔ p = none := Iff.rfl

@[simp] theorem cons_iff :
    Linked next p (a :: l) ↔ p = some a ∧ ∃ q, next a = some q ∧ Linked next q l := Iff.rfl

/-- The nodes visited are a function of the pointer. -/
theorem unique (h : Linked next p l) (h' : Linked next p l') : l = l' := by
  induction l generalizing p l' with
  | nil =>
    cases l' with
    | nil => rfl
    | cons b l' => simp [nil_iff.mp h] at h'
  | cons a l ih =>
    obtain ⟨rfl, q, hq, hl⟩ := h
    cases l' with
    | nil => simp at h'
    | cons b l' =>
      obtain ⟨hb, q', hq', hl'⟩ := h'
      obtain rfl : a = b := Option.some.inj hb
      obtain rfl : q = q' := Option.some.inj (hq.symm.trans hq')
      rw [ih hl hl']

/-- Every node of a chain starts the chain of its successors. -/
theorem after (h : Linked next p (pre ++ x :: post)) :
    ∃ q, next x = some q ∧ Linked next q post := by
  induction pre generalizing p with
  | nil => exact h.2
  | cons b pre ih =>
    obtain ⟨_, q, _, hq⟩ := h
    exact ih hq

theorem next_of_mem (h : Linked next p l) (ha : a ∈ l) : ∃ q, next a = some q := by
  obtain ⟨pre, post, rfl⟩ := List.append_of_mem ha
  obtain ⟨q, hq, _⟩ := h.after
  exact ⟨q, hq⟩

/-- A node whose next pointer is null is the last one. -/
theorem eq_nil_of_next_none (h : Linked next p (pre ++ x :: post)) (hx : next x = some none) :
    post = [] := by
  obtain ⟨q, hq, hl⟩ := h.after
  obtain rfl : none = q := Option.some.inj (hx.symm.trans hq)
  exact hl.unique (nil_iff.mpr rfl)

/-- A node whose next pointer is `y` is followed by `y`. -/
theorem cons_of_next_some (h : Linked next p (pre ++ x :: post)) (hx : next x = some (some y)) :
    ∃ rest, post = y :: rest := by
  obtain ⟨q, hq, hl⟩ := h.after
  obtain rfl : some y = q := Option.some.inj (hx.symm.trans hq)
  cases post with
  | nil => simp at hl
  | cons b rest => exact ⟨rest, by rw [Option.some.inj hl.1]⟩

theorem nodup (h : Linked next p l) : l.Nodup := by
  induction l generalizing p with
  | nil => exact List.nodup_nil
  | cons a l ih =>
    obtain ⟨rfl, q, hq, hl⟩ := h
    refine List.nodup_cons.mpr ⟨fun ha => ?_, ih hl⟩
    -- a second visit to `a` would start the same chain again, which is longer than itself
    obtain ⟨pre, post, rfl⟩ := List.append_of_mem ha
    obtain ⟨q', hq', hpost⟩ := hl.after
    obtain rfl : q = q' := Option.some.inj (hq.symm.trans hq')
    have hlen := congrArg List.length (hl.unique hpost)
    simp at hlen
    omega

/-- Only the next pointers of the visited nodes matter. -/
theorem congr (h : Linked next p l) (hn : ∀ a ∈ l, next' a = next a) : Linked next' p l := by
  induction l generalizing p with
  | nil => exact h
  | cons a l ih =>
    obtain ⟨hp, q, hq, hl⟩ := h
    exact ⟨hp, q, (hn a (by simp)).trans hq, ih hl fun b hb => hn b (by simp [hb])⟩

/-- Storing a fresh last node in the last next pointer extends the chain by it. -/
theorem extend (h : Linked next p (pre ++ [x])) (hx : next' x = some (some a))
    (ha : next' a = some none) (hn : ∀ b ∈ pre, next' b = next b) :
    Linked next' p (pre ++ [x] ++ [a]) := by
  induction pre generalizing p with
  | nil => exact ⟨h.1, some a, hx, rfl, none, ha, rfl⟩
  | cons b pre ih =>
    obtain ⟨hp, q, hq, hl⟩ := h
    exact ⟨hp, q, (hn b (by simp)).trans hq, ih hl fun c hc => hn c (by simp [hc])⟩

end Linked

end LockFreeKV.Lib
