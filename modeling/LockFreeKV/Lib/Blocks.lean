import Mathlib.Data.Option.Basic
import Mathlib.Logic.Function.Basic

/-!
# A book of allocated blocks

The book counts how often each block has been released. It accounts for a set of
owned blocks if an owned block was not released, and one without an owner was
released once. A block that was never allocated may have an owner: an object that
turned out to need no memory.
-/
namespace LockFreeKV.Lib

/-- How often a block has been released, `none` for a block that was never allocated. -/
abbrev Book (B : Type*) := B → Option Nat

namespace Book

variable {B : Type*} [DecidableEq B]

def new : Book B := fun _ => none

def allocate (book : Book B) (b : B) : Book B := Function.update book b (some 0)

def release (book : Book B) (b : B) : Book B := Function.update book b ((book b).map (· + 1))

omit [DecidableEq B] in
/-- No owned block was released, and every other block once, if it was allocated. -/
structure Accounts (book : Book B) (Owned : B → Prop) : Prop where
  owned : ∀ b, Owned b → book b = none ∨ book b = some 0
  released : ∀ b, ¬ Owned b → book b = none ∨ book b = some 1

namespace Accounts

variable {book : Book B} {Owned Owned' : B → Prop} {b : B}

omit [DecidableEq B] in
theorem new : Accounts Book.new fun _ : B => False := ⟨fun _ h => h.elim, fun _ _ => .inl rfl⟩

omit [DecidableEq B] in
theorem congr (h : Accounts book Owned) (hsame : ∀ x, Owned' x ↔ Owned x) :
    Accounts book Owned' :=
  ⟨fun x hx => h.owned x ((hsame x).mp hx),
    fun x hx => h.released x fun hx' => hx ((hsame x).mpr hx')⟩

/-- An owner takes a block that is new, or an object that needs none. -/
theorem acquire (h : Accounts book Owned) (hnew : book b = none) (needed : Bool)
    (howned : ∀ x, Owned' x ↔ Owned x ∨ x = b) :
    Accounts (if needed then book.allocate b else book) Owned' := by
  constructor
  · intro x hx
    by_cases hxb : x = b
    · subst hxb
      cases needed
      · exact .inl hnew
      · exact .inr (by simp [Book.allocate])
    · have hold := h.owned x (((howned x).mp hx).resolve_right hxb)
      cases needed
      · exact hold
      · simpa [Book.allocate, hxb] using hold
  · intro x hx
    have hxb : x ≠ b := fun hxb => hx ((howned x).mpr (.inr hxb))
    have hold := h.released x fun hx' => hx ((howned x).mpr (.inl hx'))
    cases needed
    · exact hold
    · simpa [Book.allocate, hxb] using hold

/-- The last owner gives a block up. -/
theorem release (h : Accounts book Owned) (hb : Owned b)
    (howned : ∀ x, Owned' x ↔ Owned x ∧ x ≠ b) : Accounts (book.release b) Owned' := by
  constructor
  · intro x hx
    obtain ⟨hold, hxb⟩ := (howned x).mp hx
    simpa [Book.release, hxb] using h.owned x hold
  · intro x hx
    by_cases hxb : x = b
    · subst hxb
      rcases h.owned x hb with hnone | hlive
      · exact .inl (by simp [Book.release, hnone])
      · exact .inr (by simp [Book.release, hlive])
    · have hold := h.released x fun hx' => hx ((howned x).mpr ⟨hx', hxb⟩)
      simpa [Book.release, hxb] using hold

end Accounts

/-- What was never allocated does not become so by a release. -/
@[simp] theorem release_eq_none_iff {book : Book B} {b x : B} :
    book.release b x = none ↔ book x = none := by
  by_cases hx : x = b
  · subst hx
    simp [release]
  · simp [release, hx]

theorem allocate_ne (book : Book B) {b x : B} (hx : x ≠ b) :
    book.allocate b x = book x := by simp [allocate, hx]

end Book

end LockFreeKV.Lib
