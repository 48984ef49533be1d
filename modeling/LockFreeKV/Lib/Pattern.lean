import Mathlib.Data.Set.Insert
import Mathlib.Data.List.Basic

/-!
# Patterns with parameters

A pattern is a list of symbols and parameters. A parameter reads a nonempty piece off
the front of the input, and which piece is a function of the input, so a pattern matches
an input in one way at most. Of several numbered patterns that match, the least one wins:
`keepLeast` folds over candidates and `LeastOf` says what it arrives at.
-/
namespace LockFreeKV.Lib

variable {A P W : Type*}

inductive Token (A P : Type*)
  | lit (c : A)
  | param (p : P)
  deriving DecidableEq, Repr

/-- What parameters read, and what they leave of the input. -/
structure Reader (A P W : Type*) where
  read : P → List A → Option (W × List A)
  shrinks : ∀ p input value rest, read p input = some (value, rest) →
    ∃ taken, taken ≠ [] ∧ input = taken ++ rest

section Matching

variable [DecidableEq A] (r : Reader A P W)

/-- The values of the parameters, when the pattern matches the whole input. -/
def matchTokens : List (Token A P) → List A → Option (List W)
  | [], [] => some []
  | [], _ :: _ => none
  | .lit _ :: _, [] => none
  | .lit c :: toks, c' :: rest => if c = c' then matchTokens toks rest else none
  | .param p :: toks, input =>
    match r.read p input with
    | none => none
    | some (value, rest) => (matchTokens toks rest).map (value :: ·)

@[simp] theorem matchTokens_nil_nil : matchTokens r [] [] = some [] := rfl

theorem matchTokens_nil_iff {input : List A} {values : List W} :
    matchTokens r [] input = some values ↔ input = [] ∧ values = [] := by
  cases input with
  | nil => simp [matchTokens, eq_comm]
  | cons c rest => simp [matchTokens]

theorem matchTokens_lit {c : A} {toks : List (Token A P)} {input : List A} {values : List W} :
    matchTokens r (.lit c :: toks) input = some values ↔
      ∃ rest, input = c :: rest ∧ matchTokens r toks rest = some values := by
  cases input with
  | nil => simp [matchTokens]
  | cons c' rest =>
    by_cases hc : c = c'
    · subst hc
      simp [matchTokens]
    · have hc' : c' ≠ c := fun h => hc h.symm
      simp [matchTokens, hc, hc']

theorem matchTokens_param {p : P} {toks : List (Token A P)} {input : List A} {values : List W} :
    matchTokens r (.param p :: toks) input = some values ↔
      ∃ value rest values', r.read p input = some (value, rest) ∧
        matchTokens r toks rest = some values' ∧ values = value :: values' := by
  rw [matchTokens]
  cases hread : r.read p input with
  | none => simp
  | some result =>
    obtain ⟨value, rest⟩ := result
    simp only [Option.map_eq_some_iff, Option.some.injEq, Prod.mk.injEq]
    constructor
    · intro h
      obtain ⟨values', hmatch, rfl⟩ := h
      exact ⟨value, rest, values', ⟨rfl, rfl⟩, hmatch, rfl⟩
    · intro h
      obtain ⟨_, _, values', ⟨rfl, rfl⟩, hmatch, rfl⟩ := h
      exact ⟨values', hmatch, rfl⟩

/-- A literal in front of a pattern is a literal in front of the input. -/
theorem matchTokens_lits (key : List A) {toks : List (Token A P)} {input : List A}
    {values : List W} :
    matchTokens r (key.map .lit ++ toks) input = some values ↔
      ∃ rest, input = key ++ rest ∧ matchTokens r toks rest = some values := by
  induction key generalizing input with
  | nil => simp
  | cons c key ih =>
    rw [List.map_cons, List.cons_append, matchTokens_lit]
    constructor
    · intro h
      obtain ⟨rest, rfl, hmatch⟩ := h
      obtain ⟨rest', rfl, hrest⟩ := ih.mp hmatch
      exact ⟨rest', rfl, hrest⟩
    · intro h
      obtain ⟨rest, rfl, hmatch⟩ := h
      exact ⟨key ++ rest, rfl, ih.mpr ⟨rest, rfl, hmatch⟩⟩

/-- Only the empty pattern matches the empty input. -/
theorem eq_nil_of_match_nil {toks : List (Token A P)} {values : List W}
    (h : matchTokens r toks [] = some values) : toks = [] := by
  cases toks with
  | nil => rfl
  | cons tok toks =>
    cases tok with
    | lit c =>
      obtain ⟨rest, hrest, -⟩ := (matchTokens_lit r).mp h
      cases hrest
    | param p =>
      obtain ⟨value, rest, _, hread, -⟩ := (matchTokens_param r).mp h
      obtain ⟨taken, hne, htaken⟩ := r.shrinks _ _ _ _ hread
      exact absurd (List.append_eq_nil_iff.mp htaken.symm).1 hne

end Matching

/-! ## The least candidate -/

/-- Of two numbered candidates, with 0 for none, the second one if its number is smaller. -/
def keepLeast (cur new : Nat × W) : Nat × W :=
  if new.1 ≠ 0 ∧ (cur.1 = 0 ∨ new.1 < cur.1) then new else cur

/-- The result is one of the candidates with the least number, or has the number 0 when there
are none. -/
structure LeastOf (S : Set (Nat × W)) (res : Nat × W) : Prop where
  least : ∀ x ∈ S, res.1 ≠ 0 ∧ res.1 ≤ x.1
  found : res.1 ≠ 0 → res ∈ S

namespace LeastOf

variable {S S' : Set (Nat × W)} {a b : Nat × W}

theorem empty (hres : a.1 = 0) : LeastOf ∅ a :=
  ⟨fun _ hx => absurd hx (Set.notMem_empty _), fun hne => absurd hres hne⟩

theorem singleton (hres : a.1 ≠ 0) : LeastOf {a} a :=
  ⟨fun x hx => by rw [Set.mem_singleton_iff.mp hx]; exact ⟨hres, le_rfl⟩, fun _ => rfl⟩

theorem union (ha : LeastOf S a) (hb : LeastOf S' b) : LeastOf (S ∪ S') (keepLeast a b) := by
  have hkeep : (keepLeast a b = b ∧ b.1 ≠ 0 ∧ (a.1 = 0 ∨ b.1 < a.1)) ∨
      (keepLeast a b = a ∧ (b.1 = 0 ∨ (a.1 ≠ 0 ∧ a.1 ≤ b.1))) := by
    unfold keepLeast
    split
    · next h => exact .inl ⟨rfl, h⟩
    · next h => exact .inr ⟨rfl, by omega⟩
  rcases hkeep with ⟨heq, hb0, hlt⟩ | ⟨heq, hle⟩
  · rw [heq]
    refine ⟨fun x hx => ⟨hb0, ?_⟩, fun _ => .inr (hb.found hb0)⟩
    rcases hx with hx | hx
    · have hax := ha.least x hx
      omega
    · exact (hb.least x hx).2
  · rw [heq]
    refine ⟨fun x hx => ?_, fun hne => .inl (ha.found hne)⟩
    rcases hx with hx | hx
    · exact ha.least x hx
    · have hbx := hb.least x hx
      omega

theorem zero_iff (h : LeastOf S a) : a.1 = 0 ↔ S = ∅ := by
  constructor
  · intro h0
    exact Set.eq_empty_iff_forall_notMem.mpr fun x hx => (h.least x hx).1 h0
  · rintro rfl
    by_contra hne
    exact Set.notMem_empty _ (h.found hne)

/-- The number is determined by the candidates. -/
theorem unique (ha : LeastOf S a) (hb : LeastOf S b) : a.1 = b.1 := by
  by_cases ha0 : a.1 = 0
  · rw [ha0, hb.zero_iff.mpr (ha.zero_iff.mp ha0)]
  · have hab := hb.least a (ha.found ha0)
    have hba := ha.least b (hb.found hab.1)
    omega

end LeastOf

end LockFreeKV.Lib
