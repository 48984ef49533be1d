import Mathlib.Data.List.Basic
import Mathlib.Data.List.TakeWhile

/-!
# Byte strings and UTF-8

A byte string is well-formed UTF-8 when it is the encoding of a list of characters.
A byte below `0x80` is a character of its own and the bytes of every other character
are above, which is all that escaping needs: replacing low bytes by texts of low
bytes neither makes nor breaks well-formedness.
-/
namespace LockFreeKV.Lib

abbrev Bytes := List UInt8

/-- The bytes of a string literal. -/
def ofString (s : String) : Bytes := s.toUTF8.data.toList

/-- What a reader of a NUL-terminated string sees. -/
def cStr (b : Bytes) : Bytes := b.takeWhile (· ≠ 0)

theorem cStr_eq {b : Bytes} (h : 0 ∉ b) : cStr b = b :=
  List.takeWhile_eq_self_iff.mpr fun _ hc => decide_eq_true (ne_of_mem_of_not_mem hc h)

theorem zero_notMem_cStr (b : Bytes) : 0 ∉ cStr b := fun h => by
  have hne := List.mem_takeWhile_imp h
  simp at hne

/-- The value of a hexadecimal digit. -/
def hexDigit (c : UInt8) : Option Nat :=
  if '0'.toUInt8 ≤ c ∧ c ≤ '9'.toUInt8 then some (c.toNat - 48)
  else if 'A'.toUInt8 ≤ c ∧ c ≤ 'F'.toUInt8 then some (c.toNat - 55)
  else if 'a'.toUInt8 ≤ c ∧ c ≤ 'f'.toUInt8 then some (c.toNat - 87)
  else none

/-- The encoding of some list of characters. -/
def WellFormedUtf8 (b : Bytes) : Prop := ∃ cs : List Char, b = cs.flatMap String.utf8EncodeChar

/-- Every byte is below `0x80`. -/
def Ascii (b : Bytes) : Prop := ∀ x ∈ b, x < 128

instance (b : Bytes) : Decidable (Ascii b) := List.decidableBAll (· < 128) b

theorem encode_low {c : Char} (hc : c.val.toNat < 128) :
    String.utf8EncodeChar c = [UInt8.ofNat c.val.toNat] := by
  rw [String.utf8EncodeChar]
  exact if_pos (Nat.le_of_lt_succ hc)

/-- The bytes of a character that is not ASCII. -/
theorem encode_high {c : Char} (hc : 128 ≤ c.val.toNat) {x : UInt8}
    (hx : x ∈ String.utf8EncodeChar c) : 128 ≤ x ∧ x < 248 := by
  rw [String.utf8EncodeChar] at hx
  rw [if_neg (by omega)] at hx
  split_ifs at hx <;>
  · simp only [List.mem_cons, List.not_mem_nil, or_false] at hx
    rw [UInt8.le_iff_toNat_le, UInt8.lt_iff_toNat_lt]
    rcases hx with rfl | rfl | rfl | rfl <;>
    · rw [UInt8.toNat_ofNat']
      simp only [UInt8.toNat_ofNat]
      omega

theorem wellFormed_nil : WellFormedUtf8 [] := ⟨[], rfl⟩

theorem WellFormedUtf8.append {a b : Bytes} (ha : WellFormedUtf8 a) (hb : WellFormedUtf8 b) :
    WellFormedUtf8 (a ++ b) := by
  obtain ⟨as, rfl⟩ := ha
  obtain ⟨bs, rfl⟩ := hb
  exact ⟨as ++ bs, by simp⟩

/-- A byte below `0x80` is a character. -/
theorem wellFormed_singleton {x : UInt8} (hx : x < 128) : WellFormedUtf8 [x] := by
  have hval : (Char.ofUInt8 x).val.toNat = x.toNat := UInt8.toNat_toUInt32 x
  have hlt : x.toNat < 128 := UInt8.lt_iff_toNat_lt.mp hx
  refine ⟨[Char.ofUInt8 x], ?_⟩
  rw [List.flatMap_singleton, encode_low (by rwa [hval]), hval, UInt8.ofNat_toNat]

/-- The first character of a well-formed text: an ASCII byte, or a group of high bytes. -/
theorem WellFormedUtf8.uncons {x : UInt8} {b : Bytes} (h : WellFormedUtf8 (x :: b)) :
    (x < 128 ∧ WellFormedUtf8 b) ∨
    (128 ≤ x ∧ ∃ group rest, b = group ++ rest ∧ (∀ y ∈ group, 128 ≤ y) ∧
      WellFormedUtf8 (x :: group) ∧ WellFormedUtf8 rest) := by
  obtain ⟨cs, hcs⟩ := h
  cases cs with
  | nil => cases hcs
  | cons c cs =>
    rw [List.flatMap_cons] at hcs
    by_cases hc : c.val.toNat < 128
    · rw [encode_low hc] at hcs
      obtain ⟨rfl, rfl⟩ := List.cons_eq_cons.mp hcs
      refine .inl ⟨?_, cs, rfl⟩
      rw [UInt8.lt_iff_toNat_lt, UInt8.toNat_ofNat']
      simp only [UInt8.toNat_ofNat]
      omega
    · have hhigh := fun y hy => encode_high (c := c) (by omega) (x := y) hy
      cases hgroup : String.utf8EncodeChar c with
      | nil => exact absurd hgroup String.utf8EncodeChar_ne_nil
      | cons y group =>
        rw [hgroup] at hcs hhigh
        obtain ⟨rfl, rfl⟩ := List.cons_eq_cons.mp hcs
        exact .inr ⟨(hhigh x (by simp)).1, group, _, rfl, fun z hz => (hhigh z (by simp [hz])).1,
          ⟨[c], by simp [hgroup]⟩, cs, rfl⟩

theorem wellFormed_cons_iff {x : UInt8} (hx : x < 128) {b : Bytes} :
    WellFormedUtf8 (x :: b) ↔ WellFormedUtf8 b := by
  constructor
  · intro h
    rcases h.uncons with ⟨_, hrest⟩ | ⟨hhigh, _⟩
    · exact hrest
    · exact absurd hx (UInt8.not_lt.mpr hhigh)
  · exact fun h => (wellFormed_singleton hx).append h

theorem Ascii.wellFormed_append_iff {a b : Bytes} (ha : Ascii a) :
    WellFormedUtf8 (a ++ b) ↔ WellFormedUtf8 b := by
  induction a with
  | nil => rfl
  | cons x a ih =>
    rw [List.cons_append, wellFormed_cons_iff (ha x (by simp))]
    exact ih fun y hy => ha y (by simp [hy])

theorem Ascii.wellFormed {a : Bytes} (ha : Ascii a) : WellFormedUtf8 a := by
  rw [← List.append_nil a, ha.wellFormed_append_iff]
  exact wellFormed_nil

/-- An ASCII byte separates two texts. -/
theorem wellFormed_separated_iff {x : UInt8} (hx : x < 128) (a b : Bytes) :
    WellFormedUtf8 (a ++ x :: b) ↔ WellFormedUtf8 a ∧ WellFormedUtf8 b := by
  refine ⟨?_, fun ⟨ha, hb⟩ => ha.append ((wellFormed_cons_iff hx).mpr hb)⟩
  -- the first character of `a` is removed from both sides
  induction hn : a.length using Nat.strongRecOn generalizing a with
  | ind n ih =>
    intro h
    cases a with
    | nil => exact ⟨wellFormed_nil, (wellFormed_cons_iff hx).mp h⟩
    | cons y a =>
      simp only [List.length_cons] at hn
      rw [List.cons_append] at h
      rcases h.uncons with ⟨hy, hrest⟩ | ⟨_, group, rest, heq, hgroup, hfirst, hrest⟩
      · obtain ⟨ha, hb⟩ := ih a.length (by omega) a rfl hrest
        exact ⟨(wellFormed_cons_iff hy).mpr ha, hb⟩
      · obtain ⟨a', rfl, rfl⟩ : ∃ a', a = group ++ a' ∧ a' ++ x :: b = rest := by
          rcases List.append_eq_append_iff.mp heq with ⟨c, hc, hrest'⟩ | ⟨c, hc, hrest'⟩
          · cases c with
            | nil => exact ⟨[], by simpa using hc.symm, by simpa using hrest'⟩
            | cons z c =>
              obtain ⟨rfl, _⟩ := List.cons_eq_cons.mp hrest'
              exact absurd hx (UInt8.not_lt.mpr (hgroup x (by rw [hc]; simp)))
          · exact ⟨c, hc, hrest'.symm⟩
        obtain ⟨ha, hb⟩ := ih a'.length (by simp at hn; omega) a' rfl hrest
        exact ⟨hfirst.append ha, hb⟩

/-- No byte above `0xF7` occurs in UTF-8. -/
theorem WellFormedUtf8.lt {b : Bytes} (h : WellFormedUtf8 b) {x : UInt8} (hx : x ∈ b) :
    x < 248 := by
  obtain ⟨cs, rfl⟩ := h
  obtain ⟨c, _, hc⟩ := List.mem_flatMap.mp hx
  by_cases hlow : c.val.toNat < 128
  · rw [encode_low hlow] at hc
    rw [List.mem_singleton.mp hc, UInt8.lt_iff_toNat_lt, UInt8.toNat_ofNat']
    simp only [UInt8.toNat_ofNat]
    omega
  · exact (encode_high (by omega) hc).2

/-- Replacing low bytes by nonempty texts of low bytes, and copying the others. -/
structure Escaping (escape : UInt8 → Bytes) : Prop where
  low : ∀ x, x < 128 → Ascii (escape x) ∧ escape x ≠ []
  high : ∀ x, 128 ≤ x → escape x = [x]

namespace Escaping

variable {escape : UInt8 → Bytes}

theorem flatMap_high (he : Escaping escape) {b : Bytes} (hb : ∀ x ∈ b, 128 ≤ x) :
    b.flatMap escape = b := by
  induction b with
  | nil => rfl
  | cons x b ih =>
    rw [List.flatMap_cons, he.high x (hb x (by simp)), ih fun y hy => hb y (by simp [hy])]
    rfl

/-- What starts with high bytes after the replacement started with them before. -/
theorem flatMap_eq_append (he : Escaping escape) {b group rest : Bytes}
    (hg : ∀ x ∈ group, 128 ≤ x) (heq : b.flatMap escape = group ++ rest) :
    ∃ b', b = group ++ b' ∧ b'.flatMap escape = rest := by
  induction group generalizing b with
  | nil => exact ⟨b, rfl, heq⟩
  | cons y group ih =>
    cases b with
    | nil => cases heq
    | cons x b =>
      rw [List.flatMap_cons] at heq
      by_cases hx : x < 128
      · obtain ⟨hascii, hne⟩ := he.low x hx
        cases hesc : escape x with
        | nil => exact absurd hesc hne
        | cons z zs =>
          rw [hesc] at heq hascii
          obtain ⟨rfl, _⟩ := List.cons_eq_cons.mp heq
          exact absurd (hascii z (by simp)) (UInt8.not_lt.mpr (hg z (by simp)))
      · rw [he.high x (UInt8.not_lt.mp hx)] at heq
        obtain ⟨rfl, hrest⟩ := List.cons_eq_cons.mp heq
        obtain ⟨b', rfl, hb'⟩ := ih (fun z hz => hg z (by simp [hz])) hrest
        exact ⟨b', rfl, hb'⟩

/-- Escaping keeps and reflects well-formedness. -/
theorem wellFormed_iff (he : Escaping escape) (b : Bytes) :
    WellFormedUtf8 (b.flatMap escape) ↔ WellFormedUtf8 b := by
  -- each step removes a byte or a group of bytes from both sides
  induction hn : b.length using Nat.strongRecOn generalizing b with
  | ind n ih =>
    cases b with
    | nil => rfl
    | cons x b =>
      simp only [List.length_cons] at hn
      by_cases hx : x < 128
      · have hrest := ih b.length (by omega) b rfl
        rw [List.flatMap_cons, (he.low x hx).1.wellFormed_append_iff, wellFormed_cons_iff hx, hrest]
      · have hhigh := UInt8.not_lt.mp hx
        rw [List.flatMap_cons, he.high x hhigh]
        constructor
        · intro h
          rcases h.uncons with ⟨hlow, _⟩ | ⟨_, group, rest, heq, hgroup, hfirst, hrest⟩
          · exact absurd hlow hx
          · obtain ⟨b', rfl, rfl⟩ := he.flatMap_eq_append hgroup heq
            exact hfirst.append ((ih b'.length (by simp at hn; omega) b' rfl).mp hrest)
        · intro h
          rcases h.uncons with ⟨hlow, _⟩ | ⟨_, group, rest, rfl, hgroup, hfirst, hrest⟩
          · exact absurd hlow hx
          · rw [List.flatMap_append, he.flatMap_high hgroup, ← List.append_assoc]
            exact hfirst.append ((ih rest.length (by simp at hn; omega) rest rfl).mpr hrest)

end Escaping

end LockFreeKV.Lib
