import LockFreeKV.Http.UrlDecode

/-!
# Where `url_decode` reads

One round of the loop reads the character at the index, and the two behind it when
the test `i < len - 2` lets it. The test is made at a percent sign only, and its
subtraction wraps around for a string of length one: a percent sign alone is the one
string on which the decoder leaves its input.
-/
namespace LockFreeKV.Http

open LockFreeKV.Lib

/-- The test in front of a look at the next two characters. -/
def lookahead (value : Bytes) (i : Nat) : Bool := decide (i < sizeSub value.length 2)

/-- A round at `i` comes to the test: it is at a percent sign. -/
def Tests (value : Bytes) (i : Nat) : Prop := charAt value i = .ok '%'.toUInt8

instance (value : Bytes) (i : Nat) : Decidable (Tests value i) :=
  inferInstanceAs (Decidable (charAt value i = .ok '%'.toUInt8))

/-- The indices that the round at `i` reads. -/
def roundReads (value : Bytes) (i : Nat) : List Nat :=
  if Tests value i ∧ lookahead value i = true then [i, i + 1, i + 2] else [i]

/-- The round at `i`: the index of the next one and the character that is appended. -/
def round (value : Bytes) (i : Nat) : Except Fault (Nat × UInt8) := do
  let c ← charAt value i
  if c = '+'.toUInt8 then return (i + 1, ' '.toUInt8)
  else if c = '%'.toUInt8 ∧ lookahead value i then
    let first ← charAt value (i + 1)
    let second ← charAt value (i + 2)
    let (matched, number) := sscanfHex [first, second, 0] 0
    if eof ≠ matched then return (i + 3, number.toUInt8) else return (i + 1, c)
  else return (i + 1, c)

/-- The loop is its rounds. -/
theorem urlDecodeLoop_round (value : Bytes) (fuel : Nat) {i : Nat} (hi : i < value.length)
    (result : Bytes) :
    urlDecodeLoop value (fuel + 1) i result = (do
      let (i', c) ← round value i
      urlDecodeLoop value fuel i' (result ++ [c])) := by
  rw [urlDecodeLoop, if_pos hi, round]
  cases charAt value i with
  | error fault => rfl
  | ok c =>
    simp only [bind, Except.bind, lookahead, decide_eq_true_eq]
    split_ifs
    · rfl
    · cases charAt value (i + 1) with
      | error fault => rfl
      | ok first =>
        cases charAt value (i + 2) with
        | error fault => rfl
        | ok second =>
          simp only
          split <;> rfl
    · rfl

/-- The loop comes to the index `i`, at the start or behind a round. -/
inductive Reaches (value : Bytes) : Nat → Prop
  | start : Reaches value 0
  | next {i i' : Nat} {c : UInt8} (h : Reaches value i) (hi : i < value.length)
      (hround : round value i = .ok (i', c)) : Reaches value i'

/-- The decoder reads its string and the terminating NUL only, and comes to an end with no more
characters than the string has. -/
structure StaysInside (value : Bytes) : Prop where
  index_le : ∀ i, Reaches value i → i ≤ value.length
  reads_le : ∀ i, Reaches value i → i < value.length → ∀ j ∈ roundReads value i, j ≤ value.length
  test_lt : ∀ i, Reaches value i → i < value.length → Tests value i → lookahead value i = true →
    i + 2 < value.length
  advances : ∀ i, Reaches value i → i < value.length →
    ∃ i' c, round value i = .ok (i', c) ∧ i < i' ∧ i' ≤ value.length
  ends : ∃ result, urlDecode value = .ok result ∧ result.length ≤ value.length

theorem charAt_of_lt {value : Bytes} {i : Nat} (hi : i < value.length) :
    charAt value i = .ok value[i] := dif_pos hi

/-- The test is right unless the string is a lone percent sign. -/
theorem lookahead_lt {value : Bytes} (hlone : value ≠ ['%'.toUInt8]) {i : Nat}
    (hi : i < value.length) (htest : Tests value i) (hlook : lookahead value i = true) :
    i + 2 < value.length := by
  have hlt : i < sizeSub value.length 2 := of_decide_eq_true hlook
  unfold sizeSub at hlt
  split at hlt
  · omega
  · next hshort =>
    -- a string of one character, which is the percent sign
    obtain ⟨c, rfl⟩ : ∃ c, value = [c] := List.length_eq_one_iff.mp (by omega)
    obtain rfl : i = 0 := by simpa using hi
    exact absurd (congrArg (fun c => [c]) (Except.ok.inj htest)) hlone

/-- One round moves on, inside the string. -/
theorem round_advances {value : Bytes} (hlone : value ≠ ['%'.toUInt8]) {i : Nat}
    (hi : i < value.length) :
    ∃ i' c, round value i = .ok (i', c) ∧ i < i' ∧ i' ≤ value.length := by
  have hc := charAt_of_lt hi
  rw [round, hc]
  simp only [bind, Except.bind, pure, Except.pure]
  split_ifs with hplus hpercent
  · exact ⟨i + 1, _, rfl, by omega, hi⟩
  · have hlt := lookahead_lt hlone hi (hc.trans (congrArg Except.ok hpercent.1)) hpercent.2
    rw [charAt_of_lt (by omega), charAt_of_lt hlt]
    simp only
    split
    · exact ⟨i + 3, _, rfl, by omega, hlt⟩
    · exact ⟨i + 1, _, rfl, by omega, hi⟩
  · exact ⟨i + 1, _, rfl, by omega, hi⟩

theorem Reaches.le {value : Bytes} (hlone : value ≠ ['%'.toUInt8]) {i : Nat}
    (h : Reaches value i) : i ≤ value.length := by
  induction h with
  | start => exact Nat.zero_le _
  | next _ hi hround _ =>
    obtain ⟨i', c, hround', _, hle⟩ := round_advances hlone hi
    rw [hround] at hround'
    cases hround'
    exact hle

theorem charAt_error_iff {value : Bytes} {i : Nat} :
    (∃ fault, charAt value i = .error fault) ↔ value.length < i := by
  unfold charAt
  split_ifs with hlt heq
  · simpa using Nat.le_of_lt hlt
  · simp [heq]
  · simp only [Except.error.injEq, exists_eq', true_iff]
    omega

/-- A round is at fault exactly when it reads behind the terminating NUL. -/
theorem round_error_iff {value : Bytes} {i : Nat} :
    (∃ fault, round value i = .error fault) ↔ ∃ j ∈ roundReads value i, value.length < j := by
  by_cases hlook : Tests value i ∧ lookahead value i = true
  · have hc : charAt value i = .ok '%'.toUInt8 := hlook.1
    have hplus : '%'.toUInt8 ≠ '+'.toUInt8 := by decide
    rw [round, hc, roundReads, if_pos hlook]
    simp only [bind, Except.bind, if_neg hplus, hlook.2, and_self, if_true, List.mem_cons,
      List.not_mem_nil, or_false, exists_eq_or_imp, exists_eq_left, ← charAt_error_iff, hc]
    cases charAt value (i + 1) with
    | error fault => simp
    | ok first =>
      cases charAt value (i + 2) with
      | error fault => simp
      | ok second =>
        simp only
        split <;> simp [pure, Except.pure]
  · rw [round, roundReads, if_neg hlook]
    simp only [List.mem_singleton, exists_eq_left, ← charAt_error_iff]
    cases hc : charAt value i with
    | error fault => simp [bind, Except.bind]
    | ok c =>
      have hno : ¬ (c = '%'.toUInt8 ∧ lookahead value i = true) := by
        rintro ⟨rfl, hahead⟩
        exact hlook ⟨hc, hahead⟩
      simp only [bind, Except.bind, if_neg hno]
      split <;> simp [pure, Except.pure]

theorem roundReads_le {value : Bytes} (hlone : value ≠ ['%'.toUInt8]) {i : Nat}
    (hi : i < value.length) : ∀ j ∈ roundReads value i, j ≤ value.length := by
  intro j hj
  refine Nat.le_of_not_lt fun hbehind => ?_
  obtain ⟨fault, hfault⟩ := round_error_iff.mpr ⟨j, hj, hbehind⟩
  obtain ⟨i', c, hround, -⟩ := round_advances hlone hi
  rw [hfault] at hround
  cases hround

/-- **Where `url_decode` stays inside its input**: on every string but a lone percent sign. -/
theorem staysInside_iff (value : Bytes) : StaysInside value ↔ value ≠ ['%'.toUInt8] := by
  constructor
  · intro hinside hlone
    subst hlone
    have htest := hinside.test_lt 0 .start (by decide) (by decide) (by decide)
    exact absurd htest (by decide)
  · intro hlone
    refine ⟨fun i h => h.le hlone, fun i _ hi => roundReads_le hlone hi,
      fun i _ hi => lookahead_lt hlone hi, fun i _ hi => round_advances hlone hi, ?_⟩
    by_cases hempty : value = []
    · subst hempty
      exact ⟨[], rfl, Nat.le_refl 0⟩
    · obtain ⟨result, hdecode, _, hlen⟩ := urlDecode_ok hempty hlone
      exact ⟨result, hdecode, hlen⟩

/-- At a lone percent sign the test holds and the character behind the terminating NUL is read. -/
theorem lonePercent_leaves : lookahead ['%'.toUInt8] 0 = true ∧
    2 ∈ roundReads ['%'.toUInt8] 0 ∧ ¬ 2 ≤ ['%'.toUInt8].length ∧ ¬ StaysInside ['%'.toUInt8] := by
  refine ⟨by decide, by decide, by decide, fun hinside => ?_⟩
  have hread := hinside.reads_le 0 .start (by decide) 2 (by decide)
  exact absurd hread (by decide)

end LockFreeKV.Http
