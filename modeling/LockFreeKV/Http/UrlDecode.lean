import LockFreeKV.Lib.Bytes
import Mathlib.Algebra.Group.Nat.Defs
import Mathlib.Data.List.TakeWhile

/-!
# `HttpServerHelpers::url_decode`

The decoder walks an index over the string and hands the two characters behind a
percent sign to `sscanf("%x")`. It takes every answer but `EOF` for a decoded byte,
while `sscanf` reports a mismatch with 0 and reads a prefix of its input: so a
malformed escape is kept only where the two characters are blank.
-/
namespace LockFreeKV.Http

open LockFreeKV.Lib

/-- A read of the loop that has no value, or a loop that is not over in `fuel` rounds. -/
inductive Fault
  | outOfBounds
  | outOfFuel
  deriving DecidableEq, Repr

/-- `value[i]`: the character behind the last one is NUL, further ones do not exist. -/
def charAt (value : Bytes) (i : Nat) : Except Fault UInt8 :=
  if h : i < value.length then .ok value[i]
  else if i = value.length then .ok 0
  else .error .outOfBounds

/-- Subtraction of `size_t` values. -/
def sizeSub (a b : Nat) : Nat := if b ≤ a then a - b else a + 2 ^ 64 - b

/-- `isspace` in the C locale. -/
def isSpace (c : UInt8) : Bool := c == ' '.toUInt8 || (9 ≤ c && c ≤ 13)

/-- The digits at the front of a string. -/
def hexDigits : Bytes → List Nat
  | [] => []
  | c :: rest =>
    match hexDigit c with
    | some d => d :: hexDigits rest
    | none => []

/-- An optional `0x` or `0X`. -/
def skipPrefix : Bytes → Bytes
  | c :: x :: rest =>
    if c = '0'.toUInt8 ∧ (x = 'x'.toUInt8 ∨ x = 'X'.toUInt8) then rest else c :: x :: rest
  | b => b

/-- `EOF`. -/
def eof : Int := -1

/-- `sscanf(buf, "%x", &number)`: what it returns and what `number` holds afterwards. The
directive skips white space and reads a sign, a prefix and digits. -/
def sscanfHex (buf : Bytes) (number : UInt32) : Int × UInt32 :=
  match (cStr buf).dropWhile isSpace with
  | [] => (eof, number)
  | c :: rest =>
    let body := if c = '-'.toUInt8 ∨ c = '+'.toUInt8 then rest else c :: rest
    match hexDigits (skipPrefix body) with
    | [] => (0, number)
    | digits =>
      let n := UInt32.ofNat (digits.foldl (fun n d => 16 * n + d) 0)
      (1, if c = '-'.toUInt8 then 0 - n else n)

/-- The loop of `url_decode`. -/
def urlDecodeLoop (value : Bytes) : Nat → Nat → Bytes → Except Fault Bytes
  | 0, i, result => if i < value.length then .error .outOfFuel else .ok result
  | fuel + 1, i, result =>
    if i < value.length then do
      let c ← charAt value i
      if c = '+'.toUInt8 then
        urlDecodeLoop value fuel (i + 1) (result ++ [' '.toUInt8])
      else if c = '%'.toUInt8 ∧ i < sizeSub value.length 2 then
        let first ← charAt value (i + 1)
        let second ← charAt value (i + 2)
        let (matched, number) := sscanfHex [first, second, 0] 0
        if eof ≠ matched then
          urlDecodeLoop value fuel (i + 3) (result ++ [number.toUInt8])
        else
          urlDecodeLoop value fuel (i + 1) (result ++ [c])
      else
        urlDecodeLoop value fuel (i + 1) (result ++ [c])
    else .ok result

/-- `url_decode`. Every round moves the index, so there are at most `length` of them. -/
def urlDecode (value : Bytes) : Except Fault Bytes := urlDecodeLoop value value.length 0 []

/-- The decoder that turns `%hh` into one byte, `+` into a space, and copies the rest. -/
def referenceDecode : Bytes → Bytes
  | [] => []
  | c :: rest =>
    if c = '+'.toUInt8 then ' '.toUInt8 :: referenceDecode rest
    else if c = '%'.toUInt8 then
      match rest with
      | first :: second :: rest' =>
        match hexDigit first, hexDigit second with
        | some x, some y => UInt8.ofNat (16 * x + y) :: referenceDecode rest'
        | _, _ => c :: referenceDecode (first :: second :: rest')
      | [] => [c]
      | [x] => c :: referenceDecode [x]
    else c :: referenceDecode rest

/-! ## What `sscanf` answers on two characters -/

/-- The facts about hexadecimal digits that the scan depends on. -/
theorem hexDigit_some {c : UInt8} {d : Nat} (h : hexDigit c = some d) :
    d < 16 ∧ c ≠ 0 ∧ isSpace c = false ∧ c ≠ '-'.toUInt8 ∧ c ≠ '+'.toUInt8 ∧
      c ≠ 'x'.toUInt8 ∧ c ≠ 'X'.toUInt8 := by
  have hall : ∀ n < 256, (hexDigit (UInt8.ofNat n)).all (fun d => decide (d < 16 ∧
      UInt8.ofNat n ≠ 0 ∧ isSpace (UInt8.ofNat n) = false ∧ UInt8.ofNat n ≠ '-'.toUInt8 ∧
      UInt8.ofNat n ≠ '+'.toUInt8 ∧ UInt8.ofNat n ≠ 'x'.toUInt8 ∧
      UInt8.ofNat n ≠ 'X'.toUInt8)) = true := by decide +kernel
  have hc := hall c.toNat c.toNat_lt
  rw [UInt8.ofNat_toNat, h] at hc
  simpa only [Option.all_some, decide_eq_true_eq] using hc

/-- Two digits are read as a number of two digits. -/
theorem sscanfHex_digits {first second : UInt8} {x y : Nat} (hx : hexDigit first = some x)
    (hy : hexDigit second = some y) :
    sscanfHex [first, second, 0] 0 = (1, UInt32.ofNat (16 * x + y)) := by
  obtain ⟨_, h0, hspace, hminus, hplus, _⟩ := hexDigit_some hx
  obtain ⟨_, h0', _, _, _, hlow, hupp⟩ := hexDigit_some hy
  have hbuf : (cStr [first, second, 0]).dropWhile isSpace = [first, second] := by
    simp [cStr, h0, h0', hspace]
  have hprefix : skipPrefix [first, second] = [first, second] := by
    simp [skipPrefix, hlow, hupp]
  simp [sscanfHex, hbuf, hminus, hplus, hprefix, hexDigits, hx, hy]

/-- The end of the string comes before anything but white space. -/
def blank (first second : UInt8) : Bool := (cStr [first, second]).all isSpace

theorem sscanfHex_eof_iff (first second : UInt8) :
    (sscanfHex [first, second, 0] 0).1 = eof ↔ blank first second = true := by
  have hcut : cStr [first, second, 0] = cStr [first, second] := by
    by_cases h : first = 0 <;> by_cases h' : second = 0 <;> simp [cStr, h, h']
  unfold sscanfHex blank
  rw [hcut]
  cases ht : (cStr [first, second]).dropWhile isSpace with
  | nil => simpa [List.dropWhile_eq_nil_iff] using ht
  | cons c rest =>
    have hno : ¬ ∀ x ∈ cStr [first, second], isSpace x = true := fun hall => by
      rw [List.dropWhile_eq_nil_iff.mpr hall] at ht
      cases ht
    simp only [List.all_eq_true, hno, iff_false]
    split
    · exact fun h => absurd h (show (0 : Int) ≠ -1 by decide)
    · exact fun h => absurd h (show (1 : Int) ≠ -1 by decide)

theorem hexDigits_length_le (b : Bytes) : (hexDigits b).length ≤ b.length := by
  induction b with
  | nil => exact Nat.le_refl 0
  | cons c b ih =>
    rw [hexDigits]
    split
    · exact Nat.succ_le_succ ih
    · exact Nat.zero_le _

theorem skipPrefix_length_le (b : Bytes) : (skipPrefix b).length ≤ b.length := by
  unfold skipPrefix
  split
  · split
    · simp only [List.length_cons]
      omega
    · exact Nat.le_refl _
  · exact Nat.le_refl _

theorem hexDigits_lt {b : Bytes} {d : Nat} (hd : d ∈ hexDigits b) : d < 16 := by
  induction b with
  | nil => cases hd
  | cons c b ih =>
    rw [hexDigits] at hd
    split at hd
    · next x hx =>
      rcases List.mem_cons.mp hd with rfl | hd
      · exact (hexDigit_some hx).1
      · exact ih hd
    · cases hd

/-- Two characters that are not both digits have at most one digit to read. -/
theorem body_digits {first second c : UInt8} {rest : Bytes}
    (hno : ∀ x y, hexDigit first = some x → hexDigit second ≠ some y)
    (ht : (cStr [first, second, 0]).dropWhile isSpace = c :: rest) :
    (hexDigits (skipPrefix (if c = '-'.toUInt8 ∨ c = '+'.toUInt8 then rest else c :: rest))).length
      ≤ 1 := by
  have hshort : ∀ b : Bytes, b.length ≤ 1 → (hexDigits (skipPrefix b)).length ≤ 1 := fun b hb =>
    (hexDigits_length_le _).trans ((skipPrefix_length_le b).trans hb)
  by_cases h0 : first = 0
  · simp [cStr, h0] at ht
  by_cases hspace : isSpace first = true
  · -- the blank is skipped and at most one character is left
    refine hshort _ ?_
    by_cases h0' : second = 0
    · simp [cStr, h0, h0', hspace] at ht
    · by_cases hspace' : isSpace second = true
      · simp [cStr, h0, h0', hspace, hspace'] at ht
      · obtain ⟨rfl, rfl⟩ : second = c ∧ [] = rest := by
          simpa [cStr, h0, h0', hspace, hspace'] using ht
        split <;> simp
  · by_cases h0' : second = 0
    · obtain ⟨rfl, rfl⟩ : first = c ∧ [] = rest := by simpa [cStr, h0, h0', hspace] using ht
      exact hshort _ (by split <;> simp)
    · obtain ⟨rfl, rfl⟩ : first = c ∧ [second] = rest := by
        simpa [cStr, h0, h0', hspace] using ht
      by_cases hsign : first = '-'.toUInt8 ∨ first = '+'.toUInt8
      · rw [if_pos hsign]
        exact hshort _ (Nat.le_refl 1)
      · rw [if_neg hsign, skipPrefix]
        split
        · exact Nat.zero_le 1
        · cases hx : hexDigit first with
          | none => simp [hexDigits, hx]
          | some x =>
            cases hy : hexDigit second with
            | none => simp [hexDigits, hx, hy]
            | some y => exact absurd hy (hno x y hx)

/-- A number of at most one digit, with or without a sign, is not the code of `%`. -/
theorem one_digit_ne_percent {d : Nat} (hd : d < 16) :
    (UInt32.ofNat d).toUInt8 ≠ '%'.toUInt8 ∧ (0 - UInt32.ofNat d).toUInt8 ≠ '%'.toUInt8 := by
  have hall : ∀ d < 16, (UInt32.ofNat d).toUInt8 ≠ '%'.toUInt8 ∧
      (0 - UInt32.ofNat d).toUInt8 ≠ '%'.toUInt8 := by decide
  exact hall d hd

/-- Where the two characters are not both digits but `sscanf` finds something, the byte that
the decoder emits is never the percent sign. -/
theorem sscanfHex_mismatch {first second : UInt8}
    (hno : ∀ x y, hexDigit first = some x → hexDigit second ≠ some y)
    (hmatched : (sscanfHex [first, second, 0] 0).1 ≠ eof) :
    (sscanfHex [first, second, 0] 0).2.toUInt8 ≠ '%'.toUInt8 := by
  unfold sscanfHex at hmatched ⊢
  cases ht : (cStr [first, second, 0]).dropWhile isSpace with
  | nil => simp [ht] at hmatched
  | cons c rest =>
    have hone := body_digits hno ht
    simp only
    generalize hdigits : hexDigits (skipPrefix (if c = '-'.toUInt8 ∨ c = '+'.toUInt8 then rest
      else c :: rest)) = digits at hone
    match digits, hone with
    | [], _ => exact (by decide : (0 : UInt32).toUInt8 ≠ '%'.toUInt8)
    | [d], _ =>
      have hd : d < 16 := hexDigits_lt (by rw [hdigits]; simp)
      simp only [List.foldl_cons, List.foldl_nil, Nat.mul_zero, Nat.zero_add]
      split
      · exact (one_digit_ne_percent hd).2
      · exact (one_digit_ne_percent hd).1

/-! ## The loop, on what is left of the string -/

/-- The decoder as a function of the rest of the string. -/
def decodeRest : Bytes → Bytes
  | [] => []
  | c :: rest =>
    if c = '+'.toUInt8 then ' '.toUInt8 :: decodeRest rest
    else if c = '%'.toUInt8 then
      match rest with
      | first :: second :: rest' =>
        if eof ≠ (sscanfHex [first, second, 0] 0).1 then
          (sscanfHex [first, second, 0] 0).2.toUInt8 :: decodeRest rest'
        else c :: decodeRest (first :: second :: rest')
      | [] => [c]
      | [x] => c :: decodeRest [x]
    else c :: decodeRest rest

theorem decodeRest_cons (c : UInt8) (rest : Bytes) :
    decodeRest (c :: rest) =
      if c = '+'.toUInt8 then ' '.toUInt8 :: decodeRest rest
      else if c = '%'.toUInt8 then
        match rest with
        | first :: second :: rest' =>
          if eof ≠ (sscanfHex [first, second, 0] 0).1 then
            (sscanfHex [first, second, 0] 0).2.toUInt8 :: decodeRest rest'
          else c :: decodeRest (first :: second :: rest')
        | [] => [c]
        | [x] => c :: decodeRest [x]
      else c :: decodeRest rest :=
  decodeRest.eq_def (c :: rest)

theorem charAt_drop {value rest : Bytes} {c : UInt8} {i : Nat}
    (h : value.drop i = c :: rest) : charAt value i = .ok c ∧ value.drop (i + 1) = rest := by
  have hi : i < value.length := by
    by_contra hge
    rw [List.drop_eq_nil_of_le (Nat.le_of_not_lt hge)] at h
    cases h
  rw [List.drop_eq_getElem_cons hi] at h
  obtain ⟨rfl, rfl⟩ := List.cons_eq_cons.mp h
  exact ⟨by simp [charAt, hi], rfl⟩

/-- From index `i` on the loop decodes the rest of the string. -/
theorem urlDecodeLoop_eq {value : Bytes} (hlen : 2 ≤ value.length) {fuel i : Nat}
    (hfuel : value.length ≤ i + fuel) (result : Bytes) :
    urlDecodeLoop value fuel i result = .ok (result ++ decodeRest (value.drop i)) := by
  induction fuel generalizing i result with
  | zero =>
    rw [urlDecodeLoop, if_neg (by omega), List.drop_eq_nil_of_le (by omega)]
    simp [decodeRest]
  | succ fuel ih =>
    by_cases hi : i < value.length
    · cases hrest : value.drop i with
      | nil =>
        have hle := List.drop_eq_nil_iff.mp hrest
        omega
      | cons c rest =>
        obtain ⟨hc, hdrop⟩ := charAt_drop hrest
        have hnext : ∀ r, urlDecodeLoop value fuel (i + 1) r = .ok (r ++ decodeRest rest) :=
          fun r => by rw [ih (by omega), hdrop]
        have hsize : value.length = i + (rest.length + 1) := by
          rw [← List.length_cons, ← hrest, List.length_drop]
          omega
        have hguard : i < sizeSub value.length 2 ↔ 2 ≤ rest.length := by
          rw [sizeSub, if_pos hlen]
          omega
        simp only [urlDecodeLoop, if_pos hi, hc, bind, Except.bind]
        rw [decodeRest_cons]
        by_cases hplus : c = '+'.toUInt8
        · rw [if_pos hplus, if_pos hplus, hnext, List.append_assoc]
          rfl
        · rw [if_neg hplus, if_neg hplus]
          by_cases hpercent : c = '%'.toUInt8
          · rw [if_pos hpercent]
            match rest, hdrop with
            | [], _ =>
              rw [if_neg (by simp [hguard]), hnext]
              simp [decodeRest]
            | [x], _ =>
              rw [if_neg (by simp [hguard]), hnext, List.append_assoc]
              rfl
            | first :: second :: rest, hdrop =>
              obtain ⟨hfirst, hdrop1⟩ := charAt_drop hdrop
              obtain ⟨hsecond, hdrop2⟩ := charAt_drop hdrop1
              rw [if_pos ⟨hpercent, by simp [hguard]⟩]
              simp only [hfirst, hsecond]
              split
              · rw [ih (by omega), hdrop2, List.append_assoc]
                rfl
              · rw [hnext, List.append_assoc]
                rfl
          · rw [if_neg (fun h => hpercent h.1), if_neg hpercent, hnext, List.append_assoc]
            rfl
    · rw [urlDecodeLoop, if_neg hi, List.drop_eq_nil_of_le (by omega)]
      simp [decodeRest]

/-- A string of at least two characters is decoded without leaving it. -/
theorem urlDecode_eq {value : Bytes} (hlen : 2 ≤ value.length) :
    urlDecode value = .ok (decodeRest value) :=
  urlDecodeLoop_eq hlen (by omega) []

theorem decodeRest_length_le (b : Bytes) : (decodeRest b).length ≤ b.length := by
  induction hn : b.length using Nat.strongRecOn generalizing b with
  | ind n ih =>
    subst hn
    have ih' : ∀ b' : Bytes, b'.length < b.length → (decodeRest b').length ≤ b'.length :=
      fun b' hlt => ih b'.length hlt b' rfl
    match b with
    | [] => exact Nat.le_refl 0
    | [c] =>
      rw [decodeRest_cons]
      split_ifs <;> simp [decodeRest]
    | c :: first :: rest =>
      have hstep := ih' (first :: rest) (by simp)
      rw [decodeRest_cons]
      simp only [List.length_cons] at hstep ⊢
      split
      · simpa using hstep
      · split
        · cases rest with
          | nil => simpa using hstep
          | cons second rest =>
            have hskip := ih' rest (by simp; omega)
            simp only [List.length_cons] at hstep ⊢
            split <;> simp only [List.length_cons] <;> omega
        · simpa using hstep

theorem decodeRest_ne_nil {b : Bytes} (hb : b ≠ []) : decodeRest b ≠ [] := by
  cases b with
  | nil => exact absurd rfl hb
  | cons c rest =>
    rw [decodeRest_cons]
    split_ifs
    · simp
    · split
      · split_ifs <;> simp
      · simp
      · simp
    · simp

/-- Every string but a lone percent sign is decoded, to no more bytes, and to none only if it
is empty. -/
theorem urlDecode_ok {value : Bytes} (hne : value ≠ []) (hlone : value ≠ ['%'.toUInt8]) :
    ∃ name, urlDecode value = .ok name ∧ name ≠ [] ∧ name.length ≤ value.length := by
  match value with
  | [] => exact absurd rfl hne
  | [c] =>
    have hc : c ≠ '%'.toUInt8 := fun hc => hlone (by rw [hc])
    by_cases hplus : c = '+'.toUInt8
    · exact ⟨[' '.toUInt8], by subst hplus; rfl, by simp, by simp⟩
    · refine ⟨[c], ?_, by simp, by simp⟩
      simp [urlDecode, urlDecodeLoop, charAt, hplus, hc, bind, Except.bind]
  | c :: d :: rest =>
    exact ⟨_, urlDecode_eq (by simp), decodeRest_ne_nil (by simp), decodeRest_length_le _⟩

example : urlDecode (ofString "a%20b+c%2fd%") = .ok (ofString "a b c/d%") := by decide

/-! ## Against the reference decoder -/

theorem referenceDecode_cons (c : UInt8) (rest : Bytes) :
    referenceDecode (c :: rest) =
      if c = '+'.toUInt8 then ' '.toUInt8 :: referenceDecode rest
      else if c = '%'.toUInt8 then
        match rest with
        | first :: second :: rest' =>
          match hexDigit first, hexDigit second with
          | some x, some y => UInt8.ofNat (16 * x + y) :: referenceDecode rest'
          | _, _ => c :: referenceDecode (first :: second :: rest')
        | [] => [c]
        | [x] => c :: referenceDecode [x]
      else c :: referenceDecode rest :=
  referenceDecode.eq_def (c :: rest)

/-- Every percent sign that is met with two characters behind it is followed by two digits, or
by two characters of which `sscanf` sees no more than white space. -/
def cleanEscapes : Bytes → Bool
  | [] => true
  | c :: rest =>
    if c = '%'.toUInt8 then
      match rest with
      | first :: second :: rest' =>
        if (hexDigit first).isSome ∧ (hexDigit second).isSome then cleanEscapes rest'
        else blank first second && cleanEscapes (first :: second :: rest')
      | [] => true
      | [_] => true
    else cleanEscapes rest

theorem cleanEscapes_cons (c : UInt8) (rest : Bytes) :
    cleanEscapes (c :: rest) =
      if c = '%'.toUInt8 then
        match rest with
        | first :: second :: rest' =>
          if (hexDigit first).isSome ∧ (hexDigit second).isSome then cleanEscapes rest'
          else blank first second && cleanEscapes (first :: second :: rest')
        | [] => true
        | [_] => true
      else cleanEscapes rest :=
  cleanEscapes.eq_def (c :: rest)

/-- At a percent sign with two characters behind it. -/
theorem decodeRest_percent {first second : UInt8} {rest : Bytes}
    (ih : ∀ b : Bytes, b.length ≤ rest.length + 2 →
      (decodeRest b = referenceDecode b ↔ cleanEscapes b = true)) :
    decodeRest ('%'.toUInt8 :: first :: second :: rest) =
        referenceDecode ('%'.toUInt8 :: first :: second :: rest) ↔
      cleanEscapes ('%'.toUInt8 :: first :: second :: rest) = true := by
  have hne : '%'.toUInt8 ≠ '+'.toUInt8 := by decide
  rw [decodeRest_cons, referenceDecode_cons, cleanEscapes_cons, if_neg hne, if_neg hne, if_pos rfl,
    if_pos rfl, if_pos rfl]
  simp only
  by_cases hhex : (hexDigit first).isSome ∧ (hexDigit second).isSome
  · obtain ⟨x, hx⟩ := Option.isSome_iff_exists.mp hhex.1
    obtain ⟨y, hy⟩ := Option.isSome_iff_exists.mp hhex.2
    rw [if_pos hhex, sscanfHex_digits hx hy, if_pos (by decide : eof ≠ 1), hx, hy]
    simp only [UInt32.toUInt8_ofNat', List.cons.injEq, true_and]
    exact ih rest (by omega)
  · have hno : ∀ x y, hexDigit first = some x → hexDigit second ≠ some y := fun x y hx hy =>
      hhex ⟨by simp [hx], by simp [hy]⟩
    have href : (match hexDigit first, hexDigit second with
        | some x, some y => UInt8.ofNat (16 * x + y) :: referenceDecode rest
        | _, _ => '%'.toUInt8 :: referenceDecode (first :: second :: rest)) =
        '%'.toUInt8 :: referenceDecode (first :: second :: rest) := by
      split
      · next x y hx hy => exact absurd hy (hno x y hx)
      · rfl
    rw [if_neg hhex, href]
    by_cases hblank : blank first second = true
    · have heof := (sscanfHex_eof_iff first second).mpr hblank
      rw [if_neg (by simp [heof]), hblank, Bool.true_and, List.cons.injEq]
      simp only [true_and]
      exact ih _ (by simp)
    · have hmatched : (sscanfHex [first, second, 0] 0).1 ≠ eof := fun heof =>
        hblank ((sscanfHex_eof_iff first second).mp heof)
      rw [if_pos hmatched.symm, Bool.eq_false_iff.mpr hblank]
      simp [sscanfHex_mismatch hno hmatched]

theorem decodeRest_eq_reference_iff (b : Bytes) :
    decodeRest b = referenceDecode b ↔ cleanEscapes b = true := by
  induction hn : b.length using Nat.strongRecOn generalizing b with
  | ind n ih =>
    subst hn
    have ih' : ∀ b' : Bytes, b'.length < b.length →
        (decodeRest b' = referenceDecode b' ↔ cleanEscapes b' = true) :=
      fun b' hlt => ih b'.length hlt b' rfl
    match b with
    | [] => simp [decodeRest, referenceDecode, cleanEscapes]
    | c :: rest =>
      by_cases hpercent : c = '%'.toUInt8
      · subst hpercent
        match rest with
        | [] => decide
        | [x] =>
          have hclean : cleanEscapes [x] = true := by
            rw [cleanEscapes_cons]
            split <;> rfl
          have hsame := (ih' [x] (by simp)).mpr hclean
          simp [decodeRest_cons '%'.toUInt8, referenceDecode_cons '%'.toUInt8,
            cleanEscapes_cons '%'.toUInt8, hsame]
        | first :: second :: rest =>
          exact decodeRest_percent fun b' hlen => ih' b' (by simp; omega)
      · rw [decodeRest_cons, referenceDecode_cons, cleanEscapes_cons, if_neg hpercent,
          if_neg hpercent, if_neg hpercent]
        split <;> simpa using ih' rest (by simp)

/-- **Where `url_decode` keeps malformed escapes.** A string of at least two bytes is decoded
as by the reference decoder exactly when its escapes are clean. -/
theorem urlDecode_eq_reference_iff (value : Bytes) (hlen : 2 ≤ value.length) :
    urlDecode value = .ok (referenceDecode value) ↔ cleanEscapes value = true := by
  rw [urlDecode_eq hlen, Except.ok.injEq, decodeRest_eq_reference_iff]

/-- The escapes of `50%2B+5%` are clean. -/
theorem urlDecode_eq_reference_iff_clean :
    urlDecode (ofString "50%2B+5%") = .ok (ofString "50+ 5%") :=
  (urlDecode_eq_reference_iff (ofString "50%2B+5%") (by decide)).mpr (by decide)

/-- The decoder turns `100%zz` into `100` and a NUL byte. -/
theorem urlDecode_mismatch : ∃ value : Bytes, 2 ≤ value.length ∧
    urlDecode value = .ok (ofString "100" ++ [0]) ∧
    referenceDecode value = ofString "100%zz" ∧ urlDecode value ≠ .ok (referenceDecode value) :=
  ⟨ofString "100%zz", by decide, by decide, by decide, by decide⟩

end LockFreeKV.Http
