import Mathlib.Data.List.Induction

/-!
# Output through a buffer

Elements are collected in a buffer of a fixed size and handed to a sink when the
next one finds it full, and once more at the end. The sink is an oracle: of the
`k`-th chunk it takes as many elements as `accepts k` allows, and says nothing about
the rest. The output is complete exactly when no chunk was cut.
-/
namespace LockFreeKV.Lib

variable {A : Type*}

/-- A stream with `calls` chunks handed out, `written` of them taken. -/
structure BufferedOutput (A : Type*) where
  buffer : List A
  written : List A
  calls : Nat

namespace BufferedOutput

variable (size : Nat) (accepts : Nat → Nat)

def start : BufferedOutput A := ⟨[], [], 0⟩

/-- Hand out what is in the buffer, if anything is. -/
def flush (s : BufferedOutput A) : BufferedOutput A :=
  if s.buffer = [] then s
  else ⟨[], s.written ++ s.buffer.take (accepts s.calls), s.calls + 1⟩

def put (s : BufferedOutput A) (a : A) : BufferedOutput A :=
  let s := if size ≤ s.buffer.length then s.flush accepts else s
  { s with buffer := s.buffer ++ [a] }

/-- What the sink has taken of a list that is put and flushed. -/
def output (l : List A) : List A := ((l.foldl (put size accepts) start).flush accepts).written

/-- The sink takes every chunk of `length` elements whole. -/
def TakesAll (length : Nat) : Prop :=
  ∀ k, size * k < length → min size (length - size * k) ≤ accepts k

/-- The stream after `l` has been put: full chunks have been handed out, and nothing is missing
unless one of them was cut. -/
structure Streamed (l : List A) (s : BufferedOutput A) : Prop where
  length : size * s.calls + s.buffer.length = l.length
  buffer_le : s.buffer.length ≤ size
  taken : s.written ++ s.buffer = l ∧ (∀ k < s.calls, size ≤ accepts k) ∨
    s.written.length + s.buffer.length < l.length ∧ ∃ k < s.calls, accepts k < size

variable {size : Nat} {accepts : Nat → Nat}

theorem streamed_start : Streamed size accepts ([] : List A) start where
  length := by simp [start]
  buffer_le := Nat.zero_le _
  taken := .inl ⟨rfl, by simp [start]⟩

/-- A chunk that is handed out whole keeps the output complete; a cut one leaves it short. -/
theorem Streamed.flush {l : List A} {s : BufferedOutput A} (h : Streamed size accepts l s) :
    ((s.flush accepts).written = l ∧ (∀ k < s.calls, size ≤ accepts k) ∧
      (s.buffer ≠ [] → s.buffer.length ≤ accepts s.calls)) ∨
    (s.flush accepts).written.length < l.length ∧
      ((∃ k < s.calls, accepts k < size) ∨ accepts s.calls < s.buffer.length) := by
  unfold BufferedOutput.flush
  by_cases hempty : s.buffer = []
  · rw [if_pos hempty]
    rcases h.taken with ⟨hl, hall⟩ | ⟨hlt, hcut⟩
    · exact .inl ⟨by rw [← hl, hempty, List.append_nil], hall, fun hne => absurd hempty hne⟩
    · exact .inr ⟨by simpa [hempty] using hlt, .inl hcut⟩
  · rw [if_neg hempty]
    have htake : (s.buffer.take (accepts s.calls)).length ≤ s.buffer.length :=
      List.length_take_le' _ _
    rcases h.taken with ⟨hl, hall⟩ | ⟨hlt, hcut⟩
    · by_cases hwhole : s.buffer.length ≤ accepts s.calls
      · refine .inl ⟨?_, hall, fun _ => hwhole⟩
        rw [List.take_of_length_le hwhole, hl]
      · refine .inr ⟨?_, .inr (Nat.lt_of_not_le hwhole)⟩
        rw [← hl]
        simp only [List.length_append, List.length_take]
        omega
    · refine .inr ⟨?_, .inl hcut⟩
      simp only [List.length_append]
      omega

theorem Streamed.put (hsize : 0 < size) {l : List A} {s : BufferedOutput A}
    (h : Streamed size accepts l s) (a : A) :
    Streamed size accepts (l ++ [a]) (s.put size accepts a) := by
  have hlen := h.length
  unfold BufferedOutput.put
  by_cases hfull : size ≤ s.buffer.length
  · have hbuffer : s.buffer.length = size := Nat.le_antisymm h.buffer_le hfull
    have hne : s.buffer ≠ [] := List.ne_nil_of_length_pos (by omega)
    have hflush : s.flush accepts =
        ⟨[], s.written ++ s.buffer.take (accepts s.calls), s.calls + 1⟩ := if_neg hne
    have hcases := h.flush
    rw [if_pos hfull]
    rw [hflush] at hcases ⊢
    refine ⟨?_, hsize, ?_⟩
    · simp only [List.length_append, List.length_singleton, List.length_nil, Nat.mul_add]
      omega
    · simp only [List.nil_append, List.length_append, List.length_singleton] at hcases ⊢
      rcases hcases with ⟨hl, hall, hlast⟩ | ⟨hlt, hcut⟩
      · refine .inl ⟨by rw [hl], fun k hk => ?_⟩
        rcases Nat.lt_succ_iff_lt_or_eq.mp hk with hlt | rfl
        · exact hall k hlt
        · exact hbuffer ▸ hlast hne
      · refine .inr ⟨by omega, ?_⟩
        rcases hcut with ⟨k, hk, hcut⟩ | hcut
        · exact ⟨k, by omega, hcut⟩
        · exact ⟨s.calls, by omega, by omega⟩
  · rw [if_neg hfull]
    refine ⟨?_, ?_, ?_⟩
    · simp only [List.length_append, List.length_singleton]
      omega
    · simp only [List.length_append, List.length_singleton]
      omega
    · rcases h.taken with ⟨hl, hall⟩ | ⟨hlt, hcut⟩
      · exact .inl ⟨by rw [← hl, List.append_assoc], hall⟩
      · refine .inr ⟨?_, hcut⟩
        simp only [List.length_append, List.length_singleton]
        omega

theorem streamed_foldl (hsize : 0 < size) (l : List A) :
    Streamed size accepts l (l.foldl (BufferedOutput.put size accepts) start) := by
  induction l using List.reverseRecOn with
  | nil => exact streamed_start
  | append_singleton l a ih =>
    rw [List.foldl_append]
    exact ih.put hsize a

/-- The chunks of a list are the full ones and what the last flush finds. -/
theorem Streamed.takesAll_iff (hsize : 0 < size) {l : List A} {s : BufferedOutput A}
    (h : Streamed size accepts l s) :
    TakesAll size accepts l.length ↔
      (∀ k < s.calls, size ≤ accepts k) ∧ (s.buffer ≠ [] → s.buffer.length ≤ accepts s.calls) := by
  have hlen := h.length
  have hle := h.buffer_le
  have hfull : ∀ k < s.calls, size * k + size ≤ size * s.calls := fun k hk =>
    (Nat.mul_succ size k).symm ▸ Nat.mul_le_mul_left size hk
  constructor
  · intro hall
    refine ⟨fun k hk => ?_, fun hne => ?_⟩
    · have hk' := hfull k hk
      have htake := hall k (by omega)
      omega
    · have hpos := List.length_pos_iff.mpr hne
      have htake := hall s.calls (by omega)
      omega
  · intro hchunks k hk
    obtain ⟨hall, hlast⟩ := hchunks
    rcases Nat.lt_trichotomy k s.calls with hlt | rfl | hgt
    · have htake := hall k hlt
      omega
    · have hne : s.buffer ≠ [] := List.ne_nil_of_length_pos (by omega)
      have htake := hlast hne
      omega
    · have hk' : size * s.calls + size ≤ size * k :=
        (Nat.mul_succ size s.calls).symm ▸ Nat.mul_le_mul_left size hgt
      omega

/-- **Output through a buffer** is complete if the sink takes every chunk whole, and too short
otherwise. -/
theorem output_cases (accepts : Nat → Nat) (hsize : 0 < size) (l : List A) :
    output size accepts l = l ∧ TakesAll size accepts l.length ∨
    (output size accepts l).length < l.length ∧ ¬ TakesAll size accepts l.length := by
  have h : Streamed size accepts l (l.foldl (put size accepts) start) := streamed_foldl hsize l
  rw [h.takesAll_iff hsize]
  rcases h.flush with ⟨hl, hall, hlast⟩ | ⟨hlt, hcut⟩
  · exact .inl ⟨hl, hall, hlast⟩
  · refine .inr ⟨hlt, fun hchunks => ?_⟩
    rcases hcut with ⟨k, hk, hcut⟩ | hcut
    · have htake := hchunks.1 k hk
      omega
    · have htake := hchunks.2 (List.ne_nil_of_length_pos (by omega))
      omega

end BufferedOutput

end LockFreeKV.Lib
