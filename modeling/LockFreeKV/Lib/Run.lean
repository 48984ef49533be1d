import Mathlib.Data.List.Basic
import Mathlib.Data.List.Count
import Mathlib.Data.List.Perm.Basic

/-!
# Finite runs of labelled transition relations

A run lists the events that lead from one state to another, first to last. The
induction rules below carry the list of events performed so far, so that an
invariant may speak about the history. `Run.simulate` is forward simulation with
stuttering: an event either has an abstract counterpart or is invisible.
-/
namespace LockFreeKV.Lib

variable {S E A F : Type*}

/-- The events `es`, performed in order, lead from `s` to `s'`. -/
inductive Run (step : S → E → S → Prop) (s : S) : List E → S → Prop
  | nil : Run step s [] s
  | snoc {m s' : S} {es : List E} {e : E} :
      Run step s es m → step m e s' → Run step s (es ++ [e]) s'

namespace Run

variable {step : S → E → S → Prop} {s m s' : S} {es es' : List E} {e : E}

theorem single (h : step s e s') : Run step s [e] s' := by
  simpa using Run.snoc .nil h

/-- Steps of one relation are steps of another. -/
theorem mono {step' : S → E → S → Prop} (hsub : ∀ m e m', step m e m' → step' m e m')
    (h : Run step s es s') : Run step' s es s' := by
  induction h with
  | nil => exact .nil
  | snoc _ hs ih => exact ih.snoc (hsub _ _ _ hs)

theorem append (h : Run step s es m) (h' : Run step m es' s') : Run step s (es ++ es') s' := by
  induction h' with
  | nil => simpa using h
  | snoc _ hstep ih => simpa only [List.append_assoc] using ih.snoc hstep

theorem cons (hstep : step s e m) (h : Run step m es s') : Run step s (e :: es) s' :=
  (single hstep).append h

theorem eq_of_nil (h : Run step s [] s') : s' = s := by
  generalize hl : ([] : List E) = l at h
  cases h with
  | nil => rfl
  | snoc => simp at hl

/-- A run is cut at every position of its event list. -/
theorem split (h : Run step s (es ++ es') s') : ∃ m, Run step s es m ∧ Run step m es' s' := by
  generalize hl : es ++ es' = l at h
  induction h generalizing es' with
  | nil =>
    obtain ⟨rfl, rfl⟩ := List.append_eq_nil_iff.mp hl
    exact ⟨s, .nil, .nil⟩
  | @snoc m s' pre e hpre hstep ih =>
    rcases List.eq_nil_or_concat es' with rfl | ⟨init, last, rfl⟩
    · rw [List.append_nil] at hl
      subst hl
      exact ⟨s', hpre.snoc hstep, .nil⟩
    · rw [List.concat_eq_append, ← List.append_assoc] at hl
      obtain ⟨hinit, hlast⟩ := List.append_inj' hl rfl
      obtain rfl : last = e := by simpa using hlast
      obtain ⟨c, hleft, hright⟩ := ih hinit
      exact ⟨c, hleft, by simpa using hright.snoc hstep⟩

theorem cons_split (h : Run step s (e :: es) s') : ∃ m, step s e m ∧ Run step m es s' := by
  have hcut : Run step s ([e] ++ es) s' := h
  obtain ⟨m, hfirst, hrest⟩ := hcut.split
  generalize hl : [e] = l at hfirst
  cases hfirst with
  | nil => cases hl
  | @snoc c _ pre _ hpre hstep =>
    rw [← List.nil_append [e]] at hl
    obtain ⟨hnil, he⟩ := List.append_inj' hl rfl
    subst hnil
    obtain rfl : e = _ := by simpa using he
    obtain rfl := hpre.eq_of_nil
    exact ⟨m, hstep, hrest⟩

/-- What holds of the empty history and is kept by every step holds after the run. -/
theorem invariant (I : List E → S → Prop) (h0 : I [] s)
    (hstep : ∀ es m e m', I es m → step m e m' → I (es ++ [e]) m')
    (h : Run step s es s') : I es s' := by
  induction h with
  | nil => exact h0
  | snoc _ hs ih => exact hstep _ _ _ _ ih hs

/-- Forward simulation: related states stay related, the abstract side performing
exactly the projected events. -/
theorem simulate {astep : A → F → A → Prop} (R : S → A → Prop) (proj : E → Option F)
    (hstep : ∀ m a e m', R m a → step m e m' →
      ∃ a', R m' a' ∧ ((proj e = none ∧ a' = a) ∨ ∃ f, proj e = some f ∧ astep a f a'))
    {a : A} (h0 : R s a) (h : Run step s es s') :
    ∃ a', Run astep a (es.filterMap proj) a' ∧ R s' a' := by
  induction h with
  | nil => exact ⟨a, .nil, h0⟩
  | snoc _ hs ih =>
    obtain ⟨b, hrun, hb⟩ := ih
    obtain ⟨b', hb', ⟨hnone, rfl⟩ | ⟨f, hsome, hf⟩⟩ := hstep _ _ _ _ hb hs
    · exact ⟨b', by simpa [hnone] using hrun, hb'⟩
    · exact ⟨b', by simpa [hsome] using hrun.snoc hf, hb'⟩

/-- Some state passed on the run from `s` to `s'`, both ends included, satisfies `P`. -/
def Passes (step : S → E → S → Prop) (P : S → Prop) (s : S) (es : List E) (s' : S) : Prop :=
  ∃ before after m, es = before ++ after ∧ Run step s before m ∧ P m ∧ Run step m after s'

theorem Passes.last {P : S → Prop} (h : Run step s es s') (hp : P s') : Passes step P s es s' :=
  ⟨es, [], s', by simp, h, hp, .nil⟩

theorem Passes.snoc {P : S → Prop} (h : Passes step P s es m) (hs : step m e s') :
    Passes step P s (es ++ [e]) s' := by
  obtain ⟨before, after, c, rfl, hl, hp, hr⟩ := h
  exact ⟨before, after ++ [e], c, by simp, hl, hp, hr.snoc hs⟩

/-- A longer run passes what a part of it passes. -/
theorem Passes.extend {P : S → Prop} {c : S} {es₁ es₂ : List E} (h₁ : Run step s es₁ m)
    (h : Passes step P m es c) (h₂ : Run step c es₂ s') :
    Passes step P s (es₁ ++ (es ++ es₂)) s' := by
  obtain ⟨before, after, d, rfl, hl, hp, hr⟩ := h
  exact ⟨es₁ ++ before, after ++ es₂, d, by simp, h₁.append hl, hp, hr.append h₂⟩

/-- Some step of the run from `s` to `s'` satisfies `P`. -/
def Performs (step : S → E → S → Prop) (P : S → E → S → Prop) (s : S) (es : List E) (s' : S) :
    Prop :=
  ∃ before e after m m', es = before ++ e :: after ∧ Run step s before m ∧ step m e m' ∧
    P m e m' ∧ Run step m' after s'

theorem Performs.last {P : S → E → S → Prop} (h : Run step s es m) (hs : step m e s')
    (hp : P m e s') : Performs step P s (es ++ [e]) s' :=
  ⟨es, e, [], m, s', rfl, h, hs, hp, .nil⟩

theorem Performs.snoc {P : S → E → S → Prop} (h : Performs step P s es m) (hs : step m e s') :
    Performs step P s (es ++ [e]) s' := by
  obtain ⟨before, e', after, c, c', rfl, hl, hstep, hp, hr⟩ := h
  exact ⟨before, e', after ++ [e], c, c', by simp, hl, hstep, hp, hr.snoc hs⟩

end Run

/-- The positions in a history that has grown by one event. -/
theorem snoc_eq_append_cons {es p q : List E} {e x : E} (h : es ++ [e] = p ++ x :: q) :
    q = [] ∧ es = p ∧ e = x ∨ ∃ q', q = q' ++ [e] ∧ es = p ++ x :: q' := by
  rcases List.eq_nil_or_concat q with rfl | ⟨init, last, rfl⟩
  · obtain ⟨hinit, hlast⟩ := List.append_inj' h rfl
    exact .inl ⟨rfl, hinit, by simpa using hlast⟩
  · rw [List.concat_eq_append, ← List.cons_append, ← List.append_assoc] at h
    obtain ⟨hinit, hlast⟩ := List.append_inj' h rfl
    obtain rfl : e = last := by simpa using hlast
    exact .inr ⟨init, List.concat_eq_append, hinit⟩

/-! ## Schedules -/

/-- Execute a schedule: `next` is told by a choice which step to take. -/
def execute {C : Type*} (next : S → C → Option (E × S)) (s : S) : List C → Option (List E × S)
  | [] => some ([], s)
  | c :: cs =>
    match next s c with
    | none => none
    | some (e, s') => (execute next s' cs).map fun r => (e :: r.1, r.2)

section Execute

variable {C : Type*} {next : S → C → Option (E × S)} {s s' : S} {c : C} {cs : List C} {es : List E}

theorem of_execute_cons (h : execute next s (c :: cs) = some (es, s')) :
    ∃ e m es', next s c = some (e, m) ∧ execute next m cs = some (es', s') ∧ es = e :: es' := by
  unfold execute at h
  split at h
  · cases h
  · next e m hm =>
    obtain ⟨⟨es', s''⟩, hr, heq⟩ := Option.map_eq_some_iff.mp h
    obtain ⟨rfl, rfl⟩ : e :: es' = es ∧ s'' = s' := by simpa using heq
    exact ⟨e, m, es', hm, hr, rfl⟩

/-- What a schedule executes is a run. -/
theorem run_of_execute (h : execute next s cs = some (es, s')) :
    Run (fun s e s' => ∃ c, next s c = some (e, s')) s es s' := by
  induction cs generalizing s es with
  | nil =>
    obtain ⟨rfl, rfl⟩ : [] = es ∧ s = s' := by simpa [execute] using h
    exact .nil
  | cons c cs ih =>
    obtain ⟨e, m, es', hm, hr, rfl⟩ := of_execute_cons h
    exact .cons ⟨c, hm⟩ (ih hr)

/-- Each event has its choice in the schedule. -/
theorem choice_of_execute (h : execute next s cs = some (es, s')) {e : E} (he : e ∈ es) :
    ∃ c ∈ cs, ∃ m m', next m c = some (e, m') := by
  induction cs generalizing s es with
  | nil =>
    obtain ⟨rfl, -⟩ : [] = es ∧ s = s' := by simpa [execute] using h
    cases he
  | cons c cs ih =>
    obtain ⟨e', m, es', hm, hr, rfl⟩ := of_execute_cons h
    rcases List.mem_cons.mp he with rfl | he
    · exact ⟨c, List.mem_cons_self, s, m, hm⟩
    · obtain ⟨c', hc', hnext⟩ := ih hr he
      exact ⟨c', List.mem_cons_of_mem _ hc', hnext⟩

end Execute

/-! ## Bounded waiting -/

/-- The events of one source. -/
def ownSteps [DecidableEq A] (t : A) (es : List (A × E)) : Nat :=
  es.countP fun e => decide (e.1 = t)

theorem ownSteps_snoc [DecidableEq A] (t : A) (es : List (A × E)) (e : A × E) :
    ownSteps t (es ++ [e]) = ownSteps t es + if e.1 = t then 1 else 0 := by
  simp [ownSteps, List.countP_append, List.countP_singleton]

/-- `Left s n`: in the state `s` at most `n` steps of the source `t` are left before something is
`Done`. Each step of its own uses one of them up, and no step of another source adds any. -/
theorem Run.done_of_left [DecidableEq A] {step : S → A × E → S → Prop} (P Done : A × E → Prop)
    (Left : S → Nat → Prop) {t : A} (hzero : ∀ s, ¬ Left s 0)
    (hstep : ∀ s e s' n, P e → Left s n → step s e s' →
      Done e ∨ Left s' (n - if e.1 = t then 1 else 0))
    {s s' : S} {es : List (A × E)} (h : Run step s es s') (hP : ∀ e ∈ es, P e) {n : Nat}
    (hleft : Left s n) (hn : n ≤ ownSteps t es) : ∃ e ∈ es, Done e := by
  have hrun : (∃ e ∈ es, Done e) ∨ Left s' (n - ownSteps t es) := by
    clear hn
    induction h with
    | nil => exact .inr (by simpa [ownSteps] using hleft)
    | @snoc m s' es e _ hs ih =>
      rcases ih fun e' he' => hP e' (List.mem_append_left _ he') with ⟨e', he', hd⟩ | hl
      · exact .inl ⟨e', List.mem_append_left _ he', hd⟩
      · rcases hstep _ _ _ _ (hP e (by simp)) hl hs with hd | hl'
        · exact .inl ⟨e, by simp, hd⟩
        · exact .inr (by rwa [ownSteps_snoc, ← Nat.sub_sub])
  refine hrun.resolve_right fun hl => ?_
  rw [Nat.sub_eq_zero_of_le hn] at hl
  exact hzero _ hl

/-! ## Counting events -/

/-- A count grows by at most one with each event, so it takes every value on the way. -/
theorem exists_prefix_countP {p : E → Bool} {n : Nat} {es : List E} (hn : n ≤ es.countP p) :
    ∃ before after, es = before ++ after ∧ before.countP p = n := by
  induction es generalizing n with
  | nil => exact ⟨[], [], rfl, (Nat.le_zero.mp hn).symm⟩
  | cons e es ih =>
    by_cases he : p e = true
    · cases n with
      | zero => exact ⟨[], e :: es, rfl, rfl⟩
      | succ n =>
        rw [List.countP_cons_of_pos he] at hn
        obtain ⟨before, after, rfl, hb⟩ := ih (Nat.le_of_succ_le_succ hn)
        exact ⟨e :: before, after, rfl, by rw [List.countP_cons_of_pos he, hb]⟩
    · rw [List.countP_cons_of_neg he] at hn
      obtain ⟨before, after, rfl, hb⟩ := ih hn
      exact ⟨e :: before, after, rfl, by rw [List.countP_cons_of_neg he, hb]⟩

/-- How often a source emits events of a kind. -/
theorem count_sources {T : Type*} [DecidableEq T] (p : T × E → Bool) (es : List (T × E)) (t : T) :
    ((es.filter p).map Prod.fst).count t = es.countP fun e => decide (e.1 = t) && p e := by
  rw [List.count, List.countP_map, List.countP_filter]
  rfl

/-- What every source emits at most as often occurs at most as often, in two histories. -/
theorem countP_le_of_sources {T : Type*} [DecidableEq T] {p : T × E → Bool} {q : T × F → Bool}
    {es : List (T × E)} {fs : List (T × F)}
    (hle : ∀ t, (es.countP fun e => decide (e.1 = t) && p e) ≤
      fs.countP fun e => decide (e.1 = t) && q e) : es.countP p ≤ fs.countP q := by
  have hsub : ((es.filter p).map Prod.fst).Subperm ((fs.filter q).map Prod.fst) :=
    List.subperm_ext_iff.mpr fun t _ => by
      rw [count_sources, count_sources]
      exact hle t
  simpa [List.countP_eq_length_filter] using hsub.length_le

/-- Kinds of events that every source emits equally often occur equally often. -/
theorem countP_eq_of_sources {T : Type*} [DecidableEq T] {p : T × E → Bool} {q : T × F → Bool}
    {es : List (T × E)} {fs : List (T × F)}
    (heq : ∀ t, es.countP (fun e => decide (e.1 = t) && p e) =
      fs.countP fun e => decide (e.1 = t) && q e) : es.countP p = fs.countP q :=
  Nat.le_antisymm (countP_le_of_sources fun t => Nat.le_of_eq (heq t))
    (countP_le_of_sources fun t => Nat.le_of_eq (heq t).symm)

/-- Two kinds of events that exclude each other add up. -/
theorem countP_add_of_disjoint {p q : E → Bool} (hpq : ∀ e, p e = true → q e = false)
    (es : List E) : es.countP p + es.countP q = es.countP fun e => p e || q e := by
  induction es with
  | nil => rfl
  | cons e es ih =>
    simp only [List.countP_cons]
    rw [← ih]
    cases hp : p e with
    | true => simp [hpq e hp, Nat.add_right_comm]
    | false => simp [Nat.add_assoc]

end LockFreeKV.Lib
