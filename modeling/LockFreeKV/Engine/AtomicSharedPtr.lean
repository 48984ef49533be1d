import LockFreeKV.Lib.AtomicObject
import LockFreeKV.Lib.Run

/-!
# The fallback for `std::atomic<std::shared_ptr<T>>`

Each member function is a chain of calls that ends in a free function on the wrapped
pointer, which is atomic. The exception is `is_lock_free`: it hands the wrapper and
not the pointer to `std::atomic_is_lock_free`, whose overload for wrappers calls the
member function again. So the object is an atomic register whose operations end,
for the threads that do not ask whether it is lock free.
-/
namespace LockFreeKV.Engine.AtomicSharedPtr

open LockFreeKV.Lib

variable {T V : Type}

/-- The public member functions; a value stands for a `shared_ptr<T>`. -/
inductive Op (V : Type)
  | store (desired : V)
  | assign (desired : V)
  | load
  | convert
  | isLockFree
  deriving DecidableEq

inductive Res (V : Type)
  | done
  | value (v : V)
  | flag (b : Bool)
  deriving DecidableEq

/-- The function at the top of a thread's stack. -/
inductive Frame (V : Type)
  /-- `store`, about to call `std::atomic_store_explicit(&ptr_, ..)`. -/
  | store (desired : V)
  /-- `operator=`. -/
  | assign (desired : V)
  /-- `load`, about to call `std::atomic_load_explicit(&ptr_, ..)`. -/
  | load
  /-- `operator shared_ptr<T>`. -/
  | convert
  /-- `atomic::is_lock_free`. -/
  | isLockFree
  /-- `std::atomic_is_lock_free(const std::atomic<U>* p)`. -/
  | atomicIsLockFree
  deriving DecidableEq

/-- Where a thread stands. -/
inductive Pc (V : Type)
  | idle
  | inside (op : Op V) (frame : Frame V)
  | returning (op : Op V) (res : Res V)
  deriving DecidableEq

def Op.entry : Op V → Frame V
  | .store desired => .store desired
  | .assign desired => .assign desired
  | .load => .load
  | .convert => .convert
  | .isLockFree => .isLockFree

/-- What a function does with `ptr_`, and the function that it calls or the result. -/
def Frame.next : Frame V → V → V × (Frame V ⊕ Res V)
  | .store desired, _ => (desired, .inr .done)
  | .assign desired, ptr => (ptr, .inl (.store desired))
  | .load, ptr => (ptr, .inr (.value ptr))
  | .convert, ptr => (ptr, .inl .load)
  | .isLockFree, ptr => (ptr, .inl .atomicIsLockFree)
  | .atomicIsLockFree, ptr => (ptr, .inl .isLockFree)

structure State (T V : Type) where
  ptr : V
  pc : T → Pc V

inductive Act (V : Type)
  | call (op : Op V)
  | exec (frame : Frame V)
  | ret (op : Op V) (res : Res V)
  deriving DecidableEq

def Pc.after (op : Op V) : Frame V ⊕ Res V → Pc V
  | .inl frame => .inside op frame
  | .inr res => .returning op res

section Steps

variable [DecidableEq T]

/-- The steps of any number of threads on one object. -/
inductive Step : State T V → T × Act V → State T V → Prop
  | call {s : State T V} {t : T} (op : Op V) (h : s.pc t = .idle) :
      Step s (t, .call op) ⟨s.ptr, Function.update s.pc t (.inside op op.entry)⟩
  | exec {s : State T V} {t : T} {op : Op V} {frame : Frame V} (h : s.pc t = .inside op frame) :
      Step s (t, .exec frame)
        ⟨(frame.next s.ptr).1, Function.update s.pc t (.after op (frame.next s.ptr).2)⟩
  | ret {s : State T V} {t : T} {op : Op V} {res : Res V} (h : s.pc t = .returning op res) :
      Step s (t, .ret op res) ⟨s.ptr, Function.update s.pc t .idle⟩

/-- The object is initialised, no operation is running. -/
def start (T : Type) (init : V) : State T V := ⟨init, fun _ => .idle⟩

/-! ## Refinement of the atomic register -/

/-- `std::atomic<std::shared_ptr<T>>` of the library. -/
def registerSpec (init : V) (lockFree : Bool) : SeqSpec V (Op V) (Res V) where
  init := init
  apply
    | .store desired, _ => (desired, .done)
    | .assign desired, _ => (desired, .done)
    | .load, v => (v, .value v)
    | .convert, v => (v, .value v)
    | .isLockFree, v => (v, .flag lockFree)

/-- The events of the register: an operation takes effect in its call of a free function on the
wrapped pointer. -/
def project : T × Act V → Option (CallEvent T (Op V) (Res V))
  | (t, .call op) => some (.invoke t op)
  | (t, .exec (.store _)) => some (.effect t)
  | (t, .exec .load) => some (.effect t)
  | (_, .exec _) => none
  | (t, .ret op res) => some (.respond t op res)

/-- The functions on the way of an operation. -/
def Op.frames : Op V → List (Frame V)
  | .store desired => [.store desired]
  | .assign desired => [.assign desired, .store desired]
  | .load => [.load]
  | .convert => [.convert, .load]
  | .isLockFree => [.isLockFree, .atomicIsLockFree]

/-- The status of a thread in the register. -/
def Pc.Stands : Pc V → Status (Op V) (Res V) → Prop
  | .idle, status => status = .idle
  | .inside op frame, status => status = .pending op ∧ frame ∈ op.frames
  | .returning op res, status => status = .done op res

/-- The object and the register agree. -/
structure Agrees (s : State T V) (a : AtomicState V T (Op V) (Res V)) : Prop where
  obj : a.obj = s.ptr
  stands : ∀ t, (s.pc t).Stands (a.status t)

omit [DecidableEq T] in
theorem agrees_start (init : V) (lockFree : Bool) :
    Agrees (start T init) (registerSpec init lockFree).start :=
  ⟨rfl, fun _ => rfl⟩

/-- What one thread's step leaves of the others. -/
theorem Agrees.update {s : State T V} {a : AtomicState V T (Op V) (Res V)} (h : Agrees s a)
    (t : T) (pc : Pc V) (status : Status (Op V) (Res V)) (hpc : pc.Stands status) (v : V) :
    Agrees ⟨v, Function.update s.pc t pc⟩ ⟨v, Function.update a.status t status⟩ where
  obj := rfl
  stands t' := by
    by_cases ht : t' = t
    · subst ht
      simpa using hpc
    · simpa [ht] using h.stands t'

omit [DecidableEq T] in
/-- A function calls another one of its operation, or is the one in which the operation takes
effect. -/
theorem Op.frame_cases (init : V) (lockFree : Bool) (t : T) {op : Op V} {frame : Frame V}
    (hframe : frame ∈ op.frames) (v : V) :
    (project (t, .exec frame) = none ∧ ∃ frame' ∈ op.frames, frame.next v = (v, .inl frame')) ∨
    project (t, .exec frame) = some (.effect t) ∧
      frame.next v = (((registerSpec init lockFree).apply op v).1,
        .inr ((registerSpec init lockFree).apply op v).2) := by
  cases op with
  | store desired =>
    obtain rfl := List.mem_singleton.mp hframe
    exact .inr ⟨rfl, rfl⟩
  | assign desired =>
    rcases List.mem_pair.mp hframe with rfl | rfl
    · exact .inl ⟨rfl, .store desired, by simp [Op.frames], rfl⟩
    · exact .inr ⟨rfl, rfl⟩
  | load =>
    obtain rfl := List.mem_singleton.mp hframe
    exact .inr ⟨rfl, rfl⟩
  | convert =>
    rcases List.mem_pair.mp hframe with rfl | rfl
    · exact .inl ⟨rfl, .load, by simp [Op.frames], rfl⟩
    · exact .inr ⟨rfl, rfl⟩
  | isLockFree =>
    rcases List.mem_pair.mp hframe with rfl | rfl
    · exact .inl ⟨rfl, .atomicIsLockFree, by simp [Op.frames], rfl⟩
    · exact .inl ⟨rfl, .isLockFree, by simp [Op.frames], rfl⟩

omit [DecidableEq T] in
theorem Op.callee_mem {op : Op V} {frame callee : Frame V} {v : V} (hframe : frame ∈ op.frames)
    (hnext : (frame.next v).2 = .inl callee) : callee ∈ op.frames := by
  rcases Op.frame_cases v false () hframe v with ⟨_, frame', hframe', heq⟩ | ⟨_, heq⟩
  · rw [heq] at hnext
    cases hnext
    exact hframe'
  · rw [heq] at hnext
    cases hnext

/-- A step of the object is one of the register, or cannot be seen there. -/
theorem Agrees.step {init : V} {lockFree : Bool} {s s' : State T V}
    {a : AtomicState V T (Op V) (Res V)} {e : T × Act V} (h : Agrees s a) (hs : Step s e s') :
    ∃ a', Agrees s' a' ∧ ((project e = none ∧ a' = a) ∨
      ∃ f, project e = some f ∧ (registerSpec init lockFree).Step a f a') := by
  obtain ⟨obj, status⟩ := a
  obtain rfl : obj = s.ptr := h.obj
  cases hs with
  | @call t op hidle =>
    have hstands := h.stands t
    rw [hidle] at hstands
    refine ⟨_, h.update t (.inside op op.entry) (.pending op) ⟨rfl, ?_⟩ s.ptr,
      .inr ⟨_, rfl, .invoke hstands⟩⟩
    cases op <;> simp [Op.entry, Op.frames]
  | @exec t op frame hinside =>
    have hstands := h.stands t
    rw [hinside] at hstands
    obtain ⟨hpending, hframe⟩ := hstands
    rcases Op.frame_cases init lockFree t hframe s.ptr with
      ⟨hsilent, frame', hframe', hnext⟩ | ⟨heffect, hnext⟩
    · have hagrees := h.update t (.inside op frame') _ ⟨hpending, hframe'⟩ s.ptr
      rw [Function.update_eq_self] at hagrees
      rw [hnext]
      exact ⟨_, hagrees, .inl ⟨hsilent, rfl⟩⟩
    · rw [hnext]
      exact ⟨_, h.update t (.returning op _) (.done op _) rfl _,
        .inr ⟨_, heffect, .effect hpending⟩⟩
  | @ret t op res hreturning =>
    have hstands := h.stands t
    rw [hreturning] at hstands
    exact ⟨_, h.update t .idle .idle rfl s.ptr, .inr ⟨_, rfl, .respond hstands⟩⟩

/-- Every run is one of the register. -/
theorem refines (init : V) (lockFree : Bool) {es : List (T × Act V)} {s : State T V}
    (hrun : Run Step (start T init) es s) :
    ∃ a, Run (registerSpec init lockFree).Step (registerSpec init lockFree).start
      (es.filterMap project) a ∧ Agrees s a :=
  hrun.simulate Agrees project (fun _ _ _ _ => Agrees.step) (agrees_start init lockFree)

/-! ## What a load returns -/

/-- The value of the last store. -/
def latest (init : V) (es : List (T × Act V)) : V :=
  es.foldl (fun v e => match e.2 with
    | .exec (.store desired) => desired
    | _ => v) init

/-- The thread has loaded `v` in its last step: it was the value of the latest store. -/
def Loaded (init : V) (es : List (T × Act V)) (t : T) (v : V) : Prop :=
  ∃ before after, es = before ++ (t, .exec .load) :: after ∧ (∀ e ∈ after, e.1 ≠ t) ∧
    v = latest init before

omit [DecidableEq T] in
theorem latest_snoc (init : V) (es : List (T × Act V)) (e : T × Act V) :
    latest init (es ++ [e]) = match e.2 with
      | .exec (.store desired) => desired
      | _ => latest init es := by
  simp [latest, List.foldl_append]

/-- The wrapped pointer is the latest store, and what is about to be returned has been loaded. -/
structure Stored (init : V) (es : List (T × Act V)) (s : State T V) : Prop where
  ptr : s.ptr = latest init es
  frames : ∀ t op frame, s.pc t = .inside op frame → frame ∈ op.frames
  called : ∀ t op frame, s.pc t = .inside op frame → (t, .call op) ∈ es
  loaded : ∀ t op v, s.pc t = .returning op (.value v) → Loaded init es t v

omit [DecidableEq T] in
theorem Loaded.snoc {init : V} {es : List (T × Act V)} {t : T} {v : V}
    (h : Loaded init es t v) {e : T × Act V} (he : e.1 ≠ t) : Loaded init (es ++ [e]) t v := by
  obtain ⟨before, after, rfl, hafter, hv⟩ := h
  refine ⟨before, after ++ [e], by simp, ?_, hv⟩
  intro e' he'
  rcases List.mem_append.mp he' with hold | hnew
  · exact hafter e' hold
  · rw [List.mem_singleton.mp hnew]
    exact he

/-- One thread's step keeps what is known of the others. -/
theorem Stored.update {init : V} {es : List (T × Act V)} {s : State T V} (h : Stored init es s)
    {e : T × Act V} {v : V} {pc : Pc V} (hv : v = latest init (es ++ [e]))
    (hinside : ∀ op frame, pc = .inside op frame →
      frame ∈ op.frames ∧ (e.1, .call op) ∈ es ++ [e])
    (hloaded : ∀ op w, pc = .returning op (.value w) → Loaded init (es ++ [e]) e.1 w) :
    Stored init (es ++ [e]) ⟨v, Function.update s.pc e.1 pc⟩ where
  ptr := hv
  frames t op frame hpc := by
    by_cases ht : t = e.1
    · subst ht
      exact (hinside op frame (by simpa using hpc)).1
    · exact h.frames t op frame (by simpa [ht] using hpc)
  called t op frame hpc := by
    by_cases ht : t = e.1
    · subst ht
      exact (hinside op frame (by simpa using hpc)).2
    · exact List.mem_append_left _ (h.called t op frame (by simpa [ht] using hpc))
  loaded t op w hpc := by
    by_cases ht : t = e.1
    · subst ht
      exact hloaded op w (by simpa using hpc)
    · exact (h.loaded t op w (by simpa [ht] using hpc)).snoc (Ne.symm ht)

theorem Stored.step {init : V} {es : List (T × Act V)} {s s' : State T V} {e : T × Act V}
    (h : Stored init es s) (hs : Step s e s') : Stored init (es ++ [e]) s' := by
  cases hs with
  | @call t op hidle =>
    refine h.update (by rw [latest_snoc, h.ptr]) (fun op' frame hpc => ?_) (fun _ _ hpc => ?_)
    · cases hpc
      refine ⟨?_, by simp⟩
      cases op <;> simp [Op.entry, Op.frames]
    · cases hpc
  | @exec t op frame hinside =>
    have hframe := h.frames t op frame hinside
    have hcalled := List.mem_append_left [(t, Act.exec frame)] (h.called t op frame hinside)
    refine h.update ?_ (fun op' frame' hpc => ?_) (fun op' w hpc => ?_)
    · rw [latest_snoc, h.ptr]
      cases frame <;> rfl
    · cases hnext : (frame.next s.ptr).2 with
      | inl callee =>
        rw [hnext] at hpc
        cases hpc
        exact ⟨Op.callee_mem hframe hnext, hcalled⟩
      | inr res =>
        rw [hnext] at hpc
        cases hpc
    · -- only `load` leaves with a value
      cases frame <;> cases hpc
      exact ⟨es, [], rfl, by simp, h.ptr⟩
  | @ret t op res hreturning =>
    refine h.update (by rw [latest_snoc, h.ptr]) (fun _ _ hpc => ?_) (fun _ _ hpc => ?_)
    · cases hpc
    · cases hpc

theorem stored_of_run {init : V} {es : List (T × Act V)} {s : State T V}
    (hrun : Run Step (start T init) es s) : Stored init es s := by
  refine hrun.invariant (Stored init) ⟨rfl, ?_, ?_, ?_⟩ fun _ _ _ _ h hs => h.step hs
  all_goals
    intro t
    intros
    contradiction

/-! ## Which operations end -/

/-- The thread's operation returns within some number of its own steps, whatever the others do. -/
def Terminates (s : State T V) (t : T) : Prop :=
  ∃ n, ∀ es s', Run Step s es s' → n ≤ ownSteps t es → ∃ op res, (t, .ret op res) ∈ es

/-- How many functions are still to run. -/
def Frame.depth : Frame V → Nat
  | .store _ | .load => 1
  | .assign _ | .convert => 2
  | .isLockFree | .atomicIsLockFree => 0

/-- The steps that the thread has left in its operation, when it does not ask for lock freedom. -/
def Pc.Left (n : Nat) : Pc V → Prop
  | .idle => False
  | .inside op frame => op ≠ .isLockFree ∧ frame ∈ op.frames ∧ frame.depth < n
  | .returning _ _ => 0 < n

omit [DecidableEq T] in
/-- A function has one more to run than the one it calls, and the last one returns. -/
theorem Op.depth_next {op : Op V} (hop : op ≠ .isLockFree) {frame : Frame V}
    (hframe : frame ∈ op.frames) (v : V) :
    match (frame.next v).2 with
    | .inl callee => frame.depth = callee.depth + 1
    | .inr _ => frame.depth = 1 := by
  cases op with
  | store desired => rw [List.mem_singleton.mp hframe]; rfl
  | assign desired => rcases List.mem_pair.mp hframe with rfl | rfl <;> rfl
  | load => rw [List.mem_singleton.mp hframe]; rfl
  | convert => rcases List.mem_pair.mp hframe with rfl | rfl <;> rfl
  | isLockFree => exact absurd rfl hop

/-- A thread that has `n` steps left has one less after one of its own, or has returned. -/
theorem left_step {s s' : State T V} {e : T × Act V} (hs : Step s e s') {t : T} {n : Nat}
    (h : (s.pc t).Left n) :
    (∃ op res, e = (t, .ret op res)) ∨
      (s'.pc t).Left (n - if e.1 = t then 1 else 0) := by
  have hother : ∀ {t' : T}, t' ≠ t → ∀ (v : V) pc,
      ((⟨v, Function.update s.pc t' pc⟩ : State T V).pc t).Left
        (n - if t' = t then 1 else 0) := by
    intro t' ht v pc
    simpa [ht, Ne.symm ht] using h
  cases hs with
  | @call t' op hidle =>
    by_cases ht : t' = t
    · subst ht
      rw [hidle] at h
      exact h.elim
    · exact .inr (hother ht _ _)
  | @exec t' op frame hinside =>
    by_cases ht : t' = t
    · subst ht
      rw [hinside] at h
      obtain ⟨hop, hframe, hdepth⟩ := h
      have hnext := Op.depth_next hop hframe s.ptr
      refine .inr ?_
      show ((Function.update s.pc t' (.after op (frame.next s.ptr).2)) t').Left
        (n - if t' = t' then 1 else 0)
      rw [Function.update_self, if_pos rfl]
      cases hcase : (frame.next s.ptr).2 with
      | inl callee =>
        rw [hcase] at hnext
        exact ⟨hop, Op.callee_mem hframe hcase, by simp only at hnext; omega⟩
      | inr res =>
        rw [hcase] at hnext
        have hpos : 0 < n - 1 := by simp only at hnext; omega
        exact hpos
    · exact .inr (hother ht _ _)
  | @ret t' op res hreturning =>
    by_cases ht : t' = t
    · subst ht
      exact .inl ⟨op, res, rfl⟩
    · exact .inr (hother ht _ _)

omit [DecidableEq T] in
theorem not_left_zero (pc : Pc V) : ¬ pc.Left 0 := by
  cases pc with
  | idle => exact id
  | inside op frame => exact fun h => Nat.not_lt_zero _ h.2.2
  | returning op res => exact Nat.not_lt_zero 0

theorem terminates_of_left {s : State T V} {t : T} {n : Nat} (h : (s.pc t).Left n) :
    Terminates s t := by
  refine ⟨n, fun es s' hrun hn => ?_⟩
  obtain ⟨e, he, op, res, rfl⟩ := Run.done_of_left (fun _ => True)
    (fun e => ∃ op res, e = (t, .ret op res)) (fun s n => (s.pc t).Left n)
    (fun s => not_left_zero (s.pc t)) (fun _ _ _ _ _ hl hs => left_step hs hl) hrun
    (fun _ _ => trivial) h hn
  exact ⟨op, res, he⟩

/-- `is_lock_free` calls itself through the library for as long as its thread runs. -/
theorem isLockFree_runs {s : State T V} {t : T} {frame : Frame V}
    (hpc : s.pc t = .inside .isLockFree frame) (hframe : frame ∈ (Op.isLockFree : Op V).frames)
    (n : Nat) :
    ∃ es s', Run Step s es s' ∧ ownSteps t es = n ∧ (∀ op res, (t, .ret op res) ∉ es) := by
  induction n generalizing s frame with
  | zero => exact ⟨[], s, .nil, rfl, by simp⟩
  | succ n ih =>
    obtain ⟨callee, hcallee, hnext⟩ : ∃ callee ∈ (Op.isLockFree : Op V).frames,
        frame.next s.ptr = (s.ptr, .inl callee) := by
      rcases List.mem_pair.mp hframe with rfl | rfl
      · exact ⟨.atomicIsLockFree, by simp [Op.frames], rfl⟩
      · exact ⟨.isLockFree, by simp [Op.frames], rfl⟩
    have hstep := Step.exec hpc
    have hpc' : (Function.update s.pc t (.after .isLockFree (frame.next s.ptr).2)) t =
        .inside .isLockFree callee := by
      rw [Function.update_self, hnext]
      rfl
    obtain ⟨es, s', hrun, hown, hret⟩ := ih (s := ⟨(frame.next s.ptr).1,
      Function.update s.pc t (.after .isLockFree (frame.next s.ptr).2)⟩) hpc' hcallee
    refine ⟨(t, .exec frame) :: es, s', .cons hstep hrun, ?_, ?_⟩
    · rw [← hown, ownSteps, ownSteps, List.countP_cons_of_pos (by simp)]
    · intro op res
      simpa using hret op res

theorem not_terminates_isLockFree {s : State T V} {t : T} {frame : Frame V}
    (hpc : s.pc t = .inside .isLockFree frame) (hframe : frame ∈ (Op.isLockFree : Op V).frames) :
    ¬ Terminates s t := by
  intro hterm
  obtain ⟨n, hn⟩ := hterm
  obtain ⟨es, s', hrun, hown, hret⟩ := isLockFree_runs hpc hframe n
  obtain ⟨op, res, hmem⟩ := hn es s' hrun (Nat.le_of_eq hown.symm)
  exact hret op res hmem

/-- An operation in a reachable state ends unless it is `is_lock_free`. -/
theorem terminates_iff {init : V} {es : List (T × Act V)} {s : State T V}
    (h : Stored init es s) {t : T} {op : Op V} {frame : Frame V}
    (hpc : s.pc t = .inside op frame) : Terminates s t ↔ op ≠ .isLockFree := by
  have hframe := h.frames t op frame hpc
  constructor
  · intro hterm hop
    subst hop
    exact not_terminates_isLockFree hpc hframe hterm
  · intro hop
    refine terminates_of_left (n := frame.depth + 1) ?_
    rw [hpc]
    exact ⟨hop, hframe, Nat.lt_succ_self _⟩

/-- A thread in an operation is never stuck. -/
theorem step_enabled (s : State T V) {t : T} (hbusy : s.pc t ≠ .idle) :
    ∃ act s', Step s (t, act) s' := by
  cases hpc : s.pc t with
  | idle => exact absurd hpc hbusy
  | inside op frame => exact ⟨_, _, .exec hpc⟩
  | returning op res => exact ⟨_, _, .ret hpc⟩

/-! ## The fallback against the library's class -/

/-- What the fallback owes to a run. -/
structure ActsAsRegister (init : V) (lockFree : Bool) (es : List (T × Act V)) (s : State T V) :
    Prop where
  refines : ∃ a, Run (registerSpec init lockFree).Step (registerSpec init lockFree).start
    (es.filterMap project) a ∧ Agrees s a
  loads : ∀ before after t op v, es = before ++ (t, .ret op (.value v)) :: after →
    Loaded init before t v
  enabled : ∀ before after m, es = before ++ after → Run Step (start T init) before m →
    ∀ t, m.pc t ≠ .idle → ∃ act m', Step m (t, act) m'
  terminates : ∀ before after m, es = before ++ after → Run Step (start T init) before m →
    ∀ t, m.pc t ≠ .idle → Terminates m t

theorem loaded_of_ret {init : V} {before after : List (T × Act V)} {s : State T V} {t : T}
    {op : Op V} {v : V}
    (hrun : Run Step (start T init) (before ++ (t, .ret op (.value v)) :: after) s) :
    Loaded init before t v := by
  obtain ⟨m, hbefore, hrest⟩ := hrun.split
  obtain ⟨m', hret, _⟩ := hrest.cons_split
  cases hret with
  | ret hreturning => exact (stored_of_run hbefore).loaded t op v hreturning

/-- **When the fallback is the library's atomic pointer.** Every run is one of the register and
every load returns the latest store; every operation on the way ends exactly if nobody calls
`is_lock_free`. -/
theorem actsAsRegister_iff (init : V) (lockFree : Bool) {es : List (T × Act V)} {s : State T V}
    (hrun : Run Step (start T init) es s) :
    ActsAsRegister init lockFree es s ↔ ∀ t, (t, .call .isLockFree) ∉ es := by
  constructor
  · intro hacts t hcall
    obtain ⟨before, after, rfl⟩ := List.append_of_mem hcall
    obtain ⟨m, hbefore, hrest⟩ := hrun.split
    obtain ⟨m', hstep, _⟩ := hrest.cons_split
    have hmid := hbefore.snoc hstep
    have hpc : m'.pc t = .inside .isLockFree .isLockFree := by
      cases hstep
      exact Function.update_self ..
    have hterm := hacts.terminates (before ++ [(t, .call .isLockFree)]) after m' (by simp) hmid t
      (by simp [hpc])
    exact (terminates_iff (stored_of_run hmid) hpc).mp hterm rfl
  · intro hno
    refine ⟨AtomicSharedPtr.refines init lockFree hrun, ?_, ?_, ?_⟩
    · intro before after t op v heq
      subst heq
      exact loaded_of_ret hrun
    · exact fun _ _ m _ _ t hbusy => step_enabled m hbusy
    · intro before after m heq hbefore t hbusy
      have hstored := stored_of_run hbefore
      cases hpc : m.pc t with
      | idle => exact absurd hpc hbusy
      | inside op frame =>
        refine (terminates_iff hstored hpc).mpr fun hop => hno t ?_
        rw [heq, ← hop]
        exact List.mem_append_left _ (hstored.called t op frame hpc)
      | returning op res =>
        refine terminates_of_left (n := 1) ?_
        rw [hpc]
        exact Nat.one_pos

end Steps

/-- A store by one thread and a load by another. -/
def storeThenLoad : List (Nat × Act Nat) :=
  [(0, .call (.assign 7)), (1, .call .convert), (0, .exec (.assign 7)), (1, .exec .convert),
    (0, .exec (.store 7)), (1, .exec .load), (1, .ret .convert (.value 7)),
    (0, .ret (.assign 7) .done)]

theorem actsAsRegister_iff_storeThenLoad : ∃ s : State Nat Nat,
    Run Step (start Nat 0) storeThenLoad s ∧ ActsAsRegister 0 true storeThenLoad s := by
  have hrun : Run Step (start Nat 0) storeThenLoad _ :=
    .cons (.call (.assign 7) rfl) (.cons (.call .convert rfl) (.cons (.exec rfl) (.cons (.exec rfl)
      (.cons (.exec rfl) (.cons (.exec rfl) (.cons (.ret rfl) (.cons (.ret rfl) .nil)))))))
  refine ⟨_, hrun, (actsAsRegister_iff 0 true hrun).mpr fun t => ?_⟩
  simp [storeThenLoad]

/-! ## `DataEngine::is_lock_free` -/

/-- The question that `DataEngine::is_lock_free` is at, the last one with the function that its
answer is computed by. -/
inductive Query (V : Type)
  | successReads
  | ptrNode
  | ptrNode2
  | ptrValue (frame : Frame V)
  deriving DecidableEq

/-- The next question, or the answer. `counter` and `node` are what the library says about atomic
integers and atomic pointers, `ptr` is what the new atomic pointer to a value holds. -/
def Query.next (counter node : Bool) (ptr : V) : Query V → Query V ⊕ Bool
  | .successReads => if counter then .inl .ptrNode else .inr false
  | .ptrNode => if node then .inl .ptrNode2 else .inr false
  | .ptrNode2 => if node then .inl (.ptrValue .isLockFree) else .inr false
  | .ptrValue frame =>
    match (frame.next ptr).2 with
    | .inl callee => .inl (.ptrValue callee)
    | .inr (.flag b) => .inr b
    | .inr _ => .inr false

/-- `n` steps of `DataEngine::is_lock_free`. -/
def Query.run (counter node : Bool) (ptr : V) : Nat → Query V → Query V ⊕ Bool
  | 0, query => .inl query
  | n + 1, query =>
    match query.next counter node ptr with
    | .inl query' => run counter node ptr n query'
    | .inr answer => .inr answer

theorem Query.run_ptrValue (counter node : Bool) (ptr : V) {frame : Frame V}
    (hframe : frame ∈ (Op.isLockFree : Op V).frames) (n : Nat) :
    ∃ query, Query.run counter node ptr n (.ptrValue frame) = .inl query := by
  induction n generalizing frame with
  | zero => exact ⟨_, rfl⟩
  | succ n ih =>
    rcases List.mem_pair.mp hframe with rfl | rfl
    · have hmem : Frame.atomicIsLockFree ∈ (Op.isLockFree : Op V).frames := by simp [Op.frames]
      exact ih hmem
    · have hmem : Frame.isLockFree ∈ (Op.isLockFree : Op V).frames := by simp [Op.frames]
      exact ih hmem

/-- With the atomic integers and pointers that the class asserts to be lock free, `main` never gets
an answer. -/
theorem Query.run_never_returns (ptr : V) (n : Nat) :
    ∃ query, Query.run true true ptr n .successReads = .inl query := by
  match n with
  | 0 => exact ⟨_, rfl⟩
  | 1 => exact ⟨_, rfl⟩
  | 2 => exact ⟨_, rfl⟩
  | n + 3 => exact Query.run_ptrValue true true ptr (by simp [Op.frames]) n

/-- One call of `is_lock_free`, and the engine's. -/
theorem isLockFree_never_returns :
    (∃ s : State Nat Nat, Run Step (start Nat 0) [(0, .call .isLockFree)] s ∧
      ¬ ActsAsRegister 0 true [(0, .call .isLockFree)] s) ∧
    ∀ n, ∃ query, Query.run true true (0 : Nat) n .successReads = .inl query := by
  have hrun : Run Step (start Nat 0) [(0, .call .isLockFree)] _ := .single (.call .isLockFree rfl)
  refine ⟨⟨_, hrun, fun hacts => ?_⟩, Query.run_never_returns 0⟩
  have hterm := hacts.terminates [(0, .call .isLockFree)] [] _ (by simp) hrun 0 (by simp)
  have hmem : Frame.isLockFree ∈ (Op.isLockFree : Op Nat).frames := by simp [Op.frames]
  exact not_terminates_isLockFree rfl hmem hterm

end LockFreeKV.Engine.AtomicSharedPtr
