import LockFreeKV.Engine.Allocation

/-!
# The operations of the heap

A temporary owns its block until it is destroyed, a node the blocks it was made of, and
the shared pointers to a string own it together. Each operation keeps a book that accounts
for exactly these owners.
-/
namespace LockFreeKV.Engine.Alloc

open LockFreeKV.Lib

variable {K V T : Type}

section Heap

variable [DecidableEq T]

/-- What is owned: by a temporary, by a shared pointer, or by a node. -/
def OwnedBy (owners : CallId T → Finset (Owner T)) (Temp : CallId T → Temporary → Prop)
    (creator : Addr → Option (CallId T)) : CallId T × Block → Prop
  | (id, .keyString) => Temp id .keyString
  | (id, .valueString) => Temp id .valueString ∨ owners id ≠ ∅
  | (id, .sharedValue) => owners id ≠ ∅
  | (id, .node) => Temp id .rawNode ∨ ∃ a, creator a = some id
  | (id, .nodeKey) => ∃ a, creator a = some id

/-- The book accounts for the owners. -/
def Heap.Accounts (heap : Heap T) (Temp : CallId T → Temporary → Prop)
    (creator : Addr → Option (CallId T)) : Prop :=
  heap.book.Accounts (OwnedBy heap.owners Temp creator)

variable {heap : Heap T} {Temp Temp' : CallId T → Temporary → Prop}
  {creator creator' : Addr → Option (CallId T)} {id : CallId T}

omit [DecidableEq T] in
theorem ownedBy_congr {owners owners' : CallId T → Finset (Owner T)}
    (howners : ∀ x, owners' x ≠ ∅ ↔ owners x ≠ ∅) (htemp : ∀ x d, Temp' x d ↔ Temp x d)
    (hcreator : ∀ x, (∃ a, creator' a = some x) ↔ ∃ a, creator a = some x)
    (x : CallId T × Block) :
    OwnedBy owners' Temp' creator' x ↔ OwnedBy owners Temp creator x := by
  obtain ⟨x, b⟩ := x
  cases b <;> simp only [OwnedBy, howners, htemp, hcreator]

/-- A shared pointer to a string that has another one is destroyed, or the last one. -/
theorem Heap.Accounts.drop (h : heap.Accounts Temp creator) {o : Owner T}
    (ho : o ∈ heap.owners id) (hvalue : ¬ Temp id .valueString) :
    (heap.drop id o).Accounts Temp creator := by
  have hne : heap.owners id ≠ ∅ := Finset.ne_empty_of_mem ho
  have hother : ∀ x, x ≠ id → (heap.drop id o).owners x = heap.owners x := fun x hx => by
    simp [Heap.drop, hx]
  have hself : (heap.drop id o).owners id = (heap.owners id).erase o := by simp [Heap.drop]
  by_cases hlast : (heap.owners id).erase o = ∅
  · have hbook : (heap.drop id o).book =
        (heap.book.release (id, .valueString)).release (id, .sharedValue) := by
      simp [Heap.drop, hlast]
    have hvalueString : (heap.book.release (id, .valueString)).Accounts fun x =>
        OwnedBy heap.owners Temp creator x ∧ x ≠ (id, .valueString) :=
      Book.Accounts.release h (Or.inr hne) fun _ => Iff.rfl
    have hshared : OwnedBy heap.owners Temp creator (id, .sharedValue) := hne
    rw [Heap.Accounts, hbook]
    refine hvalueString.release ⟨hshared, by simp⟩ fun x => ?_
    obtain ⟨x, b⟩ := x
    by_cases hx : x = id
    · subst hx
      cases b <;> simp [OwnedBy, hself, hlast, hvalue]
    · cases b <;> simp [OwnedBy, hother x hx, hx]
  · have hbook : (heap.drop id o).book = heap.book := by simp [Heap.drop, hlast]
    rw [Heap.Accounts, hbook]
    refine Book.Accounts.congr h (ownedBy_congr (fun x => ?_) (fun _ _ => Iff.rfl) fun _ => Iff.rfl)
    by_cases hx : x = id
    · subst hx
      simp [hself, hlast, hne]
    · rw [hother x hx]

/-- A copy of a shared pointer adds no owned string. -/
theorem Heap.Accounts.share (h : heap.Accounts Temp creator) (hne : heap.owners id ≠ ∅)
    (o : Owner T) : (heap.share id o).Accounts Temp creator := by
  refine Book.Accounts.congr h (ownedBy_congr (fun x => ?_) (fun _ _ => Iff.rfl) fun _ => Iff.rfl)
  by_cases hx : x = id
  · subst hx
    simp [Heap.share, hne]
  · simp [Heap.share, hx]

theorem Heap.Accounts.move (h : heap.Accounts Temp creator) {o : Owner T}
    (ho : o ∈ heap.owners id) (o' : Owner T) : (heap.move id o o').Accounts Temp creator := by
  refine Book.Accounts.congr h (ownedBy_congr (fun x => ?_) (fun _ _ => Iff.rfl) fun _ => Iff.rfl)
  by_cases hx : x = id
  · subst hx
    simp [Heap.move, Finset.ne_empty_of_mem ho]
  · simp [Heap.move, hx]

/-- A temporary is destroyed. -/
theorem Heap.Accounts.destroy (h : heap.Accounts Temp creator) {d : Temporary} (hd : Temp id d)
    (htemp : ∀ x d', Temp' x d' ↔ Temp x d' ∧ ¬ (x = id ∧ d' = d))
    (hvalue : Temp id .valueString → heap.owners id = ∅)
    (hraw : Temp id .rawNode → ∀ a, creator a ≠ some id)
    (hptr : Temp id .ptrValue → .frame id.thread ∈ heap.owners id) :
    (heap.destroy id d).Accounts Temp' creator := by
  cases d with
  | keyString =>
    have howned : OwnedBy heap.owners Temp creator (id, .keyString) := hd
    refine Book.Accounts.release h howned fun x => ?_
    obtain ⟨x, b⟩ := x
    cases b <;> simp [OwnedBy, htemp, Heap.destroy, Heap.release]
  | valueString =>
    have hnone := hvalue hd
    have howned : OwnedBy heap.owners Temp creator (id, .valueString) := Or.inl hd
    refine Book.Accounts.release h howned fun x => ?_
    obtain ⟨x, b⟩ := x
    by_cases hx : x = id
    · subst hx
      cases b <;> simp [OwnedBy, htemp, Heap.destroy, Heap.release, hnone]
    · cases b <;> simp [OwnedBy, htemp, Heap.destroy, Heap.release, hx]
  | ptrValue =>
    have hmem := hptr hd
    have hdrop := h.drop hmem fun hv => Finset.ne_empty_of_mem hmem (hvalue hv)
    refine Book.Accounts.congr hdrop fun x => ?_
    obtain ⟨x, b⟩ := x
    cases b <;> simp [OwnedBy, htemp, Heap.destroy]
  | rawNode =>
    have hnone := hraw hd
    have howned : OwnedBy heap.owners Temp creator (id, .node) := Or.inl hd
    refine Book.Accounts.release h howned fun x => ?_
    obtain ⟨x, b⟩ := x
    by_cases hx : x = id
    · subst hx
      cases b <;> simp [OwnedBy, htemp, Heap.destroy, Heap.release, hnone]
    · cases b <;> simp [OwnedBy, htemp, Heap.destroy, Heap.release, hx]

theorem Heap.Accounts.allocate (h : heap.Accounts Temp creator) {b : Block}
    (hnew : heap.book (id, b) = none) (needed : Bool)
    (howned : ∀ x, OwnedBy heap.owners Temp' creator' x ↔
      OwnedBy heap.owners Temp creator x ∨ x = (id, b)) :
    (heap.allocate id b needed).Accounts Temp' creator' :=
  Book.Accounts.acquire h hnew needed howned

/-- `allocate_shared`: the characters of the value pass from the temporary to the new string. -/
theorem Heap.Accounts.newShared (h : heap.Accounts Temp creator)
    (hnew : heap.book (id, .sharedValue) = none) (needed : Bool) (hnone : heap.owners id = ∅)
    (hvalue : Temp id .valueString) (o : Owner T)
    (htemp : ∀ x d, d ≠ .ptrValue → (Temp' x d ↔ Temp x d ∧ ¬ (x = id ∧ d = .valueString))) :
    ((heap.allocate id .sharedValue needed).share id o).Accounts Temp' creator := by
  refine Book.Accounts.acquire h hnew needed fun x => ?_
  obtain ⟨x, b⟩ := x
  by_cases hx : x = id
  · subst hx
    cases b <;> simp [OwnedBy, htemp, Heap.share, Heap.allocate, hnone, hvalue]
  · cases b <;> simp [OwnedBy, htemp, Heap.share, Heap.allocate, hx]

/-- The node is constructed: it has its block, its key and a copy of the shared pointer. -/
theorem Heap.Accounts.newNode (h : heap.Accounts Temp creator)
    (hnew : heap.book (id, .nodeKey) = none) (needed : Bool) {a : Addr}
    (hfree : creator a = none) (hraw : Temp id .rawNode) (hne : heap.owners id ≠ ∅)
    (htemp : ∀ x d, Temp' x d ↔ Temp x d ∧ ¬ (x = id ∧ d = .rawNode)) :
    ((heap.allocate id .nodeKey needed).share id (.node a)).Accounts Temp'
      (Function.update creator a (some id)) := by
  refine Book.Accounts.acquire h hnew needed fun x => ?_
  obtain ⟨x, b⟩ := x
  by_cases hx : x = id
  · subst hx
    have hmade : ∃ a', Function.update creator a (some x) a' = some x := ⟨a, by simp⟩
    cases b <;> simp [OwnedBy, htemp, Heap.share, Heap.allocate, hne, hraw, hmade]
  · have hmade : (∃ a', Function.update creator a (some id) a' = some x) ↔
        ∃ a', creator a' = some x := by
      refine exists_congr fun a' => ?_
      by_cases ha : a' = a
      · subst ha
        simp [hfree, Ne.symm hx]
      · simp [ha]
    cases b <;> simp [OwnedBy, htemp, Heap.share, Heap.allocate, hx, hmade]

/-- `delete_self` of the only node that the call `id` made. -/
theorem Heap.Accounts.deleteNode (h : heap.Accounts Temp creator) {ptr : CallId T} {a : Addr}
    (ho : .node a ∈ heap.owners ptr) (hvalue : ¬ Temp ptr .valueString)
    (hmade : creator a = some id) (hunique : ∀ a', creator a' = some id → a' = a)
    (hraw : ¬ Temp id .rawNode) :
    (heap.deleteNode ptr a id).Accounts Temp (Function.update creator a none) := by
  have hgone : ¬ ∃ a', Function.update creator a none a' = some id := by
    rintro ⟨a', ha'⟩
    by_cases ha : a' = a
    · simp [ha] at ha'
    · rw [Function.update_of_ne ha] at ha'
      exact ha (hunique a' ha')
  have hother : ∀ x, x ≠ id → ((∃ a', Function.update creator a none a' = some x) ↔
      ∃ a', creator a' = some x) := fun x hx => by
    refine exists_congr fun a' => ?_
    by_cases ha : a' = a
    · subst ha
      simp [hmade, Ne.symm hx]
    · simp [ha]
  have hkey : ((heap.drop ptr (.node a)).book.release (id, .nodeKey)).Accounts fun x =>
      OwnedBy (heap.drop ptr (.node a)).owners Temp creator x ∧ x ≠ (id, .nodeKey) := by
    have howned : OwnedBy (heap.drop ptr (.node a)).owners Temp creator (id, .nodeKey) := ⟨a, hmade⟩
    exact Book.Accounts.release (h.drop ho hvalue) howned fun _ => Iff.rfl
  have hnode : OwnedBy (heap.drop ptr (.node a)).owners Temp creator (id, .node) := .inr ⟨a, hmade⟩
  refine hkey.release ⟨hnode, by simp⟩ fun x => ?_
  obtain ⟨x, b⟩ := x
  by_cases hx : x = id
  · subst hx
    cases b <;> simp [OwnedBy, Heap.deleteNode, Heap.release, hgone, hraw]
  · cases b <;> simp [OwnedBy, Heap.deleteNode, Heap.release, hx, hother x hx]

theorem Heap.mem_deleteNode {ptr id' : CallId T} {a : Addr} {o : Owner T} :
    o ∈ (heap.deleteNode ptr a id').owners id ↔
      o ∈ heap.owners id ∧ ¬ (o = .node a ∧ id = ptr) := by
  by_cases hid : id = ptr
  · subst hid
    simp [Heap.deleteNode, Heap.release, Heap.drop, and_comm]
  · simp [Heap.deleteNode, Heap.release, Heap.drop, hid]

theorem Heap.mem_swap {new old : CallId T} {t : T} {a : Addr} (hne : new ≠ old) {o : Owner T} :
    o ∈ (heap.swap new old t a).owners id ↔
      o = .node a ∧ id = new ∨ o = .frame t ∧ id = old ∨
        o ∈ heap.owners id ∧ ¬ (o = .frame t ∧ id = new) ∧ ¬ (o = .node a ∧ id = old) := by
  by_cases hnew : id = new
  · subst hnew
    simp [Heap.swap, Heap.move, hne, and_comm]
  · by_cases hold : id = old
    · subst hold
      simp [Heap.swap, Heap.move, hne, hnew, and_comm]
    · simp [Heap.swap, Heap.move, hne, hnew, hold]

theorem Heap.Accounts.swap (h : heap.Accounts Temp creator) {new old : CallId T} {t : T}
    {a : Addr} (hnew : .frame t ∈ heap.owners new) (hold : .node a ∈ heap.owners old) :
    (heap.swap new old t a).Accounts Temp creator := by
  unfold Heap.swap
  split
  · exact h
  · next hne =>
    refine (h.move hnew _).move ?_ _
    simpa [Heap.move, Ne.symm hne] using hold

/-! ## Blocks that stay new -/

theorem Heap.drop_new {o : Owner T} {x : CallId T × Block}
    (hx : heap.book x = none) : (heap.drop id o).book x = none := by
  simp only [Heap.drop]
  split
  · simpa using hx
  · exact hx

theorem Heap.destroy_new {d : Temporary} {x : CallId T × Block}
    (hx : heap.book x = none) : (heap.destroy id d).book x = none := by
  cases d with
  | ptrValue => exact Heap.drop_new hx
  | _ => simpa [Heap.destroy, Heap.release] using hx

theorem Heap.allocate_new {id' : CallId T} {needed : Bool} {b b' : Block}
    (hne : id' ≠ id ∨ b' ≠ b) (hx : heap.book (id', b') = none) :
    (heap.allocate id b needed).book (id', b') = none := by
  have hne' : (id', b') ≠ (id, b) := by
    simp only [ne_eq, Prod.mk.injEq, not_and]
    rintro rfl rfl
    simp at hne
  cases needed
  · exact hx
  · exact (Book.allocate_ne _ hne').trans hx

theorem Heap.stage_new {id' : CallId T} {needed : Bool} {st : Stage}
    {b : Block} (hne : id' ≠ id ∨ st ≠ .allocate b) (hx : heap.book (id', b) = none) :
    (heap.stage id needed st).book (id', b) = none := by
  cases st with
  | allocator => exact hx
  | allocate b' =>
    have hblock : id' ≠ id ∨ b ≠ b' := hne.imp_right fun hst heq => hst (by rw [heq])
    cases b' <;> exact Heap.allocate_new hblock hx

end Heap

end LockFreeKV.Engine.Alloc
