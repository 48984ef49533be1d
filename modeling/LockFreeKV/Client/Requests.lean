import Mathlib
import LockFreeKV.Engine.StoredKeys
import LockFreeKV.Http.Stages
import LockFreeKV.Http.UrlEncoding

/-!
# The requests of the load client

`one_request` draws a number, which makes the operation a write, a read that is meant
to miss or another read, and a name. The names that writes use and those that are
meant for misses are two lists without a common name; every draw is from the first.
-/
namespace LockFreeKV.Client

open LockFreeKV.Lib LockFreeKV.Engine LockFreeKV.Http

/-- `MAX_COUNT_OF_DB_RECORDS`. -/
def maxCountOfDbRecords : Nat := 1000000

def percentOfWrites : Nat := 10

def percentOfFoundReads : Nat := 10

def percentOfNotFoundReads : Nat := 100 - percentOfWrites - percentOfFoundReads

def valueName (x : Nat) : String := "name_" ++ toString x

/-- `WRITE_VALUE_NAMES`. -/
def writeValueNames (i : Fin maxCountOfDbRecords) : String := valueName i

/-- `NOT_FOUND_VALUE_NAMES`. -/
def notFoundValueNames (i : Fin maxCountOfDbRecords) : String := valueName (maxCountOfDbRecords + i)

/-- `random.randint(1, 100)` and the index of `random.choice`. -/
structure Draw where
  rand : Nat
  rand_pos : 1 ≤ rand
  rand_le : rand ≤ 100
  choice : Fin maxCountOfDbRecords
  deriving DecidableEq

/-- `random.randint(1000, 1_000_000_000)`. -/
structure NewValue where
  number : Nat
  number_ge : 1000 ≤ number
  number_le : number ≤ 1000000000
  deriving DecidableEq

/-- `json.dumps` of the value, with an indentation of two. -/
def NewValue.body (v : NewValue) : Bytes :=
  ofString ("\x7b\n  \"value\": \"val_" ++ toString v.number ++ "\"\n\x7d")

namespace Draw

variable (d : Draw)

def writing : Bool := d.rand ≤ percentOfWrites

/-- `read_404`: the read is meant to find nothing. -/
def read404 : Bool :=
  0 < (d.rand : Int) - percentOfWrites ∧ (d.rand : Int) - percentOfWrites ≤ percentOfNotFoundReads

/-- Both branches choose from the names that are written. -/
def name : String := if d.read404 then writeValueNames d.choice else writeValueNames d.choice

def key : Bytes := ofString d.name

/-- What is sent: `POST` of a value, or `GET`. -/
def request (v : NewValue) : RecordRequest :=
  if d.writing then .post (quotePlus d.key) v.body else .get (quotePlus d.key)

/-- The engine call that belongs to the draw. -/
def Calls : KvOp Bytes Bytes → Prop
  | .get k => d.writing = false ∧ k = d.key
  | .set k _ => d.writing = true ∧ k = d.key

variable {d}

theorem name_eq : d.name = writeValueNames d.choice := by simp [name]

theorem not_writing (h : d.read404 = true) : d.writing = false := by
  simp only [read404, writing, decide_eq_true_eq, decide_eq_false_iff_not] at h ⊢
  omega

theorem key_ne_nil : d.key ≠ [] := by
  refine ofString_ne_nil fun hname => ?_
  have hlength := congrArg String.length hname
  simp [name_eq, writeValueNames, valueName, String.length_append] at hlength

theorem Calls.sets_iff {op : KvOp Bytes Bytes} (h : d.Calls op) (key : Bytes) :
    op.Sets key ↔ d.writing = true ∧ d.key = key := by
  cases op with
  | get k => simp [KvOp.Sets, h.1]
  | set k value => simp [KvOp.Sets, h.1, h.2]

/-- A read calls `get` for its key, unless its handler throws in front of that. -/
theorem stage_read (h : d.writing = false) (v : NewValue) (failures : FailPoint → Bool)
    (R : Rapidjson) :
    (d.request v).stage failures R = .ok (if throwsEarly failures then .replies (errorReply .empty)
      else .calls (.get d.key)) := by
  rw [request, if_neg (by simp [h])]
  exact getStage_eq (urlDecode_encodes (encodes_quotePlus _)) key_ne_nil

/-- No request of the client leads the decoder out of its input, and none calls the engine for
another name. -/
theorem exists_stage (v : NewValue) (failures : FailPoint → Bool) (R : Rapidjson) :
    ∃ stage, (d.request v).stage failures R = .ok stage ∧ ∀ op, stage = .calls op → d.Calls op := by
  cases hw : d.writing with
  | false =>
    refine ⟨_, stage_read hw v failures R, fun op hop => ?_⟩
    split at hop
    · cases hop
    · cases hop
      exact ⟨hw, rfl⟩
  | true =>
    rw [request, if_pos hw]
    rcases postStage_cases failures R v.body
      (urlDecode_encodes (encodes_quotePlus d.key)) with ⟨reply, h⟩ | ⟨value, h⟩
    · exact ⟨_, h, fun op hop => by cases hop⟩
    · refine ⟨_, h, fun op hop => ?_⟩
      cases hop
      exact ⟨hw, rfl⟩

end Draw

/-! ## The two lists of names -/

theorem valueName_injective {x y : Nat} (h : valueName x = valueName y) : x = y :=
  Nat.repr_inj.mp (String.append_right_inj _ |>.mp h)

/-- No name of one list is in the other. -/
theorem writeValueNames_ne (i j : Fin maxCountOfDbRecords) :
    writeValueNames i ≠ notFoundValueNames j := fun h => by
  have hindex := valueName_injective h
  have hlt := i.isLt
  omega

theorem Draw.key_ne_notFound (d : Draw) (i : Fin maxCountOfDbRecords) :
    d.key ≠ ofString (notFoundValueNames i) := fun h =>
  writeValueNames_ne d.choice i (Draw.name_eq.symm.trans (ofString_injective h))

end LockFreeKV.Client
