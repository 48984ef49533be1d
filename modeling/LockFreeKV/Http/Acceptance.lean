import LockFreeKV.Http.Service

/-!
# Which requests are accepted

A valid `POST` body is a JSON text, as a whole, with an object at its root whose
first `value` member is a string. The handler gives the body to the parser as a
C string, so it accepts a valid text with a NUL byte and anything else behind it;
on every other body it does what the interface promises.
-/
namespace LockFreeKV.Http

open LockFreeKV.Lib LockFreeKV.Engine

/-- The string that a valid request asks to store. -/
def postedValue (body : Bytes) : Option Bytes := posted Rapidjson.reference body

/-- What the interface promises for a `POST` of `body`. -/
structure AnswersBody {h : Hashing Bytes} (engine : DataEngine h Bytes) (name body : Bytes)
    (reply : Reply) (engine' : DataEngine h Bytes) : Prop where
  accepted : reply.code = 200 ↔ ∃ value, postedValue body = some value
  stored : ∀ value, postedValue body = some value →
    engine'.table.toMap = Function.update engine.table.toMap name (some value)
  refused : postedValue body = none → reply.code = 400 ∧ engine' = engine

theorem zero_notMem_of_postedValue {body value : Bytes} (h : postedValue body = some value) :
    0 ∉ body := by
  unfold postedValue posted at h
  split at h
  · next members hparse => exact Rapidjson.zero_notMem_of_reference hparse
  · cases h

/-- The handler judges the bytes in front of the first NUL. -/
theorem requestValue_eq_ok_iff {R : Rapidjson} (hR : R.ReadsGrammar) (body value : Bytes) :
    requestValue R body = .ok value ↔ postedValue (cStr body) = some value := by
  rw [requestValue_eq_ok, posted_of_readsGrammar hR, postedValue]

variable {h : Hashing Bytes}

/-- **What `POST` accepts.** With a parser of the grammar, a request with a nonempty name is
answered as the interface promises exactly if its body has no NUL byte, or has no valid request in
front of the first one. -/
theorem postRecord_accepts_iff (R : Rapidjson) (hR : R.ReadsGrammar) (engine : DataEngine h Bytes)
    {nameRaw name : Bytes} (hname : urlDecode nameRaw = .ok name) (hne : name ≠ [])
    (reqBody : Bytes) :
    ∃ reply engine', postRecord noFailure R engine nameRaw reqBody = .ok (reply, engine') ∧
      (AnswersBody engine name reqBody reply engine' ↔
        0 ∉ reqBody ∨ postedValue (cStr reqBody) = none) := by
  rw [postRecord_eq R engine reqBody hname hne]
  cases hvalue : requestValue R reqBody with
  | error message =>
    have hnone : postedValue (cStr reqBody) = none := by
      rw [Option.eq_none_iff_forall_ne_some]
      intro value hsome
      rw [(requestValue_eq_ok_iff hR reqBody value).mpr hsome] at hvalue
      cases hvalue
    have hwhole : postedValue reqBody = none := by
      rw [Option.eq_none_iff_forall_ne_some]
      intro value hsome
      rw [cStr_eq (zero_notMem_of_postedValue hsome), hsome] at hnone
      cases hnone
    refine ⟨_, _, rfl, fun _ => .inr hnone, fun _ => ⟨?_, ?_, fun _ => ⟨rfl, rfl⟩⟩⟩
    · simp [hwhole]
    · simp [hwhole]
  | ok value =>
    have hposted := (requestValue_eq_ok_iff hR reqBody value).mp hvalue
    refine ⟨_, _, rfl, fun hanswers => ?_, fun hcond => ?_⟩
    · -- an accepted body is valid as a whole
      obtain ⟨value', hwhole⟩ := hanswers.accepted.mp rfl
      exact .inl (zero_notMem_of_postedValue hwhole)
    · have hzero : 0 ∉ reqBody := by
        rcases hcond with hzero | hnone
        · exact hzero
        · rw [hposted] at hnone
          cases hnone
      rw [cStr_eq hzero] at hposted
      refine ⟨⟨fun _ => ⟨value, hposted⟩, fun _ => rfl⟩, fun value' hvalue' => ?_, fun hnone => ?_⟩
      · obtain rfl := Option.some.inj (hposted.symm.trans hvalue')
        rw [DataEngine.set_table, Table.toMap_set]
      · rw [hposted] at hnone
        cases hnone

/-- A valid body, for the name `a b`. -/
theorem postRecord_accepts_valid : ∃ reply engine',
    postRecord noFailure Rapidjson.reference (.new byLength Bytes) (ofString "a+b")
      (ofString "\x7b\"value\":\"x\"\x7d") = .ok (reply, engine') ∧
    AnswersBody (.new byLength Bytes) (ofString "a b") (ofString "\x7b\"value\":\"x\"\x7d") reply
      engine' := by
  have hname : urlDecode (ofString "a+b") = .ok (ofString "a b") := by decide
  obtain ⟨reply, engine', hpost, hiff⟩ := postRecord_accepts_iff Rapidjson.reference
    Rapidjson.reference_readsGrammar (.new byLength Bytes) hname (by decide)
    (ofString "\x7b\"value\":\"x\"\x7d")
  exact ⟨reply, engine', hpost, hiff.mpr (.inl (by decide))⟩

/-- A valid text, a NUL byte and more: no JSON text, and accepted. -/
def cutBody : Bytes := ofString "\x7b\"value\":\"x\"\x7d" ++ 0 :: ofString "]["

theorem postRecord_accepts_cutBody : ∃ reply engine',
    postRecord noFailure Rapidjson.reference (.new byLength Bytes) (ofString "a") cutBody =
      .ok (reply, engine') ∧
    reply.code = 200 ∧ engine'.table.toMap (ofString "a") = some (ofString "x") ∧
    Json.read cutBody = none ∧
    ¬ AnswersBody (.new byLength Bytes) (ofString "a") cutBody reply engine' := by
  have hposted : postedValue cutBody = none := by rfl
  refine ⟨_, _, rfl, rfl, rfl, rfl, fun hanswers => ?_⟩
  have hcode := (hanswers.refused hposted).1
  cases hcode

end LockFreeKV.Http
