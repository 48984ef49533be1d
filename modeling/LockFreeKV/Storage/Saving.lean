import LockFreeKV.Lib.BufferedOutput
import LockFreeKV.Storage.Persistency
import Mathlib.Data.List.TakeDrop

/-!
# Saving on a file system that fails

`save` truncates the file, lets the writer put the document through the buffer of a
`FileWriteStream` and closes the file. Only a failure of `fopen` is reported: what
`fwrite` answers is dropped by the stream and what `fclose` answers by the owner of
the file. A file system is an oracle for the three calls; without faults the result
is that of `save`.
-/
namespace LockFreeKV.Storage

open LockFreeKV.Lib

/-- What `fopen`, the `k`-th `fwrite` and `fclose` do. -/
structure FileSystem where
  opens : Bool
  /-- At most so many bytes are written, out of those that are asked for. -/
  accepts : Nat → Nat
  /-- A failing `fclose` leaves so many bytes at the front of the file. -/
  closeFails : Option Nat

/-- `FileStreamBufferSize`. -/
def fileStreamBufferSize : Nat := 32768

/-- `stdlib_extra::FileOwner`: what has been written to the open file, nothing for `nullptr`. -/
structure FileOwner where
  file : Option Bytes

/-- `fclose`. -/
def FileSystem.fclose (fs : FileSystem) (written : Bytes) : Bytes :=
  match fs.closeFails with
  | none => written
  | some n => written.take n

/-- `close`, with the content of the file before and after. -/
def FileOwner.close (fs : FileSystem) (owner : FileOwner) (content : Option Bytes) :
    FileOwner × Option Bytes :=
  match owner.file with
  | none => (owner, content)
  | some written => (⟨none⟩, some (fs.fclose written))

/-- `DataSerializer::save`. The owner is closed once more when it is destroyed. -/
def saveOn (fs : FileSystem) (R : Rapidjson) (file : File) (document : Document) : Bool × File :=
  if fs.opens then
    let text := R.accept document.toJson
    let owner : FileOwner := ⟨some (BufferedOutput.output fileStreamBufferSize fs.accepts text)⟩
    let (owner, content) := owner.close fs (some [])
    let (_, content) := owner.close fs content
    (true, { file with content := content })
  else
    let (_, content) := (⟨none⟩ : FileOwner).close fs file.content
    (false, { file with content := content })

/-- What `save` promises: the whole document in the file, or a report and the old content. -/
structure SavesSafely (R : Rapidjson) (file : File) (document : Document)
    (result : Bool × File) : Prop where
  complete : result.1 = true → result.2.content = some (R.accept document.toJson)
  untouched : result.1 = false → result.2.content = file.content

/-- Every `fwrite` writes what it is asked to, and `fclose` loses nothing. -/
def FileSystem.KeepsAll (fs : FileSystem) (length : Nat) : Prop :=
  BufferedOutput.TakesAll fileStreamBufferSize fs.accepts length ∧
    ∀ n, fs.closeFails = some n → length ≤ n

theorem fclose_eq_iff {fs : FileSystem} {written : Bytes} :
    fs.fclose written = written ↔ ∀ n, fs.closeFails = some n → written.length ≤ n := by
  unfold FileSystem.fclose
  cases fs.closeFails with
  | none => simp
  | some n => simp

theorem length_fclose_le (fs : FileSystem) (written : Bytes) :
    (fs.fclose written).length ≤ written.length := by
  unfold FileSystem.fclose
  cases fs.closeFails with
  | none => exact Nat.le_refl _
  | some n => exact List.length_take_le' n written

/-- After an `fopen` that succeeds `save` reports success. -/
theorem saveOn_opens {fs : FileSystem} (hopens : fs.opens = true) (R : Rapidjson) (file : File)
    (document : Document) :
    saveOn fs R file document = (true, { file with content := some (fs.fclose
      (BufferedOutput.output fileStreamBufferSize fs.accepts (R.accept document.toJson))) }) := by
  rw [saveOn, if_pos hopens]
  rfl

theorem saveOn_refused {fs : FileSystem} (hopens : fs.opens = false) (R : Rapidjson) (file : File)
    (document : Document) : saveOn fs R file document = (false, file) := by
  rw [saveOn, if_neg (by simp [hopens])]
  rfl

/-- The file holds the text exactly if no call on the way loses a byte of it. -/
theorem fclose_output_eq_iff (fs : FileSystem) (text : Bytes) :
    fs.fclose (BufferedOutput.output fileStreamBufferSize fs.accepts text) = text ↔
      fs.KeepsAll text.length := by
  have hsize : 0 < fileStreamBufferSize := by decide
  rcases BufferedOutput.output_cases fs.accepts hsize text with ⟨hout, hall⟩ | ⟨hlt, hcut⟩
  · rw [hout, fclose_eq_iff]
    exact ⟨fun hclose => ⟨hall, hclose⟩, fun hkeeps => hkeeps.2⟩
  · have hle := length_fclose_le fs
      (BufferedOutput.output fileStreamBufferSize fs.accepts text)
    constructor
    · intro heq
      rw [heq] at hle
      omega
    · exact fun hkeeps => absurd hkeeps.1 hcut

/-- **When `save` is safe.** Exactly if the file cannot be opened, or every write and the close
keep all the bytes of the document. -/
theorem saveOn_safe_iff (fs : FileSystem) (R : Rapidjson) (file : File) (document : Document) :
    SavesSafely R file document (saveOn fs R file document) ↔
      fs.opens = false ∨ fs.KeepsAll (R.accept document.toJson).length := by
  cases hopens : fs.opens with
  | false =>
    rw [saveOn_refused hopens]
    exact ⟨fun _ => .inl rfl, fun _ => ⟨fun hsaved => Bool.noConfusion hsaved, fun _ => rfl⟩⟩
  | true =>
    rw [saveOn_opens hopens, ← fclose_output_eq_iff]
    constructor
    · exact fun hsafe => .inr (Option.some.inj (hsafe.complete rfl))
    · intro hkeeps
      refine ⟨fun _ => ?_, fun hfailed => Bool.noConfusion hfailed⟩
      rcases hkeeps with hfalse | heq
      · cases hfalse
      · exact congrArg some heq

/-- A file system without faults. -/
def faultless (opens : Bool) : FileSystem := ⟨opens, fun _ => fileStreamBufferSize, none⟩

/-- Without faults the buffer cannot be seen. -/
theorem saveOn_faultless (R : Rapidjson) (file : File) (document : Document) :
    saveOn (faultless file.writable) R file document = save R file document := by
  have hkeeps : (faultless file.writable).KeepsAll (R.accept document.toJson).length :=
    ⟨fun _ _ => Nat.min_le_left _ _, by simp [faultless]⟩
  by_cases hopens : file.writable = true
  · rw [saveOn_opens hopens, (fclose_output_eq_iff _ _).mpr hkeeps, save, if_pos hopens]
  · rw [saveOn_refused (Bool.eq_false_iff.mpr hopens), save, if_neg hopens]

/-- The disk is full: no byte is written. -/
def diskFull : FileSystem := ⟨true, fun _ => 0, none⟩

/-- The only copy of the record is gone, and the save has succeeded. -/
theorem diskFull_reports_success :
    saveOn diskFull Rapidjson.reference ⟨some (ofString "\x7b\"a\":\"1\"\x7d"), true, true⟩
        ⟨[(ofString "a", ofString "1")]⟩ = (true, ⟨some [], true, true⟩) ∧
    ¬ SavesSafely Rapidjson.reference ⟨some (ofString "\x7b\"a\":\"1\"\x7d"), true, true⟩
      ⟨[(ofString "a", ofString "1")]⟩ (saveOn diskFull Rapidjson.reference
        ⟨some (ofString "\x7b\"a\":\"1\"\x7d"), true, true⟩ ⟨[(ofString "a", ofString "1")]⟩) := by
  refine ⟨by rfl, fun hsafe => ?_⟩
  have hcontent := hsafe.complete (by rfl)
  cases hcontent

end LockFreeKV.Storage
