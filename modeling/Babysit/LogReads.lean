import Babysit.Lib.AppendLog
import Babysit.ReadSlice

/-! The log file as the log commands meet it: it may not exist yet, it grows, and at some
time the session is finished. Each command reads slices of it. -/
namespace Babysit
open AppendLog Utf8

/-- The log, none before it is created, and whether the status, read now, is terminal. -/
structure LogFile where
  bytes : Option (List UInt8)
  finished : Bool

/-- The worker may still write after the session counts as finished, and a status that cannot
be read counts as not finished. -/
inductive LogFileEvent
  | grow (data : List UInt8)
  | status (terminal : Bool)

/-- A read from an offset. Ghost: `bytes` is what its text was decoded from. -/
structure SliceRead where
  offset : ℕ
  bytes : List UInt8
  text : List Char
  next : ℕ
  deriving DecidableEq

/-- The text of some bytes of the log. -/
def logText (strip : List UInt8 → List UInt8) (raw : Bool) (bytes : List UInt8) : List Char :=
  decodeLossy (if raw then bytes else strip bytes)

namespace LogFile

def absent : LogFile := ⟨none,false⟩

def after (f : LogFile) : LogFileEvent → LogFile
  | .grow data => { f with bytes := some (f.bytes.getD [] ++ data) }
  | .status terminal => { f with finished := terminal }

def length (f : LogFile) : ℕ := (f.bytes.getD []).length

def slice (strip : List UInt8 → List UInt8) (f : LogFile) (off : ℕ) (raw : Bool) : SliceRead :=
  let r := readSlice strip f.bytes off raw
  ⟨off,((f.bytes.getD []).drop off).take (r.2-off),r.1,r.2⟩

variable {strip : List UInt8 → List UInt8} {f : LogFile} {off : ℕ} {raw : Bool}

theorem length_after (f : LogFile) (e : LogFileEvent) : f.length ≤ (f.after e).length := by
  cases e with
  | grow data => simp [after,length]
  | status terminal => exact Nat.le_refl _

theorem slice_absent (h : f.bytes = none) : f.slice strip off raw = ⟨off,[],[],off⟩ := by
  simp [slice,readSlice,h]

/-- A read from the end or from beyond it. -/
theorem slice_beyond {log : List UInt8} (h : f.bytes = some log) (hoff : log.length ≤ off) :
    f.slice strip off raw = ⟨off,[],[],log.length⟩ := by
  simp [slice,readSlice,h,hoff]

/-- A read from within the log ends between its offset and the end. -/
theorem slice_within (strip : List UInt8 → List UInt8) (raw : Bool) {log : List UInt8}
    (h : f.bytes = some log) (hoff : off < log.length) :
    f.slice strip off raw = ⟨off,(log.drop off).take (safePrefixLen (log.drop off)),
      logText strip raw ((log.drop off).take (safePrefixLen (log.drop off))),
      off+safePrefixLen (log.drop off)⟩ ∧ off+safePrefixLen (log.drop off) ≤ log.length := by
  have hsafe := safePrefixLen_le (log.drop off)
  rw [List.length_drop] at hsafe
  refine ⟨?_,by omega⟩
  simp [slice,readSlice,h,Nat.not_le.mpr hoff,logText]

@[simp] theorem slice_offset (strip : List UInt8 → List UInt8) (f : LogFile) (off : ℕ)
    (raw : Bool) : (f.slice strip off raw).offset = off := rfl

/-- A read never goes back within the log, nor past its end. -/
theorem slice_next (strip : List UInt8 → List UInt8) (raw : Bool) (hoff : off ≤ f.length) :
    off ≤ (f.slice strip off raw).next ∧ (f.slice strip off raw).next ≤ f.length := by
  cases hbytes : f.bytes with
  | none =>
    rw [slice_absent hbytes]
    exact ⟨Nat.le_refl _,hoff⟩
  | some log =>
    have hlength : f.length = log.length := by simp [length,hbytes]
    rw [hlength] at hoff ⊢
    rcases Nat.lt_or_ge off log.length with hwithin | hbeyond
    · obtain ⟨hslice,hend⟩ := slice_within strip raw hbytes hwithin
      rw [hslice]
      exact ⟨Nat.le_add_right _ _,hend⟩
    · rw [slice_beyond hbytes hbeyond]
      exact ⟨hoff,Nat.le_refl _⟩

/-- The text of a read is decoded from bytes of the log at its offset. -/
theorem slice_text (strip : List UInt8 → List UInt8) (f : LogFile) (off : ℕ) (raw : Bool) :
    HoldsAt (f.bytes.getD []) off (f.slice strip off raw).bytes ∧
      ((f.slice strip off raw).text = logText strip raw (f.slice strip off raw).bytes ∨
        (f.slice strip off raw).text = []) := by
  refine ⟨List.take_prefix _ _,?_⟩
  cases hbytes : f.bytes with
  | none => exact .inr (by rw [slice_absent hbytes])
  | some log =>
    rcases Nat.lt_or_ge off log.length with hwithin | hbeyond
    · obtain ⟨hslice,-⟩ := slice_within strip raw hbytes hwithin
      exact .inl (by rw [hslice])
    · exact .inr (by rw [slice_beyond hbytes hbeyond])

end LogFile

end Babysit
