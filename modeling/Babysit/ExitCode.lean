import Babysit.Lib.BigEndian
import Babysit.Session

/-! The exit code on its way to a report: through the payload of an exit frame, and
through the recorded status. -/
namespace Babysit

def exitPayload (info : Option ExitInfo) : List UInt8 :=
  let (signaled,code) := match info with
    | some i => (i.signaled,i.code.getD (if i.signaled then 130 else 0))
    | none => (true,130)
  (if signaled then 1 else 0) :: BigEndian.encode 4 code.toUInt32.toNat

def parseExit (payload : List UInt8) : Int32 :=
  if payload.length = 5 then (UInt32.ofNat (BigEndian.decode payload.tail)).toInt32 else 0

/-- The code `exit_payload` sends for the information at hand. -/
def exitCodeFromInfo (info : Option ExitInfo) : Int32 :=
  match info with
  | some i => i.code.getD (if i.signaled then 130 else 0)
  | none => 130

/-- The code of a recorded status, with the defaults of the attach client. -/
def exitCodeFromStatus (status : Option Status) : Int32 :=
  match status with
  | some s => s.exitCode.getD (if s.state = .killed then 130 else 0)
  | none => 0

/-- An exit frame carries its code unchanged. -/
theorem parseExit_exitPayload (info : Option ExitInfo) :
    parseExit (exitPayload info) = exitCodeFromInfo info := by
  have hcode : ∀ (b : UInt8) (code : Int32),
      parseExit (b :: BigEndian.encode 4 code.toUInt32.toNat) = code := by
    intro b code
    have hlt : code.toUInt32.toNat < 256^4 := by
      have := code.toUInt32.toNat_lt
      omega
    simp [parseExit,BigEndian.decode_encode_of_lt hlt]
  cases info <;> exact hcode _ _

end Babysit
