import Mathlib.Data.List.Basic
import Mathlib.Tactic.Ring

/-! The persisted session status and the exit information of a wrapped command. Time
stamps, paths and the metadata's command line take no part in the modelled logic. -/
namespace Babysit

/-- The bound of offsets and lengths, at which additions saturate. -/
def U64_MAX : ℕ := 2^64-1

/-- What the wait thread records: `code` is absent after a signal, and when the
process reports a code outside the signed 32-bit range. -/
structure ExitInfo where
  code : Option Int32
  signaled : Bool
  deriving DecidableEq, Repr

inductive State
  | starting
  | running
  | exited
  | killed
  deriving DecidableEq, Repr

/-- True once the wrapped command has finished. -/
def State.isTerminal : State → Bool
  | .exited | .killed => true
  | .starting | .running => false

/-- The live state, as `status.json` holds it. -/
structure Status where
  state : State
  childPid : Option UInt32
  exitCode : Option Int32
  deriving DecidableEq, Repr

def Status.starting : Status := ⟨.starting,none,none⟩

def Status.isTerminal (s : Status) : Bool := s.state.isTerminal

@[simp] theorem Status.isTerminal_mk (state : State) (pid : Option UInt32) (code : Option Int32) :
    (Status.mk state pid code).isTerminal = state.isTerminal := rfl

end Babysit
