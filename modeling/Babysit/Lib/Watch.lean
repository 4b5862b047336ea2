import Mathlib.Data.Nat.Notation

/-! A watch channel: it holds one value and the number of values sent. A receiver is the
number it has seen last; it is ready when there is a newer one. Borrowing the value does not
change what has been seen, and a cloned receiver has seen what its source has. -/

structure Watch (α : Type*) where
  value : α
  version : ℕ

namespace Watch
variable {α : Type*}

/-- The channel with its first value, which its first receiver has seen. -/
def channel (x : α) : Watch α := ⟨x,0⟩

def send (w : Watch α) (x : α) : Watch α := ⟨x,w.version+1⟩

/-- A new receiver has seen the current value. -/
def subscribe (w : Watch α) : ℕ := w.version

def hasChanged (w : Watch α) (seen : ℕ) : Bool := seen ≠ w.version

@[simp] theorem hasChanged_iff (w : Watch α) (seen : ℕ) :
    w.hasChanged seen = true ↔ seen ≠ w.version := by
  simp [hasChanged]

/-- A receiver that lags behind is ready. -/
theorem hasChanged_of_lt {w : Watch α} {seen : ℕ} (h : seen < w.version) :
    w.hasChanged seen = true := by
  rw [hasChanged_iff]
  exact Nat.ne_of_lt h

end Watch
