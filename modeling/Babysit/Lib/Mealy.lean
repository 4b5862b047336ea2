import Mathlib.Data.List.Basic
import Mathlib.Data.List.Flatten

/-! Mealy machines over a stream of symbols. A machine that is fed piece by piece is
the same machine fed at once; a machine restarted from its first state on every piece
is not, and `restarted_eq_iff` says exactly when the two print the same. -/

/-- A transducer: every symbol moves the state and emits finitely many outputs. -/
structure Mealy (σ α β : Type*) where
  next : σ → α → σ
  emit : σ → α → List β

namespace Mealy
variable {σ α β : Type*} (M : Mealy σ α β)

def state (s : σ) (xs : List α) : σ := xs.foldl M.next s

def out : σ → List α → List β
  | _, [] => []
  | s, x::xs => M.emit s x ++ out (M.next s x) xs

@[simp] theorem state_nil (s : σ) : M.state s [] = s := rfl
@[simp] theorem state_cons (s : σ) (x : α) (xs : List α) :
    M.state s (x::xs) = M.state (M.next s x) xs := rfl
@[simp] theorem out_nil (s : σ) : M.out s [] = [] := rfl
@[simp] theorem out_cons (s : σ) (x : α) (xs : List α) :
    M.out s (x::xs) = M.emit s x ++ M.out (M.next s x) xs := rfl

theorem state_append (s : σ) (xs ys : List α) :
    M.state s (xs++ys) = M.state (M.state s xs) ys := by simp [state]

/-- A state that no element leaves. -/
theorem state_of_forall {s : σ} {xs : List α} (h : ∀ x ∈ xs, M.next s x = s) : M.state s xs = s := by
  induction xs with
  | nil => rfl
  | cons x xs ih =>
    rw [state_cons,h x List.mem_cons_self]
    exact ih fun y hy => h y (List.mem_cons_of_mem x hy)

theorem out_append (s : σ) (xs ys : List α) :
    M.out s (xs++ys) = M.out s xs ++ M.out (M.state s xs) ys := by
  induction xs generalizing s with
  | nil => rfl
  | cons x xs ih => simp [ih]

/-- The output of a machine restarted from `s` on every piece. -/
def restarted (s : σ) (pieces : List (List α)) : List β := pieces.flatMap (M.out s)

@[simp] theorem restarted_nil (s : σ) : M.restarted s [] = [] := rfl
@[simp] theorem restarted_cons (s : σ) (p : List α) (ps : List (List α)) :
    M.restarted s (p::ps) = M.out s p ++ M.restarted s ps := rfl

/-- Each piece prints from the state its predecessors leave what it prints from `s`. -/
def Agrees (s : σ) : σ → List (List α) → Prop
  | _, [] => True
  | q, p::ps => M.out q p = M.out s p ∧ Agrees s (M.state q p) ps

/-- One state prints at least what the other does, symbol by symbol, from here on. -/
def Covers (s q : σ) : Prop := ∀ xs, (M.out q xs).Sublist (M.out s xs)

theorem covers_of_simulation (R : σ → σ → Prop)
    (hR : ∀ s q x, R s q → (M.emit q x).Sublist (M.emit s x) ∧ R (M.next s x) (M.next q x))
    {s q : σ} (h : R s q) : M.Covers s q := by
  intro xs
  induction xs generalizing s q with
  | nil => exact .slnil
  | cons x xs ih => exact (hR s q x h).1.append (ih (hR s q x h).2)

lemma out_sublist_restarted {s : σ} (hs : ∀ q, M.Covers s q) (q : σ)
    (ps : List (List α)) : (M.out q ps.flatten).Sublist (M.restarted s ps) := by
  induction ps generalizing q with
  | nil => exact .slnil
  | cons p ps ih =>
    rw [List.flatten_cons,out_append,restarted_cons]
    exact (hs q p).append (ih _)

/-- Where `s` covers every state, the restarted machine prints what one pass prints if
and only if it does so on every piece. -/
theorem restarted_eq_iff {s : σ} (hs : ∀ q, M.Covers s q) (q : σ) (ps : List (List α)) :
    M.restarted s ps = M.out q ps.flatten ↔ M.Agrees s q ps := by
  induction ps generalizing q with
  | nil => simp [Agrees]
  | cons p ps ih =>
    rw [List.flatten_cons,out_append,restarted_cons,Agrees,← ih (M.state q p)]
    constructor
    · intro h
      have hp := hs q p
      have hrest := M.out_sublist_restarted hs (M.state q p) ps
      have hlen := congrArg List.length h
      simp only [List.length_append] at hlen
      have hp' : M.out q p = M.out s p := hp.eq_of_length (by
        have := hp.length_le
        have := hrest.length_le
        omega)
      refine ⟨hp',?_⟩
      rw [hp'] at h
      exact List.append_cancel_left h
    · rintro ⟨hp,hps⟩
      rw [hp,hps]

end Mealy
