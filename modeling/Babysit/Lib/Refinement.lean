import Babysit.Lib.Transition

/-! Refinement between two transition systems. A step of the concrete system is given as a list
of events of the abstract one; when a relation between the states survives every step, each
concrete run is the abstract run of its trace. -/
namespace Refinement
variable {σ ε τ δ : Type*}

/-- The abstract events of a run. -/
def trace (step : σ → ε → Option σ) (events : σ → ε → List δ) : σ → List ε → List δ
  | _, [] => []
  | s, e::es => events s e ++ ((step s e).map fun t => trace step events t es).getD []

variable {step : σ → ε → Option σ} {events : σ → ε → List δ} {abstract : τ → δ → Option τ}
  {R : σ → τ → Prop}

/-- A step keeps the relation when the abstract system follows it with its events. -/
def Follows (step : σ → ε → Option σ) (events : σ → ε → List δ) (abstract : τ → δ → Option τ)
    (R : σ → τ → Prop) : Prop :=
  ∀ s e t a, step s e = some t → R s a → ∃ b, Transition.exec abstract a (events s e) = some b ∧ R t b

theorem trace_cons {s t : σ} {e : ε} {es : List ε} (h : step s e = some t) :
    trace step events s (e::es) = events s e ++ trace step events t es := by
  rw [trace,h]
  rfl

/-- Every run is followed, event by event. -/
theorem exec_trace (hfollows : Follows step events abstract R) {s u : σ} {a : τ} {es : List ε}
    (hrun : Transition.exec step s es = some u) (ha : R s a) :
    ∃ b, Transition.exec abstract a (trace step events s es) = some b ∧ R u b := by
  induction es generalizing s a with
  | nil =>
    cases hrun
    exact ⟨a,rfl,ha⟩
  | cons e es ih =>
    obtain ⟨t,ht,hrest⟩ := Transition.exec_cons_eq_some.mp hrun
    obtain ⟨b,hb,hR⟩ := hfollows s e t a ht ha
    obtain ⟨c,hc,hend⟩ := ih hrest hR
    refine ⟨c,?_,hend⟩
    rw [trace_cons ht,Transition.exec_append,hb]
    exact hc

/-- A step without events leaves the abstract state as it is. -/
theorem follows_silent {t : σ} {a : τ} (h : R t a) :
    ∃ b, Transition.exec abstract a [] = some b ∧ R t b := ⟨a,rfl,h⟩

/-- A step that is one abstract step. -/
theorem follows_one {t : σ} {a b : τ} {d : δ} (hstep : abstract a d = some b) (h : R t b) :
    ∃ b, Transition.exec abstract a [d] = some b ∧ R t b := by
  refine ⟨b,?_,h⟩
  rw [Transition.exec_cons,hstep]
  rfl

end Refinement
