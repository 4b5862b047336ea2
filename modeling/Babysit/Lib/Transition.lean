import Mathlib.Data.List.Basic

/-! Deterministic labelled transition systems. A partial step function gives the
enabled events; a run executes a finite list of them. The two run predicates say
that a property holds in every state passed and that every step taken meets a
condition, and `always_iff_meets` turns one into the other. -/
namespace Transition
variable {σ ε : Type*}

/-- Execute the events in order; `none` when one of them is not enabled. -/
def exec (step : σ → ε → Option σ) : σ → List ε → Option σ
  | s, [] => some s
  | s, e::es => (step s e).bind fun t => exec step t es

/-- The property holds in the first state and in every state the run passes. -/
def Always (step : σ → ε → Option σ) (P : σ → Prop) : σ → List ε → Prop
  | s, [] => P s
  | s, e::es => P s ∧ ∀ t, step s e = some t → Always step P t es

/-- Every step taken meets the condition, read in the state before the step. -/
def Meets (step : σ → ε → Option σ) (C : σ → ε → Prop) : σ → List ε → Prop
  | _, [] => True
  | s, e::es => ∀ t, step s e = some t → C s e ∧ Meets step C t es

instance decidableMeets (step : σ → ε → Option σ) (C : σ → ε → Prop)
    [∀ s e, Decidable (C s e)] : (s : σ) → (es : List ε) → Decidable (Meets step C s es)
  | _, [] => .isTrue trivial
  | s, e::es =>
    match h : step s e with
    | none => .isTrue fun t ht => by rw [h] at ht; cases ht
    | some t =>
      have : Decidable (Meets step C t es) := decidableMeets step C t es
      decidable_of_iff (C s e ∧ Meets step C t es)
        ⟨fun hc u hu => by rw [h] at hu; cases hu; exact hc,fun hc => hc t h⟩

variable {step : σ → ε → Option σ} {P I : σ → Prop} {C : σ → ε → Prop}

@[simp] theorem exec_nil (s : σ) : exec step s [] = some s := rfl

@[simp] theorem exec_cons (s : σ) (e : ε) (es : List ε) :
    exec step s (e::es) = (step s e).bind fun t => exec step t es := rfl

/-- A nonempty run is a first step and a run of the rest. -/
theorem exec_cons_eq_some {s u : σ} {e : ε} {es : List ε} :
    exec step s (e::es) = some u ↔ ∃ t, step s e = some t ∧ exec step t es = some u := by
  simp [Option.bind_eq_some_iff]

theorem exec_append (s : σ) (es fs : List ε) :
    exec step s (es++fs) = (exec step s es).bind fun t => exec step t fs := by
  induction es generalizing s with
  | nil => rfl
  | cons e es ih =>
    simp only [List.cons_append, exec_cons, Option.bind_assoc]
    congr 1
    funext t
    exact ih t

/-- An inductive property holds at the end of every run. -/
theorem invariant (hstep : ∀ s e t, step s e = some t → I s → I t) {s u : σ} {es : List ε}
    (hrun : exec step s es = some u) (hs : I s) : I u := by
  induction es generalizing s with
  | nil => cases hrun; exact hs
  | cons e es ih =>
    obtain ⟨t,ht,hu⟩ := exec_cons_eq_some.mp hrun
    exact ih hu (hstep s e t ht hs)

theorem always_of_meets (hstep : ∀ s e t, step s e = some t → C s e → I s → I t)
    (hP : ∀ s, I s → P s) {s : σ} {es : List ε} (hmeets : Meets step C s es) (hs : I s) :
    Always step P s es := by
  induction es generalizing s with
  | nil => exact hP s hs
  | cons e es ih =>
    refine ⟨hP s hs,fun t ht => ?_⟩
    obtain ⟨hc,hrest⟩ := hmeets t ht
    exact ih hrest (hstep s e t ht hc hs)

theorem Always.head {s : σ} {es : List ε} (h : Always step P s es) : P s := by
  cases es with
  | nil => exact h
  | cons e es => exact h.1

/-- Where the property holds in every state passed, it holds in the last one. -/
theorem Always.last {s u : σ} {es : List ε} (h : Always step P s es)
    (hrun : exec step s es = some u) : P u := by
  induction es generalizing s with
  | nil => cases hrun; exact h
  | cons e es ih =>
    obtain ⟨t,ht,hu⟩ := exec_cons_eq_some.mp hrun
    exact ih (h.2 t ht) hu

/-- The exact condition of a run property: of the steps that are given, those that meet the
condition keep the invariant, and one that does not leads to a state without the property. -/
theorem always_iff_meets_given {A : σ → ε → Prop} (hP : ∀ s, I s → P s)
    (hstep : ∀ s e t, step s e = some t → A s e → C s e → I s → I t)
    (hbad : ∀ s e t, step s e = some t → A s e → ¬C s e → I s → ¬P t) {s : σ} (hs : I s)
    {es : List ε} (hgiven : Meets step A s es) : Always step P s es ↔ Meets step C s es := by
  induction es generalizing s with
  | nil => exact ⟨fun _ => trivial,fun _ => hP s hs⟩
  | cons e es ih =>
    constructor
    · intro h t ht
      obtain ⟨ha,hrest⟩ := hgiven t ht
      have hc : C s e := by
        by_contra hc
        exact hbad s e t ht ha hc hs (h.2 t ht).head
      exact ⟨hc,(ih (hstep s e t ht ha hc hs) hrest).mp (h.2 t ht)⟩
    · intro h
      refine ⟨hP s hs,fun t ht => ?_⟩
      obtain ⟨ha,hrest⟩ := hgiven t ht
      obtain ⟨hc,hmeets⟩ := h t ht
      exact (ih (hstep s e t ht ha hc hs) hrest).mpr hmeets

/-- Two state properties that agree where an invariant holds, which one of them keeps. -/
theorem always_congr {Q : σ → Prop} (hstep : ∀ s e t, step s e = some t → P s → I s → I t)
    (hPQ : ∀ s, I s → (P s ↔ Q s)) {s : σ} (hs : I s) (es : List ε) :
    Always step P s es ↔ Always step Q s es := by
  induction es generalizing s with
  | nil => exact hPQ s hs
  | cons e es ih =>
    constructor
    · intro h
      exact ⟨(hPQ s hs).mp h.1,fun t ht => (ih (hstep s e t ht h.1 hs)).mp (h.2 t ht)⟩
    · intro h
      have hp := (hPQ s hs).mpr h.1
      exact ⟨hp,fun t ht => (ih (hstep s e t ht hp hs)).mpr (h.2 t ht)⟩

/-- A condition on the events alone. -/
theorem meets_of_forall {D : ε → Prop} {es : List ε} (h : ∀ e ∈ es, D e) (s : σ) :
    Meets step (fun _ e => D e) s es := by
  induction es generalizing s with
  | nil => trivial
  | cons e es ih =>
    exact fun t _ => ⟨h e List.mem_cons_self,ih (fun d hd => h d (List.mem_cons_of_mem e hd)) t⟩

/-- A condition that holds while an invariant does, in a run of events that keep it. -/
theorem meets_of_kept {D : ε → Prop} (hstep : ∀ s e t, step s e = some t → D e → I s → C s e ∧ I t)
    {s : σ} {es : List ε} (hD : ∀ e ∈ es, D e) (hs : I s) : Meets step C s es := by
  induction es generalizing s with
  | nil => trivial
  | cons e es ih =>
    obtain ⟨he,hes⟩ := List.forall_mem_cons.mp hD
    intro t ht
    obtain ⟨hc,hnext⟩ := hstep s e t ht he hs
    exact ⟨hc,ih hes hnext⟩

/-- What holds of the steps of a run that keeps an invariant. -/
theorem Meets.kept {D : σ → ε → Prop}
    (hstep : ∀ s e t, step s e = some t → C s e → I s → D s e ∧ I t) {s : σ} {es : List ε}
    (hmeets : Meets step C s es) (hs : I s) : Meets step D s es := by
  induction es generalizing s with
  | nil => trivial
  | cons e es ih =>
    intro t ht
    obtain ⟨hc,hrest⟩ := hmeets t ht
    obtain ⟨hd,hnext⟩ := hstep s e t ht hc hs
    exact ⟨hd,ih hrest hnext⟩

theorem Meets.and {D : σ → ε → Prop} {s : σ} {es : List ε} (hc : Meets step C s es)
    (hd : Meets step D s es) : Meets step (fun s e => C s e ∧ D s e) s es := by
  induction es generalizing s with
  | nil => trivial
  | cons e es ih =>
    intro t ht
    exact ⟨⟨(hc t ht).1,(hd t ht).1⟩,ih (hc t ht).2 (hd t ht).2⟩

/-- A run is no longer than what its steps use up. -/
theorem length_le_of_decreases {D : ε → Prop} {size : σ → ℕ}
    (hstep : ∀ s e t, step s e = some t → D e → I s → I t ∧ size t < size s) {s u : σ} {es : List ε}
    (hrun : exec step s es = some u) (hD : ∀ e ∈ es, D e) (hs : I s) : es.length ≤ size s := by
  induction es generalizing s with
  | nil => exact Nat.zero_le _
  | cons e es ih =>
    obtain ⟨he,hes⟩ := List.forall_mem_cons.mp hD
    obtain ⟨t,ht,hrest⟩ := exec_cons_eq_some.mp hrun
    obtain ⟨hnext,hless⟩ := hstep s e t ht he hs
    exact Nat.lt_of_le_of_lt (ih hrest hes hnext) hless

/-- A run whose events but the kept ones leave no trace: without them it leads to the same
state, in what the erasure leaves of it. `K` holds where a step is taken, `L` at the end. -/
theorem exec_erased {f : σ → σ} {keeps : ε → Bool} {K L : σ → Prop}
    (hstep : ∀ s e t, step s e = some t → K s → K t ∨ L t →
      if keeps e then step (f s) e = some (f t) else f t = f s) {s u : σ} {es : List ε}
    (hrun : exec step s es = some u) (hmeets : Meets step (fun s _ => K s) s es) (hu : L u) :
    exec step (f s) (es.filter keeps) = some (f u) := by
  induction es generalizing s with
  | nil => cases hrun; rfl
  | cons e es ih =>
    obtain ⟨t,ht,hrest⟩ := exec_cons_eq_some.mp hrun
    obtain ⟨hs,hmeets⟩ := hmeets t ht
    have hnext : K t ∨ L t := by
      cases es with
      | nil =>
        cases hrest
        exact .inr hu
      | cons d es =>
        obtain ⟨v,hv,-⟩ := exec_cons_eq_some.mp hrest
        exact .inl (hmeets v hv).1
    have hcomm := hstep s e t ht hs hnext
    cases hkeeps : keeps e with
    | true =>
      rw [hkeeps,if_pos rfl] at hcomm
      rw [List.filter_cons_of_pos hkeeps]
      exact exec_cons_eq_some.mpr ⟨_,hcomm,ih hrest hmeets⟩
    | false =>
      rw [hkeeps,if_neg (by simp)] at hcomm
      rw [List.filter_cons_of_neg (by simp [hkeeps]),← hcomm]
      exact ih hrest hmeets

theorem meets_true (s : σ) (es : List ε) : Meets step (fun _ _ => True) s es :=
  meets_of_forall (D := fun _ => True) (fun _ _ => trivial) s

theorem always_iff_meets (hP : ∀ s, I s → P s)
    (hstep : ∀ s e t, step s e = some t → C s e → I s → I t)
    (hbad : ∀ s e t, step s e = some t → ¬C s e → I s → ¬P t) {s : σ} (hs : I s)
    (es : List ε) : Always step P s es ↔ Meets step C s es :=
  always_iff_meets_given hP (fun s e t ht _ => hstep s e t ht) (fun s e t ht _ => hbad s e t ht) hs
    (meets_true s es)

end Transition
