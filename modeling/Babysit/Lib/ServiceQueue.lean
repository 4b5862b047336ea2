import Mathlib.Algebra.Order.Group.Nat
import Mathlib.Data.List.Basic

/-! A queue with one server, first come, first served, on a clock. When the server picks up what
waits within `pickup` and serves it within `service`, a request that comes behind `n` others is
served within `n+1` cycles. -/

/-- A request, when it was made and how many were ahead of it then, the one being served
included. -/
structure Ask (α : Type*) where
  what : α
  asked : ℕ
  ahead : ℕ
  deriving DecidableEq, Repr

/-- Served within its cycles, at the time `t`. -/
def Ask.InTime {α : Type*} (cycle : ℕ) (r : Ask α) (t : ℕ) : Prop :=
  t ≤ r.asked + (r.ahead+1)*cycle

instance {α : Type*} (cycle : ℕ) (r : Ask α) (t : ℕ) : Decidable (r.InTime cycle t) :=
  inferInstanceAs (Decidable (_ ≤ _))

/-- `since` is when the server became free, or began with the request it serves. -/
structure ServiceQueue (α : Type*) where
  waiting : List (Ask α)
  serving : Option (Ask α)
  since : ℕ
  deriving DecidableEq, Repr

namespace ServiceQueue
variable {α : Type*}

def empty (now : ℕ) : ServiceQueue α := ⟨[],none,now⟩

/-- How many are being served. -/
def busy (q : ServiceQueue α) : ℕ := q.serving.toList.length

def ask (q : ServiceQueue α) (now : ℕ) (a : α) : ServiceQueue α :=
  { q with waiting := q.waiting ++ [⟨a,now,q.waiting.length+q.busy⟩] }

def take (q : ServiceQueue α) (now : ℕ) : ServiceQueue α :=
  match q.waiting with
  | [] => q
  | r::rest => ⟨rest,some r,now⟩

def free (q : ServiceQueue α) (now : ℕ) : ServiceQueue α := { q with serving := none, since := now }

/-- When a free server is to have picked up the first request. -/
def pickupBy (pickup : ℕ) (q : ServiceQueue α) : Option ℕ :=
  q.waiting.head?.map fun r => max q.since r.asked + pickup

/-- There are cycles enough for all who wait, in the order in which they have come. -/
structure OnTime (service cycle : ℕ) (q : ServiceQueue α) : Prop where
  sorted : q.waiting.Pairwise fun r s => r.asked ≤ s.asked
  ahead : ∀ j r, q.waiting[j]? = some r → j+q.busy ≤ r.ahead
  waiting : ∀ j r, q.waiting[j]? = some r →
    q.since + q.busy*service + j*cycle ≤ r.asked + r.ahead*cycle
  serving : ∀ r ∈ q.serving, r.InTime cycle (q.since+service)

variable {q : ServiceQueue α} {pickup service cycle now : ℕ} {a : α} {r : Ask α}
  {rest : List (Ask α)}

/-- A request of those that wait after another is made. -/
theorem ask_waiting {j : ℕ} (h : (q.ask now a).waiting[j]? = some r) :
    q.waiting[j]? = some r ∨ j = q.waiting.length ∧ r = ⟨a,now,q.waiting.length+q.busy⟩ := by
  simp only [ask,List.getElem?_append] at h
  split_ifs at h with hlt
  · exact .inl h
  · obtain ⟨hj,hr⟩ := List.getElem?_eq_some_iff.mp h
    rw [List.length_singleton] at hj
    rw [List.getElem_singleton] at hr
    exact .inr ⟨by omega,hr.symm⟩

theorem OnTime.ask (h : q.OnTime service cycle) (hcycle : service ≤ cycle)
    (hpast : ∀ r ∈ q.waiting, r.asked ≤ now) (hsince : q.since ≤ now) (a : α) :
    (q.ask now a).OnTime service cycle where
  sorted := by
    refine List.pairwise_append.mpr ⟨h.sorted,List.pairwise_singleton _ _,?_⟩
    intro r hr s hs
    rw [List.mem_singleton.mp hs]
    exact hpast r hr
  ahead j r hr := by
    obtain hr | ⟨rfl,rfl⟩ := ask_waiting hr
    · exact h.ahead j r hr
    · exact Nat.le_refl _
  waiting j r hr := by
    obtain hr | ⟨rfl,rfl⟩ := ask_waiting hr
    · exact h.waiting j r hr
    · have hbusy : q.busy*service ≤ q.busy*cycle := Nat.mul_le_mul_left _ hcycle
      simp only [ServiceQueue.ask,busy,Nat.add_mul] at hbusy ⊢
      omega
  serving := h.serving

/-- The server takes the next request in time. -/
theorem OnTime.take (h : q.OnTime service cycle) (hcycle : pickup+service ≤ cycle)
    (hwaiting : q.waiting = r::rest) (hfree : q.serving = none)
    (hnow : now ≤ max q.since r.asked + pickup) : (q.take now).OnTime service cycle := by
  have hbusy : q.busy = 0 := by rw [busy,hfree]; rfl
  have hfirst : q.waiting[0]? = some r := by rw [hwaiting]; rfl
  have hnext : ∀ j s, rest[j]? = some s → q.waiting[j+1]? = some s := by
    intro j s hs
    rw [hwaiting]
    exact hs
  have hsorted : ∀ s ∈ rest, r.asked ≤ s.asked := by
    have hpair := h.sorted
    rw [hwaiting] at hpair
    exact (List.pairwise_cons.mp hpair).1
  rw [ServiceQueue.take,hwaiting]
  refine ⟨?_,fun j s hs => ?_,fun j s hs => ?_,fun s hs => ?_⟩
  · have hpair := h.sorted
    rw [hwaiting] at hpair
    exact (List.pairwise_cons.mp hpair).2
  · have := h.ahead _ _ (hnext j s hs)
    rw [hbusy] at this
    exact this
  · have hslack := h.waiting _ _ (hnext j s hs)
    have hahead := Nat.mul_le_mul_right cycle (h.ahead _ _ (hnext j s hs))
    have hafter := hsorted s (List.mem_of_getElem? hs)
    have hone : (⟨rest,some r,now⟩ : ServiceQueue α).busy = 1 := rfl
    rw [hbusy] at hslack hahead
    rw [hone]
    dsimp only
    rw [Nat.add_mul] at hslack
    rw [Nat.add_zero,Nat.add_mul] at hahead
    omega
  · obtain rfl := Option.some.inj hs
    have hslack := h.waiting _ _ hfirst
    rw [hbusy] at hslack
    unfold Ask.InTime
    rw [Nat.add_mul]
    dsimp only
    omega

/-- The server has done in time with the request it served. -/
theorem OnTime.free (h : q.OnTime service cycle) (hbusy : q.serving.isSome = true)
    (hnow : now ≤ q.since+service) : (q.free now).OnTime service cycle := by
  have hone : q.busy = 1 := by
    obtain ⟨r,hr⟩ := Option.isSome_iff_exists.mp hbusy
    rw [busy,hr]
    rfl
  refine ⟨h.sorted,fun j r hr => ?_,fun j r hr => ?_,by rintro r ⟨⟩⟩
  · have := h.ahead j r hr
    have hzero : (q.free now).busy = 0 := rfl
    omega
  · have := h.waiting j r hr
    have hzero : (q.free now).busy = 0 := rfl
    rw [hone] at this
    rw [hzero]
    dsimp only [ServiceQueue.free]
    omega

/-- While the server is within its time, so is everyone who waits. -/
theorem OnTime.inTime (h : q.OnTime service cycle) (hcycle : pickup+service ≤ cycle)
    (hserving : q.serving.isSome = true → now ≤ q.since+service)
    (hpickup : q.serving = none → ∀ t ∈ q.pickupBy pickup, now ≤ t) :
    ∀ r, r ∈ q.waiting ∨ r ∈ q.serving → r.InTime cycle now := by
  rintro r (hr | hr)
  · obtain ⟨j,hj⟩ := List.getElem?_of_mem hr
    have hslack := h.waiting j r hj
    have hahead := Nat.mul_le_mul_right cycle (h.ahead j r hj)
    unfold Ask.InTime
    rw [Nat.add_mul] at hahead ⊢
    cases hq : q.serving with
    | some s =>
      have hnow := hserving (by rw [hq]; rfl)
      have hone : q.busy = 1 := by rw [busy,hq]; rfl
      rw [hone] at hslack
      omega
    | none =>
      have hzero : q.busy = 0 := by rw [busy,hq]; rfl
      rw [hzero] at hslack
      cases hwaiting : q.waiting with
      | nil =>
        rw [hwaiting] at hr
        cases hr
      | cons first rest =>
        have hnow := hpickup hq (max q.since first.asked + pickup) (by
          rw [pickupBy,hwaiting]
          rfl)
        have hfirst : first.asked ≤ r.asked := by
          have hpair := h.sorted
          rw [hwaiting] at hpair hr
          rcases List.mem_cons.mp hr with rfl | hmem
          · exact Nat.le_refl _
          · exact (List.pairwise_cons.mp hpair).1 r hmem
        omega
  · have hin := h.serving r hr
    have hnow := hserving (by rw [Option.mem_def.mp hr]; rfl)
    exact Nat.le_trans hnow hin

end ServiceQueue
