import Mathlib.Data.List.Basic
import Mathlib.Logic.Function.Basic
import Mathlib.Tactic.SplitIfs

/-! A notification that stores one permit, given by its calls and by what is documented of them.
`notify_one` chooses a waiting future, or stores the permit when none waits; `notify_waiters`
completes every future created so far and stores nothing; a future that one of them has completed
is ready without taking a permit, and any other takes a stored permit at its first poll. A
notification whose chosen future is dropped goes on to the next. -/

/-- A `notified()` future: not yet polled, waiting, completed by `notify_waiters`, chosen by
`notify_one`, or done. -/
inductive Notified
  | created
  | waiting
  | called
  | chosen
  | done
  deriving DecidableEq, Repr

/-- `notify_waiters` completes the futures that are not complete. -/
def Notified.call : Notified → Notified
  | .created | .waiting => .called
  | s => s

/-- The calls of a notification with states in `N`, its futures under keys. -/
structure NotifyCalls (N : Type) where
  new : N
  notified : N → N × ℕ
  poll : N → ℕ → N × Bool
  drop : N → ℕ → N
  notifyOne : N → N
  notifyWaiters : N → N

/-- What can be told of a notification: whether its permit is stored, and its futures. -/
structure NotifyView where
  permit : Bool
  futures : ℕ → Option Notified

namespace NotifyView

def new : NotifyView := ⟨false,fun _ => none⟩

def put (v : NotifyView) (k : ℕ) (s : Option Notified) : NotifyView :=
  { v with futures := Function.update v.futures k s }

def call (v : NotifyView) : NotifyView :=
  { v with futures := fun k => (v.futures k).map Notified.call }

/-- A notification for one future is delivered. -/
inductive Delivers (v : NotifyView) : NotifyView → Prop
  | chosen {k} : v.futures k = some .waiting → Delivers v (v.put k (some .chosen))
  | stored : (∀ k, v.futures k ≠ some .waiting) → Delivers v { v with permit := true }

/-- A poll of a future that is not done. -/
inductive Polls (v : NotifyView) (k : ℕ) : NotifyView → Bool → Prop
  | permit : v.futures k = some .created → v.permit = true →
      Polls v k { v.put k (some .done) with permit := false } true
  | queued : v.futures k = some .created → v.permit = false →
      Polls v k (v.put k (some .waiting)) false
  | waiting : v.futures k = some .waiting → Polls v k v false
  | called : v.futures k = some .called → Polls v k (v.put k (some .done)) true
  | chosen : v.futures k = some .chosen → Polls v k (v.put k (some .done)) true

/-- A future is dropped; a notification for it alone is passed on. -/
inductive Drops (v : NotifyView) (k : ℕ) : NotifyView → Prop
  | passed {u} : v.futures k = some .chosen → Delivers (v.put k none) u → Drops v k u
  | removed : v.futures k ≠ some .chosen → Drops v k (v.put k none)

/-- No future waits beside a stored permit. -/
def Sound (v : NotifyView) : Prop := v.permit = true → ∀ k, v.futures k ≠ some .waiting

/-- A notification for one future is still to be had. -/
def Armed (v : NotifyView) : Prop := v.permit = true ∨ ∃ k, v.futures k = some .chosen

end NotifyView

/-- What the calls do, seen from outside. -/
structure NotifyCalls.Documented {N : Type} (calls : NotifyCalls N) (view : N → NotifyView) :
    Prop where
  new : view calls.new = .new
  fresh : ∀ n, (view n).futures (calls.notified n).2 = none
  notified : ∀ n, view (calls.notified n).1 = (view n).put (calls.notified n).2 (some .created)
  poll : ∀ n k s, (view n).futures k = some s → s ≠ .done →
    (view n).Polls k (view (calls.poll n k).1) (calls.poll n k).2
  drop : ∀ n k, (view n).Drops k (view (calls.drop n k))
  notifyOne : ∀ n, (view n).Delivers (view (calls.notifyOne n))
  notifyWaiters : ∀ n, view (calls.notifyWaiters n) = (view n).call

namespace NotifyView
variable {v u : NotifyView} {k j : ℕ} {ready : Bool}

@[simp] theorem put_self (v : NotifyView) (k : ℕ) (s : Option Notified) :
    (v.put k s).futures k = s := by simp [put]

@[simp] theorem put_of_ne (v : NotifyView) (h : j ≠ k) (s : Option Notified) :
    (v.put k s).futures j = v.futures j := by simp [put,h]

@[simp] theorem put_permit (v : NotifyView) (k : ℕ) (s : Option Notified) :
    (v.put k s).permit = v.permit := rfl

@[simp] theorem call_permit (v : NotifyView) : v.call.permit = v.permit := rfl

theorem put_eq_some {s : Option Notified} {t : Notified} (h : (v.put k s).futures j = some t) :
    (j = k ∧ s = some t) ∨ (j ≠ k ∧ v.futures j = some t) := by
  by_cases hj : j = k
  · subst hj
    rw [put_self] at h
    exact .inl ⟨rfl,h⟩
  · rw [put_of_ne v hj] at h
    exact .inr ⟨hj,h⟩

theorem isSome_put {s : Option Notified} (h : s.isSome = (v.futures k).isSome) :
    ((v.put k s).futures j).isSome = (v.futures j).isSome := by
  by_cases hj : j = k
  · rw [hj,put_self,h]
  · rw [put_of_ne v hj]

theorem isSome_call : (v.call.futures j).isSome = (v.futures j).isSome := by
  simp [call]

theorem call_futures {s : Notified} (h : v.futures k = some s) :
    v.call.futures k = some s.call := by
  simp [call,h]

theorem sound_new : new.Sound := by simp [Sound,new]

theorem not_armed_new : ¬new.Armed := by simp [Armed,new]

section Sound

theorem Sound.put (h : v.Sound) {s : Option Notified} (hs : s = some .waiting → v.permit = false) :
    (v.put k s).Sound := by
  intro hp j hj
  rcases put_eq_some hj with ⟨-,hw⟩ | ⟨-,hold⟩
  · rw [put_permit,hs hw] at hp
    cases hp
  · exact h hp j hold

theorem sound_call (v : NotifyView) : v.call.Sound := by
  intro hp j hj
  obtain ⟨s,-,hs⟩ := Option.map_eq_some_iff.mp hj
  cases s <;> cases hs

theorem Delivers.sound (h : v.Delivers u) (hv : v.Sound) : u.Sound := by
  cases h with
  | chosen => exact hv.put (by simp)
  | stored hnone => exact fun _ => hnone

theorem Polls.sound (h : v.Polls k u ready) (hv : v.Sound) : u.Sound := by
  cases h with
  | permit => rintro ⟨⟩
  | queued _ hp => exact hv.put fun _ => hp
  | waiting => exact hv
  | called | chosen => exact hv.put (by simp)

theorem Drops.sound (h : v.Drops k u) (hv : v.Sound) : u.Sound := by
  have hput : (v.put k none).Sound := hv.put (by simp)
  cases h with
  | passed _ hdelivers => exact hdelivers.sound hput
  | removed => exact hput

end Sound
section Armed

theorem armed_put {s : Option Notified} (hold : v.futures k ≠ some .chosen)
    (hnew : s ≠ some .chosen) : (v.put k s).Armed ↔ v.Armed := by
  have hiff : ∀ j,(v.put k s).futures j = some .chosen ↔ v.futures j = some .chosen := by
    intro j
    by_cases hj : j = k
    · rw [hj,put_self]
      exact iff_of_false hnew hold
    · rw [put_of_ne v hj]
  simp only [Armed,put_permit,hiff]

theorem armed_call : v.call.Armed ↔ v.Armed := by
  have hiff : ∀ j,v.call.futures j = some .chosen ↔ v.futures j = some .chosen := by
    intro j
    simp only [call]
    cases v.futures j with
    | none => simp
    | some s => cases s <;> simp [Notified.call]
  simp only [Armed,call_permit,hiff]

/-- A notification for one future always stays with somebody. -/
theorem Delivers.armed (h : v.Delivers u) : u.Armed := by
  cases h with
  | chosen => exact .inr ⟨_,put_self _ _ _⟩
  | stored => exact .inl rfl

theorem Drops.armed (h : v.Drops k u) : u.Armed ↔ v.Armed := by
  cases h with
  | passed hk hdelivers => exact iff_of_true hdelivers.armed (.inr ⟨k,hk⟩)
  | removed hk => exact armed_put hk (by simp)

/-- A poll takes a notification or leaves it; it never brings one. -/
theorem Polls.armed (h : v.Polls k u ready) (hu : u.Armed) : v.Armed := by
  cases h with
  | permit _ hp => exact .inl hp
  | queued hk => exact (armed_put (s := some .waiting) (by rw [hk]; simp) (by simp)).mp hu
  | waiting => exact hu
  | called hk => exact (armed_put (by rw [hk]; simp) (by simp)).mp hu
  | chosen hk => exact .inr ⟨k,hk⟩

/-- The poll of a future that `notify_waiters` has completed leaves everything to the others. -/
theorem Polls.armed_of_called (h : v.Polls k u ready) (hk : v.futures k = some .called) :
    ready = true ∧ (u.Armed ↔ v.Armed) := by
  cases h with
  | permit hk' | queued hk' | waiting hk' | chosen hk' =>
    rw [hk] at hk'
    cases hk'
  | called => exact ⟨rfl,armed_put (by rw [hk]; simp) (by simp)⟩

/-- The poll of the only future of an armed notification is ready. -/
theorem Polls.ready_of_armed (h : v.Polls k u ready) (hv : v.Sound) (harmed : v.Armed)
    (honly : ∀ j,j ≠ k → v.futures j = none) : ready = true := by
  have hcases : v.permit = true ∨ v.futures k = some .chosen := by
    rcases harmed with hp | ⟨j,hj⟩
    · exact .inl hp
    · by_cases hjk : j = k
      · exact .inr (hjk ▸ hj)
      · rw [honly j hjk] at hj
        cases hj
  cases h with
  | permit | called | chosen => rfl
  | queued hk hp =>
    rcases hcases with hpermit | hchosen
    · rw [hp] at hpermit
      cases hpermit
    · rw [hk] at hchosen
      cases hchosen
  | waiting hk =>
    rcases hcases with hpermit | hchosen
    · exact absurd hk (hv hpermit k)
    · rw [hk] at hchosen
      cases hchosen

end Armed
section Futures

theorem Delivers.futures (h : v.Delivers u) {s : Notified} (hk : v.futures k = some s) :
    u.futures k = some s ∨ (s = .waiting ∧ u.futures k = some .chosen) := by
  cases h with
  | @chosen i hi =>
    by_cases hik : k = i
    · subst hik
      exact .inr ⟨Option.some.inj (hk.symm.trans hi),put_self _ _ _⟩
    · exact .inl ((put_of_ne v hik _).trans hk)
  | stored => exact .inl hk

theorem Delivers.isSome (h : v.Delivers u) : (u.futures j).isSome = (v.futures j).isSome := by
  cases h with
  | chosen hi => exact isSome_put (by rw [hi]; rfl)
  | stored => rfl

theorem Polls.isSome (h : v.Polls k u ready) : (u.futures j).isSome = (v.futures j).isSome := by
  cases h with
  | permit hk | queued hk | called hk | chosen hk => exact isSome_put (by rw [hk]; rfl)
  | waiting => rfl

/-- No poll completes another future. -/
theorem Polls.called_of_called (h : v.Polls k u ready) (hj : u.futures j = some .called) :
    v.futures j = some .called := by
  have hput : ∀ {s : Notified},s ≠ .called → (v.put k (some s)).futures j = some .called →
      v.futures j = some .called := by
    intro s hs hput
    rcases put_eq_some hput with ⟨-,hnew⟩ | ⟨-,hold⟩
    · exact absurd (Option.some.inj hnew) hs
    · exact hold
  cases h with
  | permit | called | chosen => exact hput (by simp) hj
  | queued => exact hput (s := .waiting) (by simp) hj
  | waiting => exact hj

/-- A future that is not ready waits. -/
theorem Polls.pending (h : v.Polls k u false) : u.futures k = some .waiting := by
  cases h with
  | queued => exact put_self _ _ _
  | waiting hk => exact hk

theorem Drops.isSome (h : v.Drops k u) (hj : (u.futures j).isSome = true) :
    j ≠ k ∧ (v.futures j).isSome = true := by
  have hput : ((v.put k none).futures j).isSome = true → j ≠ k ∧ (v.futures j).isSome = true := by
    intro hsome
    obtain ⟨s,hs⟩ := Option.isSome_iff_exists.mp hsome
    rcases put_eq_some hs with ⟨-,hnone⟩ | ⟨hne,hold⟩
    · cases hnone
    · exact ⟨hne,by rw [hold]; rfl⟩
  cases h with
  | passed _ hdelivers => exact hput (by rw [← hdelivers.isSome]; exact hj)
  | removed => exact hput hj

end Futures
end NotifyView

/-- A notification that keeps its futures in the order of their creation. -/
structure Notify where
  permit : Bool
  futures : List (Option Notified)
  deriving DecidableEq, Repr

namespace Notify

def put (n : Notify) (k : ℕ) (s : Option Notified) : Notify :=
  { n with futures := n.futures.set k s }

def poll (n : Notify) (k : ℕ) : Notify × Bool :=
  match n.futures[k]?.join with
  | some .created =>
    if n.permit then ({ n.put k (some .done) with permit := false },true)
    else (n.put k (some .waiting),false)
  | some .waiting => (n,false)
  | some .called | some .chosen => (n.put k (some .done),true)
  | some .done | none => (n,true)

def notifyOne (n : Notify) : Notify :=
  if some .waiting ∈ n.futures then
    n.put (n.futures.idxOf (some .waiting)) (some .chosen)
  else { n with permit := true }

def drop (n : Notify) (k : ℕ) : Notify :=
  if n.futures[k]?.join = some .chosen then (n.put k none).notifyOne else n.put k none

def calls : NotifyCalls Notify where
  new := ⟨false,[]⟩
  notified n := ({ n with futures := n.futures ++ [some .created] },n.futures.length)
  poll := poll
  drop := drop
  notifyOne := notifyOne
  notifyWaiters n := { n with futures := n.futures.map (Option.map Notified.call) }

def view (n : Notify) : NotifyView := ⟨n.permit,fun k => n.futures[k]?.join⟩

variable {n : Notify} {k : ℕ}

theorem view_put {s : Option Notified} (hk : k < n.futures.length) :
    (n.put k s).view = n.view.put k s := by
  simp only [view,put,NotifyView.put,NotifyView.mk.injEq,true_and]
  funext j
  by_cases hj : j = k
  · subst hj
    simp [hk]
  · simp [Ne.symm hj,hj]

theorem lt_length {s : Notified} (hk : n.view.futures k = some s) : k < n.futures.length := by
  by_contra hle
  simp [view,List.getElem?_eq_none (Nat.le_of_not_lt hle)] at hk

theorem view_put_none (n : Notify) (k : ℕ) : (n.put k none).view = n.view.put k none := by
  by_cases hk : k < n.futures.length
  · exact view_put hk
  · have hnone : n.futures[k]? = none := List.getElem?_eq_none (Nat.le_of_not_lt hk)
    have hput : n.put k none = n := by
      simp [put,List.set_eq_of_length_le (Nat.le_of_not_lt hk)]
    rw [hput]
    simp only [view,NotifyView.put,NotifyView.mk.injEq,true_and]
    funext j
    by_cases hj : j = k
    · subst hj
      simp [hnone]
    · simp [hj]

theorem notifyOne_delivers (n : Notify) : n.view.Delivers n.notifyOne.view := by
  unfold notifyOne
  split_ifs with hmem
  · have hget : n.view.futures (n.futures.idxOf (some .waiting)) = some .waiting := by
      simp [view,List.getElem?_idxOf hmem]
    rw [view_put (lt_length hget)]
    exact .chosen hget
  · exact .stored fun k hk => hmem (List.mem_of_getElem? (Option.join_eq_some_iff.mp hk))

theorem poll_polls {s : Notified} (hk : n.view.futures k = some s) (hs : s ≠ .done) :
    n.view.Polls k (n.poll k).1.view (n.poll k).2 := by
  have hget : n.futures[k]?.join = some s := hk
  have hlt := lt_length hk
  unfold poll
  rw [hget]
  cases s with
  | created =>
    dsimp only
    split_ifs with hp
    · have hview : ({ n.put k (some .done) with permit := false } : Notify).view =
          { n.view.put k (some .done) with permit := false } := by
        rw [← view_put hlt]
        rfl
      rw [hview]
      exact .permit hk hp
    · rw [view_put hlt]
      exact .queued hk (Bool.of_not_eq_true hp)
  | waiting => exact .waiting hk
  | called =>
    rw [view_put hlt]
    exact .called hk
  | chosen =>
    rw [view_put hlt]
    exact .chosen hk
  | done => exact absurd rfl hs

theorem drop_drops (n : Notify) (k : ℕ) : n.view.Drops k (n.drop k).view := by
  unfold drop
  split_ifs with hk
  · refine .passed hk ?_
    rw [← view_put_none]
    exact notifyOne_delivers _
  · rw [view_put_none]
    exact .removed hk

/-- It does what is documented. -/
theorem documented : calls.Documented view where
  new := rfl
  fresh n := by simp [view,calls]
  notified n := by
    simp only [view,calls,NotifyView.put,NotifyView.mk.injEq,true_and]
    funext j
    rcases Nat.lt_trichotomy j n.futures.length with hlt | rfl | hgt
    · simp [List.getElem?_append_left hlt,Nat.ne_of_lt hlt]
    · simp
    · have hnew : (n.futures ++ [some Notified.created])[j]? = none :=
        List.getElem?_eq_none (by rw [List.length_append]; exact hgt)
      have hold : n.futures[j]? = none := List.getElem?_eq_none (Nat.le_of_lt hgt)
      rw [hnew,Function.update_of_ne (Nat.ne_of_gt hgt),hold]
  poll n k s := poll_polls
  drop := drop_drops
  notifyOne := notifyOne_delivers
  notifyWaiters n := by
    simp only [view,calls,NotifyView.call,NotifyView.mk.injEq,true_and]
    funext j
    rw [List.getElem?_map]
    cases n.futures[j]? with
    | none => rfl
    | some s => rfl

end Notify
