import Babysit.Lib.BigEndian
import Babysit.Lib.Transition

/-! `Pane::resize`, which resizes the PTY's master and then the virtual terminal, each under a
lock of its own. An attach handshake and a resize frame hold the pane's lock while they resize;
a Resize request has let go of it, so its two steps mix with those of another call. -/
namespace Babysit

structure PaneSize where
  rows : UInt16
  cols : UInt16
  deriving DecidableEq, Repr

/-- What makes the worker resize a pane. -/
inductive ResizeCall
  | request (cols rows : UInt16)
  | handshake (cols rows : UInt16)
  | frame (payload : List UInt8)
  deriving DecidableEq, Repr

namespace ResizeCall

/-- The arguments of `resize`, unless the call does not come to it. -/
def asks : ResizeCall → Option PaneSize
  | .request cols rows => some ⟨rows,cols⟩
  | .handshake cols rows => if 0 < cols ∧ 0 < rows then some ⟨rows,cols⟩ else none
  | .frame [a,b,c,d] =>
    some ⟨UInt16.ofNat (BigEndian.decode [c,d]),UInt16.ofNat (BigEndian.decode [a,b])⟩
  | .frame _ => none

/-- The guard of the pane's lock lives until `resize` returns. -/
def keepsGuard : ResizeCall → Bool
  | .request _ _ => false
  | .handshake _ _ | .frame _ => true

/-- The size the call sets, unless it returns at once. -/
def sets (c : ResizeCall) : Option PaneSize :=
  c.asks.bind fun size => if size.rows = 0 ∨ size.cols = 0 then none else some size

end ResizeCall

inductive ResizePhase
  | entered
  | between
  | done
  deriving DecidableEq, Repr

/-- A call of `resize` with dimensions that are not zero. -/
structure Resizing where
  size : PaneSize
  guarded : Bool
  phase : ResizePhase
  deriving DecidableEq, Repr

/-- Without a PTY there is no master. -/
structure PaneWorld where
  master : Option PaneSize
  screen : PaneSize
  calls : List Resizing
  deriving DecidableEq, Repr

/-- A call is made, or the call with this index does its next step; the resize of the master
succeeds. -/
inductive ResizeEvent
  | call (c : ResizeCall)
  | master (i : ℕ)
  | screen (i : ℕ)
  deriving DecidableEq, Repr

namespace PaneWorld

def spawn (tty : Bool) (size : PaneSize) : PaneWorld :=
  ⟨if tty then some size else none,size,[]⟩

/-- Somebody holds the pane's lock. -/
def Locked (w : PaneWorld) : Prop := ∃ r ∈ w.calls, r.guarded = true ∧ r.phase ≠ .done

instance (w : PaneWorld) : Decidable w.Locked := inferInstanceAs (Decidable (∃ r ∈ w.calls, _))

def step (w : PaneWorld) : ResizeEvent → Option PaneWorld
  | .call c =>
    match c.asks with
    | none => some w
    | some size =>
      if w.Locked then none
      else if size.rows = 0 ∨ size.cols = 0 then some w
      else some { w with calls := w.calls ++ [⟨size,c.keepsGuard,.entered⟩] }
  | .master i =>
    match w.calls[i]? with
    | some ⟨size,guarded,.entered⟩ =>
      some { w with
        master := w.master.map fun _ => size
        calls := w.calls.set i ⟨size,guarded,.between⟩ }
    | _ => none
  | .screen i =>
    match w.calls[i]? with
    | some ⟨size,guarded,.between⟩ =>
      some { w with screen := size, calls := w.calls.set i ⟨size,guarded,.done⟩ }
    | _ => none

/-- Once all calls have returned, the PTY has the size of the virtual terminal. -/
def InStep (w : PaneWorld) : Prop :=
  (∀ r ∈ w.calls, r.phase = .done) → w.master = some w.screen

variable {w w' : PaneWorld} {c : ResizeCall} {i : ℕ}

theorem step_call (h : w.step (.call c) = some w') :
    (c.sets = none ∧ w' = w) ∨ ∃ size, c.sets = some size ∧ ¬w.Locked ∧
      w' = { w with calls := w.calls ++ [⟨size,c.keepsGuard,.entered⟩] } := by
  simp only [step] at h
  unfold ResizeCall.sets
  cases hasks : c.asks with
  | none =>
    rw [hasks] at h
    exact .inl ⟨rfl,(Option.some.inj h).symm⟩
  | some size =>
    simp only [hasks] at h
    rw [Option.bind_some]
    split_ifs at h with hlocked hzero
    · rw [if_pos hzero]
      exact .inl ⟨rfl,(Option.some.inj h).symm⟩
    · rw [if_neg hzero]
      exact .inr ⟨size,rfl,hlocked,(Option.some.inj h).symm⟩

theorem step_call_of_sets {size : PaneSize} (hsets : c.sets = some size) (hfree : ¬w.Locked) :
    w.step (.call c) = some { w with calls := w.calls ++ [⟨size,c.keepsGuard,.entered⟩] } := by
  obtain ⟨asked,hasks,hsize⟩ := Option.bind_eq_some_iff.mp hsets
  simp only [step,hasks,if_neg hfree]
  split_ifs at hsize ⊢
  obtain rfl := Option.some.inj hsize
  rfl

theorem step_master (h : w.step (.master i) = some w') :
    ∃ size guarded, w.calls[i]? = some ⟨size,guarded,.entered⟩ ∧
      w' = { w with
        master := w.master.map fun _ => size
        calls := w.calls.set i ⟨size,guarded,.between⟩ } := by
  simp only [step] at h
  split at h
  · next hcall => exact ⟨_,_,hcall,(Option.some.inj h).symm⟩
  · cases h

theorem step_screen (h : w.step (.screen i) = some w') :
    ∃ size guarded, w.calls[i]? = some ⟨size,guarded,.between⟩ ∧
      w' = { w with screen := size, calls := w.calls.set i ⟨size,guarded,.done⟩ } := by
  simp only [step] at h
  split at h
  · next hcall => exact ⟨_,_,hcall,(Option.some.inj h).symm⟩
  · cases h

/-- Of the calls, a Resize request and any other that sets a size ask for the same one. -/
def Agree (S : ResizeCall → Prop) : Prop :=
  ∀ c d size other, S c → S d → c.keepsGuard = false → c.sets = some size → d.sets = some other →
    size = other

/-- The calls in progress were made and ask for one size. -/
structure OneSize (S : ResizeCall → Prop) (calls : List Resizing) : Prop where
  made : ∀ r ∈ calls, r.phase ≠ .done →
    ∃ c, S c ∧ c.sets = some r.size ∧ r.guarded = c.keepsGuard
  same : ∀ r ∈ calls, ∀ t ∈ calls, r.phase ≠ .done → t.phase ≠ .done → r.size = t.size

/-- The invariant: the PTY has the size of a call between its two steps, and without such a call
that of the virtual terminal. -/
structure Lockstep (S : ResizeCall → Prop) (w : PaneWorld) : Prop where
  calls : OneSize S w.calls
  between : ∀ r ∈ w.calls, r.phase = .between → w.master = some r.size
  settled : (∀ r ∈ w.calls, r.phase ≠ .between) → w.master = some w.screen

section Lockstep
variable {S : ResizeCall → Prop} {size : PaneSize} {guarded : Bool} {phase : ResizePhase}
  {calls : List Resizing}

/-- A call that is made finds only Resize requests in progress. -/
theorem OneSize.call (h : OneSize S w.calls) (hagree : Agree S) (hc : S c)
    (hsets : c.sets = some size) (hfree : ¬w.Locked) :
    OneSize S (w.calls ++ [⟨size,c.keepsGuard,.entered⟩]) := by
  have hsize : ∀ r ∈ w.calls ++ [⟨size,c.keepsGuard,.entered⟩], r.phase ≠ .done →
      r.size = size := by
    intro r hr hphase
    rcases List.mem_append.mp hr with hr | hr
    · obtain ⟨d,hd,hset,hguard⟩ := h.made r hr hphase
      have hrequest : d.keepsGuard = false := by
        rw [← hguard]
        by_contra hkeeps
        exact hfree ⟨r,hr,Bool.eq_true_of_not_eq_false hkeeps,hphase⟩
      exact hagree d c _ _ hd hc hrequest hset hsets
    · rw [List.mem_singleton.mp hr]
  constructor
  · intro r hr hphase
    rcases List.mem_append.mp hr with hr | hr
    · exact h.made r hr hphase
    · obtain rfl := List.mem_singleton.mp hr
      exact ⟨c,hc,hsets,rfl⟩
  · intro r hr t ht hrphase htphase
    rw [hsize r hr hrphase,hsize t ht htphase]

/-- A call in progress does a step. -/
theorem OneSize.advance (h : OneSize S calls) (hcall : calls[i]? = some ⟨size,guarded,phase⟩)
    (hphase : phase ≠ .done) (next : ResizePhase) :
    OneSize S (calls.set i ⟨size,guarded,next⟩) := by
  have hbefore : ∀ r ∈ calls.set i ⟨size,guarded,next⟩, r.phase ≠ .done →
      ∃ t ∈ calls, t.phase ≠ .done ∧ t.size = r.size ∧ t.guarded = r.guarded := by
    intro r hr hdone
    rcases List.mem_or_eq_of_mem_set hr with hr | rfl
    · exact ⟨r,hr,hdone,rfl,rfl⟩
    · exact ⟨_,List.mem_of_getElem? hcall,hphase,rfl,rfl⟩
  constructor
  · intro r hr hdone
    obtain ⟨t,ht,htdone,hsize,hguarded⟩ := hbefore r hr hdone
    rw [← hsize,← hguarded]
    exact h.made t ht htdone
  · intro r hr t ht hrdone htdone
    obtain ⟨r',hr',hrdone',hrsize,-⟩ := hbefore r hr hrdone
    obtain ⟨t',ht',htdone',htsize,-⟩ := hbefore t ht htdone
    rw [← hrsize,← htsize]
    exact h.same r' hr' t' ht' hrdone' htdone'

theorem lockstep_spawn (S : ResizeCall → Prop) (size : PaneSize) :
    (spawn true size).Lockstep S where
  calls := ⟨by simp [spawn],by simp [spawn]⟩
  between r hr := by cases hr
  settled _ := rfl

theorem Lockstep.inStep (h : w.Lockstep S) : w.InStep := by
  intro hdone
  apply h.settled
  intro r hr hbetween
  rw [hdone r hr] at hbetween
  cases hbetween

theorem Lockstep.master_isSome (h : w.Lockstep S) : ∃ size, w.master = some size := by
  by_cases hnone : ∀ r ∈ w.calls, r.phase ≠ .between
  · exact ⟨_,h.settled hnone⟩
  · push Not at hnone
    obtain ⟨r,hr,hbetween⟩ := hnone
    exact ⟨_,h.between r hr hbetween⟩

theorem Lockstep.call (h : w.Lockstep S) (hagree : Agree S) (hc : S c)
    (hsets : c.sets = some size) (hfree : ¬w.Locked) :
    Lockstep S { w with calls := w.calls ++ [⟨size,c.keepsGuard,.entered⟩] } where
  calls := h.calls.call hagree hc hsets hfree
  between r hr hphase := by
    rcases List.mem_append.mp hr with hr | hr
    · exact h.between r hr hphase
    · obtain rfl := List.mem_singleton.mp hr
      cases hphase
  settled hnone := h.settled fun r hr => hnone r (List.mem_append_left _ hr)

theorem Lockstep.master (h : w.Lockstep S) (hcall : w.calls[i]? = some ⟨size,guarded,.entered⟩) :
    Lockstep S { w with
      master := w.master.map fun _ => size
      calls := w.calls.set i ⟨size,guarded,.between⟩ } := by
  obtain ⟨before,hmaster⟩ := h.master_isSome
  have hmem : ⟨size,guarded,.entered⟩ ∈ w.calls := List.mem_of_getElem? hcall
  refine ⟨h.calls.advance hcall nofun .between,?_,?_⟩
  · intro r hr hphase
    dsimp only
    rw [hmaster]
    rcases List.mem_or_eq_of_mem_set hr with hr | rfl
    · have hsize := h.calls.same _ hmem r hr nofun (by rw [hphase]; nofun)
      exact congrArg some hsize
    · rfl
  · intro hnone
    obtain ⟨hlt,-⟩ := List.getElem?_eq_some_iff.mp hcall
    exact absurd rfl (hnone ⟨size,guarded,.between⟩ (List.mem_set hlt _))

theorem Lockstep.screen (h : w.Lockstep S) (hcall : w.calls[i]? = some ⟨size,guarded,.between⟩) :
    Lockstep S { w with screen := size, calls := w.calls.set i ⟨size,guarded,.done⟩ } where
  calls := h.calls.advance hcall nofun .done
  between r hr hphase := by
    rcases List.mem_or_eq_of_mem_set hr with hr | rfl
    · exact h.between r hr hphase
    · cases hphase
  settled _ := h.between _ (List.mem_of_getElem? hcall) rfl

theorem Lockstep.step (w : PaneWorld) (e : ResizeEvent) (w' : PaneWorld)
    (hstep : w.step e = some w') (hagree : Agree S) (he : ∀ c, e = .call c → S c)
    (h : w.Lockstep S) : w'.Lockstep S := by
  cases e with
  | call c =>
    rcases step_call hstep with ⟨-,rfl⟩ | ⟨size,hsets,hfree,rfl⟩
    · exact h
    · exact h.call hagree (he c rfl) hsets hfree
  | master i =>
    obtain ⟨size,guarded,hcall,rfl⟩ := step_master hstep
    exact h.master hcall
  | screen i =>
    obtain ⟨size,guarded,hcall,rfl⟩ := step_screen hstep
    exact h.screen hcall

end Lockstep

/-- Another call resizes both while a Resize request stands between its two steps. -/
def overtaken (c d : ResizeCall) : List ResizeEvent :=
  [.call c,.master 0,.call d,.master 1,.screen 1,.screen 0]

theorem exec_overtaken {d : ResizeCall} {size other : PaneSize} (first : PaneSize) (hc : c.keepsGuard = false)
    (hsize : c.sets = some size) (hother : d.sets = some other) :
    Transition.exec step (spawn true first) (overtaken c d) =
      some ⟨some other,size,[⟨size,false,.done⟩,⟨other,d.keepsGuard,.done⟩]⟩ := by
  have hfirst : ¬(spawn true first).Locked := by simp [Locked,spawn]
  have hsecond : ¬Locked ⟨some size,first,[⟨size,false,.between⟩]⟩ := by simp [Locked]
  rw [overtaken,Transition.exec_cons,step_call_of_sets hsize hfirst,hc]
  change ((step ⟨some size,first,[⟨size,false,.between⟩]⟩ (.call d)).bind fun w =>
    Transition.exec step w [.master 1,.screen 1,.screen 0]) = _
  rw [step_call_of_sets hother hsecond]
  rfl

/-- The PTY and the virtual terminal are in step after every run of the calls that are made,
exactly when no Resize request differs from another of the calls; and a call with a zero
dimension changes neither. -/
theorem resize_in_step_iff (S : ResizeCall → Prop) (first : PaneSize) :
    ((∀ es, (∀ e ∈ es, ∀ c, e = .call c → S c) →
        Transition.Always step InStep (spawn true first) es) ↔ Agree S) ∧
      ∀ c : ResizeCall, c.sets = none → ∀ w w', step w (.call c) = some w' → w' = w := by
  refine ⟨⟨?_,?_⟩,?_⟩
  · intro hall c d size other hc hd hrequest hsize hother
    have hrun := exec_overtaken first hrequest hsize hother
    have hstep := (hall (overtaken c d) (by simp [overtaken,hc,hd])).last hrun (by simp)
    exact (Option.some.inj hstep).symm
  · intro hagree es hmade
    exact Transition.always_of_meets (I := Lockstep S) (C := fun _ e => ∀ c, e = .call c → S c)
      (fun w e w' hstep he h => h.step w e w' hstep hagree he) (fun _ h => h.inStep)
      (Transition.meets_of_forall hmade _) (lockstep_spawn S first)
  · intro c hnone w w' hstep
    rcases step_call hstep with ⟨-,rfl⟩ | ⟨size,hsets,-⟩
    · rfl
    · rw [hnone] at hsets
      cases hsets

theorem overtaken_request_out_of_step :
    ∃ w, Transition.exec step (spawn true ⟨24,80⟩)
        (overtaken (.request 100 40) (.request 120 50)) = some w ∧
      (∀ r ∈ w.calls, r.phase = .done) ∧ w.master = some ⟨50,120⟩ ∧ w.screen = ⟨40,100⟩ :=
  ⟨_,exec_overtaken _ rfl rfl rfl,by simp,rfl,rfl⟩

end PaneWorld
end Babysit
