import Babysit.Lib.Notify
import Babysit.Worker

/-! How the worker learns that its command has ended. The event loop and `wait_for_pane_exit`
share the one permit of the command's exit notification, which the wait thread leaves behind in
two calls. The notification is tokio's: its calls are a parameter. -/
namespace Babysit

/-- What the worker's task does with the exit notification: the exit branch of `select!` holds
a future, or `wait_for_pane_exit` does, after its first check (`creating`), after its second
(`unpolled`), after a poll, and when its time is over. -/
inductive Awaiting
  | idle
  | selecting (k : ℕ)
  | creating
  | created (k : ℕ)
  | unpolled (k : ℕ)
  | pending (k : ℕ)
  | returning (k : ℕ)
  deriving DecidableEq, Repr

def Awaiting.key : Awaiting → Option ℕ
  | .selecting k | .created k | .unpolled k | .pending k | .returning k => some k
  | .idle | .creating => none

/-- The next call is `wait_for_pane_exit`. -/
def TermPhase.isWait : TermPhase → Bool
  | .awaitGraceful | .awaitForced => true
  | _ => false

/-- A wait for the exit is over when it returns, and only then. -/
theorem TermPhase.isWait_iff {exitInfo : Option ExitInfo} {phase : TermPhase} {a : OsAnswer}
    {r : TermPhase ⊕ Except String Termination} (h : phase.step exitInfo a = some r) :
    phase.isWait = true ↔ a = .waited := by
  cases phase with
  | awaitGraceful | awaitForced =>
    refine iff_of_true rfl ?_
    cases a <;> first | rfl | exact absurd h nofun
  | _ =>
    refine iff_of_false (by simp [isWait]) ?_
    rintro rfl
    cases h

namespace WorkerPhase

def isWait : WorkerPhase → Bool
  | .terminating _ phase => phase.isWait
  | _ => false

/-- The command may be watched again by the loop. -/
def isSupervising : WorkerPhase → Bool
  | .recordingRunning _ | .serving | .looping | .terminating _ _ | .respawning
  | .recordingRestart _ => true
  | _ => false

end WorkerPhase

/-- The worker with the `exit_notify` of its current command. `finished` tells that the wait
thread has called `notify_one`, its last act. -/
structure Supervision (N : Type) where
  worker : Worker
  notify : N
  finished : Bool
  awaiting : Awaiting

/-- Beside the steps of the worker: the loop creates its futures, polls its exit branch, or
finds at a tick that the command is not idle; the wait for the exit checks what is recorded,
creates its future, polls it, or runs out of time; the wait thread makes its second call. -/
inductive SupervisionEvent
  | worker (e : WorkerEvent)
  | select
  | pollExit
  | tick
  | check
  | create
  | pollWait
  | elapsed
  | notifiesOne

namespace Supervision
variable {N : Type} (calls : NotifyCalls N)

def start : Supervision N := ⟨.start,calls.new,false,.idle⟩

/-- The task drops its future. -/
def leave (w : Supervision N) (k : ℕ) : Supervision N :=
  { w with notify := calls.drop w.notify k, awaiting := .idle }

/-- A new command has its own notification. -/
def renew (w : Supervision N) : Supervision N :=
  { w with notify := calls.new, finished := false, awaiting := .idle }

/-- The task creates a future and keeps it. -/
def create (w : Supervision N) (awaiting : ℕ → Awaiting) : Supervision N :=
  { w with notify := (calls.notified w.notify).1
           awaiting := awaiting (calls.notified w.notify).2 }

/-- The future has been polled. -/
def polled (w : Supervision N) (k : ℕ) : Supervision N :=
  { w with notify := (calls.poll w.notify k).1 }

/-- What a step of the worker does with the notification; `none` where it has to wait. The
exit branch is polled by `pollExit`. -/
def released (w : Supervision N) : WorkerEvent → Option (Supervision N)
  | .exitNotified => none
  | .spawned _ | .spawnFailed _ _ => some (w.renew calls)
  -- another branch of `select!`
  | .timeout | .idle | .receive =>
    match w.awaiting with
    | .selecting k => some (w.leave calls k)
    | _ => none
  -- the return of `wait_for_pane_exit`, from either check or after the wait
  | .os .waited =>
    match w.awaiting with
    | .idle => if w.worker.exitInfo.isSome then some w else none
    | .created k => if w.worker.exitInfo.isSome then some (w.leave calls k) else none
    | .returning k => some (w.leave calls k)
    | _ => none
  -- the wait thread calls `notify_waiters`
  | .pane i .notifies =>
    if i+1 ≠ w.worker.panes.length then some w
    else if w.worker.currentPane.any Pane.notified then none
    else some { w with notify := calls.notifyWaiters w.notify }
  | _ => some w

def step (cfg : WorkerConfig) (w : Supervision N) : SupervisionEvent → Option (Supervision N)
  | .worker e => (w.released calls e).bind fun v =>
    (w.worker.step cfg e).map fun worker => { v with worker := worker }
  | .select =>
    match w.worker.phase,w.awaiting with
    | .looping,.idle => some (w.create calls .selecting)
    | _,_ => none
  | .pollExit =>
    match w.worker.phase,w.awaiting with
    | .looping,.selecting k =>
      if (calls.poll w.notify k).2 then some { (w.polled calls k).leave calls k with
        worker := { w.worker with phase := .finalizing w.worker.exitInfo false } }
      else some (w.polled calls k)
    | _,_ => none
  | .tick =>
    match w.worker.phase,w.awaiting with
    | .looping,.selecting k => if cfg.idleTimeout then some (w.leave calls k) else none
    | _,_ => none
  | .check =>
    if w.worker.phase.isWait ∧ w.worker.exitInfo = none then
      match w.awaiting with
      | .idle => some { w with awaiting := .creating }
      | .created k => some { w with awaiting := .unpolled k }
      | _ => none
    else none
  | .create =>
    match w.worker.phase.isWait,w.awaiting with
    | true,.creating => some (w.create calls .created)
    | _,_ => none
  | .pollWait =>
    match w.worker.phase.isWait,w.awaiting with
    | true,.unpolled k | true,.pending k => some { w.polled calls k with
        awaiting := if (calls.poll w.notify k).2 then .returning k else .pending k }
    | _,_ => none
  | .elapsed =>
    match w.worker.phase.isWait,w.awaiting with
    | true,.pending k => some { w with awaiting := .returning k }
    | _,_ => none
  | .notifiesOne =>
    if w.worker.phase.isRunning ∧ w.worker.currentPane.any Pane.notified ∧ ¬w.finished then
      some { w with notify := calls.notifyOne w.notify, finished := true }
    else none

/-- The exit branch is ready: the one of the next `select!`, or the one that is waited for. -/
def exitReady (w : Supervision N) : Bool :=
  match w.awaiting with
  | .idle => (calls.poll (calls.notified w.notify).1 (calls.notified w.notify).2).2
  | .selecting k => (calls.poll w.notify k).2
  | _ => false

/-- An exit is not missed. -/
def NeverMisses (w : Supervision N) : Prop :=
  w.worker.phase = .looping → w.finished = true → w.exitReady calls = true

/-- What a step can do, one constructor for each branch taken. -/
inductive Move (cfg : WorkerConfig) (w : Supervision N) :
    SupervisionEvent → Supervision N → Prop
  | worker {e v worker} : w.released calls e = some v → w.worker.step cfg e = some worker →
      Move cfg w (.worker e) { v with worker := worker }
  | select : w.worker.phase = .looping → w.awaiting = .idle →
      Move cfg w .select (w.create calls .selecting)
  | exitReady {k} : w.worker.phase = .looping → w.awaiting = .selecting k →
      (calls.poll w.notify k).2 = true → Move cfg w .pollExit
      { (w.polled calls k).leave calls k with
        worker := { w.worker with phase := .finalizing w.worker.exitInfo false } }
  | exitPending {k} : w.worker.phase = .looping → w.awaiting = .selecting k →
      (calls.poll w.notify k).2 = false → Move cfg w .pollExit (w.polled calls k)
  | tick {k} : w.worker.phase = .looping → w.awaiting = .selecting k →
      Move cfg w .tick (w.leave calls k)
  | check : w.worker.phase.isWait = true → w.awaiting = .idle →
      Move cfg w .check { w with awaiting := .creating }
  | recheck {k} : w.worker.phase.isWait = true → w.worker.exitInfo = none →
      w.awaiting = .created k → Move cfg w .check { w with awaiting := .unpolled k }
  | create : w.worker.phase.isWait = true → w.awaiting = .creating →
      Move cfg w .create (w.create calls .created)
  | pollWait {k} : w.worker.phase.isWait = true → w.awaiting = .unpolled k ∨ w.awaiting = .pending k →
      Move cfg w .pollWait { w.polled calls k with
        awaiting := if (calls.poll w.notify k).2 then .returning k else .pending k }
  | elapsed {k} : w.worker.phase.isWait = true → w.awaiting = .pending k →
      Move cfg w .elapsed { w with awaiting := .returning k }
  | notifiesOne : w.worker.currentPane.any Pane.notified = true → w.finished = false →
      Move cfg w .notifiesOne { w with notify := calls.notifyOne w.notify, finished := true }

variable {calls}

theorem step_move {cfg : WorkerConfig} {w w' : Supervision N} {e : SupervisionEvent}
    (h : w.step calls cfg e = some w') : Move calls cfg w e w' := by
  cases e with
  | worker e =>
    obtain ⟨v,hv,hw⟩ := Option.bind_eq_some_iff.mp h
    obtain ⟨worker,hworker,rfl⟩ := Option.map_eq_some_iff.mp hw
    exact .worker hv hworker
  | select =>
    simp only [step] at h
    split at h
    next hp ha => cases h; exact .select hp ha
    next => cases h
  | pollExit =>
    simp only [step] at h
    split at h
    next k hp ha =>
      split_ifs at h with hready
      · cases h
        exact .exitReady hp ha hready
      · cases h
        exact .exitPending hp ha (Bool.of_not_eq_true hready)
    next => cases h
  | tick =>
    simp only [step] at h
    split at h
    next k hp ha =>
      split_ifs at h
      cases h
      exact .tick hp ha
    next => cases h
  | check =>
    simp only [step] at h
    split_ifs at h with hwait
    split at h
    next ha => cases h; exact .check hwait.1 ha
    next ha => cases h; exact .recheck hwait.1 hwait.2 ha
    next => cases h
  | create =>
    simp only [step] at h
    split at h
    next hp ha => cases h; exact .create hp ha
    next => cases h
  | pollWait =>
    simp only [step] at h
    split at h
    next k hp ha => cases h; exact .pollWait hp (.inl ha)
    next k hp ha => cases h; exact .pollWait hp (.inr ha)
    next => cases h
  | elapsed =>
    simp only [step] at h
    split at h
    next hp ha => cases h; exact .elapsed hp ha
    next => cases h
  | notifiesOne =>
    simp only [step] at h
    split_ifs at h with hlast
    cases h
    exact .notifiesOne hlast.2.1 (by simpa using hlast.2.2)

end Supervision

/-- Which future the task can hold in a phase. -/
def Awaiting.Fits (phase : WorkerPhase) : Awaiting → Prop
  | .idle => True
  | .selecting _ => phase = .looping
  | .creating | .created _ | .unpolled _ | .pending _ | .returning _ => phase.isWait = true

/-- What is known of the future, `notified` telling that `notify_waiters` has been called. The
one of a wait was created before the exit was recorded, so that this call completes it. -/
def Awaiting.Knows (v : NotifyView) (notified : Bool) : Awaiting → Prop
  | .idle | .creating | .returning _ => True
  | .selecting k => ∃ s,v.futures k = some s ∧ s ≠ .done
  | .created k => v.futures k = some .created ∨ v.futures k = some .called
  | .unpolled k | .pending k => v.futures k = some .called ∨
      ((v.futures k = some .created ∨ v.futures k = some .waiting) ∧ notified = false)

namespace Supervision
variable {N : Type} {calls : NotifyCalls N} {view : N → NotifyView} {cfg : WorkerConfig}
  {w w' v : Supervision N}

/-- What the wait thread of the command has done so far, and what the task knows of it. -/
structure Told (view : N → NotifyView) (w : Supervision N) (pane : Pane) : Prop where
  recorded : pane.notified = true → pane.exitInfo.isSome = true
  finished : w.finished = true → pane.notified = true
  called : ∀ k,(view w.notify).futures k = some .called → pane.notified = true
  knows : w.awaiting.Knows (view w.notify) pane.notified

/-- The invariant while the command is supervised: its notification can be had from `notify_one`
on, and not before. -/
structure Tended (view : N → NotifyView) (w : Supervision N) : Prop where
  sound : (view w.notify).Sound
  held : ∀ k,((view w.notify).futures k).isSome = true → w.awaiting.key = some k
  fits : w.awaiting.Fits w.worker.phase
  told : ∃ pane,w.worker.currentPane = some pane ∧ w.Told view pane
  armed : (view w.notify).Armed ↔ w.finished = true

def Good (view : N → NotifyView) (w : Supervision N) : Prop :=
  w.worker.phase.isSupervising = true → w.Tended view

theorem good_start : (start calls).Good view := by
  intro h
  cases h

/-- Outside the loop and the waits there is no future. -/
theorem Tended.idle (h : w.Tended view) (hloop : w.worker.phase ≠ .looping)
    (hwait : w.worker.phase.isWait = false) : w.awaiting = .idle := by
  have hfits := h.fits
  cases ha : w.awaiting with
  | idle => rfl
  | selecting k =>
    rw [ha] at hfits
    exact absurd hfits hloop
  | creating | created k | unpolled k | pending k | returning k =>
    rw [ha] at hfits
    rw [show w.worker.phase.isWait = true from hfits] at hwait
    cases hwait

theorem Tended.none_of_idle (h : w.Tended view) (ha : w.awaiting = .idle) (k : ℕ) :
    (view w.notify).futures k = none := by
  cases hk : (view w.notify).futures k with
  | none => rfl
  | some s =>
    have hkey := h.held k (by rw [hk]; rfl)
    rw [ha] at hkey
    cases hkey

/-- The task holds the only future. -/
theorem Tended.only (h : w.Tended view) {k : ℕ} (hk : w.awaiting.key = some k) {j : ℕ}
    (hj : j ≠ k) : (view w.notify).futures j = none := by
  cases hs : (view w.notify).futures j with
  | none => rfl
  | some s => exact absurd (Option.some.inj ((h.held j (by rw [hs]; rfl)).symm.trans hk)) hj

/-- A step of the worker that leaves its commands alone. -/
theorem Tended.worker (h : w.Tended view) {worker : Worker}
    (hpanes : worker.currentPane = w.worker.currentPane)
    (hfits : w.awaiting.Fits worker.phase) : Tended view { w with worker := worker } := by
  obtain ⟨pane,hpane,htold⟩ := h.told
  exact ⟨h.sound,h.held,hfits,⟨pane,hpanes.trans hpane,⟨htold.recorded,htold.finished,
    htold.called,htold.knows⟩⟩,h.armed⟩

/-- A step of the task that neither takes a notification nor brings one. -/
theorem Tended.notify (h : w.Tended view) {notify : N} {awaiting : Awaiting}
    (hsound : (view notify).Sound)
    (hheld : ∀ k,((view notify).futures k).isSome = true → awaiting.key = some k)
    (hfits : awaiting.Fits w.worker.phase)
    (hcalled : ∀ k,(view notify).futures k = some .called →
      (view w.notify).futures k = some .called)
    (hknows : ∀ pane,w.worker.currentPane = some pane → w.Told view pane →
      awaiting.Knows (view notify) pane.notified)
    (harmed : (view notify).Armed ↔ (view w.notify).Armed) :
    Tended view { w with notify := notify, awaiting := awaiting } := by
  obtain ⟨pane,hpane,htold⟩ := h.told
  exact ⟨hsound,hheld,hfits,⟨pane,hpane,⟨htold.recorded,htold.finished,
    fun k hk => htold.called k (hcalled k hk),hknows pane hpane htold⟩⟩,harmed.trans h.armed⟩

/-- A step of the task beside its notification. -/
theorem Tended.stays (h : w.Tended view) {awaiting : Awaiting}
    (hkey : awaiting.key = w.awaiting.key) (hfits : awaiting.Fits w.worker.phase)
    (hknows : ∀ pane,w.worker.currentPane = some pane → w.Told view pane →
      awaiting.Knows (view w.notify) pane.notified) :
    Tended view { w with awaiting := awaiting } :=
  h.notify h.sound (fun k hk => hkey.trans (h.held k hk)) hfits (fun _ hk => hk) hknows Iff.rfl

section
variable (hdoc : calls.Documented view)
include hdoc

/-- The task drops its future, without loss. -/
theorem Tended.leave (h : w.Tended view) {k : ℕ} (hk : w.awaiting.key = some k) :
    (w.leave calls k).Tended view := by
  have hdrop := hdoc.drop w.notify k
  have hnone : ∀ j,(view (calls.drop w.notify k)).futures j = none := by
    intro j
    cases hj : (view (calls.drop w.notify k)).futures j with
    | none => rfl
    | some s =>
      obtain ⟨hne,hold⟩ := hdrop.isSome (j := j) (by rw [hj]; rfl)
      exact absurd (Option.some.inj ((h.held j hold).symm.trans hk)) hne
  refine h.notify (hdrop.sound h.sound) ?_ trivial ?_ (fun _ _ _ => trivial) hdrop.armed
  · intro j hj
    rw [hnone j] at hj
    cases hj
  · intro j hj
    rw [hnone j] at hj
    cases hj

/-- A command that has just been spawned. -/
theorem tended_renew (w : Supervision N) {worker : Worker} {pid : Option UInt32}
    (hpane : worker.currentPane = some (.spawned pid)) :
    Tended view { w.renew calls with worker := worker } := by
  have hnew : view (w.renew calls).notify = .new := hdoc.new
  refine ⟨?_,?_,trivial,⟨_,hpane,⟨by rintro ⟨⟩,by rintro ⟨⟩,?_,trivial⟩⟩,?_⟩
  · rw [hnew]
    exact NotifyView.sound_new
  · rw [hnew]
    simp [NotifyView.new]
  · rw [hnew]
    simp [NotifyView.new]
  · rw [hnew]
    exact iff_of_false NotifyView.not_armed_new (by simp [renew])

/-- A call of `terminate_pane` leaves no future behind. -/
theorem Tended.os (h : w.Tended view) {cause : Cause} {phase : TermPhase} {a : OsAnswer}
    {r : TermPhase ⊕ Except String Termination} (hp : w.worker.phase = .terminating cause phase)
    (hstep : phase.step w.worker.exitInfo a = some r)
    (hr : w.released calls (.os a) = some v) :
    v.Tended view ∧ v.awaiting = .idle ∧ v.worker = w.worker := by
  have hiff := TermPhase.isWait_iff hstep
  by_cases hwait : phase.isWait = true
  · obtain rfl := hiff.mp hwait
    simp only [released] at hr
    split at hr
    next ha =>
      split_ifs at hr
      cases hr
      exact ⟨h,ha,rfl⟩
    next k ha =>
      split_ifs at hr
      cases hr
      exact ⟨h.leave hdoc (by rw [ha]; rfl),rfl,rfl⟩
    next k ha =>
      cases hr
      exact ⟨h.leave hdoc (by rw [ha]; rfl),rfl,rfl⟩
    next => cases hr
  · have ha := h.idle (by rw [hp]; simp) (by rw [hp]; simpa [WorkerPhase.isWait] using hwait)
    have hv : v = w := by
      cases a with
      | waited => exact absurd (hiff.mpr rfl) hwait
      | _ => exact (Option.some.inj hr).symm
    subst hv
    exact ⟨h,ha,rfl⟩

/-- Another branch of `select!` has won. -/
theorem Tended.branch (h : w.Tended view) {e : WorkerEvent}
    (he : e = .timeout ∨ e = .idle ∨ e = .receive) (hr : w.released calls e = some v) :
    v.Tended view ∧ v.awaiting = .idle ∧ v.worker = w.worker := by
  have hselecting : ∃ k,w.awaiting = .selecting k ∧ v = w.leave calls k := by
    rcases he with rfl | rfl | rfl
    all_goals
      simp only [released] at hr
      split at hr
      next k ha => exact ⟨k,ha,(Option.some.inj hr).symm⟩
      next => cases hr
  obtain ⟨k,ha,rfl⟩ := hselecting
  exact ⟨h.leave hdoc (by rw [ha]; rfl),rfl,rfl⟩

end

theorem pane_step_notified {pane pane' : Pane} {e : PaneEvent} (h : pane.step e = some pane')
    (he : e ≠ .notifies) :
    pane'.notified = pane.notified ∧ (pane.exitInfo.isSome = true → pane'.exitInfo.isSome = true) := by
  refine ⟨?_,fun hsome => ?_⟩
  · unfold Pane.step at h
    split at h
    · split_ifs at h
      cases h
      rfl
    · split at h <;> cases h
      rfl
    · split_ifs at h
      cases h
      rfl
    · exact absurd rfl he
  · obtain ⟨i,hi⟩ := Option.isSome_iff_exists.mp hsome
    rw [(Pane.step_keeps h).1 i hi]
    rfl

/-- The notification hears of its own command's first call only. -/
theorem released_pane {i : ℕ} {e : PaneEvent} (hr : w.released calls (.pane i e) = some v) :
    (v = w ∧ (i+1 = w.worker.panes.length → e ≠ .notifies)) ∨
      (v = { w with notify := calls.notifyWaiters w.notify } ∧ e = .notifies ∧
        i+1 = w.worker.panes.length ∧ w.worker.currentPane.any Pane.notified = false) := by
  by_cases he : e = .notifies
  · subst he
    simp only [released] at hr
    split_ifs at hr with hother hnotified
    · exact .inl ⟨(Option.some.inj hr).symm,fun hi => absurd hi hother⟩
    · exact .inr ⟨(Option.some.inj hr).symm,rfl,not_not.mp hother,by simpa using hnotified⟩
  · refine .inl ⟨?_,fun _ => he⟩
    cases e with
    | notifies => exact absurd rfl he
    | _ => exact (Option.some.inj hr).symm

/-- Behind `notify_waiters` the future of a wait is completed, whatever it was. -/
theorem knows_call {v : NotifyView} {awaiting : Awaiting} (h : awaiting.Knows v false) :
    awaiting.Knows v.call true := by
  cases awaiting with
  | idle | creating | returning k => trivial
  | selecting k =>
    obtain ⟨s,hs,hdone⟩ := h
    refine ⟨_,NotifyView.call_futures hs,?_⟩
    cases s <;> first | exact absurd rfl hdone | simp [Notified.call]
  | created k =>
    right
    rcases h with hk | hk <;> exact NotifyView.call_futures hk
  | unpolled k | pending k =>
    left
    rcases h with hk | ⟨hk | hk,-⟩ <;> exact NotifyView.call_futures hk

section
variable (hdoc : calls.Documented view)
include hdoc

/-- The first call of the current command's wait thread, which has recorded the exit. -/
theorem Tended.notifyWaiters (h : w.Tended view) {pane : Pane} {worker : Worker}
    (hcurrent : w.worker.currentPane = some pane) (hnotified : pane.notified = false)
    (hrecorded : pane.exitInfo.isSome = true)
    (hnext : worker.currentPane = some { pane with notified := true })
    (hphase : worker.phase = w.worker.phase) :
    Tended view { w with notify := calls.notifyWaiters w.notify, worker := worker } := by
  obtain ⟨current,hpane,htold⟩ := h.told
  obtain rfl : pane = current := Option.some.inj (hcurrent.symm.trans hpane)
  have hview : view (calls.notifyWaiters w.notify) = (view w.notify).call :=
    hdoc.notifyWaiters w.notify
  have hknows := htold.knows
  rw [hnotified] at hknows
  refine ⟨?_,?_,by dsimp only; rw [hphase]; exact h.fits,
    ⟨_,hnext,⟨fun _ => hrecorded,fun _ => rfl,fun _ _ => rfl,?_⟩⟩,?_⟩
  · dsimp only
    rw [hview]
    exact NotifyView.sound_call _
  · intro k hk
    dsimp only at hk
    rw [hview,NotifyView.isSome_call] at hk
    exact h.held k hk
  · dsimp only
    rw [hview]
    exact knows_call hknows
  · dsimp only
    rw [hview,NotifyView.armed_call]
    exact h.armed

/-- What happens to a command, and what its wait thread does. -/
theorem Tended.pane (h : w.Tended view) {i : ℕ} {e : PaneEvent} {pane pane' : Pane}
    (hget : w.worker.panes[i]? = some pane) (hstep : pane.step e = some pane')
    (hr : w.released calls (.pane i e) = some v) :
    Tended view { v with worker := { w.worker with panes := w.worker.panes.set i pane' } } := by
  have hset := Worker.currentPane_set w.worker i pane'
  have hlast : i+1 = w.worker.panes.length → w.worker.currentPane = some pane :=
    fun hi => (Worker.currentPane_of_last hi).trans hget
  rcases released_pane hr with ⟨rfl,hquiet⟩ | ⟨rfl,rfl,hi,hnotified⟩
  · by_cases hi : i+1 = v.worker.panes.length
    · rw [if_pos hi] at hset
      obtain ⟨current,hcurrent,htold⟩ := h.told
      obtain rfl : pane = current := Option.some.inj ((hlast hi).symm.trans hcurrent)
      obtain ⟨hkept,hrecorded⟩ := pane_step_notified hstep (hquiet hi)
      refine ⟨h.sound,h.held,h.fits,⟨_,hset,?_⟩,h.armed⟩
      constructor
      · rw [hkept]
        exact fun hn => hrecorded (htold.recorded hn)
      · rw [hkept]
        exact htold.finished
      · rw [hkept]
        exact htold.called
      · rw [hkept]
        exact htold.knows
    · rw [if_neg hi] at hset
      exact h.worker hset h.fits
  · simp only [Pane.step] at hstep
    split_ifs at hstep with hrecorded
    obtain rfl := Option.some.inj hstep
    rw [if_pos hi] at hset
    rw [hlast hi] at hnotified
    exact h.notifyWaiters hdoc (hlast hi) hnotified hrecorded hset rfl

/-- A step of the worker. -/
theorem Good.worker (hg : w.Good view) {e : WorkerEvent} {worker : Worker}
    (hr : w.released calls e = some v) (hstep : w.worker.step cfg e = some worker) :
    Good view { v with worker := worker } := by
  intro hs
  have hquiet : w.worker.phase.isSupervising = true → w.worker.phase ≠ .looping →
      w.worker.phase.isWait = false → ∀ {worker : Worker},
      worker.currentPane = w.worker.currentPane → Tended view { w with worker := worker } := by
    intro hp hloop hwait worker hpane
    have ht := hg hp
    exact ht.worker hpane (by rw [ht.idle hloop hwait]; trivial)
  cases Worker.step_move hstep with
  | spawned hp | respawned hp =>
    obtain rfl := Option.some.inj hr
    exact tended_renew hdoc w List.getLast?_concat
  | served hp | setupFailed hp =>
    obtain rfl := Option.some.inj hr
    exact hquiet (by rw [hp]; rfl) (by rw [hp]; simp) (by rw [hp]; rfl) rfl
  | request =>
    obtain rfl := Option.some.inj hr
    exact (hg hs).worker rfl (hg hs).fits
  | timeout hp | idle hp | restart hp | kill hp =>
    obtain ⟨ht,ha,hworker⟩ := (hg (by rw [hp]; rfl)).branch hdoc (by simp) hr
    exact ht.worker (by rw [hworker]; rfl) (by rw [ha]; trivial)
  | exitNotified => cases hr
  | called hp hcall | terminated hp hcall =>
    obtain ⟨ht,ha,hworker⟩ := (hg (by rw [hp]; rfl)).os hdoc hp hcall hr
    exact ht.worker (by rw [hworker]; rfl) (by rw [ha]; trivial)
  | wrote hwrite =>
    obtain rfl := Option.some.inj hr
    unfold WorkerPhase.write at hwrite
    split at hwrite <;> cases hwrite <;> try cases hs
    next hp => exact hquiet (by rw [hp]; rfl) (by rw [hp]; simp) (by rw [hp]; rfl) rfl
    next hp => exact hquiet (by rw [hp]; rfl) (by rw [hp]; simp) (by rw [hp]; rfl) rfl
  | pane hget hmove => exact (hg hs).pane hdoc hget hmove hr
  | writeFailed =>
    unfold WorkerPhase.writeFailed at hs
    split at hs <;> cases hs
  | spawnFailed | respawnFailed | drained | left | died => cases hs

/-- A new future of the task, the only one. -/
theorem Tended.create (h : w.Tended view) (hkey : w.awaiting.key = none) {awaiting : ℕ → Awaiting}
    (hnew : ∀ k,(awaiting k).key = some k) (hfits : ∀ k,(awaiting k).Fits w.worker.phase)
    (hknows : ∀ k v notified,v.futures k = some .created → (awaiting k).Knows v notified) :
    (w.create calls awaiting).Tended view := by
  have hview := hdoc.notified w.notify
  have hfresh := hdoc.fresh w.notify
  refine h.notify ?_ ?_ (hfits _) ?_ ?_ ?_
  · rw [hview]
    exact h.sound.put (by simp)
  · intro j hj
    obtain ⟨s,hs⟩ := Option.isSome_iff_exists.mp hj
    rw [hview] at hs
    rcases NotifyView.put_eq_some hs with ⟨rfl,-⟩ | ⟨-,hold⟩
    · exact hnew _
    · have hheld := h.held j (by rw [hold]; rfl)
      rw [hkey] at hheld
      cases hheld
  · intro j hj
    rw [hview] at hj
    rcases NotifyView.put_eq_some hj with ⟨-,hnot⟩ | ⟨-,hold⟩
    · cases hnot
    · exact hold
  · intro pane _ _
    refine hknows _ _ _ ?_
    rw [hview]
    exact NotifyView.put_self _ _ _
  · rw [hview]
    exact NotifyView.armed_put (by rw [hfresh]; simp) (by simp)

/-- The poll of the future the task holds. -/
theorem Tended.poll (h : w.Tended view) {k : ℕ} {s : Notified} (hkey : w.awaiting.key = some k)
    (hs : (view w.notify).futures k = some s) (hdone : s ≠ .done) {awaiting : Awaiting}
    (hnew : awaiting.key = some k) (hfits : awaiting.Fits w.worker.phase)
    (hknows : ∀ pane,w.worker.currentPane = some pane → w.Told view pane →
      awaiting.Knows (view (w.polled calls k).notify) pane.notified)
    (harmed : (view w.notify).Armed → (view (w.polled calls k).notify).Armed) :
    Tended view { w.polled calls k with awaiting := awaiting } := by
  have hpolls : (view w.notify).Polls k (view (w.polled calls k).notify) (calls.poll w.notify k).2 :=
    hdoc.poll w.notify k s hs hdone
  refine h.notify (hpolls.sound h.sound) ?_ hfits ?_ hknows ⟨hpolls.armed,harmed⟩
  · intro j hj
    rw [hpolls.isSome] at hj
    rw [hnew,← hkey]
    exact h.held j hj
  · intro j hj
    exact hpolls.called_of_called hj

/-- The exit branch, which is not ready, is queued; had the wait thread finished, it would have
been. -/
theorem Tended.pollExit (h : w.Tended view) {k : ℕ} (ha : w.awaiting = .selecting k)
    (hpending : (calls.poll w.notify k).2 = false) : (w.polled calls k).Tended view := by
  have hkey : w.awaiting.key = some k := by rw [ha]; rfl
  obtain ⟨pane,hpane,htold⟩ := h.told
  have hknows := htold.knows
  rw [ha] at hknows
  obtain ⟨s,hs,hdone⟩ := hknows
  have hpolls := hdoc.poll w.notify k s hs hdone
  have hpassed : ∀ pane, w.worker.currentPane = some pane → w.Told view pane →
      w.awaiting.Knows (view (w.polled calls k).notify) pane.notified := by
    intro _ _ _
    rw [hpending] at hpolls
    rw [ha]
    exact ⟨_,hpolls.pending,by simp⟩
  refine h.poll hdoc hkey hs hdone hkey h.fits hpassed fun harmed => ?_
  have hready := hpolls.ready_of_armed h.sound harmed fun j hj => h.only hkey hj
  rw [hpending] at hready
  cases hready

/-- A wait for the exit takes no notification: what completes its future is `notify_waiters`. -/
theorem Tended.pollWait (h : w.Tended view) {k : ℕ} (hp : w.worker.phase.isWait = true)
    (ha : w.awaiting = .unpolled k ∨ w.awaiting = .pending k) :
    Tended view { w.polled calls k with
      awaiting := if (calls.poll w.notify k).2 then .returning k else .pending k } := by
  have hkey : w.awaiting.key = some k := by rcases ha with ha | ha <;> rw [ha] <;> rfl
  obtain ⟨pane,hpane,htold⟩ := h.told
  have hknows : (Awaiting.pending k).Knows (view w.notify) pane.notified := by
    have hknows := htold.knows
    rcases ha with ha | ha <;> rw [ha] at hknows <;> exact hknows
  have hcases : ∃ s,(view w.notify).futures k = some s ∧ s ≠ .done := by
    rcases hknows with hk | ⟨hk | hk,-⟩ <;> exact ⟨_,hk,by simp⟩
  obtain ⟨s,hs,hdone⟩ := hcases
  have hpolls := hdoc.poll w.notify k s hs hdone
  refine h.poll hdoc hkey hs hdone (by split_ifs <;> rfl) (by split_ifs <;> exact hp) ?_ ?_
  · intro current hcurrent _
    obtain rfl : pane = current := Option.some.inj (hpane.symm.trans hcurrent)
    split_ifs with hready
    · trivial
    · rw [Bool.of_not_eq_true hready] at hpolls
      rcases hknows with hk | ⟨-,hnot⟩
      · exact absurd (hpolls.armed_of_called hk).1 (by simp)
      · exact .inr ⟨.inr hpolls.pending,hnot⟩
  · rcases hknows with hk | ⟨-,hnot⟩
    · exact (hpolls.armed_of_called hk).2.mpr
    · -- before `notify_waiters` there is nothing to take
      intro harmed
      rw [htold.finished (h.armed.mp harmed)] at hnot
      cases hnot

/-- The wait thread leaves its notification, with no wait in the queue any more. -/
theorem Tended.notifiesOne (h : w.Tended view)
    (hnotified : w.worker.currentPane.any Pane.notified = true) :
    Tended view { w with notify := calls.notifyOne w.notify, finished := true } := by
  obtain ⟨pane,hpane,htold⟩ := h.told
  rw [hpane,Option.any_some] at hnotified
  have hdelivers : (view w.notify).Delivers (view (calls.notifyOne w.notify)) :=
    hdoc.notifyOne w.notify
  refine ⟨hdelivers.sound h.sound,?_,h.fits,⟨pane,hpane,⟨htold.recorded,fun _ => hnotified,
    fun _ _ => hnotified,?_⟩⟩,iff_of_true hdelivers.armed rfl⟩
  · intro k hk
    rw [hdelivers.isSome] at hk
    exact h.held k hk
  · have hstays : ∀ {k s},(view w.notify).futures k = some s → s ≠ .waiting →
        (view (calls.notifyOne w.notify)).futures k = some s := by
      intro k s hs hw
      exact (hdelivers.futures hs).resolve_right fun hwoken => hw hwoken.1
    have hknows := htold.knows
    dsimp only
    cases ha : w.awaiting with
    | idle | creating | returning k => trivial
    | selecting k =>
      rw [ha] at hknows
      obtain ⟨s,hs,hdone⟩ := hknows
      rcases hdelivers.futures hs with hsame | ⟨-,hwoken⟩
      · exact ⟨s,hsame,hdone⟩
      · exact ⟨_,hwoken,by simp⟩
    | created k =>
      rw [ha] at hknows
      exact hknows.imp (fun hk => hstays hk (by simp)) (fun hk => hstays hk (by simp))
    | unpolled k | pending k =>
      rw [ha] at hknows
      rcases hknows with hk | ⟨-,hnot⟩
      · exact .inl (hstays hk (by simp))
      · rw [hnotified] at hnot
        cases hnot

theorem good_step (w : Supervision N) (e : SupervisionEvent) (w' : Supervision N)
    (h : step calls cfg w e = some w') (hg : w.Good view) : w'.Good view := by
  cases step_move h with
  | worker hr hworker => exact hg.worker hdoc hr hworker
  | select hp ha =>
    intro hs
    exact (hg hs).create hdoc (by rw [ha]; rfl) (fun _ => rfl) (fun _ => hp)
      fun k v notified hk => ⟨_,hk,by simp⟩
  | exitReady => rintro ⟨⟩
  | exitPending hp ha hpending => exact fun hs => (hg hs).pollExit hdoc ha hpending
  | tick hp ha => exact fun hs => (hg hs).leave hdoc (by rw [ha]; rfl)
  | check hp ha =>
    intro hs
    exact (hg hs).stays (by rw [ha]; rfl) hp fun _ _ _ => trivial
  | @recheck k hp hexit ha =>
    intro hs
    refine (hg hs).stays (by rw [ha]; rfl) hp fun pane hpane htold => ?_
    -- nothing is recorded, so `notify_waiters` has not been called
    have hnot : pane.notified = false := by
      by_contra hn
      have hsome := htold.recorded (by simpa using hn)
      rw [Worker.exitInfo,hpane,Option.bind_some] at hexit
      rw [hexit] at hsome
      cases hsome
    have hknows := htold.knows
    rw [ha] at hknows
    rcases hknows with hk | hk
    · exact .inr ⟨.inl hk,hnot⟩
    · rw [htold.called k hk] at hnot
      cases hnot
  | create hp ha =>
    intro hs
    exact (hg hs).create hdoc (by rw [ha]; rfl) (fun _ => rfl) (fun _ => hp)
      fun k v notified hk => .inl hk
  | pollWait hp ha => exact fun hs => (hg hs).pollWait hdoc hp ha
  | elapsed hp ha =>
    intro hs
    exact (hg hs).stays (by rw [ha]; rfl) hp fun _ _ _ => trivial
  | notifiesOne hn hf => exact fun hs => (hg hs).notifiesOne hdoc hn

/-- In the loop, what is armed makes the exit branch ready. -/
theorem Good.neverMisses (hg : w.Good view) : w.NeverMisses calls := by
  intro hp hf
  have ht := hg (by rw [hp]; rfl)
  have harmed := ht.armed.mpr hf
  have hfits := ht.fits
  obtain ⟨pane,hpane,htold⟩ := ht.told
  have hknows := htold.knows
  unfold exitReady
  cases ha : w.awaiting with
  | idle =>
    have hnone := ht.none_of_idle ha
    have hview := hdoc.notified w.notify
    have hk : (view (calls.notified w.notify).1).futures (calls.notified w.notify).2 =
        some .created := by
      rw [hview]
      exact NotifyView.put_self _ _ _
    refine (hdoc.poll _ _ _ hk (by simp)).ready_of_armed ?_ ?_ ?_
    · rw [hview]
      exact ht.sound.put (by simp)
    · rw [hview]
      exact (NotifyView.armed_put (by rw [hnone]; simp) (by simp)).mpr harmed
    · intro j hj
      rw [hview,NotifyView.put_of_ne _ hj]
      exact hnone j
  | selecting k =>
    rw [ha] at hknows
    obtain ⟨s,hs,hdone⟩ := hknows
    exact (hdoc.poll _ _ _ hs hdone).ready_of_armed ht.sound harmed
      fun j hj => ht.only (by rw [ha]; rfl) hj
  | creating | created k | unpolled k | pending k | returning k =>
    rw [ha,hp] at hfits
    cases hfits

/-- A poll of the exit branch that is ready comes after `notify_waiters`. -/
theorem Tended.notified_of_ready (h : w.Tended view) {k : ℕ} (ha : w.awaiting = .selecting k)
    (hready : (calls.poll w.notify k).2 = true) :
    ∃ pane,w.worker.currentPane = some pane ∧ pane.notified = true := by
  obtain ⟨pane,hpane,htold⟩ := h.told
  refine ⟨pane,hpane,?_⟩
  have hof : (view w.notify).Armed → pane.notified = true :=
    fun harmed => htold.finished (h.armed.mp harmed)
  have hknows := htold.knows
  rw [ha] at hknows
  obtain ⟨s,hs,hdone⟩ := hknows
  have hpolls := hdoc.poll w.notify k s hs hdone
  rw [hready] at hpolls
  generalize view (calls.poll w.notify k).1 = u at hpolls
  generalize hr : true = ready at hpolls
  cases hpolls with
  | permit _ hp => exact hof (.inl hp)
  | called hk => exact htold.called k hk
  | chosen hk => exact hof (.inr ⟨k,hk⟩)
  | queued | waiting => cases hr

/-- Each step is one of the worker, or none. -/
theorem worker_step {e : SupervisionEvent} (h : step calls cfg w e = some w')
    (hg : w.Good view) : w'.worker = w.worker ∨ ∃ d,w.worker.step cfg d = some w'.worker := by
  cases step_move h with
  | @worker e v worker hr hworker => exact .inr ⟨e,hworker⟩
  | exitReady hp ha hready =>
    obtain ⟨pane,hpane,hnotified⟩ := (hg (by rw [hp]; rfl)).notified_of_ready hdoc ha hready
    refine .inr ⟨.exitNotified,?_⟩
    simp only [Worker.step,hp,hpane,hnotified,if_true,Worker.exitInfo,Option.bind_some]
  | _ => exact .inl rfl

/-- A supervised run is one of the worker. -/
theorem worker_run {es : List SupervisionEvent}
    (h : Transition.exec (step calls cfg) (start calls) es = some w) :
    ∃ ds,Transition.exec (Worker.step cfg) .start ds = some w.worker := by
  refine (Transition.invariant (I := fun w : Supervision N => w.Good view ∧
    ∃ ds,Transition.exec (Worker.step cfg) .start ds = some w.worker) ?_ h
    ⟨good_start,[],rfl⟩).2
  rintro w e w' hstep ⟨hg,ds,hds⟩
  refine ⟨good_step hdoc w e w' hstep hg,?_⟩
  rcases worker_step hdoc hstep hg with hsame | ⟨d,hd⟩
  · exact ⟨ds,by rw [hsame]; exact hds⟩
  · refine ⟨ds++[d],?_⟩
    rw [Transition.exec_append,hds,Option.bind_some,Transition.exec_cons,hd]
    rfl

end

/-- A branch that is ready fires when it is polled: the worker goes on to the final status. -/
theorem pollExit_of_ready {k : ℕ} (hp : w.worker.phase = .looping) (ha : w.awaiting = .selecting k)
    (hready : w.exitReady calls = true) :
    (step calls cfg w .pollExit).map (fun v => v.worker.phase) =
      some (.finalizing w.worker.exitInfo false) := by
  simp only [exitReady,ha] at hready
  simp [step,hp,ha,hready]

/-- No exit is missed, in any state of any run. -/
theorem never_misses (hdoc : calls.Documented view) (cfg : WorkerConfig)
    (es : List SupervisionEvent) :
    Transition.Always (step calls cfg) (NeverMisses calls) (start calls) es :=
  Transition.always_of_meets (C := fun _ _ => True) (I := Good view)
    (fun w e w' h _ hg => good_step hdoc w e w' h hg) (fun _ hg => hg.neverMisses hdoc)
    (Transition.meets_true _ es) good_start

/-- The exit falls between the second check of the wait for a kill and its first poll, and a
member of the process group survives SIGKILL. -/
def survivingMemberRun : List SupervisionEvent :=
  [.worker (.spawned none),.worker (.record none),.worker (.served none),.select,
    .worker (.request .kill),.worker .receive,.worker (.os .proceed),.worker (.os (.signalled none)),
    .check,.create,.check,.worker (.pane 0 (.exits .signaled)),.worker (.pane 0 .reaped),
    .worker (.pane 0 .notifies),.notifiesOne,.pollWait,.worker (.os .waited),
    .worker (.os (.probed (.ok true))),.worker (.os (.signalled none)),
    .worker (.os (.probed (.ok true))),.worker (.os .deadline)]

theorem never_misses_surviving_member : ∃ w,
    Transition.exec (step Notify.calls ⟨false,false⟩) (start Notify.calls) survivingMemberRun =
      some w ∧
    w.worker.phase = .looping ∧ w.worker.exitInfo = some ⟨none,true⟩ ∧ w.finished = true ∧
    w.exitReady Notify.calls = true := by
  obtain ⟨w,hrun,hp,hinfo,hf⟩ : ∃ w,
      Transition.exec (step Notify.calls ⟨false,false⟩) (start Notify.calls) survivingMemberRun =
        some w ∧ w.worker.phase = .looping ∧ w.worker.exitInfo = some ⟨none,true⟩ ∧
        w.finished = true := ⟨_,rfl,rfl,rfl,rfl⟩
  exact ⟨w,hrun,hp,hinfo,hf,
    (never_misses Notify.documented ⟨false,false⟩ survivingMemberRun).last hrun hp hf⟩

end Supervision
end Babysit
