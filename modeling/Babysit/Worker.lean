import Babysit.Lib.Transition
import Babysit.TerminatePane

/-! `serve_worker`: it spawns the command, supervises restarts and kills, and records how
the session ends. A step is one awaited call or one status write of the worker, or something
that happens beside it. -/
namespace Babysit

inductive LoopMessage
  | restart
  | kill
  deriving DecidableEq, Repr

/-- What the sender of a kill is told. -/
inductive KillReply
  | killed (escalated : Bool) (state : State) (exitCode : Option Int32)
  | refused (error : String)
  deriving DecidableEq, Repr

/-- Whether `--timeout` and `--idle-timeout` are set. -/
structure WorkerConfig where
  timeout : Bool
  idleTimeout : Bool

/-- What `terminate_pane` was called for. -/
inductive Cause
  | timeout
  | idleTimeout
  | restart
  | kill
  | setupFailure (error : String)
  deriving DecidableEq, Repr

/-- Where `serve_worker` is after its first status write. `died` is a worker that ends
without returning. -/
inductive WorkerPhase
  | spawning
  | recordingSpawnFailure (error : String)
  | recordingRunning (pid : Option UInt32)
  | serving
  | looping
  | terminating (cause : Cause) (phase : TermPhase)
  | recordingSetupFailure (error : String)
  | respawning
  | recordingRestart (pid : Option UInt32)
  | recordingKill (termination : Termination)
  | finalizing (info : Option ExitInfo) (terminationRequested : Bool)
  | draining (info : Option ExitInfo)
  | closing
  | returned (result : Except String Unit)
  | died

/-- The worker, the persisted status, and every command it has spawned, the current one
last. `exitSent` is what attached clients are told. -/
structure Worker where
  phase : WorkerPhase
  status : Status
  panes : List Pane
  messages : List LoopMessage
  replies : List KillReply
  exitSent : Option ExitInfo

/-- `spawnFailed` tells whether the process had started when `Pane::spawn` failed; `drained`
is the end of the wait for the reader, `left` of the wait for the clients. -/
inductive WorkerEvent
  | spawned (pid : Option UInt32)
  | spawnFailed (started : Option (Option UInt32)) (error : String)
  | served (failed : Option String)
  | request (m : LoopMessage)
  | timeout
  | idle
  | receive
  | exitNotified
  | os (a : OsAnswer)
  | record (failed : Option String)
  | drained
  | left
  | died
  | pane (i : ℕ) (e : PaneEvent)

namespace WorkerPhase

/-- The state a confirmed kill is recorded as. -/
def killState (t : Termination) : State :=
  if t.signalSent ∨ t.info.signaled then .killed else .exited

/-- The status a phase writes, and the phase behind the write. -/
def write : WorkerPhase → Option (Status × WorkerPhase)
  | .recordingSpawnFailure error => some (⟨.exited,none,none⟩,.returned (.error error))
  | .recordingRunning pid => some (⟨.running,pid,none⟩,.serving)
  | .recordingSetupFailure error => some (⟨.killed,none,some 1⟩,.returned (.error error))
  | .recordingRestart pid => some (⟨.running,pid,none⟩,.looping)
  | .recordingKill t => some (⟨killState t,none,t.info.code⟩,.draining (some t.info))
  | .finalizing info requested =>
    let signaled := (info.map ExitInfo.signaled).getD true
    some (⟨if requested ∨ signaled then .killed else .exited,none,info.bind ExitInfo.code⟩,
      .draining info)
  | _ => none

/-- The phase behind a failed write: only the one after a failed spawn is best effort. -/
def writeFailed (error : String) : WorkerPhase → WorkerPhase
  | .recordingSpawnFailure first => .returned (.error first)
  | _ => .returned (.error error)

/-- The kill reply that follows the write. -/
def reply : WorkerPhase → List KillReply
  | .recordingKill t =>
    [if t.signalSent then .killed t.escalated (killState t) t.info.code
      else .refused "session exited before kill could be applied"]
  | _ => []

/-- Where a finished termination leads. -/
def terminated : Cause → Except String Termination → WorkerPhase
  | .timeout,.ok t | .idleTimeout,.ok t => .finalizing (some t.info) t.signalSent
  | .restart,.ok _ => .respawning
  | .kill,.ok t => .recordingKill t
  | .timeout,.error e | .idleTimeout,.error e | .restart,.error e => .returned (.error e)
  | .kill,.error _ => .looping
  | .setupFailure error,_ => .recordingSetupFailure error

/-- A failed kill is answered at once. -/
def terminatedReply : Cause → Except String Termination → List KillReply
  | .kill,.error e => [.refused e]
  | _,_ => []

/-- The worker process is still there. -/
def isRunning : WorkerPhase → Bool
  | .returned _ | .died => false
  | _ => true

/-- No command is spawned from here on. -/
def isEnding : WorkerPhase → Bool
  | .draining _ | .closing | .returned _ | .died => true
  | _ => false

end WorkerPhase

namespace Worker

def start : Worker := ⟨.spawning,Status.starting,[],[],[],none⟩

def currentPane (w : Worker) : Option Pane := w.panes.getLast?

/-- What the wait thread of the current command has recorded. -/
def exitInfo (w : Worker) : Option ExitInfo := w.currentPane.bind Pane.exitInfo

def step (cfg : WorkerConfig) (w : Worker) : WorkerEvent → Option Worker
  | .spawned pid =>
    match w.phase with
    | .spawning => some { w with
        panes := w.panes ++ [.spawned pid], phase := .recordingRunning pid }
    | .respawning => some { w with
        panes := w.panes ++ [.spawned pid], phase := .recordingRestart pid }
    | _ => none
  | .spawnFailed started error =>
    let panes := w.panes ++ (started.map Pane.spawned).toList
    match w.phase with
    | .spawning => some { w with panes := panes, phase := .recordingSpawnFailure error }
    | .respawning => some { w with panes := panes, phase := .returned (.error error) }
    | _ => none
  | .served failed =>
    match w.phase with
    | .serving => some { w with phase :=
        match failed with
        | none => .looping
        | some error => .terminating (.setupFailure error) .exitInfo }
    | _ => none
  | .request m => some { w with messages := w.messages ++ [m] }
  | .timeout =>
    match w.phase with
    | .looping => if cfg.timeout then some { w with phase := .terminating .timeout .exitInfo } else none
    | _ => none
  | .idle =>
    match w.phase with
    | .looping =>
      if cfg.idleTimeout then some { w with phase := .terminating .idleTimeout .exitInfo } else none
    | _ => none
  | .receive =>
    match w.phase,w.messages with
    | .looping,.restart::rest => some { w with
        messages := rest, phase := .terminating .restart .exitInfo }
    | .looping,.kill::rest => some { w with
        messages := rest, phase := .terminating .kill .exitInfo }
    | _,_ => none
  | .exitNotified =>
    match w.phase,w.currentPane with
    | .looping,some pane =>
      if pane.notified then some { w with phase := .finalizing pane.exitInfo false } else none
    | _,_ => none
  | .os a =>
    match w.phase with
    | .terminating cause phase =>
      match phase.step w.exitInfo a with
      | some (.inl next) => some { w with phase := .terminating cause next }
      | some (.inr result) => some { w with
          phase := .terminated cause result
          replies := w.replies ++ WorkerPhase.terminatedReply cause result }
      | none => none
    | _ => none
  | .record failed =>
    match w.phase.write,failed with
    | some (status,next),none => some { w with
        status := status, phase := next, replies := w.replies ++ w.phase.reply }
    | some _,some error => some { w with phase := w.phase.writeFailed error }
    | none,_ => none
  | .drained =>
    match w.phase with
    | .draining info => some { w with
        exitSent := some (info.getD ⟨none,true⟩), phase := .closing }
    | _ => none
  | .left =>
    match w.phase with
    | .closing => some { w with phase := .returned (.ok ()) }
    | _ => none
  | .died => if w.phase.isRunning then some { w with phase := .died } else none
  | .pane i e => do
    let pane ← w.panes[i]?
    let pane' ← pane.step e
    -- the wait thread is part of the worker process
    if w.phase.isRunning ∨ e.isExit then
      some { w with panes := w.panes.set i pane' }
    else none

/-- Everything a step can do, one constructor for each branch taken. -/
inductive Move (cfg : WorkerConfig) (w : Worker) : WorkerEvent → Worker → Prop
  | spawned {pid} : w.phase = .spawning → Move cfg w (.spawned pid)
      { w with panes := w.panes ++ [.spawned pid], phase := .recordingRunning pid }
  | respawned {pid} : w.phase = .respawning → Move cfg w (.spawned pid)
      { w with panes := w.panes ++ [.spawned pid], phase := .recordingRestart pid }
  | spawnFailed {started error} : w.phase = .spawning → Move cfg w (.spawnFailed started error)
      { w with panes := w.panes ++ (started.map Pane.spawned).toList
               phase := .recordingSpawnFailure error }
  | respawnFailed {started error} : w.phase = .respawning → Move cfg w (.spawnFailed started error)
      { w with panes := w.panes ++ (started.map Pane.spawned).toList
               phase := .returned (.error error) }
  | served : w.phase = .serving → Move cfg w (.served none) { w with phase := .looping }
  | setupFailed {error} : w.phase = .serving → Move cfg w (.served (some error))
      { w with phase := .terminating (.setupFailure error) .exitInfo }
  | request {m} : Move cfg w (.request m) { w with messages := w.messages ++ [m] }
  | timeout : w.phase = .looping → cfg.timeout = true →
      Move cfg w .timeout { w with phase := .terminating .timeout .exitInfo }
  | idle : w.phase = .looping → cfg.idleTimeout = true →
      Move cfg w .idle { w with phase := .terminating .idleTimeout .exitInfo }
  | restart {rest} : w.phase = .looping → w.messages = .restart::rest → Move cfg w .receive
      { w with messages := rest, phase := .terminating .restart .exitInfo }
  | kill {rest} : w.phase = .looping → w.messages = .kill::rest → Move cfg w .receive
      { w with messages := rest, phase := .terminating .kill .exitInfo }
  | exitNotified {pane} : w.phase = .looping → w.currentPane = some pane → pane.notified = true →
      Move cfg w .exitNotified { w with phase := .finalizing pane.exitInfo false }
  | called {cause phase next a} : w.phase = .terminating cause phase →
      phase.step w.exitInfo a = some (.inl next) →
      Move cfg w (.os a) { w with phase := .terminating cause next }
  | terminated {cause phase result a} : w.phase = .terminating cause phase →
      phase.step w.exitInfo a = some (.inr result) → Move cfg w (.os a)
      { w with phase := .terminated cause result
               replies := w.replies ++ WorkerPhase.terminatedReply cause result }
  | wrote {status next} : w.phase.write = some (status,next) → Move cfg w (.record none)
      { w with status := status, phase := next, replies := w.replies ++ w.phase.reply }
  | writeFailed {status next error} : w.phase.write = some (status,next) →
      Move cfg w (.record (some error)) { w with phase := w.phase.writeFailed error }
  | drained {info} : w.phase = .draining info → Move cfg w .drained
      { w with exitSent := some (info.getD ⟨none,true⟩), phase := .closing }
  | left : w.phase = .closing → Move cfg w .left { w with phase := .returned (.ok ()) }
  | died : w.phase.isRunning = true → Move cfg w .died { w with phase := .died }
  | pane {i e pane pane'} : w.panes[i]? = some pane → pane.step e = some pane' →
      w.phase.isRunning = true ∨ e.isExit = true → Move cfg w (.pane i e) { w with panes := w.panes.set i pane' }

theorem step_move {cfg : WorkerConfig} {w w' : Worker} {e : WorkerEvent}
    (h : w.step cfg e = some w') : Move cfg w e w' := by
  cases e with
  | spawned pid =>
    simp only [step] at h
    split at h <;> cases h
    · exact .spawned ‹_›
    · exact .respawned ‹_›
  | spawnFailed started error =>
    simp only [step] at h
    split at h <;> cases h
    · exact .spawnFailed ‹_›
    · exact .respawnFailed ‹_›
  | served failed =>
    simp only [step] at h
    split at h <;> cases h
    cases failed
    · exact .served ‹_›
    · exact .setupFailed ‹_›
  | request m =>
    obtain rfl := Option.some.inj h
    exact .request
  | timeout =>
    simp only [step] at h
    split at h
    · split_ifs at h
      cases h
      exact .timeout ‹_› ‹_›
    · cases h
  | idle =>
    simp only [step] at h
    split at h
    · split_ifs at h
      cases h
      exact .idle ‹_› ‹_›
    · cases h
  | receive =>
    simp only [step] at h
    split at h <;> cases h
    · exact .restart ‹_› ‹_›
    · exact .kill ‹_› ‹_›
  | exitNotified =>
    simp only [step] at h
    split at h
    · split_ifs at h
      cases h
      exact .exitNotified ‹_› ‹_› ‹_›
    · cases h
  | os a =>
    simp only [step] at h
    split at h
    next cause phase hphase =>
      split at h <;> cases h
      · exact .called hphase ‹_›
      · exact .terminated hphase ‹_›
    next => cases h
  | record failed =>
    simp only [step] at h
    split at h <;> cases h
    · exact .wrote ‹_›
    · exact .writeFailed ‹_›
  | drained =>
    simp only [step] at h
    split at h <;> cases h
    exact .drained ‹_›
  | left =>
    simp only [step] at h
    split at h <;> cases h
    exact .left ‹_›
  | died =>
    simp only [step] at h
    split_ifs at h
    cases h
    exact .died ‹_›
  | pane i e =>
    simp only [step,Option.bind_eq_bind,Option.bind_eq_some_iff] at h
    obtain ⟨pane,hpane,pane',hstep,h⟩ := h
    split_ifs at h
    cases h
    exact .pane hpane hstep ‹_›

variable {cfg : WorkerConfig} {w w' : Worker} {e : WorkerEvent}

theorem currentPane_of_last {i : ℕ} (hi : i+1 = w.panes.length) : w.currentPane = w.panes[i]? := by
  rw [currentPane,List.getLast?_eq_getElem?,← hi,Nat.add_sub_cancel]

/-- Only a change of the last command changes the current one. -/
theorem currentPane_set (w : Worker) (i : ℕ) (p : Pane) :
    currentPane { w with panes := w.panes.set i p } =
      if i+1 = w.panes.length then some p else w.currentPane := by
  simp only [currentPane,List.getLast?_eq_getElem?,List.length_set]
  by_cases hi : i+1 = w.panes.length
  · rw [if_pos hi,← hi,Nat.add_sub_cancel,List.getElem?_set_self (by omega)]
  · rw [if_neg hi]
    by_cases hlt : i < w.panes.length
    · exact List.getElem?_set_ne (by omega)
    · rw [List.set_eq_of_length_le (by omega)]

/-- Every status write comes before the ending. -/
theorem isEnding_of_write {phase next : WorkerPhase} {status : Status}
    (h : phase.write = some (status,next)) : phase.isEnding = false := by
  unfold WorkerPhase.write at h
  split at h
  case h_7 => cases h
  all_goals rfl

/-- The phases that end the worker lead to one another only. -/
theorem isEnding_step (h : w.step cfg e = some w') (hend : w.phase.isEnding = true) :
    w'.phase.isEnding = true ∧ w'.status = w.status := by
  cases step_move h with
  | request => exact ⟨hend,rfl⟩
  | pane => exact ⟨hend,rfl⟩
  | drained | left | died => exact ⟨rfl,rfl⟩
  | spawned hp | respawned hp | spawnFailed hp | respawnFailed hp | served hp | setupFailed hp
  | timeout hp | idle hp | restart hp | kill hp | exitNotified hp | called hp | terminated hp =>
    rw [hp] at hend
    cases hend
  | wrote hp | writeFailed hp =>
    rw [isEnding_of_write hp] at hend
    cases hend

/-- A terminal status is recorded by a worker that ends. -/
def Settled (w : Worker) : Prop := w.status.isTerminal = true → w.phase.isEnding = true

theorem settled_start : start.Settled := by
  intro h
  cases h

theorem Settled.step (hw : w.Settled) (h : w.step cfg e = some w') : w'.Settled := by
  by_cases hend : w.phase.isEnding = true
  · exact fun _ => (isEnding_step h hend).1
  · have hstatus : ¬w.status.isTerminal = true := fun ht => hend (hw ht)
    cases step_move h with
    | wrote hp =>
      intro hterminal
      unfold WorkerPhase.write at hp
      split at hp <;> cases hp
      · rfl
      · cases hterminal
      · rfl
      · cases hterminal
      · rfl
      · rfl
    | _ => exact fun ht => absurd ht hstatus

/-- What has become of a command stays. -/
theorem outcome_step (h : w.step cfg e = some w') {i : ℕ} {o : Outcome}
    (ho : w.panes[i]?.bind Pane.outcome = some o) : w'.panes[i]?.bind Pane.outcome = some o := by
  have happend : ∀ more, (w.panes ++ more)[i]?.bind Pane.outcome = some o := by
    intro more
    obtain ⟨p,hp,hout⟩ := Option.bind_eq_some_iff.mp ho
    have hlt := (List.getElem?_eq_some_iff.mp hp).1
    rw [List.getElem?_append_left hlt,ho]
  cases step_move h with
  | spawned | respawned => exact happend _
  | spawnFailed | respawnFailed => exact happend _
  | pane hp hmove =>
    rename_i j e pane pane'
    dsimp only
    rw [List.getElem?_set]
    split_ifs with hij hlt
    · subst hij
      rw [hp,Option.bind_some] at ho
      exact (Pane.step_keeps hmove).2 o ho
    · subst hij
      exact absurd (List.getElem?_eq_some_iff.mp hp).1 hlt
    · exact ho
  | _ => exact ho

/-- A status becomes terminal only by a write of a terminal status. -/
theorem isTerminal_step (h : w.step cfg e = some w') (ht : w'.status.isTerminal = true) :
    w.status.isTerminal = true ∨ (e = .record none ∧
      ∃ status next, w.phase.write = some (status,next) ∧ status.isTerminal = true) := by
  cases step_move h with
  | wrote hp => exact .inr ⟨rfl,_,_,hp,ht⟩
  | _ => exact .inl ht

end Worker
end Babysit
