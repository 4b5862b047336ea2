import Babysit.Worker

/-! Whether every return of the worker leaves a terminal status. Failures of the set-up are
recorded; a failure that leaves the event loop through `?` is not. -/
namespace Babysit
namespace Worker

/-- A worker that has returned has recorded how the session ended. -/
def EndingRecorded (w : Worker) : Prop :=
  match w.phase with
  | .returned _ => w.status.isTerminal = true
  | _ => True

/-- The status write of the step, if it is one, succeeds. -/
def WriteSucceeds (_ : Worker) : WorkerEvent → Prop
  | .record (some _) => False
  | _ => True

/-- The step does not fail inside the event loop: no command fails to spawn at a restart, and
no termination fails for a timeout, an idle timeout or a restart. -/
def LoopSucceeds (w : Worker) : WorkerEvent → Prop
  | .spawnFailed _ _ =>
    match w.phase with
    | .respawning => False
    | _ => True
  | .os a =>
    match w.phase with
    | .terminating .timeout phase | .terminating .idleTimeout phase
    | .terminating .restart phase => ¬phase.Fails w.exitInfo a
    | _ => True
  | _ => True

instance (w : Worker) : (e : WorkerEvent) → Decidable (w.WriteSucceeds e)
  | .record (some _) => .isFalse id
  | .record none | .spawned _ | .spawnFailed _ _ | .served _ | .request _ | .timeout | .idle
  | .receive | .exitNotified | .os _ | .drained | .left | .died | .pane _ _ => .isTrue trivial

/-- What the persisted state is in each phase. -/
def StatusFits (w : Worker) : Prop :=
  match w.phase with
  | .spawning | .recordingSpawnFailure _ | .recordingRunning _ => w.status.state = .starting
  | .serving | .looping | .terminating _ _ | .recordingSetupFailure _ | .respawning
  | .recordingRestart _ | .recordingKill _ | .finalizing _ _ => w.status.state = .running
  | .draining _ | .closing | .returned _ => w.status.isTerminal = true
  | .died => True

variable {cfg : WorkerConfig} {w w' : Worker}

theorem StatusFits.endingRecorded (h : w.StatusFits) : w.EndingRecorded := by
  unfold EndingRecorded
  unfold StatusFits at h
  split at h <;> simp_all

theorem statusFits_start : start.StatusFits := rfl

theorem statusFits_step (w : Worker) (e : WorkerEvent) (w' : Worker)
    (hstep : w.step cfg e = some w') (hwrite : w.WriteSucceeds e) (hloop : w.LoopSucceeds e)
    (h : w.StatusFits) : w'.StatusFits := by
  unfold StatusFits at h
  cases step_move hstep with
  | spawned hp | respawned hp | spawnFailed hp | served hp | setupFailed hp | timeout hp | idle hp
  | restart hp | kill hp | exitNotified hp | drained hp | left hp =>
    rw [hp] at h
    exact h
  | respawnFailed hp =>
    simp only [LoopSucceeds,hp] at hloop
  | request | pane => exact h
  | called hp =>
    rw [hp] at h
    exact h
  | terminated hp hresult =>
    rename_i cause phase result a
    rw [hp] at h
    have hok : ¬phase.Fails w.exitInfo a → ∃ t, result = .ok t := by
      intro hfails
      cases result with
      | ok t => exact ⟨t,rfl⟩
      | error e => exact absurd ((TermPhase.step_error_iff hresult).mpr ⟨e,rfl⟩) hfails
    unfold LoopSucceeds at hloop
    rw [hp] at hloop
    cases cause with
    | timeout | idleTimeout | restart =>
      obtain ⟨t,rfl⟩ := hok hloop
      exact h
    | kill =>
      cases result <;> exact h
    | setupFailure error => exact h
  | wrote hp =>
    unfold WorkerPhase.write at hp
    split at hp <;> cases hp
    · rfl
    · rfl
    · rfl
    · rfl
    · simp only [StatusFits,Status.isTerminal_mk,WorkerPhase.killState]
      split_ifs <;> rfl
    · simp only [StatusFits,Status.isTerminal_mk]
      split_ifs <;> rfl
  | writeFailed => exact absurd hwrite id
  | died => trivial

/-- A failure inside the event loop returns with `running` on record. -/
theorem not_endingRecorded (w : Worker) (e : WorkerEvent) (w' : Worker)
    (hstep : w.step cfg e = some w') (hloop : ¬w.LoopSucceeds e) (h : w.StatusFits) :
    ¬w'.EndingRecorded := by
  have hrunning : w.status.state = .running → ¬w.status.isTerminal = true := by
    intro hstate
    simp [Status.isTerminal,hstate,State.isTerminal]
  unfold StatusFits at h
  cases step_move hstep with
  | respawnFailed hp =>
    rw [hp] at h
    exact hrunning h
  | spawnFailed hp => exact absurd (by simp [LoopSucceeds,hp]) hloop
  | called hp hnext =>
    have := TermPhase.not_fails_of_step hnext
    refine absurd ?_ hloop
    simp only [LoopSucceeds,hp]
    split <;> simp_all
  | terminated hp hresult =>
    rename_i cause phase result a
    rw [hp] at h
    unfold LoopSucceeds at hloop
    rw [hp] at hloop
    have hfails : phase.Fails w.exitInfo a := by
      cases cause <;> simp_all
    obtain ⟨error,rfl⟩ := (TermPhase.step_error_iff hresult).mp hfails
    cases cause with
    | timeout | idleTimeout | restart => exact hrunning h
    | kill => exact absurd trivial hloop
    | setupFailure first => exact absurd trivial hloop
  | _ => exact absurd trivial hloop

/-- Given that status writes succeed, every return of the worker leaves a terminal status
exactly when nothing fails inside the event loop but the termination for a kill. -/
theorem always_endingRecorded_iff (cfg : WorkerConfig) (es : List WorkerEvent)
    (hwrites : Transition.Meets (step cfg) WriteSucceeds start es) :
    Transition.Always (step cfg) EndingRecorded start es ↔
      Transition.Meets (step cfg) LoopSucceeds start es :=
  Transition.always_iff_meets_given (fun _ h => StatusFits.endingRecorded h) statusFits_step
    (fun w e w' hstep _ => not_endingRecorded w e w' hstep) statusFits_start hwrites

/-- A command that runs and exits by itself. -/
def plainRun : List WorkerEvent :=
  [.spawned none,.record none,.served none,.pane 0 (.exits (.exited 0)),.pane 0 .reaped,
    .pane 0 .notifies,.exitNotified,.record none,.drained,.left]

theorem always_endingRecorded_iff_plain :
    Transition.Always (step ⟨false,false⟩) EndingRecorded start plainRun ↔
      Transition.Meets (step ⟨false,false⟩) LoopSucceeds start plainRun :=
  always_endingRecorded_iff ⟨false,false⟩ plainRun (by decide +kernel)

/-- A restart that finds the program gone. -/
def failedRestart : List WorkerEvent :=
  [.spawned none,.record none,.served none,.request .restart,.receive,.os .proceed,
    .os (.signalled none),.pane 0 (.exits .signaled),.pane 0 .reaped,.os .waited,
    .os (.probed (.ok false)),.spawnFailed none "No such file or directory"]

theorem failed_restart_stays_running : ∃ w,
    Transition.exec (step ⟨false,false⟩) start failedRestart = some w ∧
      w.phase = .returned (.error "No such file or directory") ∧ w.status.state = .running ∧
      ¬w.EndingRecorded :=
  ⟨_,rfl,rfl,rfl,Bool.false_ne_true⟩

end Worker
end Babysit
