import Babysit.Worker

/-! What clients are told of their kill requests. A terminal status is the last thing a
worker records and the last command it has spawned stays the last; a client is told of a
kill only when `killed` is on record. -/
namespace Babysit

/-- The data of a successful response to a kill request. -/
structure KillData where
  killed : Bool
  confirmed : Bool
  escalated : Bool
  state : State
  exitCode : Option Int32
  deriving DecidableEq, Repr

/-- A state as `{:?}` prints it. -/
def State.debug : State → String
  | .starting => "Starting"
  | .running => "Running"
  | .exited => "Exited"
  | .killed => "Killed"

/-- `kill_race_error` at one poll of the status: an error, or another poll. -/
def killRaceError (status : Except String State) (expired : Bool) : Option String :=
  match status with
  | .error error => some error
  | .ok state =>
    if state.isTerminal then
      some ("session finished before kill request could be applied (state=" ++ state.debug ++ ")")
    else if expired then some "kill ended without a persisted terminal state"
    else none

/-- The error of a request without a reply: where the reply has not come in time, the client
is shown the context only. -/
def unansweredError (timedOut : Bool) (error : String) : String :=
  if timedOut then "timed out waiting for kill confirmation" else error

/-- What `dispatch` makes of the worker's reply. -/
def killResponse : KillReply → Except String KillData
  | .killed escalated state exitCode => .ok ⟨true,true,escalated,state,exitCode⟩
  | .refused error => .error error

structure KillWorld where
  worker : Worker
  answers : List (Except String KillData)

/-- A client gets the worker's reply; or its reply has been dropped, or has not come in
time, and it polls the status, which it may fail to read; or its message finds the event loop
gone. -/
inductive KillEvent
  | worker (e : WorkerEvent)
  | answered (i : ℕ)
  | unanswered (timedOut : Bool) (fails : Option String) (expired : Bool)
  | unsent

namespace KillWorld

def start : KillWorld := ⟨.start,[]⟩

/-- The status as `read_status` finds it. -/
def readStatus (w : KillWorld) (fails : Option String) : Except String State :=
  match fails with
  | none => .ok w.worker.status.state
  | some error => .error error

def step (cfg : WorkerConfig) (w : KillWorld) : KillEvent → Option KillWorld
  | .worker e => (w.worker.step cfg e).map fun worker => { w with worker := worker }
  | .answered i => (w.worker.replies[i]?).map fun reply =>
    { w with answers := w.answers ++ [killResponse reply] }
  | .unanswered timedOut fails expired =>
    (killRaceError (w.readStatus fails) expired).map fun error =>
      { w with answers := w.answers ++ [.error (unansweredError timedOut error)] }
  | .unsent =>
    if w.worker.phase.isRunning then none
    else some { w with answers := w.answers ++ [.error "main loop is gone"] }

end KillWorld

namespace Worker
variable {cfg : WorkerConfig} {w w' : Worker} {e : WorkerEvent}

/-- A confirmed kill is on record. -/
def Backed (w : Worker) : Prop :=
  ∀ escalated state code, KillReply.killed escalated state code ∈ w.replies →
    state = .killed ∧ w.status.state = .killed

theorem backed_start : start.Backed := by
  intro escalated state code h
  cases h

/-- Behind a terminal status the worker records nothing and spawns nothing. -/
theorem terminal_step (hw : w.Settled) (h : w.step cfg e = some w')
    (ht : w.status.isTerminal = true) :
    w'.status = w.status ∧ w'.panes.length = w.panes.length := by
  have hend := hw ht
  refine ⟨(isEnding_step h hend).2,?_⟩
  cases step_move h with
  | spawned hp | respawned hp | spawnFailed hp | respawnFailed hp =>
    rw [hp] at hend
    cases hend
  | pane => exact List.length_set
  | _ => rfl

theorem killed_isTerminal {status : Status} (h : status.state = .killed) :
    status.isTerminal = true := by
  rw [Status.isTerminal,h]
  rfl

/-- Only the write for a kill is followed by its confirmation. -/
theorem reply_killed {phase next : WorkerPhase} {status : Status}
    (hwrite : phase.write = some (status,next)) {escalated : Bool} {state : State}
    {code : Option Int32} (h : KillReply.killed escalated state code ∈ phase.reply) :
    state = .killed ∧ status.state = .killed := by
  cases phase with
  | recordingKill t =>
    obtain ⟨rfl,-⟩ := Prod.ext_iff.mp (Option.some.inj hwrite)
    cases hsent : t.signalSent with
    | false => simp [WorkerPhase.reply,hsent] at h
    | true =>
      simp only [WorkerPhase.reply,hsent,if_true,List.mem_singleton,KillReply.killed.injEq] at h
      have hkilled : WorkerPhase.killState t = .killed := by simp [WorkerPhase.killState,hsent]
      exact ⟨h.2.1.trans hkilled,hkilled⟩
  | _ => cases h

theorem terminatedReply_killed {cause : Cause} {result : Except String Termination}
    {escalated : Bool} {state : State} {code : Option Int32} :
    KillReply.killed escalated state code ∉ WorkerPhase.terminatedReply cause result := by
  intro h
  cases cause <;> cases result <;> simp [WorkerPhase.terminatedReply] at h

theorem Backed.step (hb : w.Backed) (hw : w.Settled) (h : w.step cfg e = some w') :
    w'.Backed := by
  have hkeep : ∀ escalated state code, KillReply.killed escalated state code ∈ w.replies →
      state = .killed ∧ w'.status.state = .killed := by
    intro escalated state code hold
    obtain ⟨hstate,hkilled⟩ := hb escalated state code hold
    rw [(terminal_step hw h (killed_isTerminal hkilled)).1]
    exact ⟨hstate,hkilled⟩
  intro escalated state code hmem
  cases step_move h with
  | terminated =>
    rcases List.mem_append.mp hmem with hold | hnew
    · exact hkeep _ _ _ hold
    · exact absurd hnew terminatedReply_killed
  | wrote hp =>
    rcases List.mem_append.mp hmem with hold | hnew
    · exact hkeep _ _ _ hold
    · exact reply_killed hp hnew
  | _ => exact hkeep _ _ _ hmem

end Worker

namespace KillWorld
variable {cfg : WorkerConfig} {w w' u : KillWorld}

structure Good (w : KillWorld) : Prop where
  settled : w.worker.Settled
  backed : w.worker.Backed
  answers : ∀ d, .ok d ∈ w.answers → d.state = .killed ∧ w.worker.status.state = .killed

theorem good_start : start.Good :=
  ⟨Worker.settled_start,Worker.backed_start,by simp [start]⟩

/-- An error tells the client nothing. -/
theorem Good.refused (h : w.Good) (error : String) :
    Good { w with answers := w.answers ++ [.error error] } := by
  refine ⟨h.settled,h.backed,?_⟩
  intro d hd
  rcases List.mem_append.mp hd with hold | hnew
  · exact h.answers d hold
  · simp at hnew

theorem good_step (w : KillWorld) (e : KillEvent) (w' : KillWorld)
    (hstep : w.step cfg e = some w') (h : w.Good) : w'.Good := by
  cases e with
  | worker e =>
    obtain ⟨worker,hworker,rfl⟩ := Option.map_eq_some_iff.mp hstep
    refine ⟨h.settled.step hworker,h.backed.step h.settled hworker,?_⟩
    intro d hd
    obtain ⟨hstate,hkilled⟩ := h.answers d hd
    dsimp only
    rw [(Worker.terminal_step h.settled hworker (Worker.killed_isTerminal hkilled)).1]
    exact ⟨hstate,hkilled⟩
  | answered i =>
    obtain ⟨reply,hreply,rfl⟩ := Option.map_eq_some_iff.mp hstep
    refine ⟨h.settled,h.backed,?_⟩
    intro d hd
    rcases List.mem_append.mp hd with hold | hnew
    · exact h.answers d hold
    · cases reply with
      | refused error => simp [killResponse] at hnew
      | killed escalated state code =>
        obtain rfl := Except.ok.inj (List.mem_singleton.mp hnew)
        exact h.backed escalated state code (List.mem_of_getElem? hreply)
  | unanswered timedOut fails expired =>
    obtain ⟨error,-,rfl⟩ := Option.map_eq_some_iff.mp hstep
    exact h.refused _
  | unsent =>
    simp only [step] at hstep
    split_ifs at hstep
    obtain rfl := Option.some.inj hstep
    exact h.refused _

/-- From any state with a terminal status on record, a run leaves the record and the
number of spawned commands alone. -/
theorem terminal_run (hw : w.Good) {es : List KillEvent}
    (hrun : Transition.exec (step cfg) w es = some u) (ht : w.worker.status.isTerminal = true) :
    u.worker.status = w.worker.status ∧ u.worker.panes.length = w.worker.panes.length := by
  have hinv : u.Good ∧ u.worker.status = w.worker.status ∧
      u.worker.panes.length = w.worker.panes.length := by
    refine Transition.invariant (I := fun v : KillWorld => v.Good ∧
      v.worker.status = w.worker.status ∧ v.worker.panes.length = w.worker.panes.length)
      ?_ hrun ⟨hw,rfl,rfl⟩
    rintro v e v' hstep ⟨hgood,hstatus,hpanes⟩
    refine ⟨good_step v e v' hstep hgood,?_⟩
    cases e with
    | worker e =>
      obtain ⟨worker,hworker,rfl⟩ := Option.map_eq_some_iff.mp hstep
      rw [← hstatus] at ht
      obtain ⟨hs,hp⟩ := Worker.terminal_step hgood.settled hworker ht
      exact ⟨hs.trans hstatus,hp.trans hpanes⟩
    | answered i =>
      obtain ⟨reply,-,rfl⟩ := Option.map_eq_some_iff.mp hstep
      exact ⟨hstatus,hpanes⟩
    | unanswered timedOut fails expired =>
      obtain ⟨error,-,rfl⟩ := Option.map_eq_some_iff.mp hstep
      exact ⟨hstatus,hpanes⟩
    | unsent =>
      simp only [step] at hstep
      split_ifs at hstep
      obtain rfl := Option.some.inj hstep
      exact ⟨hstatus,hpanes⟩
  exact hinv.2

/-- In every run a terminal status on record is final and ends the spawning of commands;
and where a client has been told of a kill, `killed` is on record, and stays there. -/
theorem terminal_status_final (cfg : WorkerConfig) (es fs : List KillEvent)
    (hw : Transition.exec (step cfg) start es = some w)
    (hu : Transition.exec (step cfg) w fs = some u) :
    (w.worker.status.isTerminal = true →
      u.worker.status = w.worker.status ∧ u.worker.panes.length = w.worker.panes.length) ∧
    ∀ d, .ok d ∈ w.answers →
      d.state = .killed ∧ w.worker.status.state = .killed ∧ u.worker.status = w.worker.status := by
  have hgood : w.Good := Transition.invariant good_step hw good_start
  refine ⟨terminal_run hgood hu,fun d hd => ?_⟩
  obtain ⟨hstate,hkilled⟩ := hgood.answers d hd
  exact ⟨hstate,hkilled,(terminal_run hgood hu (Worker.killed_isTerminal hkilled)).1⟩

/-- A kill with a restart queued behind it. -/
def killedRun : List KillEvent :=
  [.worker (.spawned none),.worker (.record none),.worker (.served none),.worker (.request .kill),
    .worker (.request .restart),.worker .receive,.worker (.os .proceed),
    .worker (.os (.signalled none)),.worker (.pane 0 (.exits .signaled)),
    .worker (.pane 0 .reaped),.worker (.os .waited),.worker (.os (.probed (.ok false))),
    .worker (.record none),.answered 0]

def killedWorld : KillWorld :=
  ⟨⟨.draining (some ⟨none,true⟩),⟨.killed,none,none⟩,[⟨none,some .signaled,some ⟨none,true⟩,false⟩],
    [.restart],[.killed false .killed none],none⟩,[.ok ⟨true,true,false,.killed,none⟩]⟩

theorem terminal_status_final_killed : ∃ u,
    Transition.exec (step ⟨false,false⟩) killedWorld [.worker .drained,.worker .left] = some u ∧
    (killedWorld.worker.status.isTerminal = true → u.worker.status = killedWorld.worker.status ∧
      u.worker.panes.length = killedWorld.worker.panes.length) ∧
    ∀ d, .ok d ∈ killedWorld.answers → d.state = .killed ∧
      killedWorld.worker.status.state = .killed ∧ u.worker.status = killedWorld.worker.status :=
  ⟨_,rfl,terminal_status_final ⟨false,false⟩ killedRun [.worker .drained,.worker .left] rfl rfl⟩

end KillWorld
end Babysit
