import Babysit.ReportedExit

/-! `wait`'s verdict that the owner has crashed, one read of its poll at a time, beside a
worker that records how the session ended and whose process then exits. -/
namespace Babysit

/-- Where `wait` is; each phase is named for what it does next. -/
inductive WaitPhase
  | readStatus
  | readMeta
  | probe
  | pause
  | returned (code : Int32)
  deriving DecidableEq, Repr

namespace WaitPhase

def afterStatus : Option Status → WaitPhase
  | some s =>
    match s.state with
    | .exited => .returned (s.exitCode.getD 0)
    | .killed => .returned (s.exitCode.getD 130)
    | .starting | .running => .readMeta
  | none => .pause

def afterMeta (readable : Bool) : WaitPhase := if readable then .probe else .pause

def afterProbe (ownerAlive : Bool) : WaitPhase := if ¬ownerAlive then .returned 137 else .pause

def afterPause (expired : Bool) : WaitPhase := if expired then .returned 124 else .readStatus

/-- What a whole poll leads to. -/
def afterPoll : Option Int32 → WaitPhase
  | some code => .returned code
  | none => .readStatus

/-- A status that is read gives the verdict's code only if it carries it. -/
theorem afterStatus_crash_iff (s : Status) :
    afterStatus (some s) = .returned 137 ↔ s.isTerminal = true ∧ s.exitCode = some 137 := by
  obtain ⟨state,pid,code⟩ := s
  have hzero : (0 : Int32) ≠ 137 := by decide
  have hterm : (130 : Int32) ≠ 137 := by decide
  cases state <;> cases code <;> simp [afterStatus,State.isTerminal,hzero,hterm]

theorem afterMeta_ne_crash (readable : Bool) : afterMeta readable ≠ .returned 137 := by
  cases readable <;> decide

theorem afterProbe_crash_iff (ownerAlive : Bool) :
    afterProbe ownerAlive = .returned 137 ↔ ownerAlive = false := by
  cases ownerAlive <;> decide

theorem afterPause_ne_crash (expired : Bool) : afterPause expired ≠ .returned 137 := by
  cases expired <;> decide

end WaitPhase

/-- `ownerAlive` is what `is_pid_alive` finds; `recorded` is a ghost: the worker has at some
time recorded a terminal status. -/
structure WaitWorld where
  worker : Worker
  ownerAlive : Bool
  recorded : Bool
  wait : WaitPhase

inductive WaitEvent
  | worker (e : WorkerEvent)
  | ownerExits
  | readsStatus (readable : Bool)
  | readsMeta (readable : Bool)
  | probes
  | pauses (expired : Bool)

namespace WaitWorld

def start : WaitWorld := ⟨.start,true,false,.readStatus⟩

def step (cfg : WorkerConfig) (w : WaitWorld) : WaitEvent → Option WaitWorld
  | .worker e => (w.worker.step cfg e).map fun worker =>
    { w with worker := worker, recorded := w.recorded || worker.status.isTerminal }
  | .ownerExits =>
    if w.ownerAlive ∧ ¬w.worker.phase.isRunning then some { w with ownerAlive := false } else none
  | .readsStatus readable =>
    if w.wait = .readStatus then
      some { w with wait := .afterStatus (w.worker.readStatus readable) }
    else none
  | .readsMeta readable =>
    if w.wait = .readMeta then some { w with wait := .afterMeta readable } else none
  | .probes =>
    if w.wait = .probe then some { w with wait := .afterProbe w.ownerAlive } else none
  | .pauses expired =>
    if w.wait = .pause then some { w with wait := .afterPause expired } else none

/-- The verdict 137 is given only of an owner that is gone and has never recorded a terminal
status. -/
def CrashReal (w : WaitWorld) : Prop :=
  w.wait = .returned 137 → w.ownerAlive = false ∧ w.recorded = false

/-- A terminal status that is read does not carry the code 137 itself; and an owner that is
probed and gone has no terminal status on record by then. -/
def Conclusive (w : WaitWorld) : WaitEvent → Prop
  | .readsStatus readable =>
    ∀ s ∈ w.worker.readStatus readable,s.isTerminal = true → s.exitCode ≠ some 137
  | .probes => w.ownerAlive = false → w.worker.status.isTerminal = false
  | _ => True

end WaitWorld

namespace WaitWorld
variable {cfg : WorkerConfig} {w w' : WaitWorld}

/-- A poll that nothing comes between is `waitPoll`. -/
theorem exec_poll (cfg : WorkerConfig) (hw : w.wait = .readStatus)
    (readable readableMeta expired : Bool) :
    ∃ es, Transition.exec (step cfg) w es = some { w with
      wait := .afterPoll (waitPoll (w.worker.readStatus readable)
        (readableMeta && !w.ownerAlive) expired) } := by
  have hlive : ∀ s, WaitPhase.afterStatus (some s) = .readMeta →
      waitPoll (some s) (readableMeta && !w.ownerAlive) expired =
        if readableMeta && !w.ownerAlive then some 137 else if expired then some 124 else none := by
    intro s hs
    unfold WaitPhase.afterStatus at hs
    unfold waitPoll
    cases hstate : s.state <;> simp [hstate] at hs ⊢
    all_goals split <;> rfl
  cases hs : w.worker.readStatus readable with
  | none =>
    refine ⟨[.readsStatus readable,.pauses expired],?_⟩
    cases expired <;> simp [step,hw,hs,WaitPhase.afterStatus,waitPoll,WaitPhase.afterPause,
      WaitPhase.afterPoll]
  | some s =>
    cases hafter : WaitPhase.afterStatus (some s) with
    | readMeta =>
      rw [hlive s hafter]
      cases readableMeta with
      | false =>
        refine ⟨[.readsStatus readable,.readsMeta false,.pauses expired],?_⟩
        cases expired <;> simp [step,hw,hs,hafter,WaitPhase.afterMeta,WaitPhase.afterPause,
          WaitPhase.afterPoll]
      | true =>
        cases halive : w.ownerAlive with
        | false =>
          refine ⟨[.readsStatus readable,.readsMeta true,.probes],?_⟩
          simp [step,hw,hs,hafter,halive,WaitPhase.afterMeta,WaitPhase.afterProbe,
            WaitPhase.afterPoll]
        | true =>
          refine ⟨[.readsStatus readable,.readsMeta true,.probes,.pauses expired],?_⟩
          cases expired <;> simp [step,hw,hs,hafter,halive,WaitPhase.afterMeta,
            WaitPhase.afterProbe,WaitPhase.afterPause,WaitPhase.afterPoll]
    | returned code =>
      refine ⟨[.readsStatus readable],?_⟩
      unfold WaitPhase.afterStatus at hafter
      unfold waitPoll
      cases hstate : s.state <;> simp [hstate] at hafter ⊢
      all_goals simp [step,hw,hs,WaitPhase.afterStatus,hstate,WaitPhase.afterPoll]
    | readStatus | probe | pause =>
      unfold WaitPhase.afterStatus at hafter
      cases hstate : s.state <;> simp [hstate] at hafter

/-- What a step can do, one constructor for each event. -/
inductive Move (cfg : WorkerConfig) (w : WaitWorld) : WaitEvent → WaitWorld → Prop
  | worker {e worker} : w.worker.step cfg e = some worker → Move cfg w (.worker e)
      { w with worker := worker, recorded := w.recorded || worker.status.isTerminal }
  | ownerExits : w.worker.phase.isRunning = false →
      Move cfg w .ownerExits { w with ownerAlive := false }
  | readsStatus {readable} : Move cfg w (.readsStatus readable)
      { w with wait := .afterStatus (w.worker.readStatus readable) }
  | readsMeta {readable} : Move cfg w (.readsMeta readable) { w with wait := .afterMeta readable }
  | probes : Move cfg w .probes { w with wait := .afterProbe w.ownerAlive }
  | pauses {expired} : Move cfg w (.pauses expired) { w with wait := .afterPause expired }

theorem step_move {e : WaitEvent} (h : step cfg w e = some w') : w.Move cfg e w' := by
  cases e with
  | worker e =>
    obtain ⟨worker,hworker,rfl⟩ := Option.map_eq_some_iff.mp h
    exact .worker hworker
  | ownerExits =>
    simp only [step] at h
    split_ifs at h with hexits
    obtain rfl := Option.some.inj h
    exact .ownerExits (by simpa using hexits.2)
  | readsStatus readable =>
    simp only [step] at h
    split_ifs at h
    obtain rfl := Option.some.inj h
    exact .readsStatus
  | readsMeta readable =>
    simp only [step] at h
    split_ifs at h
    obtain rfl := Option.some.inj h
    exact .readsMeta
  | probes =>
    simp only [step] at h
    split_ifs at h
    obtain rfl := Option.some.inj h
    exact .probes
  | pauses expired =>
    simp only [step] at h
    split_ifs at h
    obtain rfl := Option.some.inj h
    exact .pauses

structure Good (w : WaitWorld) : Prop where
  settled : w.worker.Settled
  recorded : w.recorded = w.worker.status.isTerminal
  gone : w.ownerAlive = false → w.worker.phase.isRunning = false
  crashReal : w.CrashReal

theorem good_start : start.Good :=
  ⟨Worker.settled_start,rfl,by rintro ⟨⟩,by rintro ⟨⟩⟩

/-- A worker that is gone keeps what it has recorded, and stays gone. -/
theorem gone_step {worker worker' : Worker} {e : WorkerEvent}
    (h : worker.step cfg e = some worker') (hgone : worker.phase.isRunning = false) :
    worker'.phase.isRunning = false ∧ worker'.status = worker.status := by
  have hend : worker.phase.isEnding = true := by
    cases hp : worker.phase <;> rw [hp] at hgone <;> first | rfl | cases hgone
  refine ⟨?_,(Worker.isEnding_step h hend).2⟩
  cases Worker.step_move h with
  | request => exact hgone
  | pane => exact hgone
  | left | died => rfl
  | wrote hp | writeFailed hp =>
    rw [Worker.isEnding_of_write hp] at hend
    cases hend
  | drained hp | spawned hp | respawned hp | spawnFailed hp | respawnFailed hp | served hp
  | setupFailed hp | timeout hp | idle hp | restart hp | kill hp | exitNotified hp | called hp
  | terminated hp =>
    rw [hp] at hgone
    cases hgone

/-- What is recorded has been recorded once and for all. -/
theorem Good.worker (h : w.Good) {worker : Worker} {e : WorkerEvent}
    (hstep : w.worker.step cfg e = some worker) :
    Good { w with worker := worker, recorded := w.recorded || worker.status.isTerminal } := by
  have hrecorded : (w.recorded || worker.status.isTerminal) = worker.status.isTerminal := by
    cases ht : w.worker.status.isTerminal with
    | false => rw [h.recorded,ht,Bool.false_or]
    | true => rw [(Worker.isEnding_step hstep (h.settled ht)).2,h.recorded,ht,Bool.true_or]
  refine ⟨h.settled.step hstep,hrecorded,fun hgone => (gone_step hstep (h.gone hgone)).1,?_⟩
  intro hreturned
  obtain ⟨hgone,hnever⟩ := h.crashReal hreturned
  refine ⟨hgone,?_⟩
  rw [hrecorded,(gone_step hstep (h.gone hgone)).2,← h.recorded]
  exact hnever

/-- The poll goes on. -/
theorem Good.polled (h : w.Good) {phase : WaitPhase}
    (hverdict : phase = .returned 137 → w.ownerAlive = false ∧ w.recorded = false) :
    Good { w with wait := phase } :=
  ⟨h.settled,h.recorded,h.gone,hverdict⟩

theorem good_step (w : WaitWorld) (e : WaitEvent) (w' : WaitWorld) (h : step cfg w e = some w')
    (hc : w.Conclusive e) (hw : w.Good) : w'.Good := by
  cases step_move h with
  | worker hworker => exact hw.worker hworker
  | ownerExits hstopped =>
    refine ⟨hw.settled,hw.recorded,fun _ => hstopped,fun hreturned => ?_⟩
    exact ⟨rfl,(hw.crashReal hreturned).2⟩
  | @readsStatus readable =>
    apply hw.polled
    intro hverdict
    cases hs : w.worker.readStatus readable with
    | none =>
      rw [hs] at hverdict
      cases hverdict
    | some s =>
      rw [hs,WaitPhase.afterStatus_crash_iff] at hverdict
      exact absurd hverdict.2 (hc s hs hverdict.1)
  | readsMeta =>
    apply hw.polled
    exact fun hverdict => absurd hverdict (WaitPhase.afterMeta_ne_crash _)
  | probes =>
    apply hw.polled
    intro hverdict
    have hgone := (WaitPhase.afterProbe_crash_iff _).mp hverdict
    rw [hw.recorded]
    exact ⟨hgone,hc hgone⟩
  | pauses =>
    apply hw.polled
    exact fun hverdict => absurd hverdict (WaitPhase.afterPause_ne_crash _)

/-- An inconclusive read ends in a verdict that a terminal status stands against. -/
theorem not_crashReal (w : WaitWorld) (e : WaitEvent) (w' : WaitWorld)
    (h : step cfg w e = some w') (hc : ¬w.Conclusive e) (hw : w.Good) : ¬w'.CrashReal := by
  cases step_move h with
  | @readsStatus readable =>
    simp only [Conclusive,not_forall,not_not] at hc
    obtain ⟨s,hs,hterminal,hcode⟩ := hc
    have hs : w.worker.readStatus readable = some s := hs
    have hstatus : w.worker.status = s := by
      cases readable with
      | false => cases hs
      | true => exact Option.some.inj hs
    intro hreal
    have hnever := (hreal (by
      rw [hs]
      exact (WaitPhase.afterStatus_crash_iff s).mpr ⟨hterminal,hcode⟩)).2
    dsimp only at hnever
    rw [hw.recorded,hstatus,hterminal] at hnever
    cases hnever
  | probes =>
    simp only [Conclusive,Classical.not_imp,Bool.not_eq_false] at hc
    obtain ⟨hgone,hterminal⟩ := hc
    intro hreal
    have hnever := (hreal ((WaitPhase.afterProbe_crash_iff _).mpr hgone)).2
    dsimp only at hnever
    rw [hw.recorded,hterminal] at hnever
    cases hnever
  | worker | ownerExits | readsMeta | pauses => exact absurd trivial hc

/-- The verdict is right throughout a run exactly when every read it rests on is
conclusive. -/
theorem always_crashReal_iff (cfg : WorkerConfig) (es : List WaitEvent) :
    Transition.Always (step cfg) CrashReal start es ↔
      Transition.Meets (step cfg) Conclusive start es :=
  Transition.always_iff_meets (fun _ hw => hw.crashReal) good_step not_crashReal good_start es

/-- The command exits with 0 while `wait`, which has read `running`, goes on to the owner. -/
def finishedBetweenRun : List WaitEvent :=
  [.worker (.spawned none),.worker (.record none),.worker (.served none),.readsStatus true,
    .worker (.pane 0 (.exits (.exited 0))),.worker (.pane 0 .reaped),.worker (.pane 0 .notifies),
    .worker .exitNotified,.worker (.record none),.worker .drained,.worker .left,.ownerExits,
    .readsMeta true,.probes]

theorem finished_between_reports_crash : ∃ w,
    Transition.exec (step ⟨false,false⟩) start finishedBetweenRun = some w ∧
    w.worker.status = ⟨.exited,none,some 0⟩ ∧ w.wait = .returned 137 ∧ ¬w.CrashReal := by
  refine ⟨_,rfl,rfl,rfl,fun hreal => ?_⟩
  obtain ⟨-,hnever⟩ := hreal rfl
  revert hnever
  decide

end WaitWorld
end Babysit
