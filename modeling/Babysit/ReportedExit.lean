import Babysit.ExitCode
import Babysit.Worker

/-! The exit codes that `wait` and the attach clients report, beside any run of the worker.
A report of success is real as long as what it reads has an exit code to report. -/
namespace Babysit

/-- One poll of `wait`: what it returns, if it does. `ownerDead` is the probe of the worker's
process id. -/
def waitPoll (status : Option Status) (ownerDead expired : Bool) : Option Int32 :=
  let reported := match status with
    | some s =>
      match s.state with
      | .exited => some (s.exitCode.getD 0)
      | .killed => some (s.exitCode.getD 130)
      | .starting | .running => if ownerDead then some 137 else none
    | none => none
  reported.or (if expired then some 124 else none)

/-- A returned exit code. The ghost `last` is what has become of the last command then. -/
structure Report where
  code : Int32
  last : Option Outcome
  deriving DecidableEq, Repr

structure ReportWorld where
  worker : Worker
  reports : List Report

/-- A report of `wait`, or of an attach client: by the worker's exit frame, after its socket
has closed, by the fallback for a finished session, and by the bridge of one. `readable`
tells whether `status.json` can be read. -/
inductive ReportEvent
  | worker (e : WorkerEvent)
  | wait (readable ownerDead expired : Bool)
  | exitFrame
  | socketClosed (readable : Bool)
  | fallback (readable : Bool)
  | bridge

/-- What has become of the last command the worker spawned. -/
def Worker.lastOutcome (w : Worker) : Option Outcome := w.currentPane.bind Pane.outcome

/-- What reading `status.json` gives. -/
def Worker.readStatus (w : Worker) (readable : Bool) : Option Status :=
  if readable then some w.status else none

namespace ReportWorld

def start : ReportWorld := ⟨.start,[]⟩

def report (w : ReportWorld) (code : Int32) : ReportWorld :=
  { w with reports := w.reports ++ [⟨code,w.worker.lastOutcome⟩] }

def step (cfg : WorkerConfig) (w : ReportWorld) : ReportEvent → Option ReportWorld
  | .worker e => (w.worker.step cfg e).map fun worker => { w with worker := worker }
  | .wait readable ownerDead expired =>
    (waitPoll (w.worker.readStatus readable) ownerDead expired).map w.report
  | .exitFrame => w.worker.exitSent.map fun info => w.report (parseExit (exitPayload (some info)))
  | .socketClosed readable => some (w.report (exitCodeFromStatus (w.worker.readStatus readable)))
  | .fallback readable =>
    if w.worker.status.isTerminal then
      some (w.report (exitCodeFromStatus (w.worker.readStatus readable)))
    else none
  | .bridge =>
    if w.worker.status.isTerminal then
      some (w.report (parseExit (exitPayload
        (some ⟨w.worker.status.exitCode,w.worker.status.state = .killed⟩))))
    else none

/-- Whoever reported success, the last command had exited with code 0 by then. -/
def SuccessReal (w : ReportWorld) : Prop :=
  ∀ r ∈ w.reports, r.code = 0 → r.last = some (.exited 0)

/-- What the report reads has an exit code, or says that the command was killed. -/
def HasRecord (w : ReportWorld) : ReportEvent → Prop
  | .worker _ => True
  | .wait readable _ _ => ∀ s ∈ w.worker.readStatus readable,s.state = .exited → s.exitCode ≠ none
  | .exitFrame => ∀ i ∈ w.worker.exitSent,i.code ≠ none ∨ i.signaled = true
  | .socketClosed readable | .fallback readable =>
    ∃ s ∈ w.worker.readStatus readable,s.exitCode ≠ none ∨ s.state = .killed
  | .bridge => w.worker.status.exitCode ≠ none ∨ w.worker.status.state = .killed

/-- A report has a record to go by, or the command did exit with code 0. -/
def ReportsRecord (w : ReportWorld) (e : ReportEvent) : Prop :=
  w.HasRecord e ∨ w.worker.lastOutcome = some (.exited 0)

end ReportWorld

/-- The exit information a phase carries. -/
def WorkerPhase.info : WorkerPhase → Option ExitInfo
  | .terminating _ phase => phase.info
  | .recordingKill t => some t.info
  | .finalizing info _ | .draining info => info
  | _ => none

/-- Exit code 0 is recorded of a command only if it exited with 0. -/
def Pane.Honest (p : Pane) : Prop :=
  ∀ i, p.exitInfo = some i → i.code = some 0 → p.outcome = some (.exited 0)

/-- Exit code 0 is on record, in the status or for the attached clients, only if the last
command exited with 0 and stays the last. -/
structure Worker.Honest (w : Worker) : Prop where
  panes : ∀ p ∈ w.panes, p.Honest
  phase : ∀ i ∈ w.phase.info, w.exitInfo = some i
  status : w.status.exitCode = some 0 → w.phase.isEnding = true ∧ w.lastOutcome = some (.exited 0)
  sent : ∀ i ∈ w.exitSent, i.code = some 0 →
    w.phase.isEnding = true ∧ w.lastOutcome = some (.exited 0)

theorem exitInfoOf_zero {o : Option Outcome} (h : (exitInfoOf o).code = some 0) :
    o = some (.exited 0) := by
  rcases o with _ | ⟨code⟩ | _
  · cases h
  · simp only [exitInfoOf] at h
    split_ifs at h with hlt
    obtain rfl : code = 0 := congrArg Int32.toUInt32 (Option.some.inj h)
    rfl
  · cases h

namespace Pane
variable {p p' : Pane} {e : PaneEvent}

theorem honest_spawned (pid : Option UInt32) : (Pane.spawned pid).Honest := by
  intro i hi
  cases hi

theorem Honest.step (hp : p.Honest) (h : p.step e = some p') : p'.Honest := by
  intro i hi hzero
  unfold Pane.step at h
  split at h
  · split_ifs at h with hnone
    cases h
    have := hp i hi hzero
    rw [hnone] at this
    cases this
  · split at h <;> cases h
    next outcome houtcome hinfo =>
      cases hi
      exact houtcome.trans (exitInfoOf_zero hzero)
  · split_ifs at h
    cases h
    cases hi
    cases hzero
  · split_ifs at h
    cases h
    exact hp i hi hzero

end Pane
namespace Worker
variable {cfg : WorkerConfig} {w w' : Worker} {e : WorkerEvent}

theorem honest_start : start.Honest :=
  ⟨by simp [start],by simp [start,WorkerPhase.info],by simp [start,Status.starting],by simp [start]⟩

theorem currentPane_mem {p : Pane} (h : w.currentPane = some p) : p ∈ w.panes :=
  List.mem_of_getLast? h

/-- What an event does to the current command. -/
theorem currentPane_pane {i : ℕ} {p p' : Pane} {e : PaneEvent} (hp : w.panes[i]? = some p)
    (hstep : p.step e = some p') {q : Pane} (hq : w.currentPane = some q) :
    ∃ q', currentPane { w with panes := w.panes.set i p' } = some q' ∧
      (q' = q ∨ q.step e = some q') := by
  rw [currentPane_set]
  by_cases hi : i+1 = w.panes.length
  · rw [currentPane_of_last hi] at hq
    obtain rfl : p = q := Option.some.inj (hp.symm.trans hq)
    exact ⟨p',if_pos hi,.inr hstep⟩
  · exact ⟨q,by rw [if_neg hi,hq],.inl rfl⟩

/-- An event beside the worker keeps what is recorded of the current command. -/
theorem pane_keeps {i : ℕ} {p p' : Pane} {e : PaneEvent} (hp : w.panes[i]? = some p)
    (hstep : p.step e = some p') :
    (∀ x, w.exitInfo = some x → exitInfo { w with panes := w.panes.set i p' } = some x) ∧
      ∀ o, w.lastOutcome = some o → lastOutcome { w with panes := w.panes.set i p' } = some o := by
  have hcurrent : ∀ {α : Type} (f : Pane → Option α) (x : α),
      (∀ q q', q.step e = some q' → f q = some x → f q' = some x) →
      w.currentPane.bind f = some x →
        (currentPane { w with panes := w.panes.set i p' }).bind f = some x := by
    intro α f x hf hx
    obtain ⟨q,hq,hfq⟩ := Option.bind_eq_some_iff.mp hx
    obtain ⟨q',hq',rfl | hmove⟩ := currentPane_pane hp hstep hq
    · rw [hq',Option.bind_some,hfq]
    · rw [hq',Option.bind_some,hf q q' hmove hfq]
  exact ⟨fun x hx => hcurrent _ x (fun q q' hmove => (Pane.step_keeps hmove).1 x) hx,
    fun o ho => hcurrent _ o (fun q q' hmove => (Pane.step_keeps hmove).2 o) ho⟩

/-- Code 0 in the current command's exit information means that it exited with 0. -/
theorem Honest.lastOutcome (h : w.Honest) {i : ExitInfo} (hi : w.exitInfo = some i)
    (hzero : i.code = some 0) : w.lastOutcome = some (.exited 0) := by
  obtain ⟨p,hp,hinfo⟩ := Option.bind_eq_some_iff.mp hi
  rw [Worker.lastOutcome,hp,Option.bind_some]
  exact h.panes p (currentPane_mem hp) i hinfo hzero

/-- Before the ending no success is on record. -/
theorem Honest.unrecorded (h : w.Honest) (hp : w.phase.isEnding = false) :
    w.status.exitCode ≠ some 0 ∧ ∀ i ∈ w.exitSent, i.code ≠ some 0 := by
  constructor
  · intro hzero
    have := (h.status hzero).1
    rw [hp] at this
    cases this
  · intro i hi hzero
    have := (h.sent i hi hzero).1
    rw [hp] at this
    cases this

/-- A move to a phase that carries nothing new, with the same status and commands. -/
theorem Honest.moves (h : w.Honest) {phase : WorkerPhase} {messages : List LoopMessage}
    {replies : List KillReply} (hinfo : ∀ i ∈ phase.info, w.exitInfo = some i)
    (hending : w.phase.isEnding = true → phase.isEnding = true) :
    Honest { w with phase := phase, messages := messages, replies := replies } :=
  ⟨h.panes,hinfo,fun hzero => ⟨hending (h.status hzero).1,(h.status hzero).2⟩,
    fun i hi hzero => ⟨hending (h.sent i hi hzero).1,(h.sent i hi hzero).2⟩⟩

/-- Spawning puts a fresh command in the last place. -/
theorem Honest.spawns (h : w.Honest) (hp : w.phase.isEnding = false)
    (started : List (Option UInt32)) {phase : WorkerPhase} (hinfo : phase.info = none) :
    Honest { w with panes := w.panes ++ started.map Pane.spawned, phase := phase } := by
  obtain ⟨hstatus,hsent⟩ := h.unrecorded hp
  refine ⟨?_,?_,fun hzero => absurd hzero hstatus,fun i hi hzero => absurd hzero (hsent i hi)⟩
  · intro p hmem
    rcases List.mem_append.mp hmem with hmem | hmem
    · exact h.panes p hmem
    · obtain ⟨pid,-,rfl⟩ := List.mem_map.mp hmem
      exact Pane.honest_spawned pid
  · intro i hi
    dsimp only at hi
    rw [hinfo] at hi
    cases hi

/-- A status write that records code 0 only from the current command's exit information. -/
theorem Honest.records (h : w.Honest) (hp : w.phase.isEnding = false) {status : Status}
    {phase : WorkerPhase} {replies : List KillReply}
    (hinfo : ∀ i ∈ phase.info, w.exitInfo = some i)
    (hzero : status.exitCode = some 0 →
      phase.isEnding = true ∧ ∃ i ∈ w.exitInfo, i.code = some 0) :
    Honest { w with status := status, phase := phase, replies := replies } := by
  refine ⟨h.panes,hinfo,?_,fun i hi h0 => absurd h0 ((h.unrecorded hp).2 i hi)⟩
  intro h0
  obtain ⟨hending,i,hi,hcode⟩ := hzero h0
  exact ⟨hending,h.lastOutcome hi hcode⟩

theorem Honest.wrote (h : w.Honest) {status : Status} {next : WorkerPhase}
    (hp : w.phase.write = some (status,next)) {replies : List KillReply} :
    Honest { w with status := status, phase := next, replies := replies } := by
  have hphase := h.phase
  have hnone : ∀ i ∈ (none : Option ExitInfo), w.exitInfo = some i := by simp
  have hending := isEnding_of_write hp
  generalize hw : w.phase = phase at hp hphase
  cases phase with
  | recordingSpawnFailure error =>
    cases hp
    exact h.records hending hnone (by simp)
  | recordingRunning pid =>
    cases hp
    exact h.records hending hnone (by simp)
  | recordingSetupFailure error =>
    cases hp
    exact h.records hending hnone (by simp)
  | recordingRestart pid =>
    cases hp
    exact h.records hending hnone (by simp)
  | recordingKill t =>
    cases hp
    exact h.records hending hphase (fun hzero => ⟨rfl,t.info,hphase _ rfl,hzero⟩)
  | finalizing info requested =>
    cases hp
    refine h.records hending hphase (fun hzero => ⟨rfl,?_⟩)
    obtain ⟨i,hi,hcode⟩ := Option.bind_eq_some_iff.mp hzero
    exact ⟨i,hphase i hi,hcode⟩
  | _ => cases hp

theorem Honest.step (h : w.Honest) (hstep : w.step cfg e = some w') : w'.Honest := by
  have hnone : ∀ i ∈ (none : Option ExitInfo), w.exitInfo = some i := by simp
  have hnot : ∀ {phase}, w.phase = phase → phase.isEnding = false → ∀ {P : Prop},
      w.phase.isEnding = true → P := by
    intro phase hp hending P htrue
    rw [hp,hending] at htrue
    cases htrue
  cases step_move hstep with
  | spawned hp => exact h.spawns (by rw [hp]; rfl) [_] rfl
  | respawned hp => exact h.spawns (by rw [hp]; rfl) [_] rfl
  | spawnFailed hp =>
    rw [Option.toList_map]
    exact h.spawns (by rw [hp]; rfl) _ rfl
  | respawnFailed hp =>
    rw [Option.toList_map]
    exact h.spawns (by rw [hp]; rfl) _ rfl
  | served hp => exact h.moves hnone (hnot hp rfl)
  | setupFailed hp => exact h.moves hnone (hnot hp rfl)
  | request => exact h.moves h.phase id
  | timeout hp => exact h.moves hnone (hnot hp rfl)
  | idle hp => exact h.moves hnone (hnot hp rfl)
  | restart hp => exact h.moves hnone (hnot hp rfl)
  | kill hp => exact h.moves hnone (hnot hp rfl)
  | exitNotified hp hpane =>
    refine h.moves ?_ (hnot hp rfl)
    intro i hi
    rw [Worker.exitInfo,hpane,Option.bind_some]
    exact hi
  | called hp hnext =>
    have hphase := h.phase
    rw [hp] at hphase
    exact h.moves (TermPhase.step_info hnext hphase) (hnot hp rfl)
  | terminated hp hresult =>
    rename_i cause phase result a
    have hphase := h.phase
    rw [hp] at hphase
    refine h.moves ?_ (hnot hp rfl)
    intro i hi
    cases result with
    | error error => cases cause <;> cases hi
    | ok t =>
      have hinfo := TermPhase.step_ok hresult hphase
      cases cause <;> cases hi <;> exact hinfo
  | wrote hp => exact h.wrote hp
  | writeFailed hp =>
    refine h.moves ?_ ?_
    · intro i hi
      unfold WorkerPhase.writeFailed at hi
      split at hi <;> cases hi
    · intro _
      unfold WorkerPhase.writeFailed
      split <;> rfl
  | drained hp =>
    have hphase := h.phase
    rw [hp] at hphase
    have hending : w.phase.isEnding = true := by rw [hp]; rfl
    refine ⟨h.panes,hnone,fun hzero => ⟨rfl,(h.status hzero).2⟩,?_⟩
    intro i hi hzero
    obtain rfl := Option.some.inj hi
    refine ⟨rfl,?_⟩
    rename_i info
    cases info with
    | none => cases hzero
    | some info => exact h.lastOutcome (hphase info rfl) hzero
  | left hp => exact h.moves hnone (fun _ => rfl)
  | died => exact h.moves hnone (fun _ => rfl)
  | pane hp hmove hrunning =>
    obtain ⟨hinfo,houtcome⟩ := pane_keeps hp hmove
    refine ⟨?_,fun i hi => hinfo i (h.phase i hi),
      fun hzero => ⟨(h.status hzero).1,houtcome _ (h.status hzero).2⟩,
      fun i hi hzero => ⟨(h.sent i hi hzero).1,houtcome _ (h.sent i hi hzero).2⟩⟩
    intro q hq
    rcases List.mem_or_eq_of_mem_set hq with hq | rfl
    · exact h.panes q hq
    · exact (h.panes _ (List.mem_of_getElem? hp)).step hmove

end Worker
namespace ReportWorld
variable {cfg : WorkerConfig} {w w' : ReportWorld}

/-- The code a report event returns; none where it returns nothing. -/
def reported (w : ReportWorld) : ReportEvent → Option Int32
  | .worker _ => none
  | .wait readable ownerDead expired => waitPoll (w.worker.readStatus readable) ownerDead expired
  | .exitFrame => w.worker.exitSent.map fun info => exitCodeFromInfo (some info)
  | .socketClosed readable | .fallback readable =>
    some (exitCodeFromStatus (w.worker.readStatus readable))
  | .bridge => some (exitCodeFromInfo
      (some ⟨w.worker.status.exitCode,w.worker.status.state = .killed⟩))

/-- A step is a step of the worker or a report of the code above. -/
theorem step_cases {e : ReportEvent} (h : w.step cfg e = some w') :
    (∃ e' worker, e = .worker e' ∧ w.worker.step cfg e' = some worker ∧
      w' = { w with worker := worker }) ∨
    ∃ code, w.reported e = some code ∧ w' = w.report code := by
  cases e with
  | worker e =>
    obtain ⟨worker,hworker,rfl⟩ := Option.map_eq_some_iff.mp h
    exact .inl ⟨e,worker,rfl,hworker,rfl⟩
  | wait readable ownerDead expired =>
    obtain ⟨code,hcode,rfl⟩ := Option.map_eq_some_iff.mp h
    exact .inr ⟨code,hcode,rfl⟩
  | exitFrame =>
    obtain ⟨info,hinfo,rfl⟩ := Option.map_eq_some_iff.mp h
    rw [parseExit_exitPayload]
    exact .inr ⟨_,by simp only [reported,hinfo,Option.map_some],rfl⟩
  | socketClosed readable =>
    obtain rfl := Option.some.inj h
    exact .inr ⟨_,rfl,rfl⟩
  | fallback readable =>
    simp only [step] at h
    split_ifs at h
    obtain rfl := Option.some.inj h
    exact .inr ⟨_,rfl,rfl⟩
  | bridge =>
    simp only [step,parseExit_exitPayload] at h
    split_ifs at h
    obtain rfl := Option.some.inj h
    exact .inr ⟨_,rfl,rfl⟩

theorem exitCodeFromInfo_zero {i : ExitInfo} (h : exitCodeFromInfo (some i) = 0)
    (hrecord : i.code ≠ none ∨ i.signaled = true) : i.code = some 0 := by
  unfold exitCodeFromInfo at h
  cases hc : i.code with
  | some c => simp_all
  | none => simp_all

theorem exitCodeFromStatus_zero {s : Status} (h : exitCodeFromStatus (some s) = 0)
    (hrecord : s.exitCode ≠ none ∨ s.state = .killed) : s.exitCode = some 0 := by
  unfold exitCodeFromStatus at h
  cases hc : s.exitCode with
  | some c => simp_all
  | none => simp_all

theorem waitPoll_zero {status : Option Status} {ownerDead expired : Bool}
    (h : waitPoll status ownerDead expired = some 0)
    (hrecord : ∀ s ∈ status, s.state = .exited → s.exitCode ≠ none) :
    ∃ s ∈ status, s.exitCode = some 0 := by
  unfold waitPoll at h
  cases status with
  | none => cases expired <;> simp at h
  | some s =>
    refine ⟨s,rfl,?_⟩
    have hexited := hrecord s rfl
    cases hc : s.exitCode with
    | some c =>
      cases hs : s.state <;> cases ownerDead <;> cases expired <;> simp_all
    | none =>
      cases hs : s.state <;> cases ownerDead <;> cases expired <;> simp_all

/-- With a record to go by, code 0 is reported only when it is on record. -/
theorem recorded_of_reported {e : ReportEvent} (hrecord : w.HasRecord e)
    (h : w.reported e = some 0) : w.worker.status.exitCode = some 0 ∨
      ∃ i ∈ w.worker.exitSent, i.code = some 0 := by
  have hread : ∀ {readable s}, w.worker.readStatus readable = some s → s = w.worker.status := by
    intro readable s hs
    unfold Worker.readStatus at hs
    split_ifs at hs
    exact (Option.some.inj hs).symm
  have hstatus : ∀ {readable s}, w.worker.readStatus readable = some s →
      exitCodeFromStatus (w.worker.readStatus readable) = 0 →
      s.exitCode ≠ none ∨ s.state = .killed → w.worker.status.exitCode = some 0 := by
    intro readable s hs hzero hkilled
    rw [hs] at hzero
    rw [← hread hs]
    exact exitCodeFromStatus_zero hzero hkilled
  cases e with
  | worker e => cases h
  | wait readable ownerDead expired =>
    obtain ⟨s,hs,hzero⟩ := waitPoll_zero h hrecord
    left
    rwa [← hread hs]
  | exitFrame =>
    obtain ⟨info,hinfo,hcode⟩ := Option.map_eq_some_iff.mp h
    exact .inr ⟨info,hinfo,exitCodeFromInfo_zero hcode (hrecord info hinfo)⟩
  | socketClosed readable =>
    obtain ⟨s,hs,hkilled⟩ := hrecord
    exact .inl (hstatus hs (Option.some.inj h) hkilled)
  | fallback readable =>
    obtain ⟨s,hs,hkilled⟩ := hrecord
    exact .inl (hstatus hs (Option.some.inj h) hkilled)
  | bridge =>
    left
    refine exitCodeFromInfo_zero (Option.some.inj h) (hrecord.imp_right ?_)
    intro hkilled
    simp [hkilled]

/-- Without a record, what is reported is code 0. -/
theorem reported_zero {e : ReportEvent} {code : Int32} (hrecord : ¬w.HasRecord e)
    (h : w.reported e = some code) : code = 0 := by
  have hstatus : ∀ status : Option Status,
      ¬(∃ s ∈ status, s.exitCode ≠ none ∨ s.state = .killed) → exitCodeFromStatus status = 0 := by
    intro status hnone
    cases status with
    | none => rfl
    | some s =>
      obtain ⟨hcode,hstate⟩ := not_or.mp fun hr => hnone ⟨s,rfl,hr⟩
      simp [exitCodeFromStatus,not_not.mp hcode,hstate]
  cases e with
  | worker e => exact absurd trivial hrecord
  | wait readable ownerDead expired =>
    simp only [HasRecord,not_forall,not_not] at hrecord
    obtain ⟨s,hs,hexited,hcode⟩ := hrecord
    rw [reported,Option.mem_def.mp hs] at h
    simp only [waitPoll,hexited,hcode,Option.getD_none,Option.some_or] at h
    exact (Option.some.inj h).symm
  | exitFrame =>
    simp only [HasRecord,not_forall,not_or,not_not] at hrecord
    obtain ⟨i,hi,hcode,hsignaled⟩ := hrecord
    rw [reported,Option.mem_def.mp hi] at h
    simp only [Option.map_some,exitCodeFromInfo,hcode,hsignaled] at h
    exact (Option.some.inj h).symm
  | socketClosed readable => exact (Option.some.inj h).symm.trans (hstatus _ hrecord)
  | fallback readable => exact (Option.some.inj h).symm.trans (hstatus _ hrecord)
  | bridge =>
    obtain ⟨hcode,hstate⟩ := not_or.mp hrecord
    simp only [reported,exitCodeFromInfo,not_not.mp hcode,hstate] at h
    exact (Option.some.inj h).symm

/-- What holds of the worker, and of all reports so far. -/
structure Good (w : ReportWorld) : Prop where
  worker : w.worker.Honest
  reports : w.SuccessReal

theorem good_start : start.Good := ⟨Worker.honest_start,by simp [start,SuccessReal]⟩

theorem good_step (w : ReportWorld) (e : ReportEvent) (w' : ReportWorld)
    (hstep : w.step cfg e = some w') (hrecord : w.ReportsRecord e) (h : w.Good) : w'.Good := by
  rcases step_cases hstep with ⟨e',worker,rfl,hworker,rfl⟩ | ⟨code,hcode,rfl⟩
  · exact ⟨h.worker.step hworker,h.reports⟩
  · refine ⟨h.worker,?_⟩
    intro r hr hzero
    rcases List.mem_append.mp hr with hr | hr
    · exact h.reports r hr hzero
    · obtain rfl := List.mem_singleton.mp hr
      obtain rfl : code = 0 := hzero
      rcases hrecord with hrecord | hlast
      · rcases recorded_of_reported hrecord hcode with hstatus | ⟨i,hi,hsent⟩
        · exact (h.worker.status hstatus).2
        · exact (h.worker.sent i hi hsent).2
      · exact hlast

theorem not_successReal (w : ReportWorld) (e : ReportEvent) (w' : ReportWorld)
    (hstep : w.step cfg e = some w') (hrecord : ¬w.ReportsRecord e) (_ : w.Good) :
    ¬w'.SuccessReal := by
  obtain ⟨hnone,hlast⟩ := not_or.mp hrecord
  rcases step_cases hstep with ⟨e',worker,rfl,-,-⟩ | ⟨code,hcode,rfl⟩
  · exact absurd trivial hnone
  · intro hreal
    exact hlast (hreal ⟨code,w.worker.lastOutcome⟩ (by simp [report]) (reported_zero hnone hcode))

/-- Every reported success is real, in every state of a run, exactly when each report reads a
record with an exit code or of a kill, or comes when the last command did exit with 0. -/
theorem always_successReal_iff (cfg : WorkerConfig) (es : List ReportEvent) :
    Transition.Always (step cfg) SuccessReal start es ↔
      Transition.Meets (step cfg) ReportsRecord start es :=
  Transition.always_iff_meets (fun _ h => h.reports) good_step not_successReal good_start es

/-- A command that cannot be spawned, and a client that waits for it. -/
def missingProgram : List ReportEvent :=
  [.worker (.spawnFailed none "No such file or directory"),.worker (.record none),
    .wait true false false]

theorem missing_program_reports_success : ∃ w,
    Transition.exec (step ⟨false,false⟩) start missingProgram = some w ∧
      w.reports = [⟨0,none⟩] ∧ ¬w.SuccessReal := by
  refine ⟨_,rfl,rfl,?_⟩
  intro h
  have hreal := h ⟨0,none⟩ (List.mem_singleton.mpr rfl) rfl
  cases hreal

end ReportWorld
end Babysit
