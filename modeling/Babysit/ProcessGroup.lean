import Babysit.Lib.Transition
import Babysit.TerminatePane

/-! The wrapped command as a process group, beside `terminate_pane`: its leader is the
direct child, which the wait thread collects and records in two steps, and its other members
exit and fork on their own. No process id is reused. -/
namespace Babysit

/-- The direct child, which stays in its group until it is collected. -/
inductive Leader
  | alive
  | zombie (outcome : Outcome)
  | collected
  deriving DecidableEq, Repr

/-- The thread that waits for the direct child, and what `wait` has returned. -/
inductive WaitThread
  | waiting
  | returned (outcome : Option Outcome)
  | recorded
  deriving DecidableEq, Repr

structure ProcessGroup where
  leader : Leader
  members : ℕ
  deriving DecidableEq, Repr

/-- A call of `terminate_pane`. -/
inductive TermCall
  | idle
  | running (phase : TermPhase)
  | done (result : Except String Termination)

/-- Ghosts about the current or last call of `terminate_pane`: how often it has sent SIGKILL,
whether a signal has reached an existing group, and whether the group existed when the
first signal was sent. -/
structure GroupWorld where
  group : ProcessGroup
  thread : WaitThread
  exitInfo : Option ExitInfo
  call : TermCall
  sigkills : ℕ
  reached : Bool
  firstSignal : Option Bool

/-- What `terminate_pane` does next. The environment decides whether a probe fails other than
by the group's absence, and which members a signal may not be sent to. -/
inductive OsCall
  | reads
  | waits
  | sleeps
  | expires
  | probes (failure : Option String)
  | signals (spared : ℕ) (leaderSpared : Bool)

inductive GroupEvent
  | leaderExits (outcome : Outcome)
  | memberExits
  | forks
  | collects
  | waitFails
  | records
  | terminates
  | calls (c : OsCall)

namespace TermPhase

/-- The phase sends SIGKILL. -/
def isKill : TermPhase → Bool
  | .cleanUp _ | .escalate _ => true
  | _ => false

/-- A signal has been sent. -/
def isSignalled : TermPhase → Bool
  | .exitInfo | .probeExited _ | .cleanUp _ | .hangUp => false
  | _ => true

/-- SIGKILL has been sent. -/
def isForced : TermPhase → Bool
  | .awaitForced | .probeGroup _ | .groupAlive _ => true
  | _ => false

end TermPhase

namespace ProcessGroup

def spawned : ProcessGroup := ⟨.alive,0⟩

def isEmpty (g : ProcessGroup) : Bool := g.leader = .collected ∧ g.members = 0

def hasLive (g : ProcessGroup) : Bool := g.leader = .alive ∨ g.members ≠ 0

/-- SIGKILL removes the members it is sent to; a killed leader is left to be collected. -/
def killed (g : ProcessGroup) (spared : ℕ) (leaderSpared : Bool) : ProcessGroup :=
  ⟨if g.leader = .alive ∧ ¬leaderSpared then .zombie .signaled else g.leader,spared⟩

end ProcessGroup

def EPERM : String := "EPERM: Operation not permitted"

namespace GroupWorld

def start : GroupWorld := ⟨.spawned,.waiting,none,.idle,0,false,none⟩

/-- `signal_process_group`: a group that is gone counts as signalled. -/
def signal (w : GroupWorld) (kill : Bool) (spared : ℕ) (leaderSpared : Bool) :
    Option (OsAnswer × GroupWorld) :=
  let sent := { w with
    sigkills := if kill then w.sigkills+1 else w.sigkills
    firstSignal := w.firstSignal.or (some !w.group.isEmpty) }
  if w.group.isEmpty then some (.signalled none,sent)
  else if w.group.members < spared then none
  else if spared = w.group.members ∧ (w.group.leader = .collected ∨ leaderSpared) then
    some (.signalled (some EPERM),{ sent with reached := true })
  else some (.signalled none,{ sent with
    group := if kill then w.group.killed spared leaderSpared else w.group, reached := true })

/-- What a call of the operating system answers, and what it does. -/
def answer (w : GroupWorld) (phase : TermPhase) : OsCall → Option (OsAnswer × GroupWorld)
  | .reads | .sleeps => some (.proceed,w)
  | .waits => some (.waited,w)
  | .expires => some (.deadline,w)
  | .probes (some error) => some (.probed (.error error),w)
  | .probes none => some (.probed (.ok !w.group.isEmpty),w)
  | .signals spared leaderSpared => w.signal phase.isKill spared leaderSpared

/-- The next call of `terminate_pane`. -/
def calls (w : GroupWorld) (c : OsCall) : Option GroupWorld :=
  match w.call with
  | .running phase => do
    let (a,w') ← w.answer phase c
    match ← phase.step w.exitInfo a with
    | .inl next => some { w' with call := .running next }
    | .inr result => some { w' with call := .done result }
  | _ => none

def step (w : GroupWorld) : GroupEvent → Option GroupWorld
  | .leaderExits outcome =>
    if w.group.leader = .alive then
      some { w with group := { w.group with leader := .zombie outcome } }
    else none
  | .memberExits =>
    if 0 < w.group.members then
      some { w with group := { w.group with members := w.group.members-1 } }
    else none
  | .forks =>
    if w.group.hasLive then
      some { w with group := { w.group with members := w.group.members+1 } }
    else none
  | .collects =>
    match w.thread,w.group.leader with
    | .waiting,.zombie outcome => some { w with
        group := { w.group with leader := .collected }, thread := .returned (some outcome) }
    | _,_ => none
  | .waitFails => if w.thread = .waiting then some { w with thread := .returned none } else none
  | .records =>
    match w.thread with
    | .returned outcome => some { w with
        thread := .recorded, exitInfo := some (exitInfoOf outcome) }
    | _ => none
  | .terminates =>
    match w.call with
    | .running _ => none
    | _ => some { w with
        call := .running .exitInfo, sigkills := 0, reached := false, firstSignal := none }
  | .calls c => w.calls c

end GroupWorld

namespace TermPhase
variable {exitInfo : Option ExitInfo} {phase phase' : TermPhase} {a : OsAnswer}

/-- How far a call has come is how far it had come before, and what it did then. -/
theorem step_next (h : phase.step exitInfo a = some (.inl phase')) :
    (phase'.isForced = true ↔ phase.isForced = true ∨ (∃ e, a = .signalled e) ∧ phase.isKill = true) ∧
      (phase'.isSignalled = true ↔ phase.isSignalled = true ∨ ∃ e, a = .signalled e) := by
  unfold step at h
  split at h
  case h_1 | h_8 | h_12 | h_13 =>
    split at h <;> cases h <;> simp [isForced,isSignalled,isKill]
  case h_3 | h_10 | h_15 =>
    split_ifs at h <;> cases h
    simp [isForced,isSignalled,isKill]
  case h_18 => cases h
  all_goals
    cases h
  all_goals simp [isForced,isSignalled,isKill]

/-- The three ways to succeed, each behind a probe that finds the group gone. -/
theorem step_success {t : Termination} (h : phase.step exitInfo a = some (.inr (.ok t))) :
    a = .probed (.ok false) ∧ ((phase.isSignalled = false ∧ t.signalSent = false) ∨
      (phase.isSignalled = true ∧ phase.isForced = false ∧ t.escalated = false) ∨
      (phase.isSignalled = true ∧ t.escalated = true)) := by
  unfold step at h
  split at h
  case h_1 | h_8 | h_12 | h_13 => split at h <;> cases h
  case h_3 | h_10 | h_15 =>
    rename_i alive
    cases alive <;> simp only [Bool.false_eq_true,not_false_eq_true,not_true_eq_false,if_true,
      if_false] at h <;> cases h
    simp [isForced,isSignalled]
  all_goals cases h

end TermPhase

namespace GroupWorld
variable {w w' v : GroupWorld} {phase : TermPhase} {c : OsCall} {a : OsAnswer}

/-- A signal ends nothing but members of the group it reaches, and it reaches any there is. -/
theorem signal_spec {kill leaderSpared : Bool} {spared : ℕ}
    (h : w.signal kill spared leaderSpared = some (a,v)) :
    (∃ e, a = .signalled e) ∧ v.thread = w.thread ∧ v.exitInfo = w.exitInfo ∧
      (v.sigkills = if kill then w.sigkills+1 else w.sigkills) ∧
      v.firstSignal = w.firstSignal.or (some !w.group.isEmpty) ∧
      v.reached = (w.reached || !w.group.isEmpty) ∧
      (w.group.isEmpty = true → v.group = w.group) := by
  simp only [signal] at h
  split_ifs at h <;> cases h <;> simp_all

/-- A call that sends no signal only looks; a probe that finds no group is right. -/
theorem answer_spec (h : w.answer phase c = some (a,v)) :
    (v = w ∧ (¬∃ e, a = .signalled e) ∧ (a = .probed (.ok false) → w.group.isEmpty = true)) ∨
      ∃ spared leaderSpared, c = .signals spared leaderSpared ∧
        w.signal phase.isKill spared leaderSpared = some (a,v) := by
  cases c with
  | signals spared leaderSpared => exact .inr ⟨spared,leaderSpared,rfl,h⟩
  | probes failure => cases failure <;> cases h <;> simp
  | _ => cases h; simp

/-- A call of `terminate_pane` is answered, and then it goes on or returns. -/
theorem calls_cases (h : w.calls c = some w') :
    ∃ phase a v, w.call = .running phase ∧ w.answer phase c = some (a,v) ∧
      ((∃ next, phase.step w.exitInfo a = some (.inl next) ∧
          w' = { v with call := .running next }) ∨
        ∃ result, phase.step w.exitInfo a = some (.inr result) ∧
          w' = { v with call := .done result }) := by
  unfold calls at h
  split at h
  case h_2 => cases h
  rename_i phase hcall
  obtain ⟨⟨a,v⟩,hanswer,h⟩ := Option.bind_eq_some_iff.mp h
  obtain ⟨r,hstep,h⟩ := Option.bind_eq_some_iff.mp h
  refine ⟨phase,a,v,hcall,hanswer,?_⟩
  cases r with
  | inl next => exact .inl ⟨next,hstep,(Option.some.inj h).symm⟩
  | inr result => exact .inr ⟨result,hstep,(Option.some.inj h).symm⟩

/-- The first signal of the call decides: if it has reached nobody, no later one will. -/
def Credited (w : GroupWorld) : Prop :=
  ∃ b, w.firstSignal = some b ∧ w.reached = b ∧ (b = false → w.group.isEmpty = true)

structure Running (w : GroupWorld) (phase : TermPhase) : Prop where
  info : ∀ i ∈ phase.info, w.exitInfo = some i
  gentle : phase.isForced = false → w.sigkills = 0
  silent : phase.isSignalled = false → w.firstSignal = none ∧ w.reached = false
  credited : phase.isSignalled = true → w.Credited

structure Confirmed (w : GroupWorld) (t : Termination) : Prop where
  info : w.exitInfo = some t.info
  empty : w.group.isEmpty = true
  gentle : t.signalSent = true → t.escalated = false → w.sigkills = 0
  credited : t.signalSent = true → w.Credited

/-- What the current call, or the last one, stands for. -/
def Sound (w : GroupWorld) : Prop :=
  match w.call with
  | .running phase => w.Running phase
  | .done (.ok t) => w.Confirmed t
  | .idle | .done (.error _) => True

structure Good (w : GroupWorld) : Prop where
  unrecorded : w.thread ≠ .recorded → w.exitInfo = none
  sound : w.Sound

theorem good_start : start.Good := ⟨fun _ => rfl,trivial⟩

/-- What has been established outlasts whatever keeps the records and an empty group. -/
theorem Sound.frame (h : w.Sound) (hcall : w'.call = w.call) (hsig : w'.sigkills = w.sigkills)
    (hfirst : w'.firstSignal = w.firstSignal) (hreached : w'.reached = w.reached)
    (hinfo : ∀ i, w.exitInfo = some i → w'.exitInfo = some i)
    (hempty : w.group.isEmpty = true → w'.group.isEmpty = true) : w'.Sound := by
  have hcredited : w.Credited → w'.Credited := by
    rintro ⟨b,hb,hr,he⟩
    exact ⟨b,hfirst.trans hb,hreached.trans hr,fun hb => hempty (he hb)⟩
  unfold Sound at h ⊢
  rw [hcall]
  split
  · rename_i phase hw
    rw [hw] at h
    refine ⟨fun i hi => hinfo i (h.info i hi),?_,?_,fun hs => hcredited (h.credited hs)⟩
    · rw [hsig]
      exact h.gentle
    · rw [hfirst,hreached]
      exact h.silent
  · rename_i t hw
    rw [hw] at h
    refine ⟨hinfo _ h.info,hempty h.empty,?_,fun hs => hcredited (h.credited hs)⟩
    rw [hsig]
    exact h.gentle
  · trivial
  · trivial

/-- A signal credits the call with what it finds, once and for all. -/
theorem Running.signalled (h : w.Running phase) {spared : ℕ} {leaderSpared : Bool}
    (hs : w.signal phase.isKill spared leaderSpared = some (a,v)) : v.Credited := by
  obtain ⟨-,-,-,-,hfirst,hreached,hgroup⟩ := signal_spec hs
  cases hphase : phase.isSignalled with
  | false =>
    obtain ⟨hnone,hunreached⟩ := h.silent hphase
    rw [hnone] at hfirst
    rw [hunreached] at hreached
    refine ⟨!w.group.isEmpty,hfirst,hreached,fun hempty => ?_⟩
    have hempty : w.group.isEmpty = true := by simpa using hempty
    rw [hgroup hempty]
    exact hempty
  | true =>
    obtain ⟨b,hb,hr,he⟩ := h.credited hphase
    rw [hb] at hfirst
    refine ⟨b,hfirst,?_,fun hfalse => ?_⟩
    · cases b with
      | true => rw [hreached,hr,Bool.true_or]
      | false => rw [hreached,hr,he rfl]; rfl
    · rw [hgroup (he hfalse)]
      exact he hfalse

/-- The call goes on. -/
theorem Running.next (h : w.Running phase) (ha : w.answer phase c = some (a,v)) {next : TermPhase}
    (hstep : phase.step w.exitInfo a = some (.inl next)) :
    Running { v with call := .running next } next := by
  obtain ⟨hforced,hsignalled⟩ := TermPhase.step_next hstep
  rcases answer_spec ha with ⟨rfl,hquiet,-⟩ | ⟨spared,leaderSpared,-,hs⟩
  · have hf : next.isForced = phase.isForced := by
      rw [Bool.eq_iff_iff,hforced]
      exact ⟨fun h => h.resolve_right fun h => hquiet h.1,.inl⟩
    have hg : next.isSignalled = phase.isSignalled := by
      rw [Bool.eq_iff_iff,hsignalled]
      exact ⟨fun h => h.resolve_right hquiet,.inl⟩
    refine ⟨TermPhase.step_info hstep h.info,?_,?_,?_⟩
    · rw [hf]
      exact h.gentle
    · rw [hg]
      exact h.silent
    · rw [hg]
      exact h.credited
  · obtain ⟨hsent,-,hinfo,hsig,-,-,-⟩ := signal_spec hs
    have hg : next.isSignalled = true := hsignalled.mpr (.inr hsent)
    refine ⟨?_,fun hf => ?_,fun hnot => ?_,fun _ => (h.signalled hs : v.Credited)⟩
    · dsimp only
      rw [hinfo]
      exact TermPhase.step_info hstep h.info
    · have hnot : ¬next.isForced = true := by simp [hf]
      rw [hforced] at hnot
      have hkill : phase.isKill = false := by
        cases hk : phase.isKill with
        | false => rfl
        | true => exact absurd (.inr ⟨hsent,hk⟩) hnot
      have hphase : phase.isForced = false := by
        cases hk : phase.isForced with
        | false => rfl
        | true => exact absurd (.inl hk) hnot
      dsimp only
      rw [hsig,hkill]
      exact h.gentle hphase
    · rw [hg] at hnot
      cases hnot

/-- The call returns. -/
theorem Running.returned (h : w.Running phase) (ha : w.answer phase c = some (a,v))
    {t : Termination} (hstep : phase.step w.exitInfo a = some (.inr (.ok t))) :
    Confirmed { v with call := .done (.ok t) } t := by
  obtain ⟨hprobed,hhow⟩ := TermPhase.step_success hstep
  rcases answer_spec ha with ⟨rfl,-,hempty⟩ | ⟨spared,leaderSpared,-,hs⟩
  · refine ⟨TermPhase.step_ok hstep h.info,hempty hprobed,fun hsent hgentle => ?_,fun hsent => ?_⟩
    · rcases hhow with ⟨-,hnot⟩ | ⟨-,hforced,-⟩ | ⟨-,hescalated⟩
      · rw [hnot] at hsent
        cases hsent
      · exact h.gentle hforced
      · rw [hescalated] at hgentle
        cases hgentle
    · rcases hhow with ⟨-,hnot⟩ | ⟨hsignalled,-⟩ | ⟨hsignalled,-⟩
      · rw [hnot] at hsent
        cases hsent
      · exact h.credited hsignalled
      · exact h.credited hsignalled
  · obtain ⟨⟨e,rfl⟩,-⟩ := signal_spec hs
    cases hprobed

/-- Only `terminate_pane` and the wait thread's record change more than the group. -/
theorem step_frame {e : GroupEvent} (h : w.step e = some w') (hcalls : ∀ c, e ≠ .calls c)
    (hnew : e ≠ .terminates) :
    w'.call = w.call ∧ w'.sigkills = w.sigkills ∧ w'.firstSignal = w.firstSignal ∧
      w'.reached = w.reached ∧ (w.group.isEmpty = true → w'.group.isEmpty = true) ∧
      ((w'.thread ≠ .recorded → w.thread ≠ .recorded) ∧ w'.exitInfo = w.exitInfo ∨
        w.thread ≠ .recorded ∧ w'.thread = .recorded) := by
  have hlive : w.group.isEmpty = true → w.group.hasLive = false := by
    simp [ProcessGroup.isEmpty,ProcessGroup.hasLive]
    intro h
    simp [h]
  cases e with
  | calls c => exact absurd rfl (hcalls c)
  | terminates => exact absurd rfl hnew
  | leaderExits outcome =>
    simp only [step] at h
    split_ifs at h with hleader
    obtain rfl := Option.some.inj h
    simp [ProcessGroup.isEmpty,hleader]
  | memberExits =>
    simp only [step] at h
    split_ifs at h with hmembers
    obtain rfl := Option.some.inj h
    simp [ProcessGroup.isEmpty]
    omega
  | forks =>
    simp only [step] at h
    split_ifs at h with hforks
    obtain rfl := Option.some.inj h
    refine ⟨rfl,rfl,rfl,rfl,fun hempty => ?_,.inl ⟨id,rfl⟩⟩
    rw [hlive hempty] at hforks
    cases hforks
  | collects =>
    simp only [step] at h
    split at h
    case h_2 => cases h
    rename_i outcome hthread hleader
    obtain rfl := Option.some.inj h
    simp [ProcessGroup.isEmpty,hthread,hleader]
  | waitFails =>
    simp only [step] at h
    split_ifs at h with hthread
    obtain rfl := Option.some.inj h
    simp [hthread]
  | records =>
    simp only [step] at h
    split at h
    case h_2 => cases h
    rename_i outcome hthread
    obtain rfl := Option.some.inj h
    simp [hthread]

theorem good_step (w : GroupWorld) (e : GroupEvent) (w' : GroupWorld) (h : w.step e = some w')
    (hw : w.Good) : w'.Good := by
  by_cases hcalls : ∃ c, e = .calls c
  · obtain ⟨c,rfl⟩ := hcalls
    obtain ⟨phase,a,v,hcall,hanswer,hnext⟩ := calls_cases h
    have hrunning : w.Running phase := by
      have hs := hw.sound
      simpa only [Sound,hcall] using hs
    have hkept : v.thread ≠ .recorded → v.exitInfo = none := by
      rcases answer_spec hanswer with ⟨rfl,-⟩ | ⟨spared,leaderSpared,-,hs⟩
      · exact hw.unrecorded
      · obtain ⟨-,hthread,hinfo,-⟩ := signal_spec hs
        rw [hthread,hinfo]
        exact hw.unrecorded
    rcases hnext with ⟨next,hstep,rfl⟩ | ⟨result,hstep,rfl⟩
    · exact ⟨hkept,hrunning.next hanswer hstep⟩
    · refine ⟨hkept,?_⟩
      cases result with
      | error _ => trivial
      | ok t => exact hrunning.returned hanswer hstep
  by_cases hnew : e = .terminates
  · subst hnew
    have hfresh : Running { w with
        call := .running .exitInfo, sigkills := 0, reached := false, firstSignal := none }
        .exitInfo := ⟨by simp [TermPhase.info],fun _ => rfl,fun _ => ⟨rfl,rfl⟩,by
          simp [TermPhase.isSignalled]⟩
    simp only [step] at h
    split at h
    · cases h
    · obtain rfl := Option.some.inj h
      exact ⟨hw.unrecorded,hfresh⟩
  obtain ⟨hcall,hsig,hfirst,hreached,hempty,hthread⟩ :=
    step_frame h (fun c hc => hcalls ⟨c,hc⟩) hnew
  rcases hthread with ⟨hthread,hinfo⟩ | ⟨hthread,hrecorded⟩
  · refine ⟨fun hne => ?_,hw.sound.frame hcall hsig hfirst hreached ?_ hempty⟩
    · rw [hinfo]
      exact hw.unrecorded (hthread hne)
    · rw [hinfo]
      exact fun _ => id
  · refine ⟨fun hne => absurd hrecorded hne,hw.sound.frame hcall hsig hfirst hreached ?_ hempty⟩
    rw [hw.unrecorded hthread]
    rintro i ⟨⟩

theorem good_of_exec {es : List GroupEvent} (h : Transition.exec step start es = some w) :
    w.Good := Transition.invariant good_step h good_start

theorem Good.confirmed (hw : w.Good) {t : Termination} (hdone : w.call = .done (.ok t)) :
    w.Confirmed t := by
  have hs := hw.sound
  simpa only [Sound,hdone] using hs

/-- A termination that `terminate_pane` confirms is one: the direct child is recorded as the
call reports it, the process group is empty, and only an escalation has sent SIGKILL. -/
theorem terminate_pane_confirms (es : List GroupEvent)
    (hrun : Transition.exec step start es = some w) (t : Termination)
    (hdone : w.call = .done (.ok t)) :
    w.exitInfo = some t.info ∧ w.group.leader = .collected ∧ w.group.members = 0 ∧
      (t.signalSent = true → t.escalated = false → w.sigkills = 0) := by
  have hc := (good_of_exec hrun).confirmed hdone
  obtain ⟨hleader,hmembers⟩ : w.group.leader = .collected ∧ w.group.members = 0 := by
    simpa [ProcessGroup.isEmpty] using hc.empty
  exact ⟨hc.info,hleader,hmembers,hc.gentle⟩

/-- A shell that exits on SIGHUP and leaves a member that does not. -/
def escalatedRun : List GroupEvent :=
  [.forks,.terminates,.calls .reads,.calls (.signals 1 false),.leaderExits (.exited 0),.collects,
    .records,.calls .waits,.calls (.probes none),.calls (.signals 0 false),.calls (.probes none)]

def escalatedWorld : GroupWorld :=
  ⟨⟨.collected,0⟩,.recorded,some ⟨some 0,false⟩,.done (.ok ⟨⟨some 0,false⟩,true,true⟩),1,true,
    some true⟩

theorem terminate_pane_confirms_escalated :
    escalatedWorld.exitInfo = some ⟨some 0,false⟩ ∧ escalatedWorld.group.leader = .collected ∧
      escalatedWorld.group.members = 0 ∧ (true = true → true = false → escalatedWorld.sigkills = 0) :=
  terminate_pane_confirms escalatedRun rfl ⟨⟨some 0,false⟩,true,true⟩ rfl

/-- A termination that has sent a signal has reached someone with it. -/
def Earned (w : GroupWorld) : Prop :=
  ∀ t, w.call = .done (.ok t) → t.signalSent = true → w.reached = true

/-- The first signal of a call is sent to a group that is there. -/
def FindsGroup (w : GroupWorld) : GroupEvent → Prop
  | .calls (.signals _ _) => w.firstSignal = none → w.group.isEmpty = false
  | _ => True

/-- The first signal of the call, if it has sent one, has found the group. -/
def Found (w : GroupWorld) : Prop := ∀ b, w.firstSignal = some b → b = true

theorem found_step (w : GroupWorld) (e : GroupEvent) (w' : GroupWorld) (h : w.step e = some w')
    (hc : w.FindsGroup e) (hw : w.Found) : w'.Found := by
  by_cases hcalls : ∃ c, e = .calls c
  · obtain ⟨c,rfl⟩ := hcalls
    obtain ⟨phase,a,v,-,hanswer,hnext⟩ := calls_cases h
    have hv : v.Found := by
      rcases answer_spec hanswer with ⟨rfl,-⟩ | ⟨spared,leaderSpared,rfl,hs⟩
      · exact hw
      · obtain ⟨-,-,-,-,hfirst,-⟩ := signal_spec hs
        intro b hb
        rw [hfirst] at hb
        cases hprev : w.firstSignal with
        | some b' =>
          rw [hprev,Option.some_or] at hb
          exact hw b (hprev.trans hb)
        | none =>
          rw [hprev,Option.none_or,hc hprev] at hb
          exact (Option.some.inj hb).symm
    rcases hnext with ⟨next,-,rfl⟩ | ⟨result,-,rfl⟩
    · exact hv
    · exact hv
  by_cases hnew : e = .terminates
  · subst hnew
    simp only [step] at h
    split at h
    · cases h
    · obtain rfl := Option.some.inj h
      rintro b ⟨⟩
  obtain ⟨-,-,hfirst,-⟩ := step_frame h (fun c hc => hcalls ⟨c,hc⟩) hnew
  unfold Found
  rw [hfirst]
  exact hw

/-- Kill takes credit only for what a signal has done as long as the first signal of every
call finds the group; and a confirmed termination is credited rightly exactly when its
first signal has. -/
theorem kill_credit_iff (es : List GroupEvent) :
    (Transition.Meets step FindsGroup start es → Transition.Always step Earned start es) ∧
    ∀ w, Transition.exec step start es = some w → ∀ t, w.call = .done (.ok t) →
      t.signalSent = true → (w.reached = true ↔ w.firstSignal = some true) := by
  constructor
  · intro hmeets
    refine Transition.always_of_meets (I := fun w => w.Good ∧ w.Found) ?_ ?_ hmeets
      ⟨good_start,by rintro b ⟨⟩⟩
    · intro w e w' hstep hc ⟨hgood,hfound⟩
      exact ⟨good_step w e w' hstep hgood,found_step w e w' hstep hc hfound⟩
    · intro w ⟨hgood,hfound⟩ t hdone hsent
      obtain ⟨b,hb,hr,-⟩ := (hgood.confirmed hdone).credited hsent
      exact hr.trans (hfound b hb)
  · intro w hrun t hdone hsent
    obtain ⟨b,hb,hr,-⟩ := ((good_of_exec hrun).confirmed hdone).credited hsent
    rw [hb,hr,Option.some.injEq]

/-- The command exits by itself and is collected, but not yet recorded, when it is killed. -/
def lateRecordRun : List GroupEvent :=
  [.leaderExits (.exited 0),.collects,.terminates,.calls .reads,.calls (.signals 0 false),
    .records,.calls .waits,.calls (.probes none)]

theorem natural_exit_credited : ∃ w, Transition.exec step start lateRecordRun = some w ∧
    w.call = .done (.ok ⟨⟨some 0,false⟩,true,false⟩) ∧ ¬w.Earned := by
  refine ⟨_,rfl,rfl,fun h => ?_⟩
  have hreached := h _ rfl rfl
  revert hreached
  decide

end GroupWorld
end Babysit
