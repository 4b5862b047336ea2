import Babysit.Session

/-! A spawned command as its supervisor sees it, and `terminate_pane`, one awaited call at
a time: whatever the operating system answers, and whatever happens to the command between
two calls. -/
namespace Babysit

/-- How a process really ended. -/
inductive Outcome
  | exited (code : UInt32)
  | signaled
  deriving DecidableEq, Repr

/-- What the wait thread makes of the result of `wait`. -/
def exitInfoOf : Option Outcome → ExitInfo
  | some (.exited code) => ⟨if code.toNat < 2^31 then some code.toInt32 else none,false⟩
  | some .signaled => ⟨none,true⟩
  | none => ⟨none,true⟩

/-- A command. `outcome` is a ghost: what has become of the process. `exitInfo` is what the
wait thread has recorded of it, `notified` that it has left its notification. -/
structure Pane where
  pid : Option UInt32
  outcome : Option Outcome
  exitInfo : Option ExitInfo
  notified : Bool
  deriving DecidableEq, Repr

inductive PaneEvent
  | exits (outcome : Outcome)
  | reaped
  | waitFailed
  | notifies

/-- The process does it itself, without the wait thread. -/
def PaneEvent.isExit : PaneEvent → Bool
  | .exits _ => true
  | .reaped | .waitFailed | .notifies => false

def Pane.spawned (pid : Option UInt32) : Pane := ⟨pid,none,none,false⟩

/-- The process ends; the wait thread records it, and then notifies. -/
def Pane.step (p : Pane) : PaneEvent → Option Pane
  | .exits outcome => if p.outcome = none then some { p with outcome := some outcome } else none
  | .reaped =>
    match p.outcome,p.exitInfo with
    | some outcome,none => some { p with exitInfo := some (exitInfoOf (some outcome)) }
    | _,_ => none
  | .waitFailed =>
    if p.exitInfo = none then some { p with exitInfo := some (exitInfoOf none) } else none
  | .notifies => if p.exitInfo.isSome then some { p with notified := true } else none

/-- What is recorded of a command, and what has become of it, stays. -/
theorem Pane.step_keeps {p p' : Pane} {e : PaneEvent} (h : p.step e = some p') :
    (∀ i, p.exitInfo = some i → p'.exitInfo = some i) ∧
      ∀ o, p.outcome = some o → p'.outcome = some o := by
  unfold Pane.step at h
  split at h
  · split_ifs at h
    cases h
    simp_all
  · split at h <;> cases h
    simp_all
  · split_ifs at h
    cases h
    simp_all
  · split_ifs at h
    cases h
    simp

structure Termination where
  info : ExitInfo
  signalSent : Bool
  escalated : Bool
  deriving DecidableEq, Repr

/-- Where `terminate_pane` is; each phase is named for the call it makes next. -/
inductive TermPhase
  | exitInfo
  | probeExited (info : ExitInfo)
  | cleanUp (info : ExitInfo)
  | hangUp
  | awaitGraceful
  | probeGraceful (info : ExitInfo)
  | escalate (graceful : Option ExitInfo)
  | awaitForced
  | probeGroup (info : ExitInfo)
  | groupAlive (info : ExitInfo)
  deriving DecidableEq, Repr

/-- What a call comes back with. `waited` is the end of a wait for the exit, by the
notification or by its time limit. -/
inductive OsAnswer
  | proceed
  | probed (alive : Except String Bool)
  | signalled (failed : Option String)
  | waited
  | deadline

/-- One call of `terminate_pane`, where `exitInfo` is what the wait thread has recorded by
then: the next phase, or the result. -/
def TermPhase.step (exitInfo : Option ExitInfo) : TermPhase → OsAnswer →
    Option (TermPhase ⊕ Except String Termination)
  | .exitInfo,.proceed =>
    match exitInfo with
    | some info => some (.inl (.probeExited info))
    | none => some (.inl .hangUp)
  | .probeExited _,.probed (.error e) => some (.inr (.error e))
  | .probeExited info,.probed (.ok alive) =>
    some (if ¬alive then .inr (.ok ⟨info,false,false⟩) else .inl (.cleanUp info))
  | .cleanUp _,.signalled (some e) =>
    some (.inr (.error ("cleaning up remaining process-group members: " ++ e)))
  | .cleanUp info,.signalled none => some (.inl (.probeGroup info))
  | .hangUp,.signalled (some e) => some (.inr (.error ("requesting graceful termination: " ++ e)))
  | .hangUp,.signalled none => some (.inl .awaitGraceful)
  | .awaitGraceful,.waited =>
    match exitInfo with
    | some info => some (.inl (.probeGraceful info))
    | none => some (.inl (.escalate none))
  | .probeGraceful _,.probed (.error e) => some (.inr (.error e))
  | .probeGraceful info,.probed (.ok alive) =>
    some (if ¬alive then .inr (.ok ⟨info,true,false⟩) else .inl (.escalate (some info)))
  | .escalate _,.signalled (some e) => some (.inr (.error ("escalating termination: " ++ e)))
  | .escalate graceful,.signalled none =>
    match graceful with
    | some info => some (.inl (.probeGroup info))
    | none => some (.inl .awaitForced)
  | .awaitForced,.waited =>
    match exitInfo with
    | some info => some (.inl (.probeGroup info))
    | none => some (.inr (.error "process did not exit after SIGKILL"))
  | .probeGroup _,.probed (.error e) => some (.inr (.error e))
  | .probeGroup info,.probed (.ok alive) =>
    some (if ¬alive then .inr (.ok ⟨info,true,true⟩) else .inl (.groupAlive info))
  | .groupAlive _,.deadline => some (.inr (.error "process group still exists after SIGKILL"))
  | .groupAlive info,.proceed => some (.inl (.probeGroup info))
  | _,_ => none

/-- The call fails: the system refuses a probe or a signal, the process survives SIGKILL,
or its group does. -/
def TermPhase.Fails (exitInfo : Option ExitInfo) (phase : TermPhase) : OsAnswer → Prop
  | .probed (.error _) | .signalled (some _) | .deadline => True
  | .probed (.ok _) | .signalled none | .proceed => False
  | .waited => phase = .awaitForced ∧ exitInfo = none

instance (exitInfo : Option ExitInfo) (phase : TermPhase) :
    (a : OsAnswer) → Decidable (phase.Fails exitInfo a)
  | .probed (.error _) | .signalled (some _) | .deadline => .isTrue trivial
  | .probed (.ok _) | .signalled none | .proceed => .isFalse id
  | .waited => inferInstanceAs (Decidable (phase = .awaitForced ∧ exitInfo = none))

/-- The exit information a phase carries. -/
def TermPhase.info : TermPhase → Option ExitInfo
  | .probeExited info | .cleanUp info | .probeGraceful info | .probeGroup info
  | .groupAlive info => some info
  | .escalate graceful => graceful
  | .exitInfo | .hangUp | .awaitGraceful | .awaitForced => none

/-- The exit information behind what a call leads to. -/
def TermPhase.reported : TermPhase ⊕ Except String Termination → Option ExitInfo
  | .inl phase => phase.info
  | .inr (.ok t) => some t.info
  | .inr (.error _) => none

namespace TermPhase
variable {exitInfo : Option ExitInfo} {phase phase' : TermPhase} {a : OsAnswer}
  {r : TermPhase ⊕ Except String Termination}

/-- A call fails exactly when it leads to an error, and the exit information it leads to is
on record if what it starts from is. -/
theorem step_spec (h : phase.step exitInfo a = some r) :
    (phase.Fails exitInfo a ↔ ∃ e, r = .inr (.error e)) ∧
      ((∀ i ∈ phase.info, exitInfo = some i) → ∀ i ∈ reported r, exitInfo = some i) := by
  unfold step at h
  split at h
  -- what happens next depends on the exit information
  case h_1 | h_8 | h_12 | h_13 => split at h <;> cases h <;> simp [Fails,reported,info]
  -- an answered probe
  case h_3 | h_10 | h_15 =>
    obtain rfl := Option.some.inj h
    split_ifs <;> simp [Fails,reported,info]
  case h_18 => cases h
  all_goals
    obtain rfl := Option.some.inj h
    simp [Fails,reported,info]

/-- A call that returns fails exactly when its result is an error. -/
theorem step_error_iff {result : Except String Termination}
    (h : phase.step exitInfo a = some (.inr result)) :
    phase.Fails exitInfo a ↔ ∃ e, result = .error e := by
  rw [(step_spec h).1]
  simp only [Sum.inr.injEq]

/-- A call that goes on has not failed. -/
theorem not_fails_of_step (h : phase.step exitInfo a = some (.inl phase')) :
    ¬phase.Fails exitInfo a := by
  rw [(step_spec h).1]
  rintro ⟨e,he⟩
  cases he

/-- What a phase carries is what has been recorded. -/
theorem step_info (h : phase.step exitInfo a = some (.inl phase'))
    (hinfo : ∀ i ∈ phase.info, exitInfo = some i) : ∀ i ∈ phase'.info, exitInfo = some i :=
  (step_spec h).2 hinfo

/-- A confirmed termination reports the exit information on record. -/
theorem step_ok {t : Termination} (h : phase.step exitInfo a = some (.inr (.ok t)))
    (hinfo : ∀ i ∈ phase.info, exitInfo = some i) : exitInfo = some t.info :=
  (step_spec h).2 hinfo t.info rfl

end TermPhase
end Babysit
