import Babysit.AttachStream
import Babysit.Lib.Watch

/-! `handle_attach` from the moment it counts its client: its subscriptions, and the biased
`select!` of its loop one poll of a branch at a time, beside broadcasts, the publication of
the exit, detach requests and a formatter's output. -/
namespace Babysit

/-- In milliseconds. -/
def VIEW_DRAIN_IDLE_GRACE : ℕ := 15000

/-- Where the task is: before its loop, at the branch that its `select!` polls next, or at
the check behind a completed branch. `exit` keeps, as a ghost, where the broadcast output
ended when the data branch found nothing. -/
inductive LoopTurn
  | counted
  | observed
  | subscribed
  | data
  | exit (polled : ℕ)
  | detach
  | gone
  | idle
  | check
  | returned
  deriving DecidableEq, Repr

/-- The task is in its loop. -/
def LoopTurn.inLoop : LoopTurn → Bool
  | .data | .exit _ | .detach | .gone | .idle | .check => true
  | .counted | .observed | .subscribed | .returned => false

/-- The channel of a formatter's output. -/
structure ViewOutput where
  queue : List (List UInt8)
  closed : Bool
  deriving DecidableEq, Repr

/-- What the client asks for, and whether its worker has a view command. -/
structure AttachRequest where
  viewCmd : Bool
  protocol : UInt8
  since : Option ℕ
  deriving DecidableEq, Repr

/-- A `handle_attach` task; `view` is there when a formatter works. The last five fields are
ghosts: the detach requests made when the client was counted, whether its stream is a legacy
one and where it starts, when output was last forwarded, and when S_EXIT was written, with
whether the formatter's channel had closed. -/
structure LoopTask where
  request : AttachRequest
  turn : LoopTurn
  alreadyExited : Bool
  exitSeen : ℕ
  detachSeen : ℕ
  handler : AttachHandler
  readySent : Bool
  view : Option ViewOutput
  clientGone : Bool
  deadline : Option ℕ
  countedAt : ℕ
  legacy : Bool
  startAt : ℕ
  quietSince : ℕ
  exitAt : Option (ℕ × Bool)

/-- A worker and its attach tasks. The ghosts are all that was ever output, from the log it
started with, and where that ended when the exit was published. -/
structure LoopWorld where
  hub : HubInner
  disk : Disk
  exit : Watch (Option ExitInfo)
  detach : Watch UInt64
  now : ℕ
  tasks : List LoopTask
  stream : List UInt8
  published : Option ℕ

/-- `fails` is an error on the connection; `formats` and `formatterCloses` are the formatter's. -/
inductive TaskEvent
  | observes
  | replays (n : ℕ)
  | replayFails (error : String)
  | registers
  | polls
  | leaves
  | fails
  | formats (bytes : List UInt8)
  | formatterCloses

/-- `dropClient` and `dropResumeClient` drop a receiver that no task uses any more. -/
inductive LoopWorldEvent
  | broadcast (data : List UInt8) (io : BroadcastIo)
  | publishes (info : ExitInfo)
  | requestsDetach
  | tick (ms : ℕ)
  | attach (request : AttachRequest)
  | subscribes (i : ℕ) (viewFails : Bool)
  | task (i : ℕ) (e : TaskEvent)
  | dropClient (k : ℕ)
  | dropResumeClient (k : ℕ)

namespace LoopTask

/-- A task that has counted its client. The handle's own receiver of the exit, which it will
clone, has seen the first value. -/
def counted (request : AttachRequest) (detach : Watch UInt64) : LoopTask :=
  ⟨request,.counted,false,0,0,⟨.streaming,[],none,[]⟩,false,none,false,none,detach.version,false,0,0,
    none⟩

/-- The subscription. Readiness is announced here only ahead of a replay or of a refusal; a
view command that cannot be spawned leaves a legacy stream. -/
def subscribe (t : LoopTask) (g : HubInner) (viewFails : Bool) : LoopTask × HubInner :=
  if t.request.viewCmd then
    if viewFails then
      let attached := AttachHandler.attach g 0 none
      ({ t with
        turn := .subscribed, handler := attached.1
        legacy := true, startAt := g.backlogStart },attached.2)
    else ({ t with turn := .subscribed, view := some ⟨[],false⟩ },g.subscribe.2)
  else
    let attached := AttachHandler.attach g t.request.protocol t.request.since
    let resumable := 1 ≤ t.request.protocol
    let readySent := attached.1.phase ≠ .streaming
    ({ t with
      turn := if attached.1.phase = .closed then .returned else .subscribed
      handler := { attached.1 with sent := if readySent then attached.1.sent else [] }
      readySent := readySent, legacy := ¬resumable
      startAt := if resumable then t.request.since.getD g.backlogStart else g.backlogStart },
      attached.2)

/-- Readiness of a protocol 1 stream, if no replay has announced it. -/
def announce (t : LoopTask) : AttachHandler :=
  if 1 ≤ t.request.protocol ∧ t.readySent = false then t.handler.send ⟨S_READY,[]⟩ else t.handler

def returns (t : LoopTask) : LoopTask :=
  { t with turn := .returned, handler := { t.handler with phase := .closed } }

def detaches (t : LoopTask) : LoopTask :=
  { t with turn := .returned, handler := t.handler.finish ⟨S_DETACHED,[]⟩ }

/-- S_EXIT is written, with the exit that is published then. -/
def exits (t : LoopTask) (w : LoopWorld) : LoopTask :=
  { t with
    turn := .returned, handler := t.handler.finish ⟨S_EXIT,exitPayload w.exit.value⟩
    exitAt := some (w.now,t.view.any ViewOutput.closed) }

/-- A completed branch that goes on; the next turn of the loop has a new idle guard. -/
def completes (t : LoopTask) : LoopTask := { t with turn := .check, deadline := none }

/-- The first branch: the backlog, then the channel. The hub keeps its senders, so that only
a formatter's channel can end. -/
def pollData (t : LoopTask) (w : LoopWorld) : LoopTask :=
  match t.view with
  | some ⟨bytes::queue,closed⟩ => { t with
      handler := t.handler.send ⟨S_OUTPUT,bytes⟩, view := some ⟨queue,closed⟩
      quietSince := w.now }.completes
  | some ⟨[],true⟩ => if w.exit.value.isSome then t.exits w else t.detaches
  | some ⟨[],false⟩ => { t with turn := .exit w.stream.length }
  | none =>
    match t.handler.forward w.hub with
    | some handler => { t with handler := handler }.completes
    | none => { t with turn := .exit w.stream.length }

def pollExit (t : LoopTask) (w : LoopWorld) : LoopTask :=
  if w.exit.hasChanged t.exitSeen then
    let t := { t with exitSeen := w.exit.version }
    if w.exit.value.isSome then t.exits w else t.completes
  else { t with turn := .detach }

def pollDetach (t : LoopTask) (w : LoopWorld) : LoopTask :=
  if w.detach.hasChanged t.detachSeen then t.detaches else { t with turn := .gone }

def pollGone (t : LoopTask) : LoopTask :=
  if t.clientGone then t.returns else { t with turn := .idle }

/-- The last branch: its timer starts when it is first polled. A task whose branches are all
pending polls them again when it is woken. -/
def pollIdle (t : LoopTask) (w : LoopWorld) : LoopTask :=
  if t.alreadyExited ∧ t.view.isSome then
    let deadline := t.deadline.getD (w.now + VIEW_DRAIN_IDLE_GRACE)
    if deadline ≤ w.now then t.exits w else { t with turn := .data, deadline := some deadline }
  else { t with turn := .data }

/-- The fast path of a raw stream whose session was over already. -/
def checkDrained (t : LoopTask) (w : LoopWorld) : LoopTask :=
  if t.alreadyExited ∧ t.view = none ∧ t.handler.forward w.hub = none then t.exits w
  else { t with turn := .data }

def poll (t : LoopTask) (w : LoopWorld) : Option LoopTask :=
  match t.turn with
  | .data => some (t.pollData w)
  | .exit _ => some (t.pollExit w)
  | .detach => some (t.pollDetach w)
  | .gone => some t.pollGone
  | .idle => some (t.pollIdle w)
  | .check => some (t.checkDrained w)
  | .counted | .observed | .subscribed | .returned => none

def step (t : LoopTask) (w : LoopWorld) : TaskEvent → Option LoopTask
  | .observes =>
    if t.turn = .counted then
      some { t with turn := .observed, alreadyExited := w.exit.value.isSome }
    else none
  | .replays n =>
    if t.turn = .subscribed then
      (t.handler.replayed w.disk.log n).map fun handler => { t with handler := handler }
    else none
  | .replayFails error =>
    if t.turn = .subscribed ∧ t.handler.phase ≠ .streaming then
      some { t with turn := .returned, handler := t.handler.finish (errorFrame error) }
    else none
  | .registers =>
    if t.turn = .subscribed ∧ t.handler.phase = .streaming then
      some { t with
        turn := .data, detachSeen := w.detach.subscribe, handler := t.announce
        quietSince := w.now, deadline := none }
    else none
  | .polls => t.poll w
  | .leaves => some { t with clientGone := true }
  | .fails => if t.turn = .returned then none else some t.returns
  | .formats bytes =>
    match t.view with
    | some ⟨queue,false⟩ => some { t with view := some ⟨queue ++ [bytes],false⟩ }
    | _ => none
  | .formatterCloses =>
    match t.view with
    | some ⟨queue,false⟩ => some { t with view := some ⟨queue,true⟩ }
    | _ => none

/-- A task that still runs holds this receiver. -/
def holds (t : LoopTask) (p : AttachOutputReceiver → Bool) : Bool :=
  t.turn ≠ .returned ∧ t.handler.output.any p

end LoopTask

namespace LoopWorld

/-- A worker that has opened the log. -/
def start (log : SessionLog) : LoopWorld :=
  let configured := HubInner.default.configureLog ⟨log.bytes,[]⟩ ⟨true,true⟩
  ⟨configured.1,configured.2,.channel none,.channel 0,0,[],log.bytes,none⟩

def step (w : LoopWorld) : LoopWorldEvent → Option LoopWorld
  | .broadcast data io =>
    if w.stream.length + data.length ≤ MAX_FILE_LEN then
      let after := w.hub.broadcast w.disk data io
      some { w with hub := after.1, disk := after.2, stream := w.stream ++ data }
    else none
  | .publishes info =>
    if w.exit.value = none then
      some { w with exit := w.exit.send (some info), published := some w.stream.length }
    else none
  | .requestsDetach => some { w with detach := w.detach.send (w.detach.value+1) }
  | .tick ms => some { w with now := w.now + ms }
  | .attach request => some { w with tasks := w.tasks ++ [.counted request w.detach] }
  | .subscribes i viewFails => do
    let t ← w.tasks[i]?
    if t.turn = .observed then
      let subscribed := t.subscribe w.hub viewFails
      some { w with hub := subscribed.2, tasks := w.tasks.set i subscribed.1 }
    else none
  | .task i e => do
    let t ← w.tasks[i]?
    let t' ← t.step w e
    some { w with tasks := w.tasks.set i t' }
  | .dropClient k =>
    if w.tasks.any fun t => t.holds (·.isLegacy k) then none
    else some { w with hub := { w.hub with clients := w.hub.clients.modify k Channel.close } }
  | .dropResumeClient k =>
    if w.tasks.any fun t => t.holds (·.isOffset k) then none
    else some { w with hub := { w.hub with
      resumeClients := w.hub.resumeClients.modify k Channel.close } }

end LoopWorld

namespace LoopTask

/-- Why an exit frame is written: the formatter's channel has ended, the exit branch is ready,
the grace period is over, or a raw stream is drained. -/
inductive ExitReason (t : LoopTask) (w : LoopWorld) : Prop
  | closed : t.turn = .data → t.view = some ⟨[],true⟩ → ExitReason t w
  | seen {polled} : t.turn = .exit polled → w.exit.value.isSome = true → ExitReason t w
  | silent {deadline} : t.turn = .idle → t.view.isSome = true →
      deadline = t.deadline.getD (w.now + VIEW_DRAIN_IDLE_GRACE) → deadline ≤ w.now → ExitReason t w
  | drained : t.turn = .check → t.alreadyExited = true → t.view = none →
      t.handler.forward w.hub = none → ExitReason t w

/-- What a step of a task can do, one constructor for each branch taken. -/
inductive Move (t : LoopTask) (w : LoopWorld) : TaskEvent → LoopTask → Prop
  | observes : t.turn = .counted → Move t w .observes
      { t with turn := .observed, alreadyExited := w.exit.value.isSome }
  | replays {n handler} : t.turn = .subscribed → t.handler.replayed w.disk.log n = some handler →
      Move t w (.replays n) { t with handler := handler }
  | replayFails {error} : t.turn = .subscribed → t.handler.phase ≠ .streaming →
      Move t w (.replayFails error) { t with
        turn := .returned, handler := t.handler.finish (errorFrame error) }
  | registers : t.turn = .subscribed → t.handler.phase = .streaming → Move t w .registers
      { t with
        turn := .data, detachSeen := w.detach.version, handler := t.announce
        quietSince := w.now, deadline := none }
  | leaves : Move t w .leaves { t with clientGone := true }
  | fails : t.turn ≠ .returned → Move t w .fails t.returns
  | formats {queue bytes} : t.view = some ⟨queue,false⟩ → Move t w (.formats bytes)
      { t with view := some ⟨queue ++ [bytes],false⟩ }
  | formatterCloses {queue} : t.view = some ⟨queue,false⟩ → Move t w .formatterCloses
      { t with view := some ⟨queue,true⟩ }
  | viewForwards {bytes queue closed} : t.turn = .data → t.view = some ⟨bytes::queue,closed⟩ →
      Move t w .polls { t with
        handler := t.handler.send ⟨S_OUTPUT,bytes⟩, view := some ⟨queue,closed⟩
        quietSince := w.now }.completes
  | exits {seen} : ExitReason t w → seen = t.exitSeen ∨ seen = w.exit.version →
      Move t w .polls ({ t with exitSeen := seen }.exits w)
  | viewDetaches : t.turn = .data → t.view = some ⟨[],true⟩ → Move t w .polls t.detaches
  | forwards {handler} : t.turn = .data → t.view = none → t.handler.forward w.hub = some handler →
      Move t w .polls { t with handler := handler }.completes
  | findsNothing : t.turn = .data →
      t.view = some ⟨[],false⟩ ∨ t.view = none ∧ t.handler.forward w.hub = none →
      Move t w .polls { t with turn := .exit w.stream.length }
  | seesNoExit {polled} : t.turn = .exit polled → w.exit.value = none →
      Move t w .polls { t with exitSeen := w.exit.version }.completes
  | noExit {polled} : t.turn = .exit polled → w.exit.hasChanged t.exitSeen = false →
      Move t w .polls { t with turn := .detach }
  | detaches : t.turn = .detach → Move t w .polls t.detaches
  | noDetach : t.turn = .detach → Move t w .polls { t with turn := .gone }
  | goes : t.turn = .gone → Move t w .polls t.returns
  | stays : t.turn = .gone → Move t w .polls { t with turn := .idle }
  | waits {deadline} : t.turn = .idle → t.view.isSome = true →
      deadline = t.deadline.getD (w.now + VIEW_DRAIN_IDLE_GRACE) →
      Move t w .polls { t with turn := .data, deadline := some deadline }
  | unarmed : t.turn = .idle → Move t w .polls { t with turn := .data }
  | goesOn : t.turn = .check → Move t w .polls { t with turn := .data }

variable {t t' : LoopTask} {w : LoopWorld} {e : TaskEvent}

/-- A subscription leads to the loop, or to the refusal's end. -/
theorem subscribe_turn (t : LoopTask) (g : HubInner) (viewFails : Bool) :
    (t.subscribe g viewFails).1.turn = .subscribed ∨
      (t.subscribe g viewFails).1.turn = .returned := by
  unfold subscribe
  cases t.request.viewCmd with
  | true => cases viewFails <;> exact .inl rfl
  | false =>
    by_cases hclosed :
        (AttachHandler.attach g t.request.protocol t.request.since).1.phase = .closed
    · exact .inr (if_pos hclosed)
    · exact .inl (if_neg hclosed)

theorem subscribe_frame (t : LoopTask) (g : HubInner) (viewFails : Bool) :
    (t.subscribe g viewFails).1.countedAt = t.countedAt ∧
      (t.subscribe g viewFails).1.alreadyExited = t.alreadyExited ∧
      (t.subscribe g viewFails).1.exitSeen = t.exitSeen ∧
      (t.subscribe g viewFails).1.exitAt = t.exitAt ∧
      (t.subscribe g viewFails).1.deadline = t.deadline ∧
      (t.subscribe g viewFails).1.quietSince = t.quietSince := by
  unfold subscribe
  split_ifs <;> exact ⟨rfl,rfl,rfl,rfl,rfl,rfl⟩

/-- A subscription only adds channels to the hub. -/
theorem subscribe_hub (t : LoopTask) (g : HubInner) (viewFails : Bool) :
    ∃ clients resumeClients, (t.subscribe g viewFails).2 = { g with
      clients := g.clients ++ clients, resumeClients := g.resumeClients ++ resumeClients } := by
  unfold subscribe
  cases t.request.viewCmd with
  | false => exact AttachHandler.attach_fields g t.request.protocol t.request.since
  | true =>
    cases viewFails with
    | true => exact AttachHandler.attach_fields g 0 none
    | false => exact ⟨_,[],by simp [HubInner.subscribe]; rfl⟩

/-- A subscription leaves no formatted stream raw. -/
theorem view_of_subscribe {t : LoopTask} {g : HubInner} {viewFails : Bool}
    (h : (t.subscribe g viewFails).1.view = none) : t.view = none := by
  unfold subscribe at h
  split_ifs at h
  · exact h
  · exact h

theorem attach_sent (g : HubInner) (protocol : UInt8) (since : Option ℕ) :
    ∀ f ∈ (AttachHandler.attach g protocol since).1.sent,f.tag ≠ S_EXIT := by
  unfold AttachHandler.attach
  split_ifs
  · split
    · simp [errorFrame,S_READY,S_ERROR,S_EXIT]
    · cases since <;> simp [S_READY,S_EXIT]
  · simp

/-- A subscription sends no exit frame. -/
theorem subscribe_sent {t : LoopTask} (hsent : ∀ f ∈ t.handler.sent,f.tag ≠ S_EXIT) (g : HubInner)
    (viewFails : Bool) : ∀ f ∈ (t.subscribe g viewFails).1.handler.sent,f.tag ≠ S_EXIT := by
  unfold subscribe
  split_ifs
  · exact attach_sent g 0 none
  · exact hsent
  · dsimp only
    split_ifs
    · exact attach_sent g t.request.protocol t.request.since
    · simp

/-- A frame that is no exit frame adds none. -/
theorem exit_of_snoc {fs : List Frame} {f : Frame} (hf : f.tag ≠ S_EXIT) :
    ∀ g ∈ fs ++ [f],g.tag = S_EXIT → g ∈ fs := by
  intro g hg htag
  rcases List.mem_append.mp hg with hold | hnew
  · exact hold
  · rw [List.mem_singleton.mp hnew] at htag
    exact absurd htag hf

theorem offsetFrame_tag_exit (offset : ℕ) (data : List UInt8) :
    (offsetFrame offset data).tag ≠ S_EXIT := by
  simp [offsetFrame,S_OUTPUT_OFFSET,S_EXIT]

theorem exit_of_forward {g : HubInner} {h h' : AttachHandler} (hstep : h.forward g = some h') :
    ∀ f ∈ h'.sent,f.tag = S_EXIT → f ∈ h.sent := by
  unfold AttachHandler.forward at hstep
  split at hstep
  · obtain rfl := Option.some.inj hstep
    exact exit_of_snoc (offsetFrame_tag_exit _ _)
  · simp only [Option.bind_eq_bind,Option.bind_eq_some_iff,Option.some.injEq] at hstep
    obtain ⟨-,-,-,-,rfl⟩ := hstep
    exact exit_of_snoc (offsetFrame_tag_exit _ _)
  · simp only [Option.bind_eq_bind,Option.bind_eq_some_iff,Option.some.injEq] at hstep
    obtain ⟨-,-,bytes,-,rfl⟩ := hstep
    exact exit_of_snoc (f := ⟨S_OUTPUT,bytes⟩) (by simp [S_OUTPUT,S_EXIT])
  · cases hstep

theorem exit_of_announce (t : LoopTask) :
    ∀ f ∈ t.announce.sent,f.tag = S_EXIT → f ∈ t.handler.sent := by
  unfold announce
  split_ifs
  · exact exit_of_snoc (f := ⟨S_READY,[]⟩) (by simp [S_READY,S_EXIT])
  · exact fun f hf _ => hf

theorem announce_phase (t : LoopTask) : t.announce.phase = t.handler.phase := by
  unfold announce
  split_ifs <;> rfl

theorem exit_of_replayed {log : List UInt8} {n : ℕ} {h h' : AttachHandler}
    (hstep : h.replayed log n = some h') : ∀ f ∈ h'.sent,f.tag = S_EXIT → f ∈ h.sent := by
  unfold AttachHandler.replayed at hstep
  split at hstep
  · split_ifs at hstep
    all_goals
      obtain rfl := Option.some.inj hstep
      exact exit_of_snoc (offsetFrame_tag_exit _ _)
  · cases hstep

theorem pollData_move (h : t.turn = .data) : Move t w .polls (t.pollData w) := by
  unfold pollData
  split
  · exact .viewForwards h ‹_›
  · split_ifs
    · exact .exits (.closed h ‹_›) (.inl rfl)
    · exact .viewDetaches h ‹_›
  · exact .findsNothing h (.inl ‹_›)
  · split
    · exact .forwards h ‹_› ‹_›
    · exact .findsNothing h (.inr ⟨‹_›,‹_›⟩)

theorem pollExit_move {polled : ℕ} (h : t.turn = .exit polled) :
    Move t w .polls (t.pollExit w) := by
  unfold pollExit
  split_ifs with hchanged hexit
  · exact .exits (.seen h hexit) (.inr rfl)
  · exact .seesNoExit h (by simpa using hexit)
  · exact .noExit h (Bool.eq_false_iff.mpr hchanged)

theorem pollIdle_move (h : t.turn = .idle) : Move t w .polls (t.pollIdle w) := by
  unfold pollIdle
  split_ifs with harmed
  · dsimp only
    split_ifs with hover
    · exact .exits (.silent h harmed.2 rfl hover) (.inl rfl)
    · exact .waits h harmed.2 rfl
  · exact .unarmed h

theorem poll_move (h : t.poll w = some t') : Move t w .polls t' := by
  unfold poll at h
  split at h <;> cases h
  next hturn => exact pollData_move hturn
  next hturn => exact pollExit_move hturn
  next hturn =>
    unfold pollDetach
    split_ifs
    · exact .detaches hturn
    · exact .noDetach hturn
  next hturn =>
    unfold pollGone
    split_ifs
    · exact .goes hturn
    · exact .stays hturn
  next hturn => exact pollIdle_move hturn
  next hturn =>
    unfold checkDrained
    split_ifs with hdrained
    · exact .exits (.drained hturn hdrained.1 hdrained.2.1 hdrained.2.2) (.inl rfl)
    · exact .goesOn hturn

theorem step_move (h : t.step w e = some t') : Move t w e t' := by
  cases e with
  | polls => exact poll_move h
  | observes =>
    simp only [step] at h
    split_ifs at h with hturn
    cases h
    exact .observes hturn
  | replays n =>
    simp only [step] at h
    split_ifs at h with hturn
    obtain ⟨handler,hhandler,rfl⟩ := Option.map_eq_some_iff.mp h
    exact .replays hturn hhandler
  | replayFails error =>
    simp only [step] at h
    split_ifs at h with hturn
    cases h
    exact .replayFails hturn.1 hturn.2
  | registers =>
    simp only [step] at h
    split_ifs at h with hturn
    cases h
    exact .registers hturn.1 hturn.2
  | leaves =>
    cases h
    exact .leaves
  | fails =>
    simp only [step] at h
    split_ifs at h with hturn
    cases h
    exact .fails hturn
  | formats bytes =>
    simp only [step] at h
    split at h <;> cases h
    exact .formats ‹_›
  | formatterCloses =>
    simp only [step] at h
    split at h <;> cases h
    exact .formatterCloses ‹_›

/-- A task that has returned takes no further turn. -/
theorem Move.not_returned (h : Move t w e t') (hne : t'.turn ≠ .returned) : t.turn ≠ .returned := by
  cases h with
  | observes hturn | replays hturn | registers hturn | viewForwards hturn | forwards hturn
  | findsNothing hturn | seesNoExit hturn | noExit hturn | noDetach hturn | stays hturn
  | waits hturn | unarmed hturn | goesOn hturn =>
    rw [hturn]
    simp
  | leaves => exact hne
  | formats => exact hne
  | formatterCloses => exact hne
  | replayFails | fails | exits | viewDetaches | detaches | goes => exact absurd rfl hne

end LoopTask

/-- An entry of an updated list is the new one or an old one. -/
theorem getElem?_set_cases {α : Type*} {xs : List α} {i j : ℕ} {a b : α}
    (h : (xs.set i a)[j]? = some b) : i = j ∧ a = b ∨ xs[j]? = some b := by
  rw [List.getElem?_set] at h
  split_ifs at h with hij hlt
  · exact .inl ⟨hij,Option.some.inj h⟩
  · exact .inr h

namespace LoopWorld
variable {w w' : LoopWorld} {e : LoopWorldEvent}

theorem step_task {i : ℕ} {a : TaskEvent} (h : w.step (.task i a) = some w') :
    ∃ t t', w.tasks[i]? = some t ∧ t.step w a = some t' ∧
      w' = { w with tasks := w.tasks.set i t' } := by
  obtain ⟨t,ht,h⟩ := Option.bind_eq_some_iff.mp h
  obtain ⟨t',ht',h⟩ := Option.bind_eq_some_iff.mp h
  exact ⟨t,t',ht,ht',(Option.some.inj h).symm⟩

theorem step_subscribes {i : ℕ} {viewFails : Bool}
    (h : w.step (.subscribes i viewFails) = some w') :
    ∃ t, w.tasks[i]? = some t ∧ t.turn = .observed ∧ w' = { w with
      hub := (t.subscribe w.hub viewFails).2
      tasks := w.tasks.set i (t.subscribe w.hub viewFails).1 } := by
  obtain ⟨t,ht,h⟩ := Option.bind_eq_some_iff.mp h
  split_ifs at h with hturn
  exact ⟨t,ht,hturn,(Option.some.inj h).symm⟩

/-- What a step can do, one constructor for each event. -/
inductive Move (w : LoopWorld) : LoopWorldEvent → LoopWorld → Prop
  | broadcast {data io} : w.stream.length + data.length ≤ MAX_FILE_LEN →
      Move w (.broadcast data io) { w with
        hub := (w.hub.broadcast w.disk data io).1, disk := (w.hub.broadcast w.disk data io).2
        stream := w.stream ++ data }
  | publishes {info} : w.exit.value = none → Move w (.publishes info) { w with
      exit := w.exit.send (some info), published := some w.stream.length }
  | requestsDetach : Move w .requestsDetach { w with detach := w.detach.send (w.detach.value+1) }
  | tick {ms} : Move w (.tick ms) { w with now := w.now + ms }
  | attach {request} : Move w (.attach request) { w with
      tasks := w.tasks ++ [.counted request w.detach] }
  | subscribes {i viewFails t} : w.tasks[i]? = some t → t.turn = .observed →
      Move w (.subscribes i viewFails) { w with
        hub := (t.subscribe w.hub viewFails).2
        tasks := w.tasks.set i (t.subscribe w.hub viewFails).1 }
  | task {i a t t'} : w.tasks[i]? = some t → LoopTask.Move t w a t' →
      Move w (.task i a) { w with tasks := w.tasks.set i t' }
  | dropClient {k} : ¬(w.tasks.any fun t => t.holds (·.isLegacy k)) = true →
      Move w (.dropClient k) { w with
        hub := { w.hub with clients := w.hub.clients.modify k Channel.close } }
  | dropResumeClient {k} : ¬(w.tasks.any fun t => t.holds (·.isOffset k)) = true →
      Move w (.dropResumeClient k) { w with
        hub := { w.hub with resumeClients := w.hub.resumeClients.modify k Channel.close } }

theorem step_move (h : w.step e = some w') : w.Move e w' := by
  cases e with
  | broadcast data io =>
    simp only [step] at h
    split_ifs at h with hfit
    obtain rfl := Option.some.inj h
    exact .broadcast hfit
  | publishes info =>
    simp only [step] at h
    split_ifs at h with hnone
    obtain rfl := Option.some.inj h
    exact .publishes hnone
  | requestsDetach =>
    obtain rfl := Option.some.inj h
    exact .requestsDetach
  | tick ms =>
    obtain rfl := Option.some.inj h
    exact .tick
  | attach request =>
    obtain rfl := Option.some.inj h
    exact .attach
  | subscribes i viewFails =>
    obtain ⟨t,ht,hturn,rfl⟩ := step_subscribes h
    exact .subscribes ht hturn
  | task i a =>
    obtain ⟨t,t',ht,hstep,rfl⟩ := step_task h
    exact .task ht (LoopTask.step_move hstep)
  | dropClient k =>
    simp only [step] at h
    split_ifs at h with hnone
    obtain rfl := Option.some.inj h
    exact .dropClient hnone
  | dropResumeClient k =>
    simp only [step] at h
    split_ifs at h with hnone
    obtain rfl := Option.some.inj h
    exact .dropResumeClient hnone

/-- The clock does not go back, and the two watch channels change by their own events. -/
theorem step_frame (h : w.step e = some w') : w.now ≤ w'.now ∧
    (w'.detach = w.detach ∨ w'.detach = w.detach.send (w.detach.value+1)) ∧
    (w'.exit = w.exit ∨ w.exit.value = none ∧ ∃ info, w'.exit = w.exit.send (some info)) := by
  cases step_move h with
  | publishes hnone => exact ⟨Nat.le_refl _,.inl rfl,.inr ⟨hnone,_,rfl⟩⟩
  | requestsDetach => exact ⟨Nat.le_refl _,.inr rfl,.inl rfl⟩
  | tick => exact ⟨Nat.le_add_right _ _,.inl rfl,.inl rfl⟩
  | broadcast | attach | subscribes | task | dropClient | dropResumeClient =>
    exact ⟨Nat.le_refl _,.inl rfl,.inl rfl⟩

/-- A property of every task is kept by a step that keeps it for the task that moves and for
those that do not. -/
theorem forall_getElem_step {Q : LoopWorld → ℕ → LoopTask → Prop} (h : w.step e = some w')
    (hstays : ∀ i t, w.tasks[i]? = some t → Q w i t → Q w' i t)
    (hnew : ∀ i request, e = .attach request → Q w' i (.counted request w.detach))
    (hsubscribes : ∀ i viewFails t, e = .subscribes i viewFails → w.tasks[i]? = some t →
      t.turn = .observed → Q w i t → Q w' i (t.subscribe w.hub viewFails).1)
    (hmoves : ∀ i a t t', e = .task i a → w.tasks[i]? = some t → LoopTask.Move t w a t' →
      Q w i t → Q w' i t')
    (hw : ∀ i t, w.tasks[i]? = some t → Q w i t) : ∀ i t, w'.tasks[i]? = some t → Q w' i t := by
  have hall : ∀ i t, w.tasks[i]? = some t → Q w' i t := fun i t ht => hstays i t ht (hw i t ht)
  cases step_move h with
  | attach =>
    intro i t ht
    rcases Nat.lt_or_ge i w.tasks.length with hlt | hge
    · exact hall i t ((List.getElem?_append_left hlt).symm.trans ht)
    · rw [List.getElem?_append_right hge] at ht
      rw [List.mem_singleton.mp (List.mem_of_getElem? ht)]
      exact hnew i _ rfl
  | subscribes ht hturn =>
    intro j u hu
    rcases getElem?_set_cases hu with ⟨rfl,rfl⟩ | hu
    · exact hsubscribes _ _ _ rfl ht hturn (hw _ _ ht)
    · exact hall j u hu
  | task ht hmove =>
    intro j u hu
    rcases getElem?_set_cases hu with ⟨rfl,rfl⟩ | hu
    · exact hmoves _ _ _ _ rfl ht hmove (hw _ _ ht)
    · exact hall j u hu
  | broadcast | publishes | requestsDetach | tick | dropClient | dropResumeClient => exact hall

theorem forall_tasks_step {Q : LoopWorld → LoopTask → Prop} (h : w.step e = some w')
    (hstays : ∀ t ∈ w.tasks,Q w t → Q w' t)
    (hnew : ∀ request, e = .attach request → Q w' (.counted request w.detach))
    (hsubscribes : ∀ i viewFails t, e = .subscribes i viewFails → w.tasks[i]? = some t →
      t.turn = .observed → Q w t → Q w' (t.subscribe w.hub viewFails).1)
    (hmoves : ∀ i a t t', e = .task i a → w.tasks[i]? = some t → LoopTask.Move t w a t' →
      Q w t → Q w' t')
    (hw : ∀ t ∈ w.tasks,Q w t) : ∀ t ∈ w'.tasks,Q w' t := by
  intro t ht
  obtain ⟨i,hi⟩ := List.mem_iff_getElem?.mp ht
  refine forall_getElem_step (Q := fun w _ t => Q w t) h ?_ (fun _ => hnew) hsubscribes hmoves ?_ i t hi
  · exact fun _ t hget => hstays t (List.mem_of_getElem? hget)
  · exact fun _ t hget => hw t (List.mem_of_getElem? hget)

/-- The published exit is news to every receiver of the exit that is made later. -/
def Numbered (w : LoopWorld) : Prop := w.exit.value.isSome = true → 0 < w.exit.version

theorem Numbered.step (hw : w.Numbered) (h : w.step e = some w') : w'.Numbered := by
  unfold Numbered
  obtain ⟨-,-,hexit | ⟨-,info,hexit⟩⟩ := step_frame h
  · rw [hexit]
    exact hw
  · rw [hexit]
    exact fun _ => Nat.succ_pos _

/-- What a task knows of the exit: it has seen it before its loop if it says so, and its
receiver has not, until the task returns. -/
structure KnowsExit (w : LoopWorld) (t : LoopTask) : Prop where
  published : t.alreadyExited = true → w.exit.value.isSome = true
  seen : t.exitSeen ≤ w.exit.version
  unseen : w.exit.value.isSome = true → t.turn ≠ .returned → t.exitSeen < w.exit.version

variable {t t' : LoopTask} {a : TaskEvent}

theorem knowsExit_counted (hw : w.Numbered) (request : AttachRequest) :
    w.KnowsExit (.counted request w.detach) :=
  ⟨by rintro ⟨⟩,Nat.zero_le _,fun hexit _ => hw hexit⟩

theorem KnowsExit.stays (ht : w.KnowsExit t) (h : w.step e = some w') : w'.KnowsExit t := by
  obtain ⟨-,-,hexit | ⟨hnone,info,hexit⟩⟩ := step_frame h
  · constructor
    · rw [hexit]
      exact ht.published
    · rw [hexit]
      exact ht.seen
    · rw [hexit]
      exact ht.unseen
  · constructor
    · rw [hexit]
      exact fun _ => rfl
    · rw [hexit]
      exact ht.seen.trans (Nat.le_succ _)
    · rw [hexit]
      exact fun _ _ => Nat.lt_succ_of_le ht.seen

theorem KnowsExit.subscribe (ht : w.KnowsExit t) (hturn : t.turn = .observed) (viewFails : Bool) :
    w.KnowsExit (t.subscribe w.hub viewFails).1 := by
  obtain ⟨-,hexited,hseen,-⟩ := t.subscribe_frame w.hub viewFails
  constructor
  · rw [hexited]
    exact ht.published
  · rw [hseen]
    exact ht.seen
  · rw [hseen]
    exact fun hexit _ => ht.unseen hexit (by simp [hturn])

theorem KnowsExit.step (ht : w.KnowsExit t) (hmove : LoopTask.Move t w a t') : w.KnowsExit t' := by
  have hturn := hmove.not_returned
  cases hmove with
  | observes =>
    exact ⟨id,ht.seen,fun hexit hne => ht.unseen hexit (hturn hne)⟩
  | exits _ hseen =>
    refine ⟨ht.published,?_,fun _ hne => absurd rfl hne⟩
    rcases hseen with rfl | rfl
    · exact ht.seen
    · exact Nat.le_refl _
  | seesNoExit _ hnone =>
    refine ⟨ht.published,Nat.le_refl _,fun hsome _ => ?_⟩
    rw [hnone] at hsome
    cases hsome
  | replays | replayFails | registers | leaves | fails | formats | formatterCloses | viewForwards
  | viewDetaches | forwards | findsNothing | noExit | detaches | noDetach | goes | stays | waits
  | unarmed | goesOn => exact ⟨ht.published,ht.seen,fun hexit hne => ht.unseen hexit (hturn hne)⟩

/-- The exit branch is ready when the exit is published. -/
theorem KnowsExit.exits (ht : w.KnowsExit t) {i polled : ℕ} (hget : w.tasks[i]? = some t)
    (hsome : w.exit.value.isSome = true) (hturn : t.turn = .exit polled)
    (h : w.step (.task i .polls) = some w') :
    w' = { w with tasks := w.tasks.set i ({ t with exitSeen := w.exit.version }.exits w) } ∧
      { t with exitSeen := w.exit.version }.exits w ∈ w'.tasks := by
  obtain ⟨u,u',hu,hpoll,rfl⟩ := step_task h
  obtain rfl : t = u := Option.some.inj (hget.symm.trans hu)
  have hready : w.exit.hasChanged t.exitSeen = true :=
    Watch.hasChanged_of_lt (ht.unseen hsome (by simp [hturn]))
  simp only [LoopTask.step,LoopTask.poll,hturn,LoopTask.pollExit,hready,hsome,if_true,
    Option.some.injEq] at hpoll
  subst hpoll
  exact ⟨rfl,List.mem_set (List.getElem?_eq_some_iff.mp hu).1 _⟩

end LoopWorld
end Babysit
