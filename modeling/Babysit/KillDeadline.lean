import Babysit.Lib.Refinement
import Babysit.Lib.ServiceQueue
import Babysit.Worker

/-! How long a kill takes. `dispatch` waits 7 s for the answer of `serve_worker`, which serves its
messages one at a time; `terminate_pane` waits 300 ms for a graceful exit, 2 s for the exit behind
SIGKILL, and polls the process group every 10 ms for 2 s. The worker of `Worker` is the one here
without its clock. -/
namespace Babysit

def KILL_TIMEOUT : ℕ := 7000

def GRACEFUL_WAIT : ℕ := 300

def FORCED_WAIT : ℕ := 2000

def GROUP_WAIT : ℕ := 2000

def GROUP_POLL : ℕ := 10

namespace TermPhase

/-- The limit of the wait a phase is in. -/
def waitLimit : TermPhase → ℕ
  | .awaitGraceful => GRACEFUL_WAIT
  | .awaitForced => FORCED_WAIT
  | _ => 0

/-- In `wait_for_process_group_exit`. -/
def inGroup : TermPhase → Bool
  | .probeGroup _ | .groupAlive _ => true
  | _ => false

/-- The group is still there: the deadline is looked at, and then it is polled again. -/
def isPolling : TermPhase → Bool
  | .groupAlive _ => true
  | _ => false

end TermPhase

namespace WorkerPhase

/-- The control socket is there, or has been. -/
def isListening : WorkerPhase → Bool
  | .spawning | .recordingSpawnFailure _ | .recordingRunning _ => false
  | _ => true

/-- The message that is served. -/
def message : WorkerPhase → Option LoopMessage
  | .terminating .restart _ | .respawning | .recordingRestart _ => some .restart
  | .terminating .kill _ | .recordingKill _ => some .kill
  | _ => none

/-- The loop is about to begin, or has not been left. -/
def takesMessages : WorkerPhase → Bool
  | .serving | .looping => true
  | phase => phase.message.isSome

def term : WorkerPhase → Option TermPhase
  | .terminating _ phase => some phase
  | _ => none

end WorkerPhase

/-- The worker on a clock. `since` is when it came to its phase, `groupDeadline` and `asleepUntil`
belong to the wait for the process group. The queue repeats the messages, with when they were
sent, and `answered` the kills that were answered and when. -/
structure TimedWorker where
  worker : Worker
  clock : ℕ
  since : ℕ
  groupDeadline : ℕ
  asleepUntil : Option ℕ
  queue : ServiceQueue LoopMessage
  answered : List (Ask LoopMessage × ℕ)

/-- `looks` is the look at the deadline between two polls of the group; `givesUp` is `dispatch`,
which has waited long enough. -/
inductive TimedEvent
  | worker (e : WorkerEvent)
  | looks
  | givesUp (r : Ask LoopMessage)
  | passes (ms : ℕ)

namespace TimedWorker

def start (clock : ℕ) : TimedWorker := ⟨.start,clock,clock,clock,none,.empty clock,[]⟩

/-- What the clock allows. -/
def Ready (w : TimedWorker) : WorkerEvent → Prop
  | .request _ => w.worker.phase.isListening = true
  | .os .waited => w.worker.exitInfo.isSome = true ∨
      ∀ phase ∈ w.worker.phase.term, w.since+phase.waitLimit ≤ w.clock
  | .os .proceed => ∀ phase ∈ w.worker.phase.term, phase.isPolling = true →
      ∃ t ∈ w.asleepUntil, t ≤ w.clock
  | .os .deadline => w.asleepUntil = none ∧ w.groupDeadline ≤ w.clock
  | _ => True

instance (w : TimedWorker) : (e : WorkerEvent) → Decidable (w.Ready e)
  | .request _ => inferInstanceAs (Decidable (_ = true))
  | .os .waited => inferInstanceAs (Decidable (_ = true ∨ ∀ phase ∈ w.worker.phase.term, _))
  | .os .proceed => inferInstanceAs (Decidable (∀ phase ∈ w.worker.phase.term, _ → _))
  | .os .deadline => inferInstanceAs (Decidable (_ ∧ _))
  | .os (.probed _) | .os (.signalled _) | .spawned _ | .spawnFailed _ _ | .served _ | .timeout
  | .idle | .receive | .exitNotified | .record _ | .drained | .left | .died
  | .pane _ _ => inferInstanceAs (Decidable True)

/-- The step answers a kill. -/
def replies (w : TimedWorker) (v : Worker) : Bool := w.worker.replies.length < v.replies.length

/-- What becomes of the messages. -/
def served (w : TimedWorker) (v : Worker) : ServiceQueue LoopMessage :=
  match w.worker.phase.message,v.phase.message with
  | none,some _ => w.queue.take w.clock
  | some _,none => if v.phase.takesMessages ∨ w.replies v then w.queue.free w.clock else w.queue
  | _,_ => w.queue

/-- A step of the worker's own. The deadline of the wait for the group is fixed when it begins. -/
def moved (w : TimedWorker) (v : Worker) : TimedWorker where
  worker := v
  clock := w.clock
  since := w.clock
  groupDeadline :=
    if w.worker.phase.term.any TermPhase.inGroup then w.groupDeadline else w.clock+GROUP_WAIT
  asleepUntil := none
  queue := w.served v
  answered := w.answered ++
    if w.replies v then w.queue.serving.toList.map fun r => (r,w.clock) else []

def next (w : TimedWorker) (v : Worker) : WorkerEvent → TimedWorker
  | .request m => { w with worker := v, queue := w.queue.ask w.clock m }
  | .pane _ _ => { w with worker := v }
  | _ => w.moved v

/-- A request whose answer `dispatch` waits for. -/
def Waits (w : TimedWorker) (r : Ask LoopMessage) : Prop :=
  r ∈ w.queue.waiting ∨ r ∈ w.queue.serving

instance (w : TimedWorker) (r : Ask LoopMessage) : Decidable (w.Waits r) :=
  inferInstanceAs (Decidable (_ ∨ _))

def step (cfg : WorkerConfig) (w : TimedWorker) : TimedEvent → Option TimedWorker
  | .worker e => if w.Ready e then (w.worker.step cfg e).map fun v => w.next v e else none
  | .looks =>
    if w.worker.phase.term.any TermPhase.isPolling ∧ w.asleepUntil = none ∧
        w.clock < w.groupDeadline then
      some { w with asleepUntil := some (w.clock+GROUP_POLL) }
    else none
  | .givesUp r =>
    -- the worker is not told
    if w.Waits r ∧ r.what = .kill ∧ r.asked+KILL_TIMEOUT ≤ w.clock then some w else none
  | .passes ms => some { w with clock := w.clock+ms }

/-- When the worker's next step is late. -/
def due (delay : ℕ) (w : TimedWorker) : Option ℕ :=
  match w.worker.phase with
  | .serving | .looping => w.queue.waiting.head?.map fun r => max w.since r.asked + delay
  | .terminating _ (.groupAlive _) => some (w.asleepUntil.getD w.since + delay)
  | .terminating _ phase => some (w.since + phase.waitLimit + delay)
  | .respawning | .recordingRestart _ | .recordingKill _ => some (w.since + delay)
  | _ => none

/-- What the worker can do it does within `delay`. -/
def Prompt (delay : ℕ) (w : TimedWorker) : TimedEvent → Prop
  | .passes ms => ∀ t ∈ w.due delay, w.clock+ms ≤ t
  | _ => True

instance (delay : ℕ) (w : TimedWorker) : (e : TimedEvent) → Decidable (w.Prompt delay e)
  | .passes ms => inferInstanceAs (Decidable (∀ t ∈ w.due delay, w.clock+ms ≤ t))
  | .worker _ | .looks | .givesUp _ => inferInstanceAs (Decidable True)

/-- How long a message is served. -/
def service (delay : ℕ) : ℕ := GRACEFUL_WAIT+FORCED_WAIT+GROUP_WAIT+GROUP_POLL + 10*delay

/-- With the time until it is taken. -/
def cycle (delay : ℕ) : ℕ := service delay + 2*delay

/-- Every answer of the worker is to a kill, and in time; and so far those who wait have not
waited too long. -/
structure InTime (delay : ℕ) (w : TimedWorker) : Prop where
  answered : w.answered.length = w.worker.replies.length ∧
    ∀ a ∈ w.answered, a.1.what = .kill ∧ a.1.InTime (cycle delay) a.2
  waiting : w.worker.phase.takesMessages = true →
    w.queue.waiting.map Ask.what = w.worker.messages ∧
    ∀ r, w.Waits r → r.InTime (cycle delay) w.clock

/-- While the loop lasts, `dispatch` gives up only on a kill behind too many messages. -/
def GivesUpBehind (delay : ℕ) (w : TimedWorker) : TimedEvent → Prop
  | .givesUp r => w.worker.phase.takesMessages = true → KILL_TIMEOUT ≤ (r.ahead+1) * cycle delay
  | _ => True

end TimedWorker

namespace TermPhase
variable {exitInfo : Option ExitInfo} {phase next : TermPhase} {a : OsAnswer} {delay : ℕ}

/-- How long `terminate_pane` may still take from a phase on. -/
def budget (delay : ℕ) : TermPhase → ℕ
  | .exitInfo => GRACEFUL_WAIT+FORCED_WAIT+GROUP_WAIT+GROUP_POLL + 8*delay
  | .hangUp => GRACEFUL_WAIT+FORCED_WAIT+GROUP_WAIT+GROUP_POLL + 7*delay
  | .awaitGraceful => GRACEFUL_WAIT+FORCED_WAIT+GROUP_WAIT+GROUP_POLL + 6*delay
  | .escalate none => FORCED_WAIT+GROUP_WAIT+GROUP_POLL + 5*delay
  | .awaitForced => FORCED_WAIT+GROUP_WAIT+GROUP_POLL + 4*delay
  | .probeExited _ | .probeGraceful _ => GROUP_WAIT+GROUP_POLL + 5*delay
  | .cleanUp _ | .escalate (some _) => GROUP_WAIT+GROUP_POLL + 4*delay
  | .probeGroup _ | .groupAlive _ => GROUP_WAIT+GROUP_POLL + 3*delay

/-- A call uses up its wait and the delay; the polls of the group share a budget. -/
theorem budget_step (delay : ℕ) (h : phase.step exitInfo a = some (.inl next)) :
    phase.inGroup = true ∧ next.inGroup = true ∨
      phase.inGroup = false ∧ next.isPolling = false ∧
        phase.waitLimit + delay + next.budget delay ≤ phase.budget delay := by
  unfold step at h
  split at h
  -- what happens next depends on the exit information
  case h_1 | h_8 | h_12 | h_13 =>
    split at h <;> cases h <;> refine .inr ⟨rfl,rfl,?_⟩ <;> simp only [waitLimit,budget] <;> omega
  -- an answered probe
  case h_3 | h_10 =>
    split_ifs at h <;> cases h
    refine .inr ⟨rfl,rfl,?_⟩
    simp only [waitLimit,budget]
    omega
  case h_15 =>
    split_ifs at h <;> cases h
    exact .inl ⟨rfl,rfl⟩
  case h_17 =>
    cases h
    exact .inl ⟨rfl,rfl⟩
  all_goals cases h
  all_goals
    refine .inr ⟨rfl,rfl,?_⟩
    simp only [waitLimit,budget]
    omega

theorem waitLimit_le_budget (delay : ℕ) (hgroup : phase.inGroup = false) :
    phase.waitLimit + delay ≤ phase.budget delay := by
  cases phase with
  | probeGroup | groupAlive => cases hgroup
  | escalate graceful => cases graceful <;> simp only [waitLimit,budget] <;> omega
  | _ =>
    simp only [waitLimit,budget]
    omega

/-- A group that is still there is polled again. -/
theorem step_probeGroup {info : ExitInfo}
    (h : (probeGroup info).step exitInfo a = some (.inl next)) : next = .groupAlive info := by
  cases a with
  | probed alive =>
    cases alive with
    | error => cases h
    | ok alive =>
      simp only [step] at h
      split_ifs at h <;> cases h
      rfl
  | _ => cases h

theorem step_groupAlive {info : ExitInfo}
    (h : (groupAlive info).step exitInfo a = some (.inl next)) :
    a = .proceed ∧ next = .probeGroup info := by
  cases a <;> cases h
  exact ⟨rfl,rfl⟩

end TermPhase

namespace TimedWorker

/-- When the message that is served is done with. -/
def ends (delay : ℕ) (w : TimedWorker) : ℕ :=
  match w.worker.phase with
  | .terminating _ phase =>
    (if phase.inGroup then w.groupDeadline + GROUP_POLL + 3*delay
      else w.since + phase.budget delay) + 2*delay
  | .respawning => w.since + 2*delay
  | _ => w.since + delay

/-- The wait for the group keeps to its deadline. -/
def Polls (delay : ℕ) (w : TimedWorker) : Prop :=
  match w.worker.phase with
  | .terminating _ (.probeGroup _) => w.since ≤ w.groupDeadline + GROUP_POLL + delay
  | .terminating _ (.groupAlive _) =>
    match w.asleepUntil with
    | none => w.since ≤ w.groupDeadline + GROUP_POLL + 2*delay
    | some t => t ≤ w.groupDeadline + GROUP_POLL
  | _ => True

/-- Where the loop has begun, it has begun within `delay` of the first message. -/
def Begun (delay : ℕ) (w : TimedWorker) : Prop :=
  ∀ first ∈ w.queue.waiting.head?,
    match w.worker.phase with
    | .serving => w.since ≤ first.asked
    | .looping => w.since ≤ max w.queue.since first.asked + delay
    | _ => True

/-- The invariant. -/
structure Kept (delay : ℕ) (w : TimedWorker) : Prop where
  clocks : w.since ≤ w.clock ∧ w.queue.since ≤ w.clock ∧ ∀ r ∈ w.queue.waiting, r.asked ≤ w.clock
  messages : w.queue.waiting.map Ask.what = w.worker.messages
  unheard : w.worker.phase.isListening = false →
    w.queue.waiting = [] ∧ w.queue.serving = none
  due : ∀ t ∈ w.due delay, w.clock ≤ t
  polls : w.Polls delay
  taking : w.worker.phase.takesMessages = true →
    w.queue.serving.map Ask.what = w.worker.phase.message ∧
      w.queue.OnTime (service delay) (cycle delay) ∧ w.Begun delay
  serves : w.worker.phase.message.isSome = true → w.ends delay ≤ w.queue.since + service delay
  answered : w.answered.length = w.worker.replies.length ∧
    ∀ a ∈ w.answered, a.1.what = .kill ∧ a.1.InTime (cycle delay) a.2

variable {delay : ℕ} {w w' : TimedWorker} {cfg : WorkerConfig}

theorem due_call {cause : Cause} {phase : TermPhase}
    (hphase : w.worker.phase = .terminating cause phase) (hpolling : phase.isPolling = false) :
    w.due delay = some (w.since + phase.waitLimit + delay) := by
  unfold due
  rw [hphase]
  cases phase <;> first | rfl | cases hpolling

theorem ends_call {cause : Cause} {phase : TermPhase}
    (hphase : w.worker.phase = .terminating cause phase) (hgroup : phase.inGroup = false) :
    w.ends delay = w.since + phase.budget delay + 2*delay := by
  unfold ends
  rw [hphase]
  simp only [hgroup,Bool.false_eq_true,if_false]

theorem ends_group {cause : Cause} {phase : TermPhase}
    (hphase : w.worker.phase = .terminating cause phase) (hgroup : phase.inGroup = true) :
    w.ends delay = w.groupDeadline + GROUP_POLL + 5*delay := by
  unfold ends
  rw [hphase]
  simp only [hgroup,if_true]
  omega

/-- A call of `terminate_pane` is due two delays before the message is to be done with. -/
theorem due_call_le_ends (hpolls : w.Polls delay) {cause : Cause} {phase : TermPhase}
    (hphase : w.worker.phase = .terminating cause phase) :
    ∃ t ∈ w.due delay, t + 2*delay ≤ w.ends delay := by
  unfold Polls at hpolls
  rw [hphase] at hpolls
  cases hgroup : phase.inGroup with
  | false =>
    have hpolling : phase.isPolling = false := by
      cases phase <;> first | rfl | cases hgroup
    have hle := TermPhase.waitLimit_le_budget delay hgroup
    refine ⟨_,due_call hphase hpolling,?_⟩
    rw [ends_call hphase hgroup]
    omega
  | true =>
    rw [ends_group hphase hgroup]
    cases phase with
    | probeGroup info =>
      refine ⟨_,due_call hphase rfl,?_⟩
      simp only [TermPhase.waitLimit] at hpolls ⊢
      omega
    | groupAlive info =>
      refine ⟨w.asleepUntil.getD w.since + delay,by rw [due,hphase]; rfl,?_⟩
      cases hasleep : w.asleepUntil with
      | none =>
        simp only [hasleep] at hpolls
        rw [Option.getD_none]
        omega
      | some t =>
        simp only [hasleep] at hpolls
        rw [Option.getD_some]
        omega
    | _ => cases hgroup

/-- The next step of the worker is due before the message is to be done with. -/
theorem due_le_ends (hpolls : w.Polls delay) (hserves : w.worker.phase.message.isSome = true) :
    ∃ t ∈ w.due delay, t ≤ w.ends delay := by
  cases hphase : w.worker.phase with
  | terminating cause phase =>
    obtain ⟨t,ht,hle⟩ := due_call_le_ends hpolls hphase
    exact ⟨t,ht,by omega⟩
  | respawning =>
    refine ⟨w.since+delay,by rw [due,hphase]; rfl,?_⟩
    rw [ends,hphase]
    dsimp only
    omega
  | recordingRestart | recordingKill =>
    refine ⟨w.since+delay,by rw [due,hphase]; rfl,?_⟩
    rw [ends,hphase]
  | _ =>
    rw [hphase] at hserves
    cases hserves

/-- The message that is served is within its time. -/
theorem Kept.clock_le (h : Kept delay w) (hserves : w.worker.phase.message.isSome = true) :
    w.clock ≤ w.queue.since + service delay := by
  obtain ⟨t,ht,hle⟩ := due_le_ends h.polls hserves
  exact (h.due t ht).trans (hle.trans (h.serves hserves))

theorem takesMessages_of_message {phase : WorkerPhase} (h : phase.message.isSome = true) :
    phase.takesMessages = true := by
  cases phase <;> first | rfl | exact h

/-- A loop that serves no message waits for one. -/
theorem waits_of_takesMessages {phase : WorkerPhase} (h : phase.takesMessages = true)
    (hmessage : phase.message = none) : phase = .serving ∨ phase = .looping := by
  cases phase with
  | serving => exact .inl rfl
  | looping => exact .inr rfl
  | _ => exact absurd hmessage (Option.isSome_iff_ne_none.mp h)

/-- The first message is taken within two delays. -/
theorem Kept.pickupBy (h : Kept delay w) (hwaits : w.worker.phase = .serving ∨ w.worker.phase = .looping) :
    ∀ t ∈ w.queue.pickupBy (2*delay), w.clock ≤ t := by
  intro t ht
  obtain ⟨first,hfirst,rfl⟩ := Option.map_eq_some_iff.mp ht
  have htakes : w.worker.phase.takesMessages = true := by
    rcases hwaits with hp | hp <;> rw [hp] <;> rfl
  have hbegun := (h.taking htakes).2.2 first hfirst
  have hdue := h.due (max w.since first.asked + delay) (by
    unfold TimedWorker.due
    rcases hwaits with hp | hp <;> rw [hp] <;> exact Option.map_eq_some_iff.mpr ⟨first,hfirst,rfl⟩)
  rcases hwaits with hp | hp <;> rw [hp] at hbegun <;> dsimp only at hbegun <;> omega

theorem Kept.inTime (h : Kept delay w) : InTime delay w := by
  refine ⟨h.answered,fun htakes => ⟨h.messages,?_⟩⟩
  obtain ⟨hserving,hqueue,-⟩ := h.taking htakes
  have hcycle : 2*delay + service delay ≤ cycle delay := Nat.le_of_eq (Nat.add_comm _ _)
  refine hqueue.inTime hcycle (fun hsome => ?_) fun hnone => ?_
  · refine h.clock_le ?_
    rw [← hserving,Option.isSome_map]
    exact hsome
  · refine h.pickupBy (waits_of_takesMessages htakes ?_)
    rw [← hserving,hnone]
    rfl

section Moves
variable {v : Worker}

theorem served_same (h : v.phase.message = w.worker.phase.message) : w.served v = w.queue := by
  unfold served
  rw [h]
  cases w.worker.phase.message <;> rfl

theorem replies_same (h : v.replies = w.worker.replies) : w.replies v = false := by
  simp [replies,h]

theorem due_moved (v : Worker) : ∀ t ∈ (w.moved v).due delay, w.clock ≤ t := by
  intro t ht
  unfold due at ht
  split at ht
  · obtain ⟨first,-,rfl⟩ := Option.map_eq_some_iff.mp ht
    simp only [moved]
    omega
  · obtain ⟨first,-,rfl⟩ := Option.map_eq_some_iff.mp ht
    simp only [moved]
    omega
  all_goals
    cases ht <;>
    · simp only [moved,Option.getD_none]
      omega

/-- A step that leaves the loop, or comes before it. -/
theorem Kept.leaves (h : Kept delay w) (htakes : v.phase.takesMessages = false)
    (hlisten : v.phase.isListening = false → w.worker.phase.isListening = false)
    (hmessages : v.messages = w.worker.messages) (hreplies : v.replies = w.worker.replies)
    (hpolls : (w.moved v).Polls delay) : Kept delay (w.moved v) := by
  have hmessage : v.phase.message = none := by
    by_contra hne
    rw [takesMessages_of_message (Option.isSome_iff_ne_none.mpr hne)] at htakes
    cases htakes
  have hnot := replies_same hreplies
  have hserved : w.served v = w.queue := by
    unfold served
    rw [hmessage,htakes,hnot]
    cases w.worker.phase.message <;> rfl
  refine ⟨⟨Nat.le_refl _,?_⟩,?_,?_,due_moved v,hpolls,?_,?_,?_⟩
  · simp only [moved,hserved]
    exact h.clocks.2
  · simp only [moved,hserved,hmessages]
    exact h.messages
  · simp only [moved,hserved]
    exact fun hl => h.unheard (hlisten hl)
  · intro ht
    rw [show (w.moved v).worker.phase = v.phase from rfl,htakes] at ht
    cases ht
  · intro hs
    rw [show (w.moved v).worker.phase = v.phase from rfl,hmessage] at hs
    cases hs
  · simp only [moved,hnot,hreplies,Bool.false_eq_true,if_false,List.append_nil]
    exact h.answered

/-- A step that goes on with a message. -/
theorem Kept.goesOn (h : Kept delay w) (hmessage : v.phase.message = w.worker.phase.message)
    (hsome : w.worker.phase.message.isSome = true) (hlisten : v.phase.isListening = true)
    (hmessages : v.messages = w.worker.messages) (hreplies : v.replies = w.worker.replies)
    (hpolls : (w.moved v).Polls delay) (hends : (w.moved v).ends delay ≤ w.ends delay) :
    Kept delay (w.moved v) := by
  have hserved := served_same hmessage
  have hnot := replies_same hreplies
  obtain ⟨hserving,hqueue,-⟩ := h.taking (takesMessages_of_message hsome)
  refine ⟨⟨Nat.le_refl _,?_⟩,?_,?_,due_moved v,hpolls,fun _ => ⟨?_,?_,?_⟩,fun _ => ?_,?_⟩
  · simp only [moved,hserved]
    exact h.clocks.2
  · simp only [moved,hserved,hmessages]
    exact h.messages
  · intro hl
    rw [show (w.moved v).worker.phase = v.phase from rfl,hlisten] at hl
    cases hl
  · simp only [moved,hserved,hmessage]
    exact hserving
  · simp only [moved,hserved]
    exact hqueue
  · intro first _
    rw [← hmessage] at hsome
    simp only [moved]
    cases hphase : v.phase with
    | serving | looping =>
      rw [hphase] at hsome
      cases hsome
    | _ => trivial
  · simp only [moved,hserved] at hends ⊢
    exact hends.trans (h.serves hsome)
  · simp only [moved,hnot,hreplies,Bool.false_eq_true,if_false,List.append_nil]
    exact h.answered

theorem groupDeadline_of_inGroup {cause : Cause} {phase : TermPhase}
    (hphase : w.worker.phase = .terminating cause phase) (hgroup : phase.inGroup = true) :
    (w.moved v).groupDeadline = w.groupDeadline := by
  simp [moved,hphase,WorkerPhase.term,hgroup]

theorem groupDeadline_of_not_inGroup {cause : Cause} {phase : TermPhase}
    (hphase : w.worker.phase = .terminating cause phase) (hgroup : phase.inGroup = false) :
    (w.moved v).groupDeadline = w.clock+GROUP_WAIT := by
  simp [moved,hphase,WorkerPhase.term,hgroup]

theorem Kept.polls_called (h : Kept delay w) {cause : Cause} {phase next : TermPhase} {a : OsAnswer}
    (hphase : w.worker.phase = .terminating cause phase) (hv : v.phase = .terminating cause next)
    (hstep : phase.step w.worker.exitInfo a = some (.inl next)) (hready : w.Ready (.os a)) :
    (w.moved v).Polls delay := by
  have hpolls := h.polls
  unfold TimedWorker.Polls at hpolls ⊢
  rw [hphase] at hpolls
  rw [show (w.moved v).worker.phase = _ from hv]
  cases hgroup : phase.inGroup with
  | false =>
    have hdeadline := groupDeadline_of_not_inGroup (v := v) hphase hgroup
    cases next with
    | probeGroup =>
      dsimp only
      rw [hdeadline]
      simp only [moved]
      omega
    | groupAlive =>
      obtain ⟨hg,-⟩ | ⟨-,hpolling,-⟩ := TermPhase.budget_step delay hstep
      · rw [hgroup] at hg
        cases hg
      · cases hpolling
    | _ => trivial
  | true =>
    have hdeadline := groupDeadline_of_inGroup (v := v) hphase hgroup
    cases phase with
    | probeGroup info =>
      have hclock := h.due _ (due_call hphase rfl)
      obtain rfl := TermPhase.step_probeGroup hstep
      simp only [TermPhase.waitLimit] at hclock hpolls
      dsimp only
      rw [hdeadline]
      simp only [moved]
      omega
    | groupAlive info =>
      obtain ⟨rfl,rfl⟩ := TermPhase.step_groupAlive hstep
      obtain ⟨t,ht,-⟩ := hready _ (by rw [hphase]; rfl) rfl
      have hasleep : w.asleepUntil = some t := ht
      have hclock := h.due (t+delay) (by rw [TimedWorker.due,hphase,hasleep]; rfl)
      simp only [hasleep] at hpolls
      dsimp only
      rw [hdeadline]
      simp only [moved]
      omega
    | _ => cases hgroup

/-- A call of `terminate_pane` does not put the end off. -/
theorem Kept.ends_called (h : Kept delay w) {cause : Cause} {phase next : TermPhase} {a : OsAnswer}
    (hphase : w.worker.phase = .terminating cause phase) (hv : v.phase = .terminating cause next)
    (hstep : phase.step w.worker.exitInfo a = some (.inl next)) :
    (w.moved v).ends delay ≤ w.ends delay := by
  have hnow : (w.moved v).since = w.clock := rfl
  obtain ⟨hg,hg'⟩ | ⟨hg,-,hbudget⟩ := TermPhase.budget_step delay hstep
  · rw [ends_group hphase hg,ends_group (w := w.moved v) hv hg',groupDeadline_of_inGroup hphase hg]
  · have hpolling : phase.isPolling = false := by
      cases phase <;> first | rfl | cases hg
    have hclock := h.due _ (due_call hphase hpolling)
    rw [ends_call hphase hg]
    cases hg' : next.inGroup with
    | false =>
      rw [ends_call (w := w.moved v) hv hg',hnow]
      omega
    | true =>
      have hgroup : next.budget delay = GROUP_WAIT+GROUP_POLL + 3*delay := by
        cases next <;> first | rfl | cases hg'
      rw [ends_group (w := w.moved v) hv hg',groupDeadline_of_not_inGroup hphase hg]
      omega

/-- The loop takes its next message. -/
theorem Kept.takes (h : Kept delay w) (hphase : w.worker.phase = .looping) {m : LoopMessage}
    {rest : List LoopMessage} (hmessages : w.worker.messages = m::rest) {cause : Cause}
    (hv : v.phase = .terminating cause .exitInfo) (hmessage : v.phase.message = some m)
    (hrest : v.messages = rest) (hreplies : v.replies = w.worker.replies) :
    Kept delay (w.moved v) := by
  have htakes : w.worker.phase.takesMessages = true := by rw [hphase]; rfl
  have hnone : w.worker.phase.message = none := by rw [hphase]; rfl
  have hnot := replies_same hreplies
  obtain ⟨hserving,hqueue,-⟩ := h.taking htakes
  have hfree : w.queue.serving = none := by
    rw [hnone] at hserving
    exact Option.map_eq_none_iff.mp hserving
  have hserved : w.served v = w.queue.take w.clock := by
    unfold served
    rw [hnone,hmessage]
  have hwhat := h.messages
  rw [hmessages] at hwhat
  obtain ⟨first,others,hwaiting,hfirst,hothers⟩ := List.map_eq_cons_iff.mp hwhat
  have htaken : w.queue.take w.clock = ⟨others,some first,w.clock⟩ := by
    rw [ServiceQueue.take,hwaiting]
  have hpickup : w.clock ≤ max w.queue.since first.asked + 2*delay := by
    refine h.pickupBy (.inr hphase) _ ?_
    rw [ServiceQueue.pickupBy,hwaiting]
    rfl
  have hcycle : 2*delay + service delay ≤ cycle delay := Nat.le_of_eq (Nat.add_comm _ _)
  have hontime := hqueue.take hcycle hwaiting hfree hpickup
  rw [htaken] at hserved hontime
  refine ⟨⟨Nat.le_refl _,?_⟩,?_,?_,due_moved v,?_,fun _ => ⟨?_,?_,?_⟩,fun _ => ?_,?_⟩
  · simp only [moved,hserved]
    refine ⟨Nat.le_refl _,fun r hr => h.clocks.2.2 r ?_⟩
    rw [hwaiting]
    exact List.mem_cons_of_mem _ hr
  · simp only [moved,hserved,hrest]
    exact hothers
  · intro hl
    rw [show (w.moved v).worker.phase = _ from hv] at hl
    cases hl
  · unfold TimedWorker.Polls
    rw [show (w.moved v).worker.phase = _ from hv]
    trivial
  · rw [show (w.moved v).worker.phase.message = _ from hmessage,← hfirst]
    simp only [moved,hserved,Option.map_some]
  · simp only [moved,hserved]
    exact hontime
  · intro first _
    rw [show (w.moved v).worker.phase = _ from hv]
    trivial
  · rw [ends_call (w := w.moved v) hv rfl]
    simp only [moved,hserved,TermPhase.budget,service]
    omega
  · simp only [moved,hnot,hreplies,Bool.false_eq_true,if_false,List.append_nil]
    exact h.answered

/-- The loop goes on behind a message, or is left behind an answered one. -/
theorem Kept.finishes (h : Kept delay w) (hsome : w.worker.phase.message.isSome = true)
    (hmessage : v.phase.message = none) (hlisten : v.phase.isListening = true)
    (hloop : v.phase.takesMessages = true → v.phase = .looping)
    (hdone : v.phase.takesMessages = true ∨ w.replies v = true)
    (hmessages : v.messages = w.worker.messages) (hpolls : (w.moved v).Polls delay)
    (hreplies : w.replies v = true →
      w.worker.phase.message = some .kill ∧ v.replies.length = w.worker.replies.length+1)
    (hsilent : w.replies v = false → v.replies = w.worker.replies) :
    Kept delay (w.moved v) := by
  obtain ⟨hserving,hqueue,-⟩ := h.taking (takesMessages_of_message hsome)
  have hclock := h.clock_le hsome
  obtain ⟨m,hm⟩ := Option.isSome_iff_exists.mp hsome
  have hserved : w.served v = w.queue.free w.clock := by
    unfold served
    rw [hm,hmessage]
    exact if_pos hdone
  have hbusy : w.queue.serving.isSome = true := by
    rw [← Option.isSome_map (f := Ask.what),hserving]
    exact hsome
  refine ⟨⟨Nat.le_refl _,?_⟩,?_,?_,due_moved v,hpolls,fun ht => ⟨?_,?_,?_⟩,fun hs => ?_,?_⟩
  · simp only [moved,hserved]
    exact ⟨Nat.le_refl _,h.clocks.2.2⟩
  · simp only [moved,hserved,hmessages]
    exact h.messages
  · intro hl
    rw [show (w.moved v).worker.phase = v.phase from rfl,hlisten] at hl
    cases hl
  · rw [show (w.moved v).worker.phase.message = _ from hmessage]
    simp only [moved,hserved]
    rfl
  · simp only [moved,hserved]
    exact hqueue.free hbusy hclock
  · intro first hfirst
    rw [show (w.moved v).worker.phase = _ from hloop ht]
    simp only [moved,hserved,ServiceQueue.free]
    omega
  · rw [show (w.moved v).worker.phase.message = _ from hmessage] at hs
    cases hs
  · cases hreply : w.replies v with
    | false =>
      simp only [moved,hreply,hsilent hreply,Bool.false_eq_true,if_false,List.append_nil]
      exact h.answered
    | true =>
      obtain ⟨hkill,hlength⟩ := hreplies hreply
      obtain ⟨r,hr⟩ := Option.isSome_iff_exists.mp hbusy
      rw [hkill,hr] at hserving
      have hwhat : r.what = .kill := Option.some.inj hserving
      have hin : r.InTime (cycle delay) w.clock := hclock.trans (hqueue.serving r hr)
      simp only [moved,hreply,if_true,hr,Option.toList_some,List.map_cons,List.map_nil]
      refine ⟨?_,fun a ha => ?_⟩
      · rw [List.length_append,h.answered.1,hlength]
        rfl
      · rcases List.mem_append.mp ha with ha | ha
        · exact h.answered.2 a ha
        · obtain rfl := List.mem_singleton.mp ha
          exact ⟨hwhat,hin⟩

/-- The loop begins, with the messages that have come since the socket is there. -/
theorem Kept.loops (h : Kept delay w) (hphase : w.worker.phase = .serving) (hv : v.phase = .looping)
    (hmessages : v.messages = w.worker.messages) (hreplies : v.replies = w.worker.replies) :
    Kept delay (w.moved v) := by
  have hserved : w.served v = w.queue := served_same (by rw [hphase,hv]; rfl)
  have hnot := replies_same hreplies
  obtain ⟨hserving,hqueue,hbegun⟩ := h.taking (by rw [hphase]; rfl)
  refine ⟨⟨Nat.le_refl _,?_⟩,?_,?_,due_moved v,?_,fun _ => ⟨?_,?_,?_⟩,fun hs => ?_,?_⟩
  · simp only [moved,hserved]
    exact h.clocks.2
  · simp only [moved,hserved,hmessages]
    exact h.messages
  · intro hl
    rw [show (w.moved v).worker.phase = _ from hv] at hl
    cases hl
  · unfold TimedWorker.Polls
    rw [show (w.moved v).worker.phase = _ from hv]
    trivial
  · rw [hphase] at hserving
    rw [show (w.moved v).worker.phase = _ from hv]
    simp only [moved,hserved]
    exact hserving
  · simp only [moved,hserved]
    exact hqueue
  · intro first hfirst
    simp only [moved,hserved] at hfirst
    have hfirst' := hbegun first hfirst
    have hdue := h.due (max w.since first.asked + delay) (by
      rw [TimedWorker.due,hphase]
      exact Option.map_eq_some_iff.mpr ⟨first,hfirst,rfl⟩)
    rw [hphase] at hfirst'
    rw [show (w.moved v).worker.phase = _ from hv]
    dsimp only at hfirst'
    simp only [moved,hserved]
    omega
  · rw [show (w.moved v).worker.phase = _ from hv] at hs
    cases hs
  · simp only [moved,hnot,hreplies,Bool.false_eq_true,if_false,List.append_nil]
    exact h.answered

/-- The control socket is about to be there. -/
theorem Kept.listens (h : Kept delay w) (hunheard : w.worker.phase.isListening = false)
    (hv : v.phase = .serving) (hmessages : v.messages = w.worker.messages)
    (hreplies : v.replies = w.worker.replies) : Kept delay (w.moved v) := by
  have hserved : w.served v = w.queue := by
    refine served_same ?_
    rw [hv]
    cases hphase : w.worker.phase <;> rw [hphase] at hunheard <;> first | rfl | cases hunheard
  have hnot := replies_same hreplies
  obtain ⟨hwaiting,hserving⟩ := h.unheard hunheard
  refine ⟨⟨Nat.le_refl _,?_⟩,?_,?_,due_moved v,?_,fun _ => ⟨?_,?_,?_⟩,fun hs => ?_,?_⟩
  · simp only [moved,hserved]
    exact h.clocks.2
  · simp only [moved,hserved,hmessages]
    exact h.messages
  · intro hl
    rw [show (w.moved v).worker.phase = _ from hv] at hl
    cases hl
  · unfold TimedWorker.Polls
    rw [show (w.moved v).worker.phase = _ from hv]
    trivial
  · rw [show (w.moved v).worker.phase = _ from hv]
    simp only [moved,hserved,hserving]
    rfl
  · simp only [moved,hserved]
    refine ⟨?_,?_,?_,?_⟩ <;> simp [hwaiting,hserving]
  · intro first hfirst
    simp only [moved,hserved,hwaiting] at hfirst
    cases hfirst
  · rw [show (w.moved v).worker.phase = _ from hv] at hs
    cases hs
  · simp only [moved,hnot,hreplies,Bool.false_eq_true,if_false,List.append_nil]
    exact h.answered

/-- The worker's own steps. -/
theorem Kept.own (h : Kept delay w) {e : WorkerEvent} (hmove : Worker.Move cfg w.worker e v)
    (hready : w.Ready e) : (∃ m, e = .request m) ∨ (∃ i p, e = .pane i p) ∨ Kept delay (w.moved v) := by
  cases hmove with
  | request => exact .inl ⟨_,rfl⟩
  | pane => exact .inr (.inl ⟨_,_,rfl⟩)
  | spawned hp =>
    refine .inr (.inr (h.leaves rfl (fun _ => ?_) rfl rfl trivial))
    rw [hp]
    rfl
  | spawnFailed hp =>
    refine .inr (.inr (h.leaves rfl (fun _ => ?_) rfl rfl trivial))
    rw [hp]
    rfl
  | respawned hp =>
    have hsome : w.worker.phase.message.isSome = true := by rw [hp]; rfl
    have hdue := h.due (w.since+delay) (by rw [TimedWorker.due,hp]; rfl)
    refine .inr (.inr (h.goesOn ?_ hsome rfl rfl rfl trivial ?_))
    · rw [hp]
      rfl
    · rw [TimedWorker.ends,TimedWorker.ends,hp]
      simp only [moved]
      omega
  | respawnFailed hp => exact .inr (.inr (h.leaves rfl nofun rfl rfl trivial))
  | served hp => exact .inr (.inr (h.loops hp rfl rfl rfl))
  | setupFailed hp => exact .inr (.inr (h.leaves rfl nofun rfl rfl trivial))
  | timeout hp => exact .inr (.inr (h.leaves rfl nofun rfl rfl trivial))
  | idle hp => exact .inr (.inr (h.leaves rfl nofun rfl rfl trivial))
  | restart hp hmessages => exact .inr (.inr (h.takes hp hmessages rfl rfl rfl rfl))
  | kill hp hmessages => exact .inr (.inr (h.takes hp hmessages rfl rfl rfl rfl))
  | exitNotified hp => exact .inr (.inr (h.leaves rfl nofun rfl rfl trivial))
  | drained hp => exact .inr (.inr (h.leaves rfl nofun rfl rfl trivial))
  | left hp => exact .inr (.inr (h.leaves rfl nofun rfl rfl trivial))
  | died hp => exact .inr (.inr (h.leaves rfl nofun rfl rfl trivial))
  | @writeFailed _ _ error hp =>
    have hphase : ∃ r, w.worker.phase.writeFailed error = .returned r := by
      unfold WorkerPhase.writeFailed
      split <;> exact ⟨_,rfl⟩
    obtain ⟨r,hr⟩ := hphase
    rw [hr]
    exact .inr (.inr (h.leaves rfl nofun rfl rfl trivial))
  | @called cause _ _ _ hp hstep =>
    refine .inr (.inr ?_)
    cases cause with
    | restart | kill =>
      refine h.goesOn ?_ ?_ rfl rfl rfl (h.polls_called hp rfl hstep hready)
        (h.ends_called hp rfl hstep) <;>
      · rw [hp]
        rfl
    | _ => exact h.leaves rfl nofun rfl rfl (h.polls_called hp rfl hstep hready)
  | @terminated cause phase result a hp hstep =>
    refine .inr (.inr ?_)
    obtain ⟨t,ht,hle⟩ := due_call_le_ends h.polls hp
    have hclock := h.due t ht
    cases cause with
    | timeout | idleTimeout =>
      cases result <;> exact h.leaves rfl nofun rfl (List.append_nil _) trivial
    | setupFailure => exact h.leaves rfl nofun rfl (List.append_nil _) trivial
    | restart =>
      cases result with
      | error => exact h.leaves rfl nofun rfl (List.append_nil _) trivial
      | ok =>
        refine h.goesOn ?_ ?_ rfl rfl (List.append_nil _) trivial ?_
        · rw [hp]
          rfl
        · rw [hp]
          rfl
        · refine Nat.le_trans ?_ (Nat.le_trans (Nat.add_le_add_right hclock _) hle)
          exact Nat.le_refl (w.clock+2*delay)
    | kill =>
      cases result with
      | error =>
        refine h.finishes ?_ rfl rfl (fun _ => rfl) (.inl rfl) rfl trivial (fun _ => ⟨?_,?_⟩) ?_
        · rw [hp]
          rfl
        · rw [hp]
          rfl
        · simp [WorkerPhase.terminatedReply]
        · simp [TimedWorker.replies,WorkerPhase.terminatedReply]
      | ok =>
        refine h.goesOn ?_ ?_ rfl rfl (List.append_nil _) trivial ?_
        · rw [hp]
          rfl
        · rw [hp]
          rfl
        · refine Nat.le_trans ?_ (Nat.le_trans (Nat.add_le_add_right hclock _) hle)
          exact (by omega : w.clock+delay ≤ w.clock+2*delay)
  | @wrote status next hp =>
    refine .inr (.inr ?_)
    cases hphase : w.worker.phase with
    | recordingSpawnFailure =>
      rw [hphase] at hp
      cases hp
      exact h.leaves rfl nofun rfl (List.append_nil _) trivial
    | recordingRunning =>
      rw [hphase] at hp
      cases hp
      exact h.listens (by rw [hphase]; rfl) rfl rfl (List.append_nil _)
    | recordingSetupFailure =>
      rw [hphase] at hp
      cases hp
      exact h.leaves rfl nofun rfl (List.append_nil _) trivial
    | recordingRestart =>
      rw [hphase] at hp
      cases hp
      refine h.finishes ?_ rfl rfl (fun _ => rfl) (.inl rfl) rfl trivial (fun hr => ?_)
        fun _ => List.append_nil _
      · rw [hphase]
        rfl
      · simp [TimedWorker.replies,WorkerPhase.reply] at hr
    | recordingKill =>
      rw [hphase] at hp
      cases hp
      refine h.finishes ?_ rfl rfl nofun (.inr ?_) rfl trivial (fun _ => ⟨?_,?_⟩) fun hr => ?_
      · rw [hphase]
        rfl
      · simp [TimedWorker.replies,WorkerPhase.reply]
      · rw [hphase]
        rfl
      · simp [WorkerPhase.reply]
      · simp [TimedWorker.replies,WorkerPhase.reply] at hr
    | finalizing =>
      rw [hphase] at hp
      cases hp
      exact h.leaves rfl nofun rfl (List.append_nil _) trivial
    | _ =>
      rw [hphase] at hp
      cases hp

end Moves

/-- Whose turn it is does not change when another message is sent. -/
theorem head_ask (q : ServiceQueue LoopMessage) (now : ℕ) (m : LoopMessage) :
    ∀ r ∈ (q.ask now m).waiting.head?,
      r ∈ q.waiting.head? ∨ q.waiting = [] ∧ r.asked = now := by
  intro r hr
  cases hwaiting : q.waiting with
  | nil =>
    simp only [ServiceQueue.ask,hwaiting,List.nil_append,List.head?_cons] at hr
    obtain rfl := Option.some.inj hr
    exact .inr ⟨rfl,rfl⟩
  | cons first rest =>
    simp only [ServiceQueue.ask,hwaiting,List.cons_append,List.head?_cons] at hr
    exact .inl hr

theorem Kept.asks (h : Kept delay w) (hlisten : w.worker.phase.isListening = true) (m : LoopMessage) :
    Kept delay { w with
      worker := { w.worker with messages := w.worker.messages ++ [m] }
      queue := w.queue.ask w.clock m } := by
  obtain ⟨hsince,hqueue,hasked⟩ := h.clocks
  refine ⟨⟨hsince,hqueue,fun r hr => ?_⟩,?_,fun hl => ?_,fun t ht => ?_,h.polls,
    fun htakes => ?_,h.serves,h.answered⟩
  · rcases List.mem_append.mp hr with hr | hr
    · exact hasked r hr
    · rw [List.mem_singleton.mp hr]
  · simp only [ServiceQueue.ask,List.map_append,h.messages]
    rfl
  · rw [hlisten] at hl
    cases hl
  · cases hphase : w.worker.phase with
    | serving | looping =>
      rw [TimedWorker.due] at ht
      simp only [hphase] at ht
      obtain ⟨first,hfirst,rfl⟩ := Option.map_eq_some_iff.mp ht
      rcases head_ask _ _ _ first hfirst with hold | ⟨-,hnow⟩
      · refine h.due _ ?_
        rw [TimedWorker.due,hphase]
        exact Option.map_eq_some_iff.mpr ⟨first,hold,rfl⟩
      · dsimp only
        omega
    | terminating cause phase =>
      refine h.due t ?_
      rw [TimedWorker.due] at ht ⊢
      simp only [hphase] at ht ⊢
      cases phase <;> exact ht
    | _ =>
      refine h.due t ?_
      rw [TimedWorker.due] at ht ⊢
      simp only [hphase] at ht ⊢
      exact ht
  · obtain ⟨hserving,hontime,hbegun⟩ := h.taking htakes
    refine ⟨hserving,?_,fun first hfirst => ?_⟩
    · exact hontime.ask (Nat.le_add_right _ _) hasked hqueue m
    · rcases head_ask _ _ _ first hfirst with hold | ⟨-,hnow⟩
      · exact hbegun first hold
      · dsimp only
        split
        · omega
        · omega
        · trivial

/-- The worker looks at the deadline and goes to sleep. -/
theorem Kept.looks (h : Kept delay w) (hpolling : w.worker.phase.term.any TermPhase.isPolling)
    (hbefore : w.clock < w.groupDeadline) :
    Kept delay { w with asleepUntil := some (w.clock+GROUP_POLL) } := by
  have hphase : ∃ cause info, w.worker.phase = .terminating cause (.groupAlive info) := by
    cases hp : w.worker.phase with
    | terminating cause phase =>
      rw [hp] at hpolling
      cases phase with
      | groupAlive info => exact ⟨cause,info,rfl⟩
      | _ => cases hpolling
    | _ =>
      rw [hp] at hpolling
      cases hpolling
  obtain ⟨cause,info,hphase⟩ := hphase
  refine ⟨h.clocks,h.messages,h.unheard,fun t ht => ?_,?_,h.taking,h.serves,h.answered⟩
  · rw [TimedWorker.due] at ht
    simp only [hphase] at ht
    obtain rfl := Option.some.inj ht
    rw [Option.getD_some]
    dsimp only
    omega
  · rw [TimedWorker.Polls]
    simp only [hphase]
    omega

theorem step_kept {e : TimedEvent} (hstep : w.step cfg e = some w') (hprompt : w.Prompt delay e)
    (h : Kept delay w) : w.GivesUpBehind delay e ∧ Kept delay w' := by
  cases e with
  | worker e =>
    obtain ⟨hready,hstep⟩ := Option.ite_none_right_eq_some.mp hstep
    obtain ⟨v,hv,rfl⟩ := Option.map_eq_some_iff.mp hstep
    refine ⟨trivial,?_⟩
    cases e with
    | request m =>
      obtain rfl := Option.some.inj hv
      exact h.asks hready m
    | pane i p =>
      cases Worker.step_move hv
      exact ⟨h.clocks,h.messages,h.unheard,h.due,h.polls,h.taking,h.serves,h.answered⟩
    | _ =>
      obtain ⟨m,hm⟩ | ⟨i,p,hp⟩ | hmoved := h.own (Worker.step_move hv) hready
      · cases hm
      · cases hp
      · exact hmoved
  | looks =>
    obtain ⟨⟨hpolling,hawake,hbefore⟩,hstep⟩ := Option.ite_none_right_eq_some.mp hstep
    obtain rfl := Option.some.inj hstep
    exact ⟨trivial,h.looks hpolling hbefore⟩
  | givesUp r =>
    obtain ⟨⟨hwaits,-,hlate⟩,hstep⟩ := Option.ite_none_right_eq_some.mp hstep
    obtain rfl := Option.some.inj hstep
    refine ⟨fun htakes => ?_,h⟩
    have hin := (h.inTime.waiting htakes).2 r hwaits
    unfold Ask.InTime at hin
    omega
  | passes ms =>
    obtain rfl := Option.some.inj hstep
    obtain ⟨hsince,hqueue,hasked⟩ := h.clocks
    refine ⟨trivial,⟨?_,?_,?_⟩,h.messages,h.unheard,hprompt,h.polls,h.taking,h.serves,h.answered⟩
    · exact hsince.trans (Nat.le_add_right _ _)
    · exact hqueue.trans (Nat.le_add_right _ _)
    · exact fun r hr => (hasked r hr).trans (Nat.le_add_right _ _)

theorem start_kept (delay clock : ℕ) : Kept delay (start clock) where
  clocks := ⟨Nat.le_refl _,Nat.le_refl _,by rintro r ⟨⟩⟩
  messages := rfl
  unheard _ := ⟨rfl,rfl⟩
  due := by rintro t ⟨⟩
  polls := trivial
  taking := nofun
  serves := nofun
  answered := ⟨rfl,by rintro a ⟨⟩⟩

/-- The steps of the worker alone. -/
def workerSteps (_ : TimedWorker) : TimedEvent → List WorkerEvent
  | .worker e => [e]
  | _ => []

theorem next_worker (v : Worker) (e : WorkerEvent) : (w.next v e).worker = v := by
  cases e <;> rfl

theorem follows_worker (cfg : WorkerConfig) : Refinement.Follows (step cfg) workerSteps
    (Worker.step cfg) fun w v => w.worker = v := by
  rintro w e w' v hstep rfl
  cases e with
  | worker e =>
    obtain ⟨-,hstep⟩ := Option.ite_none_right_eq_some.mp hstep
    obtain ⟨v,hv,rfl⟩ := Option.map_eq_some_iff.mp hstep
    exact Refinement.follows_one hv (next_worker v e)
  | looks | givesUp =>
    obtain ⟨-,hstep⟩ := Option.ite_none_right_eq_some.mp hstep
    obtain rfl := Option.some.inj hstep
    exact Refinement.follows_silent rfl
  | passes =>
    obtain rfl := Option.some.inj hstep
    exact Refinement.follows_silent rfl

/-- In every order of messages, exits, answers of the system and polls, with the worker's steps
taken within `delay`: each kill is answered within 4310 ms and 12 delays for itself and for each
message ahead of it; those who wait have waited no longer; and as long as the loop lasts,
`dispatch` gives up only on a kill behind so many that this is more than its 7 s. -/
theorem kills_in_time (cfg : WorkerConfig) (delay clock : ℕ) (es : List TimedEvent)
    (hprompt : Transition.Meets (step cfg) (Prompt delay) (start clock) es) :
    Transition.Always (step cfg) (InTime delay) (start clock) es ∧
    Transition.Meets (step cfg) (GivesUpBehind delay) (start clock) es ∧
    ∀ w, Transition.exec (step cfg) (start clock) es = some w →
      ∃ fs, Transition.exec (Worker.step cfg) .start fs = some w.worker := by
  have hstart := start_kept delay clock
  refine ⟨?_,?_,?_⟩
  · exact Transition.always_of_meets (I := Kept delay)
      (fun _ _ _ hstep hp h => (step_kept hstep hp h).2) (fun _ h => h.inTime) hprompt hstart
  · exact hprompt.kept (I := Kept delay) (fun _ _ _ => step_kept) hstart
  · intro w hrun
    obtain ⟨v,hv,rfl⟩ := Refinement.exec_trace (follows_worker cfg) hrun rfl
    exact ⟨_,hv⟩

/-- SIGHUP is ignored, and a member of the group lingers behind SIGKILL. -/
def stubbornRun : List TimedEvent :=
  [.worker (.spawned (some 7)),.worker (.record none),.worker (.served none),.passes 5,
    .worker (.request .kill),.passes 1,.worker .receive,.worker (.os .proceed),
    .worker (.os (.signalled none)),.passes 300,.worker (.os .waited),
    .worker (.os (.signalled none)),.passes 20,.worker (.pane 0 (.exits .signaled)),
    .worker (.pane 0 .reaped),.worker (.os .waited),.worker (.os (.probed (.ok true))),.looks,
    .passes 10,.worker (.os .proceed),.worker (.os (.probed (.ok false))),.worker (.record none)]

theorem kills_in_time_stubborn : ∃ w,
    Transition.exec (step ⟨false,false⟩) (start 0) stubbornRun = some w ∧ InTime 5 w := by
  have hsome : (Transition.exec (step ⟨false,false⟩) (start 0) stubbornRun).isSome = true := by
    decide +kernel
  obtain ⟨w,hrun⟩ := Option.isSome_iff_exists.mp hsome
  have hprompt : Transition.Meets (step ⟨false,false⟩) (Prompt 5) (start 0) stubbornRun := by
    decide +kernel
  exact ⟨w,hrun,(kills_in_time ⟨false,false⟩ 5 0 stubbornRun hprompt).1.last hrun⟩

/-- A command that SIGKILL ends only after 2 s, and its group after 1.5 s more. -/
def lingeringTermination (i : ℕ) : List TimedEvent :=
  [.worker .receive,.worker (.os .proceed),.worker (.os (.signalled none)),.passes 300,
    .worker (.os .waited),.worker (.os (.signalled none)),.passes 2000,
    .worker (.pane i (.exits .signaled)),.worker (.pane i .reaped),.worker (.os .waited)] ++
  (List.replicate 150 [.worker (.os (.probed (.ok true))),.looks,.passes 10,
    .worker (.os .proceed)]).flatten ++ [.worker (.os (.probed (.ok false)))]

/-- Behind a restart 7 s are not enough: `dispatch` gives up on a kill that is confirmed. -/
example : ((Transition.exec (step ⟨false,false⟩) (start 0)
    ([.worker (.spawned (some 7)),.worker (.record none),.worker (.served none),
      .worker (.request .restart),.worker (.request .kill)] ++ lingeringTermination 0 ++
      [.worker (.spawned (some 8)),.worker (.record none)] ++ lingeringTermination 1 ++
      [.givesUp ⟨.kill,0,1⟩,.worker (.record none)])).map fun w => w.answered) =
    some [(⟨.kill,0,1⟩,7600)] := by
  decide +kernel

end TimedWorker
end Babysit
