import Babysit.ControlConn
import Babysit.FinishedReplay

/-! `bridge` on the remote host, between the stdin and stdout of its ssh connection and the
socket of the worker. After the hello line two `tokio::io::copy` loops move bytes in pieces of
any size; what the frames of a connection are on the client's side comes from here. -/
namespace Babysit
open ReadFrame

/-- What `bridge` is given besides its streams. -/
structure BridgeRun where
  parse : List UInt8 → Option Request
  tty : Bool

inductive BridgePhase
  | hello
  | connecting (since : Option ℕ) (protocol : UInt8)
  | greeting
  | readying
  | copying
  | answering
  | ended (ok : Bool)
  deriving DecidableEq, Repr

/-- The task that copies stdin to the socket. It drops its half of the socket at its end. -/
inductive InputCopy
  | notStarted
  | running
  | complete
  | failed
  deriving DecidableEq, Repr

/-- Whom the client is connected to. -/
inductive BridgePeer
  | none
  | worker (protocol : UInt8)
  | refused (error : String)
  | finished (frames : List Frame)
  deriving DecidableEq, Repr

/-- A bridge and its four streams. The ghosts `typed` and `said` are all that the client and
the worker have written. -/
structure Bridge where
  phase : BridgePhase
  peer : BridgePeer
  typed : List UInt8
  stdin : List UInt8
  stdinEnded : Bool
  buffer : List UInt8
  line : List UInt8
  unsent : List UInt8
  input : InputCopy
  toWorker : List UInt8
  said : List UInt8
  socket : List UInt8
  workerClosed : Bool
  unwritten : List UInt8
  toClient : List UInt8
  deriving DecidableEq, Repr

inductive StreamEvent
  | types (bytes : List UInt8)
  | typesEnd
  | readLine (n : ℕ)
  | readLineEnd
  | connects
  | refused (error : String)
  | finished (log : List UInt8) (status : Status)
  | send (n : ℕ)
  | sendFails
  | greeted
  | readied
  | fillBuffer (n : ℕ)
  | copyIn (n : ℕ)
  | copyInEnd
  | copyInFails
  | workerWrites (bytes : List UInt8)
  | workerCloses
  | copyOut (n : ℕ)
  | copyOutFails
  | write (n : ℕ)
  | writeFails
  | finish
  deriving DecidableEq, Repr

/-- The raw frames of protocol 0; an offset beyond the end is an error of the command. -/
def rawFinishedFrames (log : List UInt8) (status : Status) (since : Option ℕ) :
    Option (List Frame) :=
  let start := since.getD (finishedStart log)
  if log.length < start then none
  else some ((if start < log.length then [⟨S_OUTPUT,log.drop start⟩] else []) ++ [exitFrame status])

namespace BridgeRun

def ready (run : BridgeRun) : Frame := ⟨S_READY,[if run.tty then 1 else 0]⟩

def preamble (run : BridgeRun) (protocol : UInt8) : List UInt8 :=
  if 1 ≤ protocol then writeFrame run.ready else []

def finishedAnswer (run : BridgeRun) (protocol : UInt8) (log : List UInt8) (status : Status)
    (since : Option ℕ) : Option (List Frame) :=
  if 1 ≤ protocol then some (run.ready :: finishedFrames log status since)
  else rawFinishedFrames log status since

end BridgeRun

namespace Bridge

def start : Bridge :=
  ⟨.hello,.none,[],[],false,[],[],[],.notStarted,[],[],[],false,[],[]⟩

/-- The input task goes until its own end, and is aborted with the output. -/
def copiesIn (b : Bridge) : Bool := b.phase = .copying ∧ b.input = .running

def writes (b : Bridge) : Bool :=
  b.phase = .readying ∨ b.phase = .copying ∨ b.phase = .answering

/-- Only an attach request is served. -/
def requested (run : BridgeRun) (b : Bridge) (line : List UInt8) : Bridge :=
  match run.parse line with
  | some (.attach _ _ since protocol) =>
    { b with phase := .connecting (since.map UInt64.toNat) protocol, line := line }
  | _ => { b with phase := .ended false, line := line }

def step (run : BridgeRun) (b : Bridge) : StreamEvent → Option Bridge
  | .types bytes =>
    if b.stdinEnded then none
    else some { b with typed := b.typed ++ bytes, stdin := b.stdin ++ bytes }
  | .typesEnd => some { b with stdinEnded := true }
  | .readLine n =>
    if b.phase = .hello ∧ 0 < n ∧ n ≤ b.stdin.length ∧ n ≤ DEFAULT_BUF_SIZE then
      let chunk := b.stdin.take n
      if NEWLINE ∈ chunk then
        some (requested run
          { b with
            stdin := b.stdin.drop n
            buffer := (chunk.dropWhile (· ≠ NEWLINE)).tail }
          (b.line ++ (chunk.takeWhile (· ≠ NEWLINE) ++ [NEWLINE])))
      else some { b with stdin := b.stdin.drop n, line := b.line ++ chunk }
    else none
  | .readLineEnd =>
    if b.phase = .hello ∧ b.stdin = [] ∧ b.stdinEnded then some (requested run b b.line) else none
  | .connects =>
    match b.phase with
    | .connecting _ protocol =>
      some { b with phase := .greeting, peer := .worker protocol, unsent := b.line, line := [] }
    | _ => none
  | .refused error =>
    match b.phase with
    | .connecting _ protocol =>
      if 1 ≤ protocol then
        some { b with
          phase := .answering, peer := .refused error, unwritten := writeFrame (errorFrame error) }
      else some { b with phase := .ended false }
    | _ => none
  | .finished log status =>
    match b.phase with
    | .connecting since protocol =>
      match run.finishedAnswer protocol log status since with
      | some frames =>
        some { b with
          phase := .answering, peer := .finished frames, unwritten := writeFrames frames }
      | none => some { b with phase := .ended false }
    | _ => none
  | .send n =>
    if (b.phase = .greeting ∨ b.copiesIn) ∧ 0 < n ∧ n ≤ b.unsent.length ∧
        b.workerClosed = false then
      some { b with toWorker := b.toWorker ++ b.unsent.take n, unsent := b.unsent.drop n }
    else none
  | .sendFails =>
    if b.workerClosed then
      if b.phase = .greeting then some { b with phase := .ended false }
      else if b.copiesIn then some { b with input := .failed }
      else none
    else none
  | .greeted =>
    match b.phase,b.peer with
    | .greeting,.worker protocol =>
      if b.unsent = [] then
        some { b with phase := .readying, unwritten := run.preamble protocol }
      else none
    | _,_ => none
  | .readied =>
    if b.phase = .readying ∧ b.unwritten = [] then
      some { b with phase := .copying, input := .running }
    else none
  | .fillBuffer n =>
    if b.copiesIn ∧ b.buffer = [] ∧ 0 < n ∧ n ≤ b.stdin.length ∧ n ≤ DEFAULT_BUF_SIZE then
      some { b with buffer := b.stdin.take n, stdin := b.stdin.drop n }
    else none
  | .copyIn n =>
    if b.copiesIn ∧ 0 < n ∧ n ≤ b.buffer.length ∧
        b.unsent.length+n ≤ DEFAULT_BUF_SIZE then
      some { b with unsent := b.unsent ++ b.buffer.take n, buffer := b.buffer.drop n }
    else none
  | .copyInEnd =>
    if b.copiesIn ∧ b.unsent = [] ∧ b.buffer = [] ∧ b.stdin = [] ∧ b.stdinEnded then
      some { b with input := .complete }
    else none
  | .copyInFails => if b.copiesIn then some { b with input := .failed } else none
  | .workerWrites bytes =>
    match b.peer with
    | .worker _ =>
      if b.workerClosed then none
      else some { b with said := b.said ++ bytes, socket := b.socket ++ bytes }
    | _ => none
  | .workerCloses => some { b with workerClosed := true }
  | .copyOut n =>
    if b.phase = .copying ∧ 0 < n ∧ n ≤ b.socket.length then
      some { b with unwritten := b.unwritten ++ b.socket.take n, socket := b.socket.drop n }
    else none
  | .copyOutFails => if b.phase = .copying then some { b with phase := .ended false } else none
  | .write n =>
    if b.writes ∧ 0 < n ∧ n ≤ b.unwritten.length then
      some { b with toClient := b.toClient ++ b.unwritten.take n, unwritten := b.unwritten.drop n }
    else none
  | .writeFails =>
    if b.writes then some { b with phase := .ended false } else none
  | .finish =>
    if b.unwritten = [] ∧
        ((b.phase = .copying ∧ b.socket = [] ∧ b.workerClosed) ∨ b.phase = .answering) then
      some { b with phase := .ended true }
    else none

/-- All that belongs on stdout. -/
def answer (run : BridgeRun) (b : Bridge) : List UInt8 :=
  match b.peer with
  | .none => []
  | .worker protocol => run.preamble protocol ++ b.said
  | .refused error => writeFrame (errorFrame error)
  | .finished frames => writeFrames frames

/-- Nobody has been written to. -/
def Unconnected (b : Bridge) : Prop :=
  b.peer = .none ∧ (b.toWorker = [] ∧ b.unsent = []) ∧ b.socket = [] ∧ b.said = [] ∧
    b.unwritten = [] ∧ b.toClient = []

/-- How far the side of stdout has come. -/
def Stage (run : BridgeRun) (b : Bridge) : Prop :=
  match b.phase with
  | .hello => Unconnected b ∧ b.buffer = []
  | .connecting _ protocol => Unconnected b ∧
      ∃ cols rows since, run.parse b.line = some (.attach cols rows since protocol)
  | .greeting => (∃ protocol, b.peer = .worker protocol) ∧
      b.toClient = [] ∧ b.unwritten = [] ∧ b.socket = b.said
  | .readying | .copying => (∃ protocol, b.peer = .worker protocol) ∧
      b.toClient ++ (b.unwritten ++ b.socket) = b.answer run
  | .answering => (∀ protocol, b.peer ≠ .worker protocol) ∧
      b.toClient ++ b.unwritten = b.answer run
  | .ended ok => b.toClient <+: b.answer run ∧ (ok = true → b.toClient = b.answer run ∧
      ∀ protocol, b.peer = .worker protocol → b.workerClosed = true)

/-- The invariant: no byte is lost, invented or reordered on either side. -/
structure Carries (run : BridgeRun) (b : Bridge) : Prop where
  input : b.toWorker ++ (b.unsent ++ (b.line ++ (b.buffer ++ b.stdin))) = b.typed
  complete : b.input = .complete → b.stdinEnded = true ∧ b.toWorker = b.typed
  worker : ∀ protocol, b.peer = .worker protocol → b.line = [] ∧ ∃ line cols rows since,
    line <+: b.typed ∧ run.parse line = some (.attach cols rows since protocol)
  stage : Stage run b

variable {run : BridgeRun} {b b' : Bridge} {e : StreamEvent}

theorem stage_hello (hphase : b.phase = .hello) : Stage run b ↔ Unconnected b ∧ b.buffer = [] := by
  simp only [Stage,hphase]

theorem stage_connecting {since : Option ℕ} {protocol : UInt8}
    (hphase : b.phase = .connecting since protocol) : Stage run b ↔ Unconnected b ∧
      ∃ cols rows since, run.parse b.line = some (.attach cols rows since protocol) := by
  simp only [Stage,hphase]

theorem stage_greeting (hphase : b.phase = .greeting) : Stage run b ↔
    (∃ protocol, b.peer = .worker protocol) ∧
      b.toClient = [] ∧ b.unwritten = [] ∧ b.socket = b.said := by
  simp only [Stage,hphase]

theorem stage_copying (hphase : b.phase = .readying ∨ b.phase = .copying) : Stage run b ↔
    (∃ protocol, b.peer = .worker protocol) ∧
      b.toClient ++ (b.unwritten ++ b.socket) = b.answer run := by
  rcases hphase with hphase | hphase <;> simp only [Stage,hphase]

theorem stage_answering (hphase : b.phase = .answering) : Stage run b ↔
    (∀ protocol, b.peer ≠ .worker protocol) ∧ b.toClient ++ b.unwritten = b.answer run := by
  simp only [Stage,hphase]

theorem stage_ended {ok : Bool} (hphase : b.phase = .ended ok) : Stage run b ↔
    b.toClient <+: b.answer run ∧ (ok = true → b.toClient = b.answer run ∧
      ∀ protocol, b.peer = .worker protocol → b.workerClosed = true) := by
  simp only [Stage,hphase]

theorem Stage.within (h : Stage run b) : b.toClient <+: b.answer run := by
  unfold Stage at h
  split at h
  · rw [h.1.2.2.2.2.2]
    exact List.nil_prefix
  · rw [h.1.2.2.2.2.2]
    exact List.nil_prefix
  · rw [h.2.1]
    exact List.nil_prefix
  · exact ⟨_,h.2⟩
  · exact ⟨_,h.2⟩
  · exact ⟨_,h.2⟩
  · exact h.1

theorem Unconnected.peer_ne (h : Unconnected b) (protocol : UInt8) : b.peer ≠ .worker protocol := by
  rw [h.1]
  rintro ⟨⟩

/-- The bridge gives up; what it has put on stdout stays. -/
theorem Carries.ends (h : Carries run b) : Carries run { b with phase := .ended false } :=
  ⟨h.input,h.complete,h.worker,h.stage.within,by rintro ⟨⟩⟩

/-- The request is known, or the bridge gives up. -/
theorem Carries.requested (hphase : b.phase = .hello) (h : Carries run b)
    {buffer stdin line : List UInt8}
    (hline : line ++ (buffer ++ stdin) = b.line ++ (b.buffer ++ b.stdin)) :
    Carries run (requested run { b with buffer := buffer, stdin := stdin } line) := by
  have hfree := ((stage_hello hphase).mp h.stage).1
  have hinput : b.toWorker ++ (b.unsent ++ (line ++ (buffer ++ stdin))) = b.typed := by
    rw [hline]
    exact h.input
  unfold Bridge.requested
  split
  next cols rows since protocol hparse =>
    exact ⟨hinput,h.complete,fun protocol hpeer => absurd hpeer (hfree.peer_ne protocol),
      hfree,cols,rows,since,hparse⟩
  next =>
    exact ⟨hinput,h.complete,fun protocol hpeer => absurd hpeer (hfree.peer_ne protocol),
      h.stage.within,by rintro ⟨⟩⟩

/-- The bridge answers for a session that it has no connection to. -/
theorem Carries.answers (hfree : Unconnected b) (h : Carries run b) {peer : BridgePeer}
    {unwritten : List UInt8} (hpeer : ∀ protocol, peer ≠ .worker protocol)
    (hanswer : unwritten = answer run { b with peer := peer }) :
    Carries run { b with phase := .answering, peer := peer, unwritten := unwritten } := by
  refine ⟨h.input,h.complete,fun protocol hp => absurd hp (hpeer protocol),hpeer,?_⟩
  dsimp only
  rw [hfree.2.2.2.2.2,hanswer]
  rfl

/-- Bytes go on from one place to the next. -/
lemma moved (xs ys zs : List UInt8) (n : ℕ) :
    (xs ++ ys.take n) ++ (ys.drop n ++ zs) = xs ++ (ys ++ zs) := by
  rw [List.append_assoc,← List.append_assoc (ys.take n),List.take_append_drop]

theorem copiesIn_iff : b.copiesIn = true ↔ b.phase = .copying ∧ b.input = .running := by
  simp [copiesIn]

theorem Carries.copying (h : Carries run b) (hphase : b.phase = .copying) :
    (∃ protocol, b.peer = .worker protocol) ∧
      b.toClient ++ (b.unwritten ++ b.socket) = b.answer run :=
  (stage_copying (.inr hphase)).mp h.stage

/-- What the worker writes comes behind what it has written. -/
theorem Stage.said (h : Stage run b) {protocol : UInt8} (hpeer : b.peer = .worker protocol)
    (hclosed : ¬b.workerClosed = true) (bytes : List UInt8) :
    Stage run { b with said := b.said ++ bytes, socket := b.socket ++ bytes } := by
  have hanswer : answer run { b with said := b.said ++ bytes, socket := b.socket ++ bytes } =
      b.answer run ++ bytes := by
    simp only [answer,hpeer,List.append_assoc]
  have hlonger : b.toClient ++ (b.unwritten ++ b.socket) = b.answer run →
      b.toClient ++ (b.unwritten ++ (b.socket ++ bytes)) =
        answer run { b with said := b.said ++ bytes, socket := b.socket ++ bytes } := by
    intro hbytes
    rw [hanswer,← hbytes]
    simp only [List.append_assoc]
  obtain ⟨phase,hphase⟩ : ∃ phase, b.phase = phase := ⟨_,rfl⟩
  cases phase with
  | hello => exact absurd hpeer (((stage_hello hphase).mp h).1.peer_ne protocol)
  | connecting since p => exact absurd hpeer (((stage_connecting hphase).mp h).1.peer_ne protocol)
  | greeting =>
    obtain ⟨hworker,hclient,hunwritten,hsocket⟩ := (stage_greeting hphase).mp h
    exact Iff.mpr (stage_greeting hphase)
      ⟨hworker,hclient,hunwritten,congrArg (· ++ bytes) hsocket⟩
  | readying =>
    obtain ⟨hworker,hbytes⟩ := (stage_copying (.inl hphase)).mp h
    exact Iff.mpr (stage_copying (.inl hphase)) ⟨hworker,hlonger hbytes⟩
  | copying =>
    obtain ⟨hworker,hbytes⟩ := (stage_copying (.inr hphase)).mp h
    exact Iff.mpr (stage_copying (.inr hphase)) ⟨hworker,hlonger hbytes⟩
  | answering => exact absurd hpeer (((stage_answering hphase).mp h).1 protocol)
  | ended ok =>
    obtain ⟨hclient,hended⟩ := (stage_ended hphase).mp h
    refine Iff.mpr (stage_ended hphase) ⟨?_,fun hok => ?_⟩
    · rw [hanswer]
      exact hclient.trans (List.prefix_append _ _)
    · exact absurd ((hended hok).2 protocol hpeer) hclosed

theorem Stage.closed (h : Stage run b) : Stage run { b with workerClosed := true } := by
  obtain ⟨phase,hphase⟩ : ∃ phase, b.phase = phase := ⟨_,rfl⟩
  cases phase with
  | hello => exact Iff.mpr (stage_hello hphase) ((stage_hello hphase).mp h)
  | connecting => exact Iff.mpr (stage_connecting hphase) ((stage_connecting hphase).mp h)
  | greeting => exact Iff.mpr (stage_greeting hphase) ((stage_greeting hphase).mp h)
  | readying => exact Iff.mpr (stage_copying (.inl hphase)) ((stage_copying (.inl hphase)).mp h)
  | copying => exact Iff.mpr (stage_copying (.inr hphase)) ((stage_copying (.inr hphase)).mp h)
  | answering => exact Iff.mpr (stage_answering hphase) ((stage_answering hphase).mp h)
  | ended ok =>
    obtain ⟨hclient,hended⟩ := (stage_ended hphase).mp h
    exact Iff.mpr (stage_ended hphase) ⟨hclient,fun hok => ⟨(hended hok).1,fun _ _ => rfl⟩⟩

/-- The two ends of the input are moved while the task runs. -/
theorem Carries.moves (h : Carries run b) (hphase : b.phase = .greeting ∨ b.copiesIn = true)
    {toWorker unsent buffer stdin : List UInt8}
    (hsame : toWorker ++ (unsent ++ (b.line ++ (buffer ++ stdin))) =
      b.toWorker ++ (b.unsent ++ (b.line ++ (b.buffer ++ b.stdin))))
    (hcomplete : b.input = .complete → toWorker = b.toWorker) :
    Carries run { b with
      toWorker := toWorker, unsent := unsent, buffer := buffer, stdin := stdin } := by
  refine ⟨hsame.trans h.input,fun hinput => ?_,h.worker,?_⟩
  · rw [hcomplete hinput]
    exact h.complete hinput
  · rcases hphase with hphase | hcopies
    · exact Iff.mpr (stage_greeting hphase) ((stage_greeting hphase).mp h.stage)
    · have hcopying : b.phase = .readying ∨ b.phase = .copying := .inr (copiesIn_iff.mp hcopies).1
      exact Iff.mpr (stage_copying hcopying) ((stage_copying hcopying).mp h.stage)

end Bridge
end Babysit
