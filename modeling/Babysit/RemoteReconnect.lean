import Babysit.AttachStream
import Babysit.RemoteClient

/-! The remote client over any number of connections, against the worker and the bridge.
Frames arrive intact; a connection may be lost at any point. What the client prints is one
run of the log as long as every answer to a request without an offset begins where the
first successful attach began. -/
namespace Babysit
open AppendLog

/-- A call of `attach` with reconnection that never redraws the terminal. -/
structure RemoteRun where
  cfg : RemoteConfig
  tty : Bool
  reconnects : cfg.reconnect = true
  nonVisual : cfg.localStdoutIsTerminal = true → tty = false

/-- How the bridge answers a connection. The ghost `start` of an answer that carries
output is the offset it begins at. -/
inductive BridgeAnswer
  | silent
  | refused (error : String)
  | ready
  | worker (handler start : ℕ)
  | finished (frames : List Frame) (start : ℕ)

/-- A connection: the offset its hello asks for, and how many frames have been read. -/
structure Conn where
  since : Option ℕ
  answer : BridgeAnswer
  read : ℕ

/-- The whole system. `start` is a ghost: where the output of the first successful attach
begins, which the worker decides when it answers. -/
structure RemoteWorld where
  worker : AttachWorld
  finished : Option Status
  client : RemoteClient
  conn : Option Conn
  start : Option ℕ

inductive NetEvent
  | worker (e : AttachEvent)
  | logFailure (data : List UInt8) (now written : ℕ) (error : String)
  | configureLog (io : ConfigureIo)
  | finish (status : Status)
  | connect
  | spawnFailed (error : String)
  | bridgeRefuses (error : String)
  | bridgeReady
  | workerAccepts
  | bridgeFinished (readable : Bool)
  | frame
  | ended (error : Option String)
  | branch (e : RemoteEvent)
  | typed (chunk : Option (List UInt8))
  | waitInput
  | retry (timer : Bool)

/-- The bytes the bridge of a finished session finds in the log. -/
def finishedBytes (w : AttachWorld) (readable : Bool) : List UInt8 :=
  if readable then w.disk.log else []

/-- Where the bridge of a finished session begins without a requested offset. -/
def finishedStart (bytes : List UInt8) : ℕ := bytes.length - 2^20

/-- What the bridge of a finished session writes after its ready frame, for any size of the
log; the codec is left out, and carries them only where each fits its 32-bit length. -/
def finishedFrames (bytes : List UInt8) (status : Status) (since : Option ℕ) : List Frame :=
  match since with
  | some offset =>
    if bytes.length < offset then
      [errorFrame ("resume offset " ++ toString offset ++ " is beyond output end " ++
        toString bytes.length)]
    else output offset
  | none => output (finishedStart bytes)
where
  output (start : ℕ) : List Frame :=
    (if start < bytes.length then [offsetFrame start (bytes.drop start)] else []) ++
      [⟨S_EXIT,exitPayload (some ⟨status.exitCode,status.state = .killed⟩)⟩]

namespace Conn

/-- The offset the answer begins at, once it is determined. -/
def base (c : Conn) : Option ℕ :=
  match c.answer with
  | .worker _ start | .finished _ start => some start
  | .silent | .refused _ | .ready => none

/-- What follows the bridge's ready frame. -/
def body (w : AttachWorld) (c : Conn) : List Frame :=
  match c.answer with
  | .worker i _ => (w.handlers[i]?.map AttachHandler.sent).getD []
  | .finished frames _ => frames
  | .silent | .refused _ | .ready => []

/-- All frames of the connection so far, as they are written; the client reads these where
each fits its 32-bit length. -/
def frames (tty : Bool) (w : AttachWorld) (c : Conn) : List Frame :=
  match c.answer with
  | .silent => []
  | .refused error => [errorFrame error]
  | .ready | .worker _ _ | .finished _ _ => ⟨S_READY,[if tty then 1 else 0]⟩ :: c.body w

end Conn

namespace RemoteWorld

def init (log : SessionLog) : RemoteWorld := ⟨.start log,none,.init,none,none⟩

/-- The client leaves a connection when it leaves its two loops. -/
def settle (w : RemoteWorld) (client : RemoteClient) (conn : Option Conn) : RemoteWorld :=
  { w with client := client, conn := if client.running then conn else none }

def step (run : RemoteRun) (w : RemoteWorld) : NetEvent → Option RemoteWorld
  | .worker e =>
    if w.finished.isSome then none else (w.worker.step e).map fun worker => { w with worker := worker }
  | .logFailure data now written error =>
    if w.finished.isSome then none
    else
      let after := w.worker.hub.broadcast w.worker.disk data ⟨now,.failed written error,.ok⟩
      some { w with worker := { w.worker with hub := after.1, disk := after.2 } }
  | .configureLog io =>
    if w.finished.isSome then none
    else
      let after := w.worker.hub.configureLog w.worker.disk io
      some { w with worker := { w.worker with hub := after.1, disk := after.2 } }
  | .finish status => if w.finished.isSome then none else some { w with finished := some status }
  | .connect =>
    match w.client.phase,w.conn with
    | .handshake,none => some { w with conn := some ⟨w.client.cursor,.silent,0⟩ }
    | _,_ => none
  | .spawnFailed error =>
    match w.client.phase,w.conn with
    | .handshake,none => some { w with client := w.client.fail error }
    | _,_ => none
  | .bridgeRefuses error =>
    match w.conn with
    | some ⟨since,.silent,read⟩ => some { w with conn := some ⟨since,.refused error,read⟩ }
    | _ => none
  | .bridgeReady =>
    match w.conn,w.finished with
    | some ⟨since,.silent,read⟩,none => some { w with conn := some ⟨since,.ready,read⟩ }
    | _,_ => none
  | .workerAccepts =>
    match w.conn,w.finished with
    | some ⟨since,.ready,read⟩,none =>
      (w.worker.step (.attach REMOTE_PROTOCOL since)).map fun worker => { w with
        worker := worker
        conn := some ⟨since,.worker w.worker.handlers.length
          (since.getD w.worker.hub.backlogStart),read⟩ }
    | _,_ => none
  | .bridgeFinished readable =>
    match w.conn,w.finished with
    | some ⟨since,.silent,read⟩,some status =>
      let bytes := finishedBytes w.worker readable
      some { w with conn := some ⟨since,.finished (finishedFrames bytes status since)
        (since.getD (finishedStart bytes)),read⟩ }
    | _,_ => none
  | .frame =>
    if w.client.running then do
      let c ← w.conn
      let f ← (c.frames run.tty w.worker)[c.read]?
      let client := w.client.frame run.cfg f
      let start := if w.start = none ∧ client.establishedOnce
        then some (c.base.getD w.worker.hub.backlogStart) else w.start
      some { w.settle client (some { c with read := c.read+1 }) with start := start }
    else none
  | .ended error =>
    if w.client.running ∧ w.conn.isSome then some (w.settle (w.client.ended run.cfg error) none)
    else none
  | .branch e =>
    if w.client.running ∧ w.conn.isSome then
      (w.client.branch run.cfg e).map fun client => w.settle client w.conn
    else none
  | .typed chunk => some { w with client := w.client.typed chunk }
  | .waitInput => w.client.waitInput.map fun client => { w with client := client }
  | .retry timer => (w.client.retry timer).map fun client => { w with client := client }

/-- Once the start is fixed, an answer to a request without an offset begins there: the
backlog still reaches back to it. Log writes succeed. -/
def AnswersFromStart (w : RemoteWorld) : NetEvent → Prop
  | .workerAccepts => ∀ c ∈ w.conn, ∀ s ∈ w.start, c.since = none →
      w.worker.hub.backlogStart = s
  | .bridgeFinished readable => ∀ c ∈ w.conn, ∀ s ∈ w.start, c.since = none →
      finishedStart (finishedBytes w.worker readable) = s
  | .logFailure _ _ _ _ => False
  | _ => True

instance (w : RemoteWorld) : (e : NetEvent) → Decidable (w.AnswersFromStart e)
  | .workerAccepts => inferInstanceAs (Decidable (∀ c ∈ w.conn, ∀ s ∈ w.start, c.since = none →
      w.worker.hub.backlogStart = s))
  | .bridgeFinished readable => inferInstanceAs (Decidable (∀ c ∈ w.conn, ∀ s ∈ w.start,
      c.since = none → finishedStart (finishedBytes w.worker readable) = s))
  | .logFailure _ _ _ _ => inferInstanceAs (Decidable False)
  | .worker _ | .configureLog _ | .finish _ | .connect | .spawnFailed _ | .bridgeRefuses _
  | .bridgeReady | .frame | .ended _ | .branch _ | .typed _ | .waitInput | .retry _ =>
    inferInstanceAs (Decidable True)

end RemoteWorld

namespace RemoteClient
variable {r r' : RemoteClient}

/-- A step of the client that prints nothing and moves no cursor; it stays in its loop or
leaves it. -/
structure Keeps (r r' : RemoteClient) : Prop where
  stdout : r'.stdout = r.stdout
  cursor : r'.cursor = r.cursor
  visual : r'.visualReconnect = r.visualReconnect
  established : r'.establishedOnce = r.establishedOnce
  phase : r'.phase = r.phase ∨ r'.running = false

theorem keeps_fail (r : RemoteClient) (error : String) : r.Keeps (r.fail error) :=
  ⟨rfl,rfl,rfl,rfl,.inr rfl⟩

theorem keeps_handshakeLoss (cfg : RemoteConfig) (r : RemoteClient) (a b c : String) :
    r.Keeps (r.handshakeLoss cfg a b c) := by
  unfold handshakeLoss
  split_ifs <;> exact ⟨rfl,rfl,rfl,rfl,.inr rfl⟩

theorem keeps_streamLoss (cfg : RemoteConfig) (r : RemoteClient) (reason : String) :
    r.Keeps (r.streamLoss cfg reason) := by
  unfold streamLoss
  split_ifs <;> exact ⟨rfl,rfl,rfl,rfl,.inr rfl⟩

theorem handshakeLoss_running (cfg : RemoteConfig) (r : RemoteClient) (a b c : String) :
    (r.handshakeLoss cfg a b c).running = false := by
  unfold handshakeLoss
  split_ifs <;> rfl

theorem keeps_ended (cfg : RemoteConfig) (r : RemoteClient) (error : Option String) :
    r.Keeps (r.ended cfg error) := by
  unfold ended handshakeError
  split
  · exact keeps_handshakeLoss _ _ _ _ _
  · exact keeps_handshakeLoss _ _ _ _ _
  · exact keeps_streamLoss _ _ _
  · exact keeps_streamLoss _ _ _
  · exact ⟨rfl,rfl,rfl,rfl,.inl rfl⟩
  · exact ⟨rfl,rfl,rfl,rfl,.inl rfl⟩

theorem keeps_send (cfg : RemoteConfig) (r : RemoteClient) (what : String)
    (failed : Option String) (f : Frame) : r.Keeps (r.send cfg what failed f) := by
  unfold send
  split_ifs
  · exact ⟨rfl,rfl,rfl,rfl,.inl rfl⟩
  · split
    · exact ⟨rfl,rfl,rfl,rfl,.inl rfl⟩
    · exact keeps_streamLoss _ _ _

theorem Keeps.detached (h : r.Keeps r') : r.Keeps r'.detached :=
  ⟨h.stdout,h.cursor,h.visual,h.established,.inr rfl⟩

theorem keeps_input (cfg : RemoteConfig) (r : RemoteClient) (bytes : List UInt8)
    (rest : List (List UInt8)) (failed : Option String) :
    r.Keeps (r.input cfg bytes rest failed) := by
  have hpushed : r.Keeps { r with stdin := rest, filter := (r.filter.push bytes).filter } :=
    ⟨rfl,rfl,rfl,rfl,.inl rfl⟩
  unfold input
  dsimp only
  split
  · split_ifs
    · exact hpushed.detached
    · exact hpushed
  · have hsent := keeps_send cfg
      { r with stdin := rest, filter := (r.filter.push bytes).filter } "send remote input" failed
      ⟨C_INPUT,(r.filter.push bytes).forward⟩
    have hsent' : r.Keeps _ := ⟨hsent.stdout,hsent.cursor,hsent.visual,hsent.established,hsent.phase⟩
    split_ifs
    · exact hsent'.detached
    · exact hsent'
  · exact hpushed
  · exact hpushed

theorem keeps_branch {cfg : RemoteConfig} {e : RemoteEvent} (h : r.branch cfg e = some r') :
    r.Keeps r' := by
  rcases branch_cases h with ⟨failed,bytes,rest,-,-,rfl⟩ | ⟨failed,-,-,rfl⟩ |
    ⟨cols,rows,failed,-,-,rfl⟩ | ⟨-,-,rfl⟩ | rfl
  · exact keeps_input _ _ _ _ _
  · have hsent := keeps_send cfg { r with filter := r.filter.flushPartialEscape.filter }
      "flush remote input" failed ⟨C_INPUT,r.filter.flushPartialEscape.forward⟩
    exact ⟨hsent.stdout,hsent.cursor,hsent.visual,hsent.established,hsent.phase⟩
  · exact keeps_send _ _ _ _ _
  · exact keeps_handshakeLoss _ _ _ _ _
  · exact ⟨rfl,rfl,rfl,rfl,.inl rfl⟩

theorem keeps_typed (r : RemoteClient) (chunk : Option (List UInt8)) : r.Keeps (r.typed chunk) := by
  obtain ⟨stdin,isOpen,htyped,-⟩ := r.typed_cases chunk
  rw [htyped]
  exact ⟨rfl,rfl,rfl,rfl,.inl rfl⟩

/-- The ready frame opens the stream; any other handshake frame keeps the client. -/
theorem handshakeFrame_cases (cfg : RemoteConfig) (r : RemoteClient) (f : Frame) :
    (f.tag ≠ S_READY ∧ r.Keeps (r.handshakeFrame cfg f)) ∨
      (f.tag = S_READY ∧ (r.handshakeFrame cfg f).stdout = r.stdout ∧
        (r.handshakeFrame cfg f).cursor = r.cursor ∧
        (r.handshakeFrame cfg f).visualReconnect =
          (cfg.localStdoutIsTerminal && readyUsesTty f.payload) ∧
        (r.handshakeFrame cfg f).establishedOnce = true ∧
        ((r.handshakeFrame cfg f).phase = .streaming ∨
          (r.handshakeFrame cfg f).running = false)) := by
  unfold handshakeFrame
  by_cases hready : f.tag = S_READY
  · right
    rw [if_pos hready]
    unfold established
    generalize discardQueuedInput r.filter r.stdin = drained
    obtain ⟨detach,filter,stdin⟩ := drained
    refine ⟨hready,?_⟩
    cases detach
    · exact ⟨rfl,rfl,rfl,rfl,.inl rfl⟩
    · exact ⟨rfl,rfl,rfl,rfl,.inr rfl⟩
  · left
    rw [if_neg hready]
    refine ⟨hready,?_⟩
    split_ifs
    · exact keeps_handshakeLoss _ _ _ _ _
    · exact ⟨rfl,rfl,rfl,rfl,.inl rfl⟩

/-- An offset frame at the cursor is printed whole and moves the cursor to its end. -/
theorem offsetFrame_at_cursor (cfg : RemoteConfig) {f : Frame} {o : ℕ} {d : List UInt8}
    (hpiece : f.piece = some (o,d)) (hcursor : r.cursor.getD o = o) (hfits : o+d.length ≤ U64_MAX) :
    r.streamFrame cfg f = { r with stdout := r.stdout ++ d, cursor := some (o+d.length) } := by
  unfold Frame.piece at hpiece
  split_ifs at hpiece with htag
  simp only [Option.some.injEq,Prod.mk.injEq] at hpiece
  obtain ⟨rfl,rfl⟩ := hpiece
  have hprogress : offsetFrameProgress r.cursor (BigEndian.decode (f.payload.take 8))
      (f.payload.drop 8).length = .ok (0,BigEndian.decode (f.payload.take 8) +
        (f.payload.drop 8).length) := by
    simp only [offsetFrameProgress,hcursor,lt_self_iff_false,if_false,Nat.sub_self,Nat.zero_min,
      min_eq_left hfits]
    rw [max_eq_right (Nat.le_add_right _ _)]
  simp only [streamFrame,if_pos htag,offsetFrame,hprogress,List.drop_zero]

/-- A frame that carries no output keeps the client. -/
theorem keeps_streamFrame (cfg : RemoteConfig) {f : Frame} (hpiece : f.piece = none)
    (hraw : f.tag ≠ S_OUTPUT) : r.Keeps (r.streamFrame cfg f) := by
  unfold Frame.piece at hpiece
  split_ifs at hpiece with htag
  unfold streamFrame
  rw [if_neg htag,if_neg hraw]
  split_ifs
  · exact keeps_fail _ _
  · exact ⟨rfl,rfl,rfl,rfl,.inr rfl⟩
  · exact ⟨rfl,rfl,rfl,rfl,.inr rfl⟩
  · exact ⟨rfl,rfl,rfl,rfl,.inl rfl⟩

end RemoteClient

end Babysit
