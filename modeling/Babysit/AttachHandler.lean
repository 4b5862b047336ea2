import Babysit.ExitCode
import Babysit.Frame
import Babysit.Hub
import Babysit.Lib.Utf8

/-! The worker's side of one raw attach: the subscription, the replay of the log, and the
loop that forwards what is queued. Formatted views are not modelled here. -/
namespace Babysit
open AppendLog

/-- The buffer of `write_log_range_frames`. -/
def REPLAY_BUFFER : ℕ := 64*1024

inductive AttachOutputReceiver
  | legacy (rx : Receiver)
  | offset (rx : Receiver)
  deriving DecidableEq, Repr

inductive HandlerPhase
  | replaying (offset stop : ℕ)
  | streaming
  | closed
  deriving DecidableEq, Repr

/-- A `handle_attach` task: `pending` is the backlog chunk, `sent` the frames it has
written. A refused subscription leaves it without a receiver. -/
structure AttachHandler where
  phase : HandlerPhase
  pending : List OutputChunk
  output : Option AttachOutputReceiver
  sent : List Frame

def offsetPayload (offset : ℕ) (data : List UInt8) : List UInt8 :=
  BigEndian.encode 8 offset ++ data

def offsetFrame (offset : ℕ) (data : List UInt8) : Frame :=
  ⟨S_OUTPUT_OFFSET,offsetPayload offset data⟩

def errorFrame (error : String) : Frame := ⟨S_ERROR,Utf8.encode error.toList⟩

/-- What one frame says about the log: an offset and the bytes from there. -/
def Frame.piece (f : Frame) : Option (ℕ × List UInt8) :=
  if f.tag = S_OUTPUT_OFFSET ∧ 8 ≤ f.payload.length then
    some (BigEndian.decode (f.payload.take 8),f.payload.drop 8)
  else none

def offsetPieces (fs : List Frame) : List (ℕ × List UInt8) := fs.filterMap Frame.piece

/-- The bytes of the legacy output frames. -/
def outputBytes (fs : List Frame) : List UInt8 :=
  fs.flatMap fun f => if f.tag = S_OUTPUT then f.payload else []

/-- What the task meets next: a read of the log that returns n bytes, a failure of the
replay, the next queued chunk, the exit, a detach request, or the client's departure. -/
inductive HandlerEvent
  | replayed (n : ℕ)
  | replayFailed (error : String)
  | output
  | exited (info : ExitInfo)
  | detached
  | gone

namespace AttachHandler

def send (h : AttachHandler) (f : Frame) : AttachHandler := { h with sent := h.sent ++ [f] }

def finish (h : AttachHandler) (f : Frame) : AttachHandler :=
  { h.send f with phase := .closed }

/-- The subscription: raw clients of protocol 1 resume by offset, older ones take the
backlog. Readiness is announced before any output. -/
def attach (g : HubInner) (protocol : UInt8) (since : Option ℕ) : AttachHandler × HubInner :=
  if 1 ≤ protocol then
    match g.subscribeResumable since with
    | .error error => (⟨.closed,[],none,[⟨S_READY,[]⟩,errorFrame error]⟩,g)
    | .ok (subscription,g') =>
      let output := some (.offset ⟨subscription.output,0⟩)
      match since with
      | some offset =>
        let phase := if offset < subscription.snapshotEnd
          then .replaying offset subscription.snapshotEnd else .streaming
        (⟨phase,[],output,[⟨S_READY,[]⟩]⟩,g')
      | none => (⟨.streaming,subscription.backlog.toList,output,[⟨S_READY,[]⟩]⟩,g')
  else
    (⟨.streaming,[],some (.legacy ⟨g.subscribe.1,0⟩),[]⟩,g.subscribe.2)

/-- One read of `write_log_range_frames` and the frame it becomes. -/
def replayed (h : AttachHandler) (log : List UInt8) (n : ℕ) : Option AttachHandler :=
  match h.phase with
  | .replaying offset stop =>
    if 0 < n ∧ n ≤ min (stop-offset) REPLAY_BUFFER ∧ offset+n ≤ log.length then
      let h := h.send (offsetFrame offset (slice log offset (offset+n)))
      some { h with phase := if offset+n < stop then .replaying (offset+n) stop else .streaming }
    else none
  | _ => none

/-- The next chunk of the attach loop: the pending one, then what the channel holds. -/
def forward (h : AttachHandler) (g : HubInner) : Option AttachHandler :=
  match h.phase,h.pending,h.output with
  | .streaming,chunk::pending,_ =>
    some { h.send (offsetFrame chunk.offset chunk.data) with pending := pending }
  | .streaming,[],some (.offset rx) => do
    let channel ← g.resumeClients[rx.channel]?
    let chunk ← channel.sent[rx.received]?
    some { h.send (offsetFrame chunk.offset chunk.data) with
      output := some (.offset ⟨rx.channel,rx.received+1⟩) }
  | .streaming,[],some (.legacy rx) => do
    let channel ← g.clients[rx.channel]?
    let bytes ← channel.sent[rx.received]?
    some { h.send ⟨S_OUTPUT,bytes⟩ with output := some (.legacy ⟨rx.channel,rx.received+1⟩) }
  | _,_,_ => none

/-- The loop's other branches are offered at any time here; in the code they wait for the
queue to be empty when they are polled. -/
def step (g : HubInner) (log : List UInt8) (h : AttachHandler) : HandlerEvent → Option AttachHandler
  | .replayed n => h.replayed log n
  | .replayFailed error =>
    match h.phase with
    | .replaying _ _ => some (h.finish (errorFrame error))
    | _ => none
  | .output => h.forward g
  | .exited info =>
    if h.phase = .streaming then some (h.finish ⟨S_EXIT,exitPayload (some info)⟩) else none
  | .detached => if h.phase = .streaming then some (h.finish ⟨S_DETACHED,[]⟩) else none
  | .gone => some { h with phase := .closed }

end AttachHandler

/-- A subscription only adds a channel to the hub. -/
theorem AttachHandler.attach_fields (g : HubInner) (protocol : UInt8) (since : Option ℕ) :
    ∃ clients resumeClients, (AttachHandler.attach g protocol since).2 = { g with
      clients := g.clients ++ clients, resumeClients := g.resumeClients ++ resumeClients } := by
  obtain ⟨backlog,backlogStart,nextOffset,log,timestamps,error,clients,resumeClients⟩ := g
  unfold AttachHandler.attach HubInner.subscribeResumable
  by_cases hp : 1 ≤ protocol
  · rw [if_pos hp]
    cases error with
    | some error => exact ⟨[],[],by simp⟩
    | none =>
      by_cases hbeyond : since.any fun offset => nextOffset < offset
      · simp only [hbeyond,if_true]
        exact ⟨[],[],by simp⟩
      · cases since with
        | none => exact ⟨[],[.empty],by simp⟩
        | some offset =>
          simp only [hbeyond]
          exact ⟨[],[.empty],by simp⟩
  · rw [if_neg hp]
    exact ⟨_,[],by simp [HubInner.subscribe]; rfl⟩

/-- Without a replay or a refusal there is nothing behind readiness yet. -/
theorem AttachHandler.attach_sent_of_streaming {g : HubInner} {protocol : UInt8}
    {since : Option ℕ} (h : (attach g protocol since).1.phase = .streaming) :
    (attach g protocol since).1.sent = if 1 ≤ protocol then [⟨S_READY,[]⟩] else [] := by
  unfold attach at h ⊢
  split_ifs at h ⊢
  · split at h
    · cases h
    · cases since <;> rfl
  · rfl

@[simp] theorem offsetPieces_nil : offsetPieces [] = [] := rfl

theorem offsetPieces_append (fs gs : List Frame) :
    offsetPieces (fs++gs) = offsetPieces fs ++ offsetPieces gs := by simp [offsetPieces]

theorem offsetFrame_tag (offset : ℕ) (data : List UInt8) :
    (offsetFrame offset data).tag ≠ S_OUTPUT := by
  simp [offsetFrame,S_OUTPUT_OFFSET,S_OUTPUT]

theorem piece_offsetFrame {offset : ℕ} (h : offset ≤ U64_MAX) (data : List UInt8) :
    (offsetFrame offset data).piece = some (offset,data) := by
  have hlt : offset < 256^8 := by
    unfold U64_MAX at h
    omega
  simp [Frame.piece,offsetFrame,offsetPayload,BigEndian.decode_encode_of_lt hlt]

theorem piece_of_ne {f : Frame} (h : f.tag ≠ S_OUTPUT_OFFSET) : f.piece = none := by
  simp [Frame.piece,h]

theorem offsetPieces_snoc {fs : List Frame} {f : Frame} {p : ℕ × List UInt8}
    (h : f.piece = some p) : offsetPieces (fs++[f]) = offsetPieces fs ++ [p] := by
  simp [offsetPieces,h]

theorem offsetPieces_snoc_of_none {fs : List Frame} {f : Frame} (h : f.piece = none) :
    offsetPieces (fs++[f]) = offsetPieces fs := by
  simp [offsetPieces,h]

theorem outputBytes_append (fs gs : List Frame) :
    outputBytes (fs++gs) = outputBytes fs ++ outputBytes gs := by simp [outputBytes]

end Babysit
