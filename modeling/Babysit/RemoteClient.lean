import Babysit.AttachClient

/-! One connection of the remote attach client: the handshake loop and the streaming loop
on the same bridge, and the ways either is left. The reconnect display is not modelled. -/
namespace Babysit

def REMOTE_PROTOCOL : UInt8 := 1

/-- What `attach` is called with, and whether its standard output is a terminal. -/
structure RemoteConfig where
  reconnect : Bool
  localStdoutIsTerminal : Bool

/-- Where the client is: in one of its two loops, in `reconnect_after_loss` with the reason
it shows, or returned. -/
inductive RemotePhase
  | handshake
  | streaming
  | lost (reason : String)
  | returned (result : Except String Int32)

/-- The variables of `attach` that live across connections, and the phase. Delays are in
milliseconds. `restoreTerminal` stands for the escape sequences written on leaving a
program that is still running. -/
structure RemoteClient where
  cursor : Option ℕ
  resumable : Bool
  establishedOnce : Bool
  delay : ℕ
  visualReconnect : Bool
  filter : DetachFilter
  stdin : List (List UInt8)
  stdinOpen : Bool
  stdout : List UInt8
  sent : List Frame
  restoreTerminal : Bool
  phase : RemotePhase

inductive RemoteEvent
  | stdin (failed : Option String)
  | escapeTimeout (failed : Option String)
  | windowChange (size : Option (UInt16 × UInt16)) (failed : Option String)
  | handshakeTimeout

/-- How an offset frame of `len` bytes at `start` meets the cursor: the bytes to skip and
the next cursor, or the expected and the received offset. -/
def offsetFrameProgress (cursor : Option ℕ) (start len : ℕ) : Except (ℕ × ℕ) (ℕ × ℕ) :=
  let expected := cursor.getD start
  if expected < start then .error (expected,start)
  else .ok (min (expected-start) len,max expected (min (start+len) U64_MAX))

def readyUsesTty (payload : List UInt8) : Bool := payload.headD 1 ≠ 0

/-- Push every queued chunk through the filter: whether one completes the hotkey, the
filter then, and the chunks left. -/
def discardQueuedInput : DetachFilter → List (List UInt8) → Bool × DetachFilter × List (List UInt8)
  | filter, [] => (false,filter,[])
  | filter, bytes::rest =>
    let pushed := filter.push bytes
    if pushed.detach then (true,pushed.filter,rest) else discardQueuedInput pushed.filter rest

namespace RemoteClient

def init : RemoteClient :=
  { cursor := none, resumable := true, establishedOnce := false, delay := 250
    visualReconnect := false, filter := .default, stdin := [], stdinOpen := true
    stdout := [], sent := [], restoreTerminal := false, phase := .handshake }

def running (r : RemoteClient) : Bool :=
  match r.phase with
  | .handshake | .streaming => true
  | .lost _ | .returned _ => false

def fail (r : RemoteClient) (error : String) : RemoteClient :=
  { r with restoreTerminal := r.establishedOnce, phase := .returned (.error error) }

def detached (r : RemoteClient) : RemoteClient :=
  { r with restoreTerminal := true, phase := .returned (.ok 0) }

def lose (r : RemoteClient) (reason : String) : RemoteClient := { r with phase := .lost reason }

/-- The exits of the handshake other than readiness and detach. -/
def handshakeLoss (cfg : RemoteConfig) (r : RemoteClient) (first later reason : String) :
    RemoteClient :=
  if ¬r.establishedOnce then r.fail first
  else if ¬cfg.reconnect then r.fail later
  else r.lose reason

def handshakeError (cfg : RemoteConfig) (r : RemoteClient) (error : String) : RemoteClient :=
  r.handshakeLoss cfg error error ("attach handshake failed: " ++ error)

/-- The transport is lost while streaming. -/
def streamLoss (cfg : RemoteConfig) (r : RemoteClient) (reason : String) : RemoteClient :=
  if ¬cfg.reconnect then r.fail "remote attach transport disconnected"
  else if ¬r.resumable then r.fail "remote reconnect is unavailable for --view-cmd streams"
  else r.lose reason

/-- The ready frame: what was typed before it is discarded, but the hotkey still works. -/
def established (cfg : RemoteConfig) (r : RemoteClient) (payload : List UInt8) : RemoteClient :=
  let (detach,filter,stdin) := discardQueuedInput r.filter r.stdin
  let r := { r with
    establishedOnce := true, delay := 250, stdin := stdin
    visualReconnect := cfg.localStdoutIsTerminal && readyUsesTty payload }
  if detach then { r with filter := filter }.detached
  else { r with filter := filter.discardPending, phase := .streaming }

def handshakeFrame (cfg : RemoteConfig) (r : RemoteClient) (f : Frame) : RemoteClient :=
  if f.tag = S_READY then r.established cfg f.payload
  else if f.tag = S_ERROR then
    r.handshakeError cfg ("remote attach failed: " ++ String.ofList (Utf8.decodeLossy f.payload))
  else r

/-- An offset frame: its new bytes are printed; one beyond the cursor counts as a loss,
also on a stream that cannot be resumed. -/
def offsetFrame (cfg : RemoteConfig) (r : RemoteClient) (payload : List UInt8) : RemoteClient :=
  let bytes := payload.drop 8
  match offsetFrameProgress r.cursor (BigEndian.decode (payload.take 8)) bytes.length with
  | .ok (skip,next) => { r with stdout := r.stdout ++ bytes.drop skip, cursor := some next }
  | .error (expected,received) =>
    let gap := "remote output gap: expected offset " ++ toString expected ++ ", received " ++
      toString received
    if ¬cfg.reconnect then r.fail gap else r.lose gap

def streamFrame (cfg : RemoteConfig) (r : RemoteClient) (f : Frame) : RemoteClient :=
  if f.tag = S_OUTPUT_OFFSET ∧ 8 ≤ f.payload.length then r.offsetFrame cfg f.payload
  else if f.tag = S_OUTPUT then
    { r with stdout := r.stdout ++ f.payload, cursor := none, resumable := false }
  else if f.tag = S_ERROR then
    r.fail ("remote attach failed: " ++ String.ofList (Utf8.decodeLossy f.payload))
  else if f.tag = S_EXIT then
    { r with restoreTerminal := false, phase := .returned (.ok (parseExit f.payload)) }
  else if f.tag = S_DETACHED then r.detached
  else r

def frame (cfg : RemoteConfig) (r : RemoteClient) (f : Frame) : RemoteClient :=
  match r.phase with
  | .handshake => r.handshakeFrame cfg f
  | .streaming => r.streamFrame cfg f
  | .lost _ | .returned _ => r

/-- The bridge's output ends, or reading it fails. -/
def ended (cfg : RemoteConfig) (r : RemoteClient) (error : Option String) : RemoteClient :=
  match r.phase,error with
  | .handshake,none => r.handshakeLoss cfg
      "SSH attach bridge closed before the remote session was ready"
      "remote attach transport disconnected"
      "SSH bridge closed before the attach handshake completed"
  | .handshake,some error => r.handshakeError cfg error
  | .streaming,none => r.streamLoss cfg "remote attach stream closed"
  | .streaming,some error => r.streamLoss cfg ("remote attach stream failed: " ++ error)
  | .lost _,_ | .returned _,_ => r

/-- A frame to the bridge, none for an empty payload; a failed write loses the transport. -/
def send (cfg : RemoteConfig) (r : RemoteClient) (what : String) (failed : Option String)
    (f : Frame) : RemoteClient :=
  if f.payload = [] then r
  else match failed with
    | none => { r with sent := r.sent ++ [f] }
    | some error => r.streamLoss cfg ("failed to " ++ what ++ ": " ++ error)

/-- A stdin chunk; before readiness it only works the detach hotkey. -/
def input (cfg : RemoteConfig) (r : RemoteClient) (bytes : List UInt8) (rest : List (List UInt8))
    (failed : Option String) : RemoteClient :=
  let pushed := r.filter.push bytes
  let r := { r with stdin := rest, filter := pushed.filter }
  match r.phase with
  | .handshake => if pushed.detach then r.detached else r
  | .streaming =>
    let r := r.send cfg "send remote input" failed ⟨C_INPUT,pushed.forward⟩
    if r.running ∧ pushed.detach then r.detached else r
  | .lost _ | .returned _ => r

def branch (cfg : RemoteConfig) (r : RemoteClient) : RemoteEvent → Option RemoteClient
  | .stdin failed =>
    match r.stdin with
    | bytes::rest => some (r.input cfg bytes rest failed)
    | [] => if r.stdinOpen then none else some r
  | .escapeTimeout failed =>
    match r.phase with
    | .streaming =>
      if r.filter.hasPartialEscape then
        let pushed := r.filter.flushPartialEscape
        some ({ r with filter := pushed.filter }.send cfg "flush remote input" failed
          ⟨C_INPUT,pushed.forward⟩)
      else none
    | _ => none
  | .windowChange size failed =>
    match r.phase,size with
    | .streaming,some (cols,rows) =>
      some (r.send cfg "resize the remote terminal" failed ⟨C_RESIZE,resizePayload cols rows⟩)
    | .streaming,none => some r
    | _,_ => none
  | .handshakeTimeout =>
    match r.phase with
    | .handshake => some (r.handshakeLoss cfg "timed out waiting for remote attach handshake"
        "remote attach transport timed out" "timed out waiting for the attach handshake")
    | _ => none

/-- A chunk during `wait_reconnect`: it only works the detach hotkey. -/
def waitInput (r : RemoteClient) : Option RemoteClient :=
  match r.phase,r.stdin with
  | .lost _,bytes::rest =>
    let pushed := r.filter.push bytes
    let r := { r with stdin := rest, filter := pushed.filter }
    some (if pushed.detach then r.detached else r)
  | _,_ => none

/-- The wait ends, at its timer or on a closed stdin, and the next connection begins. A
visual client asks for the backlog again. -/
def retry (r : RemoteClient) (timer : Bool) : Option RemoteClient :=
  match r.phase with
  | .lost _ =>
    if timer ∨ (r.stdin = [] ∧ ¬r.stdinOpen) then
      some { r with
        filter := if timer then r.filter.discardPending else r.filter
        cursor := if r.visualReconnect then none else r.cursor
        delay := min (r.delay*2) 5000, phase := .handshake }
    else none
  | _ => none

def typed (r : RemoteClient) : Option (List UInt8) → RemoteClient
  | some chunk => if r.stdinOpen then { r with stdin := r.stdin ++ [chunk] } else r
  | none => { r with stdinOpen := false }

section Cases
variable {cfg : RemoteConfig} {r r' : RemoteClient}

/-- What a branch does: it takes a chunk, writes what an escape or a new size has left to write,
gives the handshake up, or does nothing. -/
theorem branch_cases {e : RemoteEvent} (h : r.branch cfg e = some r') :
    (∃ failed bytes rest, e = .stdin failed ∧ r.stdin = bytes::rest ∧
      r' = r.input cfg bytes rest failed) ∨
    (∃ failed, e = .escapeTimeout failed ∧ r.phase = .streaming ∧
      r' = { r with filter := r.filter.flushPartialEscape.filter }.send cfg "flush remote input"
        failed ⟨C_INPUT,r.filter.flushPartialEscape.forward⟩) ∨
    (∃ cols rows failed, e = .windowChange (some (cols,rows)) failed ∧ r.phase = .streaming ∧
      r' = r.send cfg "resize the remote terminal" failed ⟨C_RESIZE,resizePayload cols rows⟩) ∨
    (e = .handshakeTimeout ∧ r.phase = .handshake ∧
      r' = r.handshakeLoss cfg "timed out waiting for remote attach handshake"
        "remote attach transport timed out" "timed out waiting for the attach handshake") ∨
    r' = r := by
  cases e with
  | stdin failed =>
    simp only [branch] at h
    split at h
    · next bytes rest hstdin =>
      exact .inl ⟨failed,bytes,rest,rfl,hstdin,(Option.some.inj h).symm⟩
    · split_ifs at h
      exact .inr (.inr (.inr (.inr (Option.some.inj h).symm)))
  | escapeTimeout failed =>
    simp only [branch] at h
    split at h
    · next hphase =>
      split_ifs at h
      exact .inr (.inl ⟨failed,rfl,hphase,(Option.some.inj h).symm⟩)
    · cases h
  | windowChange size failed =>
    simp only [branch] at h
    split at h
    · next cols rows hphase =>
      exact .inr (.inr (.inl ⟨cols,rows,failed,rfl,hphase,(Option.some.inj h).symm⟩))
    · exact .inr (.inr (.inr (.inr (Option.some.inj h).symm)))
    · cases h
  | handshakeTimeout =>
    simp only [branch] at h
    split at h
    · next hphase => exact .inr (.inr (.inr (.inl ⟨rfl,hphase,(Option.some.inj h).symm⟩)))
    · cases h

/-- What a chunk does during `wait_reconnect`. -/
theorem waitInput_cases (h : r.waitInput = some r') :
    ∃ reason bytes rest, r.phase = .lost reason ∧ r.stdin = bytes::rest ∧
      r' = if (r.filter.push bytes).detach
        then { r with stdin := rest, filter := (r.filter.push bytes).filter }.detached
        else { r with stdin := rest, filter := (r.filter.push bytes).filter } := by
  simp only [waitInput] at h
  split at h
  · next reason bytes rest hphase hstdin =>
    exact ⟨reason,bytes,rest,hphase,hstdin,(Option.some.inj h).symm⟩
  · cases h

/-- What the end of `wait_reconnect` does. -/
theorem retry_cases {timer : Bool} (h : r.retry timer = some r') :
    ∃ reason, r.phase = .lost reason ∧ (timer = true ∨ (r.stdin = [] ∧ ¬r.stdinOpen = true)) ∧
      r' = { r with
        filter := if timer then r.filter.discardPending else r.filter
        cursor := if r.visualReconnect then none else r.cursor
        delay := min (r.delay*2) 5000, phase := .handshake } := by
  simp only [retry] at h
  split at h
  · next reason hphase =>
    by_cases hends : timer = true ∨ (r.stdin = [] ∧ ¬r.stdinOpen = true)
    · rw [if_pos hends] at h
      exact ⟨reason,hphase,hends,(Option.some.inj h).symm⟩
    · rw [if_neg hends] at h
      cases h
  · cases h

/-- What is typed waits in the channel, until it is closed. -/
theorem typed_cases (r : RemoteClient) (chunk : Option (List UInt8)) :
    ∃ stdin isOpen, r.typed chunk = { r with stdin := stdin, stdinOpen := isOpen } ∧
      (chunk = none ∨ isOpen = r.stdinOpen) := by
  unfold typed
  split
  · split_ifs
    · exact ⟨_,_,rfl,.inr rfl⟩
    · exact ⟨_,_,rfl,.inr rfl⟩
  · exact ⟨_,_,rfl,.inl rfl⟩

end Cases
end RemoteClient

/-- The two loops of the remote `attach` on one bridge. -/
def remoteAttach (cfg : RemoteConfig) : SelectBody RemoteClient RemoteEvent where
  running := RemoteClient.running
  onFrame := RemoteClient.frame cfg
  onEnd := RemoteClient.ended cfg
  branch := RemoteClient.branch cfg
  typed := RemoteClient.typed

/-- Frames that `write_frame` writes without truncating a length. -/
structure FrameStream where
  frames : List Frame
  fits : ∀ f ∈ frames, f.Fits

/-- The attach loops process the worker's frames intact in every state of a run exactly
when no other branch wins, with the loop going on, inside a frame. -/
theorem attach_frames_intact_iff (fs : FrameStream) :
    (∀ status c es, Transition.Always (attachTo status).step (SelectLoop.Intact fs.frames)
        (SelectBody.start fs.frames c) es ↔
      Transition.Meets (attachTo status).step (attachTo status).BetweenFrames
        (SelectBody.start fs.frames c) es) ∧
    (∀ cfg r es, Transition.Always (remoteAttach cfg).step (SelectLoop.Intact fs.frames)
        (SelectBody.start fs.frames r) es ↔
      Transition.Meets (remoteAttach cfg).step (remoteAttach cfg).BetweenFrames
        (SelectBody.start fs.frames r) es) :=
  ⟨fun status c es => (attachTo status).always_intact_iff fs.fits c es,
    fun cfg r es => (remoteAttach cfg).always_intact_iff fs.fits r es⟩

/-- An output frame whose payload contains the bytes of an exit frame. -/
def embeddedExit : Frame := ⟨S_OUTPUT,[2,0,0,0,5,0,0,0,0,7]⟩

/-- The header arrives, a key is typed, and the rest is taken for an exit with code 7. -/
def typedInsideFrame : List (LoopEvent LocalEvent) :=
  List.replicate 5 .read ++ [.typed (some [97]),.branch (.stdin none)] ++ List.replicate 10 .read

theorem keypress_inside_frame_forges_exit :
    ∃ l, Transition.exec (attachTo none).step
        (SelectBody.start [embeddedExit] LocalClient.init) typedInsideFrame = some l ∧
      l.frames = [⟨S_EXIT,[0,0,0,0,7]⟩] ∧ l.body.result.isSome = true ∧
      ¬SelectLoop.Intact [embeddedExit] l := by
  refine ⟨_,rfl,?_,?_,fun h => ?_⟩
  · decide +kernel
  · decide +kernel
  · have hforgotten := h.2
    revert hforgotten
    decide +kernel

end Babysit
