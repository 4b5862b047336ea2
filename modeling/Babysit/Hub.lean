import Babysit.Lib.AppendLog
import Babysit.Session
import Mathlib.Data.List.DropRight

/-! The output hub of a session: it appends every chunk to the log and its capture-time
sidecar, keeps a bounded backlog, and hands the chunk to every subscriber. The hub's lock
makes each of the four operations one atomic step. -/
namespace Babysit

/-- The largest offset the operating system writes to. -/
def MAX_FILE_LEN : ℕ := 2^63-1

def BACKLOG_CAP : ℕ := 2^20

theorem MAX_FILE_LEN_lt : MAX_FILE_LEN < U64_MAX := by
  unfold MAX_FILE_LEN U64_MAX
  omega

structure OutputChunk where
  offset : ℕ
  data : List UInt8
  deriving DecidableEq, Repr

/-- An unbounded channel: all that was ever sent in it; its receiver counts what it has
taken. A sender whose receiver is gone stays in place and drops what it is given. -/
structure Channel (α : Type) where
  sent : List α
  closed : Bool
  deriving DecidableEq, Repr

namespace Channel
variable {α : Type}

def empty : Channel α := ⟨[],false⟩

def send (x : α) (c : Channel α) : Channel α :=
  if c.closed then c else { c with sent := c.sent ++ [x] }

def close (c : Channel α) : Channel α := { c with closed := true }

theorem send_open {c : Channel α} (h : c.closed = false) (x : α) :
    c.send x = ⟨c.sent ++ [x],false⟩ := by
  simp [send,h]

end Channel

/-- The receiving end: the channel's index in the hub, and how much has been received. -/
structure Receiver where
  channel : ℕ
  received : ℕ
  deriving DecidableEq, Repr

/-- The state under the lock; `log` and `timestamps` tell whether the files are open. -/
structure HubInner where
  backlog : List UInt8
  backlogStart : ℕ
  nextOffset : ℕ
  log : Bool
  timestamps : Bool
  logError : Option String
  clients : List (Channel (List UInt8))
  resumeClients : List (Channel OutputChunk)

/-- The two files of the session. -/
structure Disk where
  log : List UInt8
  timestamps : List Char

/-- The outcome of `write_all`: everything, or some prefix and an error. -/
inductive WriteResult
  | ok
  | failed (written : ℕ) (error : String)
  deriving DecidableEq, Repr

def WriteResult.isOk : WriteResult → Bool
  | .ok => true
  | .failed _ _ => false

/-- What a write leaves in the file. -/
def WriteResult.written {α : Type} (r : WriteResult) (data : List α) : List α :=
  match r with
  | .ok => data
  | .failed k _ => data.take k

/-- The clock and the writes of one `broadcast`. -/
structure BroadcastIo where
  now : ℕ
  log : WriteResult
  timestamps : WriteResult

/-- Whether the log opens and can be measured, and whether the sidecar opens. -/
structure ConfigureIo where
  log : Bool
  timestamps : Bool

structure ResumeSubscription where
  output : ℕ
  snapshotEnd : ℕ
  backlog : Option OutputChunk
  deriving DecidableEq, Repr

/-- A row of the sidecar: offset, length and time of one captured chunk. -/
def captureRow (offset len timestamp : ℕ) : List Char :=
  ("[" ++ toString offset ++ "," ++ toString len ++ "," ++ toString timestamp ++ "]\n").toList

namespace HubInner

def default : HubInner := ⟨[],0,0,false,false,none,[],[]⟩

/-- Open the log unless it is open: offsets continue from its length. An empty log starts
a new sidecar. -/
def configureLog (g : HubInner) (d : Disk) (io : ConfigureIo) : HubInner × Disk :=
  if g.log ∨ ¬io.log then (g,d)
  else
    ({ g with
      nextOffset := d.log.length, backlogStart := d.log.length
      timestamps := io.timestamps, log := true, logError := none },
    if io.timestamps ∧ d.log.length = 0 then { d with timestamps := [] } else d)

/-- The chunk goes to the log; a failed write closes both files. -/
def capture (g : HubInner) (d : Disk) (data : List UInt8) (io : BroadcastIo) : HubInner × Disk :=
  if g.log then
    let d := { d with log := d.log ++ io.log.written data }
    match io.log with
    | .ok =>
      if g.timestamps then
        ({ g with timestamps := io.timestamps.isOk },
          { d with timestamps := d.timestamps ++
              io.timestamps.written (captureRow g.nextOffset data.length io.now) })
      else (g,d)
    | .failed _ error => ({ g with logError := some error, log := false, timestamps := false },d)
  else (g,d)

/-- The chunk goes to the backlog, which drops what exceeds its capacity. -/
def retain (cap : ℕ) (g : HubInner) (data : List UInt8) : HubInner :=
  let backlog := g.backlog ++ data
  let overflow := backlog.length - cap
  { g with
    nextOffset := min (g.nextOffset+data.length) U64_MAX
    backlog := backlog.drop overflow
    backlogStart := if 0 < overflow then min (g.backlogStart+overflow) U64_MAX
      else g.backlogStart }

def deliver (g : HubInner) (offset : ℕ) (data : List UInt8) : HubInner :=
  { g with
    clients := g.clients.map (Channel.send data)
    resumeClients := g.resumeClients.map (Channel.send ⟨offset,data⟩) }

/-- A broadcast over a backlog of any capacity. -/
def broadcastUpTo (cap : ℕ) (g : HubInner) (d : Disk) (data : List UInt8) (io : BroadcastIo) :
    HubInner × Disk :=
  let captured := g.capture d data io
  ((captured.1.retain cap data).deliver g.nextOffset data,captured.2)

def broadcast (g : HubInner) (d : Disk) (data : List UInt8) (io : BroadcastIo) :
    HubInner × Disk := g.broadcastUpTo BACKLOG_CAP d data io

/-- A legacy client: its channel starts with the backlog. The result is its index. -/
def subscribe (g : HubInner) : ℕ × HubInner :=
  (g.clients.length,{ g with
    clients := g.clients ++ [⟨if g.backlog = [] then [] else [g.backlog],false⟩] })

def subscribeResumable (g : HubInner) (since : Option ℕ) :
    Except String (ResumeSubscription × HubInner) :=
  match g.logError with
  | some error => .error ("output log is unavailable for resume: " ++ error)
  | none =>
    if since.any fun offset => g.nextOffset < offset then
      .error "resume offset is beyond output end"
    else
      let backlog := if since = none ∧ g.backlog ≠ [] then some ⟨g.backlogStart,g.backlog⟩ else none
      .ok (⟨g.resumeClients.length,g.nextOffset,backlog⟩,
        { g with resumeClients := g.resumeClients ++ [.empty] })

/-- While the log is open, the offsets and the backlog describe its end. -/
structure Truthful (g : HubInner) (log : List UInt8) : Prop where
  nextOffset : g.nextOffset = log.length
  backlogEnd : g.backlogStart + g.backlog.length = g.nextOffset
  backlog : g.backlog = AppendLog.slice log g.backlogStart g.nextOffset

section Broadcast
variable (g : HubInner) (d : Disk) (data : List UInt8) (io : BroadcastIo)

/-- Capturing touches the file handles and the error only. -/
theorem capture_fields : ∃ timestamps error, (g.capture d data io).1 =
    { g with log := g.log && io.log.isOk, timestamps := timestamps, logError := error } := by
  obtain ⟨backlog,backlogStart,nextOffset,log,timestamps,error,clients,resumeClients⟩ := g
  cases log with
  | false => exact ⟨timestamps,error,rfl⟩
  | true =>
    obtain ⟨now,write,sidecar⟩ := io
    cases write with
    | failed k failure => exact ⟨false,some failure,rfl⟩
    | ok =>
      cases timestamps with
      | true => exact ⟨sidecar.isOk,error,rfl⟩
      | false => exact ⟨false,error,rfl⟩

theorem capture_disk : (g.capture d data io).2.log =
    if g.log then d.log ++ io.log.written data else d.log := by
  unfold capture
  cases g.log with
  | false => rfl
  | true =>
    cases io.log with
    | failed k error => rfl
    | ok => cases g.timestamps <;> rfl

theorem capture_logError (hok : io.log = .ok) :
    (g.capture d data io).1.logError = g.logError := by
  obtain ⟨backlog,backlogStart,nextOffset,log,timestamps,error,clients,resumeClients⟩ := g
  obtain ⟨now,write,sidecar⟩ := io
  obtain rfl : write = .ok := hok
  cases log <;> cases timestamps <;> rfl

/-- Everything a broadcast does to the hub's fields and to the log. -/
theorem broadcastUpTo_eq (cap : ℕ) : ∃ timestamps error, (io.log = .ok → error = g.logError) ∧
    (g.broadcastUpTo cap d data io).1 =
      { backlog := (g.backlog++data).rtake cap
        backlogStart := if 0 < (g.backlog++data).length - cap
          then min (g.backlogStart + ((g.backlog++data).length - cap)) U64_MAX else g.backlogStart
        nextOffset := min (g.nextOffset+data.length) U64_MAX
        log := g.log && io.log.isOk, timestamps := timestamps, logError := error
        clients := g.clients.map (Channel.send data)
        resumeClients := g.resumeClients.map (Channel.send ⟨g.nextOffset,data⟩) } := by
  obtain ⟨timestamps,error,h⟩ := g.capture_fields d data io
  refine ⟨timestamps,error,fun hok => ?_,?_⟩
  · rw [← g.capture_logError d data io hok,h]
  · simp only [broadcastUpTo,deliver,retain,h,List.rtake]

theorem broadcastUpTo_disk (cap : ℕ) : (g.broadcastUpTo cap d data io).2.log =
    if g.log then d.log ++ io.log.written data else d.log := by
  simp only [broadcastUpTo,capture_disk]

@[simp] theorem broadcast_nextOffset : (g.broadcast d data io).1.nextOffset =
    min (g.nextOffset+data.length) U64_MAX := by
  obtain ⟨timestamps,error,-,h⟩ := g.broadcastUpTo_eq d data io BACKLOG_CAP
  rw [broadcast,h]

@[simp] theorem broadcast_backlog : (g.broadcast d data io).1.backlog =
    (g.backlog++data).rtake BACKLOG_CAP := by
  obtain ⟨timestamps,error,-,h⟩ := g.broadcastUpTo_eq d data io BACKLOG_CAP
  rw [broadcast,h]

@[simp] theorem broadcast_backlogStart : (g.broadcast d data io).1.backlogStart =
    if 0 < (g.backlog++data).length - BACKLOG_CAP
      then min (g.backlogStart + ((g.backlog++data).length - BACKLOG_CAP)) U64_MAX
      else g.backlogStart := by
  obtain ⟨timestamps,error,-,h⟩ := g.broadcastUpTo_eq d data io BACKLOG_CAP
  rw [broadcast,h]

@[simp] theorem broadcast_clients : (g.broadcast d data io).1.clients =
    g.clients.map (Channel.send data) := by
  obtain ⟨timestamps,error,-,h⟩ := g.broadcastUpTo_eq d data io BACKLOG_CAP
  rw [broadcast,h]

@[simp] theorem broadcast_resumeClients : (g.broadcast d data io).1.resumeClients =
    g.resumeClients.map (Channel.send ⟨g.nextOffset,data⟩) := by
  obtain ⟨timestamps,error,-,h⟩ := g.broadcastUpTo_eq d data io BACKLOG_CAP
  rw [broadcast,h]

@[simp] theorem broadcast_log : (g.broadcast d data io).1.log = (g.log && io.log.isOk) := by
  obtain ⟨timestamps,error,-,h⟩ := g.broadcastUpTo_eq d data io BACKLOG_CAP
  rw [broadcast,h]

theorem broadcast_logError (hok : io.log = .ok) :
    (g.broadcast d data io).1.logError = g.logError := by
  obtain ⟨timestamps,error,herror,h⟩ := g.broadcastUpTo_eq d data io BACKLOG_CAP
  rw [broadcast,h,herror hok]

@[simp] theorem broadcast_disk : (g.broadcast d data io).2.log =
    if g.log then d.log ++ io.log.written data else d.log :=
  g.broadcastUpTo_disk d data io BACKLOG_CAP

end Broadcast

/-- A broadcast whose log write succeeds keeps the offsets truthful. -/
theorem Truthful.broadcast {g : HubInner} {d : Disk} {data : List UInt8} {io : BroadcastIo}
    (h : g.Truthful d.log) (hlog : g.log = true) (hok : io.log = .ok)
    (hfit : d.log.length + data.length ≤ MAX_FILE_LEN) :
    (g.broadcast d data io).1.Truthful (g.broadcast d data io).2.log := by
  obtain ⟨hnext,hend,hbacklog⟩ := h
  have hmax := MAX_FILE_LEN_lt
  have hnew : (g.broadcast d data io).1.nextOffset = (d.log++data).length := by
    rw [broadcast_nextOffset,List.length_append]
    omega
  have hdisk : (g.broadcast d data io).2.log = d.log ++ data := by
    simp only [broadcast_disk,hlog,hok,if_true,WriteResult.written]
  have hstart : (g.broadcast d data io).1.backlogStart =
      g.backlogStart + ((g.backlog++data).length - BACKLOG_CAP) := by
    rw [broadcast_backlogStart,List.length_append]
    -- the capacity must stay a variable for the kernel
    generalize BACKLOG_CAP = cap
    split_ifs <;> omega
  have hwhole : g.backlog ++ data = (d.log++data).drop g.backlogStart := by
    rw [List.drop_append_of_le_length (by omega),hbacklog,AppendLog.slice_eq_drop (by omega)]
  refine ⟨by rw [hnew,hdisk],?_,?_⟩
  · rw [hstart,hnew,broadcast_backlog,List.rtake,List.length_drop]
    simp only [List.length_append]
    omega
  · rw [hdisk,hstart,AppendLog.slice_eq_drop (by rw [hnew]),broadcast_backlog,List.rtake,
      ← List.drop_drop,← hwhole]

/-- Opening the log does not change it. -/
@[simp] theorem configureLog_disk (g : HubInner) (d : Disk) (io : ConfigureIo) :
    (g.configureLog d io).2.log = d.log := by
  unfold configureLog
  split_ifs <;> rfl

theorem configureLog_opens (g : HubInner) (d : Disk) {io : ConfigureIo} (hio : io.log = true) :
    (g.configureLog d io).1.log = true := by
  unfold configureLog
  split_ifs with h
  · simpa [hio] using h
  · rfl
  · rfl

/-- Opening the log with an empty backlog makes the offsets truthful. -/
theorem truthful_configureLog {g : HubInner} {d : Disk} {io : ConfigureIo}
    (hclosed : g.log = false) (hio : io.log = true) (hempty : g.backlog = []) :
    (g.configureLog d io).1.Truthful (g.configureLog d io).2.log := by
  rw [configureLog_disk]
  simp only [configureLog,hclosed,hio]
  exact ⟨rfl,by simp [hempty],by simp [hempty]⟩

end HubInner
end Babysit
