import Babysit.FinishedReplay
import Babysit.RemoteDelivery
import Babysit.ReportedExit

/-! One exit code, reported four ways: by the exit frame of the worker, by `wait`, by the
fallback of an attach client, and by the bridge of a finished session. The first goes by the exit
information of the command, the others by the status that was made of it. -/
namespace Babysit

/-- The exit information has a code, or says that there was a signal. -/
def ExitInfo.Definite (i : ExitInfo) : Prop := i.code = none → i.signaled = true

/-- An exit code fits `i32`, as portable_pty reports it. -/
def Outcome.Fits : Outcome → Prop
  | .exited code => code.toNat < 2^31
  | .signaled => True

instance : (o : Outcome) → Decidable o.Fits
  | .exited code => inferInstanceAs (Decidable (code.toNat < 2^31))
  | .signaled => .isTrue trivial

def WorkerEvent.Fits : WorkerEvent → Prop
  | .pane _ (.exits outcome) => outcome.Fits
  | _ => True

/-- The status is one that is written for this exit information, whether or not the worker has
asked for the termination. -/
structure Status.Records (s : Status) (i : ExitInfo) : Prop where
  terminal : s.isTerminal = true
  code : s.exitCode = i.code
  killed : i.signaled = true → s.state = .killed
  definite : i.Definite

theorem exitInfoOf_definite {o : Option Outcome} (h : ∀ x ∈ o,x.Fits) : (exitInfoOf o).Definite := by
  intro hnone
  rcases o with _ | ⟨code⟩ | _
  · rfl
  · have hlt : code.toNat < 2^31 := h _ rfl
    rw [exitInfoOf,if_pos hlt] at hnone
    cases hnone
  · rfl

/-- What stands in for exit information that is not there. -/
theorem getD_definite {info : Option ExitInfo} (h : ∀ i ∈ info,i.Definite) :
    (info.getD ⟨none,true⟩).Definite := by
  cases info with
  | none => exact fun _ => rfl
  | some i => exact h i rfl

namespace Pane
variable {p p' : Pane} {e : PaneEvent}

structure Definite (p : Pane) : Prop where
  outcome : ∀ o ∈ p.outcome,o.Fits
  exitInfo : ∀ i ∈ p.exitInfo,i.Definite

theorem definite_spawned (pid : Option UInt32) : (Pane.spawned pid).Definite :=
  ⟨by simp [spawned],by simp [spawned]⟩

theorem Definite.step (hp : p.Definite) (h : p.step e = some p')
    (hfits : ∀ o,e = .exits o → o.Fits) : p'.Definite := by
  unfold Pane.step at h
  split at h
  next o =>
    split_ifs at h
    cases h
    refine ⟨?_,hp.exitInfo⟩
    rintro x ⟨⟩
    exact hfits o rfl
  · split at h <;> cases h
    next o houtcome hinfo =>
      refine ⟨hp.outcome,?_⟩
      rintro i ⟨⟩
      exact exitInfoOf_definite fun x hx => hp.outcome x (by rw [houtcome]; exact hx)
  · split_ifs at h
    cases h
    refine ⟨hp.outcome,?_⟩
    rintro i ⟨⟩
    exact exitInfoOf_definite (by simp)
  · split_ifs at h
    cases h
    exact ⟨hp.outcome,hp.exitInfo⟩

end Pane

namespace Status
variable {s : Status} {i : ExitInfo}

/-- The code of a status is that of the exit information it records: a code goes through all
defaults, and without one both sides know of a kill. -/
theorem Records.exitCodeFromStatus_eq (h : s.Records i) :
    exitCodeFromStatus (some s) = exitCodeFromInfo (some i) := by
  unfold exitCodeFromStatus exitCodeFromInfo
  dsimp only
  rw [h.code]
  cases hcode : i.code with
  | some code => rfl
  | none =>
    have hsignaled := h.definite hcode
    simp [h.killed hsignaled,hsignaled]

theorem Records.waitPoll_eq (h : s.Records i) (ownerDead expired : Bool) :
    waitPoll (some s) ownerDead expired = some (exitCodeFromInfo (some i)) := by
  rw [← h.exitCodeFromStatus_eq]
  have hterminal := h.terminal
  unfold waitPoll exitCodeFromStatus
  cases hs : s.state with
  | exited | killed => simp [hs]
  | starting | running => simp [Status.isTerminal,hs,State.isTerminal] at hterminal

theorem Records.parseExit_exitFrame (h : s.Records i) :
    parseExit (exitFrame s).payload = exitCodeFromInfo (some i) := by
  rw [exitFrame,parseExit_exitPayload,← h.exitCodeFromStatus_eq]
  simp [exitCodeFromInfo,exitCodeFromStatus]

end Status

namespace Worker
variable {cfg : WorkerConfig} {w w' : Worker} {e : WorkerEvent}

/-- The status on record and what the attached clients are told go back to the same exit
information. -/
structure Tallies (w : Worker) : Prop where
  panes : ∀ p ∈ w.panes,p.Definite
  draining : ∀ info,w.phase = .draining info → w.status.Records (info.getD ⟨none,true⟩)
  sent : ∀ i ∈ w.exitSent,w.phase.isEnding = true ∧ w.status.Records i
  closed : w.phase = .closing ∨ w.phase = .returned (.ok ()) → w.exitSent.isSome = true

theorem tallies_start : start.Tallies :=
  ⟨by simp [start],by rintro info ⟨⟩,by simp [start],by rintro (h | h) <;> cases h⟩

/-- Before the ending nothing has been sent. -/
theorem Tallies.unsent (h : w.Tallies) (hp : w.phase.isEnding = false) : w.exitSent = none := by
  cases hsent : w.exitSent with
  | none => rfl
  | some i =>
    have := (h.sent i hsent).1
    rw [hp] at this
    cases this

/-- A move of a worker that has not begun to end. -/
theorem Tallies.moves (h : w.Tallies) (hp : w.phase.isEnding = false) {panes : List Pane}
    {status : Status} {phase : WorkerPhase} {messages : List LoopMessage} {replies : List KillReply}
    (hpanes : ∀ p ∈ panes,p.Definite)
    (hdraining : ∀ info,phase = .draining info → status.Records (info.getD ⟨none,true⟩))
    (hclosed : phase ≠ .closing ∧ phase ≠ .returned (.ok ())) :
    Tallies ⟨phase,status,panes,messages,replies,w.exitSent⟩ := by
  refine ⟨hpanes,hdraining,?_,?_⟩
  · intro i hi
    dsimp only at hi
    rw [h.unsent hp] at hi
    cases hi
  · rintro (hc | hc)
    · exact absurd hc hclosed.1
    · exact absurd hc hclosed.2

theorem Tallies.spawns (h : w.Tallies) (started : List (Option UInt32)) :
    ∀ p ∈ w.panes ++ started.map Pane.spawned,p.Definite := by
  intro p hp
  rcases List.mem_append.mp hp with hp | hp
  · exact h.panes p hp
  · obtain ⟨pid,-,rfl⟩ := List.mem_map.mp hp
    exact Pane.definite_spawned pid

/-- What a phase carries is what is recorded of the current command. -/
theorem Tallies.info (h : w.Tallies) (hw : w.Honest) {i : ExitInfo} (hi : i ∈ w.phase.info) :
    i.Definite := by
  obtain ⟨p,hp,hinfo⟩ := Option.bind_eq_some_iff.mp (hw.phase i hi)
  exact (h.panes p (currentPane_mem hp)).exitInfo i hinfo

/-- The two status writes that end a session. -/
theorem Tallies.wrote (h : w.Tallies) (hw : w.Honest) {status : Status} {next : WorkerPhase}
    (hwrite : w.phase.write = some (status,next)) {replies : List KillReply} :
    Tallies { w with status := status, phase := next, replies := replies } := by
  have hinfo : ∀ i ∈ w.phase.info,i.Definite := fun i hi => h.info hw hi
  refine h.moves (isEnding_of_write hwrite) h.panes ?_ ?_
  · intro info hdraining
    subst hdraining
    cases hp : w.phase with
    | recordingKill t =>
      rw [hp] at hwrite hinfo
      obtain ⟨rfl,hinfo'⟩ := Prod.ext_iff.mp (Option.some.inj hwrite)
      obtain rfl := WorkerPhase.draining.inj hinfo'
      refine ⟨?_,rfl,?_,hinfo _ rfl⟩
      · simp only [Status.isTerminal,WorkerPhase.killState]
        split_ifs <;> rfl
      · intro hsignaled
        simp only [Option.getD_some] at hsignaled
        simp [WorkerPhase.killState,hsignaled]
    | finalizing info' requested =>
      rw [hp] at hwrite hinfo
      obtain ⟨rfl,hinfo'⟩ := Prod.ext_iff.mp (Option.some.inj hwrite)
      obtain rfl := WorkerPhase.draining.inj hinfo'
      refine ⟨?_,?_,?_,getD_definite hinfo⟩
      · simp only [Status.isTerminal]
        split_ifs <;> rfl
      · cases info' <;> rfl
      · intro hsignaled
        cases info' with
        | none => simp
        | some i => simp [show i.signaled = true from hsignaled]
    | _ =>
      rw [hp] at hwrite
      cases hwrite
  · cases hp : w.phase <;> rw [hp] at hwrite <;> cases hwrite <;> simp

theorem Tallies.step (h : w.Tallies) (hw : w.Honest) (hstep : w.step cfg e = some w')
    (hfits : e.Fits) : w'.Tallies := by
  have hmoves : ∀ {phase : WorkerPhase},w.phase = phase → phase.isEnding = false →
      w.phase.isEnding = false := by
    rintro phase rfl
    exact id
  cases step_move hstep with
  | spawned hp | respawned hp =>
    exact h.moves (hmoves hp rfl) (h.spawns [_]) (by simp) (by simp)
  | spawnFailed hp | respawnFailed hp =>
    rw [Option.toList_map]
    exact h.moves (hmoves hp rfl) (h.spawns _) (by simp) (by simp)
  | served hp | setupFailed hp | timeout hp | idle hp | restart hp | kill hp | exitNotified hp
  | called hp =>
    exact h.moves (hmoves hp rfl) h.panes (by simp) (by simp)
  | request => exact ⟨h.panes,h.draining,h.sent,h.closed⟩
  | @terminated cause phase result a hp =>
    refine h.moves (hmoves hp rfl) h.panes ?_ ?_
    · cases cause <;> cases result <;> simp [WorkerPhase.terminated]
    · cases cause <;> cases result <;> simp [WorkerPhase.terminated]
  | wrote hwrite => exact h.wrote hw hwrite
  | writeFailed hwrite =>
    refine h.moves (isEnding_of_write hwrite) h.panes ?_ ?_
    · unfold WorkerPhase.writeFailed
      split <;> simp
    · unfold WorkerPhase.writeFailed
      split <;> simp
  | @drained info hp =>
    refine ⟨h.panes,by simp,?_,by simp⟩
    rintro i ⟨⟩
    exact ⟨rfl,h.draining info hp⟩
  | left hp => exact ⟨h.panes,by simp,fun i hi => ⟨rfl,(h.sent i hi).2⟩,fun _ => h.closed (.inl hp)⟩
  | died => exact ⟨h.panes,by simp,fun i hi => ⟨rfl,(h.sent i hi).2⟩,by simp⟩
  | @pane i e pane pane' hget hmove =>
    refine ⟨?_,h.draining,h.sent,h.closed⟩
    intro p hp
    rcases List.mem_or_eq_of_mem_set hp with hp | rfl
    · exact h.panes p hp
    · refine (h.panes pane (List.mem_of_getElem? hget)).step hmove ?_
      rintro o rfl
      exact hfits

/-- In every run whose exit codes fit, the invariant holds. -/
theorem tallies_run {es : List WorkerEvent} (hfits : ∀ e ∈ es,e.Fits)
    (hrun : Transition.exec (Worker.step cfg) start es = some w) : w.Tallies := by
  have hall : Transition.Always (Worker.step cfg) Tallies start es := by
    refine Transition.always_of_meets (I := fun w => w.Tallies ∧ w.Honest) ?_ (fun w hw => hw.1)
      (Transition.meets_of_forall hfits start) ⟨tallies_start,honest_start⟩
    intro w e w' hstep hfit hw
    exact ⟨hw.1.step hw.2 hstep hfit,hw.2.step hstep⟩
  exact hall.last hrun

end Worker

/-- What a streaming client makes of the frames of a finished session's bridge: it prints the
output and returns the code of the exit frame. -/
theorem RemoteClient.finishedFrames_returned (cfg : RemoteConfig) {r : RemoteClient}
    (hstreaming : r.phase = .streaming) {bytes : List UInt8} (hbytes : bytes.length ≤ MAX_FILE_LEN)
    (hsince : ∀ o ∈ r.cursor,o ≤ bytes.length) (status : Status) :
    ((finishedFrames bytes status r.cursor).foldl (RemoteClient.frame cfg) r).phase =
      .returned (.ok (parseExit (exitFrame status).payload)) := by
  have hmax := MAX_FILE_LEN_lt
  have hexit : ∀ {r : RemoteClient},r.phase = .streaming →
      (r.frame cfg (exitFrame status)).phase =
        .returned (.ok (parseExit (exitFrame status).payload)) := by
    intro r hr
    simp [RemoteClient.frame,hr,RemoteClient.streamFrame,exitFrame,S_EXIT,S_OUTPUT_OFFSET,S_OUTPUT,
      S_ERROR]
  have houtput : ∀ start,r.cursor.getD start = start → start ≤ bytes.length →
      ((finishedFrames.output bytes status start).foldl (RemoteClient.frame cfg) r).phase =
        .returned (.ok (parseExit (exitFrame status).payload)) := by
    intro start hcursor hle
    unfold finishedFrames.output
    split_ifs with hlt
    · have hlen : start+(bytes.drop start).length = bytes.length := by
        rw [List.length_drop]
        omega
      have hpiece := piece_offsetFrame (by omega : start ≤ U64_MAX) (bytes.drop start)
      have hprinted := RemoteClient.offsetFrame_at_cursor cfg hpiece hcursor (by omega)
      simp only [List.singleton_append,List.foldl_cons,List.foldl_nil]
      refine hexit ?_
      rw [RemoteClient.frame,hstreaming]
      dsimp only
      rw [hprinted]
      exact hstreaming
    · exact hexit hstreaming
  cases hc : r.cursor with
  | none =>
    refine houtput _ (by rw [hc,Option.getD_none]) ?_
    unfold finishedStart
    omega
  | some o =>
    have hle := hsince o hc
    simp only [finishedFrames,if_neg (by omega : ¬bytes.length < o)]
    exact houtput o (by rw [hc,Option.getD_some]) hle

namespace RemoteClient
variable {cfg : RemoteConfig} {r : RemoteClient}

/-- The client waits for a bridge, with no hotkey typed ahead. -/
structure Waits (r : RemoteClient) : Prop where
  phase : r.phase = .handshake
  hotkey : (discardQueuedInput r.filter r.stdin).1 = false

/-- What the bridge of a finished session writes, truncated lengths and all, as this client reads
it. -/
def readFinished (cfg : RemoteConfig) (r : RemoteClient) (tty : Bool) (log : List UInt8)
    (status : Status) : RemoteClient :=
  (frameReader.out .fresh (writeFrames (⟨S_READY,[if tty then 1 else 0]⟩ ::
    finishedFrames log status r.cursor))).foldl (RemoteClient.frame cfg) r

theorem Waits.ready (h : r.Waits) (cfg : RemoteConfig) (payload : List UInt8) :
    (r.frame cfg ⟨S_READY,payload⟩).phase = .streaming ∧
      (r.frame cfg ⟨S_READY,payload⟩).cursor = r.cursor := by
  have hdetach := h.hotkey
  simp only [frame,h.phase,handshakeFrame,if_true,established,hdetach]
  exact ⟨rfl,rfl⟩

/-- A client that has returned reads nothing more. -/
theorem foldl_frame_returned {result : Except String Int32} (h : r.phase = .returned result)
    (fs : List Frame) : (fs.foldl (RemoteClient.frame cfg) r).phase = .returned result := by
  induction fs generalizing r with
  | nil => exact h
  | cons f fs ih => exact ih (by simp only [frame,h])

/-- Frames of an unknown kind pass by. -/
theorem foldl_frame_unknown (cfg : RemoteConfig) (h : r.phase = .streaming) (k : ℕ) :
    ((List.replicate k ⟨0,[]⟩).foldl (RemoteClient.frame cfg) r).phase = .streaming := by
  induction k generalizing r with
  | zero => exact h
  | succ k ih =>
    refine ih ?_
    simp [frame,h,streamFrame,S_OUTPUT_OFFSET,S_OUTPUT,S_ERROR,S_EXIT,S_DETACHED]

theorem frame_error (h : r.phase = .streaming) (payload : List UInt8) :
    (r.frame cfg ⟨S_ERROR,payload⟩).phase =
      .returned (.error ("remote attach failed: " ++ String.ofList (Utf8.decodeLossy payload))) := by
  simp [frame,h,streamFrame,fail,S_OUTPUT_OFFSET,S_OUTPUT,S_ERROR]

/-- The first bytes of an output frame leave the client streaming: at its cursor, or too short
to have an offset. -/
theorem frame_cut (cfg : RemoteConfig) (h : r.phase = .streaming) {start : ℕ}
    (hstart : start ≤ U64_MAX) (hcursor : r.cursor = some start) (data : List UInt8) (m : ℕ) :
    (r.frame cfg ⟨S_OUTPUT_OFFSET,(offsetPayload start data).take m⟩).phase = .streaming := by
  by_cases hm : m < 8
  · have hshort : ¬8 ≤ ((offsetPayload start data).take m).length := by
      rw [List.length_take]
      omega
    simp only [frame,h,streamFrame,hshort,and_false,if_false]
    simp [h,S_OUTPUT_OFFSET,S_OUTPUT,S_ERROR,S_EXIT,S_DETACHED]
  · have htake : (offsetPayload start data).take m = offsetPayload start (data.take (m-8)) := by
      rw [offsetPayload,List.take_append,BigEndian.encode_length,
        List.take_of_length_le (by rw [BigEndian.encode_length]; omega)]
      rfl
    have hlt : start < 256^8 := by
      unfold U64_MAX at hstart
      omega
    have hlong : 8 ≤ (offsetPayload start (data.take (m-8))).length := by
      simp [offsetPayload]
    have hoffset : (offsetPayload start (data.take (m-8))).take 8 = BigEndian.encode 8 start :=
      List.take_left' (BigEndian.encode_length 8 start)
    simp only [frame,h,streamFrame,htake,hlong,and_self,if_true,offsetFrame,hcursor,
      offsetFrameProgress,hoffset,BigEndian.decode_encode_of_lt hlt,Option.getD_some,
      Nat.lt_irrefl,if_false]

theorem readFinished_returned (h : r.Waits) (tty : Bool) {log : List UInt8}
    (hlog : log.length ≤ MAX_FILE_LEN)
    (hfits : ∀ o ∈ r.cursor,o = log.length ∨ (o ≤ log.length ∧ 8+(log.length-o) < 2^32))
    (status : Status) : (r.readFinished cfg tty log status).phase =
      .returned (.ok (parseExit (exitFrame status).payload)) := by
  obtain ⟨hstreaming,hcursor⟩ := h.ready cfg [if tty then 1 else 0]
  have hall : ∀ f ∈ (⟨S_READY,[if tty then 1 else 0]⟩ :: finishedFrames log status r.cursor :
      List Frame),f.Fits := by
    intro f hf
    rcases List.mem_cons.mp hf with rfl | hf
    · simp [Frame.Fits]
    · exact finishedFrames_fit hfits status f hf
  have hwithin : ∀ o ∈ (r.frame cfg ⟨S_READY,[if tty then 1 else 0]⟩).cursor,o ≤ log.length := by
    rw [hcursor]
    intro o ho
    have := hfits o ho
    omega
  have hreturned := finishedFrames_returned cfg hstreaming hlog hwithin status
  rw [hcursor] at hreturned
  rw [readFinished,frameReader_writeFrames hall]
  exact hreturned

/-- Where the output does not fit its frame, its rest is read as frames, and an error frame among
them is the end. -/
theorem readFinished_cut (h : r.Waits) (tty : Bool) {log : List UInt8}
    (hlog : log.length ≤ MAX_FILE_LEN) {start : ℕ} (hcursor : r.cursor = some start)
    (hlt : start < log.length) {k : ℕ}
    (hrest : writeFrames (List.replicate k ⟨0,[]⟩ ++ [⟨S_ERROR,[]⟩]) <+:
      (offsetPayload start (log.drop start)).drop ((8+(log.length-start)) % 2^32))
    (status : Status) :
    (r.readFinished cfg tty log status).phase =
      .returned (.error ("remote attach failed: " ++ String.ofList (Utf8.decodeLossy []))) := by
  have hmax := MAX_FILE_LEN_lt
  obtain ⟨hstreaming,hsame⟩ := h.ready cfg [if tty then 1 else 0]
  obtain ⟨rest,hrest⟩ := hrest
  have hlen : (offsetPayload start (log.drop start)).length = 8+(log.length-start) := by
    simp [offsetPayload]
  have hcut := writeFrame_cut (Babysit.offsetFrame start (log.drop start))
  dsimp only [Babysit.offsetFrame] at hcut
  rw [hlen,← hrest] at hcut
  have hbytes : writeFrames (⟨S_READY,[if tty then 1 else 0]⟩ ::
      finishedFrames log status r.cursor) =
      writeFrames (⟨S_READY,[if tty then 1 else 0]⟩ :: ⟨S_OUTPUT_OFFSET,
        (offsetPayload start (log.drop start)).take ((8+(log.length-start)) % 2^32)⟩ ::
        (List.replicate k ⟨0,[]⟩ ++ [⟨S_ERROR,[]⟩])) ++
      (rest ++ writeFrame (exitFrame status)) := by
    rw [hcursor,finishedFrames_some hlt.le,finishedData,if_pos hlt]
    simp only [writeFrames_cons,List.cons_append,List.nil_append,writeFrames_nil,List.append_nil,
      List.append_assoc]
    rw [show writeFrame (Babysit.offsetFrame start (log.drop start)) = _ from hcut]
    simp only [List.append_assoc]
  have hall : ∀ f ∈ (⟨S_READY,[if tty then 1 else 0]⟩ :: ⟨S_OUTPUT_OFFSET,
      (offsetPayload start (log.drop start)).take ((8+(log.length-start)) % 2^32)⟩ ::
      (List.replicate k ⟨0,[]⟩ ++ [⟨S_ERROR,[]⟩]) : List Frame),f.Fits := by
    intro f hf
    simp only [List.mem_cons,List.mem_append,List.not_mem_nil,or_false] at hf
    rcases hf with rfl | rfl | hf | rfl
    · simp [Frame.Fits]
    · simp only [Frame.Fits,List.length_take]
      omega
    · obtain rfl := List.eq_of_mem_replicate hf
      simp [Frame.Fits]
    · simp [Frame.Fits]
  rw [readFinished,hbytes,frameReader_writeFrames_append hall,List.foldl_append]
  refine foldl_frame_returned ?_ _
  rw [List.foldl_cons,List.foldl_cons,List.foldl_append,List.foldl_cons,List.foldl_nil]
  have hpassed := foldl_frame_unknown cfg (frame_cut cfg hstreaming
    (by omega : start ≤ U64_MAX) (hsame.trans hcursor) (log.drop start)
    ((8+(log.length-start)) % 2^32)) k
  exact frame_error hpassed []

end RemoteClient

/-- Zeros are frames of an unknown kind. -/
theorem writeFrames_unknown (k : ℕ) :
    writeFrames (List.replicate k ⟨0,[]⟩) = List.replicate (5*k) 0 := by
  induction k with
  | zero => rfl
  | succ k ih =>
    rw [List.replicate_succ,writeFrames_cons,ih,
      show writeFrame ⟨0,[]⟩ = List.replicate 5 0 from rfl,List.replicate_append_replicate,
      Nat.mul_succ,Nat.add_comm]

/-- A log of n bytes, in which an error frame stands behind the given number of zeros. -/
def errorLog (n zeros : ℕ) : List UInt8 :=
  List.replicate zeros 0 ++ (writeFrame ⟨S_ERROR,[]⟩ ++ List.replicate (n-(zeros+5)) 0)

theorem errorLog_length {n zeros : ℕ} (h : zeros+5 ≤ n) : (errorLog n zeros).length = n := by
  simp only [errorLog,List.length_append,List.length_replicate,writeFrame,List.length_cons,
    BigEndian.encode_length,List.length_nil]
  omega

namespace Worker

/-- The exit codes agree: in the worker's exit frame, for `wait`, in the status an attach client
falls back on, and for each remote client that reads a finished log of n bytes from `since`. -/
def CodesAgree (w : Worker) (n : ℕ) (since : Option ℕ) : Prop :=
  ∃ code,(∃ info,w.exitSent = some info ∧ parseExit (exitPayload (some info)) = code) ∧
    (∀ ownerDead expired,waitPoll (w.readStatus true) ownerDead expired = some code) ∧
    exitCodeFromStatus (w.readStatus true) = code ∧
    ∀ (cfg : RemoteConfig) (r : RemoteClient) (tty : Bool) (log : List UInt8),r.Waits →
      r.cursor = since → log.length = n →
      (r.readFinished cfg tty log w.status).phase = .returned (.ok code)

/-- A client for whom the cut output ends in an error. -/
theorem not_codesAgree {w : Worker} {n start : ℕ} (hn : n ≤ MAX_FILE_LEN) (hlt : start < n)
    {log : List UInt8} (hlog : log.length = n) {k : ℕ}
    (hrest : writeFrames (List.replicate k ⟨0,[]⟩ ++ [⟨S_ERROR,[]⟩]) <+:
      (offsetPayload start (log.drop start)).drop ((8+(n-start)) % 2^32)) :
    ¬w.CodesAgree n (some start) := by
  rintro ⟨code,-,-,-,hclients⟩
  have hwaits : RemoteClient.Waits { RemoteClient.init with cursor := some start } := ⟨rfl,rfl⟩
  have hok := hclients ⟨true,false⟩ { RemoteClient.init with cursor := some start } false log hwaits
    rfl hlog
  subst hlog
  rw [RemoteClient.readFinished_cut hwaits false hn rfl hlt hrest] at hok
  cases hok

theorem not_codesAgree_of_cut {w : Worker} {n start : ℕ} (hn : n ≤ MAX_FILE_LEN)
    (hlong : 2^32 ≤ 8+(n-start)) (hcut : 8 ≤ (8+(n-start)) % 2^32) :
    ¬w.CodesAgree n (some start) := by
  have hroom : start+((8+(n-start)) % 2^32-8)+5 ≤ n := by omega
  refine not_codesAgree hn (by omega) (errorLog_length hroom) (k := 0) ?_
  have hdrop : ∀ data : List UInt8,(offsetPayload start data).drop ((8+(n-start)) % 2^32) =
      data.drop ((8+(n-start)) % 2^32-8) := by
    intro data
    rw [offsetPayload,List.drop_append,BigEndian.encode_length,
      List.drop_eq_nil_of_le (by rw [BigEndian.encode_length]; exact hcut)]
    rfl
  rw [hdrop,List.drop_drop,errorLog,List.drop_left' List.length_replicate]
  exact List.prefix_append _ _

/-- From offset 0 on even the bytes of the offset are frames. -/
theorem not_codesAgree_zero {w : Worker} {n : ℕ} (hn : n ≤ MAX_FILE_LEN) (hlong : 2^32 ≤ 8+n) :
    ¬w.CodesAgree n (some 0) := by
  by_cases hcut : 8 ≤ (8+n) % 2^32
  · exact not_codesAgree_of_cut hn hlong hcut
  generalize hm : (8+n) % 2^32 = m at hcut
  have hlog : (errorLog n ((m+2) % 5)).length = n := errorLog_length (by omega)
  refine not_codesAgree hn (by omega) hlog (k := (8-m+(m+2) % 5)/5) ?_
  have hzeros : (8-m+(m+2) % 5) = 5*((8-m+(m+2) % 5)/5) := by omega
  rw [Nat.sub_zero,hm,List.drop_zero,offsetPayload,
    show BigEndian.encode 8 0 = List.replicate 8 0 from rfl,List.drop_append,List.drop_replicate,
    List.length_replicate,show m-8 = 0 by omega,List.drop_zero,errorLog,writeFrames_append,
    writeFrames_unknown,← hzeros,← List.append_assoc,List.replicate_append_replicate,
    ← List.append_assoc]
  exact List.prefix_append _ _

/-- A session that has ended has one exit code, for every client and offset, exactly when its log
fits a frame; an offset for which the output fits is enough, and one behind which the length is
cut to 8 or more is not. -/
theorem exit_codes_agree_iff {cfg : WorkerConfig} {es : List WorkerEvent}
    (hfits : ∀ e ∈ es,e.Fits) {w : Worker}
    (hrun : Transition.exec (Worker.step cfg) .start es = some w)
    (hended : w.phase = .returned (.ok ())) {n : ℕ} (hn : n ≤ MAX_FILE_LEN) :
    (∀ since : Option ℕ,(∀ o ∈ since,o = n ∨ (o ≤ n ∧ 8+(n-o) < 2^32)) → w.CodesAgree n since) ∧
    (∀ o,2^32 ≤ 8+(n-o) → 8 ≤ (8+(n-o)) % 2^32 → ¬w.CodesAgree n (some o)) ∧
    ((∀ since : Option ℕ,(∀ o ∈ since,o ≤ n) → w.CodesAgree n since) ↔ 8+n < 2^32) := by
  have htallies := tallies_run hfits hrun
  obtain ⟨info,hsent⟩ := Option.isSome_iff_exists.mp (htallies.closed (.inr hended))
  have hrecords := (htallies.sent info hsent).2
  have hagree : ∀ since : Option ℕ,(∀ o ∈ since,o = n ∨ (o ≤ n ∧ 8+(n-o) < 2^32)) →
      w.CodesAgree n since := by
    intro since hsince
    refine ⟨exitCodeFromInfo (some info),⟨info,hsent,parseExit_exitPayload _⟩,
      hrecords.waitPoll_eq,hrecords.exitCodeFromStatus_eq,?_⟩
    rintro cfg r tty log hwaits rfl rfl
    rw [RemoteClient.readFinished_returned hwaits tty hn hsince,hrecords.parseExit_exitFrame]
  refine ⟨hagree,fun o hlong hcut => not_codesAgree_of_cut hn hlong hcut,?_,?_⟩
  · intro hall
    by_contra hlong
    exact not_codesAgree_zero hn (by omega) (hall (some 0) (by simp))
  · intro hshort since hsince
    refine hagree since fun o ho => .inr ⟨hsince o ho,?_⟩
    omega

/-- A restart, and a kill that the second command meets by exiting with 3. -/
def killedAfterRestart : List WorkerEvent :=
  [.spawned (some 10),.record none,.served none,.request .restart,.receive,.os .proceed,
    .os (.signalled none),.pane 0 (.exits .signaled),.pane 0 .reaped,.os .waited,
    .os (.probed (.ok false)),.spawned (some 11),.record none,.request .kill,.receive,.os .proceed,
    .os (.signalled none),.pane 1 (.exits (.exited 3)),.pane 1 .reaped,.os .waited,
    .os (.probed (.ok false)),.record none,.drained,.left]

theorem exit_codes_agree_killed : ∃ w,
    Transition.exec (Worker.step ⟨false,false⟩) .start killedAfterRestart = some w ∧
      w.status = ⟨.killed,none,some 3⟩ ∧ w.exitSent = some ⟨some 3,false⟩ ∧
      (∀ ownerDead expired,waitPoll (w.readStatus true) ownerDead expired = some 3) ∧
      exitCodeFromStatus (w.readStatus true) = 3 ∧
      (RemoteClient.readFinished ⟨true,false⟩ { RemoteClient.init with cursor := some 1 } false
        [65,66] w.status).phase = .returned (.ok 3) := by
  obtain ⟨w,hrun,hended,hstatus,hsent⟩ : ∃ w,
      Transition.exec (Worker.step ⟨false,false⟩) .start killedAfterRestart = some w ∧
        w.phase = .returned (.ok ()) ∧ w.status = ⟨.killed,none,some 3⟩ ∧
        w.exitSent = some ⟨some 3,false⟩ := ⟨_,rfl,rfl,rfl,rfl⟩
  have hfits : ∀ e ∈ killedAfterRestart,e.Fits := by
    simp [killedAfterRestart,WorkerEvent.Fits,Outcome.Fits]
  obtain ⟨code,⟨info,hinfo,hcode⟩,hwait,hrecorded,hclients⟩ :=
    (exit_codes_agree_iff hfits hrun hended (by decide : 2 ≤ MAX_FILE_LEN)).1 (some 1) (by
      rintro o ⟨⟩
      exact .inr (by decide))
  obtain rfl := Option.some.inj (hsent.symm.trans hinfo)
  obtain rfl : 3 = code := hcode
  exact ⟨w,hrun,hstatus,hsent,hwait,hrecorded,hclients _ _ false [65,66] ⟨rfl,rfl⟩ rfl rfl⟩

/-- The command exits with 3, after more output than a frame can hold. -/
def exitedWithThree : List WorkerEvent :=
  [.spawned (some 10),.record none,.served none,.pane 0 (.exits (.exited 3)),.pane 0 .reaped,
    .pane 0 .notifies,.exitNotified,.record none,.drained,.left]

theorem longOutput_hides_code : ∃ w,
    Transition.exec (Worker.step ⟨false,false⟩) .start exitedWithThree = some w ∧
      w.phase = .returned (.ok ()) ∧
      (∀ ownerDead expired,waitPoll (w.readStatus true) ownerDead expired = some 3) ∧
      (RemoteClient.readFinished ⟨true,false⟩ { RemoteClient.init with cursor := some 1 } false
        (errorLog (2^32+1) 1) w.status).phase = .returned (.error "remote attach failed: ") ∧
      ¬w.CodesAgree (2^32+1) (some 1) := by
  have hlog : (errorLog (2^32+1) 1).length = 2^32+1 := errorLog_length (by omega)
  have hmax : 2^32+1 ≤ MAX_FILE_LEN := by decide
  refine ⟨_,rfl,rfl,fun ownerDead expired => by cases ownerDead <;> cases expired <;> rfl,?_,
    not_codesAgree_of_cut hmax (by omega) (by omega)⟩
  have hrest : writeFrames (List.replicate 0 ⟨0,[]⟩ ++ [⟨S_ERROR,[]⟩]) <+:
      (offsetPayload 1 ((errorLog (2^32+1) 1).drop 1)).drop
        ((8+((errorLog (2^32+1) 1).length-1)) % 2^32) := by
    rw [hlog]
    exact List.prefix_append _ _
  exact RemoteClient.readFinished_cut ⟨rfl,rfl⟩ false (by rw [hlog]; exact hmax) rfl
    (by rw [hlog]; omega) hrest _

end Worker
end Babysit
