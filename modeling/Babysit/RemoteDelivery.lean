import Babysit.RemoteReconnect

/-! What the remote client prints over all its connections is one run of the log, as long as
every request without an offset is answered from where the first attach began. -/
namespace Babysit
open AppendLog

lemma offsetPieces_error (error : String) : offsetPieces [errorFrame error] = [] := by
  have hpiece : (errorFrame error).piece = none :=
    piece_of_ne (by simp [errorFrame,S_ERROR,S_OUTPUT_OFFSET])
  simp [offsetPieces,hpiece]

/-- The output of a finished session and its exit frame: a run from the start to the end. -/
theorem finishedOutput_run {log : List UInt8} (hlog : log.length ≤ MAX_FILE_LEN)
    {bytes : List UInt8} (hbytes : bytes = log ∨ bytes = []) (status : Status) (start : ℕ) :
    (∃ stop, Follows log start
      (offsetPieces (finishedFrames.output bytes status start)) stop) ∧
    ∀ f ∈ finishedFrames.output bytes status start, f.tag ≠ S_OUTPUT := by
  have hexit : (⟨S_EXIT,exitPayload (some ⟨status.exitCode,status.state = .killed⟩)⟩ :
      Frame).piece = none := piece_of_ne (by simp [S_EXIT,S_OUTPUT_OFFSET])
  unfold finishedFrames.output
  by_cases hlt : start < bytes.length
  · rw [if_pos hlt]
    obtain rfl : bytes = log := by
      rcases hbytes with h | h
      · exact h
      · rw [h] at hlt
        simp at hlt
    have hfits : start ≤ U64_MAX := by
      have := MAX_FILE_LEN_lt
      omega
    refine ⟨⟨start + (bytes.drop start).length,?_⟩,?_⟩
    · rw [offsetPieces_snoc_of_none hexit]
      have hpiece : offsetPieces [offsetFrame start (bytes.drop start)] =
          [(start,bytes.drop start)] := by
        simp [offsetPieces,piece_offsetFrame hfits (bytes.drop start)]
      rw [hpiece]
      exact ⟨rfl,holdsAt_drop _ _,rfl⟩
    · intro f hf
      rcases List.mem_append.mp hf with hf | hf
      · obtain rfl := List.mem_singleton.mp hf
        exact offsetFrame_tag _ _
      · obtain rfl := List.mem_singleton.mp hf
        simp [S_EXIT,S_OUTPUT]
  · rw [if_neg hlt]
    refine ⟨⟨start,?_⟩,?_⟩
    · rw [offsetPieces_snoc_of_none hexit]
      rfl
    · intro f hf
      obtain rfl := List.mem_singleton.mp hf
      simp [S_EXIT,S_OUTPUT]

/-- What the bridge sends of a finished log runs from its start to the log's end. -/
theorem finishedFrames_run {log : List UInt8} (hlog : log.length ≤ MAX_FILE_LEN)
    (bytes : List UInt8) (hbytes : bytes = log ∨ bytes = []) (status : Status)
    (since : Option ℕ) :
    (∃ stop, Follows log (since.getD (finishedStart bytes))
      (offsetPieces (finishedFrames bytes status since)) stop) ∧
    ∀ f ∈ finishedFrames bytes status since, f.tag ≠ S_OUTPUT := by
  cases since with
  | none =>
    rw [Option.getD_none]
    exact finishedOutput_run hlog hbytes status (finishedStart bytes)
  | some offset =>
    simp only [finishedFrames,Option.getD_some]
    split_ifs
    · refine ⟨⟨offset,?_⟩,by simp [errorFrame,S_ERROR,S_OUTPUT]⟩
      rw [offsetPieces_error]
      rfl
    · exact finishedOutput_run hlog hbytes status offset

/-- What follows the ready frame of an answer is a run of the log from its start. -/
def BridgeAnswer.Sound (w : AttachWorld) : BridgeAnswer → Prop
  | .worker i a => a ≤ w.disk.log.length ∧
      ∃ h, w.handlers[i]? = some h ∧ h.Streams w.hub w.disk.log a
  | .finished fs a => a ≤ w.disk.log.length ∧
      (∃ stop, Follows w.disk.log a (offsetPieces fs) stop) ∧ ∀ f ∈ fs, f.tag ≠ S_OUTPUT
  | .silent | .refused _ | .ready => True

/-- The invariant of the current connection. -/
structure Conn.Good (w : RemoteWorld) (c : Conn) : Prop where
  running : w.client.running = true
  fresh : w.client.phase = .handshake → c.read = 0 ∧ c.since = w.client.cursor
  sinceLe : ∀ o, c.since = some o → o ≤ w.worker.disk.log.length
  base : ∀ a s, c.base = some a → w.start = some s → a = c.since.getD s
  answer : c.answer.Sound w.worker
  reading : w.client.phase = .streaming → 0 < c.read ∧ c.read-1 ≤ (c.body w.worker).length ∧
    ∀ s, w.start = some s → Follows w.worker.disk.log (c.since.getD s)
      (offsetPieces ((c.body w.worker).take (c.read-1))) (w.client.cursor.getD s)

/-- The invariant of the whole system. -/
structure RemoteWorld.Good (w : RemoteWorld) : Prop where
  sound : w.worker.Sound
  visual : w.client.visualReconnect = false
  established : w.start.isSome = w.client.establishedOnce
  streaming : w.client.phase = .streaming → w.start.isSome = true
  unstarted : w.start = none → w.client.stdout = [] ∧ w.client.cursor = none
  printed : ∀ s, w.start = some s → s ≤ w.worker.disk.log.length ∧
    HoldsAt w.worker.disk.log s w.client.stdout ∧
    s + w.client.stdout.length = w.client.cursor.getD s
  conn : ∀ c, w.conn = some c → c.Good w

namespace Conn.Good
variable {w : RemoteWorld} {c : Conn}

/-- What follows the ready frame is a run of the log without legacy output. -/
theorem body_run (h : c.Good w) {a : ℕ} (ha : c.base = some a) :
    a ≤ w.worker.disk.log.length ∧
      (∃ stop, Follows w.worker.disk.log a (offsetPieces (c.body w.worker)) stop) ∧
      ∀ f ∈ c.body w.worker, f.tag ≠ S_OUTPUT := by
  have hanswer := h.answer
  unfold Conn.base at ha
  unfold Conn.body
  cases hc : c.answer with
  | worker i b =>
    rw [hc] at hanswer
    simp only [hc,Option.some.injEq] at ha
    obtain ⟨hle,handler,hget,hstreams⟩ := hanswer
    subst ha
    simp only [hget,Option.map_some,Option.getD_some]
    exact ⟨hle,hstreams.run,hstreams.raw⟩
  | finished fs b =>
    rw [hc] at hanswer
    simp only [hc,Option.some.injEq] at ha
    subst ha
    exact hanswer
  | silent => simp [hc] at ha
  | refused error => simp [hc] at ha
  | ready => simp [hc] at ha

/-- A move of the client that keeps its cursor, inside its loop. -/
theorem keeps (h : c.Good w) {client : RemoteClient} (hkeeps : w.client.Keeps client)
    (hrunning : client.running = true) : c.Good { w with client := client } := by
  have hphase : client.phase = w.client.phase := by
    rcases hkeeps.phase with hp | hp
    · exact hp
    · rw [hp] at hrunning
      cases hrunning
  refine ⟨hrunning,?_,h.sinceLe,h.base,h.answer,?_⟩
  · intro hp
    have hfresh := h.fresh (hphase ▸ hp)
    exact ⟨hfresh.1,hfresh.2.trans hkeeps.cursor.symm⟩
  · intro hp
    have hreading := h.reading (hphase ▸ hp)
    dsimp only
    rw [hkeeps.cursor]
    exact hreading

/-- A step of the worker, under the connection it serves. -/
theorem worker_step (h : c.Good w) (hw : w.worker.Sound) {e : AttachEvent} {worker : AttachWorld}
    (hstep : w.worker.step e = some worker) : c.Good { w with worker := worker } := by
  have hdisk := AttachWorld.step_disk hw hstep
  have hbody : c.body w.worker <+: c.body worker := by
    unfold Conn.body
    have hanswer := h.answer
    cases hc : c.answer with
    | worker i a =>
      rw [hc] at hanswer
      obtain ⟨-,handler,hget,-⟩ := hanswer
      obtain ⟨handler',hget',hsent⟩ := AttachWorld.step_sent hstep hget
      simpa [hget,hget'] using hsent
    | _ => exact List.prefix_rfl
  refine ⟨h.running,h.fresh,?_,h.base,?_,?_⟩
  · intro o ho
    have hle := h.sinceLe o ho
    dsimp only
    rw [hdisk,List.length_append]
    omega
  · have hanswer := h.answer
    cases hc : c.answer with
    | worker i a =>
      rw [hc] at hanswer
      obtain ⟨hle,handler,hget,hstreams⟩ := hanswer
      refine ⟨?_,AttachWorld.streams_step hw hstep hget hstreams⟩
      rw [hdisk,List.length_append]
      omega
    | finished fs a =>
      rw [hc] at hanswer
      obtain ⟨hle,⟨stop,hrun⟩,hraw⟩ := hanswer
      refine ⟨?_,⟨stop,?_⟩,hraw⟩
      · rw [hdisk,List.length_append]
        omega
      · dsimp only
        rw [hdisk]
        exact hrun.grow _
    | _ => trivial
  · intro hp
    obtain ⟨hpos,hle,hfollows⟩ := h.reading hp
    refine ⟨hpos,hle.trans hbody.length_le,?_⟩
    intro s hs
    have htake : (c.body worker).take (c.read-1) = (c.body w.worker).take (c.read-1) := by
      obtain ⟨more,hmore⟩ := hbody
      rw [← hmore,List.take_append_of_le_length hle]
    dsimp only
    rw [htake,hdisk]
    exact (hfollows s hs).grow _

/-- What a frame read while streaming leaves of the connection. -/
theorem advance (h : c.Good w) {s : ℕ} (hs : w.start = some s)
    (hlt : c.read-1 < (c.body w.worker).length) {client : RemoteClient}
    (hstreaming : client.phase = .streaming)
    (hfollows : Follows w.worker.disk.log (c.since.getD s)
      (offsetPieces ((c.body w.worker).take c.read)) (client.cursor.getD s)) :
    Conn.Good { w with client := client, conn := some { c with read := c.read+1 } }
      { c with read := c.read+1 } := by
  refine ⟨by simp [RemoteClient.running,hstreaming],?_,h.sinceLe,h.base,h.answer,?_⟩
  · intro hhandshake
    dsimp only at hhandshake
    rw [hstreaming] at hhandshake
    cases hhandshake
  · intro _
    refine ⟨Nat.succ_pos _,?_,?_⟩
    · dsimp only [Conn.body] at hlt ⊢
      omega
    · intro s' hs'
      obtain rfl : s = s' := Option.some.inj (hs.symm.trans hs')
      exact hfollows

end Conn.Good

namespace RemoteWorld
variable {run : RemoteRun} {w w' : RemoteWorld}

/-- The start once the client has read the first frame of a connection. -/
def startAfter (w : RemoteWorld) (c : Conn) (client : RemoteClient) : Option ℕ :=
  if w.start = none ∧ client.establishedOnce
    then some (c.base.getD w.worker.hub.backlogStart) else w.start

lemma startAfter_eq {c : Conn} {client : RemoteClient} {s : ℕ}
    (hs : w.startAfter c client = some s) :
    (w.start = none ∧ s = c.base.getD w.worker.hub.backlogStart) ∨ w.start = some s := by
  unfold startAfter at hs
  split_ifs at hs with hnone
  · exact .inl ⟨hnone.1,(Option.some.inj hs).symm⟩
  · exact .inr hs

lemma startAfter_isSome {c : Conn} {client : RemoteClient} (h : client.establishedOnce = true) :
    (w.startAfter c client).isSome = true := by
  unfold startAfter
  by_cases hnone : w.start = none
  · simp [hnone,h]
  · simpa [hnone] using Option.isSome_iff_ne_none.mpr hnone

lemma startAfter_of_established {c : Conn} {client : RemoteClient}
    (h : w.start.isSome = client.establishedOnce) : w.startAfter c client = w.start := by
  unfold startAfter
  rw [if_neg]
  rintro ⟨hnone,hestablished⟩
  rw [hnone,hestablished] at h
  cases h

/-- What a step can do, one constructor for each event. -/
inductive Move (run : RemoteRun) (w : RemoteWorld) : NetEvent → RemoteWorld → Prop
  | worker {e worker} : w.worker.step e = some worker →
      Move run w (.worker e) { w with worker := worker }
  | logFailure {data now written error} : Move run w (.logFailure data now written error) { w with
      worker := { w.worker with
        hub := (w.worker.hub.broadcast w.worker.disk data ⟨now,.failed written error,.ok⟩).1
        disk := (w.worker.hub.broadcast w.worker.disk data ⟨now,.failed written error,.ok⟩).2 } }
  | configureLog {io} : Move run w (.configureLog io) { w with worker := { w.worker with
      hub := (w.worker.hub.configureLog w.worker.disk io).1
      disk := (w.worker.hub.configureLog w.worker.disk io).2 } }
  | finish {status} : Move run w (.finish status) { w with finished := some status }
  | connect : w.client.phase = .handshake → w.conn = none →
      Move run w .connect { w with conn := some ⟨w.client.cursor,.silent,0⟩ }
  | spawnFailed {error} : w.conn = none →
      Move run w (.spawnFailed error) { w with client := w.client.fail error }
  | bridgeRefuses {error since read} : w.conn = some ⟨since,.silent,read⟩ →
      Move run w (.bridgeRefuses error) { w with conn := some ⟨since,.refused error,read⟩ }
  | bridgeReady {since read} : w.conn = some ⟨since,.silent,read⟩ →
      Move run w .bridgeReady { w with conn := some ⟨since,.ready,read⟩ }
  | workerAccepts {since read worker} : w.conn = some ⟨since,.ready,read⟩ →
      w.worker.step (.attach REMOTE_PROTOCOL since) = some worker →
      Move run w .workerAccepts { w with
        worker := worker
        conn := some ⟨since,.worker w.worker.handlers.length
          (since.getD w.worker.hub.backlogStart),read⟩ }
  | bridgeFinished {readable since read} (status : Status) : w.conn = some ⟨since,.silent,read⟩ →
      Move run w (.bridgeFinished readable) { w with
        conn := some ⟨since,.finished (finishedFrames (finishedBytes w.worker readable) status since)
          (since.getD (finishedStart (finishedBytes w.worker readable))),read⟩ }
  | frame {c f} : w.conn = some c → w.client.running = true →
      (c.frames run.tty w.worker)[c.read]? = some f →
      Move run w .frame { w.settle (w.client.frame run.cfg f) (some { c with read := c.read+1 }) with
        start := w.startAfter c (w.client.frame run.cfg f) }
  | ended {error} : Move run w (.ended error) (w.settle (w.client.ended run.cfg error) none)
  | branch {e client} : w.client.branch run.cfg e = some client →
      Move run w (.branch e) (w.settle client w.conn)
  | typed {chunk} : Move run w (.typed chunk) { w with client := w.client.typed chunk }
  | waitInput {client} : w.client.waitInput = some client →
      Move run w .waitInput { w with client := client }
  | retry {timer client} : w.client.retry timer = some client →
      Move run w (.retry timer) { w with client := client }

theorem step_move {e : NetEvent} (hstep : w.step run e = some w') : w.Move run e w' := by
  cases e with
  | worker e =>
    simp only [step] at hstep
    split_ifs at hstep
    obtain ⟨worker,hworker,rfl⟩ := Option.map_eq_some_iff.mp hstep
    exact .worker hworker
  | logFailure data now written error =>
    simp only [step] at hstep
    split_ifs at hstep
    obtain rfl := Option.some.inj hstep
    exact .logFailure
  | configureLog io =>
    simp only [step] at hstep
    split_ifs at hstep
    obtain rfl := Option.some.inj hstep
    exact .configureLog
  | finish status =>
    simp only [step] at hstep
    split_ifs at hstep
    obtain rfl := Option.some.inj hstep
    exact .finish
  | connect =>
    simp only [step] at hstep
    split at hstep
    next hp hconn =>
      obtain rfl := Option.some.inj hstep
      exact .connect hp hconn
    next => cases hstep
  | spawnFailed error =>
    simp only [step] at hstep
    split at hstep
    next hp hconn =>
      obtain rfl := Option.some.inj hstep
      exact .spawnFailed hconn
    next => cases hstep
  | bridgeRefuses error =>
    simp only [step] at hstep
    split at hstep
    next since read hconn =>
      obtain rfl := Option.some.inj hstep
      exact .bridgeRefuses hconn
    next => cases hstep
  | bridgeReady =>
    simp only [step] at hstep
    split at hstep
    next since read hconn hfinished =>
      obtain rfl := Option.some.inj hstep
      exact .bridgeReady hconn
    next => cases hstep
  | workerAccepts =>
    simp only [step] at hstep
    split at hstep
    next since read hconn hfinished =>
      obtain ⟨worker,hworker,rfl⟩ := Option.map_eq_some_iff.mp hstep
      exact .workerAccepts hconn hworker
    next => cases hstep
  | bridgeFinished readable =>
    simp only [step] at hstep
    split at hstep
    next since read status hconn hfinished =>
      obtain rfl := Option.some.inj hstep
      exact .bridgeFinished status hconn
    next => cases hstep
  | frame =>
    simp only [step] at hstep
    split_ifs at hstep with hrunning
    simp only [Option.bind_eq_bind,Option.bind_eq_some_iff,Option.some.injEq] at hstep
    obtain ⟨c,hconn,f,hf,rfl⟩ := hstep
    exact .frame hconn hrunning hf
  | ended error =>
    simp only [step] at hstep
    split_ifs at hstep
    obtain rfl := Option.some.inj hstep
    exact .ended
  | branch e =>
    simp only [step] at hstep
    split_ifs at hstep
    obtain ⟨client,hclient,rfl⟩ := Option.map_eq_some_iff.mp hstep
    exact .branch hclient
  | typed chunk =>
    obtain rfl := Option.some.inj hstep
    exact .typed
  | waitInput =>
    obtain ⟨client,hclient,rfl⟩ := Option.map_eq_some_iff.mp hstep
    exact .waitInput hclient
  | retry timer =>
    obtain ⟨client,hclient,rfl⟩ := Option.map_eq_some_iff.mp hstep
    exact .retry hclient

/-- A move of the client that keeps its cursor and its connection. -/
theorem Good.keeps (h : w.Good) {client : RemoteClient} (hkeeps : w.client.Keeps client)
    {conn : Option Conn} (hconn : ∀ c, conn = some c → w.conn = some c)
    (hrunning : conn ≠ none → client.running = true) :
    Good { w with client := client, conn := conn } := by
  refine ⟨h.sound,hkeeps.visual.trans h.visual,h.established.trans hkeeps.established.symm,
    ?_,?_,?_,?_⟩
  · intro hp
    rcases hkeeps.phase with hphase | hstopped
    · exact h.streaming (hphase ▸ hp)
    · rw [RemoteClient.running,hp] at hstopped
      cases hstopped
  · intro hs
    exact ⟨hkeeps.stdout.trans (h.unstarted hs).1,hkeeps.cursor.trans (h.unstarted hs).2⟩
  · intro s hs
    have hprinted := h.printed s hs
    dsimp only
    rw [hkeeps.stdout,hkeeps.cursor]
    exact hprinted
  · intro c hc
    have hsome : conn ≠ none := by
      rintro rfl
      cases hc
    have hgood := (h.conn c (hconn c hc)).keeps hkeeps (hrunning hsome)
    exact ⟨hgood.running,hgood.fresh,hgood.sinceLe,hgood.base,hgood.answer,hgood.reading⟩

theorem Good.settle (h : w.Good) {client : RemoteClient} (hkeeps : w.client.Keeps client)
    {conn : Option Conn} (hconn : ∀ c, conn = some c → w.conn = some c) :
    (w.settle client conn).Good := by
  unfold RemoteWorld.settle
  apply h.keeps hkeeps
  · intro c hc
    split_ifs at hc
    exact hconn c hc
  · intro hsome
    by_contra hstopped
    rw [if_neg hstopped] at hsome
    exact hsome rfl

/-- A new answer of the bridge to a connection that has read nothing. -/
theorem Good.answer (h : w.Good) (run : RemoteRun) {c : Conn} (hc : w.conn = some c)
    (hclosed : c.frames run.tty w.worker = [] ∨ c.answer = .ready) {answer : BridgeAnswer}
    (hbase : ∀ a s, Conn.base ⟨c.since,answer,c.read⟩ = some a → w.start = some s →
      a = c.since.getD s)
    (hanswer : answer.Sound w.worker) :
    Good { w with conn := some ⟨c.since,answer,c.read⟩ } := by
  have hgood := h.conn c hc
  refine ⟨h.sound,h.visual,h.established,h.streaming,h.unstarted,h.printed,?_⟩
  intro c' hc'
  obtain rfl := Option.some.inj hc'
  refine ⟨hgood.running,hgood.fresh,hgood.sinceLe,hbase,hanswer,?_⟩
  intro hp
  obtain ⟨hpos,hle,hfollows⟩ := hgood.reading hp
  have hnil : c.body w.worker = [] := by
    rcases hclosed with hclosed | hready
    · unfold Conn.frames at hclosed
      unfold Conn.body
      cases ha : c.answer <;> simp_all
    · simp [Conn.body,hready]
  have hread : c.read = 1 := by
    rw [hnil] at hle
    simp at hle
    omega
  refine ⟨hpos,by simp [hread],?_⟩
  intro s hs
  have hbegins := hfollows s hs
  rw [hnil] at hbegins
  simpa [hread] using hbegins

/-- A step of the worker, under whatever connection there is. -/
theorem Good.worker_step (h : w.Good) {e : AttachEvent} {worker : AttachWorld}
    (hstep : w.worker.step e = some worker) : Good { w with worker := worker } := by
  have hdisk := AttachWorld.step_disk h.sound hstep
  refine ⟨AttachWorld.sound_step _ _ _ hstep h.sound,h.visual,h.established,h.streaming,
    h.unstarted,?_,?_⟩
  · intro s hs
    obtain ⟨hle,hholds,hend⟩ := h.printed s hs
    dsimp only
    rw [hdisk]
    refine ⟨?_,hholds.append _,hend⟩
    rw [List.length_append]
    omega
  · intro c hc
    exact (h.conn c hc).worker_step h.sound hstep

/-- The worker accepts a connection: its answer begins at the offset asked for, or at the
backlog's start. -/
theorem Good.workerAccepts (run : RemoteRun) (h : w.Good) (hcond : w.AnswersFromStart .workerAccepts)
    {since : Option ℕ} {read : ℕ} (hconn : w.conn = some ⟨since,.ready,read⟩)
    {worker : AttachWorld} (hworker : w.worker.step (.attach REMOTE_PROTOCOL since) = some worker) :
    Good { w with
      worker := worker
      conn := some ⟨since,.worker w.worker.handlers.length
        (since.getD w.worker.hub.backlogStart),read⟩ } := by
  have hgood := h.worker_step hworker
  have hnext := h.sound.truthful.nextOffset
  have hbegin := h.sound.truthful.backlogEnd
  obtain rfl := Option.some.inj hworker
  have hstreams := AttachHandler.streams_attach h.sound
    (show 1 ≤ REMOTE_PROTOCOL by decide) since
  refine hgood.answer run (c := ⟨since,.ready,read⟩) hconn (.inr rfl) ?_ ?_
  · intro a s ha hs
    obtain rfl := Option.some.inj ha
    cases since with
    | none => exact hcond _ hconn s hs rfl
    | some o => rfl
  · refine ⟨?_,_,by simp,hstreams⟩
    have hconnGood := h.conn _ hconn
    cases since with
    | none =>
      rw [Option.getD_none]
      dsimp only
      omega
    | some o =>
      rw [Option.getD_some]
      exact hconnGood.sinceLe o rfl

/-- The bridge of a finished session answers from the log. -/
theorem Good.bridgeFinished (run : RemoteRun) (h : w.Good) {readable : Bool}
    (hcond : w.AnswersFromStart (.bridgeFinished readable)) {since : Option ℕ} {read : ℕ}
    (hconn : w.conn = some ⟨since,.silent,read⟩) (status : Status) :
    Good { w with
      conn := some ⟨since,.finished (finishedFrames (finishedBytes w.worker readable) status since)
        (since.getD (finishedStart (finishedBytes w.worker readable))),read⟩ } := by
  have hbytes : finishedBytes w.worker readable = w.worker.disk.log ∨
      finishedBytes w.worker readable = [] := by
    unfold finishedBytes
    split_ifs
    · exact .inl rfl
    · exact .inr rfl
  obtain ⟨hrun,hraw⟩ := finishedFrames_run h.sound.fits _ hbytes status since
  have hstart : finishedStart (finishedBytes w.worker readable) ≤ w.worker.disk.log.length := by
    unfold finishedStart
    rcases hbytes with he | he
    · rw [he]
      exact Nat.sub_le _ _
    · rw [he]
      exact (Nat.sub_le _ _).trans (Nat.zero_le _)
  refine h.answer run (c := ⟨since,.silent,read⟩) hconn (.inl rfl) ?_
    ⟨?_,hrun,hraw⟩
  · intro a s ha hs
    obtain rfl := Option.some.inj ha
    cases since with
    | none =>
      simp only [AnswersFromStart] at hcond
      rw [Option.getD_none,Option.getD_none]
      exact hcond ⟨none,.silent,read⟩ hconn s hs rfl
    | some o => rw [Option.getD_some,Option.getD_some]
  · cases since with
    | none =>
      rw [Option.getD_none]
      exact hstart
    | some o =>
      rw [Option.getD_some]
      exact (h.conn _ hconn).sinceLe o rfl

lemma frames_zero {tty : Bool} {c : Conn} {worker : AttachWorld} {f : Frame}
    (hf : (c.frames tty worker)[0]? = some f) :
    f = ⟨S_READY,[if tty then 1 else 0]⟩ ∨ ∃ error, f = errorFrame error := by
  unfold Conn.frames at hf
  cases hc : c.answer with
  | silent => simp [hc] at hf
  | refused error =>
    simp only [hc,List.getElem?_cons_zero,Option.some.injEq] at hf
    exact .inr ⟨error,hf.symm⟩
  | _ =>
    simp only [hc,List.getElem?_cons_zero,Option.some.injEq] at hf
    exact .inl hf.symm

/-- Where a connection has sent more than its ready frame, its answer has begun. -/
lemma frames_succ {tty : Bool} {c : Conn} {worker : AttachWorld} {f : Frame} {n : ℕ}
    (hn : 0 < n) (hf : (c.frames tty worker)[n]? = some f) :
    (c.body worker)[n-1]? = some f ∧ ∃ a, c.base = some a := by
  obtain ⟨m,rfl⟩ := Nat.exists_eq_add_of_lt hn
  unfold Conn.frames at hf
  unfold Conn.base
  unfold Conn.body at hf ⊢
  cases hc : c.answer <;> simp_all

lemma handshake_error_running (cfg : RemoteConfig) {r : RemoteClient}
    (error : String) : (r.handshakeFrame cfg (errorFrame error)).running = false := by
  have hready : ¬(errorFrame error).tag = S_READY := by simp [errorFrame,S_ERROR,S_READY]
  have herror : (errorFrame error).tag = S_ERROR := rfl
  simp only [RemoteClient.handshakeFrame,if_neg hready,if_pos herror,RemoteClient.handshakeError,
    RemoteClient.handshakeLoss_running]

/-- The first frame says that the session is ready: the answer begins at the fixed start, or
fixes it, and at the client's cursor. -/
theorem Good.ready (h : w.Good) {c : Conn} (hconn : w.conn = some c)
    (hp : w.client.phase = .handshake) {client : RemoteClient}
    (hstdout : client.stdout = w.client.stdout) (hcursor : client.cursor = w.client.cursor)
    (hvisual : client.visualReconnect = false) (hestablished : client.establishedOnce = true)
    (hphase : client.phase = .streaming ∨ client.running = false) :
    Good { w.settle client (some { c with read := c.read+1 }) with
      start := w.startAfter c client } := by
  have hgood := h.conn c hconn
  obtain ⟨hread,hsince⟩ := hgood.fresh hp
  have hsome : (w.startAfter c client).isSome = true := startAfter_isSome hestablished
  refine ⟨h.sound,hvisual,hsome.trans hestablished.symm,fun _ => hsome,?_,?_,?_⟩
  · intro hnone
    dsimp only at hnone
    rw [hnone] at hsome
    cases hsome
  · intro s hs
    dsimp only [RemoteWorld.settle]
    rw [hstdout,hcursor]
    obtain ⟨hnone,rfl⟩ | hs := startAfter_eq hs
    · obtain ⟨hnil,hcnone⟩ := h.unstarted hnone
      rw [hnil,hcnone]
      refine ⟨?_,List.nil_prefix,rfl⟩
      cases hbase : c.base with
      | none =>
        have hnext := h.sound.truthful.nextOffset
        have hend := h.sound.truthful.backlogEnd
        rw [Option.getD_none]
        omega
      | some a => exact (hgood.body_run hbase).1
    · exact h.printed s hs
  · intro c' hc'
    dsimp only [RemoteWorld.settle] at hc'
    split_ifs at hc' with hrunning
    obtain rfl := Option.some.inj hc'
    have hstreaming : client.phase = .streaming := by
      rcases hphase with hp | hstopped
      · exact hp
      · rw [hstopped] at hrunning
        cases hrunning
    have hbase : ∀ a s, c.base = some a → w.startAfter c client = some s →
        a = c.since.getD s := by
      intro a s ha hs
      obtain ⟨hnone,rfl⟩ | hs := startAfter_eq hs
      · rw [hsince,(h.unstarted hnone).2,Option.getD_none,ha,Option.getD_some]
      · exact hgood.base a s ha hs
    refine ⟨hrunning,?_,hgood.sinceLe,hbase,hgood.answer,?_⟩
    · intro hp
      dsimp only [RemoteWorld.settle] at hp
      rw [hstreaming] at hp
      cases hp
    · intro _
      rw [hread]
      refine ⟨Nat.one_pos,Nat.zero_le _,?_⟩
      intro s _
      dsimp only [RemoteWorld.settle]
      rw [hcursor,hsince]
      exact rfl

/-- A frame during the handshake: readiness fixes the start, an error ends the connection. -/
theorem Good.handshake_frame (h : w.Good) {c : Conn} {f : Frame} (hconn : w.conn = some c)
    (hp : w.client.phase = .handshake) (hf : (c.frames run.tty w.worker)[c.read]? = some f) :
    Good { w.settle (w.client.handshakeFrame run.cfg f) (some { c with read := c.read+1 }) with
      start := w.startAfter c (w.client.handshakeFrame run.cfg f) } := by
  rw [((h.conn c hconn).fresh hp).1] at hf
  rcases RemoteClient.handshakeFrame_cases run.cfg w.client f with ⟨hnot,hkeeps⟩ | hready
  · obtain hf | ⟨error,rfl⟩ := frames_zero hf
    · exact absurd (by rw [hf]) hnot
    · have hstopped := handshake_error_running run.cfg (r := w.client) error
      have hestablished := h.established.trans hkeeps.established.symm
      rw [startAfter_of_established hestablished,RemoteWorld.settle,hstopped]
      exact h.keeps hkeeps (by simp) (by simp)
  · obtain ⟨htag,hstdout,hcursor,hvisual,hestablished,hphase⟩ := hready
    obtain rfl | ⟨error,rfl⟩ := frames_zero hf
    · refine h.ready hconn hp hstdout hcursor ?_ hestablished hphase
      rw [hvisual]
      cases hterminal : run.cfg.localStdoutIsTerminal with
      | false => rfl
      | true =>
        rw [run.nonVisual hterminal]
        rfl
    · exact absurd htag (by simp [errorFrame,S_ERROR,S_READY])

/-- The frame that is read next, in the body. -/
lemma body_split {worker : AttachWorld} {c : Conn} {f : Frame} (hpos : 0 < c.read)
    (hget : (c.body worker)[c.read-1]? = some f) :
    (c.body worker).take c.read = (c.body worker).take (c.read-1) ++ [f] ∧
      c.body worker = (c.body worker).take (c.read-1) ++ f::(c.body worker).drop c.read := by
  obtain ⟨hlt,hget⟩ := List.getElem?_eq_some_iff.mp hget
  have hread : c.read = c.read-1+1 := by omega
  have htake : (c.body worker).take c.read = (c.body worker).take (c.read-1) ++ [f] := by
    rw [hread,Nat.add_sub_cancel,List.take_add_one,List.getElem?_eq_getElem hlt,hget]
    rfl
  refine ⟨htake,?_⟩
  conv_lhs => rw [← List.take_append_drop c.read (c.body worker),htake]
  simp

/-- A frame without output, while streaming. -/
theorem Good.other_frame (h : w.Good) {c : Conn} {f : Frame} (hconn : w.conn = some c)
    (hp : w.client.phase = .streaming) (hget : (c.body w.worker)[c.read-1]? = some f)
    (hraw : f.tag ≠ S_OUTPUT) (hpiece : f.piece = none) :
    Good (w.settle (w.client.streamFrame run.cfg f) (some { c with read := c.read+1 })) := by
  have hgood := h.conn c hconn
  obtain ⟨hpos,hle,hreading⟩ := hgood.reading hp
  obtain ⟨s,hs⟩ := Option.isSome_iff_exists.mp (h.streaming hp)
  obtain ⟨htake,-⟩ := body_split hpos hget
  have hlt := (List.getElem?_eq_some_iff.mp hget).1
  have hkeeps := RemoteClient.keeps_streamFrame (r := w.client) run.cfg hpiece hraw
  generalize w.client.streamFrame run.cfg f = client at hkeeps ⊢
  have hkept : Good { w with client := client, conn := none } :=
    h.keeps hkeeps (by simp) (by simp)
  refine ⟨hkept.sound,hkept.visual,hkept.established,hkept.streaming,hkept.unstarted,
    hkept.printed,?_⟩
  intro c' hc'
  dsimp only [RemoteWorld.settle] at hc'
  split_ifs at hc' with hrunning
  obtain rfl := Option.some.inj hc'
  have hstreaming : client.phase = .streaming := by
    rcases hkeeps.phase with hphase | hstopped
    · exact hphase.trans hp
    · rw [hstopped] at hrunning
      cases hrunning
  have hgood' := hgood.advance hs hlt hstreaming (by
    rw [htake,offsetPieces_snoc_of_none hpiece,hkeeps.cursor]
    exact hreading s hs)
  exact ⟨hgood'.running,hgood'.fresh,hgood'.sinceLe,hgood'.base,hgood'.answer,hgood'.reading⟩

/-- A frame of output, while streaming: it continues what has been printed. -/
theorem Good.output_frame (h : w.Good) {c : Conn} {f : Frame} (hconn : w.conn = some c)
    (hp : w.client.phase = .streaming) (hget : (c.body w.worker)[c.read-1]? = some f) {a : ℕ}
    (ha : c.base = some a) {o : ℕ} {d : List UInt8} (hpiece : f.piece = some (o,d)) :
    Good (w.settle (w.client.streamFrame run.cfg f) (some { c with read := c.read+1 })) := by
  have hgood := h.conn c hconn
  obtain ⟨hpos,hle,hreading⟩ := hgood.reading hp
  obtain ⟨s,hs⟩ := Option.isSome_iff_exists.mp (h.streaming hp)
  obtain ⟨-,⟨stop,hrun⟩,-⟩ := hgood.body_run ha
  obtain ⟨htake,hsplit⟩ := body_split hpos hget
  have hlt := (List.getElem?_eq_some_iff.mp hget).1
  obtain ⟨hsle,hholds,hend⟩ := h.printed s hs
  have hbefore := hreading s hs
  -- the frame stands in the body's run where the client's cursor is
  rw [hgood.base a s ha hs,hsplit,offsetPieces_append] at hrun
  obtain ⟨mid,hfirst,hrest⟩ := hrun.split
  obtain rfl : w.client.cursor.getD s = mid := hbefore.stop_unique hfirst
  have hcons : offsetPieces (f::(c.body w.worker).drop c.read) =
      (o,d)::offsetPieces ((c.body w.worker).drop c.read) := by
    simp [offsetPieces,hpiece]
  rw [hcons] at hrest
  obtain ⟨ho,hdata,-⟩ := hrest
  dsimp only at ho hdata
  subst ho
  have hcursor : w.client.cursor.getD (w.client.cursor.getD s) = w.client.cursor.getD s := by
    cases w.client.cursor <;> rfl
  have hlen := hholds.le_length hsle
  rw [hend] at hlen
  have hdlen := hdata.le_length hlen
  have hfits : w.client.cursor.getD s + d.length ≤ U64_MAX := by
    have := h.sound.fits
    have := MAX_FILE_LEN_lt
    omega
  rw [RemoteClient.offsetFrame_at_cursor run.cfg hpiece hcursor hfits]
  refine ⟨h.sound,h.visual,h.established,h.streaming,?_,?_,?_⟩
  · intro hnone
    dsimp only [RemoteWorld.settle] at hnone
    rw [hs] at hnone
    cases hnone
  · intro s' hs'
    obtain rfl : s = s' := Option.some.inj (hs.symm.trans hs')
    dsimp only [RemoteWorld.settle]
    refine ⟨hsle,hholds.concat (by rwa [hend]),?_⟩
    rw [List.length_append,Option.getD_some]
    omega
  · intro c' hc'
    dsimp only [RemoteWorld.settle] at hc'
    split_ifs at hc'
    obtain rfl := Option.some.inj hc'
    have hfollows : Follows w.worker.disk.log (c.since.getD s)
        (offsetPieces ((c.body w.worker).take c.read)) (w.client.cursor.getD s + d.length) := by
      rw [htake,offsetPieces_snoc hpiece]
      exact hbefore.snoc hdata
    have hgood' : Conn.Good { w with
        client := { w.client with
          stdout := w.client.stdout ++ d, cursor := some (w.client.cursor.getD s + d.length) }
        conn := some { c with read := c.read+1 } } { c with read := c.read+1 } :=
      hgood.advance hs hlt hp hfollows
    exact ⟨hgood'.running,hgood'.fresh,hgood'.sinceLe,hgood'.base,hgood'.answer,hgood'.reading⟩

/-- A frame while streaming. -/
theorem Good.stream_frame (h : w.Good) {c : Conn} {f : Frame} (hconn : w.conn = some c)
    (hp : w.client.phase = .streaming) (hf : (c.frames run.tty w.worker)[c.read]? = some f) :
    Good (w.settle (w.client.streamFrame run.cfg f) (some { c with read := c.read+1 })) := by
  have hgood := h.conn c hconn
  obtain ⟨hget,a,ha⟩ := frames_succ (hgood.reading hp).1 hf
  obtain ⟨-,-,hraw⟩ := hgood.body_run ha
  cases hpiece : f.piece with
  | none => exact h.other_frame hconn hp hget (hraw f (List.mem_of_getElem? hget)) hpiece
  | some piece => exact h.output_frame hconn hp hget ha hpiece

/-- Outside its two loops the client has no connection. -/
lemma Good.no_conn (h : w.Good) (hstopped : w.client.running = false) : w.conn = none := by
  cases hc : w.conn with
  | none => rfl
  | some c =>
    have := (h.conn c hc).running
    rw [hstopped] at this
    cases this

theorem Good.connect (h : w.Good) (hp : w.client.phase = .handshake) :
    Good { w with conn := some ⟨w.client.cursor,.silent,0⟩ } := by
  refine ⟨h.sound,h.visual,h.established,h.streaming,h.unstarted,h.printed,?_⟩
  intro c hc
  obtain rfl := Option.some.inj hc
  refine ⟨by simp [RemoteClient.running,hp],fun _ => ⟨rfl,rfl⟩,?_,by simp [Conn.base],trivial,?_⟩
  · intro o ho
    dsimp only at ho
    cases hs : w.start with
    | none =>
      rw [(h.unstarted hs).2] at ho
      cases ho
    | some s =>
      obtain ⟨hle,hholds,hend⟩ := h.printed s hs
      have := hholds.le_length hle
      rw [ho,Option.getD_some] at hend
      dsimp only
      omega
  · intro hstreaming
    dsimp only at hstreaming
    rw [hp] at hstreaming
    cases hstreaming

/-- The next attempt asks from the cursor, which only a visual client drops. -/
theorem Good.retry (h : w.Good) {timer : Bool} {client : RemoteClient}
    (hclient : w.client.retry timer = some client) : Good { w with client := client } := by
  obtain ⟨reason,hp,-,rfl⟩ := RemoteClient.retry_cases hclient
  have hnone := h.no_conn (by simp [RemoteClient.running,hp])
  simp only [h.visual,Bool.false_eq_true,if_false]
  refine ⟨h.sound,rfl,h.established,?_,h.unstarted,h.printed,?_⟩
  · intro hstreaming
    cases hstreaming
  · intro c hc
    dsimp only at hc
    rw [hnone] at hc
    cases hc

/-- Input while the client waits for its next attempt, without a connection. -/
theorem Good.waitInput (h : w.Good) {client : RemoteClient}
    (hclient : w.client.waitInput = some client) : Good { w with client := client } := by
  obtain ⟨reason,bytes,rest,hp,-,rfl⟩ := RemoteClient.waitInput_cases hclient
  have hnone := h.no_conn (by simp [RemoteClient.running,hp])
  refine h.keeps ?_ (fun c hc => hc) (fun hne => absurd hnone hne)
  split_ifs
  · exact ⟨rfl,rfl,rfl,rfl,.inr rfl⟩
  · exact ⟨rfl,rfl,rfl,rfl,.inl rfl⟩

theorem Good.typed (h : w.Good) (chunk : Option (List UInt8)) :
    Good { w with client := w.client.typed chunk } := by
  refine h.keeps (RemoteClient.keeps_typed _ _) (fun c hc => hc) ?_
  intro hne
  obtain ⟨c,hc⟩ := Option.ne_none_iff_exists'.mp hne
  obtain ⟨stdin,isOpen,htyped,-⟩ := w.client.typed_cases chunk
  rw [htyped]
  exact (h.conn c hc).running

theorem Good.frame (h : w.Good) {c : Conn} {f : Frame} (hconn : w.conn = some c)
    (hrunning : w.client.running = true) (hf : (c.frames run.tty w.worker)[c.read]? = some f) :
    Good { w.settle (w.client.frame run.cfg f) (some { c with read := c.read+1 }) with
      start := w.startAfter c (w.client.frame run.cfg f) } := by
  cases hp : w.client.phase with
  | handshake =>
    have hframe : w.client.frame run.cfg f = w.client.handshakeFrame run.cfg f := by
      simp only [RemoteClient.frame,hp]
    rw [hframe]
    exact h.handshake_frame hconn hp hf
  | streaming =>
    have hframe : w.client.frame run.cfg f = w.client.streamFrame run.cfg f := by
      simp only [RemoteClient.frame,hp]
    have hne : ¬(w.start = none ∧ (w.client.streamFrame run.cfg f).establishedOnce = true) := by
      rintro ⟨hnone,-⟩
      have := h.streaming hp
      rw [hnone] at this
      cases this
    rw [hframe,startAfter,if_neg hne]
    exact h.stream_frame hconn hp hf
  | lost reason => simp [RemoteClient.running,hp] at hrunning
  | returned result => simp [RemoteClient.running,hp] at hrunning

theorem good_step (w : RemoteWorld) (e : NetEvent) (w' : RemoteWorld)
    (hstep : w.step run e = some w') (hcond : w.AnswersFromStart e) (h : w.Good) : w'.Good := by
  cases step_move hstep with
  | worker hworker => exact h.worker_step hworker
  | logFailure => exact absurd hcond id
  | configureLog =>
    simp only [HubInner.configureLog,h.sound.log,true_or,if_true]
    exact h
  | finish =>
    exact ⟨h.sound,h.visual,h.established,h.streaming,h.unstarted,h.printed,fun c hc =>
      have hgood := h.conn c hc
      ⟨hgood.running,hgood.fresh,hgood.sinceLe,hgood.base,hgood.answer,hgood.reading⟩⟩
  | connect hp => exact h.connect hp
  | spawnFailed hconn =>
    exact h.keeps (RemoteClient.keeps_fail _ _) (fun c hc => hc) (fun hne => absurd hconn hne)
  | bridgeRefuses hconn =>
    exact h.answer run (c := ⟨_,.silent,_⟩) hconn (.inl rfl) (by simp [Conn.base]) trivial
  | bridgeReady hconn =>
    exact h.answer run (c := ⟨_,.silent,_⟩) hconn (.inl rfl) (by simp [Conn.base]) trivial
  | workerAccepts hconn hworker => exact h.workerAccepts run hcond hconn hworker
  | bridgeFinished status hconn => exact h.bridgeFinished run hcond hconn status
  | frame hconn hrunning hf => exact h.frame hconn hrunning hf
  | ended => exact h.settle (RemoteClient.keeps_ended _ _ _) (by simp)
  | branch hclient => exact h.settle (RemoteClient.keeps_branch hclient) (fun c hc => hc)
  | typed => exact h.typed _
  | waitInput hclient => exact h.waitInput hclient
  | retry hclient => exact h.retry hclient

/-- One byte is printed, the connection is lost, and the client resumes behind it. -/
def resumedRun : List NetEvent :=
  [.connect,.bridgeReady,.frame,.worker (.broadcast [65] 0 .ok),.workerAccepts,
    .worker (.handler 0 .output),.frame,.frame,.ended none,.retry true,.connect,.bridgeReady,
    .frame,.worker (.broadcast [66] 1 .ok),.workerAccepts,.worker (.handler 1 (.replayed 1)),
    .frame,.frame]

/-- The client after its first connection: nothing printed, no cursor. -/
def lostClient : RemoteClient := { RemoteClient.init with
  establishedOnce := true, phase := .lost "remote attach stream closed" }

end RemoteWorld
end Babysit
