import Babysit.AttachHandler
import Babysit.Lib.Transition

/-! The worker with any number of attach handlers, while every log write succeeds. What
one handler sends is a contiguous run of the log, whatever the others do. -/
namespace Babysit
open AppendLog

/-- A log a session starts from; no file is longer. -/
structure SessionLog where
  bytes : List UInt8
  fits : bytes.length ≤ MAX_FILE_LEN

structure AttachWorld where
  hub : HubInner
  disk : Disk
  handlers : List AttachHandler

/-- The receiver of a handler that has returned is dropped later. -/
inductive AttachEvent
  | broadcast (data : List UInt8) (now : ℕ) (timestamps : WriteResult)
  | attach (protocol : UInt8) (since : Option ℕ)
  | handler (i : ℕ) (e : HandlerEvent)
  | dropClient (k : ℕ)
  | dropResumeClient (k : ℕ)

def AttachOutputReceiver.isLegacy (k : ℕ) : AttachOutputReceiver → Bool
  | .legacy rx => rx.channel = k
  | .offset _ => false

def AttachOutputReceiver.isOffset (k : ℕ) : AttachOutputReceiver → Bool
  | .legacy _ => false
  | .offset rx => rx.channel = k

/-- A handler that still runs holds this receiver. -/
def AttachHandler.holds (h : AttachHandler) (p : AttachOutputReceiver → Bool) : Bool :=
  h.phase ≠ .closed ∧ h.output.any p

namespace AttachWorld

/-- A worker that has opened the log and has captured nothing yet. -/
def start (log : SessionLog) : AttachWorld :=
  let configured := HubInner.default.configureLog ⟨log.bytes,[]⟩ ⟨true,true⟩
  ⟨configured.1,configured.2,[]⟩

def step (w : AttachWorld) : AttachEvent → Option AttachWorld
  | .broadcast data now timestamps =>
    if w.disk.log.length + data.length ≤ MAX_FILE_LEN then
      let after := w.hub.broadcast w.disk data ⟨now,.ok,timestamps⟩
      some { w with hub := after.1, disk := after.2 }
    else none
  | .attach protocol since =>
    let attached := AttachHandler.attach w.hub protocol since
    some { w with hub := attached.2, handlers := w.handlers ++ [attached.1] }
  | .handler i e => do
    let h ← w.handlers[i]?
    let h' ← h.step w.hub w.disk.log e
    some { w with handlers := w.handlers.set i h' }
  | .dropClient k =>
    if w.handlers.any fun h => h.holds (·.isLegacy k) then none
    else some { w with hub := { w.hub with clients := w.hub.clients.modify k Channel.close } }
  | .dropResumeClient k =>
    if w.handlers.any fun h => h.holds (·.isOffset k) then none
    else some { w with hub := { w.hub with
      resumeClients := w.hub.resumeClients.modify k Channel.close } }

end AttachWorld

/-- The bytes an event broadcasts. -/
def AttachEvent.bytes : AttachEvent → List UInt8
  | .broadcast data _ _ => data
  | .attach _ _ | .handler _ _ | .dropClient _ | .dropResumeClient _ => []

def OutputChunk.piece (c : OutputChunk) : ℕ × List UInt8 := (c.offset,c.data)

namespace AttachWorld

/-- The log is open and described by the hub in every state. -/
structure Sound (w : AttachWorld) : Prop where
  log : w.hub.log = true
  logError : w.hub.logError = none
  truthful : w.hub.Truthful w.disk.log
  fits : w.disk.log.length ≤ MAX_FILE_LEN

end AttachWorld

namespace AttachHandler

/-- What the handler still has to send from its queue continues the log from `mid` to its
end. -/
def Feeds (g : HubInner) (log : List UInt8) (h : AttachHandler) (mid : ℕ) : Prop :=
  ∃ rx channel, h.output = some (.offset rx) ∧ g.resumeClients[rx.channel]? = some channel ∧
    channel.closed = false ∧ rx.received ≤ channel.sent.length ∧ Follows log mid
      ((h.pending ++ channel.sent.drop rx.received).map OutputChunk.piece) g.nextOffset

/-- The invariant of one resumable handler: what it has sent runs from `start` to some
offset, where the replay or the queue goes on. -/
structure Streams (g : HubInner) (log : List UInt8) (start : ℕ) (h : AttachHandler) : Prop where
  begins : offsetPieces h.sent = [] ∧ h.phase = .closed ∨ start ≤ log.length
  raw : ∀ f ∈ h.sent, f.tag ≠ S_OUTPUT
  goesOn : match h.phase with
    | .replaying offset stop => Follows log start (offsetPieces h.sent) offset ∧
        offset < stop ∧ h.Feeds g log stop
    | .streaming => ∃ mid, Follows log start (offsetPieces h.sent) mid ∧ h.Feeds g log mid
    | .closed => ∃ stop, Follows log start (offsetPieces h.sent) stop

/-- The invariant of one legacy handler: what it has printed and what is queued for it are
the expected bytes. -/
def Prints (g : HubInner) (expected : List UInt8) (h : AttachHandler) : Prop :=
  match h.phase with
  | .closed => outputBytes h.sent <+: expected
  | _ => ∃ rx channel, h.phase = .streaming ∧ h.pending = [] ∧ h.output = some (.legacy rx) ∧
      g.clients[rx.channel]? = some channel ∧ channel.closed = false ∧
      rx.received ≤ channel.sent.length ∧
      outputBytes h.sent ++ (channel.sent.drop rx.received).flatten = expected

end AttachHandler

namespace AttachWorld

/-- What a step can do, one constructor for each event. -/
inductive Move (w : AttachWorld) : AttachEvent → AttachWorld → Prop
  | broadcast {data now timestamps} : w.disk.log.length + data.length ≤ MAX_FILE_LEN →
      Move w (.broadcast data now timestamps) { w with
        hub := (w.hub.broadcast w.disk data ⟨now,.ok,timestamps⟩).1
        disk := (w.hub.broadcast w.disk data ⟨now,.ok,timestamps⟩).2 }
  | attach {protocol since} : Move w (.attach protocol since) { w with
      hub := (AttachHandler.attach w.hub protocol since).2
      handlers := w.handlers ++ [(AttachHandler.attach w.hub protocol since).1] }
  | handler {i e a a'} : w.handlers[i]? = some a → a.step w.hub w.disk.log e = some a' →
      Move w (.handler i e) { w with handlers := w.handlers.set i a' }
  | dropClient {k} : ¬(w.handlers.any fun h => h.holds (·.isLegacy k)) = true →
      Move w (.dropClient k) { w with
        hub := { w.hub with clients := w.hub.clients.modify k Channel.close } }
  | dropResumeClient {k} : ¬(w.handlers.any fun h => h.holds (·.isOffset k)) = true →
      Move w (.dropResumeClient k) { w with
        hub := { w.hub with resumeClients := w.hub.resumeClients.modify k Channel.close } }

theorem step_move {w w' : AttachWorld} {e : AttachEvent} (h : w.step e = some w') :
    w.Move e w' := by
  cases e with
  | broadcast data now timestamps =>
    simp only [step] at h
    split_ifs at h with hfit
    obtain rfl := Option.some.inj h
    exact .broadcast hfit
  | attach protocol since =>
    obtain rfl := Option.some.inj h
    exact .attach
  | handler i e =>
    simp only [step,Option.bind_eq_bind,Option.bind_eq_some_iff,Option.some.injEq] at h
    obtain ⟨a,ha,a',ha',rfl⟩ := h
    exact .handler ha ha'
  | dropClient k =>
    simp only [step] at h
    split_ifs at h with hnone
    obtain rfl := Option.some.inj h
    exact .dropClient hnone
  | dropResumeClient k =>
    simp only [step] at h
    split_ifs at h with hnone
    obtain rfl := Option.some.inj h
    exact .dropResumeClient hnone

/-- The log only grows, by what is broadcast. -/
theorem step_disk {w w' : AttachWorld} {e : AttachEvent} (hw : w.Sound)
    (h : w.step e = some w') : w'.disk.log = w.disk.log ++ e.bytes := by
  cases step_move h with
  | broadcast =>
    simp only [HubInner.broadcast_disk,hw.log,if_true,WriteResult.written,AttachEvent.bytes]
  | attach | handler | dropClient | dropResumeClient => exact (List.append_nil _).symm

theorem sound_step (w : AttachWorld) (e : AttachEvent) (w' : AttachWorld)
    (h : w.step e = some w') (hw : w.Sound) : w'.Sound := by
  obtain ⟨hlog,herror,htruth,hfits⟩ := hw
  cases step_move h with
  | broadcast hfit =>
    refine ⟨?_,?_,htruth.broadcast hlog rfl hfit,?_⟩
    · rw [HubInner.broadcast_log,hlog]
      rfl
    · rw [HubInner.broadcast_logError _ _ _ _ rfl,herror]
    · rw [HubInner.broadcast_disk,if_pos hlog,WriteResult.written,List.length_append]
      exact hfit
  | @attach protocol since =>
    obtain ⟨clients,resumeClients,hhub⟩ := AttachHandler.attach_fields w.hub protocol since
    rw [hhub]
    exact ⟨hlog,herror,⟨htruth.1,htruth.2,htruth.3⟩,hfits⟩
  | handler => exact ⟨hlog,herror,htruth,hfits⟩
  | dropClient | dropResumeClient => exact ⟨hlog,herror,⟨htruth.1,htruth.2,htruth.3⟩,hfits⟩

end AttachWorld

namespace AttachHandler
variable {w : AttachWorld} {h h' : AttachHandler} {start mid : ℕ}

/-- A broadcast extends the queue by the bytes it adds to the log. -/
theorem Feeds.broadcast (hw : w.Sound) {data : List UInt8} {io : BroadcastIo} (hio : io.log = .ok)
    (hfit : w.disk.log.length + data.length ≤ MAX_FILE_LEN)
    (hf : h.Feeds w.hub w.disk.log mid) :
    h.Feeds (w.hub.broadcast w.disk data io).1 (w.hub.broadcast w.disk data io).2.log mid := by
  obtain ⟨rx,channel,hout,hchannel,hopen,hle,hfollows⟩ := hf
  have hnext := hw.truthful.nextOffset
  have hmax := MAX_FILE_LEN_lt
  have hend : (w.hub.broadcast w.disk data io).1.nextOffset = w.hub.nextOffset + data.length := by
    rw [HubInner.broadcast_nextOffset]
    omega
  have hdisk : (w.hub.broadcast w.disk data io).2.log = w.disk.log ++ data := by
    rw [HubInner.broadcast_disk,if_pos hw.log,hio,WriteResult.written]
  refine ⟨rx,⟨channel.sent ++ [⟨w.hub.nextOffset,data⟩],false⟩,hout,?_,rfl,?_,?_⟩
  · rw [HubInner.broadcast_resumeClients,List.getElem?_map,hchannel,Option.map_some,
      Channel.send_open hopen]
  · rw [List.length_append]
    omega
  · rw [hend,hdisk,List.drop_append_of_le_length hle,← List.append_assoc,List.map_append]
    apply (hfollows.grow data).append
    rw [hnext]
    exact ⟨rfl,holdsAt_end _ _,rfl⟩

/-- New channels are added behind the handler's own. -/
theorem Feeds.append {g : HubInner} {log : List UInt8} (hf : h.Feeds g log mid)
    (clients : List (Channel (List UInt8))) (resumeClients : List (Channel OutputChunk)) :
    h.Feeds { g with
      clients := g.clients ++ clients, resumeClients := g.resumeClients ++ resumeClients }
      log mid := by
  obtain ⟨rx,channel,hout,hchannel,hopen,hle,hfollows⟩ := hf
  refine ⟨rx,channel,hout,?_,hopen,hle,hfollows⟩
  obtain ⟨hlt,-⟩ := List.getElem?_eq_some_iff.mp hchannel
  rw [List.getElem?_append_left hlt,hchannel]

theorem Feeds.attach (hf : h.Feeds w.hub w.disk.log mid) (protocol : UInt8) (since : Option ℕ) :
    h.Feeds (AttachHandler.attach w.hub protocol since).2 w.disk.log mid := by
  obtain ⟨clients,resumeClients,hhub⟩ := AttachHandler.attach_fields w.hub protocol since
  rw [hhub]
  exact hf.append clients resumeClients

/-- Closing another channel leaves the handler's own alone. -/
theorem Feeds.drop (hf : h.Feeds w.hub w.disk.log mid) {k : ℕ} (hk : ¬h.output.any (·.isOffset k)) :
    h.Feeds { w.hub with resumeClients := w.hub.resumeClients.modify k Channel.close }
      w.disk.log mid := by
  obtain ⟨rx,channel,hout,hchannel,hopen,hle,hfollows⟩ := hf
  refine ⟨rx,channel,hout,?_,hopen,hle,hfollows⟩
  have hne : k ≠ rx.channel := by
    rintro rfl
    simp [hout,AttachOutputReceiver.isOffset] at hk
  rw [List.getElem?_modify_ne _ _ hne,hchannel]

/-- A handler that does not move keeps its invariant when its queue is fed on. -/
theorem Streams.mono {g g' : HubInner} {log more : List UInt8} (hs : h.Streams g log start)
    (hfeeds : ∀ mid, h.phase ≠ .closed → h.Feeds g log mid → h.Feeds g' (log++more) mid) :
    h.Streams g' (log++more) start := by
  obtain ⟨hbegins,hraw,hgoesOn⟩ := hs
  refine ⟨?_,hraw,?_⟩
  · rcases hbegins with hnone | hle
    · exact .inl hnone
    · right
      rw [List.length_append]
      omega
  · cases hphase : h.phase with
    | replaying offset stop =>
      rw [hphase] at hgoesOn
      exact ⟨hgoesOn.1.grow more,hgoesOn.2.1,hfeeds _ (by simp [hphase]) hgoesOn.2.2⟩
    | streaming =>
      rw [hphase] at hgoesOn
      obtain ⟨mid,hrun,hfeed⟩ := hgoesOn
      exact ⟨mid,hrun.grow more,hfeeds _ (by simp [hphase]) hfeed⟩
    | closed =>
      rw [hphase] at hgoesOn
      obtain ⟨stop,hrun⟩ := hgoesOn
      exact ⟨stop,hrun.grow more⟩

/-- The log stays, and the handler's own channel. -/
theorem Streams.rehub {g g' : HubInner} {log : List UInt8} (hs : h.Streams g log start)
    (hfeeds : ∀ mid, h.phase ≠ .closed → h.Feeds g log mid → h.Feeds g' log mid) :
    h.Streams g' log start := by
  have hmono : h.Streams g' (log ++ []) start := hs.mono fun mid hphase hf => by
    rw [List.append_nil]
    exact hfeeds mid hphase hf
  rwa [List.append_nil] at hmono

theorem Streams.run {g : HubInner} {log : List UInt8} (hs : h.Streams g log start) :
    ∃ stop, Follows log start (offsetPieces h.sent) stop := by
  have hgoesOn := hs.goesOn
  cases hphase : h.phase with
  | replaying offset stop =>
    rw [hphase] at hgoesOn
    exact ⟨offset,hgoesOn.1⟩
  | streaming =>
    rw [hphase] at hgoesOn
    obtain ⟨mid,hrun,-⟩ := hgoesOn
    exact ⟨mid,hrun⟩
  | closed =>
    rw [hphase] at hgoesOn
    exact hgoesOn

theorem Streams.raw_snoc {g : HubInner} {log : List UInt8} (hs : h.Streams g log start)
    {f : Frame} (hf : f.tag ≠ S_OUTPUT) : ∀ f' ∈ h.sent ++ [f], f'.tag ≠ S_OUTPUT := by
  intro f' hf'
  rcases List.mem_append.mp hf' with hold | hnew
  · exact hs.raw f' hold
  · obtain rfl := List.mem_singleton.mp hnew
    exact hf

/-- A frame without output ends the handler where its run stands. -/
theorem Streams.finish {g : HubInner} {log : List UInt8} (hs : h.Streams g log start)
    {f : Frame} (hf : f.tag ≠ S_OUTPUT_OFFSET) (hf' : f.tag ≠ S_OUTPUT) :
    (h.finish f).Streams g log start := by
  have hpieces : offsetPieces (h.finish f).sent = offsetPieces h.sent :=
    offsetPieces_snoc_of_none (piece_of_ne hf)
  refine ⟨?_,hs.raw_snoc hf',?_⟩
  · rw [hpieces]
    exact hs.begins.imp_left fun hnone => ⟨hnone.1,rfl⟩
  · dsimp only [AttachHandler.finish]
    obtain ⟨stop,hrun⟩ := hs.run
    exact ⟨stop,hpieces ▸ hrun⟩

theorem Streams.replayed (hw : w.Sound) (hs : h.Streams w.hub w.disk.log start) {n : ℕ}
    (hstep : h.replayed w.disk.log n = some h') : h'.Streams w.hub w.disk.log start := by
  have hraw := fun offset data => hs.raw_snoc (offsetFrame_tag offset data)
  obtain ⟨hbegins,-,hgoesOn⟩ := hs
  simp only [AttachHandler.replayed] at hstep
  cases hphase : h.phase with
  | replaying offset stop =>
    simp only [hphase] at hstep hgoesOn
    obtain ⟨hrun,hlt,hfeed⟩ := hgoesOn
    by_cases hread : 0 < n ∧ n ≤ min (stop-offset) REPLAY_BUFFER ∧ offset+n ≤ w.disk.log.length
    · rw [if_pos hread] at hstep
      cases hstep
      have hbegin : start ≤ w.disk.log.length := by
        rcases hbegins with ⟨-,hclosed⟩ | hle
        · rw [hphase] at hclosed
          cases hclosed
        · exact hle
      have hfits : offset ≤ U64_MAX := by
        have := hw.fits
        have := MAX_FILE_LEN_lt
        omega
      have hpieces : offsetPieces (h.send (offsetFrame offset
          (slice w.disk.log offset (offset+n)))).sent = offsetPieces h.sent ++
            [(offset,slice w.disk.log offset (offset+n))] :=
        offsetPieces_snoc (piece_offsetFrame hfits _)
      have hrun' := hrun.snoc (holdsAt_slice w.disk.log offset (offset+n))
      rw [slice_length hread.2.2,Nat.add_sub_cancel_left] at hrun'
      refine ⟨.inr hbegin,hraw _ _,?_⟩
      by_cases hmore : offset+n < stop
      · simp only [hmore,if_true]
        exact ⟨hpieces ▸ hrun',trivial,hfeed⟩
      · have hstop : offset+n = stop := by omega
        simp only [hmore,if_false]
        exact ⟨stop,hpieces ▸ hstop ▸ hrun',hfeed⟩
    · rw [if_neg hread] at hstep
      cases hstep
  | streaming =>
    simp only [hphase] at hstep
    cases hstep
  | closed =>
    simp only [hphase] at hstep
    cases hstep

/-- The frame of the chunk at the head of the queue continues the run. -/
theorem Streams.forward (hw : w.Sound) (hs : h.Streams w.hub w.disk.log start)
    (hstep : h.forward w.hub = some h') : h'.Streams w.hub w.disk.log start := by
  have hraw := fun offset data => hs.raw_snoc (offsetFrame_tag offset data)
  obtain ⟨hbegins,-,hgoesOn⟩ := hs
  cases hphase : h.phase with
  | replaying offset stop =>
    simp only [AttachHandler.forward,hphase] at hstep
    cases hstep
  | closed =>
    simp only [AttachHandler.forward,hphase] at hstep
    cases hstep
  | streaming =>
    simp only [hphase] at hgoesOn
    obtain ⟨mid,hrun,rx,channel,hout,hchannel,hopen,hle,hfollows⟩ := hgoesOn
    have hbegin : start ≤ w.disk.log.length := by
      rcases hbegins with ⟨-,hclosed⟩ | hle
      · rw [hphase] at hclosed
        cases hclosed
      · exact hle
    have hmid : mid ≤ U64_MAX := by
      have := (hrun.bounds hbegin).2
      have := hw.fits
      have := MAX_FILE_LEN_lt
      omega
    have hsnoc : ∀ chunk : OutputChunk, chunk.offset = mid → HoldsAt w.disk.log mid chunk.data →
        Follows w.disk.log start
          (offsetPieces (h.send (offsetFrame chunk.offset chunk.data)).sent)
          (mid+chunk.data.length) := by
      intro chunk hoffset hdata
      rw [AttachHandler.send,hoffset,offsetPieces_snoc (piece_offsetFrame hmid _)]
      exact hrun.snoc hdata
    cases hpending : h.pending with
    | cons chunk pending =>
      simp only [AttachHandler.forward,hphase,hpending] at hstep
      cases hstep
      rw [hpending] at hfollows
      obtain ⟨hoffset,hdata,hrest⟩ := hfollows
      refine ⟨.inr hbegin,hraw _ _,?_⟩
      simp only [AttachHandler.send,hphase]
      exact ⟨mid+chunk.data.length,hsnoc chunk hoffset hdata,rx,channel,hout,hchannel,hopen,hle,
        hrest⟩
    | nil =>
      simp only [AttachHandler.forward,hphase,hpending,hout,hchannel,Option.bind_eq_bind,
        Option.bind_some,Option.bind_eq_some_iff,Option.some.injEq] at hstep
      obtain ⟨chunk,hchunk,rfl⟩ := hstep
      obtain ⟨hlt,hget⟩ := List.getElem?_eq_some_iff.mp hchunk
      rw [hpending,List.nil_append,List.drop_eq_getElem_cons hlt,hget] at hfollows
      obtain ⟨hoffset,hdata,hrest⟩ := hfollows
      refine ⟨.inr hbegin,hraw _ _,?_⟩
      simp only [AttachHandler.send,hphase]
      refine ⟨mid+chunk.data.length,hsnoc chunk hoffset hdata,⟨rx.channel,rx.received+1⟩,channel,
        rfl,hchannel,hopen,hlt,?_⟩
      rw [hpending]
      exact hrest

/-- The handler's own steps keep its invariant. -/
theorem Streams.step (hw : w.Sound) (hs : h.Streams w.hub w.disk.log start) {e : HandlerEvent}
    (hstep : h.step w.hub w.disk.log e = some h') : h'.Streams w.hub w.disk.log start := by
  cases e with
  | replayed n => exact hs.replayed hw hstep
  | replayFailed error =>
    simp only [AttachHandler.step] at hstep
    split at hstep
    · cases hstep
      exact hs.finish (by simp [errorFrame,S_ERROR,S_OUTPUT_OFFSET]) (by simp [errorFrame,S_ERROR,S_OUTPUT])
    · cases hstep
  | output => exact hs.forward hw hstep
  | exited info =>
    simp only [AttachHandler.step] at hstep
    split_ifs at hstep
    cases hstep
    exact hs.finish (by simp [S_EXIT,S_OUTPUT_OFFSET]) (by simp [S_EXIT,S_OUTPUT])
  | detached =>
    simp only [AttachHandler.step] at hstep
    split_ifs at hstep
    cases hstep
    exact hs.finish (by simp [S_DETACHED,S_OUTPUT_OFFSET]) (by simp [S_DETACHED,S_OUTPUT])
  | gone =>
    cases hstep
    obtain ⟨stop,hrun⟩ := hs.run
    exact ⟨hs.begins.imp_left fun hnone => ⟨hnone.1,rfl⟩,hs.raw,stop,hrun⟩

/-- A new resumable handler continues from where it asked, or from the backlog's start. -/
theorem streams_attach (hw : w.Sound) {protocol : UInt8} (hp : 1 ≤ protocol)
    (since : Option ℕ) :
    (AttachHandler.attach w.hub protocol since).1.Streams
      (AttachHandler.attach w.hub protocol since).2 w.disk.log
      (since.getD w.hub.backlogStart) := by
  have hnext := hw.truthful.nextOffset
  have hbegin := hw.truthful.backlogEnd
  have hlookup : (w.hub.resumeClients ++ [Channel.empty])[w.hub.resumeClients.length]? =
      some Channel.empty := by simp
  simp only [AttachHandler.attach,if_pos hp,HubInner.subscribeResumable,hw.logError]
  cases since with
  | none =>
    simp only [Option.any_none,Bool.false_eq_true,if_false,true_and]
    refine ⟨.inr (by rw [Option.getD_none]; omega),by simp [S_READY,S_OUTPUT],?_⟩
    refine ⟨w.hub.backlogStart,rfl,⟨w.hub.resumeClients.length,0⟩,.empty,rfl,hlookup,rfl,
      Nat.zero_le _,?_⟩
    by_cases hempty : w.hub.backlog = []
    · have hlen : w.hub.backlog.length = 0 := by rw [hempty]; rfl
      simp only [ne_eq,hempty,not_true_eq_false,if_false,Channel.empty]
      exact show w.hub.backlogStart = w.hub.nextOffset by omega
    · have hholds := holdsAt_slice w.disk.log w.hub.backlogStart w.hub.nextOffset
      rw [← hw.truthful.backlog] at hholds
      simp only [ne_eq,hempty,not_false_eq_true,if_true,Channel.empty]
      exact ⟨rfl,hholds,hbegin⟩
  | some offset =>
    by_cases hbeyond : w.hub.nextOffset < offset
    · simp only [Option.any_some,decide_eq_true hbeyond,if_true]
      exact ⟨.inl ⟨rfl,rfl⟩,by simp [errorFrame,S_READY,S_ERROR,S_OUTPUT],offset,rfl⟩
    · simp only [Option.any_some,decide_eq_false hbeyond,Bool.false_eq_true,if_false]
      have hfeeds : ∀ (phase : HandlerPhase) (sent : List Frame),
          AttachHandler.Feeds { w.hub with resumeClients := w.hub.resumeClients ++ [.empty] }
            w.disk.log ⟨phase,[],some (.offset ⟨w.hub.resumeClients.length,0⟩),sent⟩
            w.hub.nextOffset := fun phase sent =>
        ⟨⟨w.hub.resumeClients.length,0⟩,.empty,rfl,hlookup,rfl,Nat.zero_le _,rfl⟩
      refine ⟨.inr (by rw [Option.getD_some]; omega),by simp [S_READY,S_OUTPUT],?_⟩
      by_cases hlt : offset < w.hub.nextOffset
      · simp only [hlt,if_true]
        exact ⟨rfl,trivial,hfeeds _ _⟩
      · have heq : w.hub.nextOffset = offset := by omega
        simp only [hlt,if_false]
        exact ⟨w.hub.nextOffset,heq.symm,hfeeds _ _⟩

/-- A broadcast queues its bytes for a legacy handler. -/
theorem Prints.broadcast {expected : List UInt8} (hp : h.Prints w.hub expected)
    (data : List UInt8) (io : BroadcastIo) :
    h.Prints (w.hub.broadcast w.disk data io).1 (expected++data) := by
  unfold Prints at hp ⊢
  split at hp
  · exact hp.trans (List.prefix_append _ _)
  · obtain ⟨rx,channel,hphase,hpending,hout,hchannel,hopen,hle,hbytes⟩ := hp
    refine ⟨rx,⟨channel.sent ++ [data],false⟩,hphase,hpending,hout,?_,rfl,?_,?_⟩
    · rw [HubInner.broadcast_clients,List.getElem?_map,hchannel,Option.map_some,
        Channel.send_open hopen]
    · rw [List.length_append]
      omega
    · rw [List.drop_append_of_le_length hle,List.flatten_append,← List.append_assoc,hbytes]
      simp

/-- A change of the hub that leaves the open channels of legacy clients in place. -/
theorem Prints.mono {g g' : HubInner} {expected : List UInt8} (hp : h.Prints g expected)
    (hclients : ∀ rx channel, h.phase ≠ .closed → h.output = some (.legacy rx) →
      g.clients[rx.channel]? = some channel → g'.clients[rx.channel]? = some channel) :
    h.Prints g' expected := by
  unfold Prints at hp ⊢
  split at hp
  · exact hp
  next hopened =>
    obtain ⟨rx,channel,hphase,hpending,hout,hchannel,hopen,hle,hbytes⟩ := hp
    have hne : h.phase ≠ .closed := by simp [hphase]
    exact ⟨rx,channel,hphase,hpending,hout,hclients rx channel hne hout hchannel,hopen,hle,hbytes⟩

theorem Prints.append {g : HubInner} {expected : List UInt8} (hp : h.Prints g expected)
    (clients : List (Channel (List UInt8))) (resumeClients : List (Channel OutputChunk)) :
    h.Prints { g with
      clients := g.clients ++ clients, resumeClients := g.resumeClients ++ resumeClients }
      expected := by
  apply hp.mono
  intro rx channel _ _ hchannel
  obtain ⟨hlt,-⟩ := List.getElem?_eq_some_iff.mp hchannel
  exact (List.getElem?_append_left hlt).trans hchannel

theorem Prints.isFirstPart {g : HubInner} {expected : List UInt8} (hp : h.Prints g expected) :
    outputBytes h.sent <+: expected := by
  unfold Prints at hp
  split at hp
  · exact hp
  · obtain ⟨rx,channel,-,-,-,-,-,-,hbytes⟩ := hp
    exact ⟨_,hbytes⟩

theorem Prints.finish {g : HubInner} {expected : List UInt8} (hp : h.Prints g expected)
    {f : Frame} (hf : f.tag ≠ S_OUTPUT) : (h.finish f).Prints g expected := by
  have hbytes : outputBytes (h.finish f).sent = outputBytes h.sent := by
    rw [AttachHandler.finish,AttachHandler.send,outputBytes_append]
    simp [outputBytes,hf]
  change outputBytes (h.finish f).sent <+: expected
  rw [hbytes]
  exact hp.isFirstPart

/-- The next chunk moves from the queue to what has been printed. -/
theorem Prints.forward {g : HubInner} {expected : List UInt8} (hp : h.Prints g expected)
    (hstep : h.forward g = some h') : h'.Prints g expected := by
  cases hphase : h.phase with
  | closed =>
    simp only [AttachHandler.forward,hphase] at hstep
    cases hstep
  | replaying offset stop =>
    simp only [AttachHandler.forward,hphase] at hstep
    cases hstep
  | streaming =>
    simp only [Prints,hphase] at hp
    obtain ⟨rx,channel,-,hpending,hout,hchannel,hopen,hle,hbytes⟩ := hp
    simp only [AttachHandler.forward,hphase,hpending,hout,hchannel,Option.bind_eq_bind,
      Option.bind_some,Option.bind_eq_some_iff,Option.some.injEq] at hstep
    obtain ⟨bytes,hget,rfl⟩ := hstep
    obtain ⟨hlt,hget⟩ := List.getElem?_eq_some_iff.mp hget
    simp only [Prints,AttachHandler.send,hphase]
    refine ⟨⟨rx.channel,rx.received+1⟩,channel,trivial,hpending,rfl,hchannel,hopen,hlt,?_⟩
    rw [List.drop_eq_getElem_cons hlt,hget] at hbytes
    rw [outputBytes_append,← hbytes]
    simp [outputBytes]

theorem Prints.step {g : HubInner} {log expected : List UInt8} (hp : h.Prints g expected)
    {e : HandlerEvent} (hstep : h.step g log e = some h') : h'.Prints g expected := by
  cases e with
  | replayed n =>
    simp only [AttachHandler.step,AttachHandler.replayed] at hstep
    cases hphase : h.phase with
    | replaying offset stop =>
      simp only [Prints,hphase] at hp
      obtain ⟨-,-,hfalse,-⟩ := hp
      cases hfalse
    | streaming =>
      simp only [hphase] at hstep
      cases hstep
    | closed =>
      simp only [hphase] at hstep
      cases hstep
  | replayFailed error =>
    simp only [AttachHandler.step] at hstep
    split at hstep
    · cases hstep
      exact hp.finish (by simp [errorFrame,S_ERROR,S_OUTPUT])
    · cases hstep
  | output => exact hp.forward hstep
  | exited info =>
    simp only [AttachHandler.step] at hstep
    split_ifs at hstep
    cases hstep
    exact hp.finish (by simp [S_EXIT,S_OUTPUT])
  | detached =>
    simp only [AttachHandler.step] at hstep
    split_ifs at hstep
    cases hstep
    exact hp.finish (by simp [S_DETACHED,S_OUTPUT])
  | gone =>
    cases hstep
    exact hp.isFirstPart

theorem prints_attach (g : HubInner) (since : Option ℕ) :
    (AttachHandler.attach g 0 since).1.Prints (AttachHandler.attach g 0 since).2 g.backlog := by
  have hlegacy : ¬(1 : UInt8) ≤ 0 := by decide
  simp only [AttachHandler.attach,if_neg hlegacy,HubInner.subscribe,Prints]
  refine ⟨⟨g.clients.length,0⟩,⟨if g.backlog = [] then [] else [g.backlog],false⟩,trivial,trivial,rfl,
    by simp,rfl,Nat.zero_le _,?_⟩
  by_cases hempty : g.backlog = [] <;> simp [outputBytes,hempty]

end AttachHandler

namespace AttachWorld
open AttachHandler

lemma not_holds {w : AttachWorld} {i : ℕ} {h : AttachHandler} {p : AttachOutputReceiver → Bool}
    (hnone : ¬(w.handlers.any fun h => h.holds p) = true) (ha : w.handlers[i]? = some h)
    (hphase : h.phase ≠ .closed) : ¬h.output.any p := by
  intro hany
  apply hnone
  rw [List.any_eq_true]
  exact ⟨h,List.mem_of_getElem? ha,by simp [AttachHandler.holds,hphase,hany]⟩

/-- Whatever happens in the worker, each resumable handler keeps its invariant. -/
theorem streams_step {w w' : AttachWorld} {e : AttachEvent} (hw : w.Sound)
    (hstep : w.step e = some w') {i start : ℕ} {h : AttachHandler} (ha : w.handlers[i]? = some h)
    (hs : h.Streams w.hub w.disk.log start) :
    ∃ h', w'.handlers[i]? = some h' ∧ h'.Streams w'.hub w'.disk.log start := by
  have hdisk := step_disk hw hstep
  cases step_move hstep with
  | @broadcast data now timestamps hfit =>
    refine ⟨h,ha,?_⟩
    rw [hdisk]
    apply hs.mono
    intro mid _ hf
    have hio : (⟨now,.ok,timestamps⟩ : BroadcastIo).log = .ok := rfl
    have hfed := hf.broadcast hw hio hfit
    rwa [hdisk] at hfed
  | @attach protocol since =>
    obtain ⟨hlt,-⟩ := List.getElem?_eq_some_iff.mp ha
    refine ⟨h,by rw [List.getElem?_append_left hlt,ha],?_⟩
    exact hs.rehub fun mid _ hf => hf.attach protocol since
  | @handler j e a a' ha' hmove =>
    by_cases hij : j = i
    · subst hij
      obtain rfl : h = a := Option.some.inj (ha.symm.trans ha')
      obtain ⟨hlt,-⟩ := List.getElem?_eq_some_iff.mp ha
      exact ⟨a',List.getElem?_set_self hlt,
        show a'.Streams w.hub w.disk.log start from hs.step hw hmove⟩
    · exact ⟨h,by rw [List.getElem?_set_ne hij,ha],hs⟩
  | dropClient => exact ⟨h,ha,hs.begins,hs.raw,hs.goesOn⟩
  | dropResumeClient hnone =>
    exact ⟨h,ha,hs.rehub fun mid hphase hf => hf.drop (not_holds hnone ha hphase)⟩

end AttachWorld

/-- A handler's step only adds to what it has sent. -/
theorem AttachHandler.step_sent {g : HubInner} {log : List UInt8} {h h' : AttachHandler}
    {e : HandlerEvent} (hstep : h.step g log e = some h') : h.sent <+: h'.sent := by
  cases e with
  | replayed n =>
    simp only [AttachHandler.step,AttachHandler.replayed] at hstep
    split at hstep
    · split_ifs at hstep
      all_goals
        cases hstep
        exact List.prefix_append _ _
    · cases hstep
  | replayFailed error =>
    simp only [AttachHandler.step] at hstep
    split at hstep
    · cases hstep
      exact List.prefix_append _ _
    · cases hstep
  | output =>
    simp only [AttachHandler.step,AttachHandler.forward] at hstep
    split at hstep
    · cases hstep
      exact List.prefix_append _ _
    · simp only [Option.bind_eq_bind,Option.bind_eq_some_iff,Option.some.injEq] at hstep
      obtain ⟨-,-,-,-,rfl⟩ := hstep
      exact List.prefix_append _ _
    · simp only [Option.bind_eq_bind,Option.bind_eq_some_iff,Option.some.injEq] at hstep
      obtain ⟨-,-,-,-,rfl⟩ := hstep
      exact List.prefix_append _ _
    · cases hstep
  | exited info =>
    simp only [AttachHandler.step] at hstep
    split_ifs at hstep
    cases hstep
    exact List.prefix_append _ _
  | detached =>
    simp only [AttachHandler.step] at hstep
    split_ifs at hstep
    cases hstep
    exact List.prefix_append _ _
  | gone =>
    cases hstep
    exact List.prefix_rfl

/-- The frames of one handler only grow, whatever happens in the worker. -/
theorem AttachWorld.step_sent {w w' : AttachWorld} {e : AttachEvent} (hstep : w.step e = some w')
    {i : ℕ} {h : AttachHandler} (ha : w.handlers[i]? = some h) :
    ∃ h', w'.handlers[i]? = some h' ∧ h.sent <+: h'.sent := by
  cases step_move hstep with
  | attach =>
    obtain ⟨hlt,-⟩ := List.getElem?_eq_some_iff.mp ha
    exact ⟨h,by rw [List.getElem?_append_left hlt,ha],List.prefix_rfl⟩
  | @handler j e a a' ha' hmove =>
    by_cases hij : j = i
    · subst hij
      obtain rfl : h = a := Option.some.inj (ha.symm.trans ha')
      obtain ⟨hlt,-⟩ := List.getElem?_eq_some_iff.mp ha
      exact ⟨a',List.getElem?_set_self hlt,AttachHandler.step_sent hmove⟩
    · exact ⟨h,by rw [List.getElem?_set_ne hij,ha],List.prefix_rfl⟩
  | broadcast | dropClient | dropResumeClient => exact ⟨h,ha,List.prefix_rfl⟩

namespace AttachHandler

end AttachHandler

namespace AttachWorld

end AttachWorld
end Babysit
