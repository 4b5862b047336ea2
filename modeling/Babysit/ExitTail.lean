import Babysit.AttachLoop

/-! Whether the exit frame of a raw attach comes behind the output that precedes the exit.
The queue a task reads is the one of a hub whose log writes never fail: a failed write
changes what is on disk, not what is broadcast. -/
namespace Babysit
open AppendLog

namespace HubInner

/-- The hub as it would be if no log write had failed. -/
def unfailing (g : HubInner) : HubInner :=
  { g with log := true, timestamps := false, logError := none }

theorem unfailing_broadcast (g : HubInner) (d : Disk) (data stream : List UInt8)
    (io : BroadcastIo) : (g.broadcast d data io).1.unfailing =
      (g.unfailing.broadcast ⟨stream,[]⟩ data ⟨0,.ok,.ok⟩).1 := by
  have hcapture : g.unfailing.capture ⟨stream,[]⟩ data ⟨0,.ok,.ok⟩ =
      (g.unfailing,⟨stream ++ data,[]⟩) := rfl
  obtain ⟨timestamps,error,h⟩ := g.capture_fields d data io
  unfold broadcast
  generalize BACKLOG_CAP = cap
  simp only [broadcastUpTo,hcapture,h]
  rfl

end HubInner

namespace AttachHandler
variable {g : HubInner} {protocol : UInt8}

/-- While no write has failed, a subscription is that of the unfailing hub. -/
theorem attach_unfailing (hnone : g.logError = none) (protocol : UInt8) (since : Option ℕ) :
    (attach g protocol since).1 = (attach g.unfailing protocol since).1 ∧
      (attach g protocol since).2.unfailing = (attach g.unfailing protocol since).2 := by
  obtain ⟨backlog,backlogStart,nextOffset,log,timestamps,error,clients,resumeClients⟩ := g
  obtain rfl : error = none := hnone
  unfold attach HubInner.subscribeResumable HubInner.unfailing
  by_cases hp : 1 ≤ protocol
  · simp only [if_pos hp]
    by_cases hbeyond : since.any fun offset => nextOffset < offset
    · simp [hbeyond]
    · cases since with
      | none => exact ⟨rfl,rfl⟩
      | some offset =>
        simp only [hbeyond]
        exact ⟨rfl,rfl⟩
  · simp only [if_neg hp]
    exact ⟨rfl,rfl⟩

theorem attach_legacy (g : HubInner) (hp : ¬1 ≤ protocol) (since : Option ℕ) :
    attach g protocol since = attach g 0 none ∧
      (attach g protocol since).1 = (attach g.unfailing 0 none).1 ∧
      (attach g protocol since).2.unfailing = (attach g.unfailing 0 none).2 := by
  have hzero : ¬(1 : UInt8) ≤ 0 := by decide
  unfold attach
  rw [if_neg hp,if_neg hzero,if_neg hzero]
  exact ⟨rfl,rfl,rfl⟩

/-- After a failed write a resumable subscription is refused. -/
theorem attach_refused {error : String} (herror : g.logError = some error) (hp : 1 ≤ protocol)
    (since : Option ℕ) : (attach g protocol since).1.phase = .closed ∧ (attach g protocol since).2 = g := by
  unfold attach
  rw [if_pos hp]
  simp [HubInner.subscribeResumable,herror]

/-- Frames without output do not count. -/
theorem Prints.resent {h : AttachHandler} {expected : List UInt8} (hp : h.Prints g expected)
    {sent : List Frame} (hsent : outputBytes sent = outputBytes h.sent) :
    Prints g expected { h with sent := sent } := by
  unfold Prints at hp ⊢
  dsimp only
  rw [hsent]
  exact hp

theorem Streams.resent {h : AttachHandler} {log : List UInt8} {start : ℕ}
    (hs : h.Streams g log start) {sent : List Frame}
    (hpieces : offsetPieces sent = offsetPieces h.sent) (hraw : ∀ f ∈ sent,f.tag ≠ S_OUTPUT) :
    Streams g log start { h with sent := sent } := by
  obtain ⟨hbegins,-,hgoesOn⟩ := hs
  refine ⟨?_,hraw,?_⟩
  · dsimp only
    rw [hpieces]
    exact hbegins
  · dsimp only
    rw [hpieces]
    exact hgoesOn

end AttachHandler

/-- The task has subscribed and has not returned. -/
def LoopTurn.isSubscribed : LoopTurn → Bool
  | .counted | .observed | .returned => false
  | _ => true

theorem LoopTurn.isSubscribed_of_inLoop {turn : LoopTurn} (h : turn.inLoop = true) :
    turn.isSubscribed = true := by
  cases turn <;> first | rfl | cases h

namespace LoopTask

/-- What the frames carry runs from the task's start to this offset of the stream. -/
def Wrote (t : LoopTask) (stream : List UInt8) (frames : List Frame) (stop : ℕ) : Prop :=
  t.startAt ≤ stop ∧ stop ≤ stream.length ∧
    if t.legacy then outputBytes frames = slice stream t.startAt stop
    else Follows stream t.startAt (offsetPieces frames) stop

theorem Wrote.grow {t : LoopTask} {stream : List UInt8} {frames : List Frame} {stop : ℕ}
    (h : t.Wrote stream frames stop) (more : List UInt8) :
    t.Wrote (stream ++ more) frames stop := by
  obtain ⟨hstart,hle,hwrote⟩ := h
  refine ⟨hstart,by rw [List.length_append]; omega,?_⟩
  cases hlegacy : t.legacy with
  | false =>
    rw [hlegacy] at hwrote
    exact Follows.grow hwrote more
  | true =>
    rw [hlegacy] at hwrote
    simp only [if_true] at hwrote ⊢
    rw [hwrote,slice,slice,List.drop_append,List.take_append_of_le_length]
    rw [List.length_drop]
    omega

/-- Frames show where they end. -/
theorem Wrote.stop_unique {t : LoopTask} {stream : List UInt8} {frames : List Frame}
    {stop stop' : ℕ} (h : t.Wrote stream frames stop) (h' : t.Wrote stream frames stop') :
    stop = stop' := by
  obtain ⟨hstart,hle,hwrote⟩ := h
  obtain ⟨hstart',hle',hwrote'⟩ := h'
  cases hlegacy : t.legacy with
  | false =>
    rw [hlegacy] at hwrote hwrote'
    exact Follows.stop_unique hwrote hwrote'
  | true =>
    rw [hlegacy] at hwrote hwrote'
    have hlength := congrArg List.length (hwrote.symm.trans hwrote')
    rw [slice_length hle,slice_length hle'] at hlength
    omega

/-- The turns of a task leave its stream one of the same kind. -/
theorem Move.view {t t' : LoopTask} {w : LoopWorld} {a : TaskEvent} (h : Move t w a t') :
    t'.view.isSome = t.view.isSome := by
  cases h with
  | formats hview | formatterCloses hview =>
    rw [hview]
    rfl
  | viewForwards _ hview =>
    rw [hview]
    rfl
  | observes | replays | replayFails | registers | leaves | fails | exits | viewDetaches | forwards
  | findsNothing | seesNoExit | noExit | detaches | noDetach | goes | stays | waits | unarmed
  | goesOn => rfl

end LoopTask

namespace LoopWorld

/-- Before an exit frame, a raw client has been sent all output from its start to where the
output ended when the exit was published. -/
def TailKept (w : LoopWorld) : Prop :=
  ∀ t ∈ w.tasks,t.view = none → ∀ before f after, t.handler.sent = before ++ f :: after →
    f.tag = S_EXIT → ∀ e ∈ w.published,∃ stop, e ≤ stop ∧ t.Wrote w.stream before stop

/-- An exit branch that is polled after the publication comes behind a data branch that was
polled after the last output before it. -/
def ExitPolledAtEnd (w : LoopWorld) : LoopWorldEvent → Prop
  | .task i .polls => ∀ t ∈ w.tasks[i]?,t.view = none → ∀ polled, t.turn = .exit polled →
    ∀ e ∈ w.published,e ≤ polled
  | _ => True

/-- The worker with its log as it would be if no write had failed. -/
def ideal (w : LoopWorld) : AttachWorld := ⟨w.hub.unfailing,⟨w.stream,[]⟩,[]⟩

/-- The hub describes the stream, and the log on disk is as much of it as could be written. -/
structure Streamed (w : LoopWorld) : Prop where
  sound : w.ideal.Sound
  disk : w.disk.log <+: w.stream
  logOpen : w.hub.log = true → w.disk.log = w.stream
  published : w.published.isSome = w.exit.value.isSome
  publishedEnd : ∀ e ∈ w.published,e ≤ w.stream.length

variable {w w' : LoopWorld} {e : LoopWorldEvent}

theorem streamed_start (log : SessionLog) : (start log).Streamed := by
  have hdisk : (start log).disk.log = log.bytes := HubInner.configureLog_disk _ _ _
  refine ⟨⟨rfl,rfl,?_,log.fits⟩,by rw [hdisk]; exact List.prefix_rfl,fun _ => hdisk,rfl,by rintro e ⟨⟩⟩
  exact ⟨rfl,rfl,by simp [ideal,start,HubInner.unfailing,HubInner.configureLog,HubInner.default]⟩

/-- Channels come and go without a change of what they are fed with. -/
theorem Streamed.frame (h : w.Streamed) {clients : List (Channel (List UInt8))}
    {resumeClients : List (Channel OutputChunk)}
    (hhub : w'.hub = { w.hub with clients := clients, resumeClients := resumeClients })
    (hdisk : w'.disk = w.disk) (hstream : w'.stream = w.stream) (hexit : w'.exit = w.exit)
    (hpublished : w'.published = w.published) : w'.Streamed := by
  obtain ⟨hub,disk,exit,detach,now,tasks,stream,published⟩ := w'
  dsimp only at hhub hdisk hstream hexit hpublished
  subst hhub hdisk hstream hexit hpublished
  have htruth := h.sound.truthful
  exact ⟨⟨rfl,rfl,⟨htruth.1,htruth.2,htruth.3⟩,h.sound.fits⟩,h.disk,h.logOpen,h.published,
    h.publishedEnd⟩

theorem Streamed.broadcast (h : w.Streamed) {data : List UInt8} {io : BroadcastIo}
    (hfit : w.stream.length + data.length ≤ MAX_FILE_LEN) :
    Streamed { w with
      hub := (w.hub.broadcast w.disk data io).1, disk := (w.hub.broadcast w.disk data io).2
      stream := w.stream ++ data } := by
  have hok : (⟨0,.ok,.ok⟩ : BroadcastIo).log = .ok := rfl
  have htruth := HubInner.Truthful.broadcast h.sound.truthful rfl hok hfit
  have hideal : (w.ideal.hub.broadcast w.ideal.disk data ⟨0,.ok,.ok⟩).2.log = w.stream ++ data := by
    rw [HubInner.broadcast_disk]
    rfl
  rw [hideal,ideal,← HubInner.unfailing_broadcast w.hub w.disk data w.stream io] at htruth
  refine ⟨⟨rfl,rfl,htruth,by rw [ideal,List.length_append]; exact hfit⟩,?_,fun hlog => ?_,
    h.published,fun e he => ?_⟩
  · dsimp only
    rw [HubInner.broadcast_disk]
    split_ifs with hlog
    · rw [h.logOpen hlog]
      apply (List.prefix_append_right_inj _).mpr
      cases io.log with
      | ok => exact List.prefix_rfl
      | failed k _ => exact List.take_prefix k data
    · exact h.disk.trans (List.prefix_append _ _)
  · dsimp only at hlog ⊢
    rw [HubInner.broadcast_log,Bool.and_eq_true] at hlog
    rw [HubInner.broadcast_disk,if_pos hlog.1,h.logOpen hlog.1]
    cases hwrite : io.log with
    | ok => rfl
    | failed k _ =>
      rw [hwrite] at hlog
      cases hlog.2
  · have := h.publishedEnd e he
    rw [List.length_append]
    omega

theorem Streamed.step (h : w.Streamed) (hstep : w.step e = some w') : w'.Streamed := by
  cases step_move hstep with
  | broadcast hfit => exact h.broadcast hfit
  | publishes =>
    refine ⟨h.sound,h.disk,h.logOpen,rfl,?_⟩
    rintro e ⟨⟩
    exact Nat.le_refl _
  | @subscribes i viewFails t =>
    obtain ⟨clients,resumeClients,hhub⟩ := t.subscribe_hub w.hub viewFails
    exact h.frame hhub rfl rfl rfl rfl
  | requestsDetach | tick | attach | task => exact h.frame (by rfl) rfl rfl rfl rfl
  | dropClient | dropResumeClient => exact h.frame (by rfl) rfl rfl rfl rfl

/-- What a raw task has been sent and what waits for it make up the stream from its start. -/
def Raw (w : LoopWorld) (t : LoopTask) : Prop :=
  if t.legacy then
    t.startAt ≤ w.stream.length ∧ t.handler.Prints w.hub.unfailing (w.stream.drop t.startAt)
  else t.handler.Streams w.hub.unfailing w.stream t.startAt

variable {t t' : LoopTask} {a : TaskEvent}

/-- Frames without output do not count. -/
theorem Raw.resent (ht : w.Raw t) {sent : List Frame}
    (hpieces : offsetPieces sent = offsetPieces t.handler.sent)
    (hbytes : outputBytes sent = outputBytes t.handler.sent)
    (hraw : ∀ f ∈ sent,f.tag = S_OUTPUT → f ∈ t.handler.sent) :
    w.Raw { t with handler := { t.handler with sent := sent } } := by
  unfold Raw at ht ⊢
  dsimp only
  split_ifs at ht ⊢
  · exact ⟨ht.1,ht.2.resent hbytes⟩
  · exact ht.resent hpieces fun f hf htag => ht.raw f (hraw f hf htag) htag

theorem Raw.broadcast (hw : w.Streamed) (ht : w.Raw t) {data : List UInt8} {io : BroadcastIo}
    (hfit : w.stream.length + data.length ≤ MAX_FILE_LEN) :
    Raw { w with
      hub := (w.hub.broadcast w.disk data io).1, disk := (w.hub.broadcast w.disk data io).2
      stream := w.stream ++ data } t := by
  have hok : (⟨0,.ok,.ok⟩ : BroadcastIo).log = .ok := rfl
  unfold Raw at ht ⊢
  dsimp only
  rw [HubInner.unfailing_broadcast w.hub w.disk data w.stream io]
  split_ifs at ht ⊢
  · obtain ⟨hstart,hprints⟩ := ht
    refine ⟨by rw [List.length_append]; omega,?_⟩
    rw [List.drop_append_of_le_length hstart]
    exact AttachHandler.Prints.broadcast (w := w.ideal) hprints data _
  · apply AttachHandler.Streams.mono ht
    intro mid _ hf
    have hfed := AttachHandler.Feeds.broadcast hw.sound hok hfit hf
    rw [HubInner.broadcast_disk] at hfed
    exact hfed

theorem Raw.append (ht : w.Raw t) (clients : List (Channel (List UInt8)))
    (resumeClients : List (Channel OutputChunk)) :
    Raw { w with hub := { w.hub with
      clients := w.hub.clients ++ clients, resumeClients := w.hub.resumeClients ++ resumeClients } }
      t := by
  unfold Raw at ht ⊢
  split_ifs at ht ⊢
  · exact ⟨ht.1,ht.2.append clients resumeClients⟩
  · exact AttachHandler.Streams.rehub ht fun mid _ hf => hf.append clients resumeClients

/-- The channel of a task that still runs is not dropped. -/
theorem not_holds {p : AttachOutputReceiver → Bool}
    (hnone : ¬(w.tasks.any fun t => t.holds p) = true) (ht : t ∈ w.tasks)
    (hturn : t.turn ≠ .returned) : ¬t.handler.output.any p := by
  intro hany
  apply hnone
  rw [List.any_eq_true]
  exact ⟨t,ht,by simp [LoopTask.holds,hturn,hany]⟩

theorem Raw.dropClient (ht : w.Raw t) {k : ℕ} (hk : ¬t.handler.output.any (·.isLegacy k)) :
    Raw { w with hub := { w.hub with clients := w.hub.clients.modify k Channel.close } } t := by
  unfold Raw at ht ⊢
  split_ifs at ht ⊢
  · refine ⟨ht.1,ht.2.mono fun rx channel _ hout hchannel => ?_⟩
    have hne : k ≠ rx.channel := by
      rintro rfl
      simp [hout,AttachOutputReceiver.isLegacy] at hk
    exact (List.getElem?_modify_ne _ _ hne).trans hchannel
  · exact AttachHandler.Streams.rehub ht fun mid _ hf => hf

theorem Raw.dropResumeClient (ht : w.Raw t) {k : ℕ}
    (hk : ¬t.handler.output.any (·.isOffset k)) :
    Raw { w with hub := { w.hub with
      resumeClients := w.hub.resumeClients.modify k Channel.close } } t := by
  unfold Raw at ht ⊢
  split_ifs at ht ⊢
  · exact ⟨ht.1,ht.2.mono fun _ _ _ _ hchannel => hchannel⟩
  · exact AttachHandler.Streams.rehub ht fun mid _ hf =>
      AttachHandler.Feeds.drop (w := w.ideal) hf hk

/-- Of one raw task: it forwards its stream, it has sent all there was when its data branch
found nothing, and its exit frame comes behind the tail. -/
structure Tailing (w : LoopWorld) (t : LoopTask) : Prop where
  unsent : t.turn ≠ .returned → ∀ f ∈ t.handler.sent,f.tag ≠ S_EXIT
  raw : t.turn.isSubscribed = true → w.Raw t
  phase : t.turn.inLoop = true → t.handler.phase = .streaming
  polled : ∀ p, t.turn = .exit p → t.Wrote w.stream t.handler.sent p
  tail : ∀ before f after, t.handler.sent = before ++ f :: after → f.tag = S_EXIT →
    w.published.isSome = true ∧
      ∀ e ∈ w.published,∃ stop, e ≤ stop ∧ t.Wrote w.stream before stop

/-- Without an exit frame there is nothing to show. -/
theorem tail_of_unsent {P : List Frame → Prop} {sent : List Frame}
    (h : ∀ f ∈ sent,f.tag ≠ S_EXIT) (before : List Frame) (f : Frame) (after : List Frame)
    (hsent : sent = before ++ f :: after) (htag : f.tag = S_EXIT) : P before :=
  absurd htag (h f (by rw [hsent]; simp))

/-- More output, or a first publication. -/
theorem Tailing.mono (ht : w.Tailing t) {more : List UInt8} (hstream : w'.stream = w.stream ++ more)
    (hpublished : w'.published = w.published ∨ w.published = none)
    (hraw : t.turn.isSubscribed = true → w.Raw t → w'.Raw t) : w'.Tailing t := by
  refine ⟨ht.unsent,fun hturn => hraw hturn (ht.raw hturn),ht.phase,fun p hp => ?_,?_⟩
  · rw [hstream]
    exact (ht.polled p hp).grow more
  · intro before f after hsent htag
    obtain ⟨hsome,htail⟩ := ht.tail before f after hsent htag
    rcases hpublished with hsame | hnone
    · rw [hsame]
      refine ⟨hsome,fun e he => ?_⟩
      obtain ⟨stop,hle,hwrote⟩ := htail e he
      rw [hstream]
      exact ⟨stop,hle,hwrote.grow more⟩
    · rw [hnone] at hsome
      cases hsome

theorem Tailing.stays (hw : w.Streamed) (ht : w.Tailing t) (hmem : t ∈ w.tasks)
    (hstep : w.step e = some w') : w'.Tailing t := by
  have hne : t.turn.isSubscribed = true → t.turn ≠ .returned := by
    intro hsub hreturned
    rw [hreturned] at hsub
    cases hsub
  have hnil : w.stream = w.stream ++ [] := (List.append_nil _).symm
  cases step_move hstep with
  | broadcast hfit => exact ht.mono rfl (.inl rfl) fun _ hraw => hraw.broadcast hw hfit
  | publishes hnone =>
    refine ht.mono hnil (.inr ?_) fun _ hraw => hraw
    rw [← Option.not_isSome_iff_eq_none,hw.published,hnone]
    simp
  | @subscribes i viewFails u =>
    obtain ⟨clients,resumeClients,hhub⟩ := u.subscribe_hub w.hub viewFails
    rw [hhub]
    exact ht.mono hnil (.inl rfl) fun _ hraw => hraw.append clients resumeClients
  | requestsDetach | tick | attach | task =>
    exact ht.mono hnil (.inl rfl) fun _ hraw => hraw
  | dropClient hnone =>
    exact ht.mono hnil (.inl rfl) fun hsub hraw =>
      hraw.dropClient (not_holds hnone hmem (hne hsub))
  | dropResumeClient hnone =>
    exact ht.mono hnil (.inl rfl) fun hsub hraw =>
      hraw.dropResumeClient (not_holds hnone hmem (hne hsub))

/-- The backlog is the end of the stream. -/
theorem Streamed.backlog (hw : w.Streamed) :
    w.hub.backlogStart ≤ w.stream.length ∧ w.hub.backlog = w.stream.drop w.hub.backlogStart := by
  obtain ⟨hnext,hend,hbacklog⟩ := hw.sound.truthful
  have hnext : w.hub.nextOffset = w.stream.length := hnext
  have hend : w.hub.backlogStart + w.hub.backlog.length = w.hub.nextOffset := hend
  have hbacklog : w.hub.backlog = slice w.stream w.hub.backlogStart w.hub.nextOffset := hbacklog
  refine ⟨by omega,?_⟩
  rw [hbacklog,slice_eq_drop (by omega)]

/-- A subscription that starts no replay has sent readiness at most, which is no output. -/
theorem unannounced (g : HubInner) (protocol : UInt8) (since : Option ℕ) {sent : List Frame}
    (hsent : sent = if (AttachHandler.attach g protocol since).1.phase ≠ .streaming
      then (AttachHandler.attach g protocol since).1.sent else []) :
    offsetPieces sent = offsetPieces (AttachHandler.attach g protocol since).1.sent ∧
      outputBytes sent = outputBytes (AttachHandler.attach g protocol since).1.sent ∧
      ∀ f ∈ sent,f ∈ (AttachHandler.attach g protocol since).1.sent := by
  subst hsent
  split_ifs with hphase
  · exact ⟨rfl,rfl,fun f hf => hf⟩
  · rw [AttachHandler.attach_sent_of_streaming (not_not.mp hphase)]
    split_ifs <;> exact ⟨rfl,rfl,by rintro f ⟨⟩⟩

/-- A raw subscription: its stream starts where the client asks, or at the backlog. -/
theorem raw_subscribe (hw : w.Streamed) (t : LoopTask) (viewFails : Bool)
    (hview : (t.subscribe w.hub viewFails).1.view = none)
    (hturn : (t.subscribe w.hub viewFails).1.turn = .subscribed) :
    Raw { w with hub := (t.subscribe w.hub viewFails).2 } (t.subscribe w.hub viewFails).1 := by
  obtain ⟨hstart,hbacklog⟩ := hw.backlog
  have hprints := AttachHandler.prints_attach w.hub.unfailing none
  have hexpected : w.hub.unfailing.backlog = w.stream.drop w.hub.backlogStart := hbacklog
  rw [hexpected] at hprints
  unfold LoopTask.subscribe at hview hturn ⊢
  cases hcmd : t.request.viewCmd with
  | true =>
    simp only [hcmd,if_true] at hview hturn ⊢
    cases viewFails with
    | false => cases hview
    | true =>
      have hzero : ¬(1 : UInt8) ≤ 0 := by decide
      obtain ⟨-,hhandler,hhub⟩ := AttachHandler.attach_legacy w.hub hzero none
      rw [← hhandler,← hhub] at hprints
      exact ⟨hstart,hprints⟩
  | false =>
    simp only [hcmd] at hview hturn ⊢
    by_cases hp : 1 ≤ t.request.protocol
    · have hraw : w.hub.logError = none := by
        cases herror : w.hub.logError with
        | none => rfl
        | some error =>
          have hclosed := (AttachHandler.attach_refused herror hp t.request.since).1
          rw [if_pos hclosed] at hturn
          cases hturn
      obtain ⟨hhandler,hhub⟩ :=
        AttachHandler.attach_unfailing hraw t.request.protocol t.request.since
      have hstreams :
          (AttachHandler.attach w.hub.unfailing t.request.protocol t.request.since).1.Streams
            (AttachHandler.attach w.hub.unfailing t.request.protocol t.request.since).2
            w.stream (t.request.since.getD w.hub.backlogStart) :=
        AttachHandler.streams_attach hw.sound hp t.request.since
      rw [← hhandler,← hhub] at hstreams
      obtain ⟨hpieces,-,hmem⟩ := unannounced w.hub t.request.protocol t.request.since rfl
      simpa only [Raw,hp,not_true_eq_false,decide_false,Bool.false_eq_true,if_true,if_false] using
        hstreams.resent hpieces fun f hf => hstreams.raw f (hmem f hf)
    · obtain ⟨-,hhandler,hhub⟩ := AttachHandler.attach_legacy w.hub hp t.request.since
      rw [← hhandler,← hhub] at hprints
      obtain ⟨-,hbytes,-⟩ := unannounced w.hub t.request.protocol t.request.since rfl
      simpa only [Raw,hp,not_false_eq_true,decide_true,Bool.false_eq_true,if_true,if_false] using
        And.intro hstart (hprints.resent hbytes)

/-- A drained raw task has been sent the stream to its end. -/
theorem wrote_of_drained (hw : w.Streamed) (ht : w.Raw t) (hphase : t.handler.phase = .streaming)
    (hforward : t.handler.forward w.hub = none) :
    t.Wrote w.stream t.handler.sent w.stream.length := by
  unfold Raw at ht
  unfold LoopTask.Wrote
  split_ifs at ht ⊢
  · obtain ⟨hstart,hprints⟩ := ht
    simp only [AttachHandler.Prints,hphase] at hprints
    obtain ⟨rx,channel,-,hpending,hout,hchannel,-,-,hbytes⟩ := hprints
    have hchannel : w.hub.clients[rx.channel]? = some channel := hchannel
    simp only [AttachHandler.forward,hphase,hpending,hout,hchannel,Option.bind_eq_bind,
      Option.bind_some,Option.bind_eq_none_iff,reduceCtorEq,imp_false] at hforward
    have hdone : channel.sent.length ≤ rx.received := by
      apply List.getElem?_eq_none_iff.mp
      exact Option.eq_none_iff_forall_ne_some.mpr hforward
    rw [List.drop_eq_nil_of_le hdone,List.flatten_nil,List.append_nil] at hbytes
    exact ⟨hstart,Nat.le_refl _,by rw [hbytes,slice_eq_drop (Nat.le_refl _)]⟩
  · obtain ⟨hbegins,-,hgoesOn⟩ := ht
    simp only [hphase] at hgoesOn hbegins
    obtain ⟨mid,hrun,rx,channel,hout,hchannel,-,-,hqueue⟩ := hgoesOn
    have hchannel : w.hub.resumeClients[rx.channel]? = some channel := hchannel
    have hnext : w.hub.unfailing.nextOffset = w.stream.length := hw.sound.truthful.nextOffset
    cases hpending : t.handler.pending with
    | cons chunk pending =>
      simp only [AttachHandler.forward,hphase,hpending] at hforward
      cases hforward
    | nil =>
      simp only [AttachHandler.forward,hphase,hpending,hout,hchannel,Option.bind_eq_bind,
        Option.bind_some,Option.bind_eq_none_iff,reduceCtorEq,imp_false] at hforward
      have hdone : channel.sent.length ≤ rx.received := by
        apply List.getElem?_eq_none_iff.mp
        exact Option.eq_none_iff_forall_ne_some.mpr hforward
      rw [hpending,List.drop_eq_nil_of_le hdone,hnext] at hqueue
      obtain rfl : mid = w.stream.length := hqueue
      exact ⟨by simpa using hbegins,Nat.le_refl _,hrun⟩

theorem tailing_counted (w : LoopWorld) (request : AttachRequest) :
    w.Tailing (.counted request w.detach) where
  unsent := by rintro - f ⟨⟩
  raw := by rintro ⟨⟩
  phase := by rintro ⟨⟩
  polled := by rintro p ⟨⟩
  tail := tail_of_unsent (by rintro f ⟨⟩)

theorem tailing_subscribe (hw : w.Streamed) {t : LoopTask}
    (hnone : ∀ f ∈ t.handler.sent,f.tag ≠ S_EXIT) (viewFails : Bool)
    (hview : (t.subscribe w.hub viewFails).1.view = none) :
    Tailing { w with hub := (t.subscribe w.hub viewFails).2 }
      (t.subscribe w.hub viewFails).1 := by
  have hunsent := LoopTask.subscribe_sent hnone w.hub viewFails
  rcases t.subscribe_turn w.hub viewFails with hturn | hturn
  · refine ⟨fun _ => hunsent,fun _ => raw_subscribe hw t viewFails hview hturn,?_,?_,
      tail_of_unsent hunsent⟩
    · rw [hturn]
      rintro ⟨⟩
    · rw [hturn]
      rintro p ⟨⟩
  · refine ⟨fun _ => hunsent,?_,?_,?_,tail_of_unsent hunsent⟩
    · rw [hturn]
      rintro ⟨⟩
    · rw [hturn]
      rintro ⟨⟩
    · rw [hturn]
      rintro p ⟨⟩

/-- A move that sends no exit frame. -/
theorem Tailing.moves (ht : w.Tailing t) (hne : t.turn ≠ .returned)
    (hsent : ∀ f ∈ t'.handler.sent,f.tag = S_EXIT → f ∈ t.handler.sent)
    (hraw : t'.turn.isSubscribed = true → w.Raw t')
    (hphase : t'.turn.inLoop = true → t'.handler.phase = .streaming)
    (hpolled : ∀ p, t'.turn = .exit p → t'.Wrote w.stream t'.handler.sent p) : w.Tailing t' := by
  have hunsent : ∀ f ∈ t'.handler.sent,f.tag ≠ S_EXIT :=
    fun f hf htag => ht.unsent hne f (hsent f hf htag) htag
  exact ⟨fun _ => hunsent,hraw,hphase,hpolled,tail_of_unsent hunsent⟩

/-- A branch that was pending, or that ends without a frame of its own. -/
theorem Tailing.turns (ht : w.Tailing t) (hin : t.turn.inLoop = true)
    (hhandler : t'.handler = t.handler) (hlegacy : t'.legacy = t.legacy)
    (hstart : t'.startAt = t.startAt) (hexit : ∀ p, t'.turn ≠ .exit p) : w.Tailing t' := by
  have hne : t.turn ≠ .returned := by
    intro hreturned
    rw [hreturned] at hin
    cases hin
  apply ht.moves hne
  · rw [hhandler]
    exact fun f hf _ => hf
  · intro _
    have hraw := ht.raw (LoopTurn.isSubscribed_of_inLoop hin)
    unfold Raw at hraw ⊢
    rw [hhandler,hlegacy,hstart]
    exact hraw
  · rw [hhandler]
    exact fun _ => ht.phase hin
  · exact fun p hp => absurd hp (hexit p)

/-- What stands before the first exit frame. -/
theorem before_exit {sent before after : List Frame} {g f : Frame}
    (hunsent : ∀ f ∈ sent,f.tag ≠ S_EXIT) (hsent : sent ++ [g] = before ++ f :: after)
    (htag : f.tag = S_EXIT) : before = sent := by
  rcases List.eq_nil_or_concat after with rfl | ⟨rest,last,rfl⟩
  · exact (List.append_inj_left' hsent rfl).symm
  · rw [List.concat_eq_append,← List.cons_append,← List.append_assoc] at hsent
    have hinit : sent = before ++ f :: rest := List.append_inj_left' hsent rfl
    exact absurd htag (hunsent f (by rw [hinit]; simp))

theorem Tailing.exits (hw : w.Streamed) (hknows : w.KnowsExit t) (ht : w.Tailing t)
    (hview : t.view = none) (hreason : t.ExitReason w)
    (hlate : ∀ polled, t.turn = .exit polled → ∀ e ∈ w.published,e ≤ polled) (seen : ℕ) :
    w.Tailing ({ t with exitSeen := seen }.exits w) := by
  -- a raw stream ends at the exit branch or behind the check that it is drained
  have htail : t.turn ≠ .returned ∧ w.published.isSome = true ∧
      ∀ e ∈ w.published,∃ stop, e ≤ stop ∧ t.Wrote w.stream t.handler.sent stop := by
    cases hreason with
    | closed _ hsome | silent _ hsome =>
      rw [hview] at hsome
      cases hsome
    | @seen polled hturn hexit =>
      refine ⟨by simp [hturn],hw.published.trans hexit,fun e he => ?_⟩
      exact ⟨polled,hlate polled hturn e he,ht.polled polled hturn⟩
    | drained hturn hexited _ hforward =>
      have hin : t.turn.inLoop = true := by
        rw [hturn]
        rfl
      have hraw := ht.raw (LoopTurn.isSubscribed_of_inLoop hin)
      refine ⟨by simp [hturn],hw.published.trans (hknows.published hexited),fun e he => ?_⟩
      exact ⟨_,hw.publishedEnd e he,wrote_of_drained hw hraw (ht.phase hin) hforward⟩
  obtain ⟨hne,hsome,hwrote⟩ := htail
  refine ⟨fun hreturned => absurd rfl hreturned,by rintro ⟨⟩,by rintro ⟨⟩,by rintro p ⟨⟩,?_⟩
  intro before f after hsent htag
  obtain rfl := before_exit (ht.unsent hne) hsent htag
  exact ⟨hsome,hwrote⟩

/-- What a replay can read of the log is there in the stream. -/
theorem Streamed.replayed (hw : w.Streamed) {h h' : AttachHandler} {n : ℕ}
    (hstep : h.replayed w.disk.log n = some h') : h.replayed w.stream n = some h' := by
  obtain ⟨more,hmore⟩ := hw.disk
  rw [← hmore]
  unfold AttachHandler.replayed at hstep ⊢
  split at hstep
  next offset stop hphase =>
    by_cases hread : 0 < n ∧ n ≤ min (stop-offset) REPLAY_BUFFER ∧ offset+n ≤ w.disk.log.length
    · rw [if_pos hread] at hstep
      have hgrown : 0 < n ∧ n ≤ min (stop-offset) REPLAY_BUFFER ∧
          offset+n ≤ (w.disk.log ++ more).length := by
        refine ⟨hread.1,hread.2.1,?_⟩
        rw [List.length_append]
        omega
      have hslice : slice (w.disk.log ++ more) offset (offset+n) =
          slice w.disk.log offset (offset+n) := by
        rw [slice,slice,List.drop_append,List.take_append_of_le_length]
        rw [List.length_drop]
        omega
      rw [if_pos hgrown,hslice]
      exact hstep
    · rw [if_neg hread] at hstep
      cases hstep
  · cases hstep

theorem Raw.replayed (hw : w.Streamed) (ht : w.Raw t) {n : ℕ} {handler : AttachHandler}
    (hstep : t.handler.replayed w.disk.log n = some handler) :
    w.Raw { t with handler := handler } := by
  unfold Raw at ht ⊢
  dsimp only
  split_ifs at ht ⊢
  · exact ⟨ht.1,ht.2.step (e := .replayed n) hstep⟩
  · exact AttachHandler.Streams.replayed hw.sound ht (hw.replayed hstep)

theorem Raw.forward (hw : w.Streamed) (ht : w.Raw t) {handler : AttachHandler}
    (hstep : t.handler.forward w.hub = some handler) : w.Raw { t with handler := handler } := by
  unfold Raw at ht ⊢
  dsimp only
  split_ifs at ht ⊢
  · exact ⟨ht.1,ht.2.forward hstep⟩
  · exact AttachHandler.Streams.forward hw.sound ht hstep

theorem Raw.announce (ht : w.Raw t) : w.Raw { t with handler := t.announce } := by
  unfold LoopTask.announce
  split_ifs
  · apply ht.resent
    · exact offsetPieces_snoc_of_none (piece_of_ne (by simp [S_READY,S_OUTPUT_OFFSET]))
    · simp [outputBytes,S_READY,S_OUTPUT]
    · intro f hf htag
      rcases List.mem_append.mp hf with hold | hnew
      · exact hold
      · rw [List.mem_singleton.mp hnew] at htag
        cases htag
  · exact ht

theorem forward_phase {g : HubInner} {h h' : AttachHandler} (hstep : h.forward g = some h') :
    h'.phase = h.phase := by
  unfold AttachHandler.forward at hstep
  split at hstep
  · obtain rfl := Option.some.inj hstep
    rfl
  · simp only [Option.bind_eq_bind,Option.bind_eq_some_iff,Option.some.injEq] at hstep
    obtain ⟨-,-,-,-,rfl⟩ := hstep
    rfl
  · simp only [Option.bind_eq_bind,Option.bind_eq_some_iff,Option.some.injEq] at hstep
    obtain ⟨-,-,-,-,rfl⟩ := hstep
    rfl
  · cases hstep

theorem Tailing.step (hw : w.Streamed) (hknows : w.KnowsExit t) (ht : w.Tailing t)
    (hview : t.view = none) (hmove : LoopTask.Move t w a t')
    (hlate : a = .polls → ∀ polled, t.turn = .exit polled → ∀ e ∈ w.published,e ≤ polled) :
    w.Tailing t' := by
  have hin : ∀ {turn}, t.turn = turn → turn.inLoop = true → t.turn.inLoop = true :=
    fun hturn hloop => hturn ▸ hloop
  cases hmove with
  | formats hsome | formatterCloses hsome | viewForwards _ hsome | viewDetaches _ hsome =>
    rw [hview] at hsome
    cases hsome
  | waits _ hsome =>
    rw [hview] at hsome
    cases hsome
  | exits hreason _ => exact ht.exits hw hknows hview hreason (hlate rfl) _
  | leaves => exact ⟨ht.unsent,ht.raw,ht.phase,ht.polled,ht.tail⟩
  | observes hturn =>
    exact ht.moves (by simp [hturn]) (fun _ hf _ => hf) (by rintro ⟨⟩) (by rintro ⟨⟩) (by rintro p ⟨⟩)
  | replays hturn hreplayed =>
    apply ht.moves (by simp [hturn]) (LoopTask.exit_of_replayed hreplayed)
    · exact fun _ => (ht.raw (by rw [hturn]; rfl)).replayed hw hreplayed
    · intro hloop
      dsimp only at hloop
      rw [hturn] at hloop
      cases hloop
    · intro p hp
      dsimp only at hp
      rw [hturn] at hp
      cases hp
  | registers hturn hphase =>
    exact ht.moves (by simp [hturn]) (LoopTask.exit_of_announce t)
      (fun _ => (ht.raw (by rw [hturn]; rfl)).announce)
      (fun _ => t.announce_phase.trans hphase) (by rintro p ⟨⟩)
  | replayFails hturn =>
    refine ht.moves (by simp [hturn]) (LoopTask.exit_of_snoc ?_) (by rintro ⟨⟩) (by rintro ⟨⟩)
      (by rintro p ⟨⟩)
    simp [errorFrame,S_ERROR,S_EXIT]
  | detaches hturn =>
    refine ht.moves (by simp [hturn]) (LoopTask.exit_of_snoc ?_) (by rintro ⟨⟩) (by rintro ⟨⟩)
      (by rintro p ⟨⟩)
    simp [S_DETACHED,S_EXIT]
  | fails hne =>
    exact ht.moves hne (fun _ hf _ => hf) (by rintro ⟨⟩) (by rintro ⟨⟩) (by rintro p ⟨⟩)
  | goes hturn =>
    exact ht.moves (by simp [hturn]) (fun _ hf _ => hf) (by rintro ⟨⟩) (by rintro ⟨⟩)
      (by rintro p ⟨⟩)
  | forwards hturn _ hforward =>
    have hloop := hin hturn rfl
    apply ht.moves (by simp [hturn]) (LoopTask.exit_of_forward hforward)
    · exact fun _ => (ht.raw (LoopTurn.isSubscribed_of_inLoop hloop)).forward hw hforward
    · exact fun _ => (forward_phase hforward).trans (ht.phase hloop)
    · rintro p ⟨⟩
  | findsNothing hturn hnothing =>
    have hloop := hin hturn rfl
    have hraw := ht.raw (LoopTurn.isSubscribed_of_inLoop hloop)
    refine ht.moves (by simp [hturn]) (fun _ hf _ => hf) (fun _ => hraw) (fun _ => ht.phase hloop) ?_
    rintro p ⟨⟩
    rcases hnothing with hsome | ⟨-,hforward⟩
    · rw [hview] at hsome
      cases hsome
    · exact wrote_of_drained hw hraw (ht.phase hloop) hforward
  | seesNoExit hturn | noExit hturn | noDetach hturn | stays hturn | unarmed hturn | goesOn hturn =>
    exact ht.turns (hin hturn rfl) rfl rfl rfl (by rintro p ⟨⟩)

structure AllTailing (w : LoopWorld) : Prop where
  streamed : w.Streamed
  numbered : w.Numbered
  tasks : ∀ t ∈ w.tasks,w.KnowsExit t ∧ (t.view = none → w.Tailing t)

theorem allTailing_start (log : SessionLog) : (start log).AllTailing :=
  ⟨streamed_start log,by rintro ⟨⟩,by rintro t ⟨⟩⟩

theorem AllTailing.tailKept (h : w.AllTailing) : w.TailKept := by
  intro t ht hview before f after hsent htag
  exact (((h.tasks t ht).2 hview).tail before f after hsent htag).2

theorem allTailing_step (w : LoopWorld) (e : LoopWorldEvent) (w' : LoopWorld)
    (hstep : w.step e = some w') (hc : w.ExitPolledAtEnd e) (h : w.AllTailing) :
    w'.AllTailing := by
  have hnil : w.stream = w.stream ++ [] := (List.append_nil _).symm
  refine ⟨h.streamed.step hstep,h.numbered.step hstep,?_⟩
  have hstays : ∀ t ∈ w.tasks,w.KnowsExit t ∧ (t.view = none → w.Tailing t) →
      w'.KnowsExit t ∧ (t.view = none → w'.Tailing t) := by
    rintro t ht ⟨hknows,htail⟩
    exact ⟨hknows.stays hstep,fun hview => (htail hview).stays h.streamed ht hstep⟩
  refine forall_tasks_step
    (Q := fun w t => w.KnowsExit t ∧ (t.view = none → w.Tailing t)) hstep hstays ?_ ?_ ?_ h.tasks
  · rintro request rfl
    refine ⟨(knowsExit_counted h.numbered request).stays hstep,fun _ => ?_⟩
    obtain rfl := Option.some.inj hstep
    exact (tailing_counted w request).mono hnil (.inl rfl) fun _ hraw => hraw
  · rintro i viewFails t rfl hget hturn ⟨hknows,htail⟩
    refine ⟨(hknows.subscribe hturn viewFails).stays hstep,fun hview => ?_⟩
    obtain ⟨u,hu,-,rfl⟩ := step_subscribes hstep
    obtain rfl : t = u := Option.some.inj (hget.symm.trans hu)
    have hunsent := (htail (LoopTask.view_of_subscribe hview)).unsent (by simp [hturn])
    exact (tailing_subscribe h.streamed hunsent viewFails hview).mono hnil (.inl rfl) fun _ hraw => hraw
  · rintro i a t t' rfl hget hmove ⟨hknows,htail⟩
    refine ⟨(hknows.step hmove).stays hstep,fun hview => ?_⟩
    have hnone : t.view = none := by
      have hsame := hmove.view
      rw [hview,Option.isSome_none] at hsame
      exact Option.not_isSome_iff_eq_none.mp (by rw [← hsame]; simp)
    have hmoved : w.Tailing t' := by
      refine (htail hnone).step h.streamed hknows hnone hmove ?_
      rintro rfl
      exact hc t hget hnone
    obtain ⟨-,-,-,-,rfl⟩ := step_task hstep
    exact hmoved.mono hnil (.inl rfl) fun _ hraw => hraw

theorem not_tailKept (w : LoopWorld) (e : LoopWorldEvent) (w' : LoopWorld)
    (hstep : w.step e = some w') (hc : ¬w.ExitPolledAtEnd e) (h : w.AllTailing) :
    ¬w'.TailKept := by
  cases e with
  | task i a =>
    cases a with
    | polls =>
      simp only [ExitPolledAtEnd,not_forall] at hc
      obtain ⟨t,ht,hview,polled,hturn,e,he,hearly⟩ := hc
      have he : w.published = some e := he
      have hmem := List.mem_of_getElem? ht
      have hsome : w.exit.value.isSome = true := by
        rw [← h.streamed.published,he]
        rfl
      have hknows := (h.tasks t hmem).1
      have htail := (h.tasks t hmem).2 hview
      obtain ⟨rfl,hexited⟩ := hknows.exits ht hsome hturn hstep
      intro hkept
      obtain ⟨stop,hle,hwrote⟩ := hkept _ hexited hview t.handler.sent _ [] rfl rfl e he
      have hwrote : t.Wrote w.stream t.handler.sent stop := hwrote
      have hstop := hwrote.stop_unique (htail.polled polled hturn)
      omega
    | _ => exact absurd trivial hc
  | _ => exact absurd trivial hc

/-- The exit frames of raw clients come behind all output from before the exit, exactly when
no output and exit are both published between the data poll and the exit poll of one turn. -/
theorem always_tailKept_iff (log : SessionLog) (es : List LoopWorldEvent) :
    Transition.Always step TailKept (start log) es ↔
      Transition.Meets step ExitPolledAtEnd (start log) es :=
  Transition.always_iff_meets (fun _ h => h.tailKept) allTailing_step not_tailKept
    (allTailing_start log) es

/-- A client looks for output and finds none; then the last output and the exit come. -/
def lastByteRun : List LoopWorldEvent :=
  [.attach ⟨false,1,none⟩,.task 0 .observes,.subscribes 0 false,.task 0 .registers,.task 0 .polls,
    .broadcast [65] ⟨0,.ok,.ok⟩,.publishes ⟨some 0,false⟩,.task 0 .polls]

theorem exit_overtakes_last_byte : ∃ w,
    Transition.exec step (start ⟨[],by decide⟩) lastByteRun = some w ∧ ¬w.TailKept := by
  refine ⟨_,rfl,fun h => ?_⟩
  obtain ⟨stop,hle,hstart,hend,hwrote⟩ := h _ (List.mem_singleton.mpr rfl) rfl
    [⟨S_READY,[]⟩] _ [] rfl rfl 1 rfl
  obtain rfl : 0 = stop := hwrote
  cases hle

end LoopWorld
end Babysit
