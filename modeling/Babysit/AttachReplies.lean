import Babysit.AttachLoop

/-! The frames `handle_attach` writes, as the words of a grammar: readiness, output of one
kind, and one frame that ends the stream. -/
namespace Babysit

/-- The frames of `READY?`. -/
def readyFrames (ready : Bool) : List Frame := if ready then [⟨S_READY,[]⟩] else []

/-- A stream that is still open: `READY? kind*`. -/
def OpenReply (ready : Bool) (kind : UInt8) (frames : List Frame) : Prop :=
  ∃ data, frames = readyFrames ready ++ data ∧ ∀ f ∈ data,f.tag = kind

/-- A word of `READY? kind* (EXIT | DETACHED | ERROR)?`. -/
def ReplyWord (ready : Bool) (kind : UInt8) (frames : List Frame) : Prop :=
  ∃ data last, frames = readyFrames ready ++ data ++ last ∧ (∀ f ∈ data,f.tag = kind) ∧
    last.length ≤ 1 ∧ ∀ f ∈ last,f.tag = S_EXIT ∨ f.tag = S_DETACHED ∨ f.tag = S_ERROR

section grammar
variable {ready : Bool} {kind : UInt8} {frames : List Frame} {f : Frame}

theorem openReply_ready (ready : Bool) (kind : UInt8) : OpenReply ready kind (readyFrames ready) :=
  ⟨[],by simp,by rintro f ⟨⟩⟩

theorem OpenReply.snoc (h : OpenReply ready kind frames) (hf : f.tag = kind) :
    OpenReply ready kind (frames ++ [f]) := by
  obtain ⟨data,rfl,hdata⟩ := h
  refine ⟨data ++ [f],by rw [List.append_assoc],?_⟩
  intro g hg
  rcases List.mem_append.mp hg with hg | hg
  · exact hdata g hg
  · rw [List.mem_singleton.mp hg]
    exact hf

/-- An open stream may stop where it stands. -/
theorem OpenReply.word (h : OpenReply ready kind frames) : ReplyWord ready kind frames := by
  obtain ⟨data,rfl,hdata⟩ := h
  exact ⟨data,[],by rw [List.append_nil],hdata,by simp,by rintro f ⟨⟩⟩

theorem OpenReply.finish (h : OpenReply ready kind frames)
    (hf : f.tag = S_EXIT ∨ f.tag = S_DETACHED ∨ f.tag = S_ERROR) :
    ReplyWord ready kind (frames ++ [f]) := by
  obtain ⟨data,rfl,hdata⟩ := h
  refine ⟨data,[f],rfl,hdata,Nat.le_refl _,?_⟩
  intro g hg
  rw [List.mem_singleton.mp hg]
  exact hf

end grammar

/-- What the client's frames of output are: resumable ones for a raw client of protocol 1. -/
def AttachRequest.kind (r : AttachRequest) : UInt8 :=
  if 1 ≤ r.protocol ∧ r.viewCmd = false then S_OUTPUT_OFFSET else S_OUTPUT

/-- What the handler still has to replay or to forward is of this kind. -/
structure AttachHandler.Carries (h : AttachHandler) (kind : UInt8) : Prop where
  replays : ∀ offset stop, h.phase = .replaying offset stop → kind = S_OUTPUT_OFFSET
  pending : h.pending ≠ [] → kind = S_OUTPUT_OFFSET
  offset : ∀ rx, h.output = some (.offset rx) → kind = S_OUTPUT_OFFSET
  legacy : ∀ rx, h.output = some (.legacy rx) → kind = S_OUTPUT

namespace AttachHandler
variable {h h' : AttachHandler} {kind : UInt8}

/-- A handler without a receiver carries nothing. -/
theorem carries_empty (sent : List Frame) : Carries ⟨.streaming,[],none,sent⟩ kind :=
  ⟨by rintro _ _ ⟨⟩,fun hne => absurd rfl hne,by rintro _ ⟨⟩,by rintro _ ⟨⟩⟩

/-- What has been sent does not matter. -/
theorem Carries.resent (hc : h.Carries kind) (sent : List Frame) :
    Carries { h with sent := sent } kind := ⟨hc.replays,hc.pending,hc.offset,hc.legacy⟩

/-- A closed handler has nothing to replay. -/
theorem Carries.closed (hc : h.Carries kind) : Carries { h with phase := .closed } kind :=
  ⟨by rintro _ _ ⟨⟩,hc.pending,hc.offset,hc.legacy⟩

theorem Carries.forward (hc : h.Carries kind) {g : HubInner} (hstep : h.forward g = some h') :
    h'.Carries kind ∧ ∃ f : Frame, h'.sent = h.sent ++ [f] ∧ f.tag = kind := by
  unfold AttachHandler.forward at hstep
  split at hstep
  next chunk pending output hphase hpending =>
    obtain rfl := Option.some.inj hstep
    have hkind := hc.pending (by rw [hpending]; simp)
    exact ⟨⟨hc.replays,fun _ => hkind,hc.offset,hc.legacy⟩,_,rfl,hkind.symm⟩
  next rx hphase hpending houtput =>
    simp only [Option.bind_eq_bind,Option.bind_eq_some_iff,Option.some.injEq] at hstep
    obtain ⟨-,-,chunk,-,rfl⟩ := hstep
    have hkind := hc.offset rx houtput
    exact ⟨⟨hc.replays,hc.pending,fun _ _ => hkind,by rintro _ ⟨⟩⟩,_,rfl,hkind.symm⟩
  next rx hphase hpending houtput =>
    simp only [Option.bind_eq_bind,Option.bind_eq_some_iff,Option.some.injEq] at hstep
    obtain ⟨-,-,bytes,-,rfl⟩ := hstep
    have hkind := hc.legacy rx houtput
    exact ⟨⟨hc.replays,hc.pending,by rintro _ ⟨⟩,fun _ _ => hkind⟩,_,rfl,hkind.symm⟩
  next => cases hstep

theorem Carries.replayed (hc : h.Carries kind) {log : List UInt8} {n : ℕ}
    (hstep : h.replayed log n = some h') :
    h'.Carries kind ∧ ∃ f : Frame, h'.sent = h.sent ++ [f] ∧ f.tag = kind := by
  unfold AttachHandler.replayed at hstep
  split at hstep
  next offset stop hphase =>
    have hkind := hc.replays offset stop hphase
    split_ifs at hstep
    all_goals
      obtain rfl := Option.some.inj hstep
      exact ⟨⟨fun _ _ _ => hkind,hc.pending,hc.offset,hc.legacy⟩,_,rfl,hkind.symm⟩
  next => cases hstep

/-- A subscription fixes the kind by the protocol. -/
theorem carries_attach (g : HubInner) (protocol : UInt8) (since : Option ℕ) :
    Carries (attach g protocol since).1 (if 1 ≤ protocol then S_OUTPUT_OFFSET else S_OUTPUT) := by
  unfold attach
  split_ifs
  · split
    · exact ⟨by rintro _ _ ⟨⟩,fun hne => absurd rfl hne,by rintro _ ⟨⟩,by rintro _ ⟨⟩⟩
    · cases since <;> exact ⟨fun _ _ _ => rfl,fun _ => rfl,fun _ _ => rfl,by rintro _ ⟨⟩⟩
  · exact ⟨by rintro _ _ ⟨⟩,fun hne => absurd rfl hne,by rintro _ ⟨⟩,fun _ _ => rfl⟩

/-- A subscription that is not refused and replays announces readiness at once; a refusal says
so and ends. -/
theorem attach_announces {g : HubInner} {protocol : UInt8} {since : Option ℕ}
    (hphase : (attach g protocol since).1.phase ≠ .streaming) : 1 ≤ protocol ∧
      ((attach g protocol since).1.phase = .closed ∧
          (∃ error, (attach g protocol since).1.sent = readyFrames true ++ [errorFrame error]) ∨
        (attach g protocol since).1.phase ≠ .closed ∧
          (attach g protocol since).1.sent = readyFrames true) := by
  unfold attach at hphase ⊢
  split_ifs at hphase ⊢ with hp
  · refine ⟨hp,?_⟩
    split at hphase
    next error _ =>
      exact .inl ⟨rfl,error,rfl⟩
    next subscription g' _ =>
      cases since with
      | none => exact absurd rfl hphase
      | some offset =>
        right
        refine ⟨?_,rfl⟩
        dsimp only
        split_ifs <;> rintro ⟨⟩
  · exact absurd rfl hphase

end AttachHandler

namespace LoopTask

/-- What has been written by this turn; `failed` is an error on the connection, which may
come before the first frame. -/
def Spoken (failed : Prop) (t : LoopTask) : Prop :=
  match t.turn with
  | .counted | .observed =>
    t.handler.sent = [] ∧ t.handler.phase = .streaming ∧ t.readySent = false
  | .subscribed =>
    if t.readySent then OpenReply (1 ≤ t.request.protocol) t.request.kind t.handler.sent
    else t.handler.sent = [] ∧ t.handler.phase = .streaming
  | .data | .exit _ | .detach | .gone | .idle | .check =>
    OpenReply (1 ≤ t.request.protocol) t.request.kind t.handler.sent
  | .returned =>
    failed ∧ t.handler.sent = [] ∨
      ReplyWord (1 ≤ t.request.protocol) t.request.kind t.handler.sent

/-- The invariant of one task. -/
structure Obeys (failed : Prop) (t : LoopTask) : Prop where
  carries : t.handler.Carries t.request.kind
  view : t.view.isSome = true → t.request.kind = S_OUTPUT
  announced : t.readySent = true → 1 ≤ t.request.protocol
  spoken : t.Spoken failed

variable {failed : Prop} {t t' : LoopTask} {w : LoopWorld} {a : TaskEvent}

theorem obeys_counted (failed : Prop) (request : AttachRequest) (detach : Watch UInt64) :
    Obeys failed (.counted request detach) :=
  ⟨AttachHandler.carries_empty [],by rintro ⟨⟩,by rintro ⟨⟩,rfl,rfl,rfl⟩

/-- In the loop the stream is open. -/
theorem Obeys.inLoop (h : t.Obeys failed) (hin : t.turn.inLoop = true) :
    OpenReply (1 ≤ t.request.protocol) t.request.kind t.handler.sent := by
  have hspoken := h.spoken
  unfold Spoken at hspoken
  cases hturn : t.turn with
  | data | exit _ | detach | gone | idle | check => simpa only [hturn] using hspoken
  | counted | observed | subscribed | returned =>
    rw [hturn] at hin
    cases hin

/-- Before its loop a task has a stream that is open or one that has not begun. -/
theorem Obeys.subscribed (h : t.Obeys failed) (hturn : t.turn = .subscribed) :
    t.readySent = true ∧ OpenReply (1 ≤ t.request.protocol) t.request.kind t.handler.sent ∨
      t.readySent = false ∧ t.handler.sent = [] ∧ t.handler.phase = .streaming := by
  have hspoken := h.spoken
  simp only [Spoken,hturn] at hspoken
  split_ifs at hspoken with hready
  · exact .inl ⟨hready,hspoken⟩
  · exact .inr ⟨Bool.eq_false_iff.mpr hready,hspoken⟩

/-- A task has written nothing, or a word. -/
theorem Obeys.written (h : t.Obeys failed) :
    t.handler.sent = [] ∧ t.turn.inLoop = false ∧ (t.turn = .returned → failed) ∨
      ReplyWord (1 ≤ t.request.protocol) t.request.kind t.handler.sent := by
  have hspoken := h.spoken
  unfold Spoken at hspoken
  cases hturn : t.turn with
  | counted | observed =>
    rw [hturn] at hspoken
    exact .inl ⟨hspoken.1,rfl,by rintro ⟨⟩⟩
  | subscribed =>
    rcases h.subscribed hturn with ⟨-,hopen⟩ | ⟨-,hsent,-⟩
    · exact .inr hopen.word
    · exact .inl ⟨hsent,rfl,by rintro ⟨⟩⟩
  | data | exit _ | detach | gone | idle | check => exact .inr (h.inLoop (by rw [hturn]; rfl)).word
  | returned =>
    rw [hturn] at hspoken
    rcases hspoken with ⟨hfailed,hsent⟩ | hword
    · exact .inl ⟨hsent,rfl,fun _ => hfailed⟩
    · exact .inr hword

/-- A task whose connection fails has written a word or nothing. -/
theorem Obeys.fails (h : t.Obeys failed) (hfailed : failed) : t.returns.Obeys failed := by
  refine ⟨h.carries.closed,h.view,h.announced,?_⟩
  rcases h.written with ⟨hsent,-⟩ | hword
  · exact .inl ⟨hfailed,hsent⟩
  · exact .inr hword

/-- Readiness stands first once the task is in its loop. -/
theorem Obeys.announce (h : t.Obeys failed) (hturn : t.turn = .subscribed) :
    OpenReply (1 ≤ t.request.protocol) t.request.kind t.announce.sent := by
  unfold LoopTask.announce
  rcases h.subscribed hturn with ⟨hready,hopen⟩ | ⟨hready,hsent,-⟩
  · rw [if_neg (by simp [hready])]
    exact hopen
  · by_cases hp : 1 ≤ t.request.protocol
    · rw [if_pos ⟨hp,hready⟩,AttachHandler.send,hsent,decide_eq_true hp]
      exact openReply_ready true _
    · rw [if_neg fun hboth => hp hboth.1,hsent,decide_eq_false hp]
      exact openReply_ready false _

/-- An exit frame is written from the loop. -/
theorem ExitReason.inLoop (h : t.ExitReason w) : t.turn.inLoop = true := by
  cases h with
  | closed hturn | seen hturn | silent hturn | drained hturn =>
    rw [hturn]
    rfl

theorem Obeys.subscribe (h : t.Obeys failed) (hturn : t.turn = .observed) (g : HubInner)
    (viewFails : Bool) : (t.subscribe g viewFails).1.Obeys failed := by
  obtain ⟨hsent,hphase,hready⟩ : t.handler.sent = [] ∧ t.handler.phase = .streaming ∧
      t.readySent = false := by
    have hspoken := h.spoken
    simp only [Spoken,hturn] at hspoken
    exact hspoken
  unfold LoopTask.subscribe
  cases hcmd : t.request.viewCmd with
  | true =>
    have hkind : t.request.kind = S_OUTPUT := by simp [AttachRequest.kind,hcmd]
    simp only [if_true]
    cases viewFails with
    | true =>
      refine ⟨?_,fun _ => hkind,h.announced,?_⟩
      · exact hkind ▸ AttachHandler.carries_attach g 0 none
      · simp only [Spoken,hready]
        exact ⟨rfl,rfl⟩
    | false =>
      refine ⟨h.carries,fun _ => hkind,h.announced,?_⟩
      simp only [Spoken,hready]
      exact ⟨hsent,hphase⟩
  | false =>
    have hkind : t.request.kind = if 1 ≤ t.request.protocol then S_OUTPUT_OFFSET else S_OUTPUT := by
      simp [AttachRequest.kind,hcmd]
    have hcarries := AttachHandler.carries_attach g t.request.protocol t.request.since
    rw [← hkind] at hcarries
    by_cases hstreaming : (AttachHandler.attach g t.request.protocol t.request.since).1.phase = .streaming
    · refine ⟨hcarries.resent _,h.view,by simp [hstreaming],?_⟩
      simp [Spoken,hstreaming]
    · obtain ⟨hp,⟨hclosed,error,hsent⟩ | ⟨hopen,hsent⟩⟩ := AttachHandler.attach_announces hstreaming
      · refine ⟨hcarries.resent _,h.view,fun _ => hp,?_⟩
        simp only [Spoken,hclosed,Bool.false_eq_true,if_true,if_false,ne_eq,reduceCtorEq,
          not_false_eq_true,hsent,hp,decide_true]
        exact .inr ((openReply_ready true _).finish (.inr (.inr rfl)))
      · refine ⟨hcarries.resent _,h.view,fun _ => hp,?_⟩
        simp only [Spoken,hopen,hstreaming,Bool.false_eq_true,if_true,if_false,ne_eq,
          not_false_eq_true,hsent,hp,decide_true]
        exact openReply_ready true _


theorem Obeys.step (h : t.Obeys failed) (hmove : Move t w a t') (hfails : a = .fails → failed) :
    t'.Obeys failed := by
  cases hmove with
  | observes hturn =>
    have hspoken := h.spoken
    simp only [Spoken,hturn] at hspoken
    exact ⟨h.carries,h.view,h.announced,hspoken⟩
  | replays hturn hreplayed =>
    obtain ⟨hcarries,f,hsent,hf⟩ := h.carries.replayed hreplayed
    refine ⟨hcarries,h.view,h.announced,?_⟩
    rcases h.subscribed hturn with ⟨hready,hopen⟩ | ⟨-,-,hphase⟩
    · simp only [Spoken,hturn,hready,if_true]
      rw [hsent]
      exact hopen.snoc hf
    · simp [AttachHandler.replayed,hphase] at hreplayed
  | replayFails hturn hphase =>
    refine ⟨(h.carries.resent _).closed,h.view,h.announced,?_⟩
    rcases h.subscribed hturn with ⟨-,hopen⟩ | ⟨-,-,hstreaming⟩
    · exact .inr (hopen.finish (.inr (.inr rfl)))
    · exact absurd hstreaming hphase
  | registers hturn =>
    refine ⟨?_,h.view,h.announced,h.announce hturn⟩
    unfold LoopTask.announce
    split_ifs
    · exact h.carries.resent _
    · exact h.carries
  | leaves => exact ⟨h.carries,h.view,h.announced,h.spoken⟩
  | formats hview | formatterCloses hview =>
    exact ⟨h.carries,fun _ => h.view (by rw [hview]; rfl),h.announced,h.spoken⟩
  | fails => exact h.fails (hfails rfl)
  | viewForwards hturn hview =>
    have hkind := h.view (by rw [hview]; rfl)
    have hopen := h.inLoop (by rw [hturn]; rfl)
    exact ⟨h.carries.resent _,fun _ => hkind,h.announced,hopen.snoc hkind.symm⟩
  | exits hreason =>
    have hopen := h.inLoop hreason.inLoop
    exact ⟨(h.carries.resent _).closed,h.view,h.announced,.inr (hopen.finish (.inl rfl))⟩
  | viewDetaches hturn | detaches hturn =>
    have hopen := h.inLoop (by rw [hturn]; rfl)
    exact ⟨(h.carries.resent _).closed,h.view,h.announced,.inr (hopen.finish (.inr (.inl rfl)))⟩
  | forwards hturn _ hforward =>
    obtain ⟨hcarries,f,hsent,hf⟩ := h.carries.forward hforward
    refine ⟨hcarries,h.view,h.announced,?_⟩
    have hopen := h.inLoop (by rw [hturn]; rfl)
    simp only [Spoken,completes]
    rw [hsent]
    exact hopen.snoc hf
  | goes hturn =>
    have hopen := h.inLoop (by rw [hturn]; rfl)
    exact ⟨h.carries.closed,h.view,h.announced,.inr hopen.word⟩
  | findsNothing hturn | seesNoExit hturn | noExit hturn | noDetach hturn | stays hturn
  | waits hturn | unarmed hturn | goesOn hturn =>
    have hopen := h.inLoop (by rw [hturn]; rfl)
    exact ⟨h.carries,h.view,h.announced,hopen⟩

end LoopTask

namespace LoopWorld

/-- Each task obeys the grammar; it may have failed if that is an event of the run. -/
theorem obeys_step {es : List LoopWorldEvent} (w : LoopWorld) (e : LoopWorldEvent) (w' : LoopWorld)
    (hstep : w.step e = some w') (he : e ∈ es)
    (hw : ∀ (i : ℕ) (t : LoopTask), w.tasks[i]? = some t → t.Obeys (.task i .fails ∈ es)) :
    ∀ (i : ℕ) (t : LoopTask), w'.tasks[i]? = some t → t.Obeys (.task i .fails ∈ es) := by
  refine forall_getElem_step (Q := fun _ i t => t.Obeys (.task i .fails ∈ es)) hstep
    (fun _ _ _ ht => ht) ?_ ?_ ?_ hw
  · exact fun _ request _ => LoopTask.obeys_counted _ request w.detach
  · exact fun _ viewFails _ _ _ hturn ht => ht.subscribe hturn w.hub viewFails
  · rintro i a t t' rfl _ hmove ht
    refine ht.step hmove ?_
    rintro rfl
    exact he

theorem obeys_run (log : SessionLog) {es : List LoopWorldEvent} {w : LoopWorld}
    (hrun : Transition.exec step (start log) es = some w) {i : ℕ} {t : LoopTask}
    (ht : w.tasks[i]? = some t) : t.Obeys (.task i .fails ∈ es) := by
  have hmeets : Transition.Meets step (fun _ e => e ∈ es) (start log) es :=
    Transition.meets_of_forall (fun _ he => he) _
  refine (Transition.always_of_meets obeys_step (fun _ h => h) hmeets ?_).last hrun i t ht
  rintro i t ⟨⟩

/-- What a client of a worker is sent is a word of the grammar, with readiness first exactly
in protocol 1, unless nothing has been sent yet or its connection failed before that. -/
theorem reply_word (log : SessionLog) {es : List LoopWorldEvent} {w : LoopWorld}
    (hrun : Transition.exec step (start log) es = some w) {i : ℕ} {t : LoopTask}
    (ht : w.tasks[i]? = some t) :
    t.handler.sent = [] ∧ t.turn.inLoop = false ∧
        (t.turn = .returned → LoopWorldEvent.task i .fails ∈ es) ∨
      ReplyWord (1 ≤ t.request.protocol) t.request.kind t.handler.sent := by
  exact (obeys_run log hrun ht).written

/-- A client resumes at the start of a log of two bytes and stays until the exit. -/
def resumedRun : List LoopWorldEvent :=
  [.attach ⟨false,1,some 0⟩,.task 0 .observes,.subscribes 0 false,.task 0 (.replays 2),
    .task 0 .registers,.publishes ⟨some 0,false⟩,.task 0 .polls,.task 0 .polls]

theorem reply_word_resumed : ∃ w t,
    Transition.exec step (start ⟨[65,66],by decide⟩) resumedRun = some w ∧ w.tasks[0]? = some t ∧
      t.turn = .returned ∧ ReplyWord true S_OUTPUT_OFFSET t.handler.sent := by
  refine ⟨_,_,rfl,rfl,rfl,?_⟩
  refine (@reply_word ⟨[65,66],by decide⟩ resumedRun _ rfl 0 _ rfl).resolve_left ?_
  rintro ⟨⟨⟩,-⟩

end LoopWorld
end Babysit
