import Babysit.AttachLoop

/-! The end of a worker whose loop is over: it writes the terminal status and waits for the
response to a kill, for the reader of the pane, and, once the exit is published, for the clients
attached to it. No wait is for good, and the tasks of the clients end with the worker. An error of
the loop or of that write ends it at once. -/
namespace Babysit

/-- The waits, and the pause between two looks at the number of clients, in milliseconds. -/
def RESPONSE_GRACE : ℕ := 2000
def READER_GRACE : ℕ := 500
def ATTACHED_GRACE : ℕ := 2000
def ATTACHED_POLL : ℕ := 20

/-- Where the worker is, and since when; with the time of its next look while it lingers. One that
has `failed` has returned an error. -/
inductive EndPhase
  | supervising
  | recording (since : ℕ)
  | flushing (since : ℕ)
  | draining (since : ℕ)
  | lingering (since wakeAt : ℕ)
  | cleaning (since : ℕ)
  | gone
  | failed
  deriving DecidableEq, Repr

/-- `flushed` and `drained` tell that the response to a kill is flushed and that the reader is
done. The ghosts are the end of the loop and whether a kill ended it, the publication, how many
tasks there were then, and whose connections have failed. -/
structure EndWorld where
  loop : LoopWorld
  phase : EndPhase
  flushed : Bool
  drained : Bool
  endedAt : ℕ
  killed : Bool
  publishedAt : ℕ
  served : ℕ
  failed : List ℕ

inductive EndEvent
  | loop (e : LoopWorldEvent)
  | flushes
  | drains
  | fails
  | breaks (killed : Bool)
  | records (failed : Bool)
  | goesOn
  | publishes (info : ExitInfo)
  | looks
  | exits

/-- The exit is published by the worker alone. -/
def LoopWorldEvent.isPublication : LoopWorldEvent → Bool
  | .publishes _ => true
  | _ => false

/-- The task whose connection fails. -/
def LoopWorldEvent.failing : LoopWorldEvent → Option ℕ
  | .task i .fails => some i
  | _ => none

/-- The last frame tells the client that this is the end. -/
def LoopTask.Told (t : LoopTask) : Prop :=
  ∃ f ∈ t.handler.sent.getLast?, f.tag = S_EXIT ∨ f.tag = S_DETACHED ∨ f.tag = S_ERROR

namespace EndWorld

def start (log : SessionLog) : EndWorld := ⟨.start log,.supervising,false,false,0,false,0,0,[]⟩

/-- The counter: every task holds a guard until it returns. -/
def attached (w : EndWorld) : ℕ := w.loop.tasks.countP fun t => t.turn ≠ .returned

/-- What comes of a look at the counter. -/
def looked (w : EndWorld) (since : ℕ) : EndPhase :=
  if 0 < w.attached ∧ w.loop.now < since + ATTACHED_GRACE then
    .lingering since (w.loop.now + ATTACHED_POLL)
  else .cleaning w.loop.now

def step (w : EndWorld) : EndEvent → Option EndWorld
  | .loop e =>
    if w.phase ≠ .gone ∧ w.phase ≠ .failed ∧ e.isPublication = false then
      (w.loop.step e).map fun loop =>
        { w with loop := loop, failed := e.failing.toList ++ w.failed }
    else none
  | .flushes => some { w with flushed := true }
  | .drains => some { w with drained := true }
  -- a termination, a respawn or the status of a restart fails
  | .fails => if w.phase = .supervising then some { w with phase := .failed } else none
  | .breaks killed =>
    if w.phase = .supervising then
      some { w with phase := .recording w.loop.now, endedAt := w.loop.now, killed := killed }
    else none
  -- the status of a kill is written before its response, any other behind the loop
  | .records failed =>
    match w.phase with
    | .recording _ =>
      if failed then some { w with phase := .failed }
      else if w.killed then some { w with phase := .flushing w.loop.now }
      else some { w with phase := .draining w.loop.now }
    | _ => none
  | .goesOn =>
    match w.phase with
    | .flushing since =>
      if w.flushed ∨ since + RESPONSE_GRACE ≤ w.loop.now then
        some { w with phase := .draining w.loop.now }
      else none
    | _ => none
  | .publishes info =>
    match w.phase with
    | .draining since =>
      if w.drained ∨ since + READER_GRACE ≤ w.loop.now then
        (w.loop.step (.publishes info)).map fun loop =>
          { w with
            loop := loop, phase := .lingering w.loop.now w.loop.now, publishedAt := w.loop.now
            served := w.loop.tasks.length }
      else none
    | _ => none
  | .looks =>
    match w.phase with
    | .lingering since wakeAt =>
      if wakeAt ≤ w.loop.now then
        some { w with phase := w.looked since }
      else none
    | _ => none
  | .exits =>
    match w.phase with
    | .cleaning _ => some { w with phase := .gone }
    | _ => none

/-- When the worker has to act at the latest. -/
def due (w : EndWorld) : Option ℕ :=
  match w.phase with
  | .flushing since => some (since + RESPONSE_GRACE)
  | .draining since => some (since + READER_GRACE)
  | .lingering _ wakeAt => some wakeAt
  | .recording since | .cleaning since => some since
  | .supervising | .gone | .failed => none

/-- The worker is scheduled within `delay` of being due. -/
def Prompt (delay : ℕ) (w : EndWorld) : EndEvent → Prop
  | .loop (.tick ms) => ∀ due ∈ w.due, w.loop.now + ms ≤ due + delay
  | _ => True

instance (delay : ℕ) (w : EndWorld) : (e : EndEvent) → Decidable (Prompt delay w e)
  | .loop (.tick ms) => inferInstanceAs (Decidable (∀ due ∈ w.due, w.loop.now + ms ≤ due + delay))
  | .loop (.broadcast _ _) | .loop (.publishes _) | .loop .requestsDetach | .loop (.attach _)
  | .loop (.subscribes _ _) | .loop (.task _ _) | .loop (.dropClient _)
  | .loop (.dropResumeClient _) | .flushes | .drains | .fails | .breaks _ | .records _ | .goesOn
  | .publishes _ | .looks | .exits => .isTrue trivial

/-- How the client was let go: it had left, or its connection failed, or it was told why. -/
def LetGo (w : EndWorld) (i : ℕ) (t : LoopTask) : Prop :=
  t.clientGone = true ∨ i ∈ w.failed ∨ t.Told

/-- All that the end of a worker waits for has happened, or has been waited for long enough. -/
structure Graceful (w : EndWorld) : Prop where
  answered : w.killed = true → w.flushed = true ∨ w.endedAt + RESPONSE_GRACE ≤ w.loop.now
  drained : w.drained = true ∨ w.endedAt + READER_GRACE ≤ w.loop.now
  served : w.publishedAt + ATTACHED_GRACE ≤ w.loop.now ∨
    ∀ i < w.served, ∃ t, w.loop.tasks[i]? = some t ∧ t.turn = .returned ∧ w.LetGo i t

/-- The response to a kill is flushed or has had its time. -/
def Answered (w : EndWorld) : Prop :=
  w.killed = true → w.flushed = true ∨ w.endedAt + RESPONSE_GRACE ≤ w.loop.now

def Drained (w : EndWorld) : Prop :=
  w.drained = true ∨ w.endedAt + READER_GRACE ≤ w.loop.now

/-- The tasks there were at the publication have returned or have had their time. -/
def Served (w : EndWorld) : Prop :=
  w.publishedAt + ATTACHED_GRACE ≤ w.loop.now ∨
    ∀ i < w.served, ∃ t, w.loop.tasks[i]? = some t ∧ t.turn = .returned

/-- What has been waited for, by the phase, and how late it can be. -/
def InPhase (delay : ℕ) (w : EndWorld) : Prop :=
  match w.phase with
  | .supervising | .failed => True
  | .recording since => since = w.endedAt
  | .flushing since => w.endedAt ≤ since ∧ since ≤ w.endedAt + delay
  | .draining since =>
    w.Answered ∧ w.endedAt ≤ since ∧ since ≤ w.endedAt + RESPONSE_GRACE + 2*delay
  | .lingering since wakeAt =>
    w.Answered ∧ w.Drained ∧ w.served ≤ w.loop.tasks.length ∧ since = w.publishedAt ∧
      since ≤ w.endedAt + RESPONSE_GRACE + READER_GRACE + 3*delay ∧
      wakeAt ≤ since + ATTACHED_GRACE + ATTACHED_POLL
  | .cleaning since =>
    w.Answered ∧ w.Drained ∧ w.Served ∧ since ≤
      w.endedAt + RESPONSE_GRACE + READER_GRACE + ATTACHED_GRACE + ATTACHED_POLL + 4*delay
  | .gone => w.Graceful ∧ w.loop.now ≤
      w.endedAt + RESPONSE_GRACE + READER_GRACE + ATTACHED_GRACE + ATTACHED_POLL + 5*delay

/-- The exit has not been published yet. -/
def isEarly (w : EndWorld) : Bool :=
  match w.phase with
  | .supervising | .recording _ | .flushing _ | .draining _ => true
  | .lingering _ _ | .cleaning _ | .gone | .failed => false

/-- The invariant. -/
structure Kept (delay : ℕ) (w : EndWorld) : Prop where
  told : ∀ i t, w.loop.tasks[i]? = some t → t.turn = .returned → w.LetGo i t
  prompt : ∀ due ∈ w.due, w.loop.now ≤ due + delay
  inPhase : w.InPhase delay
  unpublished : w.isEarly = true → w.loop.exit.value = none
  ended : w.endedAt ≤ w.loop.now

end EndWorld

namespace AttachHandler

/-- A refused subscription says so. -/
theorem attach_closed {g : HubInner} {protocol : UInt8} {since : Option ℕ}
    (h : (attach g protocol since).1.phase = .closed) :
    ∃ error, (attach g protocol since).1.sent = [⟨S_READY,[]⟩,errorFrame error] := by
  unfold attach at h ⊢
  split_ifs at h ⊢ with hp
  · split at h
    · next error hsub => exact ⟨error,rfl⟩
    · next subscription g' hsub =>
      cases since with
      | none => cases h
      | some offset =>
        dsimp only at h
        split_ifs at h

end AttachHandler

namespace LoopTask
variable {t t' : LoopTask} {w : LoopWorld} {a : TaskEvent}

theorem told_of_finish {f : Frame} (hf : f.tag = S_EXIT ∨ f.tag = S_DETACHED ∨ f.tag = S_ERROR)
    (h : t'.handler = t.handler.finish f) : t'.Told :=
  ⟨f,by simp [h,AttachHandler.finish,AttachHandler.send],hf⟩

theorem told_of_subscribe {g : HubInner} {viewFails : Bool}
    (h : (t.subscribe g viewFails).1.turn = .returned) : (t.subscribe g viewFails).1.Told := by
  unfold subscribe at h ⊢
  split_ifs at h ⊢ with hview hfails
  dsimp only at h ⊢
  split_ifs at h with hclosed
  obtain ⟨error,hsent⟩ := AttachHandler.attach_closed hclosed
  exact ⟨errorFrame error,by simp [hclosed,hsent],.inr (.inr rfl)⟩

/-- A task that returns has told its client why, or has lost it. -/
theorem told_of_step (h : t.step w a = some t') (hreturned : t'.turn = .returned) :
    t.turn = .returned ∧ t'.handler = t.handler ∧ (t.clientGone = true → t'.clientGone = true) ∨
      t'.clientGone = true ∨ a = .fails ∨ t'.Told := by
  cases step_move h with
  | observes | registers | viewForwards | forwards | findsNothing | seesNoExit | noExit
  | noDetach | stays | waits | unarmed | goesOn => cases hreturned
  | replays hturn =>
    dsimp only at hreturned
    rw [hturn] at hreturned
    cases hreturned
  | leaves => exact .inl ⟨hreturned,rfl,fun _ => rfl⟩
  | formats => exact .inl ⟨hreturned,rfl,id⟩
  | formatterCloses => exact .inl ⟨hreturned,rfl,id⟩
  | fails => exact .inr (.inr (.inl rfl))
  | replayFails => exact .inr (.inr (.inr (told_of_finish (.inr (.inr rfl)) rfl)))
  | exits => exact .inr (.inr (.inr (told_of_finish (.inl rfl) rfl)))
  | viewDetaches => exact .inr (.inr (.inr (told_of_finish (.inr (.inl rfl)) rfl)))
  | detaches => exact .inr (.inr (.inr (told_of_finish (.inr (.inl rfl)) rfl)))
  | goes hturn =>
    -- this branch is taken for the client's leaving alone
    simp only [step,poll,hturn,pollGone] at h
    cases hgone : t.clientGone with
    | true => exact .inr (.inl hgone)
    | false =>
      rw [hgone] at h
      cases h

end LoopTask

namespace LoopWorld
variable {w w' : LoopWorld} {e : LoopWorldEvent}

/-- A task that has returned has returned for good. -/
theorem returned_stays (h : w.step e = some w') {i : ℕ} {t : LoopTask}
    (ht : w.tasks[i]? = some t) (hturn : t.turn = .returned) :
    ∃ t', w'.tasks[i]? = some t' ∧ t'.turn = .returned := by
  have hlt := (List.getElem?_eq_some_iff.mp ht).1
  cases step_move h with
  | attach => exact ⟨t,(List.getElem?_append_left hlt).trans ht,hturn⟩
  | @subscribes j viewFails u hu hobserved =>
    by_cases hj : j = i
    · subst hj
      obtain rfl := Option.some.inj (ht.symm.trans hu)
      rw [hturn] at hobserved
      cases hobserved
    · exact ⟨t,(List.getElem?_set_ne hj).trans ht,hturn⟩
  | @task j a u u' hu hmove =>
    by_cases hj : j = i
    · subst hj
      obtain rfl := Option.some.inj (ht.symm.trans hu)
      refine ⟨u',List.getElem?_set_self hlt,?_⟩
      by_contra hne
      exact hmove.not_returned hne hturn
    · exact ⟨t,(List.getElem?_set_ne hj).trans ht,hturn⟩
  | broadcast | publishes | requestsDetach | tick | dropClient | dropResumeClient =>
    exact ⟨t,ht,hturn⟩

theorem step_length (h : w.step e = some w') : w.tasks.length ≤ w'.tasks.length := by
  cases step_move h with
  | attach => simp
  | subscribes | task => simp
  | broadcast | publishes | requestsDetach | tick | dropClient | dropResumeClient =>
    exact Nat.le_refl _

/-- Only the clock moves the time. -/
theorem step_now (h : w.step e = some w') : w'.now = w.now ∨ ∃ ms, e = .tick ms ∧
    w'.now = w.now + ms := by
  cases step_move h with
  | @tick ms => exact .inr ⟨ms,rfl,rfl⟩
  | broadcast | publishes | requestsDetach | attach | subscribes | task | dropClient
  | dropResumeClient => exact .inl rfl

/-- Only the worker publishes. -/
theorem step_exit (h : w.step e = some w') (he : e.isPublication = false) : w'.exit = w.exit := by
  cases step_move h with
  | publishes => cases he
  | broadcast | requestsDetach | tick | attach | subscribes | task | dropClient
  | dropResumeClient => rfl

end LoopWorld

namespace EndWorld
variable {delay : ℕ} {w w' : EndWorld} {e : EndEvent} {loop : LoopWorld} {d : LoopWorldEvent}

/-- A step of the clients' tasks or of what they are served. -/
theorem Kept.told_loop (h : w.Kept delay) (hstep : w.loop.step d = some loop) (i : ℕ)
    (t : LoopTask) (ht : loop.tasks[i]? = some t) (hturn : t.turn = .returned) :
    LetGo { w with loop := loop, failed := d.failing.toList ++ w.failed } i t := by
  have hold : ∀ u, w.loop.tasks[i]? = some u → u.turn = .returned →
      LetGo { w with loop := loop, failed := d.failing.toList ++ w.failed } i u := by
    intro u hu hreturned
    rcases h.told i u hu hreturned with hgone | hfailed | htold
    · exact .inl hgone
    · exact .inr (.inl (List.mem_append_right _ hfailed))
    · exact .inr (.inr htold)
  cases d with
  | task j a =>
    obtain ⟨u,u',hu,hmove,rfl⟩ := LoopWorld.step_task hstep
    rcases getElem?_set_cases ht with ⟨rfl,rfl⟩ | ht
    · rcases LoopTask.told_of_step hmove hturn with ⟨hreturned,hhandler,hgone⟩ | hgone | rfl | htold
      · rcases hold u hu hreturned with hleft | hfailed | ⟨f,hf,htag⟩
        · exact .inl (hgone hleft)
        · exact .inr (.inl hfailed)
        · exact .inr (.inr ⟨f,hhandler ▸ hf,htag⟩)
      · exact .inl hgone
      · exact .inr (.inl (by simp [LoopWorldEvent.failing]))
      · exact .inr (.inr htold)
    · exact hold t ht hturn
  | subscribes j viewFails =>
    obtain ⟨u,hu,hobserved,rfl⟩ := LoopWorld.step_subscribes hstep
    rcases getElem?_set_cases ht with ⟨rfl,rfl⟩ | ht
    · exact .inr (.inr (LoopTask.told_of_subscribe hturn))
    · exact hold t ht hturn
  | attach request =>
    obtain rfl := Option.some.inj hstep
    dsimp only at ht
    rw [List.getElem?_append] at ht
    split_ifs at ht
    · exact hold t ht hturn
    · rw [List.mem_singleton.mp (List.mem_of_getElem? ht)] at hturn
      cases hturn
  | broadcast data io =>
    obtain ⟨-,hstep⟩ := Option.ite_none_right_eq_some.mp hstep
    obtain rfl := Option.some.inj hstep
    exact hold t ht hturn
  | publishes info =>
    obtain ⟨-,hstep⟩ := Option.ite_none_right_eq_some.mp hstep
    obtain rfl := Option.some.inj hstep
    exact hold t ht hturn
  | requestsDetach =>
    obtain rfl := Option.some.inj hstep
    exact hold t ht hturn
  | tick ms =>
    obtain rfl := Option.some.inj hstep
    exact hold t ht hturn
  | dropClient k =>
    cases LoopWorld.step_move hstep
    exact hold t ht hturn
  | dropResumeClient k =>
    cases LoopWorld.step_move hstep
    exact hold t ht hturn

theorem Answered.later (h : w.Answered) (hkilled : w'.killed = w.killed)
    (hflushed : w.flushed = true → w'.flushed = true) (hended : w'.endedAt = w.endedAt)
    (hnow : w.loop.now ≤ w'.loop.now) : w'.Answered := by
  intro hk
  rcases h (hkilled ▸ hk) with hdone | hlate
  · exact .inl (hflushed hdone)
  · exact .inr (by omega)

theorem Drained.later (h : w.Drained) (hdrained : w.drained = true → w'.drained = true)
    (hended : w'.endedAt = w.endedAt) (hnow : w.loop.now ≤ w'.loop.now) : w'.Drained := by
  rcases h with hdone | hlate
  · exact .inl (hdrained hdone)
  · exact .inr (by omega)

/-- A step of the loop's world while the worker waits. -/
theorem Kept.tasks (h : w.Kept delay) (hphase : w.phase ≠ .gone) (hd : d.isPublication = false)
    (hstep : w.loop.step d = some loop) (hprompt : Prompt delay w (.loop d)) :
    Kept delay { w with loop := loop, failed := d.failing.toList ++ w.failed } := by
  have hnow : w.loop.now ≤ loop.now := (LoopWorld.step_frame hstep).1
  refine ⟨h.told_loop hstep,fun due hdue => ?_,?_,fun hearly => ?_,Nat.le_trans h.ended hnow⟩
  · have hold := h.prompt due hdue
    rcases LoopWorld.step_now hstep with hsame | ⟨ms,rfl,hticks⟩
    · dsimp only
      omega
    · have hlate := hprompt due hdue
      dsimp only
      omega
  · have hin := h.inPhase
    unfold InPhase at hin ⊢
    dsimp only
    cases hw : w.phase with
    | supervising | failed => trivial
    | recording since | flushing since =>
      rw [hw] at hin
      exact hin
    | draining since =>
      rw [hw] at hin
      obtain ⟨hanswered,hrest⟩ := hin
      exact ⟨hanswered.later rfl id rfl hnow,hrest⟩
    | lingering since wakeAt =>
      rw [hw] at hin
      obtain ⟨hanswered,hdrained,hserved,hrest⟩ := hin
      exact ⟨hanswered.later rfl id rfl hnow,hdrained.later id rfl hnow,
        Nat.le_trans hserved (LoopWorld.step_length hstep),hrest⟩
    | cleaning since =>
      rw [hw] at hin
      obtain ⟨hanswered,hdrained,hserved,hrest⟩ := hin
      refine ⟨hanswered.later rfl id rfl hnow,hdrained.later id rfl hnow,?_,hrest⟩
      rcases hserved with hlate | hreturned
      · exact .inl (Nat.le_trans hlate hnow)
      · refine .inr fun i hi => ?_
        obtain ⟨t,ht,hturn⟩ := hreturned i hi
        exact LoopWorld.returned_stays hstep ht hturn
    | gone => exact absurd hw hphase
  · dsimp only
    rw [LoopWorld.step_exit hstep hd]
    exact h.unpublished hearly

/-- When a look finds no client, all the tasks have returned. -/
theorem returned_of_attached (h : w.attached = 0) {i : ℕ} (hi : i < w.loop.tasks.length) :
    ∃ t, w.loop.tasks[i]? = some t ∧ t.turn = .returned := by
  refine ⟨_,List.getElem?_eq_getElem hi,?_⟩
  have hnone := List.countP_eq_zero.mp h _ (List.getElem_mem hi)
  simpa using hnone

theorem Kept.looks (h : w.Kept delay) {since wakeAt : ℕ} (hphase : w.phase = .lingering since wakeAt) :
    Kept delay { w with phase := w.looked since } := by
  have hin := h.inPhase
  simp only [InPhase,hphase] at hin
  obtain ⟨hanswered,hdrained,hserved,hsince,hbound,hwake⟩ := hin
  have hnow := h.prompt wakeAt (by simp [due,hphase])
  unfold looked
  split_ifs with hagain
  · refine ⟨h.told,?_,⟨hanswered,hdrained,hserved,hsince,hbound,?_⟩,by rintro ⟨⟩,h.ended⟩
    · rintro due ⟨⟩
      dsimp only
      omega
    · omega
  · refine ⟨h.told,?_,⟨hanswered,hdrained,?_,?_⟩,by rintro ⟨⟩,h.ended⟩
    · rintro due ⟨⟩
      exact Nat.le_add_right _ _
    · rcases Nat.eq_zero_or_pos w.attached with hnone | hsome
      · exact .inr fun i hi => returned_of_attached hnone (Nat.lt_of_lt_of_le hi hserved)
      · refine .inl ?_
        dsimp only
        omega
    · dsimp only
      omega

/-- The status is written, and the waits begin. -/
theorem Kept.records (h : w.Kept delay) {since : ℕ} (hphase : w.phase = .recording since) :
    Kept delay { w with
      phase := if w.killed then .flushing w.loop.now else .draining w.loop.now } := by
  have hin := h.inPhase
  simp only [InPhase,hphase] at hin
  subst hin
  have hnow := h.prompt _ (by rw [due,hphase]; rfl)
  have hunpublished := h.unpublished (by rw [isEarly,hphase])
  cases hkilled : w.killed with
  | true =>
    refine ⟨h.told,?_,⟨h.ended,hnow⟩,fun _ => hunpublished,h.ended⟩
    rintro due ⟨⟩
    dsimp only
    omega
  | false =>
    refine ⟨h.told,?_,⟨?_,h.ended,?_⟩,fun _ => hunpublished,h.ended⟩
    · rintro due ⟨⟩
      dsimp only
      omega
    · rintro ⟨⟩
    · dsimp only
      omega

theorem step_kept (w : EndWorld) (e : EndEvent) (w' : EndWorld) (hstep : w.step e = some w')
    (hprompt : Prompt delay w e) (h : w.Kept delay) : w'.Kept delay := by
  have hin := h.inPhase
  cases e with
  | loop d =>
    obtain ⟨⟨hphase,-,hd⟩,hstep⟩ := Option.ite_none_right_eq_some.mp hstep
    obtain ⟨loop,hloop,rfl⟩ := Option.map_eq_some_iff.mp hstep
    exact h.tasks hphase hd hloop hprompt
  | flushes =>
    obtain rfl := Option.some.inj hstep
    refine ⟨h.told,h.prompt,?_,h.unpublished,h.ended⟩
    unfold InPhase at hin ⊢
    have hlater : w.Answered → Answered { w with flushed := true } := fun _ _ => .inl rfl
    cases hw : w.phase with
    | supervising | failed => trivial
    | recording since | flushing since =>
      rw [hw] at hin
      exact hin
    | draining since | lingering since wakeAt | cleaning since =>
      rw [hw] at hin
      exact ⟨hlater hin.1,hin.2⟩
    | gone =>
      rw [hw] at hin
      exact ⟨⟨fun _ => .inl rfl,hin.1.drained,hin.1.served⟩,hin.2⟩
  | drains =>
    obtain rfl := Option.some.inj hstep
    refine ⟨h.told,h.prompt,?_,h.unpublished,h.ended⟩
    unfold InPhase at hin ⊢
    cases hw : w.phase with
    | supervising | failed => trivial
    | recording since | flushing since | draining since =>
      rw [hw] at hin
      exact hin
    | lingering since wakeAt | cleaning since =>
      rw [hw] at hin
      exact ⟨hin.1,.inl rfl,hin.2.2⟩
    | gone =>
      rw [hw] at hin
      exact ⟨⟨hin.1.answered,.inl rfl,hin.1.served⟩,hin.2⟩
  | fails =>
    obtain ⟨-,hstep⟩ := Option.ite_none_right_eq_some.mp hstep
    obtain rfl := Option.some.inj hstep
    exact ⟨h.told,by rintro due ⟨⟩,trivial,by rintro ⟨⟩,h.ended⟩
  | breaks killed =>
    obtain ⟨hphase,hstep⟩ := Option.ite_none_right_eq_some.mp hstep
    obtain rfl := Option.some.inj hstep
    have hunpublished := h.unpublished (by rw [isEarly,hphase])
    refine ⟨h.told,?_,rfl,fun _ => hunpublished,Nat.le_refl _⟩
    rintro due ⟨⟩
    exact Nat.le_add_right _ _
  | records failed =>
    simp only [step] at hstep
    split at hstep
    · next since hphase =>
      have hgood := h.records hphase
      split_ifs at hstep with hfailed hkilled
      · obtain rfl := Option.some.inj hstep
        exact ⟨h.told,by rintro due ⟨⟩,trivial,by rintro ⟨⟩,h.ended⟩
      · obtain rfl := Option.some.inj hstep
        rwa [if_pos hkilled] at hgood
      · obtain rfl := Option.some.inj hstep
        rwa [if_neg hkilled] at hgood
    · cases hstep
  | goesOn =>
    simp only [step] at hstep
    split at hstep
    · next since hphase =>
      obtain ⟨hdone,hstep⟩ := Option.ite_none_right_eq_some.mp hstep
      obtain rfl := Option.some.inj hstep
      simp only [InPhase,hphase] at hin
      obtain ⟨hsince,hbound⟩ := hin
      have hnow := h.prompt _ (by rw [due,hphase]; rfl)
      have hended := h.ended
      have hunpublished := h.unpublished (by rw [isEarly,hphase])
      refine ⟨h.told,?_,⟨?_,?_,?_⟩,fun _ => hunpublished,h.ended⟩
      · rintro due ⟨⟩
        dsimp only
        omega
      · intro _
        rcases hdone with hflushed | hlate
        · exact .inl hflushed
        · refine .inr ?_
          dsimp only
          omega
      · dsimp only
        omega
      · dsimp only
        omega
    · cases hstep
  | publishes info =>
    simp only [step] at hstep
    split at hstep
    · next since hphase =>
      obtain ⟨hdone,hstep⟩ := Option.ite_none_right_eq_some.mp hstep
      obtain ⟨loop,hloop,rfl⟩ := Option.map_eq_some_iff.mp hstep
      simp only [InPhase,hphase] at hin
      obtain ⟨hanswered,hended,hbound⟩ := hin
      have hnow := h.prompt _ (by rw [due,hphase]; rfl)
      have hsame : loop.now = w.loop.now ∧ loop.tasks = w.loop.tasks := by
        obtain ⟨-,hloop⟩ := Option.ite_none_right_eq_some.mp hloop
        obtain rfl := Option.some.inj hloop
        exact ⟨rfl,rfl⟩
      refine ⟨fun i t ht => h.told i t (hsame.2 ▸ ht),?_,
        ⟨?_,?_,Nat.le_of_eq ?_,rfl,?_,?_⟩,by rintro ⟨⟩,
        Nat.le_trans h.ended (Nat.le_of_eq hsame.1.symm)⟩
      · rintro due ⟨⟩
        dsimp only
        omega
      · exact hanswered.later rfl id rfl (Nat.le_of_eq hsame.1.symm)
      · rcases hdone with hdrained | hlate
        · exact .inl hdrained
        · refine .inr ?_
          dsimp only
          omega
      · rw [hsame.2]
      · dsimp only
        omega
      · omega
    · cases hstep
  | looks =>
    simp only [step] at hstep
    split at hstep
    · next since wakeAt hphase =>
      obtain ⟨-,hstep⟩ := Option.ite_none_right_eq_some.mp hstep
      obtain rfl := Option.some.inj hstep
      exact h.looks hphase
    · cases hstep
  | exits =>
    simp only [step] at hstep
    split at hstep
    · next since hphase =>
      obtain rfl := Option.some.inj hstep
      simp only [InPhase,hphase] at hin
      obtain ⟨hanswered,hdrained,hserved,hbound⟩ := hin
      have hnow := h.prompt since (by rw [due,hphase]; rfl)
      refine ⟨h.told,by rintro due ⟨⟩,⟨⟨hanswered,hdrained,?_⟩,?_⟩,by rintro ⟨⟩,h.ended⟩
      · rcases hserved with hlate | hreturned
        · exact .inl hlate
        · refine .inr fun i hi => ?_
          obtain ⟨t,ht,hturn⟩ := hreturned i hi
          exact ⟨t,ht,hturn,h.told i t ht hturn⟩
      · dsimp only
        omega
    · cases hstep

theorem start_kept (delay : ℕ) (log : SessionLog) : (start log).Kept delay :=
  ⟨by rintro i t ⟨⟩,by rintro due ⟨⟩,trivial,fun _ => rfl,Nat.le_refl _⟩

/-- The clock, by what is due in the phase. -/
theorem Kept.bounded (h : w.Kept delay) (hover : w.phase ≠ .supervising)
    (hfailed : w.phase ≠ .failed) : w.loop.now ≤
      w.endedAt + RESPONSE_GRACE + READER_GRACE + ATTACHED_GRACE + ATTACHED_POLL + 5*delay := by
  have hin := h.inPhase
  have hprompt := h.prompt
  unfold InPhase at hin
  unfold due at hprompt
  cases hw : w.phase with
  | supervising => exact absurd hw hover
  | failed => exact absurd hw hfailed
  | gone =>
    rw [hw] at hin
    exact hin.2
  | recording since | flushing since | draining since | lingering since wakeAt | cleaning since =>
    rw [hw] at hin hprompt
    have hdue := hprompt _ rfl
    dsimp only at hin
    omega

end EndWorld
end Babysit
