import Babysit.AttachLoop

/-! Formatted views of sessions that were over when the client attached: S_EXIT is to wait
for the formatter to end or to fall silent. The clone of the exit receiver has not seen the
exit, so that its branch is ready from the first poll. -/
namespace Babysit

/-- The attach came after the exit, and its formatter works. -/
def LoopTask.drainsView (t : LoopTask) : Bool := t.alreadyExited && t.view.isSome

/-- Its last look for output has found none. -/
def LoopTurn.pastData : LoopTurn → Bool
  | .exit _ | .detach | .gone | .idle => true
  | _ => false

namespace LoopWorld

/-- S_EXIT has been written only when the formatter's channel had closed, or a whole grace
period after the last output. -/
def ViewDrained (w : LoopWorld) : Prop :=
  ∀ t ∈ w.tasks,t.drainsView = true → (∃ f ∈ t.handler.sent,f.tag = S_EXIT) →
    ∃ time closed, t.exitAt = some (time,closed) ∧
      (closed = true ∨ t.quietSince + VIEW_DRAIN_IDLE_GRACE ≤ time)

/-- Whenever such a task looks for output there is some, or the channel has closed. -/
def OutputReady (w : LoopWorld) : LoopWorldEvent → Prop
  | .task i .polls => ∀ t ∈ w.tasks[i]?,t.alreadyExited = true → t.turn = .data →
    ∀ v ∈ t.view,v.queue ≠ [] ∨ v.closed = true
  | _ => True

/-- Whenever the exit branch of such a task is polled, the channel has closed, or a whole
grace period has passed since the last output. -/
def ExitPolledLate (w : LoopWorld) : LoopWorldEvent → Prop
  | .task i .polls => ∀ t ∈ w.tasks[i]?,t.alreadyExited = true → ∀ polled, t.turn = .exit polled →
    ∀ v ∈ t.view,v.closed = true ∨ t.quietSince + VIEW_DRAIN_IDLE_GRACE ≤ w.now
  | _ => True

/-- Of one task: its timer runs from the last output at the earliest, and its exit frame is
justified. -/
structure Draining (w : LoopWorld) (t : LoopTask) : Prop where
  knows : w.KnowsExit t
  quiet : t.quietSince ≤ w.now
  deadline : ∀ d ∈ t.deadline,t.quietSince + VIEW_DRAIN_IDLE_GRACE ≤ d
  unsent : t.turn ≠ .returned → ∀ f ∈ t.handler.sent,f.tag ≠ S_EXIT
  drained : t.drainsView = true → (∃ f ∈ t.handler.sent,f.tag = S_EXIT) →
    ∃ time closed, t.exitAt = some (time,closed) ∧
      (closed = true ∨ t.quietSince + VIEW_DRAIN_IDLE_GRACE ≤ time)

variable {w w' : LoopWorld} {t t' : LoopTask} {a : TaskEvent}

theorem draining_counted (hw : w.Numbered) (request : AttachRequest) :
    w.Draining (.counted request w.detach) where
  knows := knowsExit_counted hw request
  quiet := Nat.zero_le _
  deadline := by rintro d ⟨⟩
  unsent := by rintro - f ⟨⟩
  drained := by rintro ⟨⟩

/-- A move that sends no exit frame, and restarts no timer. -/
theorem Draining.moves (h : w.Draining t) (hknows : w.KnowsExit t')
    (hexited : t'.alreadyExited = t.alreadyExited) (hquiet : t'.quietSince = t.quietSince)
    (hdeadline : ∀ d ∈ t'.deadline,d ∈ t.deadline) (hview : t'.view.isSome = t.view.isSome)
    (hsent : ∀ f ∈ t'.handler.sent,f.tag = S_EXIT → f ∈ t.handler.sent) (hat : t'.exitAt = t.exitAt)
    (hturn : t'.turn ≠ .returned → t.turn ≠ .returned) : w.Draining t' where
  knows := hknows
  quiet := by rw [hquiet]; exact h.quiet
  deadline d hd := by rw [hquiet]; exact h.deadline d (hdeadline d hd)
  unsent hne f hf htag := h.unsent (hturn hne) f (hsent f hf htag) htag
  drained hdrains := by
    rintro ⟨f,hf,htag⟩
    rw [LoopTask.drainsView,hexited,hview] at hdrains
    rw [hquiet,hat]
    exact h.drained hdrains ⟨f,hsent f hf htag,htag⟩

/-- Every way to the exit frame but the exit branch has waited for the formatter. -/
theorem Draining.reason (h : w.Draining t) (hreason : t.ExitReason w)
    (hlate : ∀ polled, t.turn = .exit polled →
      ∀ v ∈ t.view,v.closed = true ∨ t.quietSince + VIEW_DRAIN_IDLE_GRACE ≤ w.now) :
    ∀ v ∈ t.view,v.closed = true ∨ t.quietSince + VIEW_DRAIN_IDLE_GRACE ≤ w.now := by
  intro v hv
  cases hreason with
  | closed _ hview =>
    obtain rfl : v = ⟨[],true⟩ := Option.some.inj (hv.symm.trans hview)
    exact .inl rfl
  | seen hturn => exact hlate _ hturn v hv
  | silent _ _ hdeadline hover =>
    right
    cases hd : t.deadline with
    | none =>
      rw [hd,Option.getD_none] at hdeadline
      unfold VIEW_DRAIN_IDLE_GRACE at hdeadline
      omega
    | some d =>
      rw [hd,Option.getD_some] at hdeadline
      have := h.deadline d hd
      omega
  | drained _ _ hview =>
    rw [hview] at hv
    cases hv

/-- The exit frame is sent. -/
theorem Draining.exits (h : w.Draining t) {seen : ℕ}
    (hknows : w.KnowsExit ({ t with exitSeen := seen }.exits w))
    (hreason : t.drainsView = true →
      ∀ v ∈ t.view,v.closed = true ∨ t.quietSince + VIEW_DRAIN_IDLE_GRACE ≤ w.now) :
    w.Draining ({ t with exitSeen := seen }.exits w) where
  knows := hknows
  quiet := h.quiet
  deadline := h.deadline
  unsent hne := absurd rfl hne
  drained hdrains _ := by
    refine ⟨w.now,t.view.any ViewOutput.closed,rfl,?_⟩
    obtain ⟨v,hv⟩ : ∃ v, t.view = some v := by
      rw [← Option.isSome_iff_exists]
      exact (Bool.and_eq_true_iff.mp hdrains).2
    rcases hreason hdrains v hv with hclosed | hgrace
    · left
      rw [hv,Option.any_some,hclosed]
    · exact .inr hgrace

/-- A task in its loop has not sent the exit frame to a view. -/
theorem Draining.undrained (h : w.Draining t) (hne : t.turn ≠ .returned) :
    ¬∃ f ∈ t.handler.sent,f.tag = S_EXIT := by
  rintro ⟨f,hf,htag⟩
  exact h.unsent hne f hf htag

theorem Draining.step (h : w.Draining t) (hmove : LoopTask.Move t w a t')
    (hlate : a = .polls → t.alreadyExited = true → ∀ polled, t.turn = .exit polled →
      ∀ v ∈ t.view,v.closed = true ∨ t.quietSince + VIEW_DRAIN_IDLE_GRACE ≤ w.now) :
    w.Draining t' := by
  have hturn := hmove.not_returned
  have hknows := h.knows.step hmove
  cases hmove with
  | exits hreason _ =>
    refine h.exits hknows fun hdrains => ?_
    exact h.reason hreason (hlate rfl (Bool.and_eq_true_iff.mp hdrains).1)
  | observes hcounted =>
    have hne : t.turn ≠ .returned := by simp [hcounted]
    refine ⟨hknows,h.quiet,h.deadline,
      fun _ => h.unsent hne,fun _ hsent => absurd hsent (h.undrained hne)⟩
  | registers hsub =>
    have hne : t.turn ≠ .returned := by simp [hsub]
    have hunsent : ∀ f ∈ t.announce.sent,f.tag ≠ S_EXIT :=
      fun f hf htag => h.unsent hne f (LoopTask.exit_of_announce t f hf htag) htag
    refine ⟨hknows,Nat.le_refl _,by rintro d ⟨⟩,fun _ => hunsent,fun _ hsent => ?_⟩
    obtain ⟨f,hf,htag⟩ := hsent
    exact absurd htag (hunsent f hf)
  | @viewForwards bytes queue closed hdata hview =>
    have hne : t.turn ≠ .returned := by simp [hdata]
    have hunsent : ∀ f ∈ t.handler.sent ++ [⟨S_OUTPUT,bytes⟩],f.tag ≠ S_EXIT := by
      intro f hf htag
      have hold := LoopTask.exit_of_snoc (by simp [S_OUTPUT,S_EXIT]) f hf htag
      exact h.unsent hne f hold htag
    refine ⟨hknows,Nat.le_refl _,by rintro d ⟨⟩,fun _ => hunsent,fun _ hsent => ?_⟩
    obtain ⟨f,hf,htag⟩ := hsent
    exact absurd htag (hunsent f hf)
  | seesNoExit hexit =>
    have hne : t.turn ≠ .returned := by simp [hexit]
    exact ⟨hknows,h.quiet,by rintro d ⟨⟩,
      fun _ => h.unsent hne,fun _ hsent => absurd hsent (h.undrained hne)⟩
  | waits hidle _ hdeadline =>
    have hne : t.turn ≠ .returned := by simp [hidle]
    refine ⟨hknows,h.quiet,?_,
      fun _ => h.unsent hne,fun _ hsent => absurd hsent (h.undrained hne)⟩
    rintro d ⟨⟩
    dsimp only
    cases hd : t.deadline with
    | none =>
      have := h.quiet
      rw [hdeadline,hd,Option.getD_none]
      omega
    | some d =>
      rw [hdeadline,hd,Option.getD_some]
      exact h.deadline d hd
  | replays _ hreplayed =>
    exact h.moves hknows rfl rfl (fun _ hd => hd) rfl (LoopTask.exit_of_replayed hreplayed) rfl hturn
  | replayFails =>
    refine h.moves hknows rfl rfl (fun _ hd => hd) rfl (LoopTask.exit_of_snoc ?_) rfl hturn
    simp [errorFrame,S_ERROR,S_EXIT]
  | detaches | viewDetaches =>
    refine h.moves hknows rfl rfl (fun _ hd => hd) rfl (LoopTask.exit_of_snoc ?_) rfl hturn
    simp [S_DETACHED,S_EXIT]
  | forwards _ _ hforward =>
    exact h.moves hknows rfl rfl (by rintro d ⟨⟩) rfl (LoopTask.exit_of_forward hforward) rfl hturn
  | formats hview | formatterCloses hview =>
    exact h.moves hknows rfl rfl (fun _ hd => hd) (by rw [hview]; rfl) (fun _ hf _ => hf) rfl hturn
  | leaves | fails | goes | findsNothing | noExit | noDetach | stays | unarmed | goesOn =>
    exact h.moves hknows rfl rfl (fun _ hd => hd) rfl (fun _ hf _ => hf) rfl hturn

/-- What the step of another task, or of the world around it, leaves of a task's draining. -/
theorem Draining.stays (h : w.Draining t) {e : LoopWorldEvent} (hstep : w.step e = some w') :
    w'.Draining t :=
  ⟨h.knows.stays hstep,h.quiet.trans (step_frame hstep).1,h.deadline,h.unsent,h.drained⟩

structure AllDraining (w : LoopWorld) : Prop where
  numbered : w.Numbered
  tasks : ∀ t ∈ w.tasks,w.Draining t

theorem allDraining_start (log : SessionLog) : (start log).AllDraining :=
  ⟨by rintro ⟨⟩,by rintro t ⟨⟩⟩

theorem AllDraining.viewDrained (h : w.AllDraining) : w.ViewDrained :=
  fun t ht => (h.tasks t ht).drained

theorem allDraining_step (w : LoopWorld) (e : LoopWorldEvent) (w' : LoopWorld)
    (hstep : w.step e = some w') (hc : w.ExitPolledLate e) (h : w.AllDraining) :
    w'.AllDraining := by
  refine ⟨h.numbered.step hstep,?_⟩
  refine forall_tasks_step hstep (fun t _ ht => ht.stays hstep) ?_ ?_ ?_ h.tasks
  · intro request _
    exact (draining_counted h.numbered request).stays hstep
  · intro i viewFails t _ _ hturn ht
    obtain ⟨-,-,-,-,hdeadline,hquiet⟩ := t.subscribe_frame w.hub viewFails
    have hunsent := LoopTask.subscribe_sent (ht.unsent (by simp [hturn])) w.hub viewFails
    refine Draining.stays ?_ hstep
    refine ⟨ht.knows.subscribe hturn viewFails,?_,?_,fun _ => hunsent,fun _ hsent => ?_⟩
    · rw [hquiet]
      exact ht.quiet
    · rw [hquiet,hdeadline]
      exact ht.deadline
    · obtain ⟨f,hf,htag⟩ := hsent
      exact absurd htag (hunsent f hf)
  · intro i a t t' he hget hmove ht
    subst he
    refine Draining.stays (ht.step hmove ?_) hstep
    rintro rfl
    exact hc t hget

theorem not_viewDrained (w : LoopWorld) (e : LoopWorldEvent) (w' : LoopWorld)
    (hstep : w.step e = some w') (hc : ¬w.ExitPolledLate e) (h : w.AllDraining) :
    ¬w'.ViewDrained := by
  cases e with
  | task i a =>
    cases a with
    | polls =>
      simp only [ExitPolledLate,not_forall] at hc
      obtain ⟨t,ht,hexited,polled,hturn,v,hv,hearly⟩ := hc
      obtain ⟨hopen,hshort⟩ := not_or.mp hearly
      have hv : t.view = some v := hv
      intro hdrained
      have hknows := (h.tasks t (List.mem_of_getElem? ht)).knows
      have hmem := (hknows.exits ht (hknows.published hexited) hturn hstep).2
      obtain ⟨time,closed,hat,hreason⟩ := hdrained _ hmem
        (by simp [LoopTask.drainsView,LoopTask.exits,hexited,hv])
        ⟨⟨S_EXIT,exitPayload w.exit.value⟩,List.mem_append_right _ (List.mem_singleton.mpr rfl),rfl⟩
      simp only [LoopTask.exits,Option.some.injEq,Prod.mk.injEq,hv,Option.any_some] at hat hreason
      obtain ⟨rfl,rfl⟩ := hat
      exact hreason.elim hopen hshort
    | _ => exact absurd trivial hc
  | _ => exact absurd trivial hc

/-- The formatter has always been ahead of the poll. -/
def Ahead (t : LoopTask) : Prop := t.drainsView = true → t.turn.pastData = false

theorem Ahead.step (h : Ahead t) (hmove : LoopTask.Move t w a t')
    (hready : a = .polls → t.alreadyExited = true → t.turn = .data →
      ∀ v ∈ t.view,v.queue ≠ [] ∨ v.closed = true) : Ahead t' := by
  intro hdrains
  cases hmove with
  | findsNothing hturn hnothing =>
    obtain ⟨hexited,hsome⟩ := Bool.and_eq_true_iff.mp hdrains
    rcases hnothing with hview | ⟨hview,-⟩
    · rcases hready rfl hexited hturn _ hview with hqueue | hclosed
      · exact absurd rfl hqueue
      · cases hclosed
    · dsimp only at hsome
      rw [hview] at hsome
      cases hsome
  | noExit hturn | noDetach hturn | stays hturn =>
    have hpast := h hdrains
    rw [hturn] at hpast
    cases hpast
  | replays hturn =>
    dsimp only
    rw [hturn]
    rfl
  | leaves => exact h hdrains
  | formats hview | formatterCloses hview =>
    have hsome : t.drainsView = true := by
      rw [LoopTask.drainsView,hview]
      exact hdrains
    exact h hsome
  | observes | replayFails | registers | fails | viewForwards | exits | viewDetaches | forwards
  | seesNoExit | detaches | goes | waits | unarmed | goesOn => rfl

theorem ahead_step (w : LoopWorld) (e : LoopWorldEvent) (w' : LoopWorld)
    (hstep : w.step e = some w') (hc : w.OutputReady e) (h : ∀ t ∈ w.tasks,Ahead t) :
    ∀ t ∈ w'.tasks,Ahead t := by
  refine forall_tasks_step (Q := fun _ => Ahead) hstep (fun t _ ht => ht) ?_ ?_ ?_ h
  · intro request _ _
    rfl
  · intro i viewFails t _ _ _ _ _
    rcases t.subscribe_turn w.hub viewFails with hturn | hturn
    · rw [hturn]
      rfl
    · rw [hturn]
      rfl
  · intro i a t t' he hget hmove ht
    subst he
    refine ht.step hmove ?_
    rintro rfl
    exact hc t hget

/-- A view that is always ahead does not get to the exit branch. -/
theorem exitPolledLate_of_ahead {e : LoopWorldEvent} (h : ∀ t ∈ w.tasks,Ahead t) :
    w.ExitPolledLate e := by
  unfold ExitPolledLate
  split
  · intro t ht hexited polled hturn v hv
    have hv : t.view = some v := hv
    have hpast := h t (List.mem_of_getElem? ht) (by simp [LoopTask.drainsView,hexited,hv])
    rw [hturn] at hpast
    cases hpast
  · trivial

/-- The exit frame waits for the formatters of finished sessions as long as no poll catches
one with nothing to show; and it does exactly when no exit branch is polled early. -/
theorem always_viewDrained (log : SessionLog) (es : List LoopWorldEvent) :
    (Transition.Meets step OutputReady (start log) es →
      Transition.Always step ViewDrained (start log) es) ∧
    (Transition.Always step ViewDrained (start log) es ↔
      Transition.Meets step ExitPolledLate (start log) es) := by
  constructor
  · intro hmeets
    refine Transition.always_of_meets
      (I := fun w : LoopWorld => w.AllDraining ∧ ∀ t ∈ w.tasks,Ahead t) ?_
      (fun w hw => hw.1.viewDrained) hmeets ⟨allDraining_start log,by rintro t ⟨⟩⟩
    rintro w e w' hstep hc ⟨hdraining,hahead⟩
    exact ⟨allDraining_step w e w' hstep (exitPolledLate_of_ahead hahead) hdraining,
      ahead_step w e w' hstep hc hahead⟩
  · exact Transition.always_iff_meets (fun _ h => h.viewDrained) allDraining_step not_viewDrained
      (allDraining_start log) es

/-- A client attaches to the view of a finished session; its formatter needs a moment. -/
def slowFormatterRun : List LoopWorldEvent :=
  [.broadcast [65] ⟨0,.ok,.ok⟩,.publishes ⟨some 0,false⟩,.attach ⟨true,1,none⟩,.task 0 .observes,
    .subscribes 0 false,.task 0 .registers,.task 0 .polls,.tick 1,.task 0 .polls]

theorem slow_formatter_cut_off : ∃ w,
    Transition.exec step (start ⟨[],by decide⟩) slowFormatterRun = some w ∧ ¬w.ViewDrained := by
  refine ⟨_,rfl,fun h => ?_⟩
  obtain ⟨time,closed,hat,hreason⟩ := h _ (List.mem_singleton.mpr rfl) rfl
    ⟨⟨S_EXIT,exitPayload (some ⟨some 0,false⟩)⟩,by decide,rfl⟩
  obtain ⟨rfl,rfl⟩ := Prod.mk.inj (Option.some.inj hat)
  revert hreason
  decide

end LoopWorld
end Babysit
