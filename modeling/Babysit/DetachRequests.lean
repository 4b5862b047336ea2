import Babysit.AttachLoop

/-! Detach requests and the tasks that had counted their client when one was made. A task
subscribes to the requests only behind its subscription to the output and the replay. -/
namespace Babysit
namespace LoopWorld
variable {w w' : LoopWorld} {e : LoopWorldEvent}

/-- A task in its loop finds the detach branch ready if a request has been made since it
counted its client. -/
def DetachHeard (w : LoopWorld) : Prop :=
  ∀ t ∈ w.tasks,t.turn.inLoop = true → t.countedAt < w.detach.version →
    w.detach.hasChanged t.detachSeen = true

/-- No request has been made between the count and the subscription to the requests. -/
def RegistersInTime (w : LoopWorld) : LoopWorldEvent → Prop
  | .task i .registers => ∀ t ∈ w.tasks[i]?,t.countedAt = w.detach.version
  | _ => True

/-- What a task knows of the requests. -/
structure Registered (w : LoopWorld) (t : LoopTask) : Prop where
  counted : t.countedAt ≤ w.detach.version
  seen : t.turn.inLoop = true → t.detachSeen = t.countedAt

end LoopWorld

namespace LoopTask
variable {t t' : LoopTask} {w : LoopWorld} {a : TaskEvent}

/-- A task comes into its loop by registering, and what it has seen of the requests stays
until it leaves. -/
theorem Move.registered (h : Move t w a t') : t'.countedAt = t.countedAt ∧
    (a ≠ .registers → t'.turn.inLoop = true →
      t.turn.inLoop = true ∧ t'.detachSeen = t.detachSeen) := by
  cases h with
  | registers => exact ⟨rfl,fun hne => absurd rfl hne⟩
  | observes hturn | replays hturn | replayFails hturn =>
    refine ⟨rfl,fun _ hloop => ?_⟩
    first | cases hloop | (rw [hturn] at hloop; cases hloop)
  | leaves => exact ⟨rfl,fun _ hloop => ⟨hloop,rfl⟩⟩
  | formats => exact ⟨rfl,fun _ hloop => ⟨hloop,rfl⟩⟩
  | formatterCloses => exact ⟨rfl,fun _ hloop => ⟨hloop,rfl⟩⟩
  | fails | goes =>
    refine ⟨rfl,fun _ hloop => ?_⟩
    cases hloop
  | viewDetaches | exits | detaches =>
    refine ⟨rfl,fun _ hloop => ?_⟩
    cases hloop
  | viewForwards hturn | forwards hturn | findsNothing hturn | seesNoExit hturn | noExit hturn
  | noDetach hturn | stays hturn | waits hturn | unarmed hturn | goesOn hturn =>
    refine ⟨rfl,fun _ _ => ⟨?_,rfl⟩⟩
    rw [hturn]
    rfl

end LoopTask

namespace LoopWorld
variable {w w' : LoopWorld} {e : LoopWorldEvent}

/-- Requests are only ever added. -/
theorem version_step (h : w.step e = some w') : w.detach.version ≤ w'.detach.version := by
  obtain ⟨-,hdetach | hdetach,-⟩ := step_frame h
  · rw [hdetach]
  · rw [hdetach]
    exact Nat.le_succ _

theorem registered_step (w : LoopWorld) (e : LoopWorldEvent) (w' : LoopWorld)
    (h : w.step e = some w') (hc : w.RegistersInTime e) (hw : ∀ t ∈ w.tasks,w.Registered t) :
    ∀ t ∈ w'.tasks,w'.Registered t := by
  have hversion := version_step h
  refine forall_tasks_step h ?_ ?_ ?_ ?_ hw
  · intro t _ ht
    exact ⟨ht.counted.trans hversion,ht.seen⟩
  · rintro request rfl
    exact ⟨hversion,by rintro ⟨⟩⟩
  · rintro i viewFails t rfl - hturn ht
    refine ⟨?_,fun hloop => ?_⟩
    · rw [(t.subscribe_frame w.hub viewFails).1]
      exact ht.counted.trans hversion
    · rcases t.subscribe_turn w.hub viewFails with hsub | hreturned
      · rw [hsub] at hloop
        cases hloop
      · rw [hreturned] at hloop
        cases hloop
  · rintro i a t t' rfl hget hmove ht
    obtain ⟨hcounted,hseen⟩ := hmove.registered
    refine ⟨by rw [hcounted]; exact ht.counted.trans hversion,fun hloop => ?_⟩
    by_cases ha : a = .registers
    · subst ha
      cases hmove
      exact (hc t hget).symm
    · obtain ⟨hin,hsame⟩ := hseen ha hloop
      rw [hsame,hcounted]
      exact ht.seen hin

theorem registered_start (log : SessionLog) : ∀ t ∈ (start log).tasks,(start log).Registered t := by
  rintro t ⟨⟩

theorem detachHeard_of_registered (hw : ∀ t ∈ w.tasks,w.Registered t) : w.DetachHeard := by
  intro t ht hloop hlate
  rw [(hw t ht).seen hloop]
  exact Watch.hasChanged_of_lt hlate

/-- A task that registers late has missed the request, and takes no notice of it in its
loop. -/
theorem not_detachHeard (w : LoopWorld) (e : LoopWorldEvent) (w' : LoopWorld)
    (h : w.step e = some w') (hc : ¬w.RegistersInTime e) (hw : ∀ t ∈ w.tasks,w.Registered t) :
    ¬w'.DetachHeard := by
  cases e with
  | task i a =>
    cases a with
    | registers =>
      simp only [RegistersInTime,not_forall] at hc
      obtain ⟨t,ht,hne⟩ := hc
      obtain ⟨u,u',hu,hstep,rfl⟩ := step_task h
      obtain rfl : t = u := Option.some.inj (ht.symm.trans hu)
      have hlate : t.countedAt < w.detach.version :=
        Nat.lt_of_le_of_ne (hw t (List.mem_of_getElem? ht)).counted hne
      have hlt := (List.getElem?_eq_some_iff.mp hu).1
      have hmem : u' ∈ w.tasks.set i u' := List.mem_set hlt u'
      intro hheard
      cases LoopTask.step_move hstep with
      | registers =>
        have hready := hheard _ hmem rfl hlate
        dsimp only at hready
        rw [Watch.hasChanged_iff] at hready
        exact hready rfl
    | _ => exact absurd trivial hc
  | _ => exact absurd trivial hc

/-- Every task hears of every request made since it counted its client exactly when each has
registered before the next request. -/
theorem always_detachHeard_iff (log : SessionLog) (es : List LoopWorldEvent) :
    Transition.Always step DetachHeard (start log) es ↔
      Transition.Meets step RegistersInTime (start log) es :=
  Transition.always_iff_meets (fun _ => detachHeard_of_registered) registered_step not_detachHeard
    (registered_start log) es

/-- A resuming client is sent the log when a detach request is made. -/
def detachDuringReplay : List LoopWorldEvent :=
  [.broadcast [65,66] ⟨0,.ok,.ok⟩,.attach ⟨false,1,some 0⟩,.task 0 .observes,.subscribes 0 false,
    .task 0 (.replays 1),.requestsDetach,.task 0 (.replays 1),.task 0 .registers]

theorem detach_during_replay_lost : ∃ w,
    Transition.exec step (start ⟨[],by decide⟩) detachDuringReplay = some w ∧ ¬w.DetachHeard := by
  refine ⟨_,rfl,fun h => ?_⟩
  have hready := h _ (List.mem_singleton.mpr rfl) rfl (by decide)
  revert hready
  decide

end LoopWorld
end Babysit
