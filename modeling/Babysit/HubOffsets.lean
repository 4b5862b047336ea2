import Babysit.Hub
import Babysit.Lib.Transition

/-! The offsets of the hub over any sequence of its operations: `configure_log`, called
again on each restart, broadcasts whose log write may fail, and subscriptions. -/
namespace Babysit
open AppendLog

/-- The hub, the files, and the chunks handed to resumable clients while the log was open. -/
structure HubWorld where
  hub : HubInner
  disk : Disk
  handed : List OutputChunk

inductive HubEvent
  | configureLog (io : ConfigureIo)
  | broadcast (data : List UInt8) (io : BroadcastIo)
  | subscribe
  | subscribeResumable (since : Option ℕ)
  | closeClient (i : ℕ)
  | closeResumeClient (i : ℕ)

namespace HubWorld

def start (disk : Disk) : HubWorld := ⟨.default,disk,[]⟩

/-- A resumable client takes what it is handed. -/
def hasReceiver (g : HubInner) : Bool := g.resumeClients.any fun c => !c.closed

def step (w : HubWorld) : HubEvent → Option HubWorld
  | .configureLog io =>
    let after := w.hub.configureLog w.disk io
    some { w with hub := after.1, disk := after.2 }
  | .broadcast data io =>
    -- no file system writes past the largest offset
    if w.hub.log ∧ io.log.isOk ∧ MAX_FILE_LEN < w.disk.log.length + data.length then none
    else
      let after := w.hub.broadcast w.disk data io
      some ⟨after.1,after.2,if after.1.log ∧ hasReceiver w.hub
        then w.handed ++ [⟨w.hub.nextOffset,data⟩] else w.handed⟩
  | .subscribe => some { w with hub := w.hub.subscribe.2 }
  | .subscribeResumable since =>
    match w.hub.subscribeResumable since with
    | .error _ => some w
    | .ok (subscription,hub) => some { w with
        hub := hub
        handed := if w.hub.log then w.handed ++ subscription.backlog.toList else w.handed }
  | .closeClient i =>
    some { w with hub := { w.hub with clients := w.hub.clients.modify i Channel.close } }
  | .closeResumeClient i =>
    some { w with hub := { w.hub with resumeClients := w.hub.resumeClients.modify i Channel.close } }

/-- While the log is open the hub describes its end, and every chunk handed out stands in
the log at its offset; so no two of them differ on one offset. -/
structure OffsetsTruthful (w : HubWorld) : Prop where
  hub : w.hub.log = true → w.hub.Truthful w.disk.log
  handed : ∀ c ∈ w.handed, c.data = slice w.disk.log c.offset (c.offset+c.data.length)
  agree : ∀ c ∈ w.handed, ∀ d ∈ w.handed, ∀ i j, i < c.data.length → j < d.data.length →
    c.offset+i = d.offset+j → c.data[i]? = d.data[j]?

/-- The step does not open the log while the backlog still holds bytes. -/
def OpensEmpty (w : HubWorld) : HubEvent → Prop
  | .configureLog io => w.hub.log = false → io.log = true → w.hub.backlog = []
  | _ => True

/-- The property in the form the steps preserve. -/
structure Good (w : HubWorld) : Prop where
  hub : w.hub.log = true → w.hub.Truthful w.disk.log
  handed : ∀ c ∈ w.handed, HoldsAt w.disk.log c.offset c.data

theorem Good.offsetsTruthful {w : HubWorld} (h : w.Good) : w.OffsetsTruthful where
  hub := h.hub
  handed c hc := (h.handed c hc).eq_slice
  agree c hc d hd _ _ hi hj he := (h.handed c hc).agree (h.handed d hd) hi hj he

theorem good_start (disk : Disk) : (start disk).Good :=
  ⟨by simp [start,HubInner.default],by simp [start]⟩

theorem good_configureLog {w : HubWorld} {io : ConfigureIo} (h : w.Good)
    (hempty : w.OpensEmpty (.configureLog io)) :
    Good { w with
      hub := (w.hub.configureLog w.disk io).1, disk := (w.hub.configureLog w.disk io).2 } := by
  by_cases hnoop : w.hub.log = true ∨ ¬io.log = true
  · have he : w.hub.configureLog w.disk io = (w.hub,w.disk) := if_pos hnoop
    rw [he]
    exact h
  · obtain ⟨hclosed,hio⟩ := not_or.mp hnoop
    have hclosed' : w.hub.log = false := by simpa using hclosed
    have hio' : io.log = true := by simpa using hio
    refine ⟨fun _ => HubInner.truthful_configureLog hclosed' hio' (hempty hclosed' hio'),?_⟩
    intro c hc
    rw [HubInner.configureLog_disk]
    exact h.handed c hc

theorem good_broadcast {w w' : HubWorld} {data : List UInt8} {io : BroadcastIo} (h : w.Good)
    (hstep : w.step (.broadcast data io) = some w') : w'.Good := by
  simp only [step] at hstep
  by_cases hguard : w.hub.log ∧ io.log.isOk ∧ MAX_FILE_LEN < w.disk.log.length + data.length
  · rw [if_pos hguard] at hstep
    cases hstep
  rw [if_neg hguard] at hstep
  obtain rfl := Option.some.inj hstep
  have hgrow : ∀ c ∈ w.handed,
      HoldsAt (w.hub.broadcast w.disk data io).2.log c.offset c.data := by
    intro c hc
    rw [HubInner.broadcast_disk]
    split_ifs
    · exact (h.handed c hc).append _
    · exact h.handed c hc
  have hopen : (w.hub.broadcast w.disk data io).1.log = true →
      w.hub.log = true ∧ io.log = .ok := by
    rw [HubInner.broadcast_log,Bool.and_eq_true]
    rintro ⟨hlog,hok⟩
    refine ⟨hlog,?_⟩
    cases hio : io.log with
    | ok => rfl
    | failed k error => simp [hio,WriteResult.isOk] at hok
  constructor
  · intro hlog'
    obtain ⟨hlog,hok⟩ := hopen hlog'
    have hfit : w.disk.log.length + data.length ≤ MAX_FILE_LEN := by
      by_contra hbig
      exact hguard ⟨hlog,by simp [hok,WriteResult.isOk],by omega⟩
    exact (h.hub hlog).broadcast hlog hok hfit
  · intro c hc
    dsimp only at hc ⊢
    split_ifs at hc with hhand
    · rcases List.mem_append.mp hc with hc | hc
      · exact hgrow c hc
      · obtain ⟨hlog,hok⟩ := hopen hhand.1
        obtain rfl := List.mem_singleton.mp hc
        rw [HubInner.broadcast_disk,if_pos hlog,hok,(h.hub hlog).nextOffset]
        exact holdsAt_end _ _
    · exact hgrow c hc

theorem good_subscribeResumable {w w' : HubWorld} {since : Option ℕ} (h : w.Good)
    (hstep : w.step (.subscribeResumable since) = some w') : w'.Good := by
  simp only [step,HubInner.subscribeResumable] at hstep
  cases herror : w.hub.logError with
  | some error =>
    simp only [herror,Option.some.injEq] at hstep
    exact hstep ▸ h
  | none =>
    simp only [herror] at hstep
    by_cases hbeyond : since.any fun offset => w.hub.nextOffset < offset
    · rw [if_pos hbeyond] at hstep
      cases hstep
      exact h
    · rw [if_neg hbeyond] at hstep
      cases hstep
      refine ⟨fun hlog => ⟨(h.hub hlog).1,(h.hub hlog).2,(h.hub hlog).3⟩,?_⟩
      intro c hc
      dsimp only at hc ⊢
      split_ifs at hc with hlog hfresh
      · rcases List.mem_append.mp hc with hc | hc
        · exact h.handed c hc
        · obtain rfl : c = ⟨w.hub.backlogStart,w.hub.backlog⟩ := by simpa using hc
          obtain ⟨-,hend,hslice⟩ := h.hub hlog
          have := holdsAt_slice w.disk.log w.hub.backlogStart w.hub.nextOffset
          rwa [← hslice] at this
      · simp only [Option.toList,List.append_nil] at hc
        exact h.handed c hc
      · exact h.handed c hc

theorem good_step (w : HubWorld) (e : HubEvent) (w' : HubWorld) (hstep : w.step e = some w')
    (hempty : w.OpensEmpty e) (h : w.Good) : w'.Good := by
  cases e with
  | configureLog io =>
    cases hstep
    exact good_configureLog h hempty
  | broadcast data io => exact good_broadcast h hstep
  | subscribe =>
    cases hstep
    exact ⟨fun hlog => ⟨(h.hub hlog).1,(h.hub hlog).2,(h.hub hlog).3⟩,h.handed⟩
  | subscribeResumable since => exact good_subscribeResumable h hstep
  | closeClient i =>
    cases hstep
    exact ⟨fun hlog => ⟨(h.hub hlog).1,(h.hub hlog).2,(h.hub hlog).3⟩,h.handed⟩
  | closeResumeClient i =>
    cases hstep
    exact ⟨fun hlog => ⟨(h.hub hlog).1,(h.hub hlog).2,(h.hub hlog).3⟩,h.handed⟩

/-- Opening the log over a backlog gives its bytes the offset of the log's end. -/
theorem not_truthful_of_opens {w w' : HubWorld} {e : HubEvent} (hstep : w.step e = some w')
    (hopens : ¬w.OpensEmpty e) : ¬w'.OffsetsTruthful := by
  cases e with
  | configureLog io =>
    simp only [OpensEmpty,not_forall] at hopens
    obtain ⟨hclosed,hio,hbacklog⟩ := hopens
    simp only [step,HubInner.configureLog,hclosed,hio] at hstep
    cases hstep
    intro h
    have hend := (h.hub rfl).backlogEnd
    have hlen : w.hub.backlog.length = 0 := by simpa using hend
    exact hbacklog (List.eq_nil_of_length_eq_zero hlen)
  | _ => exact absurd trivial hopens

/-- The hub's offsets are truthful in every state of a run exactly when the log is never
opened over a backlog that holds bytes, as a restart after a failed write does. -/
theorem always_offsetsTruthful_iff (disk : Disk) (es : List HubEvent) :
    Transition.Always step OffsetsTruthful (start disk) es ↔
      Transition.Meets step OpensEmpty (start disk) es :=
  Transition.always_iff_meets (I := Good) (fun _ h => h.offsetsTruthful) good_step
    (fun _ _ _ hstep hopens _ => not_truthful_of_opens hstep hopens) (good_start disk) es

/-- A write fails after one byte of two, the command is restarted, and prints again. -/
def restartAfterFailure : List HubEvent :=
  [.configureLog ⟨true,true⟩,.subscribeResumable none,
    .broadcast [65,66] ⟨0,.failed 1 "No space left on device",.ok⟩,
    .configureLog ⟨true,true⟩,.broadcast [67] ⟨0,.ok,.ok⟩]

/-- The client is told B and then C for offset 1, and the hub's backlog is not the log's. -/
theorem restart_after_failure_lies : ∃ w,
    Transition.exec step (start ⟨[],[]⟩) restartAfterFailure = some w ∧
      w.hub.resumeClients.map Channel.sent = [[⟨0,[65,66]⟩,⟨1,[67]⟩]] ∧ w.hub.log = true ∧
      ¬w.OffsetsTruthful := by
  refine ⟨_,rfl,by decide +kernel,by decide +kernel,fun h => ?_⟩
  have hend := (h.hub (by decide +kernel)).backlogEnd
  revert hend
  decide +kernel

end HubWorld
end Babysit
