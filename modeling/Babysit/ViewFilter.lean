import Babysit.AttachLoop
import Babysit.HubOffsets
import Babysit.Lib.FilterProgram

/-! `spawn_view_filter`: a client's formatter between the hub and `handle_attach`. One task pumps
from the hub's channel to the formatter, another from the formatter to the channel that
`handle_attach` forwards from. The formatter is any filter program, the pipes have any size, and
the hub goes on as it likes. -/
namespace Babysit

/-- The most that is read from the formatter at once. -/
def PUMP_BUF : ℕ := 8192

/-- `stopped` is an end by an error or by an abort. -/
inductive FeedPhase
  | feeding (unwritten : List UInt8)
  | ended
  | stopped
  deriving DecidableEq, Repr

inductive DrainPhase
  | draining
  | ended
  | stopped
  deriving DecidableEq, Repr

def FeedPhase.feeds : FeedPhase → Bool
  | .feeding _ => true
  | .ended | .stopped => false

/-- `dropped` when `handle_attach` has returned. The ghosts are what it has forwarded and what the
hub has for its client: the backlog, and what is broadcast while the feed listens. -/
structure ViewPipeline (σ : Type) where
  hub : HubWorld
  receiver : Receiver
  finiteBacklog : Bool
  feed : FeedPhase
  filter : PipedFilter σ UInt8 UInt8
  drain : DrainPhase
  view : ViewOutput
  dropped : Bool
  shown : List UInt8
  stream : List UInt8

inductive PipelineEvent
  | hub (e : HubEvent)
  | feedTakes
  | feedEnds
  | feedWrites (n : ℕ)
  | feedFails
  | filter (e : FilterEvent)
  | drainReads (n : ℕ)
  | drainEnds
  | drainFails
  | forwards
  | drops

/-- What a broadcast hands to the clients. -/
def HubEvent.data : HubEvent → List UInt8
  | .broadcast data _ => data
  | _ => []

def HubEvent.closesClient (k : ℕ) : HubEvent → Bool
  | .closeClient i => i = k
  | _ => false

/-- The tasks, the formatter and `handle_attach` do their work; the other events are broadcasts,
errors, the formatter's death and the end of the client. -/
def PipelineEvent.isWork : PipelineEvent → Bool
  | .filter e => e ≠ .dies
  | .feedTakes | .feedEnds | .feedWrites _ | .drainReads _ | .drainEnds | .forwards => true
  | .hub _ | .feedFails | .drainFails | .drops => false

namespace ViewPipeline
variable {σ : Type}

/-- The formatter is spawned, then its client is subscribed. -/
def spawnViewFilter (F : FilterProgram σ UInt8 UInt8) (hub : HubWorld) (finiteBacklog : Bool)
    (capIn capOut : ℕ) : ViewPipeline σ :=
  let subscribed := hub.hub.subscribe
  ⟨{ hub with hub := subscribed.2 },⟨subscribed.1,0⟩,finiteBacklog,.feeding [],
    .spawned F capIn capOut,.draining,⟨[],false⟩,false,[],hub.hub.backlog⟩

/-- The chunks that were sent to the client. -/
def chunks (w : ViewPipeline σ) : List (List UInt8) :=
  ((w.hub.hub.clients[w.receiver.channel]?).map Channel.sent).getD []

/-- The feed drops its receiver and the formatter's stdin. -/
def unfeeds (w : ViewPipeline σ) (feed : FeedPhase) : ViewPipeline σ :=
  let clients := w.hub.hub.clients.modify w.receiver.channel Channel.close
  { w with
    hub := { w.hub with hub := { w.hub.hub with clients } }
    feed := feed, filter := w.filter.closesInput }

/-- The hub has done something, and what it has broadcast is for the client that listens. -/
def hears (w : ViewPipeline σ) (e : HubEvent) (hub : HubWorld) : ViewPipeline σ :=
  { w with hub := hub, stream := w.stream ++ if w.feed.feeds then e.data else [] }

def step (F : FilterProgram σ UInt8 UInt8) (w : ViewPipeline σ) :
    PipelineEvent → Option (ViewPipeline σ)
  | .hub e =>
    if e.closesClient w.receiver.channel then none
    else (w.hub.step e).map (w.hears e)
  | .feedTakes =>
    match w.feed,w.chunks[w.receiver.received]? with
    | .feeding [],some chunk =>
      some { w with
        receiver := { w.receiver with received := w.receiver.received + 1 }, feed := .feeding chunk }
    | _,_ => none
  | .feedEnds =>
    if w.feed = .feeding [] ∧ w.finiteBacklog ∧ w.chunks.length ≤ w.receiver.received then
      some (w.unfeeds .ended)
    else none
  | .feedWrites n =>
    match w.feed with
    | .feeding unwritten =>
      if w.filter.alive ∧ 0 < n ∧ n ≤ unwritten.length ∧
          w.filter.stdin.queue.length + n ≤ w.filter.stdin.cap then
        some { w with
          feed := .feeding (unwritten.drop n), filter := w.filter.feeds (unwritten.take n) }
      else none
    | .ended | .stopped => none
  | .feedFails =>
    match w.feed with
    | .feeding (_::_) => some (w.unfeeds .stopped)
    | .feeding [] | .ended | .stopped => none
  | .filter e => (w.filter.step F e).map fun filter => { w with filter := filter }
  | .drainReads n =>
    if w.drain = .draining ∧ 0 < n ∧ n ≤ w.filter.stdout.queue.length ∧ n ≤ PUMP_BUF then
      some { w with
        filter := w.filter.drains n
        view := { w.view with queue := w.view.queue ++ [w.filter.stdout.queue.take n] } }
    else none
  | .drainEnds =>
    if w.drain = .draining ∧ w.filter.stdout.queue = [] ∧ w.filter.stdout.closed then
      some { w with drain := .ended, view := { w.view with closed := true } }
    else none
  | .drainFails =>
    if w.drain = .draining then
      some { w with drain := .stopped, view := { w.view with closed := true } }
    else none
  | .forwards =>
    match w.view.queue with
    | chunk::queue =>
      if w.dropped then none
      else some { w with view := { w.view with queue }, shown := w.shown ++ chunk }
    | [] => none
  | .drops =>
    let w := if w.feed.feeds then w.unfeeds .stopped else w
    some { w with
      drain := if w.drain = .draining then .stopped else w.drain
      view := { w.view with closed := true }, dropped := true }

/-- The client sees what the formatter prints on what it has read, and where the backlog was all
and nothing went wrong, what it prints on all of it. -/
structure Filtered (F : FilterProgram σ UInt8 UInt8) (w : ViewPipeline σ) : Prop where
  read : w.filter.consumed <+: w.stream
  shown : w.shown <+: F.printed w.filter.consumed w.filter.sawEnd
  whole : w.feed = .ended → w.filter.phase = .exited → w.drain = .ended →
    w.shown ++ w.view.queue.flatten = F.printed w.stream true

/-- Nothing was broken off. -/
def Unbroken (w : ViewPipeline σ) : Prop :=
  w.feed ≠ .stopped ∧ w.filter.phase ≠ .killed ∧ w.drain ≠ .stopped ∧ w.dropped = false

/-- All is shown; of a finite backlog to its end, at which the channel is closed. -/
def Delivered (F : FilterProgram σ UInt8 UInt8) (w : ViewPipeline σ) : Prop :=
  w.shown = F.printed w.stream w.finiteBacklog ∧ (w.finiteBacklog = true → w.view = ⟨[],true⟩)

/-- All that the formatter was fed, and all that was read from it. -/
def fed (w : ViewPipeline σ) : List UInt8 := w.filter.consumed ++ w.filter.stdin.queue

def drained (w : ViewPipeline σ) : List UInt8 := w.shown ++ w.view.queue.flatten

/-- What is fed is what the hub has for its client, up to where the feed is. -/
def Feeding (w : ViewPipeline σ) : FeedPhase → Prop
  | .feeding unwritten => w.filter.stdin.closed = false ∧
    w.fed ++ unwritten ++ (w.chunks.drop w.receiver.received).flatten = w.stream
  | .ended => w.filter.stdin.closed = true ∧ w.fed = w.stream ∧ w.finiteBacklog = true
  | .stopped => w.filter.stdin.closed = true ∧ w.fed <+: w.stream

/-- The invariant. -/
structure Kept (F : FilterProgram σ UInt8 UInt8) (w : ViewPipeline σ) : Prop where
  filter : w.filter.Kept F w.fed w.drained
  channel : w.hub.hub.clients[w.receiver.channel]? = some ⟨w.chunks,!w.feed.feeds⟩
  stream : w.chunks.flatten = w.stream
  received : w.receiver.received ≤ w.chunks.length
  feeding : w.Feeding w.feed
  nonempty : ∀ chunk ∈ w.view.queue, chunk ≠ []
  drainEnded : w.drain = .ended →
    w.filter.stdout.queue = [] ∧ w.filter.stdout.closed = true ∧ w.view.closed = true
  draining : w.drain = .draining → w.dropped = false → w.view.closed = false
  capIn : 0 < w.filter.stdin.cap
  capOut : 0 < w.filter.stdout.cap

end ViewPipeline

/-- What an operation on the hub does to the channel of a client. -/
theorem HubWorld.step_channel {w w' : HubWorld} {e : HubEvent} {k : ℕ} {c : Channel (List UInt8)}
    (hstep : w.step e = some w') (hc : w.hub.clients[k]? = some c)
    (hother : e.closesClient k = false) : ∃ c', w'.hub.clients[k]? = some c' ∧
      c'.closed = c.closed ∧ (c'.sent = c.sent ∧ (c.closed = false → e.data = []) ∨
        c.closed = false ∧ c'.sent = c.sent ++ [e.data]) := by
  have hlt := (List.getElem?_eq_some_iff.mp hc).1
  cases e with
  | configureLog io =>
    obtain rfl := Option.some.inj hstep
    refine ⟨c,?_,rfl,.inl ⟨rfl,fun _ => rfl⟩⟩
    dsimp only
    unfold HubInner.configureLog
    split_ifs <;> exact hc
  | broadcast data io =>
    obtain ⟨-,hstep⟩ := Option.ite_none_left_eq_some.mp hstep
    obtain rfl := Option.some.inj hstep
    refine ⟨c.send data,?_,?_,?_⟩
    · simp [hc]
    · unfold Channel.send
      split_ifs <;> rfl
    · cases hclosed : c.closed with
      | true => exact .inl ⟨by simp [Channel.send,hclosed],by simp⟩
      | false => exact .inr ⟨rfl,by simp [Channel.send_open hclosed,HubEvent.data]⟩
  | subscribe =>
    obtain rfl := Option.some.inj hstep
    refine ⟨c,?_,rfl,.inl ⟨rfl,fun _ => rfl⟩⟩
    exact (List.getElem?_append_left hlt).trans hc
  | subscribeResumable since =>
    refine ⟨c,?_,rfl,.inl ⟨rfl,fun _ => rfl⟩⟩
    simp only [HubWorld.step] at hstep
    split at hstep
    · cases hstep
      exact hc
    · next subscription hub hsub =>
      cases hstep
      unfold HubInner.subscribeResumable at hsub
      split at hsub
      · cases hsub
      · split_ifs at hsub <;> cases hsub <;> exact hc
  | closeClient i =>
    obtain rfl := Option.some.inj hstep
    refine ⟨c,?_,rfl,.inl ⟨rfl,fun _ => rfl⟩⟩
    have hne : i ≠ k := by simpa [HubEvent.closesClient] using hother
    exact (List.getElem?_modify_ne Channel.close w.hub.clients hne).trans hc
  | closeResumeClient i =>
    obtain rfl := Option.some.inj hstep
    exact ⟨c,hc,rfl,.inl ⟨rfl,fun _ => rfl⟩⟩

namespace ViewPipeline
variable {σ : Type} {F : FilterProgram σ UInt8 UInt8} {w w' : ViewPipeline σ} {n : ℕ}

theorem start_kept (F : FilterProgram σ UInt8 UInt8) (hub : HubWorld) (finiteBacklog : Bool)
    {capIn capOut : ℕ} (hin : 0 < capIn) (hout : 0 < capOut) :
    (spawnViewFilter F hub finiteBacklog capIn capOut).Kept F := by
  have hchunks : (spawnViewFilter F hub finiteBacklog capIn capOut).chunks =
      if hub.hub.backlog = [] then [] else [hub.hub.backlog] := by
    simp [chunks,spawnViewFilter,HubInner.subscribe]
  have hflatten : (if hub.hub.backlog = [] then [] else [hub.hub.backlog]).flatten =
      hub.hub.backlog := by
    split_ifs with h <;> simp [h]
  constructor
  case filter => exact PipedFilter.spawned_kept F capIn capOut
  case channel =>
    rw [hchunks]
    simp [spawnViewFilter,HubInner.subscribe,FeedPhase.feeds]
  case stream => rw [hchunks,hflatten]; rfl
  case received => exact Nat.zero_le _
  case feeding =>
    refine ⟨rfl,?_⟩
    rw [hchunks]
    exact hflatten
  case nonempty => exact fun chunk hchunk => absurd hchunk List.not_mem_nil
  case drainEnded => rintro ⟨⟩
  case draining => exact fun _ _ => rfl
  case capIn => exact hin
  case capOut => exact hout

/-- The hub sends to the client while its feed listens. -/
theorem Kept.hears {hub : HubWorld} {e : HubEvent} (h : w.Kept F) (hstep : w.hub.step e = some hub)
    (hother : e.closesClient w.receiver.channel = false) : (w.hears e hub).Kept F := by
  obtain ⟨c,hc,hclosed,hsent⟩ := HubWorld.step_channel hstep h.channel hother
  obtain ⟨tail,hsent,htail⟩ : ∃ tail, c.sent = w.chunks ++ tail ∧
      tail.flatten = if w.feed.feeds then e.data else [] := by
    rcases hsent with ⟨hsame,hnone⟩ | ⟨hopen,hsent⟩
    · refine ⟨[],by simp [hsame],?_⟩
      cases hfeeds : w.feed.feeds with
      | false => rfl
      | true => exact (hnone (by simp [hfeeds])).symm
    · have hfeeds : w.feed.feeds = true := by simpa using hopen
      exact ⟨[e.data],hsent,by simp [hfeeds]⟩
  have hchunks : (w.hears e hub).chunks = w.chunks ++ tail := by
    rw [← hsent]
    simp [chunks,ViewPipeline.hears,hc]
  have hfeeding : ∀ feed, w.feed = feed → w.Feeding feed → (w.hears e hub).Feeding feed := by
    intro feed hfeed hfed
    cases feed with
    | feeding unwritten =>
      refine ⟨hfed.1,?_⟩
      rw [hchunks]
      change w.fed ++ unwritten ++ (List.drop w.receiver.received (w.chunks ++ tail)).flatten = _
      rw [List.drop_append_of_le_length h.received,List.flatten_append,← List.append_assoc,hfed.2,
        htail]
      rfl
    | ended =>
      have hsame : (w.hears e hub).stream = w.stream := by
        simp [ViewPipeline.hears,hfeed,FeedPhase.feeds]
      exact ⟨hfed.1,hfed.2.1.trans hsame.symm,hfed.2.2⟩
    | stopped => exact ⟨hfed.1,hfed.2.trans (List.prefix_append _ _)⟩
  refine { h with channel := ?_, stream := ?_, received := ?_, feeding := hfeeding _ rfl h.feeding }
  · rw [hchunks,← hsent]
    refine hc.trans (congrArg some ?_)
    cases c
    exact congrArg _ hclosed
  · rw [hchunks,List.flatten_append,h.stream,htail]
    rfl
  · rw [hchunks,List.length_append]
    exact Nat.le_trans h.received (Nat.le_add_right _ _)

/-- The feed ends, and its channel is closed. -/
theorem Kept.unfeeds {feed : FeedPhase} (h : w.Kept F) (hfeeds : feed.feeds = false)
    (hfeeding : feed = .ended → w.fed = w.stream ∧ w.finiteBacklog = true)
    (hstopped : feed = .stopped → w.fed <+: w.stream) : (w.unfeeds feed).Kept F := by
  have hclients : (w.unfeeds feed).hub.hub.clients[w.receiver.channel]? = some ⟨w.chunks,true⟩ := by
    simp [ViewPipeline.unfeeds,h.channel,Channel.close]
  have hchunks : (w.unfeeds feed).chunks = w.chunks := by
    unfold chunks
    rw [show (w.unfeeds feed).receiver = w.receiver from rfl,hclients]
    rfl
  refine { h with filter := h.filter.closesInput, channel := ?_, stream := ?_, received := ?_,
                  feeding := ?_ }
  · rw [hchunks]
    simpa [ViewPipeline.unfeeds,hfeeds] using hclients
  · rw [hchunks]
    exact h.stream
  · rw [hchunks]
    exact h.received
  · change (w.unfeeds feed).Feeding feed
    cases feed with
    | feeding unwritten => cases hfeeds
    | ended => exact ⟨rfl,hfeeding rfl⟩
    | stopped => exact ⟨rfl,hstopped rfl⟩

theorem Kept.takes {chunk : List UInt8} (h : w.Kept F) (hfeed : w.feed = .feeding [])
    (hchunk : w.chunks[w.receiver.received]? = some chunk) :
    Kept F { w with
      receiver := { w.receiver with received := w.receiver.received + 1 }, feed := .feeding chunk } := by
  have hfed := h.feeding
  have hchannel := h.channel
  rw [hfeed] at hfed hchannel
  obtain ⟨hlt,hget⟩ := List.getElem?_eq_some_iff.mp hchunk
  refine { h with channel := hchannel, received := hlt, feeding := ⟨hfed.1,?_⟩ }
  have hstream := hfed.2
  rw [List.append_nil,List.drop_eq_getElem_cons hlt,hget,List.flatten_cons,← List.append_assoc]
    at hstream
  exact hstream

theorem Kept.writes {unwritten : List UInt8} (h : w.Kept F) (hfeed : w.feed = .feeding unwritten)
    (n : ℕ) : Kept F { w with
      feed := .feeding (unwritten.drop n), filter := w.filter.feeds (unwritten.take n) } := by
  have hfed := h.feeding
  have hchannel := h.channel
  rw [hfeed] at hfed hchannel
  have hnew : w.filter.consumed ++ (w.filter.stdin.queue ++ unwritten.take n) =
      w.fed ++ unwritten.take n := (List.append_assoc _ _ _).symm
  refine { h with filter := ?_, channel := hchannel, feeding := ⟨hfed.1,?_⟩ }
  · have hfilter := h.filter.feeds hfed.1 (unwritten.take n)
    rw [← hnew] at hfilter
    exact hfilter
  · change w.filter.consumed ++ (w.filter.stdin.queue ++ unwritten.take n) ++ unwritten.drop n ++ _ = _
    rw [hnew,List.append_assoc w.fed,List.take_append_drop]
    exact hfed.2

/-- The formatter does something, and takes what it was fed for its input. -/
theorem Kept.works {filter : PipedFilter σ UInt8 UInt8} {e : FilterEvent} (h : w.Kept F)
    (hstep : w.filter.step F e = some filter) : Kept F { w with filter := filter } := by
  have hfilter := h.filter.step hstep
  have hsame : filter.consumed ++ filter.stdin.queue = w.fed := hfilter.consumed
  obtain ⟨hclosed,hcapIn,hcapOut⟩ := PipedFilter.step_frame hstep
  refine { h with filter := ?_, feeding := ?_, drainEnded := ?_, capIn := ?_, capOut := ?_ }
  · rw [← hsame] at hfilter
    exact hfilter
  · have hfed := h.feeding
    dsimp only
    cases hfeed : w.feed with
    | feeding unwritten =>
      rw [hfeed] at hfed
      exact ⟨hclosed.trans hfed.1,(congrArg (· ++ unwritten ++ _) hsame).trans hfed.2⟩
    | ended =>
      rw [hfeed] at hfed
      exact ⟨hclosed.trans hfed.1,hsame.trans hfed.2.1,hfed.2.2⟩
    | stopped =>
      rw [hfeed] at hfed
      refine ⟨hclosed.trans hfed.1,?_⟩
      change filter.consumed ++ filter.stdin.queue <+: _
      rw [hsame]
      exact hfed.2
  · intro hended
    obtain ⟨hqueue,hout,hview⟩ := h.drainEnded hended
    have hstdout := h.filter.step_closed hstep hout
    exact ⟨by rw [hstdout]; exact hqueue,by rw [hstdout]; exact hout,hview⟩
  · exact hcapIn ▸ h.capIn
  · exact hcapOut ▸ h.capOut

/-- A piece of the formatter's output is on its way. -/
theorem Kept.reads (h : w.Kept F) (hdraining : w.drain = .draining) (hpos : 0 < n)
    (hle : n ≤ w.filter.stdout.queue.length) : Kept F { w with
      filter := w.filter.drains n
      view := { w.view with queue := w.view.queue ++ [w.filter.stdout.queue.take n] } } := by
  refine { h with filter := ?_, nonempty := ?_, drainEnded := ?_ }
  · have hfilter := h.filter.drains n
    have hdrained : w.drained ++ w.filter.stdout.queue.take n =
        w.shown ++ (w.view.queue ++ [w.filter.stdout.queue.take n]).flatten := by
      simp [drained]
    rw [hdrained] at hfilter
    exact hfilter
  · intro chunk hchunk
    rcases List.mem_append.mp hchunk with hold | hnew
    · exact h.nonempty chunk hold
    · rw [List.mem_singleton.mp hnew]
      exact List.ne_nil_of_length_pos (by rw [List.length_take]; omega)
  · exact fun hended => absurd (hdraining.symm.trans hended) (by simp)

theorem Kept.forwards {chunk : List UInt8} {queue : List (List UInt8)} (h : w.Kept F)
    (hqueue : w.view.queue = chunk::queue) :
    Kept F { w with view := { w.view with queue }, shown := w.shown ++ chunk } := by
  have hdrained : w.shown ++ chunk ++ queue.flatten = w.drained := by simp [drained,hqueue]
  refine { h with filter := ?_, nonempty := ?_ }
  · change w.filter.Kept F _ (w.shown ++ chunk ++ queue.flatten)
    rw [hdrained]
    exact h.filter
  · exact fun c hc => h.nonempty c (by rw [hqueue]; exact List.mem_cons_of_mem _ hc)

/-- What is fed is part of what the hub has. -/
theorem Kept.fed_prefix (h : w.Kept F) : w.fed <+: w.stream := by
  have hfed := h.feeding
  cases hfeed : w.feed with
  | feeding unwritten =>
    rw [hfeed] at hfed
    exact ⟨_,(List.append_assoc _ _ _).symm.trans hfed.2⟩
  | ended =>
    rw [hfeed] at hfed
    exact ⟨[],(List.append_nil _).trans hfed.2.1⟩
  | stopped =>
    rw [hfeed] at hfed
    exact hfed.2

theorem Kept.drops (h : w.Kept F) : Kept F { w with
    drain := if w.drain = .draining then .stopped else w.drain
    view := { w.view with closed := true }, dropped := true } := by
  refine { h with drainEnded := ?_, draining := ?_ }
  · intro hended
    dsimp only at hended ⊢
    split_ifs at hended
    exact ⟨(h.drainEnded hended).1,(h.drainEnded hended).2.1,rfl⟩
  · exact fun _ hdropped => absurd hdropped (by simp)

theorem step_kept (w : ViewPipeline σ) (e : PipelineEvent) (w' : ViewPipeline σ)
    (hstep : step F w e = some w') (h : w.Kept F) : w'.Kept F := by
  cases e with
  | hub e =>
    obtain ⟨hother,hstep⟩ := Option.ite_none_left_eq_some.mp hstep
    obtain ⟨hub,hhub,rfl⟩ := Option.map_eq_some_iff.mp hstep
    exact h.hears hhub (by simpa using hother)
  | feedTakes =>
    simp only [step] at hstep
    split at hstep
    · next chunk hfeed hchunk =>
      obtain rfl := Option.some.inj hstep
      exact h.takes hfeed hchunk
    · cases hstep
  | feedEnds =>
    obtain ⟨⟨hfeed,hfinite,hall⟩,hstep⟩ := Option.ite_none_right_eq_some.mp hstep
    obtain rfl := Option.some.inj hstep
    have hfed := h.feeding
    rw [hfeed] at hfed
    have hstream := hfed.2
    rw [List.append_nil,List.drop_eq_nil_of_le hall,List.flatten_nil,List.append_nil] at hstream
    exact h.unfeeds rfl (fun _ => ⟨hstream,hfinite⟩) (by rintro ⟨⟩)
  | feedWrites n =>
    simp only [step] at hstep
    split at hstep
    · next unwritten hfeed =>
      obtain ⟨-,hstep⟩ := Option.ite_none_right_eq_some.mp hstep
      obtain rfl := Option.some.inj hstep
      exact h.writes hfeed n
    · cases hstep
    · cases hstep
  | feedFails =>
    simp only [step] at hstep
    split at hstep
    · obtain rfl := Option.some.inj hstep
      exact h.unfeeds rfl (by rintro ⟨⟩) (fun _ => h.fed_prefix)
    · cases hstep
    · cases hstep
    · cases hstep
  | filter e =>
    obtain ⟨filter,hfilter,rfl⟩ := Option.map_eq_some_iff.mp hstep
    exact h.works hfilter
  | drainReads n =>
    obtain ⟨⟨hdraining,hpos,hle,-⟩,hstep⟩ := Option.ite_none_right_eq_some.mp hstep
    obtain rfl := Option.some.inj hstep
    exact h.reads hdraining hpos hle
  | drainEnds =>
    obtain ⟨⟨hdraining,hqueue,hclosed⟩,hstep⟩ := Option.ite_none_right_eq_some.mp hstep
    obtain rfl := Option.some.inj hstep
    refine { h with drainEnded := fun _ => ⟨hqueue,hclosed,rfl⟩, draining := ?_ }
    rintro ⟨⟩
  | drainFails =>
    obtain ⟨hdraining,hstep⟩ := Option.ite_none_right_eq_some.mp hstep
    obtain rfl := Option.some.inj hstep
    refine { h with drainEnded := ?_, draining := ?_ }
    · rintro ⟨⟩
    · rintro ⟨⟩
  | forwards =>
    simp only [step] at hstep
    split at hstep
    · next chunk queue hqueue =>
      obtain ⟨-,hstep⟩ := Option.ite_none_left_eq_some.mp hstep
      obtain rfl := Option.some.inj hstep
      exact h.forwards hqueue
    · cases hstep
  | drops =>
    obtain rfl := Option.some.inj hstep
    have hstopped : Kept F (if w.feed.feeds then w.unfeeds .stopped else w) := by
      split_ifs
      · exact h.unfeeds rfl (by rintro ⟨⟩) (fun _ => h.fed_prefix)
      · exact h
    exact hstopped.drops

theorem Kept.filtered (h : w.Kept F) : w.Filtered F where
  read := h.filter.consumed_prefix.trans h.fed_prefix
  shown := by
    have hshown : w.shown <+: w.drained ++ w.filter.stdout.queue :=
      (List.prefix_append _ _).trans (List.prefix_append _ _)
    exact hshown.trans h.filter.drained
  whole hended hexited hdrained := by
    have hfed := h.feeding
    rw [hended] at hfed
    have hsaw := h.filter.flushing (.inr hexited)
    have hprinted := h.filter.printed (by simp [hexited])
    have hall : w.filter.consumed = w.stream := by
      rw [← hfed.2.1,fed,(h.filter.sawEnd hsaw).1,List.append_nil]
    rw [h.filter.exited hexited,(h.drainEnded hdrained).1,List.append_nil,List.append_nil,hsaw,hall]
      at hprinted
    exact hprinted

theorem Kept.open_view (h : w.Kept F) (hdraining : w.drain = .draining)
    (hdropped : w.dropped = false) : w.view = ⟨w.view.queue,false⟩ := by
  rw [← h.draining hdraining hdropped]

/-- To the task of the client the pipeline is a formatter: what it does to the channel is one of
the formatter's events there, and what is forwarded is a frame of that task. -/
theorem Kept.step_task {e : PipelineEvent} (h : w.Kept F) (hstep : step F w e = some w')
    (hdropped : w.dropped = false) {t : LoopTask} (ht : t.view = some w.view) (loop : LoopWorld) :
    w'.view = w.view ∧ w'.shown = w.shown ∨
      w'.shown = w.shown ∧ (∃ a, t.step loop a = some { t with view := some w'.view }) ∨
      w'.dropped = true ∨
      ∃ chunk, w'.shown = w.shown ++ chunk ∧ (t.pollData loop).view = some w'.view ∧
        (t.pollData loop).handler = t.handler.send ⟨S_OUTPUT,chunk⟩ := by
  cases e with
  | hub e =>
    obtain ⟨-,hstep⟩ := Option.ite_none_left_eq_some.mp hstep
    obtain ⟨hub,-,rfl⟩ := Option.map_eq_some_iff.mp hstep
    exact .inl ⟨rfl,rfl⟩
  | feedTakes =>
    simp only [step] at hstep
    split at hstep
    · obtain rfl := Option.some.inj hstep
      exact .inl ⟨rfl,rfl⟩
    · cases hstep
  | feedEnds =>
    obtain ⟨-,hstep⟩ := Option.ite_none_right_eq_some.mp hstep
    obtain rfl := Option.some.inj hstep
    exact .inl ⟨rfl,rfl⟩
  | feedWrites n =>
    simp only [step] at hstep
    split at hstep
    · obtain ⟨-,hstep⟩ := Option.ite_none_right_eq_some.mp hstep
      obtain rfl := Option.some.inj hstep
      exact .inl ⟨rfl,rfl⟩
    · cases hstep
    · cases hstep
  | feedFails =>
    simp only [step] at hstep
    split at hstep
    · obtain rfl := Option.some.inj hstep
      exact .inl ⟨rfl,rfl⟩
    · cases hstep
    · cases hstep
    · cases hstep
  | filter e =>
    obtain ⟨filter,-,rfl⟩ := Option.map_eq_some_iff.mp hstep
    exact .inl ⟨rfl,rfl⟩
  | drainReads n =>
    obtain ⟨⟨hdraining,-⟩,hstep⟩ := Option.ite_none_right_eq_some.mp hstep
    obtain rfl := Option.some.inj hstep
    rw [h.open_view hdraining hdropped] at ht
    refine .inr (.inl ⟨rfl,.formats (w.filter.stdout.queue.take n),?_⟩)
    simp [LoopTask.step,ht,h.draining hdraining hdropped]
  | drainEnds =>
    obtain ⟨⟨hdraining,-⟩,hstep⟩ := Option.ite_none_right_eq_some.mp hstep
    obtain rfl := Option.some.inj hstep
    rw [h.open_view hdraining hdropped] at ht
    refine .inr (.inl ⟨rfl,.formatterCloses,?_⟩)
    simp [LoopTask.step,ht]
  | drainFails =>
    obtain ⟨hdraining,hstep⟩ := Option.ite_none_right_eq_some.mp hstep
    obtain rfl := Option.some.inj hstep
    rw [h.open_view hdraining hdropped] at ht
    refine .inr (.inl ⟨rfl,.formatterCloses,?_⟩)
    simp [LoopTask.step,ht]
  | forwards =>
    simp only [step] at hstep
    split at hstep
    · next chunk queue hqueue =>
      obtain ⟨-,hstep⟩ := Option.ite_none_left_eq_some.mp hstep
      obtain rfl := Option.some.inj hstep
      have hview : w.view = ⟨chunk::queue,w.view.closed⟩ := by rw [← hqueue]
      rw [hview] at ht
      refine .inr (.inr (.inr ⟨chunk,rfl,?_⟩))
      simp [LoopTask.pollData,LoopTask.completes,ht]
    · cases hstep
  | drops =>
    obtain rfl := Option.some.inj hstep
    exact .inr (.inr (.inl rfl))

/-- A feed that cannot go on has fed everything, and its backlog is not a finite one. -/
theorem Kept.feed_idle {unwritten : List UInt8} (h : w.Kept F) (hfeed : w.feed = .feeding unwritten)
    (halive : w.filter.alive = true) (hroom : w.filter.stdin.queue = [])
    (hidle : ∀ e, e.isWork = true → step F w e = none) :
    w.fed = w.stream ∧ w.finiteBacklog = false := by
  have hfed := h.feeding
  rw [hfeed] at hfed
  have hunwritten : unwritten = [] := by
    by_contra hne
    have hwrites := hidle (.feedWrites 1) rfl
    simp only [step,hfeed] at hwrites
    rw [if_pos ⟨halive,Nat.one_pos,List.length_pos_iff.mpr hne,by
      rw [hroom]; exact Nat.le_trans (by simp) h.capIn⟩] at hwrites
    cases hwrites
  subst hunwritten
  have hall : w.chunks.length ≤ w.receiver.received := by
    by_contra hlt
    have htakes := hidle .feedTakes rfl
    simp [step,hfeed,List.getElem?_eq_getElem (Nat.lt_of_not_le hlt)] at htakes
  refine ⟨?_,?_⟩
  · have hstream := hfed.2
    rwa [List.append_nil,List.drop_eq_nil_of_le hall,List.flatten_nil,List.append_nil] at hstream
  · by_contra hfinite
    have hends := hidle .feedEnds rfl
    rw [step,if_pos ⟨hfeed,by simpa using hfinite,hall⟩] at hends
    cases hends

/-- Where no task can go on, all is delivered. -/
theorem Kept.delivered (h : w.Kept F) (hunbroken : w.Unbroken)
    (hidle : ∀ e, e.isWork = true → step F w e = none) : w.Delivered F := by
  obtain ⟨hstopped,hkilled,hdrain,hdropped⟩ := hunbroken
  have hqueue : w.view.queue = [] := by
    by_contra hne
    obtain ⟨chunk,queue,hcons⟩ := List.exists_cons_of_ne_nil hne
    have hforwards := hidle .forwards rfl
    simp [step,hcons,hdropped] at hforwards
  have hout : w.filter.stdout.queue = [] := by
    by_contra hne
    have hdraining : w.drain = .draining := by
      cases hd : w.drain with
      | draining => rfl
      | ended => exact absurd (h.drainEnded hd).1 hne
      | stopped => exact absurd hd hdrain
    have hreads := hidle (.drainReads 1) rfl
    rw [step,if_pos ⟨hdraining,Nat.one_pos,List.length_pos_iff.mpr hne,by decide⟩] at hreads
    cases hreads
  have hfilter : ∀ e, e ≠ .dies → w.filter.step F e = none := by
    intro e he
    exact Option.map_eq_none_iff.mp (hidle (.filter e) (by simpa [PipelineEvent.isWork] using he))
  have hshown : w.shown = w.drained := by simp [drained,hqueue]
  have hprinted := h.filter.printed hkilled
  rw [hout,List.append_nil,← hshown] at hprinted
  have hfed := h.feeding
  rcases PipedFilter.waits h.capOut hfilter hkilled with
    hne | ⟨-,⟨hreading,hempty,hopen,hheld⟩ | hexited⟩
  · exact absurd hout hne
  · cases hfeed : w.feed with
    | stopped => exact absurd hfeed hstopped
    | ended =>
      rw [hfeed] at hfed
      exact absurd (hopen.symm.trans hfed.1) (by simp)
    | feeding unwritten =>
      obtain ⟨hall,hlive⟩ := h.feed_idle hfeed (by simp [PipedFilter.alive,hreading]) hempty hidle
      rw [fed,hempty,List.append_nil] at hall
      rw [hheld,List.append_nil,hall,h.filter.reading hreading] at hprinted
      refine ⟨by rw [hlive]; exact hprinted,fun hfinite => ?_⟩
      rw [hlive] at hfinite
      cases hfinite
  · have hsaw := h.filter.flushing (.inr hexited)
    have hclosed := h.filter.sawEnd hsaw
    cases hfeed : w.feed with
    | stopped => exact absurd hfeed hstopped
    | feeding unwritten =>
      rw [hfeed] at hfed
      exact absurd (hfed.1.symm.trans hclosed.2) (by simp)
    | ended =>
      rw [hfeed] at hfed
      have hall : w.filter.consumed = w.stream := by
        rw [← hfed.2.1,fed,hclosed.1,List.append_nil]
      rw [h.filter.exited hexited,List.append_nil,hall,hsaw] at hprinted
      refine ⟨by rw [hfed.2.2]; exact hprinted,fun _ => ?_⟩
      cases hd : w.drain with
      | stopped => exact absurd hd hdrain
      | ended =>
        obtain ⟨-,-,hview⟩ := h.drainEnded hd
        exact congrArg₂ ViewOutput.mk hqueue hview
      | draining =>
        have hends := hidle .drainEnds rfl
        rw [step,if_pos ⟨hd,hout,h.filter.closed.mpr (by simp [PipedFilter.alive,hexited])⟩] at hends
        cases hends

/-- All that will have been fed. -/
def due (w : ViewPipeline σ) : List UInt8 := if w.feed.feeds then w.stream else w.fed

/-- What is left to feed: the chunks to take, and twice the bytes, which will also be read. -/
def feedTodo (w : ViewPipeline σ) : ℕ :=
  match w.feed with
  | .feeding unwritten => 1 + (w.chunks.length - w.receiver.received) +
    2*(unwritten ++ (w.chunks.drop w.receiver.received).flatten).length
  | .ended | .stopped => 0

/-- What may still be printed, and be on its way through the pipe and the channel. -/
def printTodo (F : FilterProgram σ UInt8 UInt8) (w : ViewPipeline σ) : ℕ :=
  let whole := (F.printed w.due true).length
  (whole - (w.drained ++ w.filter.stdout.queue).length) + (whole - w.drained.length) +
    (whole - w.shown.length)

/-- No more work than this is left to do. -/
def todo (F : FilterProgram σ UInt8 UInt8) (w : ViewPipeline σ) : ℕ :=
  w.feedTodo + w.filter.todo + w.printTodo F + if w.drain = .draining then 1 else 0

theorem Kept.printed_le (h : w.Kept F) :
    (w.drained ++ w.filter.stdout.queue).length ≤ (F.printed w.due true).length := by
  have hfed : w.fed <+: w.due := by
    unfold due
    split_ifs
    · exact h.fed_prefix
    · exact ⟨[],List.append_nil _⟩
  refine (h.filter.written_prefix hfed fun hsaw => ?_).length_le
  have hclosed := (h.filter.sawEnd hsaw).2
  have hfeeding := h.feeding
  unfold due
  split_ifs with hfeeds
  · cases hfeed : w.feed with
    | feeding unwritten =>
      rw [hfeed] at hfeeding
      exact absurd (hfeeding.1.symm.trans hclosed) (by simp)
    | ended | stopped => simp [hfeed,FeedPhase.feeds] at hfeeds
  · rfl

theorem feedTodo_takes {chunk : List UInt8} (hfeed : w.feed = .feeding [])
    (hchunk : w.chunks[w.receiver.received]? = some chunk) :
    feedTodo { w with
      receiver := { w.receiver with received := w.receiver.received + 1 }, feed := .feeding chunk } <
      w.feedTodo := by
  obtain ⟨hlt,hget⟩ := List.getElem?_eq_some_iff.mp hchunk
  have hbefore : w.feedTodo = 1 + (w.chunks.length - w.receiver.received) +
      2*(chunk ++ (w.chunks.drop (w.receiver.received + 1)).flatten).length := by
    simp only [feedTodo,hfeed,List.nil_append]
    rw [List.drop_eq_getElem_cons hlt,hget,List.flatten_cons]
  rw [hbefore]
  change 1 + (w.chunks.length - (w.receiver.received + 1)) + _ < _
  exact Nat.add_lt_add_right (by omega) _

theorem feedTodo_writes {unwritten : List UInt8} (hfeed : w.feed = .feeding unwritten)
    (hpos : 0 < n) (hle : n ≤ unwritten.length) :
    feedTodo { w with
      feed := .feeding (unwritten.drop n), filter := w.filter.feeds (unwritten.take n) } +
      (w.filter.feeds (unwritten.take n)).todo < w.feedTodo + w.filter.todo := by
  have hbefore : w.feedTodo = 1 + (w.chunks.length - w.receiver.received) +
      2*(unwritten ++ (w.chunks.drop w.receiver.received).flatten).length := by
    simp only [feedTodo,hfeed]
  rw [hbefore,PipedFilter.todo_feeds]
  change 1 + (w.chunks.length - w.receiver.received) +
    2*(unwritten.drop n ++ (w.chunks.drop w.receiver.received).flatten).length + _ < _
  simp only [List.length_append,List.length_take,List.length_drop]
  omega

/-- Nothing goes back, and something gets nearer to its end. -/
theorem todo_lt (hdue : w'.due = w.due)
    (hle : (w'.drained ++ w'.filter.stdout.queue).length ≤ (F.printed w'.due true).length)
    (hwork : w'.feedTodo + w'.filter.todo ≤ w.feedTodo + w.filter.todo)
    (hout : (w.drained ++ w.filter.stdout.queue).length ≤
      (w'.drained ++ w'.filter.stdout.queue).length)
    (hdrained : w.drained.length ≤ w'.drained.length) (hshown : w.shown.length ≤ w'.shown.length)
    (hdrain : w'.drain = .draining → w.drain = .draining)
    (hless : w'.feedTodo + w'.filter.todo < w.feedTodo + w.filter.todo ∨
      (w.drained ++ w.filter.stdout.queue).length < (w'.drained ++ w'.filter.stdout.queue).length ∨
      w.drained.length < w'.drained.length ∨ w.shown.length < w'.shown.length ∨
      w.drain = .draining ∧ w'.drain ≠ .draining) : w'.todo F < w.todo F := by
  have hdrained' : w'.drained.length ≤ (w'.drained ++ w'.filter.stdout.queue).length := by simp
  have hshown' : w'.shown.length ≤ w'.drained.length := by simp [drained]
  have hends : (if w'.drain = .draining then 1 else 0) ≤ if w.drain = .draining then 1 else 0 := by
    split_ifs with h' h <;> simp_all
  have hends' : w.drain = .draining → w'.drain ≠ .draining →
      (if w'.drain = .draining then 1 else 0) < if w.drain = .draining then 1 else 0 := by
    intro h h'
    rw [if_pos h,if_neg h']
    exact Nat.one_pos
  unfold todo printTodo
  rw [hdue] at hle ⊢
  dsimp only
  rcases hless with h | h | h | h | ⟨h,h'⟩
  · omega
  · omega
  · omega
  · omega
  · have hlast := hends' h h'
    omega

/-- Every piece of work gets something nearer to its end. -/
theorem Kept.step_todo {e : PipelineEvent} (h : w.Kept F) (hstep : step F w e = some w')
    (he : e.isWork = true) : w'.todo F < w.todo F := by
  have hle := (step_kept w e w' hstep h).printed_le
  have hfed := h.feeding
  cases e with
  | feedTakes =>
    simp only [step] at hstep
    split at hstep
    · next chunk hfeed hchunk =>
      obtain rfl := Option.some.inj hstep
      have hless := Nat.add_lt_add_right (feedTodo_takes hfeed hchunk) w.filter.todo
      refine todo_lt ?_ hle (Nat.le_of_lt hless) (Nat.le_refl _) (Nat.le_refl _) (Nat.le_refl _) id
        (.inl hless)
      simp [due,hfeed,FeedPhase.feeds]
    · cases hstep
  | feedEnds =>
    obtain ⟨⟨hfeed,-,hall⟩,hstep⟩ := Option.ite_none_right_eq_some.mp hstep
    obtain rfl := Option.some.inj hstep
    rw [hfeed] at hfed
    have hless : (w.unfeeds .ended).feedTodo < w.feedTodo := by
      simp only [feedTodo,hfeed]
      exact Nat.lt_of_lt_of_le Nat.one_pos (by omega)
    have hless := Nat.add_lt_add_right hless w.filter.todo
    refine todo_lt ?_ hle (Nat.le_of_lt hless) (Nat.le_refl _) (Nat.le_refl _) (Nat.le_refl _) id
      (.inl hless)
    have hstream := hfed.2
    rw [List.append_nil,List.drop_eq_nil_of_le hall,List.flatten_nil,List.append_nil] at hstream
    have hdue : w.due = w.stream := by simp [due,hfeed,FeedPhase.feeds]
    exact hstream.trans hdue.symm
  | feedWrites n =>
    simp only [step] at hstep
    split at hstep
    · next unwritten hfeed =>
      obtain ⟨⟨-,hpos,hlen,-⟩,hstep⟩ := Option.ite_none_right_eq_some.mp hstep
      obtain rfl := Option.some.inj hstep
      have hless := feedTodo_writes hfeed hpos hlen
      refine todo_lt ?_ hle (Nat.le_of_lt hless) (Nat.le_refl _) (Nat.le_refl _) (Nat.le_refl _) id
        (.inl hless)
      simp [due,hfeed,FeedPhase.feeds]
    · cases hstep
    · cases hstep
  | filter e =>
    obtain ⟨filter,hfilter,rfl⟩ := Option.map_eq_some_iff.mp hstep
    have hdue : due { w with filter := filter } = w.due := by
      have hsame := (h.filter.step hfilter).consumed
      simp only [due,fed]
      rw [hsame]
      rfl
    rcases PipedFilter.step_todo hfilter (by simpa [PipelineEvent.isWork] using he) with
      ⟨hless,hsame⟩ | ⟨hsame,hmore⟩
    · have hless := Nat.add_lt_add_left hless w.feedTodo
      have hout : (w.drained ++ w.filter.stdout.queue).length ≤
          (w.drained ++ filter.stdout.queue).length := by rw [hsame]
      exact todo_lt hdue hle (Nat.le_of_lt hless) hout (Nat.le_refl _) (Nat.le_refl _) id (.inl hless)
    · have hmore : (w.drained ++ w.filter.stdout.queue).length <
          (w.drained ++ filter.stdout.queue).length := by simpa using hmore
      exact todo_lt hdue hle (Nat.le_of_eq (congrArg (w.feedTodo + ·) hsame)) (Nat.le_of_lt hmore)
        (Nat.le_refl _) (Nat.le_refl _) id (.inr (.inl hmore))
  | drainReads n =>
    obtain ⟨⟨hdraining,hpos,hlen,-⟩,hstep⟩ := Option.ite_none_right_eq_some.mp hstep
    obtain rfl := Option.some.inj hstep
    have hmore : w.drained.length <
        (w.shown ++ (w.view.queue ++ [w.filter.stdout.queue.take n]).flatten).length := by
      simp only [drained,List.flatten_append,List.flatten_singleton,List.length_append,
        List.length_take]
      omega
    have hout : (w.drained ++ w.filter.stdout.queue).length ≤
        (w.shown ++ (w.view.queue ++ [w.filter.stdout.queue.take n]).flatten ++
          w.filter.stdout.queue.drop n).length := by
      simp only [drained,List.flatten_append,List.flatten_singleton,List.length_append,
        List.length_take,List.length_drop]
      omega
    exact todo_lt rfl hle (Nat.le_refl _) hout (Nat.le_of_lt hmore) (Nat.le_refl _) id
      (.inr (.inr (.inl hmore)))
  | drainEnds =>
    obtain ⟨⟨hdraining,-,-⟩,hstep⟩ := Option.ite_none_right_eq_some.mp hstep
    obtain rfl := Option.some.inj hstep
    exact todo_lt rfl hle (Nat.le_refl _) (Nat.le_refl _) (Nat.le_refl _) (Nat.le_refl _)
      (by rintro ⟨⟩) (.inr (.inr (.inr (.inr ⟨hdraining,by simp⟩))))
  | forwards =>
    simp only [step] at hstep
    split at hstep
    · next chunk queue hqueue =>
      obtain ⟨-,hstep⟩ := Option.ite_none_left_eq_some.mp hstep
      obtain rfl := Option.some.inj hstep
      have hpos := List.length_pos_iff.mpr (h.nonempty chunk (by simp [hqueue]))
      have hmore : w.shown.length < (w.shown ++ chunk).length := by
        rw [List.length_append]
        omega
      have hsame : w.shown ++ chunk ++ queue.flatten = w.drained := by simp [drained,hqueue]
      have hdrained : w.drained.length ≤ (w.shown ++ chunk ++ queue.flatten).length := by rw [hsame]
      have hout : (w.drained ++ w.filter.stdout.queue).length ≤
          (w.shown ++ chunk ++ queue.flatten ++ w.filter.stdout.queue).length := by rw [hsame]
      exact todo_lt rfl hle (Nat.le_refl _) hout hdrained (Nat.le_of_lt hmore) id
        (.inr (.inr (.inr (.inl hmore))))
    · cases hstep
  | hub e | feedFails | drainFails | drops => cases he

/-- The formatted view, in every order of the hub, the two tasks, the formatter and the forwarding,
with pipes of any size: the client is shown what the formatter prints on what it has read, and all
of it where nothing was broken off. The pipeline never gets stuck before all is delivered, and
there is only so much work left before it is. -/
theorem view_filters (F : FilterProgram σ UInt8 UInt8) (hub : HubWorld) (finiteBacklog : Bool)
    {capIn capOut : ℕ} (hin : 0 < capIn) (hout : 0 < capOut) {es : List PipelineEvent}
    {w : ViewPipeline σ} (hrun : Transition.exec (step F)
      (spawnViewFilter F hub finiteBacklog capIn capOut) es = some w) :
    w.Filtered F ∧
      (w.Unbroken → (∀ e, e.isWork = true → step F w e = none) → w.Delivered F) ∧
      ∀ fs w', Transition.exec (step F) w fs = some w' → (∀ e ∈ fs, e.isWork = true) →
        fs.length ≤ w.todo F := by
  have hkept : w.Kept F := Transition.invariant (fun w e w' => step_kept w e w') hrun
    (start_kept F hub finiteBacklog hin hout)
  refine ⟨hkept.filtered,fun hunbroken => hkept.delivered hunbroken,fun fs w' hwork hall => ?_⟩
  exact Transition.length_le_of_decreases (I := Kept F)
    (fun w e w' hstep he h => ⟨step_kept w e w' hstep h,h.step_todo hstep he⟩) hwork hall hkept

/-- A formatter that repeats its input, and the number of its bytes at the end. -/
def countingFilter : FilterProgram UInt8 UInt8 UInt8 :=
  ⟨⟨fun n _ => n+1,fun _ byte => [byte]⟩,0,fun n => [n]⟩

/-- The pipes hold one byte. -/
def countingRun : List PipelineEvent :=
  [.feedTakes,.feedWrites 1,.filter (.reads 1),.feedWrites 1,.filter (.writes 1),.feedEnds,
    .drainReads 1,.filter (.reads 1),.forwards,.filter (.writes 1),.filter .readsEnd,.drainReads 1,
    .filter (.writes 1),.forwards,.filter .exits,.drainReads 1,.forwards,.drainEnds]

def countingHub : HubWorld := ⟨{ HubInner.default with backlog := [104,105] },⟨[],[]⟩,[]⟩

theorem view_filters_counting : ∃ w, Transition.exec (step countingFilter)
    (spawnViewFilter countingFilter countingHub true 1 1) countingRun = some w ∧
      w.shown = [104,105,2] ∧ w.Filtered countingFilter ∧
      ∀ fs w', Transition.exec (step countingFilter) w fs = some w' →
        (∀ e ∈ fs, e.isWork = true) → fs.length ≤ w.todo countingFilter := by
  have hsome : ((Transition.exec (step countingFilter)
      (spawnViewFilter countingFilter countingHub true 1 1) countingRun).map shown) =
        some [104,105,2] := by decide +kernel
  obtain ⟨w,hrun,hshown⟩ := Option.map_eq_some_iff.mp hsome
  obtain ⟨hfiltered,-,hwork⟩ :=
    view_filters countingFilter countingHub true Nat.one_pos Nat.one_pos hrun
  exact ⟨w,hrun,hshown,hfiltered,hwork⟩

end ViewPipeline
end Babysit
