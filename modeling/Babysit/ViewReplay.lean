import Babysit.AttachReplies
import Babysit.RemoteReconnect
import Babysit.RemoteRuns

/-! Whether a client that has printed a formatted stream ever spawns another bridge. Each
connection is read byte by byte by the loops of `attach`. -/
namespace Babysit

/-- What a bridge writes for protocol 1: an error, or its own readiness and then the words of
a worker or of a finished session. -/
def BridgeWord (frames : List Frame) : Prop :=
  (∀ f ∈ frames,f.tag = S_ERROR) ∨ ∃ payload ready kind word, frames = ⟨S_READY,payload⟩ :: word ∧
    (kind = S_OUTPUT ∨ kind = S_OUTPUT_OFFSET) ∧ ReplyWord ready kind word

/-- A bridge in front of a worker. -/
theorem bridgeWord_worker (log : SessionLog) {es : List LoopWorldEvent} {w : LoopWorld}
    (hrun : Transition.exec LoopWorld.step (.start log) es = some w) {i : ℕ} {t : LoopTask}
    (ht : w.tasks[i]? = some t) (payload : List UInt8) :
    BridgeWord (⟨S_READY,payload⟩ :: t.handler.sent) := by
  right
  have hkind : t.request.kind = S_OUTPUT ∨ t.request.kind = S_OUTPUT_OFFSET := by
    unfold AttachRequest.kind
    split_ifs
    · exact .inr rfl
    · exact .inl rfl
  rcases (LoopWorld.obeys_run log hrun ht).written with ⟨hsent,-⟩ | hword
  · exact ⟨payload,false,_,_,rfl,hkind,by rw [hsent]; exact (openReply_ready false _).word⟩
  · exact ⟨payload,_,_,_,rfl,hkind,hword⟩

/-- A bridge of a finished session. -/
theorem bridgeWord_finished (bytes : List UInt8) (status : Status) (since : Option ℕ)
    (payload : List UInt8) : BridgeWord (⟨S_READY,payload⟩ :: finishedFrames bytes status since) := by
  have houtput : ∀ start, ReplyWord false S_OUTPUT_OFFSET
      (finishedFrames.output bytes status start) := by
    intro start
    refine OpenReply.finish ?_ (.inl rfl)
    split_ifs
    · exact (openReply_ready false _).snoc rfl
    · exact openReply_ready false _
  refine .inr ⟨payload,false,S_OUTPUT_OFFSET,_,rfl,.inr rfl,?_⟩
  unfold finishedFrames
  cases since with
  | none => exact houtput _
  | some offset =>
    dsimp only
    split_ifs
    · exact (openReply_ready false _).finish (.inr (.inr rfl))
    · exact houtput _

/-- One stream does not carry both kinds of output. -/
theorem BridgeWord.not_mixed {frames : List Frame} (h : BridgeWord frames) {f g : Frame}
    (hf : f ∈ frames) (hg : g ∈ frames) (hoffset : f.tag = S_OUTPUT_OFFSET) : g.tag ≠ S_OUTPUT := by
  intro houtput
  rcases h with herror | ⟨payload,ready,kind,word,rfl,-,data,last,rfl,hdata,-,hlast⟩
  · rw [herror f hf] at hoffset
    cases hoffset
  · -- a frame of output is one of the data
    have hkind : ∀ x ∈ (⟨S_READY,payload⟩ : Frame) :: (readyFrames ready ++ data ++ last),
        x.tag = S_OUTPUT_OFFSET ∨ x.tag = S_OUTPUT → x.tag = kind := by
      intro x hx htag
      rcases List.mem_cons.mp hx with rfl | hx
      · rcases htag with htag | htag <;> cases htag
      rcases List.mem_append.mp hx with hx | hx
      · rcases List.mem_append.mp hx with hx | hx
        · unfold readyFrames at hx
          split_ifs at hx
          · rw [List.mem_singleton.mp hx] at htag
            rcases htag with htag | htag <;> cases htag
          · cases hx
        · exact hdata x hx
      · rcases hlast x hx with hend | hend | hend <;> rw [hend] at htag <;>
          rcases htag with htag | htag <;> cases htag
    have hsame := (hkind f hf (.inl hoffset)).trans (hkind g hg (.inr houtput)).symm
    rw [hoffset,houtput] at hsame
    cases hsame

namespace RemoteClient
variable {cfg : RemoteConfig} {r r' : RemoteClient}

/-- The client prints a stream that cannot be resumed, or has returned. -/
def Viewing (r : RemoteClient) : Prop :=
  r.isReturned = true ∨ r.phase = .streaming ∧ r.resumable = false

theorem Viewing.not_lost (h : r.Viewing) : r.isLost = false := by
  rcases h with h | ⟨h,-⟩
  · unfold isReturned at h
    unfold isLost
    cases hphase : r.phase with
    | lost reason =>
      rw [hphase] at h
      cases h
    | handshake | streaming | returned _ => rfl
  · rw [isLost,h]

theorem Viewing.streams (h : r.Viewing) (hrunning : r.running = true) :
    r.phase = .streaming ∧ r.resumable = false := by
  rcases h with h | h
  · unfold isReturned at h
    unfold running at hrunning
    cases hphase : r.phase with
    | returned result =>
      rw [hphase] at hrunning
      cases hrunning
    | handshake | streaming | lost _ =>
      rw [hphase] at h
      cases h
  · exact h

/-- Every loss of the transport ends such a client. -/
theorem viewing_streamLoss (hresumable : r.resumable = false) (reason : String) :
    (r.streamLoss cfg reason).Viewing := by
  left
  unfold streamLoss
  rw [hresumable]
  split_ifs <;> first | rfl | contradiction

theorem viewing_send (h : r.phase = .streaming ∧ r.resumable = false) (what : String)
    (failed : Option String) (f : Frame) : (r.send cfg what failed f).Viewing := by
  unfold send
  split_ifs
  · exact .inr h
  · split
    · exact .inr h
    · exact viewing_streamLoss h.2 _

theorem viewing_branch (h : r.phase = .streaming ∧ r.resumable = false) {e : RemoteEvent}
    (hbranch : r.branch cfg e = some r') : r'.Viewing := by
  rcases branch_cases hbranch with ⟨failed,bytes,rest,-,-,rfl⟩ | ⟨failed,-,-,rfl⟩ |
    ⟨cols,rows,failed,-,-,rfl⟩ | ⟨-,hphase,-⟩ | rfl
  · simp only [input,h.1]
    split_ifs
    · exact .inl rfl
    · refine viewing_send ?_ _ _ _
      exact ⟨rfl,h.2⟩
  · refine viewing_send ?_ _ _ _
    exact h
  · exact viewing_send h _ _ _
  · rw [h.1] at hphase
    cases hphase
  · exact .inr h

theorem viewing_frame (h : r.phase = .streaming ∧ r.resumable = false) {f : Frame}
    (hoffset : f.tag ≠ S_OUTPUT_OFFSET) : (r.frame cfg f).Viewing := by
  simp only [frame,h.1,streamFrame]
  rw [if_neg fun hboth => hoffset hboth.1]
  split_ifs
  · exact .inr ⟨rfl,rfl⟩
  · exact .inl rfl
  · exact .inl rfl
  · exact .inl rfl
  · exact .inr h

/-- Formatted output makes the stream one that cannot be resumed. -/
theorem viewing_output (hphase : r.phase = .streaming) {f : Frame} (hf : f.tag = S_OUTPUT) :
    (r.frame cfg f).Viewing := by
  have hoffset : ¬(f.tag = S_OUTPUT_OFFSET ∧ 8 ≤ f.payload.length) := by
    simp [hf,S_OUTPUT,S_OUTPUT_OFFSET]
  simp only [frame,hphase,streamFrame,if_neg hoffset,if_pos hf]
  exact .inr ⟨rfl,rfl⟩

theorem viewing_ended (h : r.phase = .streaming ∧ r.resumable = false) (error : Option String) :
    (r.ended cfg error).Viewing := by
  unfold ended
  rw [h.1]
  cases error <;> exact viewing_streamLoss h.2 _

theorem viewing_typed (h : r.Viewing) (chunk : Option (List UInt8)) : (r.typed chunk).Viewing := by
  obtain ⟨stdin,isOpen,htyped,-⟩ := r.typed_cases chunk
  rw [htyped]
  exact h

end RemoteClient

/-- The client and the bridge it is connected to. `spawned` counts the bridges; the ghost
`viewedAt` is that count when formatted output was first printed. -/
structure BridgeWorld where
  loop : SelectLoop RemoteClient
  connected : Bool
  spawned : ℕ
  viewedAt : Option ℕ

/-- `connect` spawns a bridge, with the bytes that it writes. -/
inductive BridgeEvent
  | connect (bytes : List UInt8)
  | loop (e : LoopEvent RemoteEvent)
  | typed (chunk : Option (List UInt8))
  | aborts (error : String)
  | waitInput
  | retry (timer : Bool)

namespace BridgeWorld

def start : BridgeWorld := ⟨⟨[],.fresh,[],[],.init⟩,false,0,none⟩

/-- A frame of formatted output is printed by the step from the first loop to the second. -/
def printsView (l l' : SelectLoop RemoteClient) : Bool :=
  l.body.isStreaming && (l'.frames.drop l.frames.length).any fun f => f.tag = S_OUTPUT

/-- The client leaves a connection when it leaves its two loops. -/
def goes (w : BridgeWorld) (client : RemoteClient) : BridgeWorld :=
  { w with loop := { w.loop with body := client }, connected := w.connected && client.running }

def step (cfg : RemoteConfig) (w : BridgeWorld) : BridgeEvent → Option BridgeWorld
  | .connect bytes =>
    match w.loop.body.phase,w.connected with
    | .handshake,false => some { w with
        loop := ⟨bytes,.fresh,[],[],w.loop.body⟩, connected := true, spawned := w.spawned+1 }
    | _,_ => none
  | .loop e =>
    if w.connected then
      ((remoteAttach cfg).step w.loop e).map fun l => { w with
        loop := l, connected := l.body.running
        viewedAt := if w.viewedAt = none ∧ printsView w.loop l then some w.spawned else w.viewedAt }
    else none
  | .typed chunk => some (w.goes (w.loop.body.typed chunk))
  | .aborts error => (w.loop.body.step cfg (.aborts error)).map w.goes
  | .waitInput => w.loop.body.waitInput.map w.goes
  | .retry timer => (w.loop.body.retry timer).map w.goes

/-- Once formatted output has been printed, the client does not go to reconnect, and no
further bridge is spawned. -/
def NeverReplayed (w : BridgeWorld) : Prop :=
  ∀ n ∈ w.viewedAt,w.spawned = n ∧ w.loop.body.isLost = false

end BridgeWorld

/-- What the bridge that is spawned writes. -/
def BridgeEvent.bytes : BridgeEvent → Option (List UInt8)
  | .connect bytes => some bytes
  | .loop _ | .typed _ | .aborts _ | .waitInput | .retry _ => none

/-- A bridge that obeys the frame protocol. -/
def ObeysProtocol (bytes : List UInt8) : Prop :=
  ∃ frames, BridgeWord frames ∧ (∀ f ∈ frames,f.Fits) ∧ bytes = writeFrames frames

namespace BridgeWorld
variable {cfg : RemoteConfig} {w w' : BridgeWorld} {e : BridgeEvent}

/-- No other branch of `select!` wins inside a frame. -/
def ReadsWhole (cfg : RemoteConfig) (w : BridgeWorld) : BridgeEvent → Prop
  | .loop e => (remoteAttach cfg).BetweenFrames w.loop e
  | _ => True

instance (cfg : RemoteConfig) (w : BridgeWorld) : (e : BridgeEvent) → Decidable (w.ReadsWhole cfg e)
  | .loop e => inferInstanceAs (Decidable ((remoteAttach cfg).BetweenFrames w.loop e))
  | .connect _ | .typed _ | .aborts _ | .waitInput | .retry _ => inferInstanceAs (Decidable True)

/-- The connection delivers frames of a bridge's word; after formatted output the client
prints on in the same connection, or has returned. -/
structure Good (w : BridgeWorld) : Prop where
  reading : w.connected = true → ∃ frames, BridgeWord frames ∧ (∀ f ∈ frames,f.Fits) ∧
    SelectBody.Reading frames w.loop
  viewed : ∀ n ∈ w.viewedAt,w.spawned = n ∧ w.loop.body.Viewing
  output : ∀ n ∈ w.viewedAt,w.connected = true → ∃ f ∈ w.loop.frames,f.tag = S_OUTPUT

theorem good_start : start.Good := ⟨by rintro ⟨⟩,by rintro n ⟨⟩,by rintro n ⟨⟩⟩

theorem Good.neverReplayed (h : w.Good) : w.NeverReplayed :=
  fun n hn => ⟨(h.viewed n hn).1,(h.viewed n hn).2.not_lost⟩

/-- Before it has returned, a client that was viewing has nothing to reconnect for. -/
theorem Good.not_viewed (h : w.Good) (hphase : w.loop.body.isReturned = false)
    (hstreaming : w.loop.body.isStreaming = false) : w.viewedAt = none := by
  rw [Option.eq_none_iff_forall_not_mem]
  intro n hn
  rcases (h.viewed n hn).2 with hreturned | ⟨hstream,-⟩
  · rw [hphase] at hreturned
    cases hreturned
  · simp [RemoteClient.isStreaming,hstream] at hstreaming

/-- A step that processes no frame prints none. -/
theorem printsView_of_frames {l l' : SelectLoop RemoteClient} (h : l'.frames = l.frames) :
    (if w.viewedAt = none ∧ printsView l l' then some w.spawned else w.viewedAt) = w.viewedAt := by
  simp [printsView,h]

/-- A step outside the connection's two loops. -/
theorem Good.goes (h : w.Good) {client : RemoteClient}
    (hviewing : w.viewedAt ≠ none → w.loop.body.Viewing → client.Viewing) : (w.goes client).Good := by
  refine ⟨?_,?_,?_⟩
  · intro hconnected
    obtain ⟨frames,hword,hfits,hreading⟩ := h.reading (Bool.and_eq_true_iff.mp hconnected).1
    exact ⟨frames,hword,hfits,hreading⟩
  · intro n hn
    obtain ⟨hspawned,hview⟩ := h.viewed n hn
    have hn : w.viewedAt = some n := hn
    exact ⟨hspawned,hviewing (by simp [hn]) hview⟩
  · exact fun n hn hconnected => h.output n hn (Bool.and_eq_true_iff.mp hconnected).1

/-- The two loops: nothing but a frame of the bridge's word is processed. -/
theorem Good.loop (h : w.Good) {a : LoopEvent RemoteEvent} (hconnected : w.connected = true)
    {l : SelectLoop RemoteClient} (hstep : (remoteAttach cfg).step w.loop a = some l)
    (hwhole : (remoteAttach cfg).BetweenFrames w.loop a) :
    Good { w with
      loop := l, connected := l.body.running
      viewedAt := if w.viewedAt = none ∧ printsView w.loop l then some w.spawned else w.viewedAt } := by
  obtain ⟨frames,hword,hfits,hreading⟩ := h.reading hconnected
  have hafter := (remoteAttach cfg).reading_step hstep hwhole hreading
  have hreads : l.body.running = true → ∃ frames, BridgeWord frames ∧ (∀ f ∈ frames,f.Fits) ∧
      SelectBody.Reading frames l := fun _ => ⟨frames,hword,hfits,hafter⟩
  rcases (remoteAttach cfg).step_body hstep with ⟨chunk,hbody,hframes⟩ |
    ⟨hrunning,⟨hother,hframes⟩ | ⟨f,hbody,hframes⟩⟩
  · rw [printsView_of_frames hframes]
    refine ⟨hreads,fun n hn => ?_,fun n hn _ => ?_⟩
    · obtain ⟨hspawned,hview⟩ := h.viewed n hn
      refine ⟨hspawned,?_⟩
      dsimp only
      rw [hbody]
      exact RemoteClient.viewing_typed hview chunk
    · dsimp only
      rw [hframes]
      exact h.output n hn hconnected
  · rw [printsView_of_frames hframes]
    refine ⟨hreads,fun n hn => ?_,fun n hn _ => ?_⟩
    · obtain ⟨hspawned,hview⟩ := h.viewed n hn
      have hstreams := hview.streams hrunning
      refine ⟨hspawned,?_⟩
      dsimp only
      rcases hother with hsame | ⟨error,hended⟩ | ⟨e,hbranch⟩
      · rw [hsame]
        exact hview
      · rw [hended]
        exact RemoteClient.viewing_ended hstreams error
      · exact RemoteClient.viewing_branch hstreams hbranch
    · dsimp only
      rw [hframes]
      exact h.output n hn hconnected
  · have hprints : printsView w.loop l = (w.loop.body.isStreaming && decide (f.tag = S_OUTPUT)) := by
      simp [printsView,hframes]
    have hmem : ∀ g ∈ l.frames,g ∈ frames := fun g hg => (hafter.intact hfits).1.subset hg
    have hlast : f ∈ l.frames := by simp [hframes]
    refine ⟨hreads,fun n hn => ?_,fun n hn _ => ?_⟩
    · dsimp only at hn ⊢
      rw [hbody]
      split_ifs at hn with hfirst
      · rw [hprints,Bool.and_eq_true,decide_eq_true_iff] at hfirst
        have hphase := RemoteClient.isStreaming_iff.mp hfirst.2.1
        exact ⟨Option.some.inj hn,RemoteClient.viewing_output hphase hfirst.2.2⟩
      · obtain ⟨hspawned,hview⟩ := h.viewed n hn
        obtain ⟨g,hg,houtput⟩ := h.output n hn hconnected
        refine ⟨hspawned,RemoteClient.viewing_frame (hview.streams hrunning) ?_⟩
        -- the bridge's word has no offset frames beside the printed one
        intro hoffset
        exact hword.not_mixed (hmem f hlast) (hmem g (by simp [hframes,hg])) hoffset houtput
    · dsimp only at hn ⊢
      split_ifs at hn with hfirst
      · rw [hprints,Bool.and_eq_true,decide_eq_true_iff] at hfirst
        exact ⟨f,hlast,hfirst.2.2⟩
      · obtain ⟨g,hg,houtput⟩ := h.output n hn hconnected
        exact ⟨g,by simp [hframes,hg],houtput⟩

theorem good_step (cfg : RemoteConfig) (w : BridgeWorld) (e : BridgeEvent) (w' : BridgeWorld)
    (hstep : w.step cfg e = some w') 
    (hc : w.ReadsWhole cfg e ∧ ∀ bytes ∈ e.bytes,ObeysProtocol bytes) (h : w.Good) :
    w'.Good := by
  cases e with
  | connect bytes =>
    obtain ⟨frames,hword,hfits,rfl⟩ := hc.2 bytes rfl
    simp only [step] at hstep
    split at hstep
    next hphase hconnected =>
      obtain rfl := Option.some.inj hstep
      have hnone : w.viewedAt = none :=
        h.not_viewed (by rw [RemoteClient.isReturned,hphase]) (by rw [RemoteClient.isStreaming,hphase])
      refine ⟨fun _ => ⟨frames,hword,hfits,SelectBody.reading_start frames _⟩,?_,?_⟩
      · rw [hnone]
        rintro n ⟨⟩
      · rw [hnone]
        rintro n ⟨⟩
    next => cases hstep
  | loop a =>
    simp only [step] at hstep
    split_ifs at hstep with hconnected
    obtain ⟨l,hl,rfl⟩ := Option.map_eq_some_iff.mp hstep
    exact h.loop hconnected hl hc.1
  | typed chunk =>
    obtain rfl := Option.some.inj hstep
    exact h.goes fun _ hview => RemoteClient.viewing_typed hview chunk
  | aborts error =>
    obtain ⟨client,hclient,rfl⟩ := Option.map_eq_some_iff.mp hstep
    simp only [RemoteClient.step] at hclient
    split_ifs at hclient
    obtain rfl := Option.some.inj hclient
    exact h.goes fun _ _ => .inl rfl
  | waitInput =>
    obtain ⟨client,hclient,rfl⟩ := Option.map_eq_some_iff.mp hstep
    obtain ⟨reason,bytes,rest,hphase,-,-⟩ := RemoteClient.waitInput_cases hclient
    have hnone : w.viewedAt = none :=
      h.not_viewed (by rw [RemoteClient.isReturned,hphase]) (by rw [RemoteClient.isStreaming,hphase])
    exact h.goes fun hviewed _ => absurd hnone hviewed
  | retry timer =>
    obtain ⟨client,hclient,rfl⟩ := Option.map_eq_some_iff.mp hstep
    obtain ⟨reason,hphase,-,-⟩ := RemoteClient.retry_cases hclient
    have hnone : w.viewedAt = none :=
      h.not_viewed (by rw [RemoteClient.isReturned,hphase]) (by rw [RemoteClient.isStreaming,hphase])
    exact h.goes fun hviewed _ => absurd hnone hviewed

/-- Where no other branch wins inside a frame, no bridge is spawned once formatted output has
been printed. -/
theorem always_neverReplayed (cfg : RemoteConfig) {es : List BridgeEvent}
    (hprotocol : ∀ bytes ∈ es.filterMap BridgeEvent.bytes,ObeysProtocol bytes)
    (hwhole : Transition.Meets (step cfg) (ReadsWhole cfg) start es) :
    Transition.Always (step cfg) NeverReplayed start es := by
  have hobeys : ∀ e ∈ es,∀ bytes ∈ e.bytes,ObeysProtocol bytes :=
    fun e he bytes hbytes => hprotocol bytes (List.mem_filterMap.mpr ⟨e,he,hbytes⟩)
  exact Transition.always_of_meets (good_step cfg) (fun _ h => h.neverReplayed)
    (hwhole.and (Transition.meets_of_forall hobeys _)) good_start

/-- A formatted stream whose second chunk contains the bytes of two offset frames. -/
def viewFrames : List Frame :=
  [⟨S_READY,[1]⟩,⟨S_READY,[]⟩,⟨S_OUTPUT,[65]⟩,
    ⟨S_OUTPUT,writeFrames [offsetFrame 0 [],offsetFrame 9 []]⟩]

theorem viewFrames_obeys : ObeysProtocol (writeFrames viewFrames) := by
  have hfits : ∀ f ∈ viewFrames,f.payload.length < 2^32 := by decide
  refine ⟨viewFrames,.inr ⟨[1],true,S_OUTPUT,_,rfl,.inl rfl,?_⟩,hfits,rfl⟩
  exact ⟨[⟨S_OUTPUT,[65]⟩,⟨S_OUTPUT,writeFrames [offsetFrame 0 [],offsetFrame 9 []]⟩],[],rfl,
    by decide,by decide,by rintro f ⟨⟩⟩

/-- The first output is printed, a key is pressed, and the connection is lost. -/
def viewedRun : List BridgeEvent :=
  .connect (writeFrames viewFrames) :: List.replicate 17 (.loop .read) ++
    [.typed (some [97]),.loop (.branch (.stdin none)),.loop (.ended none)]

theorem always_neverReplayed_viewed :
    Transition.Always (step ⟨true,true⟩) NeverReplayed start viewedRun := by
  refine always_neverReplayed ⟨true,true⟩ ?_ (by decide +kernel)
  intro bytes hbytes
  have hconnects : viewedRun.filterMap BridgeEvent.bytes = [writeFrames viewFrames] := rfl
  rw [hconnects,List.mem_singleton] at hbytes
  rw [hbytes]
  exact viewFrames_obeys

/-- A key is pressed inside the second chunk, whose rest is then read as offset frames. -/
def misreadRun : List BridgeEvent :=
  .connect (writeFrames viewFrames) :: List.replicate 22 (.loop .read) ++
    [.typed (some [97]),.loop (.branch (.stdin none))] ++ List.replicate 26 (.loop .read) ++
    [.retry true,.connect []]

theorem misread_view_reconnects : ∃ w,
    Transition.exec (step ⟨true,true⟩) start misreadRun = some w ∧
      (∀ bytes ∈ misreadRun.filterMap BridgeEvent.bytes,ObeysProtocol bytes) ∧
      ¬w.NeverReplayed := by
  refine ⟨_,rfl,?_,fun h => ?_⟩
  · intro bytes hbytes
    have hconnects : misreadRun.filterMap BridgeEvent.bytes = [writeFrames viewFrames,[]] := rfl
    rw [hconnects,List.mem_cons,List.mem_singleton] at hbytes
    rcases hbytes with rfl | rfl
    · exact viewFrames_obeys
    · exact ⟨[],.inl (by rintro f ⟨⟩),by rintro f ⟨⟩,rfl⟩
  · have hspawned : 2 = 1 := (h 1 rfl).1
    cases hspawned

end BridgeWorld
end Babysit
