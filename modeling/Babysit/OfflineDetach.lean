import Babysit.RemoteRuns

/-! Whether two presses of the detach key, received after a lost transport, always detach the
remote client. The keys that are received are told apart as the filter does it, but without
its memory being cleared. -/
namespace Babysit

namespace DetachFilter

/-- Each repeat or release that belongs to a withheld press can be withheld with it. -/
def Withholds (f : DetachFilter) : List UInt8 → Prop
  | [] => True
  | byte::bytes =>
    (∀ token ∈ (nextToken f.escape byte).2,tokenEvent token = some .repeatOrRelease →
      f.withheld ≠ [] → f.withheld.length + token.length ≤ MAX_WITHHELD_INPUT) ∧
    (f.pushByte byte).filter.Withholds bytes

theorem withholds_append {f : DetachFilter} {bytes more : List UInt8}
    (h : f.Withholds (bytes ++ more)) : f.Withholds bytes ∧
      ((f.push bytes).detach = false → (f.push bytes).filter.Withholds more) := by
  induction bytes generalizing f with
  | nil => exact ⟨trivial,fun _ => h⟩
  | cons byte bytes ih =>
    obtain ⟨hfirst,hrest⟩ := h
    obtain ⟨hbytes,hmore⟩ := ih hrest
    refine ⟨⟨hfirst,hbytes⟩,?_⟩
    unfold push
    dsimp only
    split_ifs with hdetach
    · intro hno
      rw [hdetach] at hno
      cases hno
    · exact hmore

instance decidableWithholds : (f : DetachFilter) → (bytes : List UInt8) →
    Decidable (f.Withholds bytes)
  | _, [] => .isTrue trivial
  | f, byte::bytes =>
    have : Decidable ((f.pushByte byte).filter.Withholds bytes) := decidableWithholds _ bytes
    inferInstanceAs (Decidable (_ ∧ _))

end DetachFilter

/-- The keys received, `none` for one that is not the detach key, and an unfinished sequence. -/
structure Heard where
  keys : List (Option DetachEvent)
  unfinished : List UInt8
  deriving DecidableEq, Repr

/-- A press with no other key behind it. -/
def Pending (keys : List (Option DetachEvent)) : Prop :=
  ∃ before between, keys = before ++ some .press :: between ∧
    ∀ k ∈ between,k = some .repeatOrRelease

/-- Two consecutive presses, with repeats and releases between them at most. -/
def PressedTwice (keys : List (Option DetachEvent)) : Prop :=
  ∃ before between after, keys = before ++ some .press :: between ++ some .press :: after ∧
    ∀ k ∈ between,k = some .repeatOrRelease

theorem Pending.snoc {keys : List (Option DetachEvent)} {k : Option DetachEvent}
    (h : Pending (keys ++ [k])) :
    k = some .press ∨ Pending keys ∧ k = some .repeatOrRelease := by
  obtain ⟨before,between,hkeys,hbetween⟩ := h
  rcases List.eq_nil_or_concat between with rfl | ⟨init,last,rfl⟩
  · exact .inl (List.singleton_inj.mp (List.append_inj_right' hkeys rfl))
  · rw [List.concat_eq_append,← List.cons_append,← List.append_assoc] at hkeys
    have hk := List.singleton_inj.mp (List.append_inj_right' hkeys rfl)
    have hinit := List.append_inj_left' hkeys rfl
    exact .inr ⟨⟨before,init,hinit,fun k hk => hbetween k (by simp [hk])⟩,
      hk.trans (hbetween last (by simp))⟩

theorem PressedTwice.snoc {keys : List (Option DetachEvent)} {k : Option DetachEvent}
    (h : PressedTwice (keys ++ [k])) : PressedTwice keys ∨ Pending keys ∧ k = some .press := by
  obtain ⟨before,between,after,hkeys,hbetween⟩ := h
  rcases List.eq_nil_or_concat after with rfl | ⟨init,last,rfl⟩
  · exact .inr ⟨⟨before,between,List.append_inj_left' hkeys rfl,hbetween⟩,
      List.singleton_inj.mp (List.append_inj_right' hkeys rfl)⟩
  · rw [List.concat_eq_append,← List.cons_append,← List.append_assoc] at hkeys
    exact .inl ⟨before,between,init,List.append_inj_left' hkeys rfl,hbetween⟩

theorem not_pressedTwice_nil : ¬PressedTwice [] := by
  rintro ⟨before,between,after,hkeys,-⟩
  simp at hkeys

theorem not_pending_nil : ¬Pending [] := by
  rintro ⟨before,between,hkeys,-⟩
  simp at hkeys

namespace Heard

def hearByte (h : Heard) (byte : UInt8) : Heard :=
  match DetachFilter.nextToken h.unfinished byte with
  | (unfinished,none) => { h with unfinished := unfinished }
  | (unfinished,some token) => ⟨h.keys ++ [DetachFilter.tokenEvent token],unfinished⟩

def hear (h : Heard) (bytes : List UInt8) : Heard := bytes.foldl hearByte h

/-- The wait for the rest of a sequence is over: it is a key of its own. -/
def flush (h : Heard) : Heard := ⟨h.keys ++ [none],[]⟩

/-- The filter knows of the unfinished sequence and of a press that waits for a second one. -/
structure Remembered (h : Heard) (f : DetachFilter) : Prop where
  once : ¬PressedTwice h.keys
  unfinished : f.escape = h.unfinished
  withheld : Pending h.keys → f.withheld ≠ []

theorem Remembered.flush {h : Heard} {f : DetachFilter} (hr : h.Remembered f) :
    h.flush.Remembered f.flushPartialEscape.filter := by
  refine ⟨fun htwice => ?_,rfl,fun hpending => ?_⟩
  · rcases PressedTwice.snoc htwice with htwice | ⟨-,hkey⟩
    · exact hr.once htwice
    · cases hkey
  · rcases Pending.snoc hpending with hkey | ⟨-,hkey⟩ <;> cases hkey

/-- A complete token: the hotkey is complete, or the filter remembers what it has to. -/
theorem Remembered.token {h : Heard} {f : DetachFilter} (hr : h.Remembered f)
    (escape token : List UInt8) (hne : token ≠ [])
    (hfits : DetachFilter.tokenEvent token = some .repeatOrRelease → f.withheld ≠ [] →
      f.withheld.length + token.length ≤ MAX_WITHHELD_INPUT) :
    ({ f with escape := escape }.handleToken token).detach = true ∨
      Remembered ⟨h.keys ++ [DetachFilter.tokenEvent token],escape⟩
        ({ f with escape := escape }.handleToken token).filter := by
  cases hkey : DetachFilter.tokenEvent token with
  | none =>
    right
    rw [DetachFilter.handleToken_none _ hkey]
    refine ⟨fun htwice => ?_,rfl,fun hpending => ?_⟩
    · rcases PressedTwice.snoc htwice with htwice | ⟨-,hpress⟩
      · exact hr.once htwice
      · cases hpress
    · rcases Pending.snoc hpending with hpress | ⟨-,hrepeat⟩
      · cases hpress
      · cases hrepeat
  | some event =>
    cases event with
    | press =>
      rw [DetachFilter.handleToken_press _ hkey]
      by_cases hwithheld : f.withheld = []
      · right
        rw [if_neg (not_not.mpr hwithheld)]
        refine ⟨fun htwice => ?_,rfl,fun _ => hne⟩
        rcases PressedTwice.snoc htwice with htwice | ⟨hpending,-⟩
        · exact hr.once htwice
        · exact hr.withheld hpending hwithheld
      · left
        rw [if_pos hwithheld]
    | repeatOrRelease =>
      right
      rw [DetachFilter.handleToken_repeatOrRelease _ hkey]
      refine ⟨fun htwice => ?_,?_,fun hpending => ?_⟩
      · rcases PressedTwice.snoc htwice with htwice | ⟨-,hpress⟩
        · exact hr.once htwice
        · cases hpress
      · split_ifs <;> rfl
      · rcases Pending.snoc hpending with hpress | ⟨hpending,-⟩
        · cases hpress
        · have hwithheld := hr.withheld hpending
          rw [if_pos ⟨hwithheld,hfits hkey hwithheld⟩]
          simp [hwithheld]

theorem Remembered.pushByte {h : Heard} {f : DetachFilter} (hr : h.Remembered f) (byte : UInt8)
    (hfits : ∀ token ∈ (DetachFilter.nextToken f.escape byte).2,
      DetachFilter.tokenEvent token = some .repeatOrRelease → f.withheld ≠ [] →
        f.withheld.length + token.length ≤ MAX_WITHHELD_INPUT) :
    (f.pushByte byte).detach = true ∨ (h.hearByte byte).Remembered (f.pushByte byte).filter := by
  rw [f.pushByte_eq,hearByte,← hr.unfinished]
  have hne : ∀ token ∈ (DetachFilter.nextToken f.escape byte).2,token ≠ [] := by
    intro token htoken
    unfold DetachFilter.nextToken at htoken
    dsimp only at htoken
    split_ifs at htoken <;> cases htoken <;> simp
  generalize DetachFilter.nextToken f.escape byte = next at hfits hne ⊢
  obtain ⟨escape,_ | token⟩ := next
  · exact .inr ⟨hr.once,rfl,hr.withheld⟩
  · exact hr.token escape token (hne token rfl) (hfits token rfl)

/-- A chunk of input. -/
theorem Remembered.push {h : Heard} {f : DetachFilter} (hr : h.Remembered f) {bytes : List UInt8}
    (hfits : f.Withholds bytes) :
    (f.push bytes).detach = true ∨ (h.hear bytes).Remembered (f.push bytes).filter := by
  induction bytes generalizing f h with
  | nil => exact .inr hr
  | cons byte bytes ih =>
    unfold DetachFilter.push
    rcases hr.pushByte byte hfits.1 with hdetach | hnext
    · left
      simp [hdetach]
    · dsimp only
      split_ifs with hdetach
      · exact .inl hdetach
      · exact ih hnext hfits.2

/-- All queued chunks. -/
theorem Remembered.drain {h : Heard} {f : DetachFilter} (hr : h.Remembered f)
    {queue : List (List UInt8)} (hfits : f.Withholds queue.flatten) :
    (discardQueuedInput f queue).1 = true ∨
      (h.hear queue.flatten).Remembered (discardQueuedInput f queue).2.1 := by
  induction queue generalizing f h with
  | nil => exact .inr hr
  | cons bytes rest ih =>
    rw [List.flatten_cons] at hfits ⊢
    obtain ⟨hbytes,hrest⟩ := DetachFilter.withholds_append hfits
    unfold discardQueuedInput
    dsimp only
    by_cases hdetach : (f.push bytes).detach = true
    · left
      rw [if_pos hdetach]
    · rw [if_neg hdetach]
      have hnext := (hr.push hbytes).resolve_left hdetach
      rw [hear,List.foldl_append]
      exact ih hnext (hrest (Bool.eq_false_iff.mpr hdetach))

end Heard

/-- The client, with what it has received since it first lost its transport. -/
structure DetachWorld where
  client : RemoteClient
  heard : Option Heard

namespace DetachWorld

def start : DetachWorld := ⟨.init,none⟩

/-- The input that a step takes from the queue. -/
def received (r : RemoteClient) : ClientEvent → List UInt8
  | .waitInput | .branch (.stdin _) => r.stdin.headD []
  | .frame f => if r.isHandshake ∧ f.tag = S_READY then r.stdin.flatten else []
  | .ended _ | .branch _ | .typed _ | .aborts _ | .retry _ => []

def hears (w : DetachWorld) (client : RemoteClient) (e : ClientEvent) : Option Heard :=
  match w.heard,e with
  | none,_ => if client.isLost then some ⟨[],client.filter.escape⟩ else none
  | some h,.branch (.escapeTimeout _) => some h.flush
  | some h,e => some (h.hear (received w.client e))

def step (cfg : RemoteConfig) (w : DetachWorld) (e : ClientEvent) : Option DetachWorld :=
  (w.client.step cfg e).map fun client => ⟨client,w.hears client e⟩

/-- Two consecutive presses detach the client. -/
def DetachWorks (w : DetachWorld) : Prop :=
  ∀ h ∈ w.heard,PressedTwice h.keys → w.client.phase = .returned (.ok 0)

/-- The filter is cleared only while it holds nothing: at the timer of a wait, and behind the
queue that a ready frame drains. -/
def ClearsNothing (w : DetachWorld) : ClientEvent → Prop
  | .retry true => w.client.filter = .default
  | .frame f => w.client.isHandshake = true → f.tag = S_READY →
      (discardQueuedInput w.client.filter w.client.stdin).1 = false →
      (discardQueuedInput w.client.filter w.client.stdin).2.1 = .default
  | _ => True

/-- The bytes in front of a hotkey that is complete can be sent. -/
def SendsAhead (w : DetachWorld) : ClientEvent → Prop
  | .branch (.stdin failed) => w.client.isStreaming = true →
      (w.client.filter.push (w.client.stdin.headD [])).detach = true →
      (w.client.filter.push (w.client.stdin.headD [])).forward ≠ [] → failed = none
  | _ => True

/-- From the first loss on, the filter forgets no press. -/
def KeepsPress (w : DetachWorld) (e : ClientEvent) : Prop :=
  w.heard.isSome = true → w.ClearsNothing e ∧ w.SendsAhead e ∧
    w.client.filter.Withholds (received w.client e)

instance (w : DetachWorld) : (e : ClientEvent) → Decidable (w.ClearsNothing e)
  | .retry true => inferInstanceAs (Decidable (w.client.filter = .default))
  | .frame f => inferInstanceAs (Decidable (w.client.isHandshake = true → f.tag = S_READY →
      (discardQueuedInput w.client.filter w.client.stdin).1 = false →
      (discardQueuedInput w.client.filter w.client.stdin).2.1 = .default))
  | .retry false | .ended _ | .branch _ | .typed _ | .aborts _ | .waitInput =>
    inferInstanceAs (Decidable True)

instance (w : DetachWorld) : (e : ClientEvent) → Decidable (w.SendsAhead e)
  | .branch (.stdin failed) => inferInstanceAs (Decidable (w.client.isStreaming = true →
      (w.client.filter.push (w.client.stdin.headD [])).detach = true →
      (w.client.filter.push (w.client.stdin.headD [])).forward ≠ [] → failed = none))
  | .branch (.escapeTimeout _) | .branch (.windowChange _ _) | .branch .handshakeTimeout | .frame _
  | .retry _ | .ended _ | .typed _ | .aborts _ | .waitInput => inferInstanceAs (Decidable True)

instance (w : DetachWorld) (e : ClientEvent) : Decidable (w.KeepsPress e) :=
  inferInstanceAs (Decidable (_ → _ ∧ _ ∧ _))

/-- The client has been detached, or the filter remembers what it has received. -/
def Settles (h : Heard) (r : RemoteClient) : Prop :=
  r.phase = .returned (.ok 0) ∨
    ¬PressedTwice h.keys ∧ (r.isReturned = false → h.Remembered r.filter)

def Good (w : DetachWorld) : Prop := ∀ h ∈ w.heard,Settles h w.client

variable {cfg : RemoteConfig} {w w' : DetachWorld}

theorem good_start : start.Good := by rintro h ⟨⟩

theorem Good.detachWorks (hw : w.Good) : w.DetachWorks := by
  intro h hh htwice
  rcases hw h hh with hreturned | ⟨honce,-⟩
  · exact hreturned
  · exact absurd htwice honce

section steps
variable {h : Heard} {r r' : RemoteClient}

theorem settles_of_filter {f : DetachFilter} (hr : h.Remembered f) (hfilter : r.filter = f) :
    Settles h r := by
  rw [← hfilter] at hr
  exact .inr ⟨hr.once,fun _ => hr⟩

theorem handshakeLoss_filter (cfg : RemoteConfig) (r : RemoteClient) (a b c : String) :
    (r.handshakeLoss cfg a b c).filter = r.filter := by
  unfold RemoteClient.handshakeLoss
  split_ifs <;> rfl

theorem streamLoss_filter (cfg : RemoteConfig) (r : RemoteClient) (reason : String) :
    (r.streamLoss cfg reason).filter = r.filter := by
  unfold RemoteClient.streamLoss
  split_ifs <;> rfl

theorem send_filter (cfg : RemoteConfig) (r : RemoteClient) (what : String)
    (failed : Option String) (f : Frame) : (r.send cfg what failed f).filter = r.filter := by
  unfold RemoteClient.send
  split_ifs
  · rfl
  · cases failed with
    | none => rfl
    | some error => exact streamLoss_filter cfg r _

theorem streamFrame_filter (cfg : RemoteConfig) (r : RemoteClient) (f : Frame) :
    (r.streamFrame cfg f).filter = r.filter := by
  unfold RemoteClient.streamFrame RemoteClient.offsetFrame
  dsimp only
  split_ifs <;> first | rfl | (split <;> rfl)

theorem ended_filter (cfg : RemoteConfig) (r : RemoteClient) (error : Option String) :
    (r.ended cfg error).filter = r.filter := by
  unfold RemoteClient.ended
  split
  · exact handshakeLoss_filter _ _ _ _ _
  · exact handshakeLoss_filter _ _ _ _ _
  · exact streamLoss_filter _ _ _
  · exact streamLoss_filter _ _ _
  · rfl
  · rfl

/-- A chunk that only works the hotkey. -/
theorem settles_push (hr : h.Remembered r.filter) {bytes : List UInt8}
    (hfits : r.filter.Withholds bytes) {s : RemoteClient}
    (hs : s.filter = (r.filter.push bytes).filter) :
    Settles (h.hear bytes) (if (r.filter.push bytes).detach then s.detached else s) := by
  rcases hr.push hfits with hdetach | hnext
  · rw [if_pos hdetach]
    exact .inl rfl
  · split_ifs
    · exact .inl rfl
    · exact settles_of_filter hnext hs

/-- A chunk of the stream: with a complete hotkey its bytes are sent, or there are none. -/
theorem settles_input (hr : h.Remembered r.filter) (hphase : r.phase = .streaming)
    {bytes : List UInt8} (hfits : r.filter.Withholds bytes) (rest : List (List UInt8))
    {failed : Option String} (hsends : (r.filter.push bytes).detach = true →
      (r.filter.push bytes).forward ≠ [] → failed = none) :
    Settles (h.hear bytes) (r.input cfg bytes rest failed) := by
  unfold RemoteClient.input
  simp only [hphase]
  cases hdetach : (r.filter.push bytes).detach with
  | true =>
    left
    have hrunning : ∀ s : RemoteClient, s.phase = .streaming → (s.send cfg "send remote input" failed
        ⟨C_INPUT,(r.filter.push bytes).forward⟩).running = true := by
      intro s hs
      unfold RemoteClient.send
      by_cases hforward : (r.filter.push bytes).forward = []
      · rw [if_pos hforward,RemoteClient.running,hs]
      · rw [if_neg hforward,hsends hdetach hforward]
        simp [RemoteClient.running,hs]
    rw [if_pos ⟨hrunning _ rfl,rfl⟩]
    rfl
  | false =>
    have hnext := (hr.push hfits).resolve_left (by simp [hdetach])
    simp only [Bool.false_eq_true,and_false,if_false]
    exact settles_of_filter hnext (send_filter _ _ _ _ _)

/-- The ready frame drains the queue. -/
theorem settles_established (hr : h.Remembered r.filter) (hfits : r.filter.Withholds r.stdin.flatten)
    (hclears : (discardQueuedInput r.filter r.stdin).1 = false →
      (discardQueuedInput r.filter r.stdin).2.1 = .default) {payload : List UInt8} :
    Settles (h.hear r.stdin.flatten) (r.established cfg payload) := by
  unfold RemoteClient.established
  dsimp only
  cases hdetach : (discardQueuedInput r.filter r.stdin).1 with
  | true => exact .inl rfl
  | false =>
    have hnext := (hr.drain hfits).resolve_left (by simp [hdetach])
    rw [hclears hdetach] at hnext
    exact settles_of_filter hnext rfl

/-- A frame: only a ready frame brings input. -/
theorem settles_frame (hr : h.Remembered r.filter) {f : Frame} (hrunning : r.running = true)
    (hc : KeepsPress ⟨r,some h⟩ (.frame f)) :
    Settles (h.hear (received r (.frame f))) (r.frame cfg f) := by
  obtain ⟨hclears,-,hfits⟩ := hc rfl
  cases hphase : r.phase with
  | handshake =>
    by_cases htag : f.tag = S_READY
    · have hhandshake : r.isHandshake = true := by rw [RemoteClient.isHandshake,hphase]
      have hreceived : received r (.frame f) = r.stdin.flatten := if_pos ⟨hhandshake,htag⟩
      simp only [hreceived] at hfits ⊢
      simp only [RemoteClient.frame,hphase,RemoteClient.handshakeFrame,if_pos htag]
      exact settles_established hr hfits (hclears hhandshake htag)
    · have hreceived : received r (.frame f) = [] := if_neg fun hboth => htag hboth.2
      simp only [hreceived,RemoteClient.frame,hphase,RemoteClient.handshakeFrame,if_neg htag]
      refine settles_of_filter hr ?_
      split_ifs
      · exact handshakeLoss_filter cfg r _ _ _
      · rfl
  | streaming =>
    have hreceived : received r (.frame f) = [] := by simp [received,RemoteClient.isHandshake,hphase]
    simp only [hreceived,RemoteClient.frame,hphase]
    exact settles_of_filter hr (streamFrame_filter cfg r f)
  | lost _ | returned _ => simp [RemoteClient.running,hphase] at hrunning

/-- The stdin branch takes the first chunk of the queue, or finds that stdin has ended. -/
theorem settles_stdin (hr : h.Remembered r.filter) {failed : Option String}
    (hrunning : r.running = true) (hc : KeepsPress ⟨r,some h⟩ (.branch (.stdin failed)))
    (hstep : r.branch cfg (.stdin failed) = some r') :
    Settles (h.hear (received r (.branch (.stdin failed)))) r' := by
  obtain ⟨-,hsends,hfits⟩ := hc rfl
  simp only [RemoteClient.branch] at hstep
  split at hstep
  next bytes rest hstdin =>
    obtain rfl := Option.some.inj hstep
    have hreceived : received r (.branch (.stdin failed)) = bytes := by simp [received,hstdin]
    simp only [hreceived] at hfits ⊢
    cases hphase : r.phase with
    | handshake =>
      simp only [RemoteClient.input,hphase]
      exact settles_push hr hfits rfl
    | streaming =>
      simp only [SendsAhead,hstdin,List.headD_cons] at hsends
      exact settles_input hr hphase hfits rest (hsends (RemoteClient.isStreaming_iff.mpr hphase))
    | lost _ | returned _ => simp [RemoteClient.running,hphase] at hrunning
  next hstdin =>
    split_ifs at hstep
    obtain rfl := Option.some.inj hstep
    have hreceived : received r (.branch (.stdin failed)) = [] := by simp [received,hstdin]
    simp only [hreceived]
    exact settles_of_filter hr rfl

/-- A branch of the select of a connection. -/
theorem settles_branch (hr : h.Remembered r.filter) {e : RemoteEvent} (hrunning : r.running = true)
    (hc : KeepsPress ⟨r,some h⟩ (.branch e)) (hstep : r.branch cfg e = some r') :
    ∀ h' ∈ hears ⟨r,some h⟩ r' (.branch e),Settles h' r' := by
  rintro h' hh
  cases e with
  | stdin failed =>
    cases hh
    exact settles_stdin hr hrunning hc hstep
  | escapeTimeout failed =>
    cases hh
    simp only [RemoteClient.branch] at hstep
    split at hstep
    · split_ifs at hstep
      obtain rfl := Option.some.inj hstep
      exact settles_of_filter hr.flush (send_filter _ _ _ _ _)
    · cases hstep
  | windowChange size failed =>
    cases hh
    simp only [RemoteClient.branch] at hstep
    split at hstep
    · obtain rfl := Option.some.inj hstep
      exact settles_of_filter hr (send_filter _ _ _ _ _)
    · obtain rfl := Option.some.inj hstep
      exact settles_of_filter hr rfl
    · cases hstep
  | handshakeTimeout =>
    cases hh
    simp only [RemoteClient.branch] at hstep
    split at hstep
    · obtain rfl := Option.some.inj hstep
      exact settles_of_filter hr (handshakeLoss_filter _ _ _ _ _)
    · cases hstep

/-- The wait for a retry takes a chunk to watch for the hotkey. -/
theorem settles_waitInput (hr : h.Remembered r.filter) (hc : KeepsPress ⟨r,some h⟩ .waitInput)
    (hstep : r.waitInput = some r') : Settles (h.hear (received r .waitInput)) r' := by
  obtain ⟨-,-,hfits⟩ := hc rfl
  obtain ⟨reason,bytes,rest,-,hstdin,rfl⟩ := RemoteClient.waitInput_cases hstep
  have hreceived : received r .waitInput = bytes := by simp [received,hstdin]
  simp only [hreceived] at hfits ⊢
  exact settles_push hr hfits rfl

/-- The end of the wait: a timer that ends it has nothing to clear. -/
theorem settles_retry (hr : h.Remembered r.filter) {timer : Bool}
    (hc : KeepsPress ⟨r,some h⟩ (.retry timer)) (hstep : r.retry timer = some r') :
    Settles h r' := by
  obtain ⟨hclears,-,-⟩ := hc rfl
  obtain ⟨reason,-,-,rfl⟩ := RemoteClient.retry_cases hstep
  cases timer with
  | false => exact settles_of_filter hr rfl
  | true =>
    have hdefault : r.filter = .default := hclears
    exact settles_of_filter hr hdefault.symm

/-- A step of a client that has not returned. -/
theorem settles_step {e : ClientEvent} (hr : h.Remembered r.filter)
    (hstep : r.step cfg e = some r') (hc : KeepsPress ⟨r,some h⟩ e) :
    ∀ h' ∈ hears ⟨r,some h⟩ r' e,Settles h' r' := by
  cases e with
  | frame f =>
    rintro h' ⟨⟩
    simp only [RemoteClient.step] at hstep
    split_ifs at hstep with hrunning
    obtain rfl := Option.some.inj hstep
    exact settles_frame hr hrunning hc
  | ended error =>
    rintro h' ⟨⟩
    simp only [RemoteClient.step] at hstep
    split_ifs at hstep
    obtain rfl := Option.some.inj hstep
    exact settles_of_filter hr (ended_filter cfg r error)
  | branch e =>
    simp only [RemoteClient.step] at hstep
    split_ifs at hstep with hrunning
    exact settles_branch hr hrunning hc hstep
  | typed chunk =>
    rintro h' ⟨⟩
    obtain rfl := Option.some.inj hstep
    refine settles_of_filter hr ?_
    unfold RemoteClient.typed
    split
    · split_ifs <;> rfl
    · rfl
  | aborts error =>
    rintro h' ⟨⟩
    simp only [RemoteClient.step] at hstep
    split_ifs at hstep
    obtain rfl := Option.some.inj hstep
    exact settles_of_filter hr rfl
  | waitInput =>
    rintro h' ⟨⟩
    exact settles_waitInput hr hc hstep
  | retry timer =>
    rintro h' ⟨⟩
    exact settles_retry hr hc hstep

/-- A client that has returned takes no step but to be typed at. -/
theorem returned_step {e : ClientEvent} (hreturned : r.isReturned = true)
    (hstep : r.step cfg e = some r') : (∃ chunk, e = .typed chunk) ∧ r'.phase = r.phase := by
  cases hphase : r.phase with
  | returned result =>
    have hrunning : r.running = false := by rw [RemoteClient.running,hphase]
    cases e with
    | typed chunk =>
      obtain rfl := Option.some.inj hstep
      refine ⟨⟨chunk,rfl⟩,?_⟩
      rw [← hphase]
      unfold RemoteClient.typed
      split
      · split_ifs <;> rfl
      · rfl
    | frame | ended | branch | aborts =>
      simp only [RemoteClient.step,hrunning,Bool.false_eq_true,if_false] at hstep
      cases hstep
    | waitInput =>
      simp only [RemoteClient.step,RemoteClient.waitInput,hphase] at hstep
      cases hstep
    | retry timer =>
      simp only [RemoteClient.step,RemoteClient.retry,hphase] at hstep
      cases hstep
  | handshake | streaming | lost _ =>
    rw [RemoteClient.isReturned,hphase] at hreturned
    cases hreturned

end steps

theorem good_step (cfg : RemoteConfig) (w : DetachWorld) (e : ClientEvent) (w' : DetachWorld)
    (hstep : w.step cfg e = some w') (hc : w.KeepsPress e) (hw : w.Good) : w'.Good := by
  obtain ⟨client,hclient,rfl⟩ := Option.map_eq_some_iff.mp hstep
  obtain ⟨r,heard⟩ := w
  cases heard with
  | none =>
    intro h hh
    simp only [hears] at hh
    split_ifs at hh
    · obtain rfl := Option.some.inj hh
      exact .inr ⟨not_pressedTwice_nil,fun _ => ⟨not_pressedTwice_nil,rfl,
        fun hpending => absurd hpending not_pending_nil⟩⟩
    · cases hh
  | some h =>
    intro h' hh'
    by_cases hreturned : r.isReturned = true
    · obtain ⟨⟨chunk,rfl⟩,hphase⟩ := returned_step hreturned hclient
      obtain rfl := Option.some.inj hh'
      have hreturned' : client.isReturned = true := by
        rw [RemoteClient.isReturned,hphase]
        exact hreturned
      rcases hw h rfl with hdetached | ⟨honce,-⟩
      · exact .inl (hphase.trans hdetached)
      · exact .inr ⟨honce,fun hgoes => by rw [hreturned'] at hgoes; cases hgoes⟩
    · rcases hw h rfl with hdetached | ⟨-,hr⟩
      · exact absurd (by rw [RemoteClient.isReturned,hdetached]) hreturned
      · exact settles_step (hr (Bool.eq_false_iff.mpr hreturned)) hclient hc h' hh'

/-- Where the filter forgets no press, two consecutive presses after a loss detach. -/
theorem always_detachWorks (cfg : RemoteConfig) (es : List ClientEvent)
    (h : Transition.Meets (step cfg) KeepsPress start es) :
    Transition.Always (step cfg) DetachWorks start es :=
  Transition.always_of_meets (good_step cfg) (fun _ h => h.detachWorks) h good_start

/-- Both presses fall into one wait, the second in the enhanced encoding and behind the release
of the first. -/
def pressesInWait : List ClientEvent :=
  [.frame ⟨S_READY,[0]⟩,.ended none,.typed (some [DETACH_KEY]),.waitInput,
    .typed (some [27,91,57,50,59,53,58,51,117,27,91,57,50]),.waitInput,
    .typed (some [59,53,117]),.waitInput]

theorem always_detachWorks_wait :
    Transition.Always (step ⟨true,false⟩) DetachWorks start pressesInWait :=
  always_detachWorks ⟨true,false⟩ pressesInWait (by decide +kernel)

/-- The first press falls into the wait, the second into the handshake behind it. -/
def pressesAcrossRetry : List ClientEvent :=
  [.frame ⟨S_READY,[0]⟩,.ended none,.typed (some [DETACH_KEY]),.waitInput,.retry true,
    .typed (some [DETACH_KEY]),.branch (.stdin none)]

theorem press_before_retry_forgotten : ∃ w,
    Transition.exec (step ⟨true,false⟩) start pressesAcrossRetry = some w ∧ ¬w.DetachWorks := by
  refine ⟨_,rfl,fun h => ?_⟩
  have hdetached := h ⟨[some .press,some .press],[]⟩ rfl ⟨[],[],[],rfl,by rintro k ⟨⟩⟩
  cases hdetached

end DetachWorld
end Babysit
