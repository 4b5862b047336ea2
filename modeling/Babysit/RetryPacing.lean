import Babysit.Lib.Transition
import Babysit.RemoteRuns

/-! The remote client with a clock. A loss is followed by a wait of the current delay, which
doubles from attempt to attempt and is reset by the ready frame; a closed standard input ends
the wait early. -/
namespace Babysit
namespace RemoteClient
variable {cfg : RemoteConfig} {r r' : RemoteClient}

/-- A step that leaves the delay and the channel of standard input as they are. -/
structure Calm (r r' : RemoteClient) : Prop where
  delay : r'.delay = r.delay
  stdinOpen : r'.stdinOpen = r.stdinOpen

theorem calm_handshakeLoss (cfg : RemoteConfig) (r : RemoteClient) (a b c : String) :
    r.Calm (r.handshakeLoss cfg a b c) := by
  unfold handshakeLoss
  split_ifs <;> exact ⟨rfl,rfl⟩

theorem calm_streamLoss (cfg : RemoteConfig) (r : RemoteClient) (reason : String) :
    r.Calm (r.streamLoss cfg reason) := by
  unfold streamLoss
  split_ifs <;> exact ⟨rfl,rfl⟩

theorem calm_send (cfg : RemoteConfig) (r : RemoteClient) (what : String)
    (failed : Option String) (f : Frame) : r.Calm (r.send cfg what failed f) := by
  unfold send
  split_ifs
  · exact ⟨rfl,rfl⟩
  · cases failed
    · exact ⟨rfl,rfl⟩
    · exact calm_streamLoss _ _ _

theorem calm_ended (cfg : RemoteConfig) (r : RemoteClient) (error : Option String) :
    r.Calm (r.ended cfg error) := by
  unfold ended handshakeError
  split
  · exact calm_handshakeLoss _ _ _ _ _
  · exact calm_handshakeLoss _ _ _ _ _
  · exact calm_streamLoss _ _ _
  · exact calm_streamLoss _ _ _
  · exact ⟨rfl,rfl⟩
  · exact ⟨rfl,rfl⟩

theorem calm_input (cfg : RemoteConfig) (r : RemoteClient) (bytes : List UInt8)
    (rest : List (List UInt8)) (failed : Option String) :
    r.Calm (r.input cfg bytes rest failed) := by
  have hsent := calm_send cfg { r with stdin := rest, filter := (r.filter.push bytes).filter }
    "send remote input" failed ⟨C_INPUT,(r.filter.push bytes).forward⟩
  unfold input
  dsimp only
  split
  · split_ifs <;> exact ⟨rfl,rfl⟩
  · split_ifs
    · exact ⟨hsent.delay,hsent.stdinOpen⟩
    · exact ⟨hsent.delay,hsent.stdinOpen⟩
  · exact ⟨rfl,rfl⟩
  · exact ⟨rfl,rfl⟩

theorem calm_branch {e : RemoteEvent} (h : r.branch cfg e = some r') : r.Calm r' := by
  rcases branch_cases h with ⟨failed,bytes,rest,-,-,rfl⟩ | ⟨failed,-,-,rfl⟩ |
    ⟨cols,rows,failed,-,-,rfl⟩ | ⟨-,-,rfl⟩ | rfl
  · exact calm_input _ _ _ _ _
  · have hsent := calm_send cfg { r with filter := r.filter.flushPartialEscape.filter }
      "flush remote input" failed ⟨C_INPUT,r.filter.flushPartialEscape.forward⟩
    exact ⟨hsent.delay,hsent.stdinOpen⟩
  · exact calm_send _ _ _ _ _
  · exact calm_handshakeLoss _ _ _ _ _
  · exact ⟨rfl,rfl⟩

theorem calm_offsetFrame (cfg : RemoteConfig) (r : RemoteClient) (payload : List UInt8) :
    r.Calm (r.offsetFrame cfg payload) := by
  unfold offsetFrame
  dsimp only
  split
  · exact ⟨rfl,rfl⟩
  · split_ifs <;> exact ⟨rfl,rfl⟩

theorem calm_streamFrame (cfg : RemoteConfig) (r : RemoteClient) (f : Frame) :
    r.Calm (r.streamFrame cfg f) := by
  unfold streamFrame
  split_ifs
  · exact calm_offsetFrame _ _ _
  all_goals exact ⟨rfl,rfl⟩

/-- The ready frame of a handshake. -/
def Readies (r : RemoteClient) : ClientEvent → Prop
  | .frame f => r.isHandshake = true ∧ f.tag = S_READY
  | _ => False

instance (r : RemoteClient) : (e : ClientEvent) → Decidable (r.Readies e)
  | .frame _ => inferInstanceAs (Decidable (_ ∧ _))
  | .ended _ | .branch _ | .typed _ | .aborts _ | .waitInput | .retry _ =>
    inferInstanceAs (Decidable False)

theorem established_delay (cfg : RemoteConfig) (r : RemoteClient) (payload : List UInt8) :
    (r.established cfg payload).delay = 250 ∧ (r.established cfg payload).isLost = false ∧
      (r.established cfg payload).stdinOpen = r.stdinOpen := by
  unfold established
  dsimp only
  split_ifs <;> exact ⟨rfl,rfl,rfl⟩

/-- What a step does to the delay: the ready frame resets it, a retry doubles it up to its
bound, and nothing else touches it. Only a retry without the timer needs a closed standard
input, and only its end closes it. -/
inductive Delayed (r : RemoteClient) (e : ClientEvent) (r' : RemoteClient) : Prop
  | ready (hready : r.Readies e) (hdelay : r'.delay = 250) (hlost : r'.isLost = false)
      (hopen : r'.stdinOpen = r.stdinOpen)
  | retried (timer : Bool) (he : e = .retry timer) (hlost : r.isLost = true)
      (hrunning : r'.running = true) (hdelay : r'.delay = min (r.delay*2) 5000)
      (hopen : r'.stdinOpen = r.stdinOpen) (hends : timer = true ∨ r.stdinOpen = false)
  | kept (hready : ¬r.Readies e) (he : ∀ timer, e ≠ .retry timer) (hdelay : r'.delay = r.delay)
      (hphase : r.running = true ∨ r'.phase = r.phase ∨ r'.isReturned = true)
      (hopen : e = .typed none ∨ r'.stdinOpen = r.stdinOpen)

theorem Calm.kept {e : ClientEvent} (h : r.Calm r') (hready : ¬r.Readies e)
    (he : ∀ timer, e ≠ .retry timer)
    (hphase : r.running = true ∨ r'.phase = r.phase ∨ r'.isReturned = true) : r.Delayed e r' :=
  .kept hready he h.delay hphase (.inr h.stdinOpen)

theorem step_delayed {e : ClientEvent} (h : r.step cfg e = some r') : r.Delayed e r' := by
  cases e with
  | frame f =>
    simp only [step] at h
    split_ifs at h with hrunning
    obtain rfl := Option.some.inj h
    by_cases hready : r.Readies (.frame f)
    · obtain ⟨hdelay,hlost,hopen⟩ := established_delay cfg r f.payload
      have hframe : r.frame cfg f = r.established cfg f.payload := by
        obtain ⟨hhandshake,htag⟩ := hready
        unfold isHandshake at hhandshake
        unfold frame
        split at hhandshake <;> simp_all [handshakeFrame]
      rw [hframe]
      exact .ready hready hdelay hlost hopen
    · have hcalm : r.Calm (r.frame cfg f) := by
        unfold frame
        split
        · next hphase =>
          have htag : f.tag ≠ S_READY := by
            intro htag
            exact hready ⟨by rw [isHandshake,hphase],htag⟩
          unfold handshakeFrame handshakeError
          rw [if_neg htag]
          split_ifs
          · exact calm_handshakeLoss _ _ _ _ _
          · exact ⟨rfl,rfl⟩
        · exact calm_streamFrame _ _ _
        · exact ⟨rfl,rfl⟩
        · exact ⟨rfl,rfl⟩
      exact hcalm.kept hready (by rintro timer ⟨⟩) (.inl hrunning)
  | ended error =>
    simp only [step] at h
    split_ifs at h with hrunning
    obtain rfl := Option.some.inj h
    exact (calm_ended cfg r error).kept id (by rintro timer ⟨⟩) (.inl hrunning)
  | branch e =>
    simp only [step] at h
    split_ifs at h with hrunning
    exact (calm_branch h).kept id (by rintro timer ⟨⟩) (.inl hrunning)
  | typed chunk =>
    obtain rfl := Option.some.inj h
    obtain ⟨stdin,isOpen,htyped,hopen⟩ := r.typed_cases chunk
    rw [htyped]
    refine .kept id (by rintro timer ⟨⟩) rfl (.inr (.inl rfl)) (hopen.imp_left ?_)
    rintro rfl
    rfl
  | aborts error =>
    simp only [step] at h
    split_ifs at h with hrunning
    obtain rfl := Option.some.inj h
    exact Calm.kept ⟨rfl,rfl⟩ id (by rintro timer ⟨⟩) (.inl hrunning)
  | waitInput =>
    obtain ⟨reason,bytes,rest,-,-,rfl⟩ := waitInput_cases h
    split_ifs
    · exact Calm.kept ⟨rfl,rfl⟩ id (by rintro timer ⟨⟩) (.inr (.inr rfl))
    · exact Calm.kept ⟨rfl,rfl⟩ id (by rintro timer ⟨⟩) (.inr (.inl rfl))
  | retry timer =>
    obtain ⟨reason,hphase,hends,rfl⟩ := retry_cases h
    refine .retried timer rfl (by rw [isLost,hphase]) rfl rfl rfl (hends.imp_right ?_)
    exact fun hclosed => eq_false_of_ne_true hclosed.2

end RemoteClient

/-- The backoff before the attempt with this index, in milliseconds. -/
def backoff (k : ℕ) : ℕ := min (250*2^k) 5000

/-- The client and the clock; `deadline` is that of the timer of `wait_reconnect`. Ghosts: when
the connection was lost since the last ready frame, and when an attempt to connect again was
started since then, with whether the timer let it. -/
structure RetryWorld where
  client : RemoteClient
  now : ℕ
  deadline : Option ℕ
  losses : List ℕ
  attempts : List (ℕ × Bool)

/-- `waits` is the call of `wait_reconnect`. -/
inductive RetryEvent
  | passes (ms : ℕ)
  | waits
  | client (e : ClientEvent)

namespace RetryWorld

def start : RetryWorld := ⟨.init,0,none,[],[]⟩

/-- Only a call of `wait_reconnect` takes input between two connections or ends, and its timer
fires at the deadline. -/
def Allows (w : RetryWorld) : ClientEvent → Prop
  | .waitInput => w.deadline.isSome = true
  | .retry timer => ∃ deadline ∈ w.deadline, timer = true → deadline ≤ w.now
  | _ => True

instance (w : RetryWorld) : (e : ClientEvent) → Decidable (w.Allows e)
  | .waitInput => inferInstanceAs (Decidable (_ = true))
  | .retry _ => inferInstanceAs (Decidable (∃ deadline ∈ w.deadline, _))
  | .frame _ | .ended _ | .branch _ | .typed _ | .aborts _ => inferInstanceAs (Decidable True)

def moved (w : RetryWorld) (e : ClientEvent) (client : RemoteClient) : RetryWorld where
  client := client
  now := w.now
  deadline := if client.isLost then w.deadline else none
  losses :=
    if w.client.Readies e then []
    else if ¬w.client.isLost ∧ client.isLost then w.losses ++ [w.now]
    else w.losses
  attempts :=
    if w.client.Readies e then []
    else match e with
      | .retry timer => w.attempts ++ [(w.now,timer)]
      | _ => w.attempts

def step (cfg : RemoteConfig) (w : RetryWorld) : RetryEvent → Option RetryWorld
  | .passes ms => some { w with now := w.now+ms }
  | .waits =>
    if w.client.isLost ∧ w.deadline = none then
      some { w with deadline := some (w.now+w.client.delay) }
    else none
  | .client e => if w.Allows e then (w.client.step cfg e).map (w.moved e) else none

/-- Every attempt was let by the timer, its whole backoff after the loss it answers. -/
def Paced (w : RetryWorld) : Prop :=
  ∀ k attempt, w.attempts[k]? = some attempt →
    attempt.2 = true ∧ ∃ loss, w.losses[k]? = some loss ∧ loss + backoff k ≤ attempt.1

/-- The step is not the end of a wait on a closed standard input. -/
def Timed (_ : RetryWorld) (e : RetryEvent) : Prop := e ≠ .client (.retry false)

/-- No wait is on while standard input is closed and its queue empty. -/
def WaitsOpen (w : RetryWorld) : Prop :=
  w.deadline.isSome = true → w.client.stdin = [] → w.client.stdinOpen = true

/-- Whatever is next leaves every attempt paced. -/
def StaysPaced (cfg : RemoteConfig) (w : RetryWorld) : Prop :=
  ∀ e w', w.step cfg e = some w' → w'.Paced

theorem backoff_succ (k : ℕ) : min (backoff k * 2) 5000 = backoff (k+1) := by
  unfold backoff
  rw [pow_succ]
  omega

section Run
variable {cfg : RemoteConfig} {w w' : RetryWorld} {client : RemoteClient} {e : ClientEvent}

theorem step_client (h : w.step cfg (.client e) = some w') :
    w.Allows e ∧ ∃ client, w.client.step cfg e = some client ∧ w' = w.moved e client := by
  simp only [step] at h
  split_ifs at h with hallows
  obtain ⟨client,hclient,rfl⟩ := Option.map_eq_some_iff.mp h
  exact ⟨hallows,client,hclient,rfl⟩

theorem not_running_of_lost {r : RemoteClient} (h : r.isLost = true) : r.running = false := by
  unfold RemoteClient.isLost at h
  unfold RemoteClient.running
  cases hphase : r.phase <;> simp_all

theorem returned_stopped {r : RemoteClient} (h : r.isReturned = true) :
    r.running = false ∧ r.isLost = false := by
  unfold RemoteClient.isReturned at h
  unfold RemoteClient.running RemoteClient.isLost
  cases hphase : r.phase <;> simp_all

theorem phase_congr {r r' : RemoteClient} (h : r'.phase = r.phase) :
    r'.running = r.running ∧ r'.isLost = r.isLost := by
  simp only [RemoteClient.running,RemoteClient.isLost,h]
  exact ⟨trivial,trivial⟩

/-- The invariant: since the ready frame there is a loss for every attempt, and one more during
a wait, whose deadline is the backoff after it. -/
structure Good (w : RetryWorld) : Prop where
  paced : w.Paced
  past : ∀ loss ∈ w.losses, loss ≤ w.now
  delay : w.client.delay = backoff w.attempts.length
  running : w.client.running = true → w.losses.length = w.attempts.length
  lost : w.client.isLost = true → w.losses.length = w.attempts.length+1
  waiting : ∀ deadline ∈ w.deadline, w.client.isLost = true ∧
    ∃ loss, w.losses[w.attempts.length]? = some loss ∧
      loss + backoff w.attempts.length ≤ deadline

theorem good_start : start.Good where
  paced k attempt hk := by cases hk
  past loss hloss := by cases hloss
  delay := rfl
  running _ := rfl
  lost := nofun
  waiting deadline hdeadline := by cases hdeadline

theorem Good.passes (h : w.Good) (ms : ℕ) : Good { w with now := w.now+ms } where
  paced := h.paced
  past loss hloss := Nat.le_add_right_of_le (h.past loss hloss)
  delay := h.delay
  running := h.running
  lost := h.lost
  waiting := h.waiting

theorem Good.waits (h : w.Good) (hlost : w.client.isLost = true) :
    Good { w with deadline := some (w.now+w.client.delay) } where
  paced := h.paced
  past := h.past
  delay := h.delay
  running := h.running
  lost := h.lost
  waiting deadline hdeadline := by
    obtain rfl := Option.some.inj hdeadline
    have hlen := h.lost hlost
    obtain ⟨loss,hloss⟩ : ∃ loss, w.losses[w.attempts.length]? = some loss :=
      ⟨_,List.getElem?_eq_getElem (by omega)⟩
    have hpast := h.past loss (List.mem_of_getElem? hloss)
    have hdelay := h.delay
    refine ⟨hlost,loss,hloss,?_⟩
    dsimp only
    omega

/-- The ready frame begins a new count. -/
theorem good_ready (hready : w.client.Readies e) (hdelay : client.delay = 250)
    (hlost : client.isLost = false) : (w.moved e client).Good := by
  have hlosses : (w.moved e client).losses = [] := if_pos hready
  have hattempts : (w.moved e client).attempts = [] := if_pos hready
  have hdeadline : (w.moved e client).deadline = none := by simp [moved,hlost]
  constructor
  · intro k attempt hk
    rw [hattempts] at hk
    cases hk
  · rw [hlosses]
    intro loss hloss
    cases hloss
  · rw [hattempts]
    exact hdelay
  · rw [hlosses,hattempts]
    exact fun _ => rfl
  · intro hclient
    rw [show (w.moved e client).client.isLost = false from hlost] at hclient
    cases hclient
  · rw [hdeadline]
    nofun

/-- The timer lets an attempt begin. -/
theorem Good.retry (h : w.Good) (hallows : w.Allows (.retry true))
    (hlost : w.client.isLost = true) (hrunning : client.running = true)
    (hdelay : client.delay = min (w.client.delay*2) 5000) :
    (w.moved (.retry true) client).Good := by
  have hnotlost : client.isLost = false := by
    by_contra hclient
    rw [not_running_of_lost (Bool.eq_true_of_not_eq_false hclient)] at hrunning
    cases hrunning
  have hlosses : (w.moved (.retry true) client).losses = w.losses := by
    simp [moved,RemoteClient.Readies,hlost]
  have hattempts : (w.moved (.retry true) client).attempts = w.attempts ++ [(w.now,true)] := by
    simp [moved,RemoteClient.Readies]
  have hdeadline : (w.moved (.retry true) client).deadline = none := by simp [moved,hnotlost]
  obtain ⟨deadline,hmem,hfired⟩ := hallows
  obtain ⟨-,loss,hloss,hwhole⟩ := h.waiting deadline hmem
  constructor
  · intro k attempt hk
    rw [hattempts] at hk
    rw [hlosses]
    by_cases hearlier : k < w.attempts.length
    · rw [List.getElem?_append_left hearlier] at hk
      exact h.paced k attempt hk
    · have hlt : k < (w.attempts ++ [(w.now,true)]).length := (List.getElem?_eq_some_iff.mp hk).1
      rw [List.length_append,List.length_singleton] at hlt
      obtain rfl : k = w.attempts.length := by omega
      rw [List.getElem?_concat_length] at hk
      obtain rfl := Option.some.inj hk
      exact ⟨rfl,loss,hloss,hwhole.trans (hfired rfl)⟩
  · rw [hlosses]
    exact h.past
  · rw [hattempts,List.length_append,List.length_singleton,← backoff_succ,← h.delay]
    exact hdelay
  · intro _
    rw [hlosses,hattempts,List.length_append,List.length_singleton]
    exact h.lost hlost
  · intro hclient
    rw [show (w.moved (.retry true) client).client.isLost = false from hnotlost] at hclient
    cases hclient
  · rw [hdeadline]
    nofun

theorem moved_kept (client : RemoteClient) (hready : ¬w.client.Readies e) (he : ∀ timer, e ≠ .retry timer) :
    (w.moved e client).attempts = w.attempts ∧ (w.moved e client).losses =
      if ¬w.client.isLost ∧ client.isLost then w.losses ++ [w.now] else w.losses := by
  refine ⟨?_,if_neg hready⟩
  simp only [moved,if_neg hready]

/-- The connection is lost. -/
theorem Good.loses (h : w.Good) (hready : ¬w.client.Readies e) (he : ∀ timer, e ≠ .retry timer)
    (hdelay : client.delay = w.client.delay) (hrunning : w.client.running = true)
    (hafter : client.isLost = true) : (w.moved e client).Good := by
  have hbefore : ¬w.client.isLost = true := by
    intro hlost
    rw [not_running_of_lost hlost] at hrunning
    cases hrunning
  obtain ⟨hattempts,hlosses⟩ := moved_kept client hready he
  rw [if_pos ⟨hbefore,hafter⟩] at hlosses
  constructor
  · intro k attempt hk
    rw [hattempts] at hk
    obtain ⟨htimer,loss,hloss,hle⟩ := h.paced k attempt hk
    refine ⟨htimer,loss,?_,hle⟩
    rw [hlosses,List.getElem?_append_left (List.getElem?_eq_some_iff.mp hloss).1]
    exact hloss
  · rw [hlosses]
    intro loss hloss
    rcases List.mem_append.mp hloss with hloss | hloss
    · exact h.past loss hloss
    · exact Nat.le_of_eq (List.mem_singleton.mp hloss)
  · rw [hattempts]
    exact hdelay.trans h.delay
  · intro hclient
    rw [show (w.moved e client).client.running = false from not_running_of_lost hafter] at hclient
    cases hclient
  · intro _
    rw [hlosses,hattempts,List.length_append,h.running hrunning]
    rfl
  · intro deadline hdeadline
    rw [show (w.moved e client).deadline = w.deadline from if_pos hafter] at hdeadline
    exact absurd (h.waiting deadline hdeadline).1 hbefore

/-- The client stays where it is, or returns. -/
theorem Good.stays (h : w.Good) (hready : ¬w.client.Readies e) (he : ∀ timer, e ≠ .retry timer)
    (hdelay : client.delay = w.client.delay)
    (hrunning : client.running = true → w.client.running = true)
    (hlost : client.isLost = true → w.client.isLost = true) : (w.moved e client).Good := by
  obtain ⟨hattempts,hlosses⟩ := moved_kept client hready he
  rw [if_neg fun hnew => hnew.1 (hlost hnew.2)] at hlosses
  constructor
  · intro k attempt hk
    rw [hattempts] at hk
    rw [hlosses]
    exact h.paced k attempt hk
  · rw [hlosses]
    exact h.past
  · rw [hattempts]
    exact hdelay.trans h.delay
  · intro hclient
    rw [hlosses,hattempts]
    exact h.running (hrunning hclient)
  · intro hclient
    rw [hlosses,hattempts]
    exact h.lost (hlost hclient)
  · intro deadline hdeadline
    have hafter : client.isLost = true := by
      by_contra hclient
      rw [show (w.moved e client).deadline = none from if_neg hclient] at hdeadline
      cases hdeadline
    rw [show (w.moved e client).deadline = w.deadline from if_pos hafter] at hdeadline
    rw [hlosses,hattempts]
    exact ⟨hafter,(h.waiting deadline hdeadline).2⟩

/-- Any other step of the client; it may lose the connection. -/
theorem Good.kept (h : w.Good) (hready : ¬w.client.Readies e) (he : ∀ timer, e ≠ .retry timer)
    (hdelay : client.delay = w.client.delay)
    (hphase : w.client.running = true ∨ client.phase = w.client.phase ∨
      client.isReturned = true) : (w.moved e client).Good := by
  rcases hphase with hrunning | hsame | hreturned
  · cases hafter : client.isLost with
    | true => exact h.loses hready he hdelay hrunning hafter
    | false =>
      refine h.stays hready he hdelay (fun _ => hrunning) fun hlost => ?_
      rw [hafter] at hlost
      cases hlost
  · obtain ⟨hrunning,hlost⟩ := phase_congr hsame
    exact h.stays hready he hdelay (fun h => hrunning ▸ h) fun h => hlost ▸ h
  · obtain ⟨hrunning,hlost⟩ := returned_stopped hreturned
    refine h.stays hready he hdelay (fun h => ?_) fun h => ?_
    · rw [hrunning] at h
      cases h
    · rw [hlost] at h
      cases h

theorem good_step (w : RetryWorld) (e : RetryEvent) (w' : RetryWorld)
    (hstep : w.step cfg e = some w') (he : w.Timed e) (h : w.Good) : w'.Good := by
  cases e with
  | passes ms =>
    obtain rfl := Option.some.inj hstep
    exact h.passes ms
  | waits =>
    simp only [step] at hstep
    split_ifs at hstep with hwaits
    obtain rfl := Option.some.inj hstep
    exact h.waits hwaits.1
  | client e =>
    obtain ⟨hallows,client,hclient,rfl⟩ := step_client hstep
    rcases RemoteClient.step_delayed hclient with ⟨hready,hdelay,hlost,-⟩ |
      ⟨timer,rfl,hlost,hrunning,hdelay,-,-⟩ | ⟨hready,hretry,hdelay,hphase,-⟩
    · exact good_ready hready hdelay hlost
    · cases timer with
      | false => exact absurd rfl he
      | true => exact h.retry hallows hlost hrunning hdelay
    · exact h.kept hready hretry hdelay hphase

/-- An attempt that a closed standard input lets begin is not paced. -/
theorem not_paced_of_closed {a : RetryEvent} (hstep : w.step cfg a = some w') (ha : ¬w.Timed a) :
    ¬w'.Paced := by
  obtain rfl := not_not.mp ha
  obtain ⟨-,client,-,rfl⟩ := step_client hstep
  intro hpaced
  have hlast : (w.moved (.retry false) client).attempts = w.attempts ++ [(w.now,false)] := by
    simp [moved,RemoteClient.Readies]
  have hk := hpaced w.attempts.length (w.now,false)
    (by rw [hlast,List.getElem?_concat_length])
  exact absurd hk.1 (by simp)

/-- The end of a wait on a closed standard input needs one. -/
theorem timed_of_waitsOpen {a : RetryEvent} (hstep : w.step cfg a = some w') (h : w.WaitsOpen) :
    w.Timed a := by
  rintro rfl
  obtain ⟨⟨deadline,hdeadline,-⟩,client,hclient,-⟩ := step_client hstep
  obtain ⟨-,-,htimer | ⟨hempty,hclosed⟩,-⟩ := RemoteClient.retry_cases hclient
  · cases htimer
  · refine hclosed (h ?_ hempty)
    rw [Option.mem_def.mp hdeadline]
    rfl

/-- The states in which an attempt may come too early are those with a wait on a closed
standard input. -/
theorem Good.waitsOpen_iff (h : w.Good) : w.WaitsOpen ↔ w.StaysPaced cfg := by
  constructor
  · intro hopen e w' hstep
    exact (good_step w e w' hstep (timed_of_waitsOpen hstep hopen) h).paced
  · intro hpaced hdeadline hempty
    by_contra hclosed
    obtain ⟨deadline,hdeadline⟩ := Option.isSome_iff_exists.mp hdeadline
    obtain ⟨reason,hphase⟩ : ∃ reason, w.client.phase = .lost reason := by
      have hlost := (h.waiting deadline hdeadline).1
      unfold RemoteClient.isLost at hlost
      cases hphase : w.client.phase with
      | lost reason => exact ⟨reason,rfl⟩
      | _ =>
        rw [hphase] at hlost
        cases hlost
    obtain ⟨client,hclient⟩ : ∃ client, w.client.step cfg (.retry false) = some client := by
      simp only [RemoteClient.step,RemoteClient.retry,hphase]
      exact ⟨_,if_pos (.inr ⟨hempty,hclosed⟩)⟩
    have hstep : w.step cfg (.client (.retry false)) = some (w.moved (.retry false) client) := by
      rw [step,if_pos ⟨deadline,hdeadline,fun hfires => absurd hfires Bool.false_ne_true⟩,hclient]
      rfl
    exact not_paced_of_closed hstep (fun htimed => htimed rfl) (hpaced _ _ hstep)

/-- As long as standard input is open every wait ends at its timer. -/
theorem timed_of_open {a : RetryEvent} (hstep : w.step cfg a = some w')
    (ha : a ≠ .client (.typed none)) (hopen : w.client.stdinOpen = true) :
    w.Timed a ∧ w'.client.stdinOpen = true := by
  cases a with
  | passes ms =>
    obtain rfl := Option.some.inj hstep
    exact ⟨by rintro ⟨⟩,hopen⟩
  | waits =>
    simp only [step] at hstep
    split_ifs at hstep
    obtain rfl := Option.some.inj hstep
    exact ⟨by rintro ⟨⟩,hopen⟩
  | client e =>
    obtain ⟨-,client,hclient,rfl⟩ := step_client hstep
    rcases RemoteClient.step_delayed hclient with ⟨hready,-,-,hsame⟩ |
      ⟨timer,rfl,-,-,-,hsame,hends⟩ | ⟨-,hretry,-,-,hsame⟩
    · refine ⟨?_,hsame.trans hopen⟩
      rintro ⟨⟩
      exact hready
    · have htimer : timer = true := hends.resolve_right (by rw [hopen]; exact Bool.noConfusion)
      refine ⟨?_,hsame.trans hopen⟩
      rintro ⟨⟩
      cases htimer
    · refine ⟨?_,(hsame.resolve_left fun he => ha (congrArg _ he)).trans hopen⟩
      rintro ⟨⟩
      exact hretry false rfl

end Run

/-- Every attempt to connect again is paced, in every state of a run and whatever comes next,
exactly when standard input is never closed and its queue empty while a wait is on; in the run
alone, exactly when no wait ends that way; none does while standard input stays open. -/
theorem attempts_paced_iff (cfg : RemoteConfig) (es : List RetryEvent) :
    (Transition.Always (step cfg) WaitsOpen start es ↔
        Transition.Always (step cfg) (StaysPaced cfg) start es) ∧
      (Transition.Always (step cfg) Paced start es ↔
        Transition.Meets (step cfg) Timed start es) ∧
      ((∀ e ∈ es, e ≠ .client (.typed none)) → Transition.Meets (step cfg) Timed start es) := by
  refine ⟨?_,?_,?_⟩
  · exact Transition.always_congr
      (fun w e w' hstep hopen h => good_step w e w' hstep (timed_of_waitsOpen hstep hopen) h)
      (fun _ h => h.waitsOpen_iff) good_start es
  · exact Transition.always_iff_meets (fun _ h => h.paced)
      (fun w e w' hstep he h => good_step w e w' hstep he h)
      (fun _ _ _ hstep he _ => not_paced_of_closed hstep he) good_start es
  · intro hopen
    have hstart : start.client.stdinOpen = true := rfl
    exact Transition.meets_of_kept (I := fun w => w.client.stdinOpen = true)
      (D := fun e => e ≠ .client (.typed none))
      (fun _ _ _ hstep he h => timed_of_open hstep he h) hopen hstart

/-- The session is ready, standard input is closed, and the stream and two more bridges end. -/
def closedStdin : List RetryEvent :=
  [.client (.frame ⟨S_READY,[1]⟩),.client (.typed none)] ++
    (List.replicate 3 [.client (.ended none),.waits,.client (.retry false)]).flatten

theorem closed_stdin_not_paced :
    ∃ w, Transition.exec (step ⟨true,false⟩) start closedStdin = some w ∧
      w.losses = [0,0,0] ∧ w.attempts = [(0,false),(0,false),(0,false)] ∧ ¬w.Paced := by
  refine ⟨_,rfl,rfl,rfl,fun hpaced => ?_⟩
  exact absurd (hpaced 0 (0,false) rfl).1 (by simp)

end RetryWorld
end Babysit
