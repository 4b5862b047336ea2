import Babysit.RemoteRuns

/-! What is typed while the remote client is offline: from a lost transport to the next ready
frame. A byte is received when the stdin thread queues its chunk. -/
namespace Babysit

/-- Chunks of input, and the steps that take one from the queue. -/
def ClientEvent.isInput : ClientEvent → Bool
  | .typed (some _) | .waitInput | .branch (.stdin _) => true
  | .frame _ | .ended _ | .branch _ | .typed none | .aborts _ | .retry _ => false

namespace RemoteClient

/-- Between a loss and the next ready frame. -/
def Offline (r : RemoteClient) : Prop := r.isHandshake = true ∨ r.isLost = true

instance (r : RemoteClient) : Decidable r.Offline :=
  inferInstanceAs (Decidable (r.isHandshake = true ∨ r.isLost = true))

/-- The client without the input it has queued and withheld. -/
def erased (r : RemoteClient) : RemoteClient := { r with stdin := [], filter := .default }

variable {cfg : RemoteConfig} {r r' : RemoteClient}

/-- A drained queue without the hotkey is empty. -/
theorem discardQueuedInput_rest {filter : DetachFilter} {queue : List (List UInt8)}
    (h : (discardQueuedInput filter queue).1 = false) :
    (discardQueuedInput filter queue).2.2 = [] := by
  induction queue generalizing filter with
  | nil => rfl
  | cons bytes rest ih =>
    unfold discardQueuedInput at h ⊢
    dsimp only at h ⊢
    split_ifs at h ⊢
    exact ih h

/-- The ready frame: the hotkey has been completed, or what was typed is gone. -/
theorem established_cases (cfg : RemoteConfig) (r : RemoteClient) (payload : List UInt8) :
    (r.established cfg payload).isReturned = true ∨
      r.established cfg payload = r.erased.established cfg payload ∧
        (r.established cfg payload).erased = r.established cfg payload := by
  have hrest := @discardQueuedInput_rest r.filter r.stdin
  have hempty : discardQueuedInput DetachFilter.default [] = (false,.default,[]) := rfl
  unfold established erased
  simp only [hempty]
  cases hdetach : (discardQueuedInput r.filter r.stdin).1 with
  | true => exact .inl rfl
  | false =>
    right
    rw [hrest hdetach]
    exact ⟨rfl,rfl⟩

theorem erased_handshakeLoss {a b c : String}
    (hnext : (r.handshakeLoss cfg a b c).isReturned = false) :
    r.erased.handshakeLoss cfg a b c = (r.handshakeLoss cfg a b c).erased := by
  unfold handshakeLoss erased at *
  dsimp only
  split_ifs at hnext ⊢
  · rfl
  · cases hnext
  · cases hnext

theorem Offline.not_streaming (h : r.Offline) : r.isStreaming = false := by
  unfold Offline isHandshake isLost at h
  unfold isStreaming
  cases hphase : r.phase <;> simp_all

theorem Offline.not_returned (h : r.Offline) : r.isReturned = false := by
  unfold Offline isHandshake isLost at h
  unfold isReturned
  cases hphase : r.phase <;> simp_all

theorem not_returned_of_streaming (h : r.isStreaming = true) : r.isReturned = false := by
  rw [isReturned,isStreaming_iff.mp h]

theorem handshake_of_running (hoffline : r.Offline) (hrunning : r.running = true) :
    r.phase = .handshake := by
  unfold Offline isHandshake isLost at hoffline
  unfold running at hrunning
  cases hphase : r.phase <;> simp_all

/-- A chunk of input is received or pushed through the filter. -/
theorem erased_input {e : ClientEvent} (h : r.step cfg e = some r') (he : e.isInput = true)
    (hoffline : r.Offline) (hnext : r'.isReturned = false) : r'.erased = r.erased := by
  cases e with
  | typed chunk =>
    obtain rfl := Option.some.inj h
    cases chunk with
    | none => cases he
    | some chunk =>
      unfold typed
      dsimp only
      split_ifs <;> rfl
  | waitInput =>
    obtain ⟨reason,bytes,rest,-,-,rfl⟩ := waitInput_cases h
    split_ifs at hnext ⊢
    · cases hnext
    · rfl
  | branch e =>
    cases e with
    | stdin failed =>
      simp only [step] at h
      split_ifs at h with hrunning
      simp only [branch] at h
      split at h
      · obtain rfl := Option.some.inj h
        have hphase := handshake_of_running hoffline hrunning
        simp only [input,hphase] at hnext ⊢
        split_ifs at hnext ⊢
        · cases hnext
        · simp [erased,hphase]
      · split_ifs at h
        obtain rfl := Option.some.inj h
        rfl
    | escapeTimeout | windowChange | handshakeTimeout => cases he
  | frame | ended | aborts | retry => cases he

/-- No other step looks at what has been typed. -/
theorem erased_step {e : ClientEvent} (h : r.step cfg e = some r') (he : e.isInput = false)
    (hoffline : r.Offline) (hnext : r'.isReturned = false) :
    r.erased.step cfg e = some r'.erased := by
  cases e with
  | frame f =>
    simp only [step] at h
    split_ifs at h with hrunning
    obtain rfl := Option.some.inj h
    have hphase := handshake_of_running hoffline hrunning
    have hphase' : r.erased.phase = .handshake := hphase
    refine (if_pos hrunning).trans (congrArg some ?_)
    simp only [frame,hphase,hphase'] at hnext ⊢
    unfold handshakeFrame at hnext ⊢
    split_ifs at hnext ⊢
    · rcases r.established_cases cfg f.payload with hreturned | ⟨hsame,herased⟩
      · rw [hreturned] at hnext
        cases hnext
      · rw [herased,hsame]
    · exact erased_handshakeLoss hnext
    · rfl
  | ended error =>
    simp only [step] at h
    split_ifs at h with hrunning
    obtain rfl := Option.some.inj h
    have hphase := handshake_of_running hoffline hrunning
    have hphase' : r.erased.phase = .handshake := hphase
    refine (if_pos hrunning).trans (congrArg some ?_)
    simp only [ended,hphase,hphase'] at hnext ⊢
    cases error <;> exact erased_handshakeLoss hnext
  | branch e =>
    simp only [step] at h
    split_ifs at h with hrunning
    have hphase := handshake_of_running hoffline hrunning
    have hphase' : r.erased.phase = .handshake := hphase
    refine (if_pos hrunning).trans ?_
    cases e with
    | stdin => cases he
    | escapeTimeout | windowChange =>
      simp only [branch,hphase] at h
      cases h
    | handshakeTimeout =>
      simp only [branch,hphase,hphase'] at h ⊢
      obtain rfl := Option.some.inj h
      rw [erased_handshakeLoss hnext]
  | typed chunk =>
    obtain rfl := Option.some.inj h
    cases chunk with
    | none => rfl
    | some chunk => cases he
  | aborts error =>
    simp only [step] at h
    split_ifs at h
    obtain rfl := Option.some.inj h
    cases hnext
  | waitInput => cases he
  | retry timer =>
    simp only [step,retry] at h ⊢
    cases hphase : r.phase with
    | lost reason =>
      have hphase' : r.erased.phase = .lost reason := hphase
      simp only [hphase,hphase'] at h ⊢
      by_cases hready : timer = true ∨ r.stdin = [] ∧ ¬r.stdinOpen = true
      · rw [if_pos hready] at h
        obtain rfl := Option.some.inj h
        rw [if_pos (hready.imp_right fun hclosed => ⟨rfl,hclosed.2⟩)]
        cases timer <;> rfl
      · rw [if_neg hready] at h
        cases h
    | handshake | streaming | returned _ =>
      rw [hphase] at h
      cases h

/-- Nothing is sent offline, and only the ready frame leads to the stream. -/
theorem offline_step {e : ClientEvent} (h : r.step cfg e = some r') (hoffline : r.Offline) :
    r'.sent = r.sent ∧ (r'.isStreaming = true → ∃ payload, r' = r.established cfg payload) := by
  have hstays := hoffline.not_streaming
  have hloss : ∀ a b c, (r.handshakeLoss cfg a b c).sent = r.sent ∧
      (r.handshakeLoss cfg a b c).isStreaming = false := by
    intro a b c
    unfold handshakeLoss
    split_ifs <;> exact ⟨rfl,rfl⟩
  have hno : ∀ {s : RemoteClient}, s.sent = r.sent ∧ s.isStreaming = false → s.sent = r.sent ∧
      (s.isStreaming = true → ∃ payload, s = r.established cfg payload) :=
    fun hs => ⟨hs.1,fun hstreaming => absurd hstreaming (by simp [hs.2])⟩
  cases e with
  | frame f =>
    simp only [step] at h
    split_ifs at h with hrunning
    obtain rfl := Option.some.inj h
    simp only [frame,handshake_of_running hoffline hrunning,handshakeFrame]
    split_ifs
    · refine ⟨?_,fun _ => ⟨f.payload,rfl⟩⟩
      unfold established
      dsimp only
      split_ifs <;> rfl
    · exact hno (hloss _ _ _)
    · exact hno ⟨rfl,hstays⟩
  | ended error =>
    simp only [step] at h
    split_ifs at h with hrunning
    obtain rfl := Option.some.inj h
    simp only [ended,handshake_of_running hoffline hrunning]
    cases error <;> exact hno (hloss _ _ _)
  | branch e =>
    simp only [step] at h
    split_ifs at h with hrunning
    have hphase := handshake_of_running hoffline hrunning
    rcases branch_cases h with ⟨failed,bytes,rest,-,-,rfl⟩ | ⟨failed,-,hstreaming,-⟩ |
      ⟨cols,rows,failed,-,hstreaming,-⟩ | ⟨-,-,rfl⟩ | rfl
    · simp only [input,hphase]
      split_ifs <;> exact hno ⟨rfl,rfl⟩
    · rw [hphase] at hstreaming
      cases hstreaming
    · rw [hphase] at hstreaming
      cases hstreaming
    · exact hno (hloss _ _ _)
    · exact hno ⟨rfl,hstays⟩
  | typed chunk =>
    obtain rfl := Option.some.inj h
    obtain ⟨stdin,isOpen,htyped,-⟩ := r.typed_cases chunk
    rw [htyped]
    exact hno ⟨rfl,hstays⟩
  | aborts error =>
    simp only [step] at h
    split_ifs at h
    obtain rfl := Option.some.inj h
    exact hno ⟨rfl,rfl⟩
  | waitInput =>
    obtain ⟨reason,bytes,rest,-,-,rfl⟩ := waitInput_cases h
    split_ifs
    · exact hno ⟨rfl,rfl⟩
    · exact hno ⟨rfl,hstays⟩
  | retry timer =>
    obtain ⟨reason,-,-,rfl⟩ := retry_cases h
    exact hno ⟨rfl,rfl⟩

/-- From the detection of a loss to the moment the next ready frame has been processed. -/
structure Reconnects (cfg : RemoteConfig) (r : RemoteClient) (es : List ClientEvent)
    (r' : RemoteClient) : Prop where
  lost : r.isLost = true
  run : Transition.exec (step cfg) r es = some r'
  offline : Transition.Meets (step cfg) (fun s _ => s.Offline) r es
  ready : r'.isStreaming = true

/-- A reconnection leads to where it would have led if nothing had been typed. -/
theorem Reconnects.erased {es : List ClientEvent} (h : r.Reconnects cfg es r') :
    Transition.exec (step cfg) r.erased (es.filter fun e => !e.isInput) = some r' := by
  have hready : ∀ s e t, step cfg s e = some t → s.Offline → (s.isStreaming = true → s.erased = s) →
      t.isStreaming = true → t.erased = t := by
    intro s e t hstep hoffline _ hstreaming
    obtain ⟨payload,rfl⟩ := (offline_step hstep hoffline).2 hstreaming
    rcases s.established_cases cfg payload with hreturned | ⟨-,herased⟩
    · rw [not_returned_of_streaming hstreaming] at hreturned
      cases hreturned
    · exact herased
  have hstart : r.isStreaming = true → r.erased = r := fun hstreaming => by
    rw [Offline.not_streaming (.inr h.lost)] at hstreaming
    cases hstreaming
  have hlast : r'.erased = r' :=
    (Transition.always_of_meets (P := fun s => s.isStreaming = true → s.erased = s) hready
      (fun _ hs => hs) h.offline hstart).last h.run h.ready
  rw [← hlast]
  refine Transition.exec_erased (K := Offline) (L := fun s => s.isStreaming = true) ?_ h.run
    h.offline h.ready
  intro s e t hstep hoffline hnext
  have hgoes : t.isReturned = false :=
    hnext.elim (fun hoffline => hoffline.not_returned) not_returned_of_streaming
  cases he : e.isInput with
  | true => exact erased_input hstep he hoffline hgoes
  | false => exact erased_step hstep he hoffline hgoes

/-- Nothing is sent during a reconnection. -/
theorem Reconnects.sent {es : List ClientEvent} (h : r.Reconnects cfg es r') : r'.sent = r.sent := by
  have hstep : ∀ s e t, step cfg s e = some t → s.Offline → s.sent = r.sent → t.sent = r.sent :=
    fun s e t hs hoffline hsent => (offline_step hs hoffline).1.trans hsent
  exact (Transition.always_of_meets (P := fun s => s.sent = r.sent) hstep (fun _ hs => hs) h.offline
    rfl).last h.run

/-- Two clients that differ at most in what they have queued and withheld when they detect a
loss, and in what is typed until the next ready frame, are the same from then on, and have
sent nothing meanwhile. -/
theorem offline_input_discarded {r₁ r₂ r₁' r₂' : RemoteClient} {es₁ es₂ : List ClientEvent}
    (h₁ : r₁.Reconnects cfg es₁ r₁') (h₂ : r₂.Reconnects cfg es₂ r₂')
    (hsame : r₁.erased = r₂.erased)
    (hevents : (es₁.filter fun e => !e.isInput) = es₂.filter fun e => !e.isInput) :
    r₁'.sent = r₁.sent ∧ r₁' = r₂' := by
  have herased := h₁.erased
  rw [hsame,hevents,h₂.erased] at herased
  exact ⟨h₁.sent,(Option.some.inj herased).symm⟩

/-- A client that has lost its stream, with a first press of the hotkey withheld. -/
def lostClient : RemoteClient :=
  { init with
    establishedOnce := true, filter := ⟨[DETACH_KEY],[]⟩, stdin := []
    phase := .lost "remote attach stream closed" }

/-- The letter a is typed in the wait, and an escape sequence begins before readiness. -/
def typingRun : List ClientEvent :=
  [.typed (some [97]),.waitInput,.retry true,.typed (some [ESC]),.branch (.stdin none),
    .typed (some [98]),.frame ⟨S_READY,[0]⟩]

theorem offline_input_discarded_typing : ∃ r₁ r₂,
    lostClient.Reconnects ⟨true,false⟩ typingRun r₁ ∧
      ({ lostClient with filter := .default }).Reconnects ⟨true,false⟩
        [.retry true,.frame ⟨S_READY,[0]⟩] r₂ ∧ r₁.sent = [] ∧ r₁ = r₂ := by
  have h₁ : lostClient.Reconnects ⟨true,false⟩ typingRun _ := ⟨rfl,rfl,by decide,rfl⟩
  have h₂ : ({ lostClient with filter := .default }).Reconnects ⟨true,false⟩
      [.retry true,.frame ⟨S_READY,[0]⟩] _ := ⟨rfl,rfl,by decide,rfl⟩
  exact ⟨_,_,h₁,h₂,offline_input_discarded h₁ h₂ rfl rfl⟩

end RemoteClient
end Babysit
