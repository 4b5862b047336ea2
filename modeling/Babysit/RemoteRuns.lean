import Babysit.RemoteClient

/-! The remote client on its own: each frame, chunk of input, timer and loss as one step, over
any number of connections. What a connection carries is left open. -/
namespace Babysit

/-- `aborts` is an error that `?` passes on: of spawning the bridge, of writing the hello, or
of standard output. -/
inductive ClientEvent
  | frame (f : Frame)
  | ended (error : Option String)
  | branch (e : RemoteEvent)
  | typed (chunk : Option (List UInt8))
  | aborts (error : String)
  | waitInput
  | retry (timer : Bool)

namespace RemoteClient

def isHandshake (r : RemoteClient) : Bool :=
  match r.phase with
  | .handshake => true
  | .streaming | .lost _ | .returned _ => false

def isStreaming (r : RemoteClient) : Bool :=
  match r.phase with
  | .streaming => true
  | .handshake | .lost _ | .returned _ => false

def isLost (r : RemoteClient) : Bool :=
  match r.phase with
  | .lost _ => true
  | .handshake | .streaming | .returned _ => false

def isReturned (r : RemoteClient) : Bool :=
  match r.phase with
  | .returned _ => true
  | .handshake | .streaming | .lost _ => false

theorem isStreaming_iff {r : RemoteClient} : r.isStreaming = true ↔ r.phase = .streaming := by
  unfold isStreaming
  cases r.phase <;> simp

def step (cfg : RemoteConfig) (r : RemoteClient) : ClientEvent → Option RemoteClient
  | .frame f => if r.running then some (r.frame cfg f) else none
  | .ended error => if r.running then some (r.ended cfg error) else none
  | .branch e => if r.running then r.branch cfg e else none
  | .typed chunk => some (r.typed chunk)
  | .aborts error => if r.running then some (r.fail error) else none
  | .waitInput => r.waitInput
  | .retry timer => r.retry timer

/-- The loops that read byte by byte take the client through its steps. -/
theorem step_of_loop {cfg : RemoteConfig} {l l' : SelectLoop RemoteClient}
    {a : LoopEvent RemoteEvent} (h : (remoteAttach cfg).step l a = some l') :
    l'.body = l.body ∨ ∃ e, l.body.step cfg e = some l'.body := by
  rcases (remoteAttach cfg).step_body h with ⟨chunk,hbody,-⟩ |
    ⟨hrunning,⟨hsame | ⟨error,hbody⟩ | ⟨e,hbody⟩,-⟩ | ⟨f,hbody,-⟩⟩
  · exact .inr ⟨.typed chunk,by rw [hbody]; rfl⟩
  · exact .inl hsame
  · exact .inr ⟨.ended error,by rw [hbody]; exact if_pos hrunning⟩
  · exact .inr ⟨.branch e,(if_pos hrunning).trans hbody⟩
  · exact .inr ⟨.frame f,by rw [hbody]; exact if_pos hrunning⟩

end RemoteClient
end Babysit
