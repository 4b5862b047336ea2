import Babysit.ControlConn
import Babysit.Lib.LineChannel
import Babysit.Lib.Transition
import Babysit.Lib.Utf8

/-! Calls over the control socket: `request` and `operate` of a client on one side, `handleConn`
and `dispatch` of the worker on the other. Both lines go through the sockets in pieces of any
size, and either process may fail at any point. -/
namespace Babysit

/-- `Response`, over the JSON values. -/
structure Response (J : Type*) where
  ok : Bool
  error : Option String
  data : J
  deriving DecidableEq, Repr

/-- `serde_json` on the two lines. -/
structure ControlCodec (J : Type*) where
  encodeRequest : Request → List UInt8
  decodeRequest : List UInt8 → Option Request
  encodeResponse : Response J → List UInt8
  decodeResponse : List UInt8 → Option (Response J)
  null : J

/-- A value is written on one line; the line is read back, also with its line end, and no part
of it is a text of its own. -/
structure Faithful {X : Type*} (decode : List UInt8 → Option X) (text : List UInt8) (x : X) :
    Prop where
  oneLine : NEWLINE ∉ text
  read : decode text = some x
  readLine : decode (text ++ [NEWLINE]) = some x
  whole : ∀ part, part <+: text → part ≠ text → decode part = none

theorem Faithful.of_prefix {X : Type*} {decode : List UInt8 → Option X} {text line : List UInt8}
    {x y : X} (h : Faithful decode text x) (hline : line <+: text) (hy : decode line = some y) :
    y = x := by
  by_cases heq : line = text
  · rw [heq,h.read] at hy
    exact (Option.some.inj hy).symm
  · rw [h.whole line hline heq] at hy
    cases hy

variable {J : Type*}

namespace ControlCodec

def ok (_ : ControlCodec J) (data : J) : Response J := ⟨true,none,data⟩

def err (codec : ControlCodec J) (msg : String) : Response J := ⟨false,some msg,codec.null⟩

/-- The line of a response. -/
def responseLine (codec : ControlCodec J) (resp : Response J) : List UInt8 :=
  codec.encodeResponse resp ++ [NEWLINE]

def requestLine (codec : ControlCodec J) (req : Request) : List UInt8 :=
  codec.encodeRequest req ++ [NEWLINE]

end ControlCodec

def Request.isAttach : Request → Bool
  | .attach _ _ _ _ => true
  | _ => false

/-- How the worker came to its response. -/
inductive CallOutcome (J : Type*)
  | rejected (error : String)
  | dispatched (result : Except String J)

def CallOutcome.response (codec : ControlCodec J) : CallOutcome J → Response J
  | .rejected error => codec.err ("invalid request: " ++ error)
  | .dispatched (.ok data) => codec.ok data
  | .dispatched (.error msg) => codec.err msg

inductive ServerStage
  | reading
  | invalid
  | dispatching (req : Request)
  | upgraded
  | answering
  | closed
  deriving DecidableEq, Repr

/-- A call of `request`; `returned none` is an error of its own, without a response. -/
inductive ClientStage (J : Type*)
  | waiting
  | gone
  | returned (resp : Option (Response J))

/-- One connection. The ghosts say whether the request was dispatched, with what outcome, and
whether a process or the transport has failed. -/
structure ControlCall (J : Type*) where
  request : Request
  up : LineChannel UInt8
  server : ServerStage
  down : LineChannel UInt8
  client : ClientStage J
  ran : Bool
  outcome : Option (CallOutcome J)
  broken : Bool

inductive CallEvent (J : Type*)
  | write (n : ℕ)
  | clientFails (dies : Bool)
  | read (n : ℕ)
  | readEnd
  | reject (error : String)
  | answer (result : Except String J)
  | respond (n : ℕ)
  | shutdown
  | serverFails
  | take (n : ℕ)
  | takeEnd

namespace ControlCall

def start (codec : ControlCodec J) (req : Request) : ControlCall J :=
  ⟨req,.sending (codec.requestLine req),.reading,.sending [],.waiting,false,none,false⟩

/-- A call that never gets a connection. -/
def unconnected (req : Request) : ControlCall J :=
  ⟨req,(LineChannel.sending []).close,.closed,(LineChannel.sending []).close,.returned none,
    false,none,true⟩

/-- The worker has its line; an attach leaves the path of the one-shot calls. -/
def parsed (codec : ControlCodec J) (c : ControlCall J) (line : List UInt8) : ControlCall J :=
  match codec.decodeRequest line with
  | none => { c with server := .invalid }
  | some req =>
    if req.isAttach then { c with server := .upgraded }
    else { c with server := .dispatching req, ran := true }

def respond (codec : ControlCodec J) (c : ControlCall J) (outcome : CallOutcome J) :
    ControlCall J :=
  { c with
    server := .answering, outcome := some outcome
    down := { c.down with pending := codec.responseLine (outcome.response codec) } }

def step (codec : ControlCodec J) (c : ControlCall J) : CallEvent J → Option (ControlCall J)
  | .write n =>
    match c.client with
    | .waiting => (c.up.push n).map fun up => { c with up := up }
    | _ => none
  | .clientFails dies =>
    match c.client with
    | .waiting => some { c with
        up := c.up.close, client := if dies then .gone else .returned none, broken := true }
    | _ => none
  | .read n =>
    match c.server,c.up.pull NEWLINE n with
    | .reading,some (up,none) => some { c with up := up }
    | .reading,some (up,some line) => some (parsed codec { c with up := up } line)
    | _,_ => none
  | .readEnd =>
    match c.server,c.up.pullEnd with
    | .reading,some line =>
      if line = [] then some { c with server := .closed, down := c.down.close }
      else some (parsed codec c line)
    | _,_ => none
  | .reject error =>
    match c.server with
    | .invalid => some (respond codec c (.rejected error))
    | _ => none
  | .answer result =>
    match c.server with
    | .dispatching _ => some (respond codec c (.dispatched result))
    | _ => none
  | .respond n =>
    match c.server with
    | .answering => (c.down.push n).map fun down => { c with down := down }
    | _ => none
  | .shutdown =>
    match c.server with
    | .answering =>
      if c.down.pending = [] then some { c with server := .closed, down := c.down.close } else none
    | _ => none
  | .serverFails =>
    match c.server with
    | .closed => none
    | _ => some { c with server := .closed, down := c.down.close, broken := true }
  | .take n =>
    match c.client,c.down.pull NEWLINE n with
    | .waiting,some (down,none) => if c.up.pending = [] then some { c with down := down } else none
    | .waiting,some (down,some line) =>
      if c.up.pending = [] then
        some { c with down := down, client := .returned (codec.decodeResponse line) }
      else none
    | _,_ => none
  | .takeEnd =>
    match c.client,c.down.pullEnd with
    | .waiting,some line =>
      if c.up.pending = [] then
        some { c with client := .returned (codec.decodeResponse line) }
      else none
    | _,_ => none

/-- The request that a step gives to `dispatch`. -/
def dispatchedBy (c c' : ControlCall J) : List Request :=
  match c.server,c'.server with
  | .reading,.dispatching req => [req]
  | _,_ => []

end ControlCall

/-- All calls of a session's clients, and what the worker has dispatched, in order. -/
structure ControlWorld (J : Type*) where
  calls : List (ControlCall J)
  dispatched : List (ℕ × Request)

inductive ControlEvent (J : Type*)
  | call (req : Request)
  | refused (req : Request)
  | on (i : ℕ) (e : CallEvent J)

namespace ControlWorld

def init : ControlWorld J := ⟨[],[]⟩

def step (codec : ControlCodec J) (w : ControlWorld J) : ControlEvent J → Option (ControlWorld J)
  | .call req =>
    if req.isAttach then none else some { w with calls := w.calls ++ [.start codec req] }
  | .refused req => some { w with calls := w.calls ++ [.unconnected req] }
  | .on i e => do
    let c ← w.calls[i]?
    let c' ← c.step codec e
    some ⟨w.calls.set i c',w.dispatched ++ (c.dispatchedBy c').map fun req => (i,req)⟩

end ControlWorld

/-- `operate`; the status is what `dead_worker_error` reads. -/
def operate (action id error : String) (status : Option Status) :
    Option (Response J) → Except String J
  | some resp => if resp.ok then .ok resp.data else .error (resp.error.getD (action ++ " failed"))
  | none => .error (deadWorkerError status)
where
  deadWorkerError : Option Status → String
    | some s => if s.state.isTerminal then
        "cannot " ++ action ++ ": session " ++ id ++
          " has already finished — it no longer accepts input"
      else gone
    | none => gone
  gone : String := "cannot " ++ action ++ ": session " ++ id ++
    " is not running (its worker is gone): " ++ error

/-- `serde_json` reads back what the worker answers. -/
def ControlCodec.Reads (codec : ControlCodec J) (o : CallOutcome J) : Prop :=
  Faithful codec.decodeResponse (codec.encodeResponse (o.response codec)) (o.response codec)

namespace ControlCall

/-- The client has ended without a response. -/
def Failed (c : ControlCall J) : Prop := c.client = .gone ∨ c.client = .returned none

/-- How far the worker is. -/
def Serving (codec : ControlCodec J) (c : ControlCall J) : Prop :=
  match c.server with
  | .reading => c.outcome = none ∧ c.ran = false ∧ c.request.isAttach = false ∧
      Faithful codec.decodeRequest (codec.encodeRequest c.request) c.request
  | .invalid => c.outcome = none ∧ c.ran = false ∧ c.Failed
  | .dispatching req => req = c.request ∧ c.outcome = none ∧ c.ran = true
  | .upgraded => False
  | .answering => c.outcome.isSome = true
  | .closed => c.broken = true ∨ c.outcome.isSome = true

/-- What the client has got. -/
def Got (codec : ControlCodec J) (c : ControlCall J) : Prop :=
  match c.client with
  | .waiting => True
  | .gone | .returned none => c.broken = true
  | .returned (some resp) => ∃ result, c.outcome = some (.dispatched result) ∧
      resp = (CallOutcome.dispatched result).response codec

/-- The way back. -/
def Answering (codec : ControlCodec J) (c : ControlCall J) : Prop :=
  match c.outcome with
  | none => (c.down.line = [] ∧ c.down.inFlight = [] ∧ c.down.pending = []) ∧
      (c.down.closed = true → c.server = .closed)
  | some o => codec.Reads o ∧
      (c.client = .waiting →
        LineChannel.Carries NEWLINE (codec.responseLine (o.response codec)) c.down ∧
        (c.broken = false → LineChannel.Whole (codec.responseLine (o.response codec)) c.down)) ∧
      ((∃ error, o = .rejected error) → c.Failed) ∧
      ((∃ result, o = .dispatched result) → c.ran = true)

/-- The invariant. -/
structure Sound (codec : ControlCodec J) (c : ControlCall J) : Prop where
  up : c.server = .reading → LineChannel.Carries NEWLINE (codec.requestLine c.request) c.up ∧
    (c.client = .waiting → LineChannel.Whole (codec.requestLine c.request) c.up)
  serving : c.Serving codec
  answering : c.Answering codec
  got : c.Got codec

variable {codec : ControlCodec J} {c c' : ControlCall J} {e : CallEvent J} {line : List UInt8}
  {o : CallOutcome J} {up down : LineChannel UInt8}

theorem serving_reading (hserver : c.server = .reading) : c.Serving codec ↔
    c.outcome = none ∧ c.ran = false ∧ c.request.isAttach = false ∧
      Faithful codec.decodeRequest (codec.encodeRequest c.request) c.request := by
  simp only [Serving,hserver]

theorem serving_invalid (hserver : c.server = .invalid) : c.Serving codec ↔
    c.outcome = none ∧ c.ran = false ∧ c.Failed := by
  simp only [Serving,hserver]

theorem serving_dispatching {req : Request} (hserver : c.server = .dispatching req) :
    c.Serving codec ↔ req = c.request ∧ c.outcome = none ∧ c.ran = true := by
  simp only [Serving,hserver]

theorem serving_answering (hserver : c.server = .answering) :
    c.Serving codec ↔ c.outcome.isSome = true := by
  simp only [Serving,hserver]

theorem serving_closed (hserver : c.server = .closed) :
    c.Serving codec ↔ c.broken = true ∨ c.outcome.isSome = true := by
  simp only [Serving,hserver]

theorem answering_none (houtcome : c.outcome = none) : c.Answering codec ↔
    (c.down.line = [] ∧ c.down.inFlight = [] ∧ c.down.pending = []) ∧
      (c.down.closed = true → c.server = .closed) := by
  simp only [Answering,houtcome]

theorem answering_some (houtcome : c.outcome = some o) : c.Answering codec ↔
    codec.Reads o ∧
      (c.client = .waiting →
        LineChannel.Carries NEWLINE (codec.responseLine (o.response codec)) c.down ∧
        (c.broken = false → LineChannel.Whole (codec.responseLine (o.response codec)) c.down)) ∧
      ((∃ error, o = .rejected error) → c.Failed) ∧
      ((∃ result, o = .dispatched result) → c.ran = true) := by
  simp only [Answering,houtcome]

theorem Failed.broken (h : c.Got codec) (hfailed : c.Failed) : c.broken = true := by
  rcases hfailed with hclient | hclient
  · simpa only [Got,hclient] using h
  · simpa only [Got,hclient] using h

theorem not_failed (hclient : c.client = .waiting) : ¬c.Failed := by
  simp [Failed,hclient]

/-- A client that has no response and does not wait has failed. -/
theorem failed_of_outcome_none (h : c.Got codec) (houtcome : c.outcome = none)
    (hclient : c.client ≠ .waiting) : c.Failed := by
  obtain ⟨client,heq⟩ : ∃ client, c.client = client := ⟨_,rfl⟩
  cases client with
  | waiting => exact absurd heq hclient
  | gone => exact .inl heq
  | returned resp =>
    cases resp with
    | none => exact .inr heq
    | some resp =>
      simp only [Got,heq,houtcome] at h
      obtain ⟨result,hresult,-⟩ := h
      cases hresult

/-- What the worker takes for the line is no other request. -/
theorem Sound.parsed (h : Sound codec c) (hserver : c.server = .reading)
    (hline : ∀ req, codec.decodeRequest line = some req → req = c.request)
    (hnone : codec.decodeRequest line = none → c.client ≠ .waiting) :
    Sound codec (ControlCall.parsed codec { c with up := up } line) := by
  obtain ⟨houtcome,hran,hattach,hfaithful⟩ := (serving_reading hserver).mp h.serving
  obtain ⟨hdown,hopen⟩ := (answering_none houtcome).mp h.answering
  have hclosed : c.down.closed = true → False := by
    intro hclosed
    rw [hopen hclosed] at hserver
    cases hserver
  unfold ControlCall.parsed
  split
  next hdecode =>
    refine ⟨by rintro ⟨⟩,⟨houtcome,hran,?_⟩,?_,h.got⟩
    · exact failed_of_outcome_none h.got houtcome (hnone hdecode)
    · exact Iff.mpr (answering_none houtcome) ⟨hdown,fun hc => (hclosed hc).elim⟩
  next req hdecode =>
    obtain rfl := hline req hdecode
    rw [if_neg (by simp [hattach])]
    refine ⟨by rintro ⟨⟩,⟨rfl,houtcome,rfl⟩,?_,h.got⟩
    exact Iff.mpr (answering_none houtcome) ⟨hdown,fun hc => (hclosed hc).elim⟩

/-- The response is ready to be sent. -/
theorem Sound.respond (h : Sound codec c) (houtcome : c.outcome = none)
    (hserver : c.server ≠ .closed) (hreads : codec.Reads o)
    (hrejected : (∃ error, o = .rejected error) → c.Failed)
    (hdispatched : (∃ result, o = .dispatched result) → c.ran = true) :
    Sound codec (respond codec c o) := by
  obtain ⟨⟨hline,hflight,hpending⟩,hopen⟩ := (answering_none houtcome).mp h.answering
  have hbytes : c.down.line ++ (c.down.inFlight ++ codec.responseLine (o.response codec)) =
      codec.responseLine (o.response codec) := by
    rw [hline,hflight]
    rfl
  refine ⟨by rintro ⟨⟩,rfl,?_,?_⟩
  · refine Iff.mpr (answering_some rfl) ⟨hreads,fun _ => ⟨⟨?_,?_,?_⟩,fun _ => hbytes⟩,hrejected,
      hdispatched⟩
    · exact ⟨[],(List.append_nil _).trans hbytes⟩
    · simp [ControlCall.respond,hline]
    · intro hclosed
      exact absurd (hopen hclosed) hserver
  · obtain ⟨client,hclient⟩ : ∃ client, c.client = client := ⟨_,rfl⟩
    have hgot := h.got
    cases client with
    | waiting => simp only [Got,ControlCall.respond,hclient]
    | gone => simpa only [Got,ControlCall.respond,hclient] using hgot
    | returned resp =>
      cases resp with
      | none => simpa only [Got,ControlCall.respond,hclient] using hgot
      | some resp =>
        simp only [Got,hclient,houtcome] at hgot
        obtain ⟨result,hresult,-⟩ := hgot
        cases hresult

/-- A client that fails stops nothing of the worker. -/
theorem Serving.fails (h : c.Serving codec) {client : ClientStage J}
    (hclient : client = .gone ∨ client = .returned none) (up : LineChannel UInt8) :
    Serving codec { c with up := up, client := client, broken := true } := by
  obtain ⟨server,hserver⟩ : ∃ server, c.server = server := ⟨_,rfl⟩
  cases server with
  | reading => exact Iff.mpr (serving_reading hserver) ((serving_reading hserver).mp h)
  | invalid =>
    obtain ⟨houtcome,hran,-⟩ := (serving_invalid hserver).mp h
    exact Iff.mpr (serving_invalid hserver) ⟨houtcome,hran,hclient⟩
  | dispatching => exact Iff.mpr (serving_dispatching hserver) ((serving_dispatching hserver).mp h)
  | upgraded =>
    simp only [Serving,hserver] at h
  | answering => exact Iff.mpr (serving_answering hserver) ((serving_answering hserver).mp h)
  | closed => exact Iff.mpr (serving_closed hserver) (.inl rfl)

/-- What has been answered stays answered when something fails. -/
theorem Answering.fails (h : c.Answering codec) {client : ClientStage J}
    (hclient : client = .gone ∨ client = .returned none) (up : LineChannel UInt8) :
    Answering codec { c with up := up, client := client, broken := true } := by
  obtain ⟨outcome,houtcome⟩ : ∃ outcome, c.outcome = outcome := ⟨_,rfl⟩
  cases outcome with
  | none => exact Iff.mpr (answering_none houtcome) ((answering_none houtcome).mp h)
  | some o =>
    obtain ⟨hreads,-,-,hran⟩ := (answering_some houtcome).mp h
    refine Iff.mpr (answering_some houtcome) ⟨hreads,fun hw => ?_,fun _ => hclient,hran⟩
    exact absurd hclient (not_failed hw)

theorem Answering.closes (h : c.Answering codec) :
    Answering codec { c with server := .closed, down := c.down.close, broken := true } := by
  obtain ⟨outcome,houtcome⟩ : ∃ outcome, c.outcome = outcome := ⟨_,rfl⟩
  cases outcome with
  | none =>
    obtain ⟨⟨hline,hflight,-⟩,-⟩ := (answering_none houtcome).mp h
    exact Iff.mpr (answering_none houtcome) ⟨⟨hline,hflight,rfl⟩,fun _ => rfl⟩
  | some o =>
    obtain ⟨hreads,hdown,hrest⟩ := (answering_some houtcome).mp h
    exact Iff.mpr (answering_some houtcome)
      ⟨hreads,fun hw => ⟨(hdown hw).1.close,by rintro ⟨⟩⟩,hrest⟩

theorem Got.fails (h : c.Got codec) : Got codec { c with broken := true } := by
  unfold Got at h ⊢
  split at h
  all_goals simp_all

/-- There is nothing to read before the response. -/
theorem Sound.outcome_of_pull (h : Sound codec c) {n : ℕ}
    {pulled : LineChannel UInt8 × Option (List UInt8)}
    (hpull : c.down.pull NEWLINE n = some pulled) :
    ∃ o, c.outcome = some o := by
  cases houtcome : c.outcome with
  | some o => exact ⟨o,rfl⟩
  | none =>
    obtain ⟨⟨-,hflight,-⟩,-⟩ := (answering_none houtcome).mp h.answering
    obtain ⟨⟨hpos,hle⟩,-⟩ := Option.ite_none_right_eq_some.mp hpull
    rw [hflight,List.length_nil] at hle
    omega

theorem Serving.answered (h : c.Serving codec) (houtcome : c.outcome = some o) :
    c.server = .answering ∨ c.server = .closed := by
  obtain ⟨server,hserver⟩ : ∃ server, c.server = server := ⟨_,rfl⟩
  cases server with
  | reading => simp [((serving_reading hserver).mp h).1] at houtcome
  | invalid => simp [((serving_invalid hserver).mp h).1] at houtcome
  | dispatching => simp [((serving_dispatching hserver).mp h).2.1] at houtcome
  | upgraded => simp only [Serving,hserver] at h
  | answering => exact .inl hserver
  | closed => exact .inr hserver

/-- A client that waits gets the answer to its own request. -/
theorem Sound.returns (h : Sound codec c) (hclient : c.client = .waiting)
    (houtcome : c.outcome = some o) (down : LineChannel UInt8) :
    Sound codec { c with down := down, client := .returned (some (o.response codec)) } := by
  obtain ⟨hreads,-,hrejected,hran⟩ := (answering_some houtcome).mp h.answering
  have hresult : ∃ result, o = .dispatched result := by
    cases o with
    | rejected error => exact absurd (hrejected ⟨error,rfl⟩) (not_failed hclient)
    | dispatched result => exact ⟨result,rfl⟩
  refine ⟨fun hserver => ?_,?_,?_,?_⟩
  · have hserving := (serving_reading (c := c) hserver).mp h.serving
    simp [hserving.1] at houtcome
  · rcases h.serving.answered houtcome with hserver | hserver
    · exact Iff.mpr (serving_answering hserver) ((serving_answering hserver).mp h.serving)
    · exact Iff.mpr (serving_closed hserver) ((serving_closed hserver).mp h.serving)
  · refine Iff.mpr (answering_some houtcome) ⟨hreads,by rintro ⟨⟩,?_,hran⟩
    rintro ⟨error,rfl⟩
    obtain ⟨result,hresult⟩ := hresult
    cases hresult
  · obtain ⟨result,rfl⟩ := hresult
    exact ⟨result,houtcome,rfl⟩

/-- A client whose connection has failed returns an error. -/
theorem Sound.gives_up (h : Sound codec c) (hbroken : c.broken = true) :
    Sound codec { c with client := .returned none } := by
  have hserving := h.serving.fails (.inr rfl) c.up
  have hanswering := h.answering.fails (.inr rfl) c.up
  rw [← hbroken] at hserving hanswering
  exact ⟨fun hserver => ⟨(h.up hserver).1,by rintro ⟨⟩⟩,hserving,hanswering,hbroken⟩

/-- The stream of a client ends without a line end only where something has failed. -/
theorem Sound.takes_end (hempty : codec.decodeResponse [] = none) (h : Sound codec c)
    (hclient : c.client = .waiting) (hline : c.down.pullEnd = some line) :
    Sound codec { c with client := .returned (codec.decodeResponse line) } := by
  obtain ⟨outcome,houtcome⟩ : ∃ outcome, c.outcome = outcome := ⟨_,rfl⟩
  cases outcome with
  | none =>
    obtain ⟨⟨hdown,-,-⟩,hopen⟩ := (answering_none houtcome).mp h.answering
    obtain ⟨⟨hclosed,-⟩,hline⟩ := Option.ite_none_right_eq_some.mp hline
    obtain rfl := Option.some.inj hline
    rw [hdown,hempty]
    refine h.gives_up (((serving_closed (hopen hclosed)).mp h.serving).resolve_right ?_)
    simp [houtcome]
  | some o =>
    obtain ⟨hreads,hdown,-⟩ := (answering_some houtcome).mp h.answering
    obtain ⟨hpre,hlost⟩ := (hdown hclient).1.pullEnd hline
    have hbroken : c.broken = true := by
      by_contra hnot
      exact hlost ((hdown hclient).2 (Bool.eq_false_of_not_eq_true hnot))
    cases hdecode : codec.decodeResponse line with
    | none => exact h.gives_up hbroken
    | some resp =>
      obtain rfl := hreads.of_prefix hpre hdecode
      exact h.returns hclient houtcome c.down

/-- The condition on an event: `serde_json` reads back what the worker answers. -/
def Readable (codec : ControlCodec J) : CallEvent J → Prop
  | .reject error => codec.Reads (.rejected error)
  | .answer result => codec.Reads (.dispatched result)
  | _ => True

theorem step_sound (hempty : codec.decodeResponse [] = none) (hstep : c.step codec e = some c')
    (hreadable : Readable codec e) (h : Sound codec c) : Sound codec c' := by
  cases e with
  | write n =>
    simp only [step] at hstep
    split at hstep
    next hclient =>
      obtain ⟨up,hpush,rfl⟩ := Option.map_eq_some_iff.mp hstep
      refine ⟨fun hserver => ?_,h.serving,h.answering,h.got⟩
      obtain ⟨hup,hwhole⟩ := h.up hserver
      exact ⟨hup.push hpush,fun hw => (hwhole hw).push hpush⟩
    next => cases hstep
  | clientFails dies =>
    simp only [step] at hstep
    split at hstep
    next hclient =>
      obtain rfl := Option.some.inj hstep
      have hfails : (if dies then .gone else .returned none : ClientStage J) = .gone ∨
          (if dies then .gone else .returned none : ClientStage J) = .returned none := by
        cases dies
        · exact .inr rfl
        · exact .inl rfl
      refine ⟨fun hserver => ⟨(h.up hserver).1.close,?_⟩,h.serving.fails hfails _,
        h.answering.fails hfails _,?_⟩
      · cases dies <;> rintro ⟨⟩
      · cases dies <;> rfl
    next => cases hstep
  | read n =>
    simp only [step] at hstep
    split at hstep
    next up hserver hpull =>
      obtain rfl := Option.some.inj hstep
      obtain ⟨hup,hwhole⟩ := h.up hserver
      obtain ⟨hmore,hkeeps⟩ := hup.pull_more hpull
      exact ⟨fun _ => ⟨hmore,fun hw => hkeeps (hwhole hw)⟩,h.serving,h.answering,h.got⟩
    next up line hserver hpull =>
      obtain rfl := Option.some.inj hstep
      obtain ⟨-,-,-,hfaithful⟩ := (serving_reading hserver).mp h.serving
      obtain rfl := (h.up hserver).1.pull_line hfaithful.oneLine hpull
      refine h.parsed hserver (fun req hreq => ?_) fun hnone => ?_
      · rw [hfaithful.readLine] at hreq
        exact (Option.some.inj hreq).symm
      · rw [hfaithful.readLine] at hnone
        cases hnone
    next => cases hstep
  | readEnd =>
    simp only [step] at hstep
    split at hstep
    next line hserver hline =>
      obtain ⟨houtcome,-,-,hfaithful⟩ := (serving_reading hserver).mp h.serving
      obtain ⟨hup,hwhole⟩ := h.up hserver
      obtain ⟨hpre,hlost⟩ := hup.pullEnd hline
      have hclient : c.client ≠ .waiting := fun hw => hlost (hwhole hw)
      split_ifs at hstep with hnil
      · obtain rfl := Option.some.inj hstep
        have hbroken := Failed.broken h.got (failed_of_outcome_none h.got houtcome hclient)
        obtain ⟨⟨hdown,hflight,-⟩,-⟩ := (answering_none houtcome).mp h.answering
        exact ⟨by rintro ⟨⟩,.inl hbroken,
          Iff.mpr (answering_none houtcome) ⟨⟨hdown,hflight,rfl⟩,fun _ => rfl⟩,h.got⟩
      · obtain rfl := Option.some.inj hstep
        exact h.parsed hserver (fun req => hfaithful.of_prefix hpre) fun _ => hclient
    next => cases hstep
  | reject error =>
    simp only [step] at hstep
    split at hstep
    next hserver =>
      obtain rfl := Option.some.inj hstep
      obtain ⟨houtcome,-,hfailed⟩ := (serving_invalid hserver).mp h.serving
      refine h.respond houtcome (by simp [hserver]) hreadable (fun _ => hfailed) ?_
      rintro ⟨result,⟨⟩⟩
    next => cases hstep
  | answer result =>
    simp only [step] at hstep
    split at hstep
    next req hserver =>
      obtain rfl := Option.some.inj hstep
      obtain ⟨-,houtcome,hran⟩ := (serving_dispatching hserver).mp h.serving
      refine h.respond houtcome (by simp [hserver]) hreadable ?_ fun _ => hran
      rintro ⟨error,⟨⟩⟩
    next => cases hstep
  | respond n =>
    simp only [step] at hstep
    split at hstep
    next hserver =>
      obtain ⟨down,hpush,rfl⟩ := Option.map_eq_some_iff.mp hstep
      obtain ⟨o,houtcome⟩ := Option.isSome_iff_exists.mp ((serving_answering hserver).mp h.serving)
      obtain ⟨hreads,hdown,hrest⟩ := (answering_some houtcome).mp h.answering
      exact ⟨h.up,h.serving,Iff.mpr (answering_some houtcome)
        ⟨hreads,fun hw => ⟨(hdown hw).1.push hpush,fun hb => ((hdown hw).2 hb).push hpush⟩,hrest⟩,
        h.got⟩
    next => cases hstep
  | shutdown =>
    simp only [step] at hstep
    split at hstep
    next hserver =>
      split_ifs at hstep with hpending
      obtain rfl := Option.some.inj hstep
      have hsome := (serving_answering hserver).mp h.serving
      obtain ⟨o,houtcome⟩ := Option.isSome_iff_exists.mp hsome
      obtain ⟨hreads,hdown,hrest⟩ := (answering_some houtcome).mp h.answering
      exact ⟨by rintro ⟨⟩,.inr hsome,Iff.mpr (answering_some houtcome)
        ⟨hreads,fun hw => ⟨(hdown hw).1.close,fun hb => ((hdown hw).2 hb).close hpending⟩,hrest⟩,
        h.got⟩
    next => cases hstep
  | serverFails =>
    simp only [step] at hstep
    split at hstep
    next => cases hstep
    next hserver =>
      obtain rfl := Option.some.inj hstep
      exact ⟨by rintro ⟨⟩,.inl rfl,h.answering.closes,Got.fails h.got⟩
  | take n =>
    simp only [step] at hstep
    split at hstep
    next down hclient hpull =>
      split_ifs at hstep
      obtain rfl := Option.some.inj hstep
      refine ⟨h.up,h.serving,?_,h.got⟩
      obtain ⟨o,houtcome⟩ := h.outcome_of_pull hpull
      obtain ⟨hreads,hdown,hrest⟩ := (answering_some houtcome).mp h.answering
      obtain ⟨hmore,hkeeps⟩ := (hdown hclient).1.pull_more hpull
      exact Iff.mpr (answering_some houtcome)
        ⟨hreads,fun hw => ⟨hmore,fun hb => hkeeps ((hdown hw).2 hb)⟩,hrest⟩
    next down line hclient hpull =>
      split_ifs at hstep
      obtain rfl := Option.some.inj hstep
      obtain ⟨o,houtcome⟩ := h.outcome_of_pull hpull
      obtain ⟨hreads,hdown,-⟩ := (answering_some houtcome).mp h.answering
      obtain rfl := (hdown hclient).1.pull_line hreads.oneLine hpull
      rw [hreads.readLine]
      exact h.returns hclient houtcome down
    next => cases hstep
  | takeEnd =>
    simp only [step] at hstep
    split at hstep
    next line hclient hline =>
      split_ifs at hstep
      obtain rfl := Option.some.inj hstep
      exact h.takes_end hempty hclient hline
    next => cases hstep

/-- What the worker has dispatched of a call. -/
def dispatches (c : ControlCall J) : List Request := if c.ran then [c.request] else []

theorem dispatchedBy_of_same (hserver : c'.server = c.server) : c.dispatchedBy c' = [] := by
  unfold dispatchedBy
  rw [hserver]
  cases c.server <;> rfl

theorem dispatchedBy_of_ne (hserver : ∀ req, c'.server ≠ .dispatching req) :
    c.dispatchedBy c' = [] := by
  unfold dispatchedBy
  split
  next req _ hdispatching => exact absurd hdispatching (hserver req)
  next => rfl

theorem parsed_dispatches (up : LineChannel UInt8) (hserver : c.server = .reading)
    (hran : c.ran = false)
    (hline : ∀ req, codec.decodeRequest line = some req → req = c.request) :
    (parsed codec { c with up := up } line).dispatches =
      c.dispatches ++ c.dispatchedBy (parsed codec { c with up := up } line) := by
  unfold parsed
  split
  next =>
    rw [dispatchedBy_of_ne (by rintro req ⟨⟩),List.append_nil]
    rfl
  next req hdecode =>
    split_ifs
    · rw [dispatchedBy_of_ne (by rintro req ⟨⟩),List.append_nil]
      rfl
    · simp [dispatches,dispatchedBy,hserver,hran,hline req hdecode]

/-- The log of dispatches follows every step. -/
theorem step_dispatches (hstep : c.step codec e = some c') (h : Sound codec c) :
    c'.dispatches = c.dispatches ++ c.dispatchedBy c' := by
  have same : c'.server = c.server → c'.dispatches = c.dispatches →
      c'.dispatches = c.dispatches ++ c.dispatchedBy c' := by
    intro hserver hsame
    rw [dispatchedBy_of_same hserver,List.append_nil,hsame]
  have other : (∀ req, c'.server ≠ .dispatching req) → c'.dispatches = c.dispatches →
      c'.dispatches = c.dispatches ++ c.dispatchedBy c' := by
    intro hserver hsame
    rw [dispatchedBy_of_ne hserver,List.append_nil,hsame]
  cases e with
  | write n =>
    simp only [step] at hstep
    split at hstep
    next =>
      obtain ⟨up,-,rfl⟩ := Option.map_eq_some_iff.mp hstep
      exact same rfl rfl
    next => cases hstep
  | clientFails dies =>
    simp only [step] at hstep
    split at hstep
    next =>
      obtain rfl := Option.some.inj hstep
      exact same rfl rfl
    next => cases hstep
  | read n =>
    simp only [step] at hstep
    split at hstep
    next =>
      obtain rfl := Option.some.inj hstep
      exact same rfl rfl
    next up line hserver hpull =>
      obtain rfl := Option.some.inj hstep
      obtain ⟨-,hran,-,hfaithful⟩ := (serving_reading hserver).mp h.serving
      obtain rfl := (h.up hserver).1.pull_line hfaithful.oneLine hpull
      refine parsed_dispatches _ hserver hran fun req hreq => ?_
      rw [hfaithful.readLine] at hreq
      exact (Option.some.inj hreq).symm
    next => cases hstep
  | readEnd =>
    simp only [step] at hstep
    split at hstep
    next line hserver hline =>
      split_ifs at hstep
      · obtain rfl := Option.some.inj hstep
        exact other (by rintro req ⟨⟩) rfl
      · obtain rfl := Option.some.inj hstep
        obtain ⟨-,hran,-,hfaithful⟩ := (serving_reading hserver).mp h.serving
        obtain ⟨hpre,-⟩ := (h.up hserver).1.pullEnd hline
        exact parsed_dispatches c.up hserver hran fun req => hfaithful.of_prefix hpre
    next => cases hstep
  | reject error =>
    simp only [step] at hstep
    split at hstep
    next =>
      obtain rfl := Option.some.inj hstep
      exact other (by rintro req ⟨⟩) rfl
    next => cases hstep
  | answer result =>
    simp only [step] at hstep
    split at hstep
    next =>
      obtain rfl := Option.some.inj hstep
      exact other (by rintro req ⟨⟩) rfl
    next => cases hstep
  | respond n =>
    simp only [step] at hstep
    split at hstep
    next =>
      obtain ⟨down,-,rfl⟩ := Option.map_eq_some_iff.mp hstep
      exact same rfl rfl
    next => cases hstep
  | shutdown =>
    simp only [step] at hstep
    split at hstep
    next =>
      split_ifs at hstep
      obtain rfl := Option.some.inj hstep
      exact other (by rintro req ⟨⟩) rfl
    next => cases hstep
  | serverFails =>
    simp only [step] at hstep
    split at hstep
    next => cases hstep
    next =>
      obtain rfl := Option.some.inj hstep
      exact other (by rintro req ⟨⟩) rfl
  | take n =>
    simp only [step] at hstep
    split at hstep
    next =>
      split_ifs at hstep
      obtain rfl := Option.some.inj hstep
      exact same rfl rfl
    next =>
      split_ifs at hstep
      obtain rfl := Option.some.inj hstep
      exact same rfl rfl
    next => cases hstep
  | takeEnd =>
    simp only [step] at hstep
    split at hstep
    next =>
      split_ifs at hstep
      obtain rfl := Option.some.inj hstep
      exact same rfl rfl
    next => cases hstep

theorem start_sound {req : Request} (hattach : req.isAttach = false)
    (hfaithful : Faithful codec.decodeRequest (codec.encodeRequest req) req) :
    Sound codec (start codec req) :=
  ⟨fun _ => ⟨LineChannel.sending_carries _ _,fun _ => LineChannel.sending_whole _⟩,
    ⟨rfl,rfl,hattach,hfaithful⟩,⟨⟨rfl,rfl,rfl⟩,by rintro ⟨⟩⟩,trivial⟩

theorem unconnected_sound (codec : ControlCodec J) (req : Request) :
    Sound codec (unconnected req) :=
  ⟨by rintro ⟨⟩,.inl rfl,⟨⟨rfl,rfl,rfl⟩,fun _ => rfl⟩,rfl⟩

end ControlCall

namespace ControlWorld
open ControlCall

/-- `serde_json` reads back what is sent in either direction. -/
def Readable (codec : ControlCodec J) : ControlEvent J → Prop
  | .call req => Faithful codec.decodeRequest (codec.encodeRequest req) req
  | .refused _ => True
  | .on _ e => ControlCall.Readable codec e

/-- The invariant. -/
structure Sound (codec : ControlCodec J) (w : ControlWorld J) : Prop where
  calls : ∀ c ∈ w.calls, c.Sound codec
  dispatched : ∀ (i : ℕ) c, w.calls[i]? = some c →
    w.dispatched.filter (fun d => d.1 = i) = c.dispatches.map fun req => (i,req)
  known : ∀ d ∈ w.dispatched, d.1 < w.calls.length

variable {codec : ControlCodec J} {w w' : ControlWorld J} {e : ControlEvent J}

/-- A call is added; nothing of it has been dispatched. -/
theorem Sound.add (h : Sound codec w) {c : ControlCall J} (hc : c.Sound codec)
    (hran : c.ran = false) : Sound codec { w with calls := w.calls ++ [c] } := by
  refine ⟨?_,?_,?_⟩
  · intro d hd
    rcases List.mem_append.mp hd with hd | hd
    · exact h.calls d hd
    · obtain rfl := List.mem_singleton.mp hd
      exact hc
  · intro i d hd
    rw [List.getElem?_append] at hd
    split_ifs at hd with hi
    · exact h.dispatched i d hd
    · obtain rfl := List.mem_singleton.mp (List.mem_of_getElem? hd)
      rw [dispatches,hran,if_neg Bool.false_ne_true,List.map_nil,List.filter_eq_nil_iff]
      intro x hx
      have := h.known x hx
      simp only [decide_eq_true_eq]
      omega
  · intro d hd
    have := h.known d hd
    rw [List.length_append]
    omega

theorem step_sound (hempty : codec.decodeResponse [] = none) (hstep : w.step codec e = some w')
    (hreadable : Readable codec e) (h : Sound codec w) : Sound codec w' := by
  cases e with
  | call req =>
    simp only [step] at hstep
    split_ifs at hstep with hattach
    obtain rfl := Option.some.inj hstep
    exact h.add (start_sound (Bool.eq_false_of_not_eq_true hattach) hreadable) rfl
  | refused req =>
    obtain rfl := Option.some.inj hstep
    exact h.add (unconnected_sound codec req) rfl
  | on i e =>
    simp only [step,Option.bind_eq_bind,Option.bind_eq_some_iff] at hstep
    obtain ⟨c,hc,c',hc',hstep⟩ := hstep
    obtain rfl := Option.some.inj hstep
    have hsound := h.calls c (List.mem_of_getElem? hc)
    refine ⟨?_,?_,?_⟩
    · intro d hd
      rcases List.mem_or_eq_of_mem_set hd with hd | rfl
      · exact h.calls d hd
      · exact ControlCall.step_sound hempty hc' hreadable hsound
    · intro j d hd
      rw [List.getElem?_set] at hd
      dsimp only
      rw [List.filter_append]
      split_ifs at hd with hij
      · obtain rfl := Option.some.inj hd
        subst hij
        rw [h.dispatched i c hc,step_dispatches hc' hsound,List.map_append]
        simp
      · rw [h.dispatched j d hd]
        simp [hij]
    · intro d hd
      rw [List.length_set]
      rcases List.mem_append.mp hd with hd | hd
      · exact h.known d hd
      · obtain ⟨req,-,rfl⟩ := List.mem_map.mp hd
        exact (List.getElem?_eq_some_iff.mp hc).1

theorem init_sound (codec : ControlCodec J) : Sound codec init :=
  ⟨by simp [init],by simp [init],by simp [init]⟩

/-- In any run of the connections, cut and broken off wherever, the worker dispatches no request
but the one of the call, and that at most once. A call that returns a response has been
dispatched and returns what came of it; an error means that something has failed. -/
theorem calls_exact (codec : ControlCodec J) (es : List (ControlEvent J)) (w : ControlWorld J)
    (hempty : codec.decodeResponse [] = none) (hreadable : ∀ e ∈ es, Readable codec e)
    (hrun : Transition.exec (step codec) init es = some w) :
    ∀ (i : ℕ) c, w.calls[i]? = some c →
      w.dispatched.filter (fun d => d.1 = i) = (if c.ran then [(i,c.request)] else []) ∧
      (c.client = .returned none → c.broken = true) ∧
      (∀ resp, c.client = .returned (some resp) → c.ran = true ∧
        ∃ result, c.outcome = some (.dispatched result) ∧
          resp = (CallOutcome.dispatched result).response codec) ∧
      ∀ resp action id error status data, c.client = .returned resp →
        operate action id error status resp = .ok data →
        c.ran = true ∧ c.outcome = some (.dispatched (.ok data)) := by
  intro i c hc
  have hmeets : Transition.Meets (step codec) (fun _ => Readable codec) init es :=
    Transition.meets_of_forall hreadable init
  have h : Sound codec w := (Transition.always_of_meets (I := Sound codec) (P := Sound codec)
    (fun _ _ _ hstep => step_sound hempty hstep) (fun _ h => h) hmeets (init_sound codec)).last hrun
  have hsound := h.calls c (List.mem_of_getElem? hc)
  have hgot : ∀ resp, c.client = .returned (some resp) → c.ran = true ∧
      ∃ result, c.outcome = some (.dispatched result) ∧
        resp = (CallOutcome.dispatched result).response codec := by
    intro resp hclient
    have hresp := hsound.got
    simp only [Got,hclient] at hresp
    obtain ⟨result,houtcome,hresp⟩ := hresp
    obtain ⟨-,-,-,hran⟩ := (answering_some houtcome).mp hsound.answering
    exact ⟨hran ⟨result,rfl⟩,result,houtcome,hresp⟩
  refine ⟨?_,fun hclient => Failed.broken hsound.got (.inr hclient),hgot,?_⟩
  · rw [h.dispatched i c hc,dispatches]
    split_ifs <;> rfl
  · intro resp action id error status data hclient hdata
    cases resp with
    | none => cases hdata
    | some resp =>
      obtain ⟨hran,result,houtcome,rfl⟩ := hgot resp hclient
      refine ⟨hran,houtcome.trans ?_⟩
      cases result with
      | error msg => cases hdata
      | ok data' =>
        cases hdata
        rfl

/-- A text that is read alone and with its line end. -/
def oneLineDecode {X : Type*} (text : List UInt8) (x : X) (line : List UInt8) : Option X :=
  if line = text ∨ line = text ++ [NEWLINE] then some x else none

theorem oneLineDecode_faithful {X : Type*} {text : List UInt8} (x : X) (hline : NEWLINE ∉ text) :
    Faithful (oneLineDecode text x) text x := by
  refine ⟨hline,by simp [oneLineDecode],by simp [oneLineDecode],fun part hpart hne => ?_⟩
  refine if_neg ?_
  rintro (heq | heq)
  · exact hne heq
  · have := hpart.length_le
    rw [heq,List.length_append,List.length_singleton] at this
    omega

/-- The data of a restart. -/
inductive RestartData
  | null
  | queued
  deriving DecidableEq

def restartText : List UInt8 := Utf8.encode "\x7b\"op\":\"restart\"\x7d".toList

def queuedText : List UInt8 :=
  Utf8.encode "\x7b\"ok\":true,\"data\":\x7b\"restart\":\"queued\"\x7d\x7d".toList

def restartCodec : ControlCodec RestartData where
  encodeRequest _ := restartText
  decodeRequest := oneLineDecode restartText .restart
  encodeResponse _ := queuedText
  decodeResponse := oneLineDecode queuedText ⟨true,none,.queued⟩
  null := .null

/-- A restart that is answered, and one whose client dies behind the first bytes of its line. -/
def restartEvents : List (ControlEvent RestartData) :=
  [.call .restart,.call .restart,.on 0 (.write 10),.on 1 (.write 10),.on 0 (.read 10),
    .on 1 (.clientFails true),.on 1 (.read 10),.on 0 (.write 7),.on 0 (.read 7),
    .on 0 (.answer (.ok .queued)),.on 0 (.respond 40),.on 0 (.take 30),.on 1 .readEnd,
    .on 0 (.take 10)]

theorem calls_exact_restart : ∃ w,
    Transition.exec (step restartCodec) init restartEvents = some w ∧
      w.dispatched = [(0,.restart)] ∧
      ∃ c, w.calls[0]? = some c ∧
        w.dispatched.filter (fun d => d.1 = 0) = (if c.ran then [(0,c.request)] else []) := by
  have hsome : (Transition.exec (step restartCodec) init restartEvents).isSome = true := by
    decide +kernel
  obtain ⟨w,hrun⟩ := Option.isSome_iff_exists.mp hsome
  have hend : (Transition.exec (step restartCodec) init restartEvents).map
      (fun w => (w.dispatched,w.calls[0]?.isSome)) = some ([(0,.restart)],true) := by
    decide +kernel
  rw [hrun,Option.map_some,Option.some.injEq,Prod.mk.injEq] at hend
  obtain ⟨c,hc⟩ := Option.isSome_iff_exists.mp hend.2
  have hreadable : ∀ e ∈ restartEvents, Readable restartCodec e := by
    intro e he
    simp only [restartEvents,List.mem_cons,List.not_mem_nil,or_false] at he
    rcases he with rfl | rfl | rfl | rfl | rfl | rfl | rfl | rfl | rfl | rfl | rfl | rfl | rfl | rfl
    all_goals first
      | exact oneLineDecode_faithful _ (by decide +kernel)
      | trivial
  have h := calls_exact restartCodec restartEvents w (by decide +kernel) hreadable hrun 0 c hc
  exact ⟨w,hrun,hend.1,c,hc,h.1⟩

end ControlWorld
end Babysit
