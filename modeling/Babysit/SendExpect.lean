import Babysit.InputWrites
import Babysit.StreamOffsets

/-! `send --json` followed by `expect --since`: the offset that `send` returns is the length of
the log before the input is given to the command. What the command writes after it lies at or
above that offset, so a scan from there does not miss it, however long the output stays in the
kernel and in the hands of the readers. -/
namespace Babysit
open AppendLog

/-- An output stream of the command. Ghost: each byte has the number of inputs that the command
had been given when it wrote the byte. -/
structure DatedStream where
  buffer : List (ℕ × UInt8)
  hand : List (ℕ × UInt8)
  deriving DecidableEq

inductive SendStage
  | accepted
  | measured
  | given
  | replied
  deriving DecidableEq, Repr

/-- A Send request. Ghost: `number` counts the inputs before its own. -/
structure SendCall where
  input : Input
  stage : SendStage
  offset : ℕ
  number : ℕ
  deriving DecidableEq, Repr

/-- The input of the request has been given to the command. -/
def SendCall.isGiven (c : SendCall) : Bool := c.stage = .given ∨ c.stage = .replied

/-- A call of `expect` with the offset that a Send request has returned. -/
structure ExpectCall where
  send : ℕ
  cfg : ExpectConfig
  world : ExpectWorld

/-- Ghost: `dates` has the dates of the bytes in the log. -/
structure SendWorld where
  file : LogFile
  dates : List ℕ
  streams : List DatedStream
  writer : Option ℕ
  logging : Bool
  inputs : ℕ
  sends : List SendCall
  expects : List ExpectCall

inductive SendEvent
  | spawn (tty : Bool)
  | status (terminal : Bool)
  | writes (i : ℕ) (data : List UInt8)
  | reads (i n : ℕ)
  | locks (i : ℕ)
  | logs (i n : ℕ)
  | logFails (i : ℕ)
  | unlocks (i : ℕ)
  | send (input : Input)
  | measures (i : ℕ) (readable : Bool)
  | gives (i : ℕ)
  | replies (i : ℕ)
  | otherInput
  | expect (i : ℕ) (cfg : ExpectConfig)
  | polls (j : ℕ) (passed : Bool)

namespace SendWorld

/-- The log of an earlier run may be there. -/
def start (log : Option (List UInt8)) : SendWorld :=
  ⟨⟨log,false⟩,List.replicate (log.getD []).length 0,[],none,true,0,[],[]⟩

def setStream (w : SendWorld) (i : ℕ) (s : DatedStream) : SendWorld :=
  { w with streams := w.streams.set i s }

def setSend (w : SendWorld) (i : ℕ) (c : SendCall) : SendWorld :=
  { w with sends := w.sends.set i c }

/-- A reader in `broadcast` appends to the log, piece by piece, under the hub's lock. -/
def step (w : SendWorld) : SendEvent → Option SendWorld
  | .spawn tty => some { w with
      file := { w.file with bytes := some (w.file.bytes.getD []) }
      streams := w.streams ++ List.replicate (if tty then 1 else 2) ⟨[],[]⟩ }
  | .status terminal => some { w with file := w.file.after (.status terminal) }
  | .writes i data => do
    let s ← w.streams[i]?
    some (w.setStream i { s with buffer := s.buffer ++ Labelled.label w.inputs data })
  | .reads i n => do
    let s ← w.streams[i]?
    if s.hand = [] ∧ n ≤ READER_BUFFER then
      some (w.setStream i ⟨s.buffer.drop n,s.buffer.take n⟩)
    else none
  | .locks i => do
    let s ← w.streams[i]?
    if w.writer = none ∧ s.hand ≠ [] then some { w with writer := some i } else none
  | .logs i n => do
    let s ← w.streams[i]?
    if w.writer = some i ∧ w.logging ∧ 0 < n then
      some ({ w with
        file := w.file.after (.grow ((s.hand.take n).map Prod.snd))
        dates := w.dates ++ (s.hand.take n).map Prod.fst }.setStream i
          { s with hand := s.hand.drop n })
    else none
  | .logFails i => if w.writer = some i then some { w with logging := false } else none
  | .unlocks i => do
    let s ← w.streams[i]?
    -- a chunk that the log does not take is dropped
    if w.writer = some i ∧ (s.hand = [] ∨ ¬w.logging) then
      some ({ w with writer := none }.setStream i { s with hand := [] })
    else none
  | .send input => some { w with sends := w.sends ++ [⟨input,.accepted,0,0⟩] }
  | .measures i readable => do
    let c ← w.sends[i]?
    if c.stage = .accepted then
      some (w.setSend i { c with
        stage := .measured, offset := if readable then w.file.length else 0 })
    else none
  | .gives i => do
    let c ← w.sends[i]?
    if c.stage = .measured then
      some ({ w with inputs := w.inputs+1 }.setSend i { c with stage := .given, number := w.inputs })
    else none
  | .replies i => do
    let c ← w.sends[i]?
    if c.stage = .given then
      some ({ w with inputs := if c.input.newline then w.inputs+1 else w.inputs }.setSend i
        { c with stage := .replied })
    else none
  -- attached clients type as well
  | .otherInput => some { w with inputs := w.inputs+1 }
  | .expect i cfg => do
    let c ← w.sends[i]?
    if c.stage = .replied ∧ cfg.since = some c.offset then
      some { w with expects := w.expects ++ [⟨i,cfg,ExpectWorld.start cfg w.file⟩] }
    else none
  | .polls j passed => do
    let x ← w.expects[j]?
    let world ← { x.world with file := w.file }.step x.cfg (.poll passed)
    some { w with expects := w.expects.set j { x with world := world } }

def log (w : SendWorld) : List UInt8 := w.file.bytes.getD []

variable {w w' : SendWorld} {e : SendEvent}

/-- What a step can do. -/
inductive Move (w : SendWorld) : SendEvent → SendWorld → Prop
  | spawn {tty} : Move w (.spawn tty) { w with
      file := { w.file with bytes := some (w.file.bytes.getD []) }
      streams := w.streams ++ List.replicate (if tty then 1 else 2) ⟨[],[]⟩ }
  | status {terminal} : Move w (.status terminal) { w with file := w.file.after (.status terminal) }
  | writes {i data s} : w.streams[i]? = some s → Move w (.writes i data)
      (w.setStream i { s with buffer := s.buffer ++ Labelled.label w.inputs data })
  | reads {i n s} : w.streams[i]? = some s → Move w (.reads i n)
      (w.setStream i ⟨s.buffer.drop n,s.buffer.take n⟩)
  | locks {i} : Move w (.locks i) { w with writer := some i }
  | logs {i n s} : w.streams[i]? = some s → Move w (.logs i n)
      ({ w with
        file := w.file.after (.grow ((s.hand.take n).map Prod.snd))
        dates := w.dates ++ (s.hand.take n).map Prod.fst }.setStream i
          { s with hand := s.hand.drop n })
  | logFails {i} : Move w (.logFails i) { w with logging := false }
  | unlocks {i s} : w.streams[i]? = some s → Move w (.unlocks i)
      ({ w with writer := none }.setStream i { s with hand := [] })
  | send {input} : Move w (.send input) { w with sends := w.sends ++ [⟨input,.accepted,0,0⟩] }
  | measures {i readable c} : w.sends[i]? = some c → c.stage = .accepted →
      Move w (.measures i readable) (w.setSend i { c with
        stage := .measured, offset := if readable then w.file.length else 0 })
  | gives {i c} : w.sends[i]? = some c → c.stage = .measured → Move w (.gives i)
      ({ w with inputs := w.inputs+1 }.setSend i { c with stage := .given, number := w.inputs })
  | replies {i c} : w.sends[i]? = some c → c.stage = .given → Move w (.replies i)
      ({ w with inputs := if c.input.newline then w.inputs+1 else w.inputs }.setSend i
        { c with stage := .replied })
  | otherInput : Move w .otherInput { w with inputs := w.inputs+1 }
  | expect {i cfg c} : w.sends[i]? = some c → c.stage = .replied → cfg.since = some c.offset →
      Move w (.expect i cfg)
        { w with expects := w.expects ++ [⟨i,cfg,ExpectWorld.start cfg w.file⟩] }
  | polls {j passed x world} : w.expects[j]? = some x →
      ExpectWorld.step x.cfg { x.world with file := w.file } (.poll passed) = some world →
      Move w (.polls j passed) { w with expects := w.expects.set j { x with world := world } }

theorem step_move (h : w.step e = some w') : w.Move e w' := by
  cases e with
  | spawn tty =>
    obtain rfl := Option.some.inj h
    exact .spawn
  | status terminal =>
    obtain rfl := Option.some.inj h
    exact .status
  | otherInput =>
    obtain rfl := Option.some.inj h
    exact .otherInput
  | send input =>
    obtain rfl := Option.some.inj h
    exact .send
  | writes i data =>
    simp only [step,Option.bind_eq_bind,Option.bind_eq_some_iff] at h
    obtain ⟨s,hs,h⟩ := h
    obtain rfl := Option.some.inj h
    exact .writes hs
  | reads i n =>
    simp only [step,Option.bind_eq_bind,Option.bind_eq_some_iff] at h
    obtain ⟨s,hs,h⟩ := h
    split_ifs at h
    obtain rfl := Option.some.inj h
    exact .reads hs
  | locks i =>
    simp only [step,Option.bind_eq_bind,Option.bind_eq_some_iff] at h
    obtain ⟨s,-,h⟩ := h
    split_ifs at h
    obtain rfl := Option.some.inj h
    exact .locks
  | logs i n =>
    simp only [step,Option.bind_eq_bind,Option.bind_eq_some_iff] at h
    obtain ⟨s,hs,h⟩ := h
    split_ifs at h
    obtain rfl := Option.some.inj h
    exact .logs hs
  | logFails i =>
    simp only [step] at h
    split_ifs at h
    obtain rfl := Option.some.inj h
    exact .logFails
  | unlocks i =>
    simp only [step,Option.bind_eq_bind,Option.bind_eq_some_iff] at h
    obtain ⟨s,hs,h⟩ := h
    split_ifs at h
    obtain rfl := Option.some.inj h
    exact .unlocks hs
  | measures i readable =>
    simp only [step,Option.bind_eq_bind,Option.bind_eq_some_iff] at h
    obtain ⟨c,hc,h⟩ := h
    obtain ⟨hstage,h⟩ := Option.ite_none_right_eq_some.mp h
    obtain rfl := Option.some.inj h
    exact .measures hc hstage
  | gives i =>
    simp only [step,Option.bind_eq_bind,Option.bind_eq_some_iff] at h
    obtain ⟨c,hc,h⟩ := h
    split_ifs at h with hstage
    obtain rfl := Option.some.inj h
    exact .gives hc hstage
  | replies i =>
    simp only [step,Option.bind_eq_bind,Option.bind_eq_some_iff] at h
    obtain ⟨c,hc,h⟩ := h
    obtain ⟨hstage,h⟩ := Option.ite_none_right_eq_some.mp h
    obtain rfl := Option.some.inj h
    exact .replies hc hstage
  | expect i cfg =>
    simp only [step,Option.bind_eq_bind,Option.bind_eq_some_iff] at h
    obtain ⟨c,hc,h⟩ := h
    split_ifs at h with hcond
    obtain rfl := Option.some.inj h
    exact .expect hc hcond.1 hcond.2
  | polls j passed =>
    simp only [step,Option.bind_eq_bind,Option.bind_eq_some_iff] at h
    obtain ⟨x,hx,world,hworld,h⟩ := h
    obtain rfl := Option.some.inj h
    exact .polls hx hworld


/-- A call of `expect` from an offset that the log has. -/
structure Scan (file : LogFile) (x : ExpectCall) (first : ℕ) : Prop where
  forwarding : ExpectWorld.Forwarding x.cfg first { x.world with file := file }
  follows : ∃ stop, Follows (file.bytes.getD []) first
      (x.world.reads.map fun r => (r.offset,r.bytes)) stop ∧
    ((∀ code, x.world.loop.phase ≠ .returned code) → stop = x.world.off)

/-- The offset of a request. What the log had before is older than the input. -/
structure Placed (dates : List ℕ) (c : SendCall) : Prop where
  within : c.stage ≠ .accepted → c.offset ≤ dates.length
  older : c.isGiven = true → ∀ d ∈ dates.take c.offset, d ≤ c.number

/-- The invariant. -/
structure Sound (w : SendWorld) : Prop where
  dated : w.dates.length = w.log.length
  dates : ∀ d ∈ w.dates, d ≤ w.inputs
  streams : ∀ s ∈ w.streams, ∀ b ∈ s.buffer ++ s.hand, b.1 ≤ w.inputs
  sends : ∀ c ∈ w.sends, Placed w.dates c
  expects : ∀ x ∈ w.expects, ∃ c, w.sends[x.send]? = some c ∧ c.stage = .replied ∧
    Scan w.file x c.offset

section Scan
variable {file : LogFile} {x : ExpectCall} {first off : ℕ} {strip : List UInt8 → List UInt8}
  {raw : Bool}

theorem Scan.after (h : Scan file x first) (d : LogFileEvent) : Scan (file.after d) x first := by
  obtain ⟨stop,hfollows,hoff⟩ := h.follows
  obtain ⟨off,hresumes,hlast⟩ := h.forwarding.resumes
  refine ⟨⟨⟨off,hresumes.after d,hlast⟩,h.forwarding.buf⟩,stop,?_,hoff⟩
  cases d with
  | grow data => exact hfollows.grow data
  | status terminal => exact hfollows

/-- A read within the log takes what stands there. -/
theorem slice_follows (strip : List UInt8 → List UInt8) (raw : Bool) (hoff : off ≤ file.length) :
    HoldsAt (file.bytes.getD []) off (file.slice strip off raw).bytes ∧
      (file.slice strip off raw).next = off + (file.slice strip off raw).bytes.length := by
  refine ⟨(LogFile.slice_text strip file off raw).1,?_⟩
  cases hbytes : file.bytes with
  | none => simp [LogFile.slice_absent hbytes]
  | some log =>
    have hlength : file.length = log.length := by simp [LogFile.length,hbytes]
    rw [hlength] at hoff
    rcases Nat.lt_or_ge off log.length with hwithin | hbeyond
    · obtain ⟨hslice,hend⟩ := LogFile.slice_within strip raw hbytes hwithin
      rw [hslice]
      simp only [List.length_take,List.length_drop]
      omega
    · rw [LogFile.slice_beyond hbytes hbeyond]
      exact Nat.le_antisymm hbeyond hoff

/-- The next read follows the ones before. -/
theorem follows_read {reads : List SliceRead} {stop : ℕ} (hfirst : first ≤ file.length)
    (h : Follows (file.bytes.getD []) first (reads.map fun r => (r.offset,r.bytes)) stop)
    (strip : List UInt8 → List UInt8) (raw : Bool) :
    Follows (file.bytes.getD []) first
      ((reads ++ [file.slice strip stop raw]).map fun r => (r.offset,r.bytes))
      (file.slice strip stop raw).next := by
  obtain ⟨hholds,hnext⟩ := slice_follows strip raw (h.bounds hfirst).2
  rw [List.map_append,hnext]
  exact h.snoc hholds

theorem with_file {world : ExpectWorld} (h : world.file = file) :
    { world with file := file } = world := by
  subst h
  rfl

theorem Scan.poll (h : Scan file x first) (hfirst : first ≤ file.length) {passed : Bool}
    {world : ExpectWorld}
    (hstep : ExpectWorld.step x.cfg { x.world with file := file } (.poll passed) = some world) :
    Scan file { x with world := world } first := by
  have hlong : ¬file.Short first := by
    rintro ⟨log,hlog,hlt⟩
    rw [Option.mem_def] at hlog
    rw [LogFile.length,hlog,Option.getD_some] at hfirst
    exact Nat.not_lt.mpr hfirst hlt
  have hforwarding := ExpectWorld.forwarding_step _ _ _ hstep (fun _ => hlong) h.forwarding
  obtain ⟨stop,hfollows,hoff⟩ := h.follows
  have hrunning : ∀ {phase : ExpectPhase}, x.world.loop.phase = phase →
      (∀ code, phase ≠ .returned code) → stop = x.world.off := by
    rintro phase rfl hphase
    exact hoff hphase
  rcases ExpectWorld.step_cases hstep with ⟨d,hd,-⟩ | ⟨-,-,-,hcases⟩
  · cases hd
  · rcases hcases with ⟨hphase,rfl⟩ | ⟨hphase,rfl⟩ | ⟨hphase,l,rfl,-⟩
    · obtain ⟨hfile,hnext,hreads,-⟩ := ExpectWorld.look_fields x.cfg { x.world with file := file }
      obtain rfl := hrunning hphase (by rintro code ⟨⟩)
      refine ⟨?_,_,?_,fun _ => hnext.symm⟩
      · have heq := with_file hfile
        dsimp only at heq ⊢
        rw [heq]
        exact hforwarding
      · rw [hreads]
        exact follows_read hfirst hfollows _ _
    · obtain rfl := hrunning hphase (by rintro code ⟨⟩)
      refine ⟨hforwarding,_,follows_read hfirst hfollows _ _,fun hcode => ?_⟩
      exact absurd (ExpectLoop.phase_lookAgain _ _ _ _) (hcode _)
    · refine ⟨hforwarding,stop,hfollows,fun _ => ?_⟩
      rcases hphase with hphase | hphase
      · exact hrunning hphase (by rintro code ⟨⟩)
      · exact hrunning hphase (by rintro code ⟨⟩)

end Scan

theorem stage_of_isGiven {c : SendCall} (h : c.isGiven = true) : c.stage ≠ .accepted := by
  intro hstage
  simp [SendCall.isGiven,hstage] at h

theorem Placed.grow {dates : List ℕ} {c : SendCall} (h : Placed dates c) (more : List ℕ) :
    Placed (dates++more) c := by
  refine ⟨fun hstage => ?_,fun hgiven => ?_⟩
  · rw [List.length_append]
    exact Nat.le_add_right_of_le (h.within hstage)
  · rw [List.take_append_of_le_length (h.within (stage_of_isGiven hgiven))]
    exact h.older hgiven

/-- Calls of `expect` belong to requests that are over, which do not change any more. -/
theorem Sound.expects_set (h : w.Sound) {i : ℕ} {c c' : SendCall} (hc : w.sends[i]? = some c)
    (hstage : c.stage ≠ .replied) : ∀ x ∈ w.expects, ∃ d, (w.sends.set i c')[x.send]? = some d ∧
      d.stage = .replied ∧ Scan w.file x d.offset := by
  intro x hx
  obtain ⟨d,hd,hreplied,hscan⟩ := h.expects x hx
  refine ⟨d,?_,hreplied,hscan⟩
  rw [List.getElem?_set_ne]
  · exact hd
  · rintro rfl
    rw [Option.some.inj (hc.symm.trans hd)] at hstage
    exact hstage hreplied

theorem Sound.streams_set (h : w.Sound) {i : ℕ} {s : DatedStream}
    (hs : ∀ b ∈ s.buffer ++ s.hand, b.1 ≤ w.inputs) :
    ∀ t ∈ w.streams.set i s, ∀ b ∈ t.buffer ++ t.hand, b.1 ≤ w.inputs := by
  intro t ht
  rcases List.mem_or_eq_of_mem_set ht with ht | rfl
  · exact h.streams t ht
  · exact hs

theorem Sound.sends_set (h : w.Sound) {i : ℕ} {c : SendCall} (hc : Placed w.dates c) :
    ∀ d ∈ w.sends.set i c, Placed w.dates d := by
  intro d hd
  rcases List.mem_or_eq_of_mem_set hd with hd | rfl
  · exact h.sends d hd
  · exact hc

/-- More inputs: what has a date keeps it. -/
theorem Sound.inputs (h : w.Sound) {n : ℕ} (hn : w.inputs ≤ n) : { w with inputs := n }.Sound :=
  ⟨h.dated,fun d hd => (h.dates d hd).trans hn,fun s hs b hb => (h.streams s hs b hb).trans hn,
    h.sends,h.expects⟩

/-- The log grows by bytes that are dated. -/
theorem Sound.grow (h : w.Sound) (more : List (ℕ × UInt8)) (hmore : ∀ b ∈ more, b.1 ≤ w.inputs) :
    { w with
      file := w.file.after (.grow (more.map Prod.snd))
      dates := w.dates ++ more.map Prod.fst }.Sound := by
  refine ⟨?_,?_,h.streams,fun c hc => (h.sends c hc).grow _,?_⟩
  · simp [log,LogFile.after,h.dated]
  · intro d hd
    rcases List.mem_append.mp hd with hd | hd
    · exact h.dates d hd
    · obtain ⟨b,hb,rfl⟩ := List.mem_map.mp hd
      exact hmore b hb
  · intro x hx
    obtain ⟨c,hc,hstage,hscan⟩ := h.expects x hx
    exact ⟨c,hc,hstage,hscan.after (.grow (more.map Prod.snd))⟩

theorem sound_step (w : SendWorld) (e : SendEvent) (w' : SendWorld) (hstep : w.step e = some w')
    (h : w.Sound) : w'.Sound := by
  cases step_move hstep with
  | @spawn tty =>
    have hgrow : { w.file with bytes := some (w.file.bytes.getD []) } =
        w.file.after (.grow []) := by
      simp [LogFile.after]
    rw [hgrow]
    have hsound := h.grow [] (by simp)
    refine ⟨by simpa [log,LogFile.after] using h.dated,h.dates,?_,h.sends,hsound.expects⟩
    intro s hs
    rcases List.mem_append.mp hs with hs | hs
    · exact h.streams s hs
    · rw [List.eq_of_mem_replicate hs]
      intro b hb
      cases hb
  | @status terminal =>
    refine ⟨h.dated,h.dates,h.streams,h.sends,fun x hx => ?_⟩
    obtain ⟨c,hc,hstage,hscan⟩ := h.expects x hx
    exact ⟨c,hc,hstage,hscan.after (.status terminal)⟩
  | @writes i data s hs =>
    refine ⟨h.dated,h.dates,h.streams_set fun b hb => ?_,h.sends,h.expects⟩
    have hold := h.streams s (List.mem_of_getElem? hs) b
    simp only [List.mem_append,Labelled.label,List.mem_map] at hb hold
    rcases hb with (hb | ⟨y,-,rfl⟩) | hb
    · exact hold (.inl hb)
    · exact Nat.le_refl _
    · exact hold (.inr hb)
  | @reads i n s hs =>
    refine ⟨h.dated,h.dates,h.streams_set fun b hb => ?_,h.sends,h.expects⟩
    apply h.streams s (List.mem_of_getElem? hs) b
    rcases List.mem_append.mp hb with hb | hb
    · exact List.mem_append_left _ (List.mem_of_mem_drop hb)
    · exact List.mem_append_left _ (List.mem_of_mem_take hb)
  | locks => exact ⟨h.dated,h.dates,h.streams,h.sends,h.expects⟩
  | @logs i n s hs =>
    have hold := h.streams s (List.mem_of_getElem? hs)
    have hgrow := h.grow (s.hand.take n) fun b hb =>
      hold b (List.mem_append_right _ (List.mem_of_mem_take hb))
    refine ⟨hgrow.dated,hgrow.dates,h.streams_set fun b hb => ?_,hgrow.sends,hgrow.expects⟩
    rcases List.mem_append.mp hb with hb | hb
    · exact hold b (List.mem_append_left _ hb)
    · exact hold b (List.mem_append_right _ (List.mem_of_mem_drop hb))
  | logFails => exact ⟨h.dated,h.dates,h.streams,h.sends,h.expects⟩
  | @unlocks i s hs =>
    refine ⟨h.dated,h.dates,h.streams_set fun b hb => ?_,h.sends,h.expects⟩
    rw [List.append_nil] at hb
    exact h.streams s (List.mem_of_getElem? hs) b (List.mem_append_left _ hb)
  | send =>
    refine ⟨h.dated,h.dates,h.streams,fun c hc => ?_,fun x hx => ?_⟩
    · rcases List.mem_append.mp hc with hc | hc
      · exact h.sends c hc
      · rw [List.mem_singleton.mp hc]
        exact ⟨fun hstage => absurd rfl hstage,by rintro ⟨⟩⟩
    · obtain ⟨c,hc,hstage,hscan⟩ := h.expects x hx
      exact ⟨c,(List.getElem?_append_left (List.getElem?_eq_some_iff.mp hc).1).trans hc,hstage,hscan⟩
  | @measures i readable c hc hstage =>
    refine ⟨h.dated,h.dates,h.streams,h.sends_set ⟨fun _ => ?_,by rintro ⟨⟩⟩,
      h.expects_set hc (by rw [hstage]; decide)⟩
    rw [h.dated]
    split_ifs
    · exact Nat.le_refl _
    · exact Nat.zero_le _
  | @gives i c hc hstage =>
    have hplaced := h.sends c (List.mem_of_getElem? hc)
    have hinputs := h.inputs (Nat.le_succ w.inputs)
    refine ⟨h.dated,hinputs.dates,hinputs.streams,
      h.sends_set ⟨fun _ => hplaced.within (by rw [hstage]; decide),fun _ d hd => ?_⟩,
      h.expects_set hc (by rw [hstage]; decide)⟩
    exact h.dates d (List.mem_of_mem_take hd)
  | @replies i c hc hstage =>
    have hplaced := h.sends c (List.mem_of_getElem? hc)
    have hinputs := h.inputs (n := if c.input.newline then w.inputs+1 else w.inputs) (by
      split_ifs
      · exact Nat.le_succ _
      · exact Nat.le_refl _)
    refine ⟨h.dated,hinputs.dates,hinputs.streams,
      h.sends_set ⟨fun _ => hplaced.within (by rw [hstage]; decide),fun _ => ?_⟩,
      h.expects_set hc (by rw [hstage]; decide)⟩
    exact hplaced.older (by simp [SendCall.isGiven,hstage])
  | otherInput => exact h.inputs (Nat.le_succ _)
  | @expect i cfg c hc hstage hsince =>
    refine ⟨h.dated,h.dates,h.streams,h.sends,fun x hx => ?_⟩
    rcases List.mem_append.mp hx with hx | hx
    · exact h.expects x hx
    · rw [List.mem_singleton.mp hx]
      have hstart : cfg.startOffset w.file = c.offset := by
        rw [ExpectConfig.startOffset,hsince]
      refine ⟨c,hc,hstage,⟨⟨_,resumes_start _ _ _ _,fun _ => hstart.symm⟩,rfl⟩,c.offset,rfl,?_⟩
      exact fun _ => hstart.symm
  | @polls j passed x world hx hworld =>
    refine ⟨h.dated,h.dates,h.streams,h.sends,fun y hy => ?_⟩
    rcases List.mem_or_eq_of_mem_set hy with hy | rfl
    · exact h.expects y hy
    · obtain ⟨c,hc,hstage,hscan⟩ := h.expects x (List.mem_of_getElem? hx)
      have hwithin := (h.sends c (List.mem_of_getElem? hc)).within (by rw [hstage]; decide)
      rw [h.dated] at hwithin
      exact ⟨c,hc,hstage,hscan.poll hwithin hworld⟩

end SendWorld
end Babysit
