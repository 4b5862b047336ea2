import Babysit.DetachFilter
import Babysit.ExitCode
import Babysit.Frame
import Babysit.Lib.Transition
import Babysit.Lib.Utf8

/-! The attach client's `select!` loop. Every turn polls a new `read_frame` future beside
the other branches, and drops it when another branch wins; the bytes it had taken by then
are gone. The loop is generic in what its branches do; `attachTo` is the local client. -/
namespace Babysit

/-- The code around the branches of one loop: `running` until the loop is left. -/
structure SelectBody (σ ε : Type) where
  running : σ → Bool
  onFrame : σ → Frame → σ
  /-- `read_frame` returned `None`, or an error with the given text. -/
  onEnd : σ → Option String → σ
  /-- Another branch wins; `none` while it is not ready. -/
  branch : σ → ε → Option σ
  /-- The stdin thread queues a chunk, or ends. -/
  typed : σ → Option (List UInt8) → σ

/-- A loop in progress. `unread` are the bytes the worker wrote that no future has taken,
`frames` those processed so far; `forgotten` records what dropped futures had taken. -/
structure SelectLoop (σ : Type) where
  unread : List UInt8
  fut : ReadFrame
  frames : List Frame
  forgotten : List UInt8
  body : σ

/-- A fragment of n bytes that arrives while the future is polled is n `read` events. -/
inductive LoopEvent (ε : Type)
  | read
  | ended (error : Option String)
  | branch (e : ε)
  | typed (chunk : Option (List UInt8))

namespace SelectBody
variable {σ ε : Type} (B : SelectBody σ ε)

def step (l : SelectLoop σ) : LoopEvent ε → Option (SelectLoop σ)
  | .typed chunk => some { l with body := B.typed l.body chunk }
  | .read =>
    match B.running l.body,l.unread with
    | true,b::rest =>
      match l.fut.completes b with
      | none => some { l with unread := rest, fut := l.fut.advance b }
      | some f => some { l with
          unread := rest, fut := l.fut.advance b, frames := l.frames ++ [f]
          body := B.onFrame l.body f }
    | _,_ => none
  | .ended error =>
    if B.running l.body then some { l with unread := [], body := B.onEnd l.body error } else none
  | .branch e =>
    if B.running l.body then
      (B.branch l.body e).map fun s =>
        if B.running s then { l with
          fut := .fresh, forgotten := l.forgotten ++ l.fut.consumed, body := s }
        else { l with body := s }
    else none

/-- A loop that starts on the bytes of the frames the worker writes. -/
def start (fs : List Frame) (s : σ) : SelectLoop σ := ⟨writeFrames fs,.fresh,[],[],s⟩

end SelectBody

/-- The frames processed are a first part of those written, and no byte taken from the
stream has been forgotten. -/
def SelectLoop.Intact {σ : Type} (fs : List Frame) (l : SelectLoop σ) : Prop :=
  l.frames <+: fs ∧ l.forgotten = []

namespace SelectBody
variable {σ ε : Type} (B : SelectBody σ ε)

/-- No other branch wins, with the loop going on, while the `read_frame` future is inside
a frame. -/
def BetweenFrames (l : SelectLoop σ) : LoopEvent ε → Prop
  | .branch e => ∀ s, B.branch l.body e = some s → B.running s = true → l.fut = .fresh
  | _ => True

instance (l : SelectLoop σ) : (e : LoopEvent ε) → Decidable (B.BetweenFrames l e)
  | .branch e =>
    match h : B.branch l.body e with
    | none => .isTrue fun s hs => by rw [h] at hs; cases hs
    | some s => decidable_of_iff (B.running s = true → l.fut = .fresh)
        ⟨fun hc s' hs' => by rw [h] at hs'; cases hs'; exact hc,fun hc => hc s h⟩
  | .read | .ended _ | .typed _ => .isTrue trivial

/-- While nothing is forgotten, the current future and the frames returned before it are
one reader that has been fed a first part of the written bytes. -/
def Reading (fs : List Frame) (l : SelectLoop σ) : Prop :=
  ∃ taken, taken ++ l.unread <+: writeFrames fs ∧ l.frames = frameReader.out .fresh taken ∧
    l.fut = frameReader.state .fresh taken ∧ l.forgotten = []

theorem reading_start (fs : List Frame) (s : σ) : Reading fs (start fs s) :=
  ⟨[],by simp [start],rfl,rfl,rfl⟩

theorem Reading.intact {fs : List Frame} (hfs : ∀ f ∈ fs, f.Fits) {l : SelectLoop σ}
    (h : Reading fs l) : l.Intact fs := by
  obtain ⟨taken,htaken,hframes,-,hforgotten⟩ := h
  refine ⟨?_,hforgotten⟩
  rw [hframes]
  exact frameReader_out_prefix hfs ((List.prefix_append _ _).trans htaken)

/-- What one byte does to the loop, in the terms of the frame reader. -/
theorem step_read {l l' : SelectLoop σ} (h : B.step l .read = some l') :
    ∃ b rest, l.unread = b::rest ∧ l'.unread = rest ∧ l'.fut = l.fut.advance b ∧
      l'.frames = l.frames ++ (l.fut.completes b).toList ∧ l'.forgotten = l.forgotten := by
  simp only [step] at h
  split at h
  next b rest _ hunread =>
    split at h
    next hnone =>
      cases h
      exact ⟨b,rest,hunread,rfl,rfl,by simp [hnone],rfl⟩
    next f hsome =>
      cases h
      exact ⟨b,rest,hunread,rfl,rfl,by simp [hsome],rfl⟩
  next => cases h

/-- What another branch does: the loop is left with everything in place, or its next turn
starts on a fresh future. -/
theorem step_branch {l l' : SelectLoop σ} {e : ε} (h : B.step l (.branch e) = some l') :
    ∃ s, B.branch l.body e = some s ∧ l'.unread = l.unread ∧ l'.frames = l.frames ∧
      ((B.running s = false ∧ l'.fut = l.fut ∧ l'.forgotten = l.forgotten) ∨
        (B.running s = true ∧ l'.fut = .fresh ∧
          l'.forgotten = l.forgotten ++ l.fut.consumed)) := by
  simp only [step] at h
  split_ifs at h
  obtain ⟨s,hs,rfl⟩ := Option.map_eq_some_iff.mp h
  refine ⟨s,hs,?_⟩
  by_cases hrun : B.running s = true
  · rw [if_pos hrun]
    exact ⟨rfl,rfl,.inr ⟨hrun,rfl,rfl⟩⟩
  · rw [if_neg hrun]
    exact ⟨rfl,rfl,.inl ⟨by simpa using hrun,rfl,rfl⟩⟩

/-- What a step does to the code around the branches: a frame is processed, or none is. -/
theorem step_body {l l' : SelectLoop σ} {a : LoopEvent ε} (h : B.step l a = some l') :
    (∃ chunk, l'.body = B.typed l.body chunk ∧ l'.frames = l.frames) ∨ B.running l.body = true ∧
      ((l'.body = l.body ∨ (∃ error, l'.body = B.onEnd l.body error) ∨
          (∃ e, B.branch l.body e = some l'.body)) ∧ l'.frames = l.frames ∨
        ∃ f, l'.body = B.onFrame l.body f ∧ l'.frames = l.frames ++ [f]) := by
  cases a with
  | typed chunk =>
    cases h
    exact .inl ⟨chunk,rfl,rfl⟩
  | read =>
    simp only [step] at h
    split at h
    next hrunning _ =>
      split at h <;> cases h
      · exact .inr ⟨hrunning,.inl ⟨.inl rfl,rfl⟩⟩
      · exact .inr ⟨hrunning,.inr ⟨_,rfl,rfl⟩⟩
    next => cases h
  | ended error =>
    simp only [step] at h
    split_ifs at h with hrunning
    cases h
    exact .inr ⟨hrunning,.inl ⟨.inr (.inl ⟨error,rfl⟩),rfl⟩⟩
  | branch e =>
    simp only [step] at h
    split_ifs at h with hrunning
    obtain ⟨s,hs,rfl⟩ := Option.map_eq_some_iff.mp h
    refine .inr ⟨hrunning,.inl ⟨.inr (.inr ⟨e,?_⟩),?_⟩⟩ <;> split_ifs
    · exact hs
    · exact hs
    · rfl
    · rfl

theorem reading_step {fs : List Frame} {l l' : SelectLoop σ} {e : LoopEvent ε}
    (h : B.step l e = some l') (hbetween : B.BetweenFrames l e) (hl : Reading fs l) :
    Reading fs l' := by
  obtain ⟨taken,htaken,hframes,hfut,hforgotten⟩ := hl
  cases e with
  | read =>
    obtain ⟨b,rest,hunread,hrest,hadvance,hcompletes,hsame⟩ := B.step_read h
    refine ⟨taken++[b],?_,?_,?_,by rw [hsame,hforgotten]⟩
    · simpa [hrest,← hunread] using htaken
    · rw [hcompletes,hframes,hfut,Mealy.out_append]
      simp [frameReader]
    · rw [hadvance,hfut,Mealy.state_append]
      rfl
  | ended error =>
    simp only [step] at h
    split_ifs at h
    cases h
    refine ⟨taken,?_,hframes,hfut,hforgotten⟩
    simpa using (List.prefix_append _ _).trans htaken
  | branch e =>
    obtain ⟨s,hs,hunread,hsame,hleft | hgoes⟩ := B.step_branch h
    · obtain ⟨-,hkept,hdropped⟩ := hleft
      exact ⟨taken,by rwa [hunread],by rw [hsame,hframes],by rw [hkept,hfut],
        by rw [hdropped,hforgotten]⟩
    · obtain ⟨hrun,hfresh,hdropped⟩ := hgoes
      have hfresh' : l.fut = .fresh := hbetween s hs hrun
      refine ⟨taken,by rwa [hunread],by rw [hsame,hframes],?_,?_⟩
      · rw [hfresh,← hfut,hfresh']
      · rw [hdropped,hforgotten,hfresh']
        rfl
  | typed chunk =>
    cases h
    exact ⟨taken,htaken,hframes,hfut,hforgotten⟩

/-- A branch that wins inside a frame makes the loop forget bytes, whatever it does. -/
theorem not_intact_of_inside {fs : List Frame} {l l' : SelectLoop σ} {e : LoopEvent ε}
    (h : B.step l e = some l') (hinside : ¬B.BetweenFrames l e) : ¬l'.Intact fs := by
  cases e with
  | branch e =>
    obtain ⟨s,hs,-,-,hleft | hgoes⟩ := B.step_branch h
    · refine absurd ?_ hinside
      intro s' hs' hrun
      rw [hs] at hs'
      cases hs'
      exact absurd hrun (by simp [hleft.1])
    · rintro ⟨-,hforgotten⟩
      rw [hgoes.2.2,List.append_eq_nil_iff,ReadFrame.consumed_eq_nil] at hforgotten
      exact hinside fun _ _ _ => hforgotten.2
  | _ => exact absurd trivial hinside

/-- The exact condition of one loop, for every body. -/
theorem always_intact_iff {fs : List Frame} (hfs : ∀ f ∈ fs, f.Fits) (s : σ)
    (es : List (LoopEvent ε)) :
    Transition.Always B.step (SelectLoop.Intact fs) (start fs s) es ↔
      Transition.Meets B.step B.BetweenFrames (start fs s) es :=
  Transition.always_iff_meets (I := Reading fs) (fun _ h => h.intact hfs)
    (fun _ _ _ h hc hl => B.reading_step h hc hl) (fun _ _ _ h hc _ => B.not_intact_of_inside h hc)
    (reading_start fs s) es

end SelectBody

def resizePayload (cols rows : UInt16) : List UInt8 :=
  BigEndian.encode 2 cols.toNat ++ BigEndian.encode 2 rows.toNat

/-- The local attach client. `restoreTerminal` stands for the escape sequences it writes
on leaving a program that is still running; `result` is what `attach_to` returns. -/
structure LocalClient where
  stdin : List (List UInt8)
  stdinOpen : Bool
  filter : DetachFilter
  stdout : List UInt8
  sent : List Frame
  restoreTerminal : Bool
  result : Option (Except String Int32)

/-- The other branches; `failed` is the error of the write the branch makes. -/
inductive LocalEvent
  | stdin (failed : Option String)
  | escapeTimeout (failed : Option String)
  | windowChange (size : Option (UInt16 × UInt16)) (failed : Option String)

namespace LocalClient

def init : LocalClient := ⟨[],true,.default,[],[],false,none⟩

def print (c : LocalClient) (bytes : List UInt8) : LocalClient :=
  { c with stdout := c.stdout ++ bytes }

def leave (c : LocalClient) (code : Int32) : LocalClient :=
  { c with restoreTerminal := true, result := some (.ok code) }

def frame (c : LocalClient) (f : Frame) : LocalClient :=
  if f.tag = S_OUTPUT then c.print f.payload
  else if f.tag = S_OUTPUT_OFFSET ∧ 8 ≤ f.payload.length then c.print (f.payload.drop 8)
  else if f.tag = S_ERROR then
    { c with result := some (.error ("attach failed: " ++
        String.ofList (Utf8.decodeLossy f.payload))) }
  else if f.tag = S_EXIT then { c with result := some (.ok (parseExit f.payload)) }
  else if f.tag = S_DETACHED then c.leave 0
  else c

/-- `write_frame(..).await?` of a frame that is not written when it has no payload. -/
def send (c : LocalClient) (failed : Option String) (f : Frame) : LocalClient :=
  if f.payload = [] then c
  else match failed with
    | none => { c with sent := c.sent ++ [f] }
    | some error => { c with result := some (.error error) }

def branch (c : LocalClient) : LocalEvent → Option LocalClient
  | .stdin failed =>
    match c.stdin with
    | bytes::rest =>
      let pushed := c.filter.push bytes
      let c := { c with stdin := rest, filter := pushed.filter }.send failed ⟨C_INPUT,pushed.forward⟩
      some (if c.result.isNone ∧ pushed.detach then c.leave 0 else c)
    -- a closed channel is ready on every turn
    | [] => if c.stdinOpen then none else some c
  | .escapeTimeout failed =>
    if c.filter.hasPartialEscape then
      let pushed := c.filter.flushPartialEscape
      some ({ c with filter := pushed.filter }.send failed ⟨C_INPUT,pushed.forward⟩)
    else none
  | .windowChange size failed =>
    match size with
    | some (cols,rows) => some (c.send failed ⟨C_RESIZE,resizePayload cols rows⟩)
    | none => some c

def typed (c : LocalClient) : Option (List UInt8) → LocalClient
  | some chunk => if c.stdinOpen then { c with stdin := c.stdin ++ [chunk] } else c
  | none => { c with stdinOpen := false }

end LocalClient

/-- The loop of `attach_to`; `status` is what it reads when the worker has closed. -/
def attachTo (status : Option Status) : SelectBody LocalClient LocalEvent where
  running c := c.result.isNone
  onFrame := LocalClient.frame
  onEnd c _ := c.leave (exitCodeFromStatus status)
  branch := LocalClient.branch
  typed := LocalClient.typed

end Babysit
