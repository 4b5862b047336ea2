import Babysit.TerminalOutput

/-! The reader threads of `spawn_output_reader`, one step on shared state at a time: a chunk is
counted, fed to the pane's virtual terminal, and broadcast. Beside them the requests that look
at the terminal, and restarts. -/
namespace Babysit

/-- What a reader thread does next, and the chunk in its buffer. -/
inductive ReaderTurn
  | reads
  | feeds (chunk : List UInt8)
  | broadcasts (chunk : List UInt8)
  | ended
  deriving DecidableEq, Repr

def ReaderTurn.isFeeding : ReaderTurn → Bool
  | .feeds _ => true
  | .reads | .broadcasts _ | .ended => false

def ReaderTurn.isRunning : ReaderTurn → Bool
  | .reads | .feeds _ | .broadcasts _ => true
  | .ended => false

/-- The chunk that has been fed and waits for its broadcast. -/
def ReaderTurn.held : ReaderTurn → List UInt8
  | .broadcasts chunk => chunk
  | .reads | .feeds _ | .ended => []

/-- Between two chunks. -/
def ReaderTurn.isIdle : ReaderTurn → Bool
  | .reads | .ended => true
  | .feeds _ | .broadcasts _ => false

/-- The output side of a pane. `seq` is the counter of chunks, whose atomic shows the lower 64
bits; the parser's state is that after the chunks it has processed. -/
structure PaneScreen where
  seq : ℕ
  processed : List (List UInt8)
  readers : List ReaderTurn
  remaining : ℕ
  readerDone : Bool
  deriving DecidableEq, Repr

inductive ReaderStep
  | counts (chunk : List UInt8)
  | feeds
  | broadcasts (io : BroadcastIo)
  | ends

namespace PaneScreen

/-- A terminal has one reader, pipes have two. -/
def spawn (tty : Bool) : PaneScreen :=
  let readers := if tty then 1 else 2
  ⟨0,[],List.replicate readers .reads,readers,false⟩

/-- Counted chunks that the terminal has not been fed with. -/
def inHand (p : PaneScreen) : ℕ := p.readers.countP ReaderTurn.isFeeding

/-- A step of the reader `j`. -/
def step (p : PaneScreen) (j : ℕ) (a : ReaderStep) : Option PaneScreen :=
  match a,p.readers[j]? with
  | .counts chunk,some .reads =>
    if chunk ≠ [] ∧ chunk.length ≤ READER_BUFFER then
      some { p with seq := p.seq+1, readers := p.readers.set j (.feeds chunk) }
    else none
  | .feeds,some (.feeds chunk) => some { p with
      processed := p.processed ++ [chunk], readers := p.readers.set j (.broadcasts chunk) }
  | .broadcasts _,some (.broadcasts _) => some { p with readers := p.readers.set j .reads }
  | .ends,some .reads => some { p with
      readers := p.readers.set j .ended, remaining := p.remaining-1
      readerDone := p.readerDone || p.remaining = 1 }
  | _,_ => none

end PaneScreen

/-- What a request finds on a pane's screen. The last three fields are ghosts: how many chunks
the session's terminal had been fed with by then, the pane's counter, and the chunks counted
but not fed. -/
structure ScreenView where
  pane : ℕ
  processed : List (List UInt8)
  fedBefore : ℕ
  seq : ℕ
  inHand : ℕ
  deriving DecidableEq, Repr

/-- A request that has taken hold of a pane; a screenshot is rendered before it is stamped. -/
inductive ScreenRequest
  | status (pane : ℕ)
  | screenshot (pane : ℕ)
  | rendered (view : ScreenView)
  | answered
  deriving DecidableEq, Repr

/-- A response, with what it shows, or what was on the screen then. `seq` is the counter in
full when it was read. -/
structure ScreenReport where
  screenshot : Bool
  view : ScreenView
  seq : ℕ
  deriving DecidableEq, Repr

/-- The sequence number of the response. -/
def ScreenReport.screenSeq (r : ScreenReport) : UInt64 := UInt64.ofNat r.seq

/-- A worker's panes, oldest first, of which `current` is the session's. The ghost `fed` is the
number of chunks that the session's terminal was fed with. -/
structure ScreenWorld where
  tty : Bool
  hub : HubInner
  disk : Disk
  panes : List PaneScreen
  current : ℕ
  requests : List ScreenRequest
  reports : List ScreenReport
  fed : ℕ

/-- A restart spawns a pane, whose readers start, and makes it the session's. -/
inductive ScreenEvent
  | reader (i j : ℕ) (a : ReaderStep)
  | asksStatus
  | asksScreenshot
  | renders (k : ℕ)
  | answers (k : ℕ)
  | spawns (sidecar : Bool)
  | replaces

namespace ScreenWorld

def start (tty : Bool) (log : List UInt8) : ScreenWorld :=
  let configured := HubInner.default.configureLog ⟨log,[]⟩ ⟨true,true⟩
  ⟨tty,configured.1,configured.2,[.spawn tty],0,[],[],0⟩

/-- The screen of a pane as it is now. -/
def look (w : ScreenWorld) (i : ℕ) (p : PaneScreen) : ScreenView :=
  ⟨i,p.processed,w.fed,p.seq,p.inHand⟩

/-- The response that a request would get now. -/
def answer (w : ScreenWorld) (k : ℕ) : Option ScreenReport :=
  match w.requests[k]? with
  | some (.status i) => w.panes[i]?.map fun p => ⟨false,w.look i p,p.seq⟩
  | some (.rendered view) => w.panes[view.pane]?.map fun p => ⟨true,view,p.seq⟩
  | _ => none

/-- What a reader's step does outside its pane. -/
def reader (w : ScreenWorld) (i : ℕ) (turn : ReaderTurn) : ReaderStep → ScreenWorld
  | .feeds => { w with fed := if i = w.current then w.fed+1 else w.fed }
  | .broadcasts io =>
    let after := w.hub.broadcast w.disk turn.held io
    { w with hub := after.1, disk := after.2 }
  | .counts _ | .ends => w

def step (w : ScreenWorld) : ScreenEvent → Option ScreenWorld
  | .reader i j a => do
    let p ← w.panes[i]?
    let turn ← p.readers[j]?
    let p' ← p.step j a
    some { w.reader i turn a with panes := w.panes.set i p' }
  | .asksStatus => some { w with requests := w.requests ++ [.status w.current] }
  | .asksScreenshot => some { w with requests := w.requests ++ [.screenshot w.current] }
  | .renders k =>
    match w.requests[k]? with
    | some (.screenshot i) => w.panes[i]?.map fun p =>
        { w with requests := w.requests.set k (.rendered (w.look i p)) }
    | _ => none
  | .answers k => (w.answer k).map fun report =>
      { w with requests := w.requests.set k .answered, reports := w.reports ++ [report] }
  | .spawns sidecar =>
    if w.current+1 = w.panes.length then
      let configured := w.hub.configureLog w.disk ⟨true,sidecar⟩
      some { w with
        hub := configured.1, disk := configured.2, panes := w.panes ++ [.spawn w.tty] }
    else none
  | .replaces =>
    if w.current+1 < w.panes.length then some { w with current := w.panes.length-1 } else none

end ScreenWorld

/-- Replacing one entry of a list. -/
theorem exists_set_eq {α : Type*} {xs : List α} {j : ℕ} {x : α} (h : xs[j]? = some x) :
    ∃ front back, xs = front ++ x :: back ∧ ∀ y, xs.set j y = front ++ y :: back := by
  obtain ⟨hlt,rfl⟩ := List.getElem?_eq_some_iff.mp h
  have hset : ∀ y, xs.set j y = xs.take j ++ y :: xs.drop (j+1) := by
    intro y
    rw [List.set_eq_take_append_cons_drop,if_pos hlt]
  refine ⟨xs.take j,xs.drop (j+1),?_,hset⟩
  rw [← hset,List.set_getElem_self]

/-- What the new entry counts for, instead of the old one. -/
theorem countP_set {α : Type*} {xs : List α} {j : ℕ} {x : α} (h : xs[j]? = some x) (f : α → Bool)
    (y : α) : (xs.set j y).countP f + (f x).toNat = xs.countP f + (f y).toNat := by
  obtain ⟨front,back,hxs,hset⟩ := exists_set_eq h
  rw [hset,hxs,List.countP_append,List.countP_append,List.countP_cons,List.countP_cons]
  cases f x <;> cases f y <;> simp <;> omega

namespace PaneScreen

/-- What a reader's step does to its pane, one constructor for each. -/
inductive Move (p : PaneScreen) (j : ℕ) : ReaderTurn → ReaderStep → PaneScreen → Prop
  | counts {chunk} : p.readers[j]? = some .reads → chunk ≠ [] →
      Move p j .reads (.counts chunk)
        { p with seq := p.seq+1, readers := p.readers.set j (.feeds chunk) }
  | feeds {chunk} : p.readers[j]? = some (.feeds chunk) → Move p j (.feeds chunk) .feeds { p with
      processed := p.processed ++ [chunk], readers := p.readers.set j (.broadcasts chunk) }
  | broadcasts {chunk io} : p.readers[j]? = some (.broadcasts chunk) →
      Move p j (.broadcasts chunk) (.broadcasts io) { p with readers := p.readers.set j .reads }
  | ends : p.readers[j]? = some .reads → Move p j .reads .ends { p with
      readers := p.readers.set j .ended, remaining := p.remaining-1
      readerDone := p.readerDone || p.remaining = 1 }

variable {p p' : PaneScreen} {j : ℕ} {turn : ReaderTurn} {a : ReaderStep}

theorem step_move (h : p.step j a = some p') (hturn : p.readers[j]? = some turn) :
    p.Move j turn a p' := by
  unfold step at h
  rw [hturn] at h
  split at h
  next hreads =>
    split_ifs at h with hchunk
    obtain rfl := Option.some.inj h
    obtain rfl := Option.some.inj hreads
    exact .counts hturn hchunk.1
  next hfeeds =>
    obtain rfl := Option.some.inj h
    obtain rfl := Option.some.inj hfeeds
    exact .feeds hturn
  next hbroadcasts =>
    obtain rfl := Option.some.inj h
    obtain rfl := Option.some.inj hbroadcasts
    exact .broadcasts hturn
  next hreads =>
    obtain rfl := Option.some.inj h
    obtain rfl := Option.some.inj hreads
    exact .ends hturn
  next => cases h

/-- The counter is ahead of the terminal by the chunks in hand, and the end of the output is
announced when every reader has ended. -/
structure Sound (p : PaneScreen) : Prop where
  seq : p.seq = p.processed.length + p.inHand
  remaining : p.remaining = p.readers.countP ReaderTurn.isRunning
  readerDone : p.readerDone = true ↔ p.remaining = 0

theorem sound_spawn (tty : Bool) : (spawn tty).Sound := by
  cases tty <;> exact ⟨rfl,rfl,by decide⟩

theorem Sound.step (h : p.Sound) (hmove : p.Move j turn a p') : p'.Sound := by
  obtain ⟨hseq,hremaining,hdone⟩ := h
  cases hmove with
  | @counts chunk hread =>
    have hhand : (p.readers.set j (.feeds chunk)).countP _ + 0 = p.inHand + 1 :=
      countP_set hread ReaderTurn.isFeeding _
    have hrunning := countP_set hread ReaderTurn.isRunning (.feeds chunk)
    refine ⟨?_,hremaining.trans (Nat.add_right_cancel hrunning).symm,hdone⟩
    dsimp only [inHand]
    omega
  | @feeds chunk hread =>
    have hhand : (p.readers.set j (.broadcasts chunk)).countP _ + 1 = p.inHand + 0 :=
      countP_set hread ReaderTurn.isFeeding _
    have hrunning := countP_set hread ReaderTurn.isRunning (.broadcasts chunk)
    refine ⟨?_,hremaining.trans (Nat.add_right_cancel hrunning).symm,hdone⟩
    dsimp only [inHand]
    rw [List.length_append,List.length_singleton]
    omega
  | broadcasts hread =>
    have hhand : (p.readers.set j .reads).countP _ + 0 = p.inHand + 0 :=
      countP_set hread ReaderTurn.isFeeding _
    have hrunning := countP_set hread ReaderTurn.isRunning .reads
    refine ⟨?_,hremaining.trans (Nat.add_right_cancel hrunning).symm,hdone⟩
    dsimp only [inHand]
    omega
  | ends hread =>
    have hhand : (p.readers.set j .ended).countP _ + 0 = p.inHand + 0 :=
      countP_set hread ReaderTurn.isFeeding _
    have hrunning : (p.readers.set j .ended).countP _ + 1 = p.readers.countP _ + 0 :=
      countP_set hread ReaderTurn.isRunning _
    refine ⟨?_,by dsimp only; omega,?_⟩
    · dsimp only [inHand]
      omega
    · dsimp only
      rw [Bool.or_eq_true,hdone,decide_eq_true_iff]
      omega

end PaneScreen

/-- The pane a request holds. -/
def ScreenRequest.pane : ScreenRequest → Option ℕ
  | .status i | .screenshot i => some i
  | .rendered view => some view.pane
  | .answered => none

namespace ScreenWorld

/-- What the terminal of a pane has been fed with. -/
def output (w : ScreenWorld) (i : ℕ) : List (List UInt8) :=
  (w.panes[i]?.map PaneScreen.processed).getD []

/-- How many chunks of a pane have been counted. -/
def counter (w : ScreenWorld) (i : ℕ) : ℕ := (w.panes[i]?.map PaneScreen.seq).getD 0

variable {w w' : ScreenWorld} {e : ScreenEvent}

theorem step_reader {i j : ℕ} {a : ReaderStep} (h : w.step (.reader i j a) = some w') :
    ∃ p turn p', w.panes[i]? = some p ∧ p.Move j turn a p' ∧
      w' = { w.reader i turn a with panes := w.panes.set i p' } := by
  obtain ⟨p,hp,h⟩ := Option.bind_eq_some_iff.mp h
  obtain ⟨turn,hturn,h⟩ := Option.bind_eq_some_iff.mp h
  obtain ⟨p',hp',h⟩ := Option.bind_eq_some_iff.mp h
  exact ⟨p,turn,p',hp,PaneScreen.step_move hp' hturn,(Option.some.inj h).symm⟩

/-- Outside its pane a reader moves the hub and the log, and the count of what was fed. -/
theorem reader_frame (w : ScreenWorld) (i : ℕ) (turn : ReaderTurn) (a : ReaderStep) :
    ∃ hub disk fed, w.reader i turn a = { w with hub := hub, disk := disk, fed := fed } ∧
      (fed = w.fed ∧ a ≠ .feeds ∨ fed = (if i = w.current then w.fed+1 else w.fed) ∧ a = .feeds) := by
  cases a with
  | feeds => exact ⟨w.hub,w.disk,_,rfl,.inr ⟨rfl,rfl⟩⟩
  | broadcasts io =>
    rw [reader]
    exact ⟨_,_,w.fed,rfl,.inl ⟨rfl,by simp⟩⟩
  | counts | ends => exact ⟨w.hub,w.disk,w.fed,rfl,.inl ⟨rfl,by simp⟩⟩

/-- What a step can do, one constructor for each kind. A reader moves its pane, the hub and the
log, and the count of what was fed. -/
inductive Move (w : ScreenWorld) : ScreenEvent → ScreenWorld → Prop
  | reader {i j a turn p p' hub disk fed} : w.panes[i]? = some p → p.Move j turn a p' →
      fed = w.fed ∧ a ≠ .feeds ∨ fed = (if i = w.current then w.fed+1 else w.fed) ∧ a = .feeds →
      Move w (.reader i j a)
        { w with hub := hub, disk := disk, fed := fed, panes := w.panes.set i p' }
  | asksStatus : Move w .asksStatus { w with requests := w.requests ++ [.status w.current] }
  | asksScreenshot :
      Move w .asksScreenshot { w with requests := w.requests ++ [.screenshot w.current] }
  | renders {k i p} : w.requests[k]? = some (.screenshot i) → w.panes[i]? = some p →
      Move w (.renders k) { w with requests := w.requests.set k (.rendered (w.look i p)) }
  | answers {k r} : w.answer k = some r → Move w (.answers k)
      { w with requests := w.requests.set k .answered, reports := w.reports ++ [r] }
  | spawns {sidecar hub disk} : w.current+1 = w.panes.length → Move w (.spawns sidecar)
      { w with hub := hub, disk := disk, panes := w.panes ++ [.spawn w.tty] }
  | replaces : w.current+1 < w.panes.length →
      Move w .replaces { w with current := w.panes.length-1 }

theorem step_move (h : w.step e = some w') : w.Move e w' := by
  cases e with
  | reader i j a =>
    obtain ⟨p,turn,p',hp,hmove,rfl⟩ := step_reader h
    obtain ⟨hub,disk,fed,hreader,hfed⟩ := w.reader_frame i turn a
    rw [hreader]
    exact .reader hp hmove hfed
  | asksStatus =>
    cases h
    exact .asksStatus
  | asksScreenshot =>
    cases h
    exact .asksScreenshot
  | renders k =>
    simp only [step] at h
    split at h
    next i hk =>
      obtain ⟨p,hp,rfl⟩ := Option.map_eq_some_iff.mp h
      exact .renders hk hp
    next => cases h
  | answers k =>
    obtain ⟨r,hr,rfl⟩ := Option.map_eq_some_iff.mp h
    exact .answers hr
  | spawns sidecar =>
    simp only [step] at h
    split_ifs at h with hlength
    cases h
    exact .spawns hlength
  | replaces =>
    simp only [step] at h
    split_ifs at h with hlt
    cases h
    exact .replaces hlt

/-- A response carries the counter of its pane, and shows its screen, as it is now or was when
the screenshot was rendered. -/
theorem answer_view {k : ℕ} {r : ScreenReport} (h : w.answer k = some r) :
    ∃ p, w.panes[r.view.pane]? = some p ∧ r.seq = p.seq ∧
      (r.view = w.look r.view.pane p ∧ .status r.view.pane ∈ w.requests ∨
        .rendered r.view ∈ w.requests) := by
  unfold answer at h
  split at h
  next i hk =>
    obtain ⟨p,hp,rfl⟩ := Option.map_eq_some_iff.mp h
    exact ⟨p,hp,rfl,.inl ⟨rfl,List.mem_of_getElem? hk⟩⟩
  next view hk =>
    obtain ⟨p,hp,rfl⟩ := Option.map_eq_some_iff.mp h
    exact ⟨p,hp,rfl,.inr (List.mem_of_getElem? hk)⟩
  next => cases h

/-- Every pane keeps its invariant. -/
theorem sound_step (h : w.step e = some w') (hw : ∀ p ∈ w.panes,p.Sound) :
    ∀ p ∈ w'.panes,p.Sound := by
  cases step_move h with
  | reader hp hmove =>
    intro q hq
    rcases List.mem_or_eq_of_mem_set hq with hq | rfl
    · exact hw q hq
    · exact (hw _ (List.mem_of_getElem? hp)).step hmove
  | spawns =>
    intro p hp
    rcases List.mem_append.mp hp with hp | hp
    · exact hw p hp
    · rw [List.mem_singleton.mp hp]
      exact PaneScreen.sound_spawn w.tty
  | asksStatus | asksScreenshot | renders | answers | replaces => exact hw

end ScreenWorld
end Babysit
