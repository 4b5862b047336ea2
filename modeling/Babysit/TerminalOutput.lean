import Babysit.FinishedReplay
import Babysit.Hub
import Babysit.IncrementalRead
import Babysit.LogReads
import Babysit.RemoteReconnect
import Babysit.Worker

/-! The output of the wrapped command on its way to the log, beside the worker that records
how the session ends, and the clients that take a terminal status for the end of the log:
`expect`, and the replays of a finished session. -/
namespace Babysit
open AppendLog

/-- The buffer of an output reader. -/
def READER_BUFFER : ℕ := 8192

/-- An output stream of a command. `wrote` is a ghost: what the command has written before
it exited, and before the session showed its end. The bytes wait in the kernel's buffer, then
in the hand of the reader thread, which a command whose spawning failed does not have. -/
structure Stream where
  pane : ℕ
  reader : Bool
  wrote : List UInt8
  buffer : List UInt8
  hand : List UInt8

inductive ExpectPhase
  | scanning
  | checking
  | waiting
  | draining
  | returned (code : Int32)
  deriving DecidableEq

/-- A call of `expect` on the stream: whether its regex matches a text, where it begins to
read, where its next read begins, and the text read so far. -/
structure Expect where
  isMatch : List Char → Bool
  raw : Bool
  since : ℕ
  off : ℕ
  buf : List Char
  phase : ExpectPhase

/-- Ghosts: `captured` lists what the log was given, and from which stream; `printed` and
`bridged` are the replays of a finished session, the second as frames that are read back. -/
structure OutputWorld where
  worker : Worker
  hub : HubInner
  disk : Disk
  opened : Bool
  streams : List Stream
  captured : List (ℕ × List UInt8)
  expects : List Expect
  printed : List (List UInt8)
  bridged : List (Option ℕ × List Frame)

/-- A run of the worker, and whether its commands have a terminal; `strip` is
`strip_ansi_escapes::strip`. -/
structure OutputRun where
  cfg : WorkerConfig
  tty : Bool
  strip : List UInt8 → List UInt8

inductive OutputEvent
  | worker (e : WorkerEvent) (sidecar : Bool)
  | writes (i : ℕ) (data : List UInt8)
  | reads (i n : ℕ)
  | broadcast (i now : ℕ) (sidecar : WriteResult)
  | logFails (i now written : ℕ) (error : String)
  | expectStarts (isMatch : List Char → Bool) (raw : Bool) (since : ℕ)
  | expectSteps (i : ℕ) (readable : Bool)
  | expectTimesOut (i : ℕ)
  | fallback
  | bridge (since : Option ℕ)

/-- What has been captured of one stream. -/
def capturedOf (captured : List (ℕ × List UInt8)) (i : ℕ) : List UInt8 :=
  (captured.filter fun c => c.1 = i).flatMap Prod.snd

namespace Expect

/-- One step of the loop, on the log file as it is, with the finished check between. -/
def step (strip : List UInt8 → List UInt8) (file : Option (List UInt8)) (finished : Bool)
    (x : Expect) : Option Expect :=
  match x.phase with
  | .scanning =>
    let r := readSlice strip file x.off x.raw
    let buf := x.buf ++ r.1
    some { x with
      off := r.2, buf := buf
      phase := if r.1 ≠ [] ∧ x.isMatch buf then .returned 0 else .checking }
  | .checking => some { x with phase := if finished then .draining else .waiting }
  | .waiting => some { x with phase := .scanning }
  | .draining =>
    let r := readSlice strip file x.off x.raw
    some { x with phase := .returned (if x.isMatch (x.buf ++ r.1) then 0 else 1) }
  | .returned _ => none

/-- With one more read the text is that of the log from `since` on: nothing at its end is held
back, and its cuts have changed nothing. -/
def ReadsAll (strip : List UInt8 → List UInt8) (file : Option (List UInt8)) (x : Expect) : Prop :=
  x.buf ++ (readSlice strip file x.off x.raw).1 =
    logText strip x.raw ((file.getD []).drop x.since)

instance (strip : List UInt8 → List UInt8) (file : Option (List UInt8)) (x : Expect) :
    Decidable (x.ReadsAll strip file) := inferInstanceAs (Decidable (_ = _))

/-- The slice is what could be emitted of the log when it was read. -/
def CutSafely (log : List UInt8) (slice : ℕ × List UInt8) : Prop :=
  ∃ more, slice.2 ++ more <+: log.drop slice.1 ∧ safePrefixLen (slice.2 ++ more) = slice.2.length

/-- The text is that of the log from `since` on, or from before where the log was shorter,
slice by slice. -/
def HasRead (strip : List UInt8 → List UInt8) (log : List UInt8) (x : Expect) : Prop :=
  ∃ start ≤ x.since, ∃ slices : List (ℕ × List UInt8), Follows log start slices x.off ∧
    (start ≤ log.length ∨ slices = []) ∧ (∀ s ∈ slices, CutSafely log s) ∧
    x.buf = slices.flatMap fun s => logText strip x.raw s.2

/-- Over the whole of a log in UTF-8, raw text is read to its end with one more read exactly when
the last escape sequence of what is left is complete, and stripped text where there is no escape. -/
def ReadsTexts (strip : List UInt8 → List UInt8) (log : List UInt8) (x : Expect) : Prop :=
  x.since = 0 → ∀ cs, log = Utf8.encode cs →
    (x.raw = true → (x.ReadsAll strip (some log) ↔ LastEscapeComplete (log.drop x.off))) ∧
    (x.raw = false → Vt.ESC ∉ cs →
      (∀ ds, Vt.ESC ∉ ds → strip (Utf8.encode ds) = Utf8.encode (Vt.strip false ds)) →
        x.ReadsAll strip (some log))

end Expect

namespace OutputWorld

def start (disk : Disk) (opened : Bool) : OutputWorld :=
  ⟨.start,.default,disk,opened,[],[],[],[],[]⟩

/-- The log file, once it exists. -/
def file (w : OutputWorld) : Option (List UInt8) := if w.opened then some w.disk.log else none

/-- The streams of a new command: a terminal has one, pipes are two. -/
def newStreams (run : OutputRun) (w : OutputWorld) (reader : Bool) : List Stream :=
  List.replicate (if run.tty then 1 else 2) ⟨w.worker.panes.length,reader,[],[],[]⟩

/-- The command of the stream is still running, and the session does not show its end. -/
def isCounting (w : OutputWorld) (s : Stream) : Bool :=
  ((w.worker.panes[s.pane]?).bind Pane.outcome).isNone && !w.worker.status.isTerminal

/-- A successful spawn opens the log and starts the readers. -/
def workerStep (run : OutputRun) (w : OutputWorld) (e : WorkerEvent) (sidecar : Bool) :
    Option OutputWorld :=
  (w.worker.step run.cfg e).map fun worker =>
    match e with
    | .spawned _ =>
      let after := w.hub.configureLog w.disk ⟨true,sidecar⟩
      { w with
        worker := worker, hub := after.1, disk := after.2, opened := true
        streams := w.streams ++ w.newStreams run true }
    | .spawnFailed (some _) _ => { w with
        worker := worker, streams := w.streams ++ w.newStreams run false }
    | _ => { w with worker := worker }

def step (run : OutputRun) (w : OutputWorld) : OutputEvent → Option OutputWorld
  | .worker e sidecar => w.workerStep run e sidecar
  | .writes i data => do
    let s ← w.streams[i]?
    some { w with streams := w.streams.set i { s with
      wrote := if w.isCounting s then s.wrote ++ data else s.wrote
      buffer := s.buffer ++ data } }
  | .reads i n => do
    let s ← w.streams[i]?
    if s.reader ∧ w.worker.phase.isRunning ∧ s.hand = [] ∧ n ≤ READER_BUFFER then
      some { w with streams := w.streams.set i { s with
        hand := s.buffer.take n, buffer := s.buffer.drop n } }
    else none
  | .broadcast i now sidecar => do
    let s ← w.streams[i]?
    if s.reader ∧ w.worker.phase.isRunning ∧ s.hand ≠ [] then
      let after := w.hub.broadcast w.disk s.hand ⟨now,.ok,sidecar⟩
      some { w with
        hub := after.1, disk := after.2, captured := w.captured ++ [(i,s.hand)]
        streams := w.streams.set i { s with hand := [] } }
    else none
  | .logFails i now written error => do
    let s ← w.streams[i]?
    if s.reader ∧ w.worker.phase.isRunning ∧ s.hand ≠ [] then
      let after := w.hub.broadcast w.disk s.hand ⟨now,.failed written error,.ok⟩
      some { w with
        hub := after.1, disk := after.2, captured := w.captured ++ [(i,s.hand.take written)]
        streams := w.streams.set i { s with hand := [] } }
    else none
  | .expectStarts isMatch raw since => some { w with
      expects := w.expects ++ [⟨isMatch,raw,since,since,[],.scanning⟩] }
  | .expectSteps i readable => do
    let x ← w.expects[i]?
    let x' ← x.step run.strip w.file (readable && w.worker.status.isTerminal)
    some { w with expects := w.expects.set i x' }
  | .expectTimesOut i => do
    let x ← w.expects[i]?
    if x.phase = .waiting then
      some { w with expects := w.expects.set i { x with phase := .returned 124 } }
    else none
  | .fallback =>
    if w.worker.status.isTerminal then some { w with printed := w.printed ++ [w.disk.log] } else none
  | .bridge since =>
    if w.worker.status.isTerminal then
      some { w with bridged := w.bridged ++ [(since,frameReader.out .fresh
        (writeFrames (finishedFrames w.disk.log w.worker.status since)))] }
    else none

/-- The log is what it was plus what was captured. Once the status is terminal, that is all
the commands have written; where `expect` has ended without a match, the log has none from its
offset on, and of a text in UTF-8 it reads all that is not an unfinished sequence at its end; and
every replay is a replay of the log. -/
structure OutputRecorded (run : OutputRun) (base : List UInt8) (w : OutputWorld) : Prop where
  log : w.disk.log = base ++ w.captured.flatMap Prod.snd
  written : w.worker.status.isTerminal = true → ∀ i s, w.streams[i]? = some s →
    s.wrote <+: capturedOf w.captured i
  expect : ∀ x ∈ w.expects, x.phase = .returned 1 → x.HasRead run.strip w.disk.log ∧
    x.isMatch (logText run.strip x.raw ((w.file.getD []).drop x.since)) = false
  reads : ∀ x ∈ w.expects, x.ReadsTexts run.strip w.disk.log
  printed : ∀ bytes ∈ w.printed, bytes = w.disk.log
  bridged : ∀ b ∈ w.bridged, b.2 = finishedFrames w.disk.log w.worker.status b.1

/-- A terminal status is written only when all streams are drained: nothing waits in the
kernel or in a reader's hand. Nothing is written to them afterwards, and log writes succeed. The
last read of `expect` completes the text of the log, and the frames of a bridge fit. -/
def NothingMissed (run : OutputRun) (w : OutputWorld) : OutputEvent → Prop
  | .worker (.record none) _ =>
    match w.worker.phase.write with
    | some (status,_) => status.isTerminal = true → ∀ s ∈ w.streams, s.buffer = [] ∧ s.hand = []
    | none => True
  | .writes _ _ => w.worker.status.isTerminal = false
  | .logFails _ _ _ _ => False
  | .expectSteps i _ => ∀ x ∈ w.expects[i]?, x.phase = .draining → x.ReadsAll run.strip w.file
  | .bridge since => ∀ f ∈ finishedFrames w.disk.log w.worker.status since, f.Fits
  | _ => True

/-- What `NothingMissed` asks of a status write. -/
def decidableDrained (streams : List Stream) : (write : Option (Status × WorkerPhase)) →
    Decidable (match write with
      | some (status,_) => status.isTerminal = true → ∀ s ∈ streams, s.buffer = [] ∧ s.hand = []
      | none => True)
  | some (status,_) =>
    inferInstanceAs (Decidable (status.isTerminal = true → ∀ s ∈ streams, s.buffer = [] ∧ s.hand = []))
  | none => .isTrue trivial

instance (run : OutputRun) (w : OutputWorld) :
    (e : OutputEvent) → Decidable (w.NothingMissed run e)
  | .worker (.record none) _ => decidableDrained w.streams w.worker.phase.write
  | .writes _ _ => inferInstanceAs (Decidable (w.worker.status.isTerminal = false))
  | .logFails _ _ _ _ => .isFalse id
  | .expectSteps i _ => inferInstanceAs (Decidable
      (∀ x ∈ w.expects[i]?, x.phase = .draining → x.ReadsAll run.strip w.file))
  | .bridge since => inferInstanceAs (Decidable
      (∀ f ∈ finishedFrames w.disk.log w.worker.status since, f.Fits))
  | .worker (.record (some _)) _ | .worker (.spawned _) _ | .worker (.spawnFailed _ _) _
  | .worker (.served _) _ | .worker (.request _) _ | .worker .timeout _ | .worker .idle _
  | .worker .receive _ | .worker .exitNotified _ | .worker (.os _) _ | .worker .drained _
  | .worker .left _ | .worker .died _ | .worker (.pane _ _) _ | .reads _ _ | .broadcast _ _ _
  | .expectStarts _ _ _ | .expectTimesOut _ | .fallback => .isTrue trivial

end OutputWorld

namespace Expect
variable {strip : List UInt8 → List UInt8} {log : List UInt8} {x : Expect}

theorem CutSafely.grow {slice : ℕ × List UInt8} (h : CutSafely log slice)
    (hin : slice.1 ≤ log.length) (more : List UInt8) : CutSafely (log++more) slice := by
  obtain ⟨left,hpre,hsafe⟩ := h
  refine ⟨left,?_,hsafe⟩
  rw [List.drop_append_of_le_length hin]
  exact hpre.trans (List.prefix_append _ _)

/-- What is emitted of the log is cut safely. -/
theorem cutSafely_safe (log : List UInt8) (off : ℕ) :
    CutSafely log (off,(log.drop off).take (safePrefixLen (log.drop off))) := by
  have hall := List.take_append_drop (safePrefixLen (log.drop off)) (log.drop off)
  refine ⟨(log.drop off).drop (safePrefixLen (log.drop off)),
    ⟨[],(List.append_nil _).trans hall⟩,?_⟩
  rw [hall,List.length_take,Nat.min_eq_left (safePrefixLen_le _)]

namespace HasRead

theorem grow (h : x.HasRead strip log) (more : List UInt8) : x.HasRead strip (log++more) := by
  obtain ⟨start,hstart,slices,hfollows,hin,hsafe,hbuf⟩ := h
  refine ⟨start,hstart,slices,hfollows.grow more,hin.imp_left fun h => ?_,fun s hs => ?_,hbuf⟩
  · rw [List.length_append]
    omega
  · rcases hin with hle | rfl
    · exact (hsafe s hs).grow (hfollows.offset_le hle hs) more
    · cases hs

/-- A read goes on with the text, or back to the end of a log that does not reach that far. -/
theorem read (h : x.HasRead strip log) {file : Option (List UInt8)}
    (hfile : file = none ∨ file = some log) (phase : ExpectPhase) :
    HasRead strip log { x with
      off := (readSlice strip file x.off x.raw).2
      buf := x.buf ++ (readSlice strip file x.off x.raw).1
      phase := phase } := by
  obtain ⟨start,hstart,slices,hfollows,hin,hcut,hbuf⟩ := h
  rcases hfile with rfl | rfl
  · exact ⟨start,hstart,slices,hfollows,hin,hcut,(List.append_nil _).trans hbuf⟩
  unfold readSlice
  by_cases hend : log.length ≤ x.off
  · simp only [if_pos hend,List.append_nil]
    rcases hin with hle | rfl
    · have hoff : x.off = log.length := Nat.le_antisymm (hfollows.bounds hle).2 hend
      exact ⟨start,hstart,slices,hoff ▸ hfollows,.inl hle,hcut,hbuf⟩
    · obtain rfl : start = x.off := hfollows
      exact ⟨log.length,hend.trans hstart,[],rfl,.inr rfl,List.forall_mem_nil _,hbuf⟩
  · simp only [if_neg hend]
    have hsafe := safePrefixLen_le (log.drop x.off)
    have hslice : HoldsAt log x.off ((log.drop x.off).take (safePrefixLen (log.drop x.off))) :=
      List.take_prefix _ _
    have hnext := hfollows.snoc hslice
    rw [List.length_take,Nat.min_eq_left hsafe] at hnext
    refine ⟨start,hstart,_,hnext,.inl ?_,?_,?_⟩
    · rcases hin with hle | rfl
      · exact hle
      · obtain rfl : start = x.off := hfollows
        omega
    · exact List.forall_mem_append.mpr ⟨hcut,List.forall_mem_singleton.mpr (cutSafely_safe _ _)⟩
    · simp only [hbuf,List.flatMap_append,List.flatMap_singleton,logText]

theorem step (h : x.HasRead strip log) {file : Option (List UInt8)}
    (hfile : file = none ∨ file = some log) {finished : Bool} {x' : Expect}
    (hstep : x.step strip file finished = some x') : x'.HasRead strip log := by
  unfold Expect.step at hstep
  split at hstep
  · obtain rfl := Option.some.inj hstep
    exact h.read hfile _
  · obtain rfl := Option.some.inj hstep
    exact h
  · obtain rfl := Option.some.inj hstep
    exact h
  · obtain rfl := Option.some.inj hstep
    exact h
  · cases hstep

end HasRead

/-- Slices of a text that are cut safely are texts. -/
theorem exists_pieces {slices : List (ℕ × List UInt8)} {start stop : ℕ} {cs : List Char}
    (hfollows : Follows log start slices stop) (hcut : ∀ s ∈ slices, CutSafely log s)
    (htext : log.drop start = Utf8.encode cs) : ∃ pieces : List (List Char), ∃ rest,
      cs = pieces.flatten ++ rest ∧ slices.map Prod.snd = pieces.map Utf8.encode ∧
        log.drop stop = Utf8.encode rest := by
  induction slices generalizing start cs with
  | nil =>
    obtain rfl : start = stop := hfollows
    exact ⟨[],cs,rfl,rfl,htext⟩
  | cons slice slices ih =>
    obtain ⟨o,bytes⟩ := slice
    obtain ⟨rfl,-,hnext⟩ := hfollows
    obtain ⟨⟨more,hpre,hsafe⟩,hothers⟩ := List.forall_mem_cons.mp hcut
    rw [htext] at hpre
    obtain ⟨piece,rest,rfl,rfl⟩ := exists_of_safePrefixLen hpre hsafe
    have hrest : log.drop (o + (Utf8.encode piece).length) = Utf8.encode rest := by
      rw [← List.drop_drop,htext,Utf8.encode_append,List.drop_left]
    obtain ⟨pieces,left,rfl,hslices,hleft⟩ := ih hnext hothers hrest
    refine ⟨piece::pieces,left,by simp,?_,hleft⟩
    rw [List.map_cons,List.map_cons,hslices]

/-- The text of text that is raw, or has no escape. -/
theorem logText_encode {raw : Bool} {cs : List Char}
    (hstrip : raw = false → Vt.ESC ∉ cs ∧
      ∀ ds, Vt.ESC ∉ ds → strip (Utf8.encode ds) = Utf8.encode (Vt.strip false ds)) :
    logText strip raw (Utf8.encode cs) = if raw then cs else Vt.strip false cs := by
  cases raw with
  | true => exact Utf8.decodeLossy_encode cs
  | false =>
    obtain ⟨hesc,hstrip⟩ := hstrip rfl
    simp only [logText,Bool.false_eq_true,if_false,hstrip cs hesc,Utf8.decodeLossy_encode]

/-- A read of the rest of a text, if nothing of it is held back. -/
theorem readSlice_complete {off : ℕ} {raw : Bool} {rest : List Char}
    (hrest : log.drop off = Utf8.encode rest) (hcomplete : LastEscapeComplete (Utf8.encode rest))
    (hnil : logText strip raw [] = []) :
    (readSlice strip (some log) off raw).1 = logText strip raw (Utf8.encode rest) := by
  have hsafe : safePrefixLen (Utf8.encode rest) = (Utf8.encode rest).length := by
    have hcut := hcomplete
    rw [← List.take_length (l := Utf8.encode rest)] at hcut
    have hlen := safePrefixLen_of_complete hcut
    rwa [List.take_length,Utf8.wholeWithin_length] at hlen
  by_cases hend : log.length ≤ off
  · rw [List.drop_eq_nil_of_le hend] at hrest
    simp only [readSlice,if_pos hend,← hrest,hnil]
  · simp only [readSlice,if_neg hend,hrest,hsafe,List.take_length,logText]

/-- An escape sequence that is not complete is held back from raw text. -/
theorem readSlice_incomplete {off : ℕ} {rest : List Char} (hrest : log.drop off = Utf8.encode rest)
    (hincomplete : ¬LastEscapeComplete (Utf8.encode rest)) :
    ∃ post, rest = (readSlice strip (some log) off true).1 ++ Vt.ESC::post := by
  rcases last_escape rest with hnone | ⟨pre,post,hlast,hpost⟩
  · exact absurd (lastEscapeComplete_of_no_escape hnone) hincomplete
  · have hsafe : safePrefixLen (Utf8.encode rest) = (Utf8.encode pre).length := by
      have hcut := hincomplete
      rw [← List.take_length (l := Utf8.encode rest)] at hcut
      have hlen := safePrefixLen_of_incomplete ((Utf8.wholeWithin_length rest).trans hlast) hpost hcut
      rwa [List.take_length] at hlen
    refine ⟨post,?_⟩
    have hmore : ¬log.length ≤ off := by
      intro hend
      rw [List.drop_eq_nil_of_le hend,hlast,Utf8.encode_append] at hrest
      have hnil := (List.append_eq_nil_iff.mp hrest.symm).2
      rw [← Utf8.encode_nil] at hnil
      cases Utf8.encode_injective hnil
    have htake : (Utf8.encode rest).take (Utf8.encode pre).length = Utf8.encode pre := by
      rw [hlast,Utf8.encode_append,List.take_left]
    simp only [readSlice,if_neg hmore,hrest,hsafe,htake,if_true,Utf8.decodeLossy_encode]
    exact hlast

theorem HasRead.readsTexts (h : x.HasRead strip log) : x.ReadsTexts strip log := by
  intro hsince cs hlog
  obtain ⟨start,hstart,slices,hfollows,-,hcut,hbuf⟩ := h
  obtain rfl : start = 0 := by omega
  obtain ⟨pieces,rest,hcs,hslices,hrest⟩ :=
    exists_pieces hfollows hcut (by rw [List.drop_zero,hlog])
  have hread : x.buf = pieces.flatMap fun piece => logText strip x.raw (Utf8.encode piece) := by
    have hmap : slices.flatMap (fun s => logText strip x.raw s.2) =
        (slices.map Prod.snd).flatMap (logText strip x.raw) := by rw [List.flatMap_map]
    rw [hbuf,hmap,hslices,List.flatMap_map]
  unfold ReadsAll
  rw [Option.getD_some,hsince,List.drop_zero,hread,hlog]
  rw [hlog] at hrest
  constructor
  · intro hraw
    have hraws : ∀ ds, logText strip true (Utf8.encode ds) = ds := Utf8.decodeLossy_encode
    simp only [hraw,hraws,List.flatMap_id',hrest]
    constructor
    · intro hall
      by_contra hincomplete
      obtain ⟨post,hpost⟩ : ∃ post, rest =
          (readSlice strip (some (Utf8.encode cs)) x.off true).1 ++ Vt.ESC::post :=
        readSlice_incomplete hrest hincomplete
      have hlast := List.append_cancel_left (hall.trans hcs)
      rw [hlast] at hpost
      simp at hpost
    · intro hcomplete
      rw [readSlice_complete hrest hcomplete (hraws []),hraws,hcs]
  · intro hraw hesc hstrip
    rw [hcs,List.mem_append,not_or] at hesc
    have htext : ∀ ds, Vt.ESC ∉ ds → logText strip false (Utf8.encode ds) = Vt.strip false ds :=
      fun ds hds => logText_encode fun _ => ⟨hds,hstrip⟩
    have hpieces : pieces.flatMap (fun piece => logText strip false (Utf8.encode piece)) =
        Vt.strip false pieces.flatten := by
      rw [Vt.strip_flatten hesc.1]
      refine List.flatMap_congr fun piece hpiece => htext piece ?_
      exact fun hmem => hesc.1 (List.mem_flatten_of_mem hpiece hmem)
    rw [hraw,hpieces,readSlice_complete hrest (lastEscapeComplete_of_no_escape hesc.2)
      (htext [] List.not_mem_nil),htext rest hesc.2,hcs,htext _ (by simp [hesc]),
      Vt.strip_append hesc.1]

end Expect

/-- No byte of a stream is lost: what the command has written comes first in what has been
captured, is in the reader's hand or waits; while the command is running it is all of that. -/
def Stream.Conserves (s : Stream) (counting : Bool) (cap : List UInt8) : Prop :=
  s.wrote <+: cap ++ (s.hand ++ s.buffer) ∧
    (counting = true → s.wrote = cap ++ (s.hand ++ s.buffer))

def Stream.isEmpty (s : Stream) : Prop := s.wrote = [] ∧ s.buffer = [] ∧ s.hand = []

theorem capturedOf_eq_nil {captured : List (ℕ × List UInt8)} {n i : ℕ}
    (h : ∀ c ∈ captured, c.1 < n) (hi : n ≤ i) : capturedOf captured i = [] := by
  unfold capturedOf
  rw [List.filter_eq_nil_iff.mpr]
  · rfl
  · intro c hc
    have := h c hc
    rw [decide_eq_true_eq]
    omega

/-- Newly captured bytes of one stream count for that stream alone. -/
lemma capturedOf_append {i : ℕ} (captured : List (ℕ × List UInt8)) {more : List (ℕ × List UInt8)}
    (hmore : ∀ c ∈ more, c.1 = i) (j : ℕ) : capturedOf (captured ++ more) j =
      if i = j then capturedOf captured j ++ more.flatMap Prod.snd else capturedOf captured j := by
  unfold capturedOf
  rw [List.filter_append,List.flatMap_append]
  split_ifs with hij
  · have hall : (more.filter fun c => c.1 = j) = more :=
      List.filter_eq_self.mpr fun c hc => decide_eq_true ((hmore c hc).trans hij)
    rw [hall]
  · have hnone : (more.filter fun c => c.1 = j) = [] :=
      List.filter_eq_nil_iff.mpr fun c hc => by simpa [hmore c hc] using hij
    rw [hnone]
    exact List.append_nil _

namespace Stream.Conserves
variable {s : Stream} {counting : Bool} {cap : List UInt8}

theorem of_isEmpty (h : s.isEmpty) : s.Conserves counting [] := by
  obtain ⟨hwrote,hbuffer,hhand⟩ := h
  simp [Conserves,hwrote,hbuffer,hhand]

theorem mono {counting' : Bool} (h : s.Conserves counting cap)
    (hc : counting' = true → counting = true) : s.Conserves counting' cap :=
  ⟨h.1,fun hcounting => h.2 (hc hcounting)⟩

theorem writes (h : s.Conserves counting cap) (data : List UInt8) :
    Conserves { s with wrote := if counting then s.wrote ++ data else s.wrote
                       buffer := s.buffer ++ data } counting cap := by
  obtain ⟨hbegins,hall⟩ := h
  cases counting with
  | true =>
    have hwrote : s.wrote ++ data = cap ++ (s.hand ++ (s.buffer ++ data)) := by
      rw [hall rfl]
      simp only [List.append_assoc]
    exact ⟨hwrote ▸ List.prefix_rfl,fun _ => hwrote⟩
  | false =>
    refine ⟨hbegins.trans ?_,fun h => by cases h⟩
    simp only [← List.append_assoc]
    exact List.prefix_append _ _

theorem reads (h : s.Conserves counting cap) (hhand : s.hand = []) (n : ℕ) :
    Conserves { s with hand := s.buffer.take n, buffer := s.buffer.drop n } counting cap := by
  unfold Conserves at h ⊢
  dsimp only
  rw [List.take_append_drop]
  rwa [hhand,List.nil_append] at h

theorem broadcast (h : s.Conserves counting cap) :
    Conserves { s with hand := [] } counting (cap ++ s.hand) := by
  unfold Conserves at h ⊢
  dsimp only
  rwa [List.nil_append,List.append_assoc]

/-- Of a drained stream all that was written is captured. -/
theorem drained (h : s.Conserves counting cap) (hd : s.buffer = [] ∧ s.hand = []) :
    s.wrote <+: cap := by
  have hbegins := h.1
  rwa [hd.1,hd.2,List.append_nil,List.append_nil] at hbegins

end Stream.Conserves

namespace OutputWorld

/-- The clients that take a terminal status for the end of the log have done so only then,
and on the log as it is. -/
structure Clients (run : OutputRun) (w : OutputWorld) : Prop where
  ended : ∀ x ∈ w.expects, x.phase = .draining ∨ x.phase = .returned 1 →
    w.worker.status.isTerminal = true
  replayed : w.worker.status.isTerminal = false → w.printed = [] ∧ w.bridged = []
  expect : ∀ x ∈ w.expects, x.phase = .returned 1 →
    x.isMatch (logText run.strip x.raw ((w.file.getD []).drop x.since)) = false
  printed : ∀ bytes ∈ w.printed, bytes = w.disk.log
  bridged : ∀ b ∈ w.bridged, b.2 = finishedFrames w.disk.log w.worker.status b.1

/-- The property with what carries it from step to step. -/
structure Good (run : OutputRun) (base : List UInt8) (w : OutputWorld) : Prop where
  settled : w.worker.Settled
  log : w.disk.log = base ++ w.captured.flatMap Prod.snd
  opened : ∀ s ∈ w.streams, s.reader = true → w.hub.log = true
  streams : ∀ (i : ℕ) (s : Stream), w.streams[i]? = some s →
    s.Conserves (w.isCounting s) (capturedOf w.captured i)
  captured : ∀ c ∈ w.captured, c.1 < w.streams.length
  drained : w.worker.status.isTerminal = true → ∀ s ∈ w.streams, s.buffer = [] ∧ s.hand = []
  clients : w.Clients run
  read : ∀ x ∈ w.expects, x.HasRead run.strip w.disk.log

variable {run : OutputRun} {base : List UInt8} {w w' : OutputWorld}

theorem Good.outputRecorded (h : w.Good run base) : w.OutputRecorded run base where
  log := h.log
  written ht i s hs := (h.streams i s hs).drained (h.drained ht s (List.mem_of_getElem? hs))
  expect x hx hp := ⟨h.read x hx,h.clients.expect x hx hp⟩
  reads x hx := (h.read x hx).readsTexts
  printed := h.clients.printed
  bridged := h.clients.bridged

theorem good_start (disk : Disk) (opened : Bool) : (start disk opened).Good run disk.log where
  settled := Worker.settled_start
  log := by simp [start]
  opened := by simp [start]
  streams := by simp [start]
  captured := by simp [start]
  drained := by simp [start]
  clients := ⟨by simp [start],fun _ => ⟨rfl,rfl⟩,by simp [start],by simp [start],by simp [start]⟩
  read := by simp [start]

/-- No client has concluded anything from the end of the session. -/
structure Undecided (w : OutputWorld) : Prop where
  expects : ∀ x ∈ w.expects, x.phase ≠ .draining ∧ x.phase ≠ .returned 1
  printed : w.printed = []
  bridged : w.bridged = []

theorem Clients.undecided (h : w.Clients run) (ht : w.worker.status.isTerminal = false) :
    w.Undecided := by
  refine ⟨fun x hx => ?_,(h.replayed ht).1,(h.replayed ht).2⟩
  have hnot : ¬(x.phase = .draining ∨ x.phase = .returned 1) := by
    intro hp
    rw [h.ended x hx hp] at ht
    cases ht
  exact not_or.mp hnot

theorem Undecided.clients (h : w.Undecided) : w.Clients run where
  ended x hx hp := absurd hp (not_or.mpr (h.expects x hx))
  replayed _ := ⟨h.printed,h.bridged⟩
  expect x hx hp := absurd hp (h.expects x hx).2
  printed bytes hb := by
    rw [h.printed] at hb
    cases hb
  bridged b hb := by
    rw [h.bridged] at hb
    cases hb

/-- Counting stops for good. -/
theorem isCounting_step {e : WorkerEvent} {worker : Worker} (hw : w.worker.Settled)
    (hstep : w.worker.step run.cfg e = some worker) {s : Stream}
    (hc : isCounting { w with worker := worker } s = true) : w.isCounting s = true := by
  unfold isCounting at hc ⊢
  simp only [Bool.and_eq_true,Option.isNone_iff_eq_none,Bool.not_eq_true'] at hc ⊢
  obtain ⟨hnone,hterminal⟩ := hc
  constructor
  · cases ho : (w.worker.panes[s.pane]?).bind Pane.outcome with
    | none => rfl
    | some o =>
      rw [Worker.outcome_step hstep ho] at hnone
      cases hnone
  · cases ht : w.worker.status.isTerminal with
    | false => rfl
    | true =>
      rw [(Worker.isEnding_step hstep (hw ht)).2,ht] at hterminal
      cases hterminal

/-- A step of the worker alone. -/
theorem Good.worker_step (h : w.Good run base) {e : WorkerEvent} {worker : Worker}
    {sidecar : Bool} (hcond : w.NothingMissed run (.worker e sidecar))
    (hstep : w.worker.step run.cfg e = some worker) : Good run base { w with worker := worker } := by
  refine ⟨h.settled.step hstep,h.log,h.opened,
    fun i s hs => (h.streams i s hs).mono (isCounting_step h.settled hstep),h.captured,?_,?_,h.read⟩
  · intro hterminal
    rcases Worker.isTerminal_step hstep hterminal with hold | ⟨rfl,status,next,hwrite,hend⟩
    · exact h.drained hold
    · simp only [NothingMissed,hwrite] at hcond
      exact hcond hend
  · cases ht : w.worker.status.isTerminal with
    | true =>
      -- the status is final
      have hstatus := (Worker.isEnding_step hstep (h.settled ht)).2
      obtain ⟨hended,hreplayed,hexpect,hprinted,hbridged⟩ := h.clients
      rw [← hstatus] at hended hreplayed hbridged
      exact ⟨hended,hreplayed,hexpect,hprinted,hbridged⟩
    | false =>
      obtain ⟨hexpects,hprinted,hbridged⟩ := h.clients.undecided ht
      exact Undecided.clients ⟨hexpects,hprinted,hbridged⟩

/-- Before the end, empty streams may be added, with the log open if they have a reader. -/
theorem Good.addStreams (h : w.Good run base) (ht : w.worker.status.isTerminal = false)
    {hub : HubInner} {disk : Disk} {opened : Bool} {streams : List Stream}
    (hdisk : disk.log = w.disk.log) (hnew : ∀ s ∈ streams, s.isEmpty)
    (hold : w.hub.log = true → hub.log = true)
    (hopen : ∀ s ∈ streams, s.reader = true → hub.log = true) :
    Good run base { w with
      hub := hub, disk := disk, opened := opened, streams := w.streams ++ streams } := by
  obtain ⟨hexpects,hprinted,hbridged⟩ := h.clients.undecided ht
  refine ⟨h.settled,hdisk.trans h.log,?_,?_,?_,?_,Undecided.clients ⟨hexpects,hprinted,hbridged⟩,
    fun x hx => hdisk.symm ▸ h.read x hx⟩
  · intro s hs hreader
    rcases List.mem_append.mp hs with hs | hs
    · exact hold (h.opened s hs hreader)
    · exact hopen s hs hreader
  · intro i s hs
    dsimp only at hs
    by_cases hlt : i < w.streams.length
    · rw [List.getElem?_append_left hlt] at hs
      exact h.streams i s hs
    · rw [List.getElem?_append_right (Nat.le_of_not_lt hlt)] at hs
      dsimp only
      rw [capturedOf_eq_nil h.captured (Nat.le_of_not_lt hlt)]
      exact .of_isEmpty (hnew s (List.mem_of_getElem? hs))
  · intro c hc
    have := h.captured c hc
    dsimp only
    rw [List.length_append]
    omega
  · intro hterminal
    dsimp only at hterminal
    rw [ht] at hterminal
    cases hterminal

theorem newStreams_isEmpty (reader : Bool) : ∀ s ∈ w.newStreams run reader, s.isEmpty := by
  intro s hs
  rw [List.eq_of_mem_replicate hs]
  exact ⟨rfl,rfl,rfl⟩

/-- A command is spawned before the end only. -/
theorem Good.unended_of_spawn (h : w.Good run base) {e : WorkerEvent} {worker : Worker}
    (hspawn : (∃ pid, e = .spawned pid) ∨ ∃ started error, e = .spawnFailed started error)
    (hstep : w.worker.step run.cfg e = some worker) :
    w.worker.status.isTerminal = false ∧ worker.status = w.worker.status := by
  have hnot : ∀ {phase : WorkerPhase}, w.worker.phase = phase → phase.isEnding = false →
      w.worker.status.isTerminal = false := by
    intro phase hp hending
    cases ht : w.worker.status.isTerminal with
    | false => rfl
    | true =>
      have := h.settled ht
      rw [hp,hending] at this
      cases this
  rcases hspawn with ⟨pid,rfl⟩ | ⟨started,error,rfl⟩
  · cases Worker.step_move hstep with
    | spawned hp => exact ⟨hnot hp rfl,rfl⟩
    | respawned hp => exact ⟨hnot hp rfl,rfl⟩
  · cases Worker.step_move hstep with
    | spawnFailed hp => exact ⟨hnot hp rfl,rfl⟩
    | respawnFailed hp => exact ⟨hnot hp rfl,rfl⟩

theorem Good.workerStep (h : w.Good run base) {e : WorkerEvent} {sidecar : Bool}
    (hcond : w.NothingMissed run (.worker e sidecar)) (hstep : w.workerStep run e sidecar = some w') :
    w'.Good run base := by
  obtain ⟨worker,hworker,rfl⟩ := Option.map_eq_some_iff.mp hstep
  have hgood := h.worker_step hcond hworker
  cases e with
  | spawned pid =>
    obtain ⟨ht,hstatus⟩ := h.unended_of_spawn (.inl ⟨pid,rfl⟩) hworker
    rw [← hstatus] at ht
    have hopen : (w.hub.configureLog w.disk ⟨true,sidecar⟩).1.log = true :=
      HubInner.configureLog_opens _ _ rfl
    exact hgood.addStreams ht (HubInner.configureLog_disk _ _ _) (newStreams_isEmpty true)
      (fun _ => hopen) (fun _ _ _ => hopen)
  | spawnFailed started error =>
    obtain ⟨ht,hstatus⟩ := h.unended_of_spawn (.inr ⟨started,error,rfl⟩) hworker
    rw [← hstatus] at ht
    cases started with
    | none => exact hgood
    | some pid =>
      refine hgood.addStreams ht rfl (newStreams_isEmpty false) id ?_
      intro s hs hreader
      rw [List.eq_of_mem_replicate hs] at hreader
      cases hreader
  | _ => exact hgood

/-- One stream moves bytes, of which some may be captured. -/
theorem Good.setStream (h : w.Good run base) {i : ℕ} {s s' : Stream} (hs : w.streams[i]? = some s)
    (hpane : s'.pane = s.pane) (hreader : s'.reader = s.reader) {hub : HubInner} {disk : Disk}
    {more : List (ℕ × List UInt8)} (hmore : ∀ c ∈ more, c.1 = i)
    (hdisk : disk.log = w.disk.log ++ more.flatMap Prod.snd)
    (hlog : w.hub.log = true → hub.log = true)
    (hconserves : s'.Conserves (w.isCounting s)
      (capturedOf w.captured i ++ more.flatMap Prod.snd))
    (hdrained : w.worker.status.isTerminal = true → s'.buffer = [] ∧ s'.hand = [])
    (hclients : w.worker.status.isTerminal = false ∨ disk = w.disk) :
    Good run base { w with
      hub := hub, disk := disk, captured := w.captured ++ more, streams := w.streams.set i s' } := by
  have hlt := (List.getElem?_eq_some_iff.mp hs).1
  refine ⟨h.settled,?_,?_,?_,?_,?_,?_,fun x hx => hdisk.symm ▸ (h.read x hx).grow _⟩
  · dsimp only
    rw [hdisk,h.log,List.flatMap_append,List.append_assoc]
  · intro q hq hr
    rcases List.mem_or_eq_of_mem_set hq with hq | rfl
    · exact hlog (h.opened q hq hr)
    · exact hlog (h.opened s (List.mem_of_getElem? hs) (hreader ▸ hr))
  · intro j q hq
    dsimp only at hq ⊢
    rw [capturedOf_append _ hmore]
    rw [List.getElem?_set] at hq
    split_ifs at hq ⊢ with hij
    · subst hij
      obtain rfl := Option.some.inj hq
      have hcounting : isCounting w s' = isCounting w s := by
        unfold isCounting
        rw [hpane]
      exact hcounting ▸ hconserves
    · exact h.streams j q hq
  · intro c hc
    dsimp only
    rw [List.length_set]
    rcases List.mem_append.mp hc with hc | hc
    · exact h.captured c hc
    · rw [hmore c hc]
      exact hlt
  · intro ht q hq
    rcases List.mem_or_eq_of_mem_set hq with hq | rfl
    · exact h.drained ht q hq
    · exact hdrained ht
  · rcases hclients with ht | rfl
    · obtain ⟨hexpects,hprinted,hbridged⟩ := h.clients.undecided ht
      exact Undecided.clients ⟨hexpects,hprinted,hbridged⟩
    · obtain ⟨hended,hreplayed,hexpect,hprinted,hbridged⟩ := h.clients
      exact ⟨hended,hreplayed,hexpect,hprinted,hbridged⟩

/-- The same without captured bytes. -/
theorem Good.moveStream (h : w.Good run base) {i : ℕ} {s s' : Stream} (hs : w.streams[i]? = some s)
    (hpane : s'.pane = s.pane) (hreader : s'.reader = s.reader)
    (hconserves : s'.Conserves (w.isCounting s) (capturedOf w.captured i))
    (hdrained : w.worker.status.isTerminal = true → s'.buffer = [] ∧ s'.hand = []) :
    Good run base { w with streams := w.streams.set i s' } := by
  have hnone : ∀ c ∈ ([] : List (ℕ × List UInt8)), c.1 = i := by simp
  have hgood : Good run base { w with
      captured := w.captured ++ [], streams := w.streams.set i s' } :=
    h.setStream hs hpane hreader hnone (by simp) id (by simpa using hconserves) hdrained (.inr rfl)
  rwa [List.append_nil] at hgood

/-- A step of `expect` reaches a conclusion only from a terminal status, with the log read
as it is. -/
theorem Good.setExpect (h : w.Good run base) {i : ℕ} {x' : Expect}
    (hended : x'.phase = .draining ∨ x'.phase = .returned 1 → w.worker.status.isTerminal = true)
    (hexpect : x'.phase = .returned 1 →
      x'.isMatch (logText run.strip x'.raw ((w.file.getD []).drop x'.since)) = false)
    (hread : x'.HasRead run.strip w.disk.log) :
    Good run base { w with expects := w.expects.set i x' } := by
  obtain ⟨hold,hreplayed,hkept,hprinted,hbridged⟩ := h.clients
  refine ⟨h.settled,h.log,h.opened,h.streams,h.captured,h.drained,
    ⟨?_,hreplayed,?_,hprinted,hbridged⟩,?_⟩
  · intro x hx hp
    rcases List.mem_or_eq_of_mem_set hx with hx | rfl
    · exact hold x hx hp
    · exact hended hp
  · intro x hx hp
    rcases List.mem_or_eq_of_mem_set hx with hx | rfl
    · exact hkept x hx hp
    · exact hexpect hp
  · intro x hx
    rcases List.mem_or_eq_of_mem_set hx with hx | rfl
    · exact h.read x hx
    · exact hread

end OutputWorld

/-- Where a step of `expect` may lead. -/
theorem Expect.step_concludes {strip : List UInt8 → List UInt8} {file : Option (List UInt8)}
    {finished : Bool} {x x' : Expect} (h : x.step strip file finished = some x') :
    (x'.phase = .draining → finished = true) ∧ (x'.phase = .returned 1 → x.phase = .draining ∧
      x' = { x with phase := .returned 1 } ∧
      x.isMatch (x.buf ++ (readSlice strip file x.off x.raw).1) = false) := by
  unfold Expect.step at h
  cases hp : x.phase with
  | scanning =>
    simp only [hp] at h
    obtain rfl := Option.some.inj h
    dsimp only
    split_ifs <;> simp
  | checking =>
    simp only [hp] at h
    obtain rfl := Option.some.inj h
    cases finished <;> simp
  | waiting =>
    simp only [hp] at h
    obtain rfl := Option.some.inj h
    simp
  | draining =>
    simp only [hp] at h
    obtain rfl := Option.some.inj h
    dsimp only
    split_ifs with hmatch <;> simp_all
  | returned code =>
    simp only [hp] at h
    cases h

namespace OutputWorld
variable {run : OutputRun} {base : List UInt8} {w w' : OutputWorld}

/-- Before the end the command may write. -/
theorem Good.writes (h : w.Good run base) (ht : w.worker.status.isTerminal = false) {i : ℕ}
    {s : Stream} (hs : w.streams[i]? = some s) (data : List UInt8) :
    Good run base { w with streams := w.streams.set i { s with
      wrote := if w.isCounting s then s.wrote ++ data else s.wrote
      buffer := s.buffer ++ data } } := by
  refine h.moveStream hs rfl rfl ((h.streams i s hs).writes data) ?_
  intro hterminal
  rw [ht] at hterminal
  cases hterminal

theorem Good.reads (h : w.Good run base) {i : ℕ} {s : Stream} (hs : w.streams[i]? = some s)
    (hhand : s.hand = []) (n : ℕ) :
    Good run base { w with streams := w.streams.set i { s with
      hand := s.buffer.take n, buffer := s.buffer.drop n } } := by
  refine h.moveStream hs rfl rfl ((h.streams i s hs).reads hhand n) ?_
  intro hterminal
  have hempty := (h.drained hterminal s (List.mem_of_getElem? hs)).1
  simp [hempty]

/-- What a reader has in its hand is in no terminal state, and goes to the log. -/
theorem Good.broadcast (h : w.Good run base) {i : ℕ} {s : Stream} (hs : w.streams[i]? = some s)
    (hreader : s.reader = true) (hhand : s.hand ≠ []) (now : ℕ) (sidecar : WriteResult) :
    Good run base { w with
      hub := (w.hub.broadcast w.disk s.hand ⟨now,.ok,sidecar⟩).1
      disk := (w.hub.broadcast w.disk s.hand ⟨now,.ok,sidecar⟩).2
      captured := w.captured ++ [(i,s.hand)], streams := w.streams.set i { s with hand := [] } } := by
  have ht : w.worker.status.isTerminal = false := by
    by_contra hterminal
    exact hhand (h.drained (Bool.eq_true_of_not_eq_false hterminal) s
      (List.mem_of_getElem? hs)).2
  have hlog := h.opened s (List.mem_of_getElem? hs) hreader
  have hsame : ∀ c ∈ [(i,s.hand)], c.1 = i := by simp
  refine h.setStream hs ?_ ?_ hsame ?_ ?_ ?_ ?_ (.inl ht)
  · rfl
  · rfl
  · simp only [HubInner.broadcast_disk,hlog,if_true,WriteResult.written,List.flatMap_singleton]
  · simp [WriteResult.isOk]
  · rw [List.flatMap_singleton]
    exact (h.streams i s hs).broadcast
  · intro hterminal
    rw [ht] at hterminal
    cases hterminal

theorem Good.expectStarts (h : w.Good run base) (isMatch : List Char → Bool) (raw : Bool)
    (since : ℕ) : Good run base { w with
      expects := w.expects ++ [⟨isMatch,raw,since,since,[],.scanning⟩] } := by
  obtain ⟨hended,hreplayed,hexpect,hprinted,hbridged⟩ := h.clients
  refine ⟨h.settled,h.log,h.opened,h.streams,h.captured,h.drained,
    ⟨?_,hreplayed,?_,hprinted,hbridged⟩,?_⟩
  · intro x hx hp
    rcases List.mem_append.mp hx with hx | hx
    · exact hended x hx hp
    · rw [List.mem_singleton.mp hx] at hp
      simp at hp
  · intro x hx hp
    rcases List.mem_append.mp hx with hx | hx
    · exact hexpect x hx hp
    · rw [List.mem_singleton.mp hx] at hp
      cases hp
  · intro x hx
    rcases List.mem_append.mp hx with hx | hx
    · exact h.read x hx
    · rw [List.mem_singleton.mp hx]
      exact ⟨since,Nat.le_refl _,[],rfl,.inr rfl,List.forall_mem_nil _,rfl⟩

/-- Replays of a finished session. -/
theorem Good.replays (h : w.Good run base) (hterminal : w.worker.status.isTerminal = true)
    {printed : List (List UInt8)} {bridged : List (Option ℕ × List Frame)}
    (hprinted : ∀ bytes ∈ printed, bytes = w.disk.log)
    (hbridged : ∀ b ∈ bridged, b.2 = finishedFrames w.disk.log w.worker.status b.1) :
    Good run base { w with
      printed := w.printed ++ printed, bridged := w.bridged ++ bridged } := by
  obtain ⟨hended,-,hexpect,hp,hb⟩ := h.clients
  refine ⟨h.settled,h.log,h.opened,h.streams,h.captured,h.drained,
    ⟨hended,?_,hexpect,?_,?_⟩,h.read⟩
  · intro hf
    dsimp only at hf
    rw [hterminal] at hf
    cases hf
  · intro bytes hbytes
    exact (List.mem_append.mp hbytes).elim (hp bytes) (hprinted bytes)
  · intro b hmem
    exact (List.mem_append.mp hmem).elim (hb b) (hbridged b)

theorem good_step (w : OutputWorld) (e : OutputEvent) (w' : OutputWorld)
    (hstep : w.step run e = some w') (hcond : w.NothingMissed run e) (h : w.Good run base) :
    w'.Good run base := by
  cases e with
  | worker e sidecar => exact h.workerStep hcond hstep
  | writes i data =>
    simp only [step,Option.bind_eq_bind,Option.bind_eq_some_iff] at hstep
    obtain ⟨s,hs,hstep⟩ := hstep
    obtain rfl := Option.some.inj hstep
    exact h.writes hcond hs data
  | reads i n =>
    simp only [step,Option.bind_eq_bind,Option.bind_eq_some_iff] at hstep
    obtain ⟨s,hs,hstep⟩ := hstep
    split_ifs at hstep with hready
    obtain rfl := Option.some.inj hstep
    exact h.reads hs hready.2.2.1 n
  | broadcast i now sidecar =>
    simp only [step,Option.bind_eq_bind,Option.bind_eq_some_iff] at hstep
    obtain ⟨s,hs,hstep⟩ := hstep
    split_ifs at hstep with hready
    obtain rfl := Option.some.inj hstep
    exact h.broadcast hs hready.1 hready.2.2 now sidecar
  | logFails i now written error => exact absurd hcond id
  | expectStarts isMatch raw since =>
    obtain rfl := Option.some.inj hstep
    exact h.expectStarts isMatch raw since
  | expectSteps i readable =>
    simp only [step,Option.bind_eq_bind,Option.bind_eq_some_iff] at hstep
    obtain ⟨x,hx,x',hx',hstep⟩ := hstep
    obtain rfl := Option.some.inj hstep
    obtain ⟨hdraining,hreturned⟩ := Expect.step_concludes hx'
    have hfile : w.file = none ∨ w.file = some w.disk.log := by
      unfold file
      split_ifs <;> simp
    refine h.setExpect ?_ ?_ ((h.read x (List.mem_of_getElem? hx)).step hfile hx')
    · rintro (hp | hp)
      · exact (Bool.and_eq_true_iff.mp (hdraining hp)).2
      · exact h.clients.ended x (List.mem_of_getElem? hx) (.inl (hreturned hp).1)
    · intro hp
      obtain ⟨hphase,rfl,hnone⟩ := hreturned hp
      have hall : x.ReadsAll run.strip w.file := hcond x hx hphase
      rw [hall] at hnone
      exact hnone
  | expectTimesOut i =>
    simp only [step,Option.bind_eq_bind,Option.bind_eq_some_iff] at hstep
    obtain ⟨x,hx,hstep⟩ := hstep
    split_ifs at hstep
    obtain rfl := Option.some.inj hstep
    exact h.setExpect (by simp) (by simp) (h.read x (List.mem_of_getElem? hx))
  | fallback =>
    simp only [step] at hstep
    split_ifs at hstep with hterminal
    obtain rfl := Option.some.inj hstep
    have hgood := h.replays hterminal
      (List.forall_mem_singleton.mpr rfl : ∀ bytes ∈ [w.disk.log], bytes = w.disk.log)
      (List.forall_mem_nil _)
    rwa [List.append_nil] at hgood
  | bridge since =>
    simp only [step] at hstep
    split_ifs at hstep with hterminal
    obtain rfl := Option.some.inj hstep
    rw [frameReader_writeFrames hcond]
    have hgood := h.replays hterminal (List.forall_mem_nil _)
      (List.forall_mem_singleton.mpr rfl : ∀ b ∈ [(since,
        finishedFrames w.disk.log w.worker.status since)], b.2 = finishedFrames _ _ b.1)
    rwa [List.append_nil] at hgood

/-- In a run that drains all streams before it records a terminal status, in which nothing is
written to them afterwards, log writes succeed, `expect` reads all of the log in the end and the
frames of a bridge fit, a terminal status implies in every state that the output is on disk. -/
theorem always_outputRecorded (run : OutputRun) (disk : Disk) (opened : Bool)
    (es : List OutputEvent)
    (hmeets : Transition.Meets (step run) (NothingMissed run) (start disk opened) es) :
    Transition.Always (step run) (OutputRecorded run disk.log) (start disk opened) es :=
  Transition.always_of_meets good_step (fun _ h => h.outputRecorded) hmeets
    (good_start disk opened)

/-- A command in a terminal, with the regex `A`. -/
def terminalRun : OutputRun := ⟨⟨false,false⟩,true,id⟩

/-- The output is read and logged before the command's exit is; then an `expect` finds no `B`. -/
def drainedRun : List OutputEvent :=
  [.worker (.spawned none) true,.worker (.record none) true,.worker (.served none) true,
    .writes 0 [65],.worker (.pane 0 (.exits (.exited 0))) true,.reads 0 1,.broadcast 0 0 .ok,
    .worker (.pane 0 .reaped) true,.worker (.pane 0 .notifies) true,.worker .exitNotified true,
    .worker (.record none) true,.fallback,.bridge (some 0),
    .expectStarts (fun text => text.contains 'B') true 0,.expectSteps 0 true,.expectSteps 0 true,
    .expectSteps 0 true]

theorem always_outputRecorded_drained :
    Transition.Always (step terminalRun) (OutputRecorded terminalRun []) (start ⟨[],[]⟩ false)
      drainedRun :=
  always_outputRecorded terminalRun ⟨[],[]⟩ false drainedRun (by decide +kernel)

/-- The command prints `A` and exits, and its exit is recorded before its output is read;
`expect`, a fallback and a bridge of the finished session are faster than the reader. -/
def undrainedRun : List OutputEvent :=
  [.worker (.spawned none) true,.worker (.record none) true,.worker (.served none) true,
    .expectStarts (fun text => text.contains 'A') true 0,.writes 0 [65],
    .worker (.pane 0 (.exits (.exited 0))) true,.worker (.pane 0 .reaped) true,
    .worker (.pane 0 .notifies) true,.worker .exitNotified true,.worker (.record none) true,
    .expectSteps 0 true,.expectSteps 0 true,.expectSteps 0 true,.fallback,.bridge none,
    .reads 0 1,.broadcast 0 0 .ok]

/-- The status is terminal while the log is empty, and `expect` and the replays miss an
output that the log has in the end. -/
theorem exit_before_drain_misses_output :
    (∃ w, Transition.exec (step terminalRun) (start ⟨[],[]⟩ false) (undrainedRun.take 10) = some w ∧
      w.worker.status.state = .exited ∧ w.streams.map Stream.wrote = [[65]] ∧ w.disk.log = []) ∧
    (∃ w, Transition.exec (step terminalRun) (start ⟨[],[]⟩ false) undrainedRun = some w ∧
      w.disk.log = [65] ∧ w.expects.map Expect.phase = [.returned 1] ∧
      w.expects.map (fun x => x.isMatch (Utf8.decodeLossy w.disk.log)) = [true] ∧
      w.printed = [[]] ∧ w.bridged = [(none,finishedFrames [] w.worker.status none)]) ∧
    ¬Transition.Always (step terminalRun) (OutputRecorded terminalRun []) (start ⟨[],[]⟩ false)
      undrainedRun := by
  refine ⟨⟨_,rfl,rfl,rfl,rfl⟩,⟨_,rfl,rfl,rfl,?_,rfl,rfl⟩,?_⟩
  · decide +kernel
  · intro h
    have := (h.last rfl).printed [] (by decide +kernel)
    revert this
    decide +kernel

end OutputWorld
end Babysit
