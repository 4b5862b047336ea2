import Babysit.Lib.Transition
import Babysit.LogReads
import Babysit.TerminalOutput

/-! `expect` on the output stream and on the rendered screen. An ordinary poll that finds a
match prints it; the last look, after the session has finished, only returns. -/
namespace Babysit

/-- What a match prints: its text, or a JSON object with the text and, for the stream, the
offset behind what was read. -/
inductive ExpectReport
  | text (matched : List Char)
  | json (matched : List Char) (offset : Option ℕ)
  deriving DecidableEq

/-- The arguments of `expect`. `find` is `Regex::find`, with the text of the match. -/
structure ExpectConfig where
  id : String
  pattern : String
  find : List Char → Option (List Char)
  strip : List UInt8 → List UInt8
  deadline : Bool
  since : Option ℕ
  fromNow : Bool
  raw : Bool
  json : Bool

def ExpectConfig.report (cfg : ExpectConfig) (matched : List Char) (offset : Option ℕ) :
    ExpectReport :=
  if cfg.json then .json matched offset else .text matched

/-- Where scanning begins. -/
def ExpectConfig.startOffset (cfg : ExpectConfig) (f : LogFile) : ℕ :=
  match cfg.since with
  | some o => o
  | none => if cfg.fromNow then f.length else 0

/-- What both loops share: the step they are at, and what they have printed. -/
structure ExpectLoop where
  phase : ExpectPhase
  stdout : List ExpectReport
  stderr : List String
  deriving DecidableEq

namespace ExpectLoop

def start : ExpectLoop := ⟨.scanning,[],[]⟩

/-- The branch of an ordinary poll on what it found. -/
def look (cfg : ExpectConfig) (l : ExpectLoop) (offset : Option ℕ) :
    Option (List Char) → ExpectLoop
  | some m => { l with stdout := l.stdout ++ [cfg.report m offset], phase := .returned 0 }
  | none => { l with phase := .checking }

def check (l : ExpectLoop) (finished : Bool) : ExpectLoop :=
  { l with phase := if finished then .draining else .waiting }

/-- The branch of the last look: a match is returned and not printed. -/
def lookAgain (cfg : ExpectConfig) (l : ExpectLoop) (place : String) (found : Bool) : ExpectLoop :=
  if found then { l with phase := .returned 0 }
  else { l with
    stderr := l.stderr ++
      ["babysit: session " ++ cfg.id ++ " ended before matching /" ++ cfg.pattern ++ "/" ++ place]
    phase := .returned 1 }

def time (cfg : ExpectConfig) (l : ExpectLoop) (place : String) (passed : Bool) : ExpectLoop :=
  if cfg.deadline ∧ passed then { l with
    stderr := l.stderr ++
      ["babysit: timed out waiting for /" ++ cfg.pattern ++ "/" ++ place ++ " session " ++ cfg.id]
    phase := .returned 124 }
  else { l with phase := .scanning }

/-- A success has printed the match, once; without one nothing is printed. -/
structure Honest (cfg : ExpectConfig) (found : Option (List Char)) (offset : Option ℕ)
    (l : ExpectLoop) : Prop where
  reported : l.phase = .returned 0 → ∃ m, found = some m ∧ l.stdout = [cfg.report m offset]
  silent : l.phase ≠ .returned 0 → l.stdout = []

variable {cfg : ExpectConfig} {l : ExpectLoop} {found : Option (List Char)} {offset : Option ℕ}

theorem honest_of_silent (hphase : l.phase ≠ .returned 0) (h : l.stdout = []) :
    l.Honest cfg found offset :=
  ⟨fun hreturned => absurd hreturned hphase,fun _ => h⟩

theorem honest_look (h : l.stdout = []) (found : Option (List Char)) (offset : Option ℕ) :
    (l.look cfg offset found).Honest cfg found offset := by
  cases found with
  | none => exact honest_of_silent nofun h
  | some m => exact ⟨fun _ => ⟨m,rfl,by simp [look,h]⟩,fun hne => absurd rfl hne⟩

theorem honest_check (h : l.stdout = []) (finished : Bool) :
    (l.check finished).Honest cfg found offset := by
  cases finished <;> exact honest_of_silent nofun h

theorem honest_time (h : l.stdout = []) (place : String) (passed : Bool) :
    (l.time cfg place passed).Honest cfg found offset := by
  unfold time
  split_ifs
  · exact honest_of_silent nofun h
  · exact honest_of_silent nofun h

theorem phase_lookAgain (cfg : ExpectConfig) (l : ExpectLoop) (place : String) (found : Bool) :
    (l.lookAgain cfg place found).phase = .returned (if found then 0 else 1) := by
  cases found <;> rfl

theorem stdout_lookAgain (h : l.stdout = []) (place : String) (found : Bool) :
    (l.lookAgain cfg place found).stdout = [] := by
  cases found <;> exact h

/-- The last look is honest when it finds nothing. -/
theorem honest_lookAgain_iff (h : l.stdout = []) (place : String) :
    (l.lookAgain cfg place found.isSome).Honest cfg found offset ↔ found = none := by
  cases found with
  | none => exact iff_of_true (honest_of_silent nofun h) rfl
  | some m =>
    refine iff_of_false (fun hhonest => ?_) nofun
    obtain ⟨_,-,hprinted⟩ := hhonest.reported rfl
    exact absurd (h.symm.trans hprinted) (List.cons_ne_nil _ _).symm

end ExpectLoop

/-- The stream form. Ghost: the reads so far. -/
structure ExpectWorld where
  file : LogFile
  off : ℕ
  buf : List Char
  loop : ExpectLoop
  reads : List SliceRead

/-- `passed` tells whether the deadline, if there is one, has passed. -/
inductive ExpectEvent
  | file (e : LogFileEvent)
  | poll (passed : Bool)

namespace ExpectWorld

def start (cfg : ExpectConfig) (f : LogFile) : ExpectWorld :=
  ⟨f,cfg.startOffset f,[],.start,[]⟩

/-- An ordinary poll. -/
def look (cfg : ExpectConfig) (w : ExpectWorld) : ExpectWorld :=
  let r := w.file.slice cfg.strip w.off cfg.raw
  let w := { w with off := r.next, reads := w.reads ++ [r] }
  if r.text = [] then { w with loop := w.loop.look cfg (some w.off) none }
  else
    let w := { w with buf := w.buf ++ r.text }
    { w with loop := w.loop.look cfg (some w.off) (cfg.find w.buf) }

/-- The drain once the session is finished: the offset of its read is dropped. -/
def lookAgain (cfg : ExpectConfig) (w : ExpectWorld) : ExpectWorld :=
  let tail := w.file.slice cfg.strip w.off cfg.raw
  let w := { w with buf := w.buf ++ tail.text, reads := w.reads ++ [tail] }
  { w with loop := w.loop.lookAgain cfg "" (cfg.find w.buf).isSome }

def step (cfg : ExpectConfig) (w : ExpectWorld) : ExpectEvent → Option ExpectWorld
  | .file e => some { w with file := w.file.after e }
  | .poll passed =>
    match w.loop.phase with
    | .scanning => some (w.look cfg)
    | .checking => some { w with loop := w.loop.check w.file.finished }
    | .draining => some (w.lookAgain cfg)
    | .waiting => some { w with loop := w.loop.time cfg " in" passed }
    | .returned _ => none

/-- A success has printed what the pattern matches in all that was read, once. -/
def Reported (cfg : ExpectConfig) (w : ExpectWorld) : Prop :=
  w.loop.phase = .returned 0 →
    ∃ m, cfg.find w.buf = some m ∧ w.loop.stdout = [cfg.report m (some w.off)]

/-- What the drain adds to the text does not make it match. -/
def DrainUnmatched (cfg : ExpectConfig) (w : ExpectWorld) : ExpectEvent → Prop
  | .file _ => True
  | .poll _ => w.loop.phase = .draining →
      cfg.find (w.buf ++ (w.file.slice cfg.strip w.off cfg.raw).text) = none

def Honest (cfg : ExpectConfig) (w : ExpectWorld) : Prop :=
  w.loop.Honest cfg (cfg.find w.buf) (some w.off)

variable {cfg : ExpectConfig} {w w' : ExpectWorld} {e : ExpectEvent}

/-- What one step can do. -/
theorem step_cases (h : w.step cfg e = some w') :
    (∃ d, e = .file d ∧ w' = { w with file := w.file.after d }) ∨
      ∃ passed, e = .poll passed ∧ w.loop.phase ≠ .returned 0 ∧
        ((w.loop.phase = .scanning ∧ w' = w.look cfg) ∨
        (w.loop.phase = .draining ∧ w' = w.lookAgain cfg) ∨
        ((w.loop.phase = .checking ∨ w.loop.phase = .waiting) ∧
          ∃ l, w' = { w with loop := l } ∧ (w.loop.stdout = [] →
            ∀ found offset, l.Honest cfg found offset))) := by
  cases e with
  | file d => exact .inl ⟨d,rfl,(Option.some.inj h).symm⟩
  | poll passed =>
    refine .inr ⟨passed,rfl,?_⟩
    simp only [step] at h
    split at h
    next hphase => exact ⟨by rw [hphase]; decide,.inl ⟨hphase,(Option.some.inj h).symm⟩⟩
    next hphase =>
      exact ⟨by rw [hphase]; decide,.inr (.inr ⟨.inl hphase,_,(Option.some.inj h).symm,
        fun hsilent _ _ => ExpectLoop.honest_check hsilent _⟩)⟩
    next hphase => exact ⟨by rw [hphase]; decide,.inr (.inl ⟨hphase,(Option.some.inj h).symm⟩)⟩
    next hphase =>
      exact ⟨by rw [hphase]; decide,.inr (.inr ⟨.inr hphase,_,(Option.some.inj h).symm,
        fun hsilent _ _ => ExpectLoop.honest_time hsilent _ _⟩)⟩
    next => cases h

theorem honest_look (h : w.loop.stdout = []) : (w.look cfg).Honest cfg := by
  unfold look Honest
  dsimp only
  split_ifs
  · exact ExpectLoop.honest_of_silent nofun h
  · exact ExpectLoop.honest_look h _ _

theorem honest_lookAgain_iff (h : w.loop.stdout = []) : (w.lookAgain cfg).Honest cfg ↔
    cfg.find (w.buf ++ (w.file.slice cfg.strip w.off cfg.raw).text) = none :=
  ExpectLoop.honest_lookAgain_iff h ""

theorem honest_step (w : ExpectWorld) (e : ExpectEvent) (w' : ExpectWorld)
    (hstep : w.step cfg e = some w') (hdrain : w.DrainUnmatched cfg e) (h : w.Honest cfg) :
    w'.Honest cfg := by
  rcases step_cases hstep with ⟨d,rfl,rfl⟩ | ⟨passed,rfl,hphase,hcases⟩
  · exact h
  · have hsilent := h.silent hphase
    rcases hcases with ⟨-,rfl⟩ | ⟨hagain,rfl⟩ | ⟨-,l,rfl,hl⟩
    · exact honest_look hsilent
    · exact (honest_lookAgain_iff hsilent).mpr (hdrain hagain)
    · exact hl hsilent _ _

/-- A drain that matches returns 0, and nothing was printed. -/
theorem not_reported (w : ExpectWorld) (e : ExpectEvent) (w' : ExpectWorld)
    (hstep : w.step cfg e = some w') (hdrain : ¬w.DrainUnmatched cfg e) (h : w.Honest cfg) :
    ¬w'.Reported cfg := by
  rcases step_cases hstep with ⟨d,rfl,rfl⟩ | ⟨passed,rfl,hphase,hcases⟩
  · exact absurd trivial hdrain
  · simp only [DrainUnmatched,Classical.not_imp] at hdrain
    obtain ⟨hagain,hmatch⟩ := hdrain
    have hsilent := h.silent hphase
    rcases hcases with ⟨hlooking,-⟩ | ⟨-,rfl⟩ | ⟨hother,-⟩
    · rw [hagain] at hlooking
      cases hlooking
    · intro hreported
      exact hmatch ((honest_lookAgain_iff hsilent).mp
        ⟨hreported,fun _ => ExpectLoop.stdout_lookAgain hsilent _ _⟩)
    · rw [hagain] at hother
      rcases hother with hother | hother <;> cases hother

theorem honest_start (cfg : ExpectConfig) (f : LogFile) : (start cfg f).Honest cfg :=
  ExpectLoop.honest_of_silent nofun rfl

theorem look_fields (cfg : ExpectConfig) (w : ExpectWorld) : (w.look cfg).file = w.file ∧
    (w.look cfg).off = (w.file.slice cfg.strip w.off cfg.raw).next ∧
    (w.look cfg).reads = w.reads ++ [w.file.slice cfg.strip w.off cfg.raw] ∧
    (w.look cfg).buf = w.buf ++ (w.file.slice cfg.strip w.off cfg.raw).text := by
  unfold look
  dsimp only
  split_ifs with hempty
  · exact ⟨rfl,rfl,rfl,by rw [hempty,List.append_nil]⟩
  · exact ⟨rfl,rfl,rfl,rfl⟩

theorem phase_look (cfg : ExpectConfig) (w : ExpectWorld) : (w.look cfg).loop.phase =
    if (w.file.slice cfg.strip w.off cfg.raw).text ≠ [] ∧
      (cfg.find (w.buf ++ (w.file.slice cfg.strip w.off cfg.raw).text)).isSome
    then .returned 0 else .checking := by
  unfold look
  dsimp only
  split_ifs with hempty hmatch hmatch
  · exact absurd hempty hmatch.1
  · rfl
  · obtain ⟨m,hm⟩ := Option.isSome_iff_exists.mp hmatch.2
    rw [hm]
    rfl
  · have hnone : cfg.find (w.buf ++ (w.file.slice cfg.strip w.off cfg.raw).text) = none :=
      Option.not_isSome_iff_eq_none.mp fun hsome => hmatch ⟨hempty,hsome⟩
    rw [hnone]
    rfl

/-- The call as the worker's output knows it: its code, without what it prints. -/
structure Agrees (cfg : ExpectConfig) (w : ExpectWorld) (x : Expect) : Prop where
  isMatch : x.isMatch = fun text => (cfg.find text).isSome
  raw : x.raw = cfg.raw
  off : x.off = w.off
  phase : x.phase = w.loop.phase
  buf : (∀ code, x.phase ≠ .returned code) → x.buf = w.buf

theorem agrees_start (cfg : ExpectConfig) (f : LogFile) : (start cfg f).Agrees cfg
    ⟨fun text => (cfg.find text).isSome,cfg.raw,cfg.startOffset f,cfg.startOffset f,[],.scanning⟩ :=
  ⟨rfl,rfl,rfl,rfl,fun _ => rfl⟩

/-- Both take the same step, or the deadline has passed. -/
theorem Agrees.step {x : Expect} {passed : Bool} (h : w.Agrees cfg x)
    (hstep : w.step cfg (.poll passed) = some w') :
    (∃ x', x.step cfg.strip w.file.bytes w.file.finished = some x' ∧ w'.Agrees cfg x') ∨
      (x.phase = .waiting ∧ w'.Agrees cfg { x with phase := .returned 124 }) := by
  obtain ⟨isMatch,raw,since,off,buf,phase⟩ := x
  obtain ⟨rfl,rfl,rfl,rfl,hbuf⟩ := h
  dsimp only at hbuf
  simp only [ExpectWorld.step] at hstep
  split at hstep
  next hphase =>
    obtain rfl := Option.some.inj hstep
    obtain rfl := hbuf fun code => by rw [hphase]; exact nofun
    simp only [Expect.step,hphase]
    obtain ⟨-,hoff,-,hnext⟩ := look_fields cfg w
    exact .inl ⟨_,rfl,rfl,rfl,hoff.symm,(phase_look cfg w).symm,fun _ => hnext.symm⟩
  next hphase =>
    obtain rfl := Option.some.inj hstep
    obtain rfl := hbuf fun code => by rw [hphase]; exact nofun
    simp only [Expect.step,hphase]
    exact .inl ⟨_,rfl,rfl,rfl,rfl,rfl,fun _ => rfl⟩
  next hphase =>
    obtain rfl := Option.some.inj hstep
    obtain rfl := hbuf fun code => by rw [hphase]; exact nofun
    simp only [Expect.step,hphase]
    refine .inl ⟨_,rfl,rfl,rfl,rfl,?_,fun hcode => absurd rfl (hcode _)⟩
    exact (w.loop.phase_lookAgain cfg "" _).symm
  next hphase =>
    obtain rfl := Option.some.inj hstep
    obtain rfl := hbuf fun code => by rw [hphase]; exact nofun
    by_cases hpassed : cfg.deadline ∧ passed
    · refine .inr ⟨hphase,rfl,rfl,rfl,?_,fun hcode => absurd rfl (hcode _)⟩
      simp only [ExpectLoop.time,if_pos hpassed]
    · simp only [Expect.step,hphase]
      refine .inl ⟨_,rfl,rfl,rfl,rfl,?_,fun _ => rfl⟩
      simp only [ExpectLoop.time,if_neg hpassed]
  next => cases hstep

end ExpectWorld

/-- The screen form; `screen` is the text of the last look. -/
structure ExpectScreenWorld where
  finished : Bool
  screen : List Char
  loop : ExpectLoop

/-- `screen` is what `current_screen_text` returns, where the step asks for it. -/
inductive ExpectScreenEvent
  | status (terminal : Bool)
  | poll (screen : List Char) (passed : Bool)

namespace ExpectScreenWorld

def start : ExpectScreenWorld := ⟨false,[],.start⟩

def look (cfg : ExpectConfig) (w : ExpectScreenWorld) (screen : List Char) : ExpectScreenWorld :=
  { w with screen := screen, loop := w.loop.look cfg none (cfg.find screen) }

/-- One last look once the session is finished. -/
def lookAgain (cfg : ExpectConfig) (w : ExpectScreenWorld) (screen : List Char) :
    ExpectScreenWorld :=
  { w with
    screen := screen
    loop := w.loop.lookAgain cfg " on screen" (cfg.find screen).isSome }

def step (cfg : ExpectConfig) (w : ExpectScreenWorld) : ExpectScreenEvent → Option ExpectScreenWorld
  | .status terminal => some { w with finished := terminal }
  | .poll screen passed =>
    match w.loop.phase with
    | .scanning => some (w.look cfg screen)
    | .checking => some { w with loop := w.loop.check w.finished }
    | .draining => some (w.lookAgain cfg screen)
    | .waiting => some { w with loop := w.loop.time cfg " on screen of" passed }
    | .returned _ => none

/-- A success has printed what the pattern matches on the screen last seen, once. -/
def Reported (cfg : ExpectConfig) (w : ExpectScreenWorld) : Prop :=
  w.loop.phase = .returned 0 →
    ∃ m, cfg.find w.screen = some m ∧ w.loop.stdout = [cfg.report m none]

/-- The last look does not match. -/
def LastLookUnmatched (cfg : ExpectConfig) (w : ExpectScreenWorld) : ExpectScreenEvent → Prop
  | .status _ => True
  | .poll screen _ => w.loop.phase = .draining → cfg.find screen = none

def Honest (cfg : ExpectConfig) (w : ExpectScreenWorld) : Prop :=
  w.loop.Honest cfg (cfg.find w.screen) none

variable {cfg : ExpectConfig} {w w' : ExpectScreenWorld} {e : ExpectScreenEvent}

theorem step_cases (h : w.step cfg e = some w') :
    (∃ terminal, e = .status terminal ∧ w' = { w with finished := terminal }) ∨
      ∃ screen passed, e = .poll screen passed ∧ w.loop.phase ≠ .returned 0 ∧
        ((w.loop.phase = .scanning ∧ w' = w.look cfg screen) ∨
        (w.loop.phase = .draining ∧ w' = w.lookAgain cfg screen) ∨
        ((w.loop.phase = .checking ∨ w.loop.phase = .waiting) ∧
          ∃ l, w' = { w with loop := l } ∧ (w.loop.stdout = [] →
            ∀ found offset, l.Honest cfg found offset))) := by
  cases e with
  | status terminal => exact .inl ⟨terminal,rfl,(Option.some.inj h).symm⟩
  | poll screen passed =>
    refine .inr ⟨screen,passed,rfl,?_⟩
    simp only [step] at h
    split at h
    next hphase => exact ⟨by rw [hphase]; decide,.inl ⟨hphase,(Option.some.inj h).symm⟩⟩
    next hphase =>
      exact ⟨by rw [hphase]; decide,.inr (.inr ⟨.inl hphase,_,(Option.some.inj h).symm,
        fun hsilent _ _ => ExpectLoop.honest_check hsilent _⟩)⟩
    next hphase => exact ⟨by rw [hphase]; decide,.inr (.inl ⟨hphase,(Option.some.inj h).symm⟩)⟩
    next hphase =>
      exact ⟨by rw [hphase]; decide,.inr (.inr ⟨.inr hphase,_,(Option.some.inj h).symm,
        fun hsilent _ _ => ExpectLoop.honest_time hsilent _ _⟩)⟩
    next => cases h

theorem honest_lookAgain_iff (h : w.loop.stdout = []) (screen : List Char) :
    (w.lookAgain cfg screen).Honest cfg ↔ cfg.find screen = none :=
  ExpectLoop.honest_lookAgain_iff h " on screen"

theorem honest_step (w : ExpectScreenWorld) (e : ExpectScreenEvent) (w' : ExpectScreenWorld)
    (hstep : w.step cfg e = some w') (hlast : w.LastLookUnmatched cfg e) (h : w.Honest cfg) :
    w'.Honest cfg := by
  rcases step_cases hstep with ⟨_,rfl,rfl⟩ | ⟨screen,passed,rfl,hphase,hcases⟩
  · exact h
  · have hsilent := h.silent hphase
    rcases hcases with ⟨-,rfl⟩ | ⟨hagain,rfl⟩ | ⟨-,l,rfl,hl⟩
    · exact ExpectLoop.honest_look hsilent _ _
    · exact (honest_lookAgain_iff hsilent screen).mpr (hlast hagain)
    · exact hl hsilent _ _

theorem not_reported (w : ExpectScreenWorld) (e : ExpectScreenEvent) (w' : ExpectScreenWorld)
    (hstep : w.step cfg e = some w') (hlast : ¬w.LastLookUnmatched cfg e) (h : w.Honest cfg) :
    ¬w'.Reported cfg := by
  rcases step_cases hstep with ⟨_,rfl,rfl⟩ | ⟨screen,passed,rfl,hphase,hcases⟩
  · exact absurd trivial hlast
  · simp only [LastLookUnmatched,Classical.not_imp] at hlast
    obtain ⟨hagain,hmatch⟩ := hlast
    have hsilent := h.silent hphase
    rcases hcases with ⟨hlooking,-⟩ | ⟨-,rfl⟩ | ⟨hother,-⟩
    · rw [hagain] at hlooking
      cases hlooking
    · intro hreported
      exact hmatch ((honest_lookAgain_iff hsilent screen).mp
        ⟨hreported,fun _ => ExpectLoop.stdout_lookAgain hsilent _ _⟩)
    · rw [hagain] at hother
      rcases hother with hother | hother <;> cases hother

theorem honest_start (cfg : ExpectConfig) : start.Honest cfg :=
  ExpectLoop.honest_of_silent nofun rfl

end ExpectScreenWorld

/-- In either form a success has always printed the match, if and only if no run ends in a
last look that matches. -/
theorem always_reported_iff (cfg : ExpectConfig) :
    (∀ f es, Transition.Always (ExpectWorld.step cfg) (ExpectWorld.Reported cfg)
        (ExpectWorld.start cfg f) es ↔
      Transition.Meets (ExpectWorld.step cfg) (ExpectWorld.DrainUnmatched cfg)
        (ExpectWorld.start cfg f) es) ∧
    ∀ es, Transition.Always (ExpectScreenWorld.step cfg) (ExpectScreenWorld.Reported cfg)
        ExpectScreenWorld.start es ↔
      Transition.Meets (ExpectScreenWorld.step cfg) (ExpectScreenWorld.LastLookUnmatched cfg)
        ExpectScreenWorld.start es :=
  ⟨fun f es => Transition.always_iff_meets (fun _ h => h.reported) ExpectWorld.honest_step
      ExpectWorld.not_reported (ExpectWorld.honest_start cfg f) es,
    fun es => Transition.always_iff_meets (fun _ h => h.reported) ExpectScreenWorld.honest_step
      ExpectScreenWorld.not_reported (ExpectScreenWorld.honest_start cfg) es⟩

/-- Waiting for a text that is not empty, with JSON output. -/
def expectAny : ExpectConfig where
  id := "s"
  pattern := "(?s).+"
  find text := if text = [] then none else some text
  strip := id
  deadline := true
  since := none
  fromNow := false
  raw := true
  json := true

/-- The marker is written, and the session finishes, between a poll and the check behind it. -/
def lateMarker : List ExpectEvent :=
  [.poll false,.file (.grow [111,107]),.file (.status true),.poll false,.poll false]

/-- The same on the screen. -/
def lateScreen : List ExpectScreenEvent :=
  [.poll [] false,.status true,.poll [] false,.poll ['o','k'] false]

theorem late_match_is_not_printed :
    (∃ w, Transition.exec (ExpectWorld.step expectAny) (ExpectWorld.start expectAny .absent)
        lateMarker = some w ∧ w.loop = ⟨.returned 0,[],[]⟩ ∧ ¬w.Reported expectAny) ∧
    ∃ w, Transition.exec (ExpectScreenWorld.step expectAny) ExpectScreenWorld.start lateScreen =
        some w ∧ w.loop = ⟨.returned 0,[],[]⟩ ∧ ¬w.Reported expectAny := by
  constructor
  · refine ⟨_,rfl,by decide +kernel,fun h => ?_⟩
    obtain ⟨m,-,hprinted⟩ := h (by decide +kernel)
    cases hprinted
  · refine ⟨_,rfl,by decide +kernel,fun h => ?_⟩
    obtain ⟨m,-,hprinted⟩ := h (by decide +kernel)
    cases hprinted

end Babysit
