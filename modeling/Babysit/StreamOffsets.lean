import Babysit.Expect
import Babysit.FollowLog

/-! The offsets of the three commands that read the log from an offset on: `expect`,
`log --follow` and `log --since`, polled again from the offset it returns. They move forward
unless the log is found shorter than the offset that was asked for. -/
namespace Babysit
open AppendLog

/-- A caller of `log --since`: each call begins at the offset the last one returned. What is
printed is the filtered text and the new offset. -/
structure SinceWorld where
  file : LogFile
  off : ℕ
  printed : List (List Char × ℕ)
  reads : List SliceRead

inductive SinceEvent
  | file (e : LogFileEvent)
  | call

namespace SinceWorld

def start (off : ℕ) : SinceWorld := ⟨.absent,off,[],[]⟩

/-- One call. -/
def logSince (cfg : FollowConfig) (w : SinceWorld) : SinceWorld :=
  let r := w.file.slice cfg.strip w.off cfg.raw
  { w with
    off := r.next
    printed := w.printed ++ [(grepFilter r.text cfg.re,r.next)]
    reads := w.reads ++ [r] }

def step (cfg : FollowConfig) (w : SinceWorld) : SinceEvent → Option SinceWorld
  | .file e => some { w with file := w.file.after e }
  | .call => some (w.logSince cfg)

end SinceWorld

/-- The reads of a command: the offsets they return never decrease and are never below the
first one, and all text is decoded from bytes of the log at or above it. -/
structure Forward (strip : List UInt8 → List UInt8) (raw : Bool) (log : List UInt8) (first : ℕ)
    (reads : List SliceRead) : Prop where
  ordered : (first::reads.map SliceRead.next).Pairwise (· ≤ ·)
  above : ∀ r ∈ reads, first ≤ r.offset
  decoded : ∀ r ∈ reads, HoldsAt log r.offset r.bytes ∧
    (r.text = logText strip raw r.bytes ∨ r.text = [])

/-- The log is there and shorter than the offset. -/
def LogFile.Short (f : LogFile) (first : ℕ) : Prop := ∃ log ∈ f.bytes, log.length < first

/-- What a command that will read again from `off` has read so far. -/
structure Resumes (strip : List UInt8 → List UInt8) (raw : Bool) (first : ℕ) (f : LogFile)
    (off : ℕ) (reads : List SliceRead) : Prop where
  forward : Forward strip raw (f.bytes.getD []) first reads
  least : first ≤ off
  upto : ∀ r ∈ reads, r.next ≤ off
  within : off = first ∨ off ≤ f.length

section Reads
variable {strip : List UInt8 → List UInt8} {raw : Bool} {first off : ℕ} {f : LogFile}
  {reads : List SliceRead}

theorem resumes_start (strip : List UInt8 → List UInt8) (raw : Bool) (f : LogFile) (first : ℕ) :
    Resumes strip raw first f first [] :=
  ⟨⟨List.pairwise_singleton _ _,by simp,by simp⟩,Nat.le_refl _,by simp,.inl rfl⟩

theorem Resumes.after (h : Resumes strip raw first f off reads) (e : LogFileEvent) :
    Resumes strip raw first (f.after e) off reads := by
  refine ⟨⟨h.forward.ordered,h.forward.above,fun r hr => ?_⟩,h.least,h.upto,
    h.within.imp_right (·.trans (f.length_after e))⟩
  obtain ⟨hholds,htext⟩ := h.forward.decoded r hr
  refine ⟨?_,htext⟩
  cases e with
  | status terminal => exact hholds
  | grow data => exact hholds.append data

/-- A read of a log that is not too short goes on from where the last one stopped. -/
theorem Resumes.read (h : Resumes strip raw first f off reads) (hshort : ¬f.Short first) :
    Resumes strip raw first f (f.slice strip off raw).next (reads++[f.slice strip off raw]) := by
  have hnext : off ≤ (f.slice strip off raw).next ∧
      ((f.slice strip off raw).next = first ∨ (f.slice strip off raw).next ≤ f.length) := by
    cases hbytes : f.bytes with
    | none =>
      rw [LogFile.slice_absent hbytes]
      exact ⟨Nat.le_refl _,h.within⟩
    | some log =>
      have hlong : first ≤ f.length := by
        refine Nat.le_of_not_lt fun hlt => hshort ⟨log,hbytes,?_⟩
        simpa [LogFile.length,hbytes] using hlt
      have hoff : off ≤ f.length := h.within.elim (fun heq => heq ▸ hlong) id
      obtain ⟨hup,hend⟩ := LogFile.slice_next strip raw hoff
      exact ⟨hup,.inr hend⟩
  refine ⟨⟨?_,?_,?_⟩,h.least.trans hnext.1,?_,hnext.2⟩
  · rw [List.map_append,← List.cons_append,List.pairwise_append]
    refine ⟨h.forward.ordered,List.pairwise_singleton _ _,?_⟩
    intro a ha b hb
    obtain rfl : b = (f.slice strip off raw).next := by simpa using hb
    rcases List.mem_cons.mp ha with rfl | ha
    · exact h.least.trans hnext.1
    · obtain ⟨r,hr,rfl⟩ := List.mem_map.mp ha
      exact (h.upto r hr).trans hnext.1
  · intro r hr
    rcases List.mem_append.mp hr with hr | hr
    · exact h.forward.above r hr
    · obtain rfl := List.mem_singleton.mp hr
      exact h.least
  · intro r hr
    rcases List.mem_append.mp hr with hr | hr
    · exact h.forward.decoded r hr
    · obtain rfl := List.mem_singleton.mp hr
      exact LogFile.slice_text strip f off raw
  · intro r hr
    rcases List.mem_append.mp hr with hr | hr
    · exact (h.upto r hr).trans hnext.1
    · obtain rfl := List.mem_singleton.mp hr
      exact Nat.le_refl _

/-- A read of a log that is too short returns its length, which is below the first offset. -/
theorem Resumes.not_forward (h : Resumes strip raw first f off reads) (hshort : f.Short first)
    {log : List UInt8} : ¬Forward strip raw log first (reads++[f.slice strip off raw]) := by
  intro hforward
  obtain ⟨bytes,hbytes,hlt⟩ := hshort
  have hbeyond : bytes.length ≤ off := hlt.le.trans h.least
  have hlast : bytes.length ∈ (reads++[f.slice strip off raw]).map SliceRead.next := by
    rw [LogFile.slice_beyond hbytes hbeyond]
    simp
  have hfirst := (List.pairwise_cons.mp hforward.ordered).1 bytes.length hlast
  omega

end Reads

namespace FollowWorld

/-- The reads move forward, and what is printed is their filtered text. -/
def MovesForward (cfg : FollowConfig) (first : ℕ) (w : FollowWorld) : Prop :=
  Forward cfg.strip cfg.raw (w.file.bytes.getD []) first w.reads ∧
    w.printed = w.reads.flatMap fun r => grepFilter r.text cfg.re

/-- A poll that reads does not find a log shorter than the offset that was asked for. -/
def FindsEnough (first : ℕ) (w : FollowWorld) : FollowEvent → Prop
  | .file _ => True
  | .poll => w.phase = .reading → ¬w.file.Short first

structure Forwarding (cfg : FollowConfig) (first : ℕ) (w : FollowWorld) : Prop where
  resumes : Resumes cfg.strip cfg.raw first w.file w.off w.reads
  printed : w.printed = w.reads.flatMap fun r => grepFilter r.text cfg.re

variable {cfg : FollowConfig} {first : ℕ}

theorem forwarding_step (w : FollowWorld) (e : FollowEvent) (w' : FollowWorld)
    (hstep : w.step cfg e = some w') (henough : w.FindsEnough first e)
    (h : w.Forwarding cfg first) : w'.Forwarding cfg first := by
  rcases step_cases hstep with ⟨d,rfl,rfl⟩ | ⟨rfl,hphase,rfl⟩ | ⟨rfl,advanced,hphase,rfl⟩
  · exact ⟨h.resumes.after d,h.printed⟩
  · refine ⟨h.resumes.read (henough hphase),?_⟩
    simp [read,h.printed]
  · obtain ⟨idle,phase,hcheck⟩ := w.check_kept advanced
    rw [hcheck]
    exact ⟨h.resumes,h.printed⟩

theorem not_movesForward (w : FollowWorld) (e : FollowEvent) (w' : FollowWorld)
    (hstep : w.step cfg e = some w') (hshort : ¬w.FindsEnough first e)
    (h : w.Forwarding cfg first) : ¬w'.MovesForward cfg first := by
  rcases step_cases hstep with ⟨d,rfl,rfl⟩ | ⟨rfl,hphase,rfl⟩ | ⟨rfl,advanced,hphase,rfl⟩
  · exact absurd trivial hshort
  · simp only [FindsEnough,Classical.not_imp,not_not] at hshort
    exact fun hforward => h.resumes.not_forward hshort.2 hforward.1
  · simp only [FindsEnough,Classical.not_imp,not_not] at hshort
    rw [hshort.1] at hphase
    cases hphase

end FollowWorld

namespace SinceWorld

def MovesForward (cfg : FollowConfig) (first : ℕ) (w : SinceWorld) : Prop :=
  Forward cfg.strip cfg.raw (w.file.bytes.getD []) first w.reads ∧
    w.printed = w.reads.map fun r => (grepFilter r.text cfg.re,r.next)

def FindsEnough (first : ℕ) (w : SinceWorld) : SinceEvent → Prop
  | .file _ => True
  | .call => ¬w.file.Short first

structure Forwarding (cfg : FollowConfig) (first : ℕ) (w : SinceWorld) : Prop where
  resumes : Resumes cfg.strip cfg.raw first w.file w.off w.reads
  printed : w.printed = w.reads.map fun r => (grepFilter r.text cfg.re,r.next)

variable {cfg : FollowConfig} {first : ℕ}

theorem forwarding_step (w : SinceWorld) (e : SinceEvent) (w' : SinceWorld)
    (hstep : w.step cfg e = some w') (henough : w.FindsEnough first e)
    (h : w.Forwarding cfg first) : w'.Forwarding cfg first := by
  cases e with
  | file d =>
    obtain rfl := Option.some.inj hstep
    exact ⟨h.resumes.after d,h.printed⟩
  | call =>
    obtain rfl := Option.some.inj hstep
    refine ⟨h.resumes.read henough,?_⟩
    simp [logSince,h.printed]

theorem not_movesForward (w : SinceWorld) (e : SinceEvent) (w' : SinceWorld)
    (hstep : w.step cfg e = some w') (hshort : ¬w.FindsEnough first e)
    (h : w.Forwarding cfg first) : ¬w'.MovesForward cfg first := by
  cases e with
  | file d => exact absurd trivial hshort
  | call =>
    obtain rfl := Option.some.inj hstep
    exact fun hforward => h.resumes.not_forward (not_not.mp hshort) hforward.1

end SinceWorld

namespace ExpectWorld

/-- The reads move forward, and what the pattern is matched against is their text. -/
def MovesForward (cfg : ExpectConfig) (first : ℕ) (w : ExpectWorld) : Prop :=
  Forward cfg.strip cfg.raw (w.file.bytes.getD []) first w.reads ∧
    w.buf = w.reads.flatMap SliceRead.text

def FindsEnough (first : ℕ) (w : ExpectWorld) : ExpectEvent → Prop
  | .file _ => True
  | .poll _ => w.loop.phase = .scanning ∨ w.loop.phase = .draining → ¬w.file.Short first

/-- The drain is the last read, and its offset is not kept. -/
structure Forwarding (cfg : ExpectConfig) (first : ℕ) (w : ExpectWorld) : Prop where
  resumes : ∃ off, Resumes cfg.strip cfg.raw first w.file off w.reads ∧
    ((∀ code, w.loop.phase ≠ .returned code) → off = w.off)
  buf : w.buf = w.reads.flatMap SliceRead.text

variable {cfg : ExpectConfig} {first : ℕ}

theorem forwarding_step (w : ExpectWorld) (e : ExpectEvent) (w' : ExpectWorld)
    (hstep : w.step cfg e = some w') (henough : w.FindsEnough first e)
    (h : w.Forwarding cfg first) : w'.Forwarding cfg first := by
  obtain ⟨off,hresumes,hoff⟩ := h.resumes
  rcases step_cases hstep with ⟨d,rfl,rfl⟩ | ⟨passed,rfl,-,hcases⟩
  · exact ⟨⟨off,hresumes.after d,hoff⟩,h.buf⟩
  · rcases hcases with ⟨hphase,rfl⟩ | ⟨hphase,rfl⟩ | ⟨hphase,l,rfl,-⟩
    · obtain rfl := hoff fun code hreturned => by
        rw [hphase] at hreturned
        cases hreturned
      obtain ⟨hfile,hnext,hreads,hbuf⟩ := look_fields cfg w
      refine ⟨⟨_,?_,fun _ => hnext.symm⟩,?_⟩
      · rw [hfile,hreads]
        exact hresumes.read (henough (.inl hphase))
      · rw [hbuf,hreads,h.buf]
        simp
    · obtain rfl := hoff fun code hreturned => by
        rw [hphase] at hreturned
        cases hreturned
      have hreturned := w.loop.phase_lookAgain cfg "" (cfg.find (w.lookAgain cfg).buf).isSome
      refine ⟨⟨_,hresumes.read (henough (.inr hphase)),fun hrunning =>
        absurd hreturned (hrunning _)⟩,?_⟩
      simp [lookAgain,h.buf]
    · refine ⟨⟨off,hresumes,fun _ => hoff fun code hreturned => ?_⟩,h.buf⟩
      rw [hreturned] at hphase
      rcases hphase with hphase | hphase <;> cases hphase

theorem not_movesForward (w : ExpectWorld) (e : ExpectEvent) (w' : ExpectWorld)
    (hstep : w.step cfg e = some w') (hshort : ¬w.FindsEnough first e)
    (h : w.Forwarding cfg first) : ¬w'.MovesForward cfg first := by
  obtain ⟨off,hresumes,hoff⟩ := h.resumes
  rcases step_cases hstep with ⟨d,rfl,rfl⟩ | ⟨passed,rfl,-,hcases⟩
  · exact absurd trivial hshort
  · simp only [FindsEnough,Classical.not_imp,not_not] at hshort
    obtain ⟨hreading,hshort⟩ := hshort
    obtain rfl := hoff fun code hreturned => by
      rw [hreturned] at hreading
      rcases hreading with hreading | hreading <;> cases hreading
    intro hforward
    rcases hcases with ⟨hphase,rfl⟩ | ⟨hphase,rfl⟩ | ⟨hphase,l,rfl,-⟩
    · obtain ⟨-,-,hreads,-⟩ := look_fields cfg w
      have hmoves := hforward.1
      rw [hreads] at hmoves
      exact hresumes.not_forward hshort hmoves
    · exact hresumes.not_forward hshort hforward.1
    · rcases hreading with hreading | hreading <;> rw [hreading] at hphase <;>
        rcases hphase with hphase | hphase <;> cases hphase

end ExpectWorld

/-- `expect`, `log --follow` and `log --since` only move forward from the offset that was asked
for, and use no byte below it, if and only if no read finds a log shorter than that offset. -/
theorem offsets_move_forward_iff (expect : ExpectConfig) (f : LogFile) (cfg : FollowConfig)
    (first : ℕ) :
    (∀ es, Transition.Always (ExpectWorld.step expect)
        (ExpectWorld.MovesForward expect (expect.startOffset f)) (ExpectWorld.start expect f) es ↔
      Transition.Meets (ExpectWorld.step expect) (ExpectWorld.FindsEnough (expect.startOffset f))
        (ExpectWorld.start expect f) es) ∧
    (∀ es, Transition.Always (FollowWorld.step cfg) (FollowWorld.MovesForward cfg first)
        (FollowWorld.start first) es ↔
      Transition.Meets (FollowWorld.step cfg) (FollowWorld.FindsEnough first)
        (FollowWorld.start first) es) ∧
    ∀ es, Transition.Always (SinceWorld.step cfg) (SinceWorld.MovesForward cfg first)
        (SinceWorld.start first) es ↔
      Transition.Meets (SinceWorld.step cfg) (SinceWorld.FindsEnough first)
        (SinceWorld.start first) es := by
  refine ⟨fun es => ?_,fun es => ?_,fun es => ?_⟩
  · refine Transition.always_iff_meets (fun w h => ?_) ExpectWorld.forwarding_step
      ExpectWorld.not_movesForward ⟨⟨_,resumes_start _ _ _ _,fun _ => rfl⟩,rfl⟩ es
    obtain ⟨off,hresumes,-⟩ := h.resumes
    exact ⟨hresumes.forward,h.buf⟩
  · exact Transition.always_iff_meets (fun w h => ⟨h.resumes.forward,h.printed⟩)
      FollowWorld.forwarding_step FollowWorld.not_movesForward ⟨resumes_start _ _ _ _,rfl⟩ es
  · exact Transition.always_iff_meets (fun w h => ⟨h.resumes.forward,h.printed⟩)
      SinceWorld.forwarding_step SinceWorld.not_movesForward ⟨resumes_start _ _ _ _,rfl⟩ es

def everything : FollowConfig := ⟨id,true,none⟩

/-- Following from offset 5 a log that is shorter at first. -/
def shortAtFirst : List FollowEvent :=
  [.file (.grow [97,98]),.poll,.poll,.file (.grow [99]),.poll]

/-- The offset falls to the length of the log, and what comes then is printed, though it lies
below the offset that was asked for. -/
theorem short_log_moves_back : ∃ w, Transition.exec (FollowWorld.step everything)
    (FollowWorld.start 5) shortAtFirst = some w ∧ w.reads.map SliceRead.next = [2,3] ∧
    w.printed = ['c'] ∧ ¬w.MovesForward everything 5 := by
  refine ⟨_,rfl,by decide +kernel,by decide +kernel,fun h => ?_⟩
  have hordered := h.1.ordered
  revert hordered
  decide +kernel

end Babysit
