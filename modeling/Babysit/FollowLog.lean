import Babysit.IncrementalRead
import Babysit.Lib.Lines
import Babysit.Lib.Transition
import Babysit.LogReads

/-! `follow_log` beside a growing log. The filter is applied to what each poll returns, so a
line that the polls divide is matched in pieces. -/
namespace Babysit
open AppendLog Lines Utf8

/-- Keep only the lines that match, each with a newline. -/
def grepFilter (text : List Char) : Option (List Char → Bool) → List Char
  | none => text
  | some re => ((lines text).filter re).flatMap (·++['\n'])

structure FollowConfig where
  strip : List UInt8 → List UInt8
  raw : Bool
  re : Option (List Char → Bool)

inductive FollowPhase
  | reading
  | checking (advanced : Bool)
  | stopped
  deriving DecidableEq, Repr

/-- Ghosts: the reads so far, and the lines that were printed, each with its number. -/
structure FollowWorld where
  file : LogFile
  off : ℕ
  idleAfterDone : ℕ
  printed : List Char
  phase : FollowPhase
  reads : List SliceRead
  shown : List (List Char × ℕ)

inductive FollowEvent
  | file (e : LogFileEvent)
  | poll

namespace FollowWorld

def start (off : ℕ) : FollowWorld := ⟨.absent,off,0,[],.reading,[],[]⟩

/-- The text that was read. -/
def textRead (w : FollowWorld) : List Char := w.reads.flatMap SliceRead.text

/-- One read, and what of it is printed. -/
def read (cfg : FollowConfig) (w : FollowWorld) : FollowWorld :=
  let r := w.file.slice cfg.strip w.off cfg.raw
  { w with
    printed := w.printed ++ grepFilter r.text cfg.re
    phase := .checking (w.off < r.next)
    off := r.next
    reads := w.reads ++ [r]
    shown := w.shown ++ (cfg.re.map fun re =>
      numbered re (complete w.textRead).length (lines r.text)).getD [] }

/-- The check after a read: two polls in a row that bring nothing end the loop, once the
session is finished. -/
def check (w : FollowWorld) (advanced : Bool) : FollowWorld :=
  if ¬w.file.finished then { w with phase := .reading }
  else if advanced then { w with idleAfterDone := 0, phase := .reading }
  else if 2 ≤ w.idleAfterDone+1 then { w with idleAfterDone := w.idleAfterDone+1, phase := .stopped }
  else { w with idleAfterDone := w.idleAfterDone+1, phase := .reading }

def step (cfg : FollowConfig) (w : FollowWorld) : FollowEvent → Option FollowWorld
  | .file e => some { w with file := w.file.after e }
  | .poll =>
    match w.phase with
    | .reading => some (w.read cfg)
    | .checking advanced => some (w.check advanced)
    | .stopped => none

variable {cfg : FollowConfig} {w w' : FollowWorld} {e : FollowEvent}

/-- What one step can do. -/
theorem step_cases (h : w.step cfg e = some w') :
    (∃ d, e = .file d ∧ w' = { w with file := w.file.after d }) ∨
      (e = .poll ∧ w.phase = .reading ∧ w' = w.read cfg) ∨
      (e = .poll ∧ ∃ advanced, w.phase = .checking advanced ∧ w' = w.check advanced) := by
  cases e with
  | file d => exact .inl ⟨d,rfl,(Option.some.inj h).symm⟩
  | poll =>
    simp only [step] at h
    split at h
    next hphase => exact .inr (.inl ⟨rfl,hphase,(Option.some.inj h).symm⟩)
    next advanced hphase => exact .inr (.inr ⟨rfl,advanced,hphase,(Option.some.inj h).symm⟩)
    next => cases h

/-- The check leaves the file, the offset and the output alone. -/
theorem check_kept (w : FollowWorld) (advanced : Bool) : ∃ idle phase,
    w.check advanced = { w with idleAfterDone := idle, phase := phase } := by
  unfold check
  split_ifs
  · exact ⟨_,_,rfl⟩
  · exact ⟨_,_,rfl⟩
  · exact ⟨_,_,rfl⟩
  · exact ⟨_,_,rfl⟩

end FollowWorld

/-- A byte of a plain log: ASCII, and no escape. -/
def Plain (b : UInt8) : Prop := b.toNat < 0x80 ∧ b ≠ 0x1b

instance (b : UInt8) : Decidable (Plain b) := inferInstanceAs (Decidable (_ ∧ _))

def plainChar (b : UInt8) : Char := Char.ofNat b.toNat

variable {bs cs : List UInt8}

theorem plainChar_toNat {b : UInt8} (h : b.toNat < 0x80) : (plainChar b).val.toNat = b.toNat := by
  have hvalid : Nat.isValidChar b.toNat := .inl (by omega)
  have hchar : plainChar b = Char.ofNatAux b.toNat hvalid := dif_pos hvalid
  rw [hchar]
  rfl

theorem utf8EncodeChar_plainChar {b : UInt8} (h : b.toNat < 0x80) :
    String.utf8EncodeChar (plainChar b) = [b] := by
  have hval := plainChar_toNat h
  unfold String.utf8EncodeChar
  simp only [hval]
  rw [if_pos (by omega)]
  simp

/-- A plain log is the encoding of its characters. -/
theorem encode_plain (h : ∀ b ∈ bs, Plain b) : encode (bs.map plainChar) = bs := by
  induction bs with
  | nil => rfl
  | cons b bs ih =>
    rw [List.map_cons,encode_cons,utf8EncodeChar_plainChar (h b List.mem_cons_self).1,
      ih fun c hc => h c (List.mem_cons_of_mem b hc)]
    rfl

theorem decodeLossy_plain (h : ∀ b ∈ bs, Plain b) : decodeLossy bs = bs.map plainChar := by
  conv_lhs => rw [← encode_plain h]
  exact decodeLossy_encode _

/-- All of a plain log can be emitted. -/
theorem safePrefixLen_plain (h : ∀ b ∈ bs, Plain b) : safePrefixLen bs = bs.length := by
  have hesc : 0x1b ∉ bs := fun hin => (h _ hin).2 rfl
  have hcheck : Utf8.check bs = .ok := by
    rw [← encode_plain h]
    exact checkFrom_encode _ 0
  simp only [safePrefixLen,escapeStop_of_no_escape hesc,List.take_length,hcheck]

theorem plainChar_ne_escape {b : UInt8} (h : Plain b) : plainChar b ≠ Vt.ESC := by
  intro heq
  have hval := plainChar_toNat h.1
  rw [heq] at hval
  apply h.2
  rw [← UInt8.toNat_inj,← hval]
  rfl

theorem parser_plain (shift : Bool) (h : ∀ b ∈ bs, Plain b) :
    (Vt.parser shift).state .ground (bs.map plainChar) = .ground := by
  induction bs with
  | nil => rfl
  | cons b bs ih =>
    rw [List.map_cons,Mealy.state_cons,
      Vt.next_ground (plainChar_ne_escape (h b List.mem_cons_self))]
    exact ih fun c hc => h c (List.mem_cons_of_mem b hc)

/-- On plain bytes the strip does what its VT parser does. -/
def StripsPlain (shift : Bool) (strip : List UInt8 → List UInt8) : Prop :=
  ∀ bs, (∀ b ∈ bs, Plain b) → strip bs = encode (Vt.strip shift (bs.map plainChar))

/-- What stripping makes of a plain log, piece by piece. -/
theorem logText_plain {shift : Bool} {strip : List UInt8 → List UInt8}
    (hstrip : StripsPlain shift strip) (raw : Bool)
    (h : ∀ b ∈ bs, Plain b) : logText strip raw bs =
      if raw then bs.map plainChar else Vt.strip shift (bs.map plainChar) := by
  cases raw with
  | true => exact decodeLossy_plain h
  | false => simp only [logText,Bool.false_eq_true,if_false,hstrip bs h,decodeLossy_encode]

theorem logText_append {shift : Bool} {strip : List UInt8 → List UInt8}
    (hstrip : StripsPlain shift strip) (raw : Bool)
    (hb : ∀ b ∈ bs, Plain b) (hc : ∀ c ∈ cs, Plain c) :
    logText strip raw (bs++cs) = logText strip raw bs ++ logText strip raw cs := by
  have hall : ∀ b ∈ bs++cs, Plain b := by
    intro b h
    exact (List.mem_append.mp h).elim (hb b) (hc b)
  rw [logText_plain hstrip raw hall,logText_plain hstrip raw hb,logText_plain hstrip raw hc,
    List.map_append]
  cases raw with
  | true => rfl
  | false =>
    simp only [Bool.false_eq_true,if_false,Vt.strip]
    rw [Mealy.out_append,parser_plain shift hb]

theorem logText_nil {shift : Bool} {strip : List UInt8 → List UInt8}
    (hstrip : StripsPlain shift strip) (raw : Bool) :
    logText strip raw [] = [] := by
  rw [logText_plain hstrip raw fun b hb => absurd hb List.not_mem_nil]
  simp [Vt.strip]

/-- A poll of a plain log returns the text of all that is behind its offset. -/
theorem LogFile.slice_plain (strip : List UInt8 → List UInt8) (raw : Bool) {f : LogFile}
    {log : List UInt8} {off : ℕ} (hbytes : f.bytes = some log) (hplain : ∀ b ∈ log, Plain b)
    (hoff : off < log.length) :
    f.slice strip off raw = ⟨off,log.drop off,logText strip raw (log.drop off),log.length⟩ := by
  obtain ⟨hslice,-⟩ := slice_within strip raw hbytes hoff
  have hrest : ∀ b ∈ log.drop off, Plain b := fun b hb => hplain b (List.mem_of_mem_drop hb)
  have hsafe := safePrefixLen_plain hrest
  rw [hslice,hsafe,List.take_length,List.length_drop,Nat.add_sub_cancel' hoff.le]

namespace FollowWorld

/-- What is printed so far is what the filter keeps of the complete lines of the log between
two offsets, and each printed line is one of these lines, matched as a whole. -/
structure WholeLines (cfg : FollowConfig) (re : List Char → Bool) (w : FollowWorld) : Prop where
  read : ∃ first ≤ w.off,
    w.textRead = logText cfg.strip cfg.raw (slice (w.file.bytes.getD []) first w.off)
  shown : w.shown = numbered re 0 (complete w.textRead)
  printed : w.printed = grepFilter (completeText w.textRead) (some re)

/-- The new data is plain. -/
def PlainEvent : FollowEvent → Prop
  | .file (.grow data) => ∀ b ∈ data, Plain b
  | .file (.status _) | .poll => True

/-- The cuts before and behind what a poll reads make no difference. -/
def PollHarmless (cfg : FollowConfig) (re : List Char → Bool) (w : FollowWorld) :
    FollowEvent → Prop
  | .file _ => True
  | .poll => w.phase = .reading →
      CutsHarmless re (unfinished w.textRead) (w.file.slice cfg.strip w.off cfg.raw).text

structure Follows (cfg : FollowConfig) (re : List Char → Bool) (w : FollowWorld) : Prop where
  plain : ∀ b ∈ w.file.bytes.getD [], Plain b
  within : w.off ≤ w.file.length ∨ w.textRead = []
  output : w.printed = w.shown.flatMap fun p => p.1++['\n']
  whole : w.WholeLines cfg re

variable {cfg : FollowConfig} {re : List Char → Bool} {w w' : FollowWorld} {e : FollowEvent}

theorem textRead_read (cfg : FollowConfig) (w : FollowWorld) :
    (w.read cfg).textRead = w.textRead ++ (w.file.slice cfg.strip w.off cfg.raw).text := by
  simp [read,textRead]

/-- A read shows the right lines if and only if its cuts are harmless. -/
theorem shown_read (hre : cfg.re = some re) (h : w.shown = numbered re 0 (complete w.textRead)) :
    (w.read cfg).shown = numbered re 0 (complete (w.read cfg).textRead) ↔
      CutsHarmless re (unfinished w.textRead) (w.file.slice cfg.strip w.off cfg.raw).text := by
  rw [textRead_read,complete_append,numbered_append,← h,Nat.zero_add,
    ← numbered_piece_iff re (complete w.textRead).length]
  simp only [read,hre,Option.map_some,Option.getD_some,List.append_cancel_left_eq]

theorem grepFilter_some (text : List Char) (re : List Char → Bool) (n : ℕ) :
    grepFilter text (some re) = (numbered re n (lines text)).flatMap fun p => p.1++['\n'] := by
  rw [grepFilter,← texts_numbered re n,List.flatMap_map]

theorem printed_of_shown (hout : w.printed = w.shown.flatMap fun p => p.1++['\n'])
    (h : w.shown = numbered re 0 (complete w.textRead)) :
    w.printed = grepFilter (completeText w.textRead) (some re) := by
  rw [grepFilter_some _ re 0,lines_completeText,← h,hout]

theorem output_read (hre : cfg.re = some re)
    (h : w.printed = w.shown.flatMap fun p => p.1++['\n']) :
    (w.read cfg).printed = (w.read cfg).shown.flatMap fun p => p.1++['\n'] := by
  simp only [read,hre,Option.map_some,Option.getD_some,List.flatMap_append,← h,
    grepFilter_some _ re (complete w.textRead).length]

theorem follows_start {shift : Bool} (re : List Char → Bool)
    (hstrip : StripsPlain shift cfg.strip) (off : ℕ) :
    (start off).Follows cfg re := by
  refine ⟨fun b hb => absurd hb List.not_mem_nil,.inr rfl,rfl,⟨off,Nat.le_refl off,?_⟩,rfl,rfl⟩
  change [] = logText cfg.strip cfg.raw (slice _ off off)
  rw [slice_self,logText_nil hstrip]

/-- After a read of a plain log the text is still that of one stretch of it. -/
theorem read_plain {shift : Bool} (hstrip : StripsPlain shift cfg.strip)
    (h : w.Follows cfg re) :
    ((w.read cfg).off ≤ w.file.length ∨ (w.read cfg).textRead = []) ∧
      ∃ first ≤ (w.read cfg).off, (w.read cfg).textRead =
        logText cfg.strip cfg.raw (slice (w.file.bytes.getD []) first (w.read cfg).off) := by
  have hoff : (w.read cfg).off = (w.file.slice cfg.strip w.off cfg.raw).next := rfl
  obtain ⟨first,hfirst,htext⟩ := h.whole.read
  rw [textRead_read,hoff]
  cases hbytes : w.file.bytes with
  | none =>
    rw [LogFile.slice_absent hbytes,List.append_nil]
    rw [hbytes] at htext
    exact ⟨h.within,first,hfirst,htext⟩
  | some log =>
    have hplain := h.plain
    have hwithin := h.within
    simp only [LogFile.length,hbytes,Option.getD_some] at hplain hwithin htext ⊢
    rcases Nat.lt_or_ge w.off log.length with hmore | hbeyond
    · rw [LogFile.slice_plain cfg.strip cfg.raw hbytes hplain hmore]
      refine ⟨.inl (Nat.le_refl _),first,hfirst.trans hmore.le,?_⟩
      have hdone : ∀ b ∈ slice log first w.off, Plain b :=
        fun b hb => hplain b (List.mem_of_mem_drop (List.mem_of_mem_take hb))
      have hnew : ∀ b ∈ log.drop w.off, Plain b := fun b hb => hplain b (List.mem_of_mem_drop hb)
      rw [htext,← logText_append hstrip cfg.raw hdone hnew,
        ← slice_eq_drop (a := w.off) (Nat.le_refl log.length),
        slice_append_slice log hfirst hmore.le]
    · rw [LogFile.slice_beyond hbytes hbeyond,List.append_nil]
      refine ⟨.inl (Nat.le_refl _),?_⟩
      rcases hwithin with hend | hnone
      · have heq : w.off = log.length := Nat.le_antisymm hend hbeyond
        exact ⟨first,heq ▸ hfirst,heq ▸ htext⟩
      · exact ⟨log.length,Nat.le_refl _,by rw [slice_self,logText_nil hstrip,hnone]⟩

theorem follows_file {shift : Bool} (hstrip : StripsPlain shift cfg.strip)
    (h : w.Follows cfg re) (d : LogFileEvent) (hd : PlainEvent (.file d)) :
    Follows cfg re { w with file := w.file.after d } := by
  cases d with
  | status terminal => exact ⟨h.plain,h.within,h.output,⟨h.whole.read,h.whole.shown,h.whole.printed⟩⟩
  | grow data =>
    have hlength := w.file.length_after (.grow data)
    obtain ⟨first,hfirst,htext⟩ := h.whole.read
    refine ⟨?_,h.within.imp_left (·.trans hlength),h.output,?_,h.whole.shown,h.whole.printed⟩
    · intro b hb
      rcases List.mem_append.mp hb with hb | hb
      · exact h.plain b hb
      · exact hd b hb
    · rcases h.within with hend | hnone
      · refine ⟨first,hfirst,htext.trans ?_⟩
        exact congrArg _ (slice_append hend data).symm
      · refine ⟨w.off,Nat.le_refl _,?_⟩
        dsimp only
        rw [slice_self,logText_nil hstrip]
        exact hnone

/-- Following keeps to whole lines as long as no cut makes a difference. -/
theorem follows_step {shift : Bool} (hre : cfg.re = some re)
    (hstrip : StripsPlain shift cfg.strip)
    (w : FollowWorld) (e : FollowEvent) (w' : FollowWorld) (hstep : w.step cfg e = some w')
    (hplain : PlainEvent e) (hharmless : w.PollHarmless cfg re e) (h : w.Follows cfg re) :
    w'.Follows cfg re := by
  rcases step_cases hstep with ⟨d,rfl,rfl⟩ | ⟨rfl,hphase,rfl⟩ | ⟨rfl,advanced,hphase,rfl⟩
  · exact follows_file hstrip h d hplain
  · obtain ⟨hwithin,hread⟩ := read_plain hstrip h
    have hshown := (shown_read hre h.whole.shown).mpr (hharmless hphase)
    have hout := output_read hre h.output
    exact ⟨h.plain,hwithin,hout,hread,hshown,printed_of_shown hout hshown⟩
  · obtain ⟨idle,phase,hcheck⟩ := w.check_kept advanced
    rw [hcheck]
    exact ⟨h.plain,h.within,h.output,⟨h.whole.read,h.whole.shown,h.whole.printed⟩⟩

/-- A poll whose cuts make a difference prints a line too many, one too few, or a piece. -/
theorem not_wholeLines (hre : cfg.re = some re) (w : FollowWorld) (e : FollowEvent)
    (w' : FollowWorld) (hstep : w.step cfg e = some w') (hharm : ¬w.PollHarmless cfg re e)
    (h : w.Follows cfg re) : ¬w'.WholeLines cfg re := by
  intro hwhole
  apply hharm
  rcases step_cases hstep with ⟨d,rfl,rfl⟩ | ⟨rfl,hphase,rfl⟩ | ⟨rfl,advanced,hphase,rfl⟩
  · trivial
  · exact fun _ => (shown_read hre h.whole.shown).mp hwhole.shown
  · intro hreading
    rw [hphase] at hreading
    cases hreading

/-- Following a plain log with a filter prints the filtered complete lines, at every point of
every run, if and only if no poll cuts a line whose pieces or whole the filter lets through. -/
theorem always_wholeLines_iff (shift : Bool) (cfg : FollowConfig) {re : List Char → Bool}
    (hre : cfg.re = some re) (hstrip : StripsPlain shift cfg.strip)
    (off : ℕ) {es : List FollowEvent} (hplain : ∀ e ∈ es, PlainEvent e) :
    Transition.Always (step cfg) (WholeLines cfg re) (start off) es ↔
      Transition.Meets (step cfg) (PollHarmless cfg re) (start off) es :=
  Transition.always_iff_meets_given (fun _ h => h.whole) (follows_step hre hstrip)
    (fun w e w' hstep _ => not_wholeLines hre w e w' hstep)
    (follows_start re hstrip off) (Transition.meets_of_forall hplain _)

def onlyAbc : FollowConfig := ⟨stripBytes,true,some (· = ['a','b','c'])⟩

/-- A line that arrives whole between others. -/
def wholeLine : List FollowEvent :=
  [.file (.grow [120,10,97,98,99,10]),.poll,.poll,.file (.status true),.poll,.poll]

theorem always_wholeLines_iff_wholeLine :
    Transition.Always (step onlyAbc) (WholeLines onlyAbc (· = ['a','b','c'])) (start 0) wholeLine ↔
      Transition.Meets (step onlyAbc) (PollHarmless onlyAbc (· = ['a','b','c'])) (start 0)
        wholeLine :=
  always_wholeLines_iff false onlyAbc rfl
    (fun bs hbs => by simp only [onlyAbc,stripBytes,decodeLossy_plain hbs]) 0
    (by simp [wholeLine,PlainEvent,Plain])

/-- The line in two polls: neither piece matches, and the line is never printed. -/
def cutLine : List FollowEvent :=
  [.file (.grow [97,98]),.poll,.poll,.file (.grow [99,10]),.poll]

theorem cut_line_is_not_printed : ∃ w, Transition.exec (step onlyAbc) (start 0) cutLine = some w ∧
    w.printed = [] ∧
    grepFilter (completeText w.textRead) (some (· = ['a','b','c'])) = ['a','b','c','\n'] ∧
    ¬w.WholeLines onlyAbc (· = ['a','b','c']) := by
  refine ⟨_,rfl,by decide +kernel,by decide +kernel,fun h => ?_⟩
  have hshown := h.shown
  revert hshown
  decide +kernel

end FollowWorld

end Babysit
