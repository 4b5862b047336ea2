import Babysit.Lib.AppendLog
import Babysit.Lib.Transition
import Babysit.Lib.Vt
import Babysit.ReadSlice

/-! A poller of `log --raw --json` beside a growing log. Text, offset and `done` of one
response come from separate reads, between which the log may grow and the session finish. -/
namespace Babysit
open AppendLog

/-- A JSON response. Ghosts: `bytes` is what the text was decoded from, `start` where it
begins. -/
structure LogResponse where
  text : List Char
  offset : ℕ
  done : Bool
  start : ℕ
  bytes : List UInt8
  deriving DecidableEq, Repr

/-- What the poller reads next: the whole text, then the length; or a slice; and in the end
the status. The ghost `seen` is the log at the latest of the reads before. -/
inductive PollPhase
  | readText
  | readLength (text : List Char) (bytes : List UInt8)
  | readSlice (off : ℕ)
  | readStatus (text : List Char) (offset start : ℕ) (bytes seen : List UInt8)
  | stopped

structure PollWorld where
  log : List UInt8
  terminal : Bool
  phase : PollPhase
  responses : List LogResponse

inductive PollEvent
  | grow (data : List UInt8)
  | finish
  | read

def LogResponse.piece (r : LogResponse) : ℕ × List UInt8 := (r.start,r.bytes)

/-- Where the next poll begins. -/
def resumeOffset (rs : List LogResponse) : ℕ := (rs.getLast?.map LogResponse.offset).getD 0

/-- The bytes are an escape sequence or a character that has not ended, or nothing. -/
def Unfinished (bytes : List UInt8) : Prop :=
  bytes = [] ∨ Utf8.Truncated bytes ∨ Vt.Unended (Utf8.lossy.out [] bytes)

/-- An escape among the bytes begins them, and no CAN or SUB has ended its sequence. -/
def StaysOpen (bytes : List UInt8) : Prop :=
  0x1b ∈ bytes → bytes.head? = some 0x1b ∧ 0x18 ∉ bytes ∧ 0x1a ∉ bytes

/-- The offset is the end of the log, or where a read from this start stops. -/
def ReadToEnd (log : List UInt8) (start offset : ℕ) : Prop :=
  offset = log.length ∨ start + safePrefixLen (log.drop start) = offset

/-- A control behind the escape that aborts its sequence, seen as a byte. -/
theorem cancels_of_byte {rest : List UInt8} (h : 0x18 ∈ rest ∨ 0x1a ∈ rest) :
    ∃ c ∈ Utf8.lossy.out [] rest,Vt.cancels c = true := by
  rcases h with h | h
  · exact ⟨_,Utf8.mem_out_of_byte_mem h (by decide),by decide⟩
  · exact ⟨_,Utf8.mem_out_of_byte_mem h (by decide),by decide⟩

/-- A character below 0x80 is missing where its byte is. -/
theorem not_mem_out {rest : List UInt8} {b : UInt8} (h : b ∉ rest) (hpos : 0 < b.toNat)
    (hlow : b.toNat < 0x80) {c : Char} (hc : c ∈ Utf8.lossy.out [] rest) : c.toNat ≠ b.toNat := by
  intro he
  obtain ⟨x,hx,hxc⟩ := Utf8.byte_mem_of_mem_out (.inl rfl) hc (by omega) (by omega)
  obtain rfl := UInt8.toNat_inj.mp (hxc.trans he)
  exact h hx

/-- An incomplete escape sequence has not ended, unless by CAN or SUB. -/
theorem state_of_incomplete {rest : List UInt8} (hesc : 0x1b ∉ rest)
    (h : ¬escapeComplete (0x1b::rest) = true) (hcan : 0x18 ∉ rest) (hsub : 0x1a ∉ rest) :
    (Vt.parser true).state .escape (Utf8.lossy.out [] rest) ≠ .ground := by
  have hquiet : ∀ c ∈ Utf8.lossy.out [] rest,c ≠ Vt.ESC ∧ Vt.cancels c = false := by
    intro c hc
    refine ⟨?_,?_⟩
    · rintro rfl
      exact not_mem_out hesc (by decide) (by decide) hc rfl
    · have h18 := not_mem_out hcan (by decide) (by decide) hc
      have h1a := not_mem_out hsub (by decide) (by decide) hc
      simp only [Vt.cancels,decide_eq_false_iff_not]
      rintro (he | he)
      · exact h18 he
      · exact h1a he
  obtain rfl | ⟨ps,rfl,hfinal⟩ | ⟨ps,rfl,hbell⟩ | rfl := incomplete_cases h
  · decide
  · have hout : Utf8.lossy.out [] (0x5b::ps) = '[' :: Utf8.lossy.out [] ps := rfl
    rw [hout] at hquiet ⊢
    have hcsi : (Vt.parser true).state .escape ('['::Utf8.lossy.out [] ps) = .csi := by
      refine Vt.state_csi fun c hc => ?_
      obtain ⟨hne,hcancels⟩ := hquiet c (List.mem_cons_of_mem _ hc)
      refine ⟨hne,hcancels,?_⟩
      simp only [Vt.between,decide_eq_false_iff_not]
      rintro ⟨hlow,hhigh⟩
      obtain ⟨x,hx,he⟩ := Utf8.byte_mem_of_mem_out (.inl rfl) hc (by omega) (by omega)
      exact hfinal x hx (by omega)
    rw [hcsi]
    simp
  · have hout : Utf8.lossy.out [] (0x5d::ps) = ']' :: Utf8.lossy.out [] ps := rfl
    rw [hout] at hquiet ⊢
    have hosc : (Vt.parser true).state .escape (']'::Utf8.lossy.out [] ps) = .osc := by
      refine Vt.state_osc fun c hc => ?_
      obtain ⟨hne,hcancels⟩ := hquiet c (List.mem_cons_of_mem _ hc)
      refine ⟨hne,hcancels,?_⟩
      rintro rfl
      exact not_mem_out hbell (by decide) (by decide) hc rfl
    rw [hosc]
    simp
  · decide

/-- What a read leaves is unfinished exactly when nothing has ended the escape sequence in it. -/
theorem unfinished_iff (bytes : List UInt8) :
    Unfinished (bytes.drop (safePrefixLen bytes)) ↔ StaysOpen (bytes.drop (safePrefixLen bytes)) := by
  obtain hnil | htruncated | ⟨rest,hrest,hesc,hincomplete⟩ | ⟨part,rest,hrest,htruncated⟩ :=
    unread_cases bytes
  · rw [hnil]
    exact iff_of_true (.inl rfl) (by simp [StaysOpen])
  · refine iff_of_true (.inr (.inl htruncated)) fun hmem => ?_
    have := htruncated.high _ hmem
    simp at this
  · rw [hrest]
    have hout : Utf8.lossy.out [] (0x1b::rest) = Vt.ESC :: Utf8.lossy.out [] rest := rfl
    have hnone : Vt.ESC ∉ Utf8.lossy.out [] rest :=
      fun hc => not_mem_out hesc (by decide) (by decide) hc rfl
    have hunfinished : Unfinished (0x1b::rest) ↔
        (Vt.parser true).state .escape (Utf8.lossy.out [] rest) ≠ .ground := by
      rw [← Vt.unended_iff hnone,← hout]
      refine ⟨?_,fun h => .inr (.inr h)⟩
      rintro (h | h | h)
      · cases h
      · have := h.high _ List.mem_cons_self
        simp at this
      · exact h
    rw [hunfinished]
    by_cases hcancels : 0x18 ∈ rest ∨ 0x1a ∈ rest
    · obtain ⟨c,hc,hcan⟩ := cancels_of_byte hcancels
      refine iff_of_false (fun hopen => hopen (Vt.state_of_cancels hnone hc hcan _)) fun h => ?_
      obtain ⟨-,hcan,hsub⟩ := h List.mem_cons_self
      rcases hcancels with hmem | hmem
      · exact hcan (List.mem_cons_of_mem _ hmem)
      · exact hsub (List.mem_cons_of_mem _ hmem)
    · obtain ⟨hcan,hsub⟩ := not_or.mp hcancels
      exact iff_of_true (state_of_incomplete hesc hincomplete hcan hsub)
        fun _ => ⟨rfl,by simp [hcan],by simp [hsub]⟩
  · -- the start of a character that an escape cuts short never ends
    rw [hrest]
    obtain ⟨b,p,rfl⟩ := List.exists_cons_of_ne_nil htruncated.1
    have hb := htruncated.high b List.mem_cons_self
    refine iff_of_false ?_ fun h => ?_
    · rintro (h | h | ⟨body,tail,h,-⟩)
      · cases h
      · have := h.high 0x1b (by simp)
        simp at this
      · obtain ⟨hout,hstate⟩ := htruncated.lossy_eq
        have hcut : Utf8.lossy.emit (b::p) 0x1b = [Utf8.REPLACEMENT,Vt.ESC] := by
          have hnot : Utf8.continues (b::p) 0x1b = false := by
            by_contra hcontinues
            have := Utf8.continues_high (Bool.of_not_eq_false hcontinues)
            simp at this
          simp [Utf8.lossy,hnot]
          decide
        rw [Mealy.out_append,hout,hstate,Mealy.out_cons,hcut] at h
        exact absurd (List.cons.inj h).1 (by decide)
    · obtain rfl : b = 0x1b := Option.some.inj (h (by simp)).1
      simp at hb

theorem ReadToEnd.unfinished_iff {log : List UInt8} {start offset : ℕ}
    (h : ReadToEnd log start offset) :
    Unfinished (log.drop offset) ↔ StaysOpen (log.drop offset) := by
  rcases h with rfl | rfl
  · rw [List.drop_length]
    exact iff_of_true (.inl rfl) (by simp [StaysOpen])
  · rw [← List.drop_drop]
    exact Babysit.unfinished_iff _

namespace PollWorld

/-- The first poll reads the whole log, or a slice with `--since 0`. -/
def start (log : List UInt8) (terminal whole : Bool) : PollWorld :=
  ⟨log,terminal,if whole then .readText else .readSlice 0,[]⟩

/-- A raw read strips nothing. A finished session's log does not grow. -/
def step (w : PollWorld) : PollEvent → Option PollWorld
  | .grow data => if w.terminal then none else some { w with log := w.log ++ data }
  | .finish => some { w with terminal := true }
  | .read =>
    match w.phase with
    | .readText => some { w with phase := .readLength (Utf8.decodeLossy w.log) w.log }
    | .readLength text bytes => some { w with
        phase := .readStatus text w.log.length 0 bytes w.log }
    | .readSlice off =>
      let r := readSlice id (some w.log) off true
      some { w with phase := .readStatus r.1 r.2 off ((w.log.drop off).take (r.2-off)) w.log }
    | .readStatus text offset start bytes _ => some { w with
        responses := w.responses ++ [⟨text,offset,w.terminal,start,bytes⟩]
        phase := if w.terminal then .stopped else .readSlice offset }
    | .stopped => none

/-- The texts cover the log once, from its start; each ends at its offset, and where `done` is
reported nothing lies behind that but an unfinished sequence. -/
structure Lossless (w : PollWorld) : Prop where
  covers : Follows w.log 0 (w.responses.map LogResponse.piece) (resumeOffset w.responses)
  text : ∀ r ∈ w.responses, r.text = Utf8.decodeLossy r.bytes ∧ r.offset = r.start + r.bytes.length
  done : ∀ r ∈ w.responses, r.done = true → Unfinished (w.log.drop r.offset)

/-- When a response is completed, its text reaches to its offset (the log has not grown between
the text and the length). If the session is finished by then, the log has not grown since either,
and what the read has left is still open; or it has grown, and leaves an unfinished sequence. -/
def NothingMissed (w : PollWorld) : PollEvent → Prop
  | .read =>
    match w.phase with
    | .readStatus _ offset start bytes seen => offset = start + bytes.length ∧
        (w.terminal = true → (w.log = seen ∧ StaysOpen (seen.drop offset)) ∨
          (w.log ≠ seen ∧ Unfinished (w.log.drop offset)))
    | _ => True
  | _ => True

/-- What holds while a response is being put together. -/
def Pending (w : PollWorld) : Prop :=
  match w.phase with
  | .readText => w.responses = []
  | .readLength text bytes => w.responses = [] ∧ text = Utf8.decodeLossy bytes ∧ bytes <+: w.log
  | .readSlice off => off = resumeOffset w.responses ∧ off ≤ w.log.length
  | .readStatus text offset start bytes seen => start = resumeOffset w.responses ∧
      text = Utf8.decodeLossy bytes ∧ HoldsAt w.log start bytes ∧ seen <+: w.log ∧
      offset ≤ seen.length ∧ ReadToEnd seen start offset
  | .stopped => True

structure Good (w : PollWorld) : Prop where
  lossless : w.Lossless
  finished : ∀ r ∈ w.responses, r.done = true → w.terminal = true
  pending : w.Pending

/-- A raw slice ends between its start and the log's end, where it is complete. -/
theorem readSlice_raw {log : List UInt8} {off : ℕ} (h : off ≤ log.length) :
    off ≤ (readSlice id (some log) off true).2 ∧
      (readSlice id (some log) off true).2 ≤ log.length ∧
      (readSlice id (some log) off true).1 = Utf8.decodeLossy
        ((log.drop off).take ((readSlice id (some log) off true).2 - off)) ∧
      ReadToEnd log off (readSlice id (some log) off true).2 := by
  unfold readSlice
  by_cases hend : log.length ≤ off
  · simp only [if_pos hend]
    refine ⟨h,Nat.le_refl _,?_,.inl rfl⟩
    rw [Nat.sub_eq_zero_of_le hend]
    rfl
  · have hsafe := safePrefixLen_le (log.drop off)
    rw [List.length_drop] at hsafe
    simp only [if_neg hend,if_true]
    refine ⟨Nat.le_add_right _ _,by omega,?_,.inr rfl⟩
    rw [Nat.add_sub_cancel_left]

variable {w w' : PollWorld}

theorem resumeOffset_snoc (rs : List LogResponse) (r : LogResponse) :
    resumeOffset (rs++[r]) = r.offset := by simp [resumeOffset]

theorem good_start (log : List UInt8) (terminal whole : Bool) : (start log terminal whole).Good := by
  refine ⟨⟨rfl,by simp [start],by simp [start]⟩,by simp [start],?_⟩
  cases whole
  · exact ⟨rfl,Nat.zero_le _⟩
  · exact rfl

theorem Lossless.grow (h : w.Lossless) (hdone : ∀ r ∈ w.responses, r.done = false)
    (data : List UInt8) : Lossless { w with log := w.log ++ data } := by
  refine ⟨h.covers.grow data,h.text,?_⟩
  intro r hr htrue
  rw [hdone r hr] at htrue
  cases htrue

theorem Pending.grow (h : w.Pending) (data : List UInt8) :
    Pending { w with log := w.log ++ data } := by
  unfold Pending at h ⊢
  dsimp only
  cases hp : w.phase with
  | readText | stopped =>
    rw [hp] at h
    exact h
  | readLength text bytes =>
    rw [hp] at h
    exact ⟨h.1,h.2.1,h.2.2.trans (List.prefix_append _ _)⟩
  | readSlice off =>
    rw [hp] at h
    refine ⟨h.1,?_⟩
    rw [List.length_append]
    exact h.2.trans (Nat.le_add_right _ _)
  | readStatus text offset start bytes seen =>
    rw [hp] at h
    obtain ⟨hstart,htext,hbytes,hseen,hend⟩ := h
    exact ⟨hstart,htext,hbytes.append data,hseen.trans (List.prefix_append _ _),hend⟩

/-- A completed response continues the ones before it. -/
theorem Lossless.respond (h : w.Lossless) {text : List Char} {offset start : ℕ}
    {bytes seen : List UInt8} (hp : w.phase = .readStatus text offset start bytes seen)
    (hpending : w.Pending) (hmissed : w.NothingMissed .read) (phase : PollPhase) :
    Lossless { w with
      responses := w.responses ++ [⟨text,offset,w.terminal,start,bytes⟩], phase := phase } := by
  unfold Pending at hpending
  unfold NothingMissed at hmissed
  rw [hp] at hpending hmissed
  obtain ⟨hstart,htext,hbytes,-,-,hend⟩ := hpending
  obtain ⟨hoffset,hgrown⟩ := hmissed
  refine ⟨?_,?_,?_⟩
  · dsimp only
    rw [resumeOffset_snoc,List.map_append,hoffset]
    have hcovers := h.covers
    rw [← hstart] at hcovers
    exact hcovers.snoc hbytes
  · intro r hr
    rcases List.mem_append.mp hr with hr | hr
    · exact h.text r hr
    · obtain rfl := List.mem_singleton.mp hr
      exact ⟨htext,hoffset⟩
  · intro r hr hdone
    rcases List.mem_append.mp hr with hr | hr
    · exact h.done r hr hdone
    · obtain rfl := List.mem_singleton.mp hr
      rcases hgrown hdone with ⟨hsame,hopen⟩ | ⟨-,hleft⟩
      · dsimp only
        rw [hsame]
        exact hend.unfinished_iff.mpr hopen
      · exact hleft

theorem good_step (w : PollWorld) (e : PollEvent) (w' : PollWorld) (hstep : w.step e = some w')
    (hmissed : w.NothingMissed e) (h : w.Good) : w'.Good := by
  cases e with
  | grow data =>
    simp only [step] at hstep
    split_ifs at hstep with hterminal
    obtain rfl := Option.some.inj hstep
    refine ⟨h.lossless.grow ?_ data,h.finished,h.pending.grow data⟩
    intro r hr
    by_contra hdone
    exact hterminal (h.finished r hr (Bool.eq_true_of_not_eq_false hdone))
  | finish =>
    obtain rfl := Option.some.inj hstep
    exact ⟨⟨h.lossless.covers,h.lossless.text,h.lossless.done⟩,fun _ _ _ => rfl,h.pending⟩
  | read =>
    have hpending := h.pending
    unfold Pending at hpending
    have hle := (h.lossless.covers.bounds (Nat.zero_le _)).2
    simp only [step] at hstep
    cases hp : w.phase with
    | readText =>
      rw [hp] at hstep hpending
      obtain rfl := Option.some.inj hstep
      exact ⟨⟨h.lossless.covers,h.lossless.text,h.lossless.done⟩,h.finished,
        hpending,rfl,List.prefix_rfl⟩
    | readLength text bytes =>
      rw [hp] at hstep hpending
      obtain rfl := Option.some.inj hstep
      obtain ⟨hnone,htext,hbytes⟩ := hpending
      refine ⟨⟨h.lossless.covers,h.lossless.text,h.lossless.done⟩,h.finished,
        ?_,htext,?_,List.prefix_rfl,Nat.le_refl _,.inl rfl⟩
      · rw [hnone]
        rfl
      · exact hbytes
    | readSlice off =>
      rw [hp] at hstep hpending
      obtain rfl := Option.some.inj hstep
      obtain ⟨hoff,hlen⟩ := hpending
      obtain ⟨-,hstop,htext,hend⟩ := readSlice_raw hlen
      exact ⟨⟨h.lossless.covers,h.lossless.text,h.lossless.done⟩,h.finished,
        hoff,htext,List.take_prefix _ _,List.prefix_rfl,hstop,hend⟩
    | readStatus text offset start bytes seen =>
      have hlossless := h.lossless.respond hp h.pending hmissed
      rw [hp] at hstep hpending
      obtain rfl := Option.some.inj hstep
      obtain ⟨-,-,-,hseen,hoffset,-⟩ := hpending
      refine ⟨hlossless _,?_,?_⟩
      · intro r hr hdone
        rcases List.mem_append.mp hr with hr | hr
        · exact h.finished r hr hdone
        · obtain rfl := List.mem_singleton.mp hr
          exact hdone
      · unfold Pending
        dsimp only
        cases w.terminal
        · refine ⟨?_,hoffset.trans hseen.length_le⟩
          rw [resumeOffset_snoc]
        · trivial
    | stopped =>
      rw [hp] at hstep
      cases hstep

/-- A response that misses something is not lossless. -/
theorem not_lossless (w : PollWorld) (e : PollEvent) (w' : PollWorld) (hstep : w.step e = some w')
    (hmissed : ¬w.NothingMissed e) (h : w.Good) : ¬w'.Lossless := by
  cases e with
  | grow data => exact absurd trivial hmissed
  | finish => exact absurd trivial hmissed
  | read =>
    have hpending := h.pending
    unfold Pending at hpending
    unfold NothingMissed at hmissed
    simp only [step] at hstep
    cases hp : w.phase with
    | readStatus text offset start bytes seen =>
      rw [hp] at hstep hpending hmissed
      obtain rfl := Option.some.inj hstep
      obtain ⟨-,-,-,-,-,hend⟩ := hpending
      intro hlossless
      have hmem : (⟨text,offset,w.terminal,start,bytes⟩ : LogResponse) ∈
          w.responses ++ [⟨text,offset,w.terminal,start,bytes⟩] := by simp
      refine hmissed ⟨(hlossless.text _ hmem).2,fun hterminal => ?_⟩
      have hleft := hlossless.done _ hmem hterminal
      by_cases hsame : w.log = seen
      · rw [hsame] at hleft
        exact .inl ⟨hsame,hend.unfinished_iff.mp hleft⟩
      · exact .inr ⟨hsame,hleft⟩
    | _ =>
      rw [hp] at hmissed
      exact absurd trivial hmissed

/-- Polling loses nothing, in every state of a run, exactly when nothing is missed between
the separate reads of one response. -/
theorem always_lossless_iff (log : List UInt8) (terminal whole : Bool) (es : List PollEvent) :
    Transition.Always step Lossless (start log terminal whole) es ↔
      Transition.Meets step NothingMissed (start log terminal whole) es :=
  Transition.always_iff_meets (fun _ h => h.lossless) good_step not_lossless
    (good_start log terminal whole) es

/-- One byte arrives between the text and the length of the first response. -/
def grownBetween : List PollEvent := [.read,.grow [65],.read,.read]

theorem grown_between_loses_byte : ∃ w, Transition.exec step (start [] false true) grownBetween = some w ∧
    w.log = [65] ∧ w.responses = [⟨[],1,false,0,[]⟩] ∧ w.phase = .readSlice 1 ∧ ¬w.Lossless := by
  refine ⟨_,rfl,rfl,rfl,rfl,?_⟩
  intro h
  have := (h.text ⟨[],1,false,0,[]⟩ (List.mem_singleton.mpr rfl)).2
  cases this

end PollWorld
end Babysit
