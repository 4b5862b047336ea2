import Babysit.RemoteReconnect

/-! Offset frames in any order, with any overlap, at the remote client. As long as each
carries what the log holds at its start, what is printed is one contiguous run of the log,
up to the first frame that starts beyond the cursor. -/
namespace Babysit
open AppendLog

/-- A frame that tells the truth about the log: the bytes it carries stand at its start. -/
structure LogFrame (log : SessionLog) where
  frame : Frame
  start : ℕ
  bytes : List UInt8
  piece : frame.piece = some (start,bytes)
  stands : HoldsAt log.bytes start bytes

namespace LogFrame
variable {log : SessionLog}

/-- The frame a worker sends for a range of the log. -/
def range (log : SessionLog) (start stop : ℕ) (h : start ≤ U64_MAX) : LogFrame log :=
  ⟨offsetFrame start (slice log.bytes start stop),start,slice log.bytes start stop,
    piece_offsetFrame h _,holdsAt_slice _ _ _⟩

theorem piece_fields {f : Frame} {start : ℕ} {bytes : List UInt8}
    (h : f.piece = some (start,bytes)) : (f.tag = S_OUTPUT_OFFSET ∧ 8 ≤ f.payload.length) ∧
      BigEndian.decode (f.payload.take 8) = start ∧ f.payload.drop 8 = bytes := by
  unfold Frame.piece at h
  split_ifs at h with htag
  simp only [Option.some.injEq,Prod.mk.injEq] at h
  exact ⟨htag,h⟩

/-- The end of a truthful frame is an offset of the wire, so that it does not saturate. -/
theorem end_le (f : LogFrame log) : f.start+f.bytes.length ≤ U64_MAX := by
  obtain ⟨⟨-,hlen⟩,hstart,-⟩ := piece_fields f.piece
  have hlt := BigEndian.decode_lt (f.frame.payload.take 8)
  rw [hstart,List.length_take,min_eq_left hlen] at hlt
  have hstands := f.stands.length_le
  rw [List.length_drop] at hstands
  have hfits := log.fits
  unfold U64_MAX
  unfold MAX_FILE_LEN at hfits
  omega

end LogFrame

namespace RemoteClient

/-- The frame starts beyond the cursor, so that `offset_frame_progress` refuses it. -/
def Rejects {log : SessionLog} (r : RemoteClient) (f : LogFrame log) : Prop :=
  ∃ gap, offsetFrameProgress r.cursor f.start f.bytes.length = .error gap

/-- The client meets the frames one after another. -/
def receive {log : SessionLog} (cfg : RemoteConfig) (r : RemoteClient)
    (frames : List (LogFrame log)) : RemoteClient :=
  frames.foldl (fun r f => r.frame cfg f.frame) r

/-- The client has printed the log from one offset to its cursor. -/
structure PrintedFrom (log : SessionLog) (before : List UInt8) (s c : ℕ) (r : RemoteClient) :
    Prop where
  cursor : r.cursor = some c
  ordered : s ≤ c
  stdout : r.stdout = before ++ slice log.bytes s c

variable {log : SessionLog} (cfg : RemoteConfig) {r : RemoteClient}

@[simp] theorem receive_nil : r.receive cfg ([] : List (LogFrame log)) = r := rfl

@[simp] theorem receive_cons (f : LogFrame log) (frames : List (LogFrame log)) :
    r.receive cfg (f::frames) = (r.frame cfg f.frame).receive cfg frames := rfl

theorem receive_append (frames more : List (LogFrame log)) :
    r.receive cfg (frames++more) = (r.receive cfg frames).receive cfg more := by
  simp [receive]

/-- A client that is not streaming makes nothing of an offset frame. -/
theorem frame_of_not_streaming (h : r.phase ≠ .streaming) (f : LogFrame log) :
    r.frame cfg f.frame = r := by
  obtain ⟨⟨htag,-⟩,-,-⟩ := LogFrame.piece_fields f.piece
  unfold frame
  split
  · rw [handshakeFrame,htag,if_neg (by decide),if_neg (by decide)]
  · contradiction
  · rfl
  · rfl

theorem receive_of_not_streaming (h : r.phase ≠ .streaming) (frames : List (LogFrame log)) :
    r.receive cfg frames = r := by
  induction frames with
  | nil => rfl
  | cons f frames ih => rw [receive_cons,frame_of_not_streaming cfg h,ih]

/-- How a frame meets the cursor, without the saturation. -/
theorem progress_eq (r : RemoteClient) (f : LogFrame log) :
    offsetFrameProgress r.cursor f.start f.bytes.length =
      if r.cursor.getD f.start < f.start then .error (r.cursor.getD f.start,f.start)
      else .ok (min (r.cursor.getD f.start-f.start) f.bytes.length,
        max (r.cursor.getD f.start) (f.start+f.bytes.length)) := by
  unfold offsetFrameProgress
  rw [min_eq_left f.end_le]

theorem rejects_iff {f : LogFrame log} : r.Rejects f ↔ r.cursor.getD f.start < f.start := by
  unfold Rejects
  rw [progress_eq]
  split_ifs with hgap <;> simp [hgap]

theorem frame_eq_offsetFrame (hphase : r.phase = .streaming) (f : LogFrame log) :
    r.frame cfg f.frame = r.offsetFrame cfg f.frame.payload := by
  unfold frame streamFrame
  rw [hphase]
  exact if_pos (LogFrame.piece_fields f.piece).1

/-- An accepted frame: what lies beyond the cursor is printed. -/
theorem frame_of_progress (hphase : r.phase = .streaming) {f : LogFrame log} {skip next : ℕ}
    (h : offsetFrameProgress r.cursor f.start f.bytes.length = .ok (skip,next)) :
    r.frame cfg f.frame =
      { r with stdout := r.stdout ++ f.bytes.drop skip, cursor := some next } := by
  obtain ⟨-,hstart,hbytes⟩ := LogFrame.piece_fields f.piece
  rw [frame_eq_offsetFrame cfg hphase]
  unfold offsetFrame
  rw [hstart,hbytes]
  simp only [h]

/-- A rejected frame: nothing is printed, and the stream is left. -/
theorem frame_of_rejects (hphase : r.phase = .streaming) {f : LogFrame log} (h : r.Rejects f) :
    (r.frame cfg f.frame).phase ≠ .streaming ∧ (r.frame cfg f.frame).stdout = r.stdout ∧
      (r.frame cfg f.frame).cursor = r.cursor := by
  obtain ⟨gap,hgap⟩ := h
  obtain ⟨-,hstart,hbytes⟩ := LogFrame.piece_fields f.piece
  rw [frame_eq_offsetFrame cfg hphase]
  unfold offsetFrame
  rw [hstart,hbytes]
  simp only [hgap]
  split_ifs <;> exact ⟨nofun,rfl,rfl⟩

/-- Beyond the cursor a truthful frame holds the next run of the log. -/
theorem drop_eq_slice (f : LogFrame log) {c : ℕ} (h : f.start ≤ c) :
    f.bytes.drop (min (c-f.start) f.bytes.length) =
      slice log.bytes c (max c (f.start+f.bytes.length)) := by
  rcases Nat.le_total (f.start+f.bytes.length) c with hbehind | hover
  · have hskip : min (c-f.start) f.bytes.length = f.bytes.length := by omega
    rw [hskip,List.drop_length,max_eq_left hbehind,slice_self]
  · have hskip : min (c-f.start) f.bytes.length = c-f.start := by omega
    have hdrop : f.start+(c-f.start) = c := by omega
    have hlen : f.start+f.bytes.length-f.start-(c-f.start) = f.start+f.bytes.length-c := by omega
    rw [hskip,max_eq_right hover]
    conv_lhs => rw [f.stands.eq_slice]
    rw [slice,List.drop_take,List.drop_drop,hdrop,hlen,slice]

/-- The first frame sets the cursor and is printed whole. -/
theorem printedFrom_first (hphase : r.phase = .streaming) (hcursor : r.cursor = none)
    (f : LogFrame log) :
    PrintedFrom log r.stdout f.start (f.start+f.bytes.length) (r.frame cfg f.frame) := by
  have hprogress : offsetFrameProgress r.cursor f.start f.bytes.length =
      .ok (0,f.start+f.bytes.length) := by
    rw [progress_eq,hcursor]
    simp
  rw [frame_of_progress cfg hphase hprogress]
  refine ⟨rfl,Nat.le_add_right _ _,?_⟩
  rw [← f.stands.eq_slice]
  rfl

/-- One more frame, wherever it lies, extends what was printed up to its end. -/
theorem PrintedFrom.frame {before : List UInt8} {s c : ℕ} (h : PrintedFrom log before s c r)
    (f : LogFrame log) : ∃ c', c ≤ c' ∧ PrintedFrom log before s c' (r.frame cfg f.frame) := by
  by_cases hphase : r.phase = .streaming
  · by_cases hgap : r.Rejects f
    · obtain ⟨-,hstdout,hcursor⟩ := frame_of_rejects cfg hphase hgap
      exact ⟨c,Nat.le_refl c,hcursor.trans h.cursor,h.ordered,hstdout.trans h.stdout⟩
    · have hle : f.start ≤ c := by
        rw [rejects_iff,h.cursor] at hgap
        exact Nat.le_of_not_lt hgap
      have hprogress := progress_eq r f
      rw [h.cursor,Option.getD_some,if_neg (Nat.not_lt.mpr hle),← h.cursor] at hprogress
      have hnext : c ≤ max c (f.start+f.bytes.length) := Nat.le_max_left _ _
      rw [frame_of_progress cfg hphase hprogress,drop_eq_slice f hle,h.stdout,List.append_assoc,
        slice_append_slice log.bytes h.ordered hnext]
      exact ⟨_,hnext,rfl,Nat.le_trans h.ordered hnext,rfl⟩
  · rw [frame_of_not_streaming cfg hphase]
    exact ⟨c,Nat.le_refl c,h⟩

theorem PrintedFrom.receive {before : List UInt8} {s c : ℕ} (h : PrintedFrom log before s c r)
    (frames : List (LogFrame log)) :
    ∃ c', c ≤ c' ∧ PrintedFrom log before s c' (r.receive cfg frames) := by
  induction frames generalizing r c with
  | nil => exact ⟨c,Nat.le_refl c,h⟩
  | cons f frames ih =>
    obtain ⟨mid,hmid,hf⟩ := h.frame cfg f
    obtain ⟨c',hc',hframes⟩ := ih hf
    exact ⟨c',Nat.le_trans hmid hc',hframes⟩

/-- After any frames the cursor of a client that began without one is at the end of what it
printed. -/
theorem printedFrom_receive (hphase : r.phase = .streaming) (hcursor : r.cursor = none)
    (first : LogFrame log) (frames : List (LogFrame log)) : ∃ c,
    PrintedFrom log r.stdout first.start c (r.receive cfg (first::frames)) := by
  obtain ⟨c,-,h⟩ := (printedFrom_first cfg hphase hcursor first).receive cfg frames
  exact ⟨c,h⟩

/-- Whatever truthful frames arrive and in whatever order: up to the first rejected one the
client has printed the log from the start of the first frame to its cursor. The cursor never
moves back, no skip is longer than its payload, and what is rejected is exactly a frame that
starts beyond the cursor; after it nothing more is printed. -/
theorem overlapping_frames_print_the_log (log : SessionLog) {r : RemoteClient}
    (hphase : r.phase = .streaming) (hcursor : r.cursor = none) (frames : List (LogFrame log)) :
    (∀ first ∈ frames.head?, ∃ c, first.start ≤ c ∧ (r.receive cfg frames).cursor = some c ∧
      (r.receive cfg frames).stdout = r.stdout ++ slice log.bytes first.start c) ∧
    (∀ more c, (r.receive cfg frames).cursor = some c →
      ∃ c', c ≤ c' ∧ (r.receive cfg (frames++more)).cursor = some c') ∧
    ∀ f, (r.receive cfg frames).phase = .streaming →
      ((r.receive cfg frames).Rejects f ↔ (r.receive cfg frames).cursor.getD f.start < f.start) ∧
      ((r.receive cfg frames).Rejects f → ∀ more,
        (r.receive cfg (frames++f::more)).stdout = (r.receive cfg frames).stdout ∧
        (r.receive cfg (frames++f::more)).cursor = (r.receive cfg frames).cursor) ∧
      ∀ skip next,
        offsetFrameProgress (r.receive cfg frames).cursor f.start f.bytes.length = .ok (skip,next) →
        skip ≤ f.bytes.length ∧ (r.receive cfg (frames++[f])).phase = .streaming ∧
        (r.receive cfg (frames++[f])).cursor = some next ∧
        (r.receive cfg (frames++[f])).stdout =
          (r.receive cfg frames).stdout ++ f.bytes.drop skip := by
  refine ⟨fun first hfirst => ?_,fun more c hc => ?_,fun f hstreaming => ⟨rejects_iff,?_,?_⟩⟩
  · cases frames with
    | nil => cases hfirst
    | cons g frames =>
      obtain rfl : g = first := Option.some.inj hfirst
      obtain ⟨c,h⟩ := printedFrom_receive cfg hphase hcursor g frames
      exact ⟨c,h.ordered,h.cursor,h.stdout⟩
  · cases frames with
    | nil =>
      rw [receive_nil,hcursor] at hc
      cases hc
    | cons g frames =>
      obtain ⟨c₀,h⟩ := printedFrom_receive cfg hphase hcursor g frames
      obtain rfl : c₀ = c := Option.some.inj (h.cursor.symm.trans hc)
      obtain ⟨c',hc',h'⟩ := h.receive cfg more
      rw [receive_append]
      exact ⟨c',hc',h'.cursor⟩
  · intro hgap more
    obtain ⟨hleft,hstdout,hkept⟩ := frame_of_rejects cfg hstreaming hgap
    rw [receive_append,receive_cons,receive_of_not_streaming cfg hleft]
    exact ⟨hstdout,hkept⟩
  · intro skip next hprogress
    rw [receive_append,receive_cons,receive_nil,frame_of_progress cfg hstreaming hprogress]
    refine ⟨?_,hstreaming,rfl,rfl⟩
    rw [progress_eq] at hprogress
    split_ifs at hprogress
    cases hprogress
    exact Nat.min_le_right _ _

/-- A frame before the cursor, one across it and one beyond it, after "abcdefgh". -/
theorem overlapping_frames_print_the_log_abc :
    let log : SessionLog := ⟨[97,98,99,100,101,102,103,104],by decide⟩
    let r : RemoteClient := { RemoteClient.init with phase := .streaming }
    let frames : List (LogFrame log) :=
      [.range log 2 5 (by decide),.range log 0 4 (by decide),.range log 3 7 (by decide)]
    (r.receive ⟨true,false⟩ frames).stdout = [99,100,101,102,103] ∧
      ((r.receive ⟨true,false⟩ frames).Rejects (.range log 8 8 (by decide))) := by
  intro log r frames
  obtain ⟨hprinted,-,hnext⟩ := overlapping_frames_print_the_log ⟨true,false⟩ log (r := r) rfl rfl
    frames
  obtain ⟨c,-,hc,hstdout⟩ := hprinted _ rfl
  have hcursor : (r.receive ⟨true,false⟩ frames).cursor = some 7 := by decide +kernel
  obtain rfl : 7 = c := Option.some.inj (hcursor.symm.trans hc)
  refine ⟨hstdout,(hnext (.range log 8 8 (by decide)) (by rfl)).1.mpr ?_⟩
  rw [hcursor]
  decide

end RemoteClient
end Babysit
