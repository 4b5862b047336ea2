import Babysit.RemoteReconnect

/-! The replay of a finished session by its bridge, in one frame, against the one of a worker,
in frames of bounded size. -/
namespace Babysit
open AppendLog ReadFrame

/-- `write_log_range_frames`, with the sizes its reads return; `none` where they do not reach
the end. -/
def writeLogRangeFrames (log : List UInt8) (offset stop : ℕ) : List ℕ → Option (List Frame)
  | [] => if offset < stop then none else some []
  | n::reads =>
    if offset < stop ∧ 0 < n ∧ n ≤ min (stop-offset) REPLAY_BUFFER ∧ offset+n ≤ log.length then
      (writeLogRangeFrames log (offset+n) stop reads).map fun fs =>
        offsetFrame offset (slice log offset (offset+n)) :: fs
    else none

/-- A worker's frames follow each other in the log. -/
theorem writeLogRangeFrames_run {log : List UInt8} (hlog : log.length ≤ MAX_FILE_LEN)
    {offset stop : ℕ} (hle : offset ≤ stop) {reads : List ℕ} {fs : List Frame}
    (h : writeLogRangeFrames log offset stop reads = some fs) :
    Follows log offset (offsetPieces fs) stop := by
  have hmax := MAX_FILE_LEN_lt
  induction reads generalizing offset fs with
  | nil =>
    simp only [writeLogRangeFrames] at h
    split_ifs at h with hlt
    obtain rfl := Option.some.inj h
    exact (by omega : offset = stop)
  | cons n reads ih =>
    simp only [writeLogRangeFrames] at h
    split_ifs at h with hread
    obtain ⟨fs,hfs,rfl⟩ := Option.map_eq_some_iff.mp h
    obtain ⟨hlt,hpos,hn,hfits⟩ := hread
    have hn' : n ≤ stop-offset := hn.trans (min_le_left _ _)
    have hpiece := piece_offsetFrame (by omega : offset ≤ U64_MAX) (slice log offset (offset+n))
    have hlen : (slice log offset (offset+n)).length = offset+n-offset := slice_length hfits
    have hpieces : offsetPieces (offsetFrame offset (slice log offset (offset+n)) :: fs) =
        (offset,slice log offset (offset+n)) :: offsetPieces fs := by
      simp [offsetPieces,hpiece]
    rw [hpieces]
    refine ⟨rfl,holdsAt_slice _ _ _,?_⟩
    dsimp only
    rw [hlen,Nat.add_sub_cancel_left]
    exact ih (by omega) hfs

/-- The handler's replay writes these frames and goes on to stream. -/
theorem replayed_run {log : List UInt8} {offset stop : ℕ} {reads : List ℕ} {fs : List Frame}
    (hlt : offset < stop) (h : writeLogRangeFrames log offset stop reads = some fs)
    (handler : AttachHandler) (hphase : handler.phase = .replaying offset stop) :
    reads.foldlM (fun h n => AttachHandler.replayed h log n) handler =
      some { handler with phase := .streaming, sent := handler.sent ++ fs } := by
  induction reads generalizing offset fs handler with
  | nil =>
    simp only [writeLogRangeFrames,if_pos hlt] at h
    cases h
  | cons n reads ih =>
    simp only [writeLogRangeFrames] at h
    split_ifs at h with hread
    obtain ⟨fs,hfs,rfl⟩ := Option.map_eq_some_iff.mp h
    rw [List.foldlM_cons]
    simp only [AttachHandler.replayed,hphase,if_pos hread.2]
    by_cases hmore : offset+n < stop
    · rw [if_pos hmore]
      refine (ih hmore hfs _ rfl).trans ?_
      simp [AttachHandler.send]
    · rw [if_neg hmore]
      cases reads with
      | nil =>
        simp only [writeLogRangeFrames,if_neg hmore] at hfs
        obtain rfl := Option.some.inj hfs
        rfl
      | cons m reads =>
        simp only [writeLogRangeFrames,hmore,false_and,if_false] at hfs
        cases hfs

/-- What a bridge of protocol 1 writes for a finished session. -/
def bridgeFinished (tty : Bool) (log : List UInt8) (status : Status) (since : ℕ) : List UInt8 :=
  writeFrames (⟨S_READY,[if tty then 1 else 0]⟩ :: finishedFrames log status (some since))

def exitFrame (status : Status) : Frame :=
  ⟨S_EXIT,exitPayload (some ⟨status.exitCode,status.state = .killed⟩)⟩

/-- What is read of the bridge's bytes is its readiness, the log from the offset, and the exit;
and the log is what a worker would have delivered. -/
def SameReplay (tty : Bool) (log : List UInt8) (status : Status) (since : ℕ) : Prop :=
  ∃ data, frameReader.out .fresh (bridgeFinished tty log status since) =
      ⟨S_READY,[if tty then 1 else 0]⟩ :: data ++ [exitFrame status] ∧
    (∀ f ∈ data,f.tag = S_OUTPUT_OFFSET) ∧
    Follows log since (offsetPieces data) log.length ∧
    ∀ reads fs, writeLogRangeFrames log since log.length reads = some fs →
      (offsetPieces data).flatMap Prod.snd = (offsetPieces fs).flatMap Prod.snd

/-- The output goes into one frame; there is none at the end of the log. -/
def finishedData (log : List UInt8) (since : ℕ) : List Frame :=
  if since < log.length then [offsetFrame since (log.drop since)] else []

theorem finishedFrames_some {log : List UInt8} {since : ℕ} (hle : since ≤ log.length)
    (status : Status) :
    finishedFrames log status (some since) = finishedData log since ++ [exitFrame status] := by
  simp only [finishedFrames,if_neg (by omega : ¬log.length < since)]
  rfl

theorem exitPayload_length (info : Option ExitInfo) : (exitPayload info).length = 5 := by
  simp [exitPayload]

theorem exitFrame_fits (status : Status) : (exitFrame status).Fits := by
  simp [Frame.Fits,exitFrame,exitPayload_length]

theorem offsetFrame_fits {offset : ℕ} {data : List UInt8} :
    (offsetFrame offset data).Fits ↔ 8+data.length < 2^32 := by
  simp [Frame.Fits,offsetFrame,offsetPayload]

/-- The bridge's frames fit, unless too much of the log lies behind the offset. -/
theorem finishedFrames_fit {bytes : List UInt8} {since : Option ℕ}
    (hfits : ∀ o ∈ since,o = bytes.length ∨ (o ≤ bytes.length ∧ 8+(bytes.length-o) < 2^32))
    (status : Status) : ∀ f ∈ finishedFrames bytes status since,f.Fits := by
  have houtput : ∀ start,start = bytes.length ∨ 8+(bytes.length-start) < 2^32 →
      ∀ f ∈ finishedFrames.output bytes status start,f.Fits := by
    intro start hstart f hf
    rcases List.mem_append.mp hf with hf | hf
    · split_ifs at hf with hlt
      · obtain rfl := List.mem_singleton.mp hf
        rw [offsetFrame_fits,List.length_drop]
        omega
      · cases hf
    · obtain rfl := List.mem_singleton.mp hf
      exact exitFrame_fits status
  cases since with
  | none =>
    refine houtput _ (.inr ?_)
    unfold finishedStart
    omega
  | some o =>
    have ho := hfits o rfl
    rw [finishedFrames,if_neg (by omega)]
    exact houtput o (ho.imp_right And.right)

theorem finishedData_run {log : List UInt8} (hlog : log.length ≤ MAX_FILE_LEN) {since : ℕ}
    (hle : since ≤ log.length) :
    Follows log since (offsetPieces (finishedData log since)) log.length := by
  have hmax := MAX_FILE_LEN_lt
  unfold finishedData
  split_ifs with hlt
  · have hpiece := piece_offsetFrame (by omega : since ≤ U64_MAX) (log.drop since)
    have hend : since+(log.drop since).length = log.length := by
      rw [List.length_drop]
      omega
    simp only [offsetPieces,List.filterMap_cons,hpiece,List.filterMap_nil]
    exact ⟨rfl,holdsAt_drop _ _,hend⟩
  · exact (by omega : since = log.length)

/-- Whatever delivers the log between the same ends delivers the same bytes. -/
theorem sameReplay_of_out {tty : Bool} {log : List UInt8} {status : Status} {since : ℕ}
    (hlog : log.length ≤ MAX_FILE_LEN) (hle : since ≤ log.length) {data : List Frame}
    (hout : frameReader.out .fresh (bridgeFinished tty log status since) =
      ⟨S_READY,[if tty then 1 else 0]⟩ :: data ++ [exitFrame status])
    (htags : ∀ f ∈ data,f.tag = S_OUTPUT_OFFSET)
    (hrun : Follows log since (offsetPieces data) log.length) :
    SameReplay tty log status since := by
  refine ⟨data,hout,htags,hrun,fun reads fs hfs => ?_⟩
  rw [hrun.data_eq hle,(writeLogRangeFrames_run hlog hle hfs).data_eq hle]

/-- A bridge whose output frame fits its header. -/
theorem sameReplay_of_fits {tty : Bool} {log : List UInt8} {status : Status} {since : ℕ}
    (hlog : log.length ≤ MAX_FILE_LEN) (hle : since ≤ log.length)
    (hfits : since = log.length ∨ 8+(log.length-since) < 2^32) :
    SameReplay tty log status since := by
  have htags : ∀ f ∈ finishedData log since,f.tag = S_OUTPUT_OFFSET := by
    intro f hf
    unfold finishedData at hf
    split_ifs at hf
    · obtain rfl := List.mem_singleton.mp hf
      rfl
    · cases hf
  have hframes : ∀ f ∈ finishedFrames log status (some since),f.Fits :=
    finishedFrames_fit (by
      rintro o ⟨⟩
      exact hfits.imp_right fun h => ⟨hle,h⟩) status
  refine sameReplay_of_out hlog hle ?_ htags (finishedData_run hlog hle)
  rw [bridgeFinished,frameReader_writeFrames,finishedFrames_some hle,List.cons_append]
  intro f hf
  rcases List.mem_cons.mp hf with rfl | hf
  · simp [Frame.Fits]
  · exact hframes f hf

theorem piece_length {f : Frame} {piece : ℕ × List UInt8} (h : f.piece = some piece) :
    f.payload.length = 8+piece.2.length := by
  unfold Frame.piece at h
  split_ifs at h with htag
  obtain rfl := Option.some.inj h
  rw [List.length_drop]
  omega

/-- Every piece costs its bytes, its offset and a header. -/
theorem pieces_cost (fs : List Frame) :
    ((offsetPieces fs).flatMap Prod.snd).length+13*(offsetPieces fs).length ≤
      (writeFrames fs).length := by
  induction fs with
  | nil => simp [offsetPieces]
  | cons f fs ih =>
    have hcost : (writeFrame f).length = 5+f.payload.length := by
      simp [writeFrame]
      omega
    rw [writeFrames_cons,List.length_append,hcost]
    cases hpiece : f.piece with
    | none =>
      have hpieces : offsetPieces (f::fs) = offsetPieces fs := by simp [offsetPieces,hpiece]
      rw [hpieces]
      omega
    | some piece =>
      have hpieces : offsetPieces (f::fs) = piece :: offsetPieces fs := by
        simp [offsetPieces,hpiece]
      have hlen := piece_length hpiece
      rw [hpieces,List.flatMap_cons,List.length_append,List.length_cons]
      omega

/-- The bytes of the bridge leave room for one output frame. -/
theorem fits_of_sameReplay {tty : Bool} {log : List UInt8} {status : Status} {since : ℕ}
    (hle : since ≤ log.length) (h : SameReplay tty log status since) :
    since = log.length ∨ 8+(log.length-since) < 2^32 := by
  obtain ⟨data,hout,-,hrun,-⟩ := h
  by_cases hend : since = log.length
  · exact .inl hend
  have hlt : since < log.length := by omega
  have hfits := frameReader_fits fresh (bridgeFinished tty log status since) fresh_wellFormed
  have hbytes := frameReader_conserves fresh (bridgeFinished tty log status since)
    fresh_wellFormed
  rw [hout] at hfits hbytes
  have hdata : ((offsetPieces data).flatMap Prod.snd).length = log.length-since := by
    rw [hrun.data_eq hle,slice_length (Nat.le_refl _)]
  have hroom : (writeFrames data).length ≤ 13+(log.length-since) := by
    have hlen := congrArg List.length hbytes
    rw [bridgeFinished,finishedFrames_some hle,finishedData,if_pos hlt] at hlen
    simp only [writeFrames_append,writeFrames_cons,writeFrames_nil,writeFrame,offsetFrame,
      offsetPayload,List.cons_append,List.length_append,List.length_cons,List.length_nil,
      BigEndian.encode_length,List.length_drop,consumed_fresh] at hlen
    omega
  have hcost := pieces_cost data
  -- a second piece would not fit, so one frame holds all of the output
  rcases hpieces : offsetPieces data with _ | ⟨piece,_ | ⟨second,rest⟩⟩
  · rw [hpieces,List.flatMap_nil,List.length_nil] at hdata
    omega
  · obtain ⟨f,hf,hpiece⟩ := List.mem_filterMap.mp
      (show piece ∈ offsetPieces data by rw [hpieces]; exact List.mem_singleton_self _)
    have hframe : f.payload.length < 2^32 :=
      hfits f (List.mem_append_left _ (List.mem_cons_of_mem _ hf))
    have hlen := piece_length hpiece
    rw [hpieces,List.flatMap_cons,List.flatMap_nil,List.append_nil] at hdata
    omega
  · rw [hdata,hpieces,List.length_cons,List.length_cons] at hcost
    omega

/-- The bridge of a finished session replays what a worker would, exactly when its one output
frame fits the header. -/
theorem sameReplay_iff (tty : Bool) (log : SessionLog) (status : Status) (since : ℕ)
    (hle : since ≤ log.bytes.length) :
    SameReplay tty log.bytes status since ↔
      since = log.bytes.length ∨ 8+(log.bytes.length-since) < 2^32 :=
  ⟨fits_of_sameReplay hle,sameReplay_of_fits log.fits hle⟩

theorem sameReplay_iff_last_byte :
    SameReplay true [65,66] ⟨.exited,none,some 0⟩ 1 :=
  (sameReplay_iff true ⟨[65,66],by decide⟩ ⟨.exited,none,some 0⟩ 1 (by decide)).mpr
    (.inr (by decide))

/-- An output of 2^32-8 bytes is announced with length 0. -/
theorem longOutput_not_replayed :
    ¬SameReplay false (List.replicate (2^32-8) 0) ⟨.exited,none,some 0⟩ 0 := by
  intro h
  have hfits := fits_of_sameReplay (Nat.zero_le _) h
  rw [List.length_replicate] at hfits
  omega

end Babysit
