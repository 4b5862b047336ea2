import Babysit.Lib.BigEndian
import Babysit.Lib.Mealy
import Babysit.Session

/-! The framed wire protocol of an upgraded connection: `[tag: u8][len: u32 BE][payload]`.
`readFrame` is an async function; its future is the machine `frameReader`, whose state
holds the bytes the two `read_exact` calls have already taken from the stream. -/
namespace Babysit

def S_OUTPUT : UInt8 := 1
def S_EXIT : UInt8 := 2
def S_DETACHED : UInt8 := 3
def S_OUTPUT_OFFSET : UInt8 := 4
def S_READY : UInt8 := 5
def S_ERROR : UInt8 := 6
def C_INPUT : UInt8 := 1
def C_RESIZE : UInt8 := 2

structure Frame where
  tag : UInt8
  payload : List UInt8
  deriving DecidableEq, Repr

/-- The payload length fits the 32-bit header field. -/
def Frame.Fits (f : Frame) : Prop := f.payload.length < 2^32

instance (f : Frame) : Decidable f.Fits := inferInstanceAs (Decidable (f.payload.length < 2^32))

/-- The bytes of one frame; a length from 2^32 on is truncated by the `as u32` cast. -/
def writeFrame (f : Frame) : List UInt8 :=
  f.tag :: (BigEndian.encode 4 f.payload.length ++ f.payload)

def writeFrames (fs : List Frame) : List UInt8 := fs.flatMap writeFrame

@[simp] theorem writeFrames_nil : writeFrames [] = [] := rfl
@[simp] theorem writeFrames_cons (f : Frame) (fs : List Frame) :
    writeFrames (f::fs) = writeFrame f ++ writeFrames fs := rfl

theorem writeFrames_append (fs gs : List Frame) :
    writeFrames (fs++gs) = writeFrames fs ++ writeFrames gs := by simp [writeFrames]

/-- The state of a `read_frame` future: inside the header or inside the payload, with
the bytes already taken. -/
inductive ReadFrame
  | header (got : List UInt8)
  | payload (tag : UInt8) (len : ℕ) (got : List UInt8)
  deriving DecidableEq, Repr

namespace ReadFrame

/-- A future that has taken nothing. -/
def fresh : ReadFrame := .header []

/-- The bytes the future has taken from the stream and not yet returned. -/
def consumed : ReadFrame → List UInt8
  | .header got => got
  | .payload tag len got => tag :: (BigEndian.encode 4 len ++ got)

/-- The frame a byte completes, if it does: the fifth header byte of an empty frame, or
the last payload byte. -/
def completes : ReadFrame → UInt8 → Option Frame
  | .header got, b =>
    if got.length < 4 then none
    else if BigEndian.decode (got++[b]).tail = 0 then some ⟨(got++[b]).headD 0,[]⟩ else none
  | .payload tag len got, b => if got.length+1 < len then none else some ⟨tag,got++[b]⟩

/-- The state after a byte; the loop starts a fresh future after every frame. -/
def advance : ReadFrame → UInt8 → ReadFrame
  | .header got, b =>
    if got.length < 4 then .header (got++[b])
    else if BigEndian.decode (got++[b]).tail = 0 then fresh
    else .payload ((got++[b]).headD 0) (BigEndian.decode (got++[b]).tail) []
  | .payload tag len got, b =>
    if got.length+1 < len then .payload tag len (got++[b]) else fresh

end ReadFrame

/-- The loop around `read_frame`: bytes in, completed frames out. -/
def frameReader : Mealy ReadFrame UInt8 Frame where
  next := ReadFrame.advance
  emit s b := (s.completes b).toList

namespace ReadFrame

/-- Reachable states: a short header, or a payload that still misses bytes. -/
def WellFormed : ReadFrame → Prop
  | .header got => got.length < 5
  | .payload _ len got => got.length < len ∧ len < 2^32

theorem fresh_wellFormed : fresh.WellFormed := by simp [fresh,WellFormed]

@[simp] theorem consumed_fresh : fresh.consumed = [] := rfl
@[simp] theorem consumed_header (got : List UInt8) : (header got).consumed = got := rfl
@[simp] theorem consumed_payload (tag : UInt8) (len : ℕ) (got : List UInt8) :
    (payload tag len got).consumed = tag :: (BigEndian.encode 4 len ++ got) := rfl

theorem consumed_eq_nil {s : ReadFrame} : s.consumed = [] ↔ s = fresh := by
  cases s <;> simp [consumed,fresh]

lemma encode_decode_tail {hdr : List UInt8} (h : hdr.length = 5) :
    hdr.headD 0 :: BigEndian.encode 4 (BigEndian.decode hdr.tail) = hdr := by
  cases hdr with
  | nil => simp at h
  | cons tag lenBytes =>
    have hlen : lenBytes.length = 4 := by simpa using h
    have henc := BigEndian.encode_decode lenBytes
    rw [hlen] at henc
    simp [henc]

/-- No byte is lost or invented by one step: what the future held and the new byte are
the frame it completes, if any, and what it holds then. -/
theorem advance_conserves (s : ReadFrame) (b : UInt8) (h : s.WellFormed) :
    writeFrames (s.completes b).toList ++ (s.advance b).consumed = s.consumed ++ [b] := by
  cases s with
  | header got =>
    by_cases hshort : got.length < 4
    · simp [completes,advance,hshort]
    · have hfull : (got++[b]).length = 5 := by
        simp only [WellFormed] at h
        simp
        omega
      have hhdr := encode_decode_tail hfull
      by_cases hz : BigEndian.decode (got++[b]).tail = 0
      · rw [hz] at hhdr
        simp only [completes,advance,hshort,hz,if_true,if_false,Option.toList,writeFrames_cons,
          writeFrames_nil,writeFrame,List.length_nil,List.append_nil,consumed_fresh,hhdr,
          consumed_header]
      · simp only [completes,advance,hshort,hz,if_false,Option.toList,writeFrames_nil,
          List.nil_append,consumed_payload,List.append_nil,hhdr,consumed_header]
  | payload tag len got =>
    obtain ⟨hgot,hlen⟩ := h
    by_cases hmore : got.length+1 < len
    · simp [completes,advance,hmore]
    · have he : len = got.length+1 := by omega
      simp only [completes,advance,hmore,if_false,Option.toList,writeFrames_cons,writeFrames_nil,
        writeFrame,consumed_fresh,List.append_nil]
      simp [he]

theorem advance_wellFormed (s : ReadFrame) (b : UInt8) (h : s.WellFormed) :
    (s.advance b).WellFormed := by
  cases s with
  | header got =>
    by_cases hshort : got.length < 4
    · simp only [advance,hshort,if_true,WellFormed,List.length_append,List.length_singleton]
      omega
    · by_cases hz : BigEndian.decode (got++[b]).tail = 0
      · simpa only [advance,hshort,hz,if_true,if_false] using fresh_wellFormed
      · have hfour : (got++[b]).tail.length = 4 := by
          simp only [WellFormed] at h
          simp
          omega
        have hlt := BigEndian.decode_lt (got++[b]).tail
        rw [hfour] at hlt
        simp only [advance,hshort,hz,if_false,WellFormed,List.length_nil]
        exact ⟨by omega,by omega⟩
  | payload tag len got =>
    by_cases hmore : got.length+1 < len
    · rw [advance,if_pos hmore]
      exact ⟨by simpa using hmore,h.2⟩
    · rw [advance,if_neg hmore]
      exact fresh_wellFormed

end ReadFrame

open ReadFrame

/-- The bytes fed are exactly the frames returned and the bytes of the unfinished one. -/
theorem frameReader_conserves (s : ReadFrame) (xs : List UInt8) (h : s.WellFormed) :
    writeFrames (frameReader.out s xs) ++ (frameReader.state s xs).consumed =
      s.consumed ++ xs := by
  induction xs generalizing s with
  | nil => simp
  | cons x xs ih =>
    have hstep := advance_conserves s x h
    have htail := ih (s.advance x) (advance_wellFormed s x h)
    simp only [frameReader,Mealy.out_cons,Mealy.state_cons,writeFrames_append,List.append_assoc]
      at htail ⊢
    rw [htail,← List.append_assoc,hstep]
    simp

theorem frameReader_wellFormed (s : ReadFrame) (xs : List UInt8) (h : s.WellFormed) :
    (frameReader.state s xs).WellFormed := by
  induction xs generalizing s with
  | nil => exact h
  | cons x xs ih => exact ih (s.advance x) (advance_wellFormed s x h)

theorem completes_fits {s : ReadFrame} {b : UInt8} {f : Frame} (h : s.WellFormed)
    (hf : s.completes b = some f) : f.Fits := by
  cases s with
  | header got =>
    simp only [completes] at hf
    split_ifs at hf
    cases hf
    simp [Frame.Fits]
  | payload tag len got =>
    obtain ⟨hgot,hlen⟩ := h
    simp only [completes] at hf
    split_ifs at hf
    cases hf
    simp only [Frame.Fits,List.length_append,List.length_singleton]
    omega

theorem frameReader_fits (s : ReadFrame) (xs : List UInt8) (h : s.WellFormed) :
    ∀ f ∈ frameReader.out s xs, f.Fits := by
  induction xs generalizing s with
  | nil => simp
  | cons x xs ih =>
    intro f hf
    rw [Mealy.out_cons,List.mem_append] at hf
    rcases hf with hf | hf
    · exact completes_fits h (Option.mem_toList.mp hf)
    · exact ih (s.advance x) (advance_wellFormed s x h) f hf

/-- Encoded frames are self-delimiting. -/
theorem writeFrame_append_inj {f g : Frame} {r t : List UInt8} (hf : f.Fits) (hg : g.Fits)
    (h : writeFrame f ++ r = writeFrame g ++ t) : f = g ∧ r = t := by
  simp only [writeFrame,List.cons_append,List.append_assoc,List.cons.injEq] at h
  obtain ⟨htag,hrest⟩ := h
  obtain ⟨hlen,hpay⟩ := List.append_inj hrest (by simp)
  have hn : f.payload.length = g.payload.length := by
    have := congrArg BigEndian.decode hlen
    rwa [BigEndian.decode_encode_of_lt (by simpa [Frame.Fits] using hf),
      BigEndian.decode_encode_of_lt (by simpa [Frame.Fits] using hg)] at this
  obtain ⟨hp,hr⟩ := List.append_inj hpay hn
  exact ⟨by cases f; cases g; simp_all,hr⟩

/-- Frames whose bytes start the bytes of a list of frames start that list. -/
theorem writeFrames_prefix {fs gs : List Frame} {r : List UInt8} (hfs : ∀ f ∈ fs, f.Fits)
    (hgs : ∀ g ∈ gs, g.Fits) (h : writeFrames gs ++ r <+: writeFrames fs) : gs <+: fs := by
  induction gs generalizing fs with
  | nil => exact List.nil_prefix
  | cons g gs ih =>
    obtain ⟨t,ht⟩ := h
    cases fs with
    | nil => simp [writeFrame] at ht
    | cons f fs =>
      rw [writeFrames_cons,writeFrames_cons,List.append_assoc,List.append_assoc] at ht
      obtain ⟨rfl,hrest⟩ :=
        writeFrame_append_inj (hgs g (by simp)) (hfs f (by simp)) ht
      have htail := ih (fun f hf => hfs f (List.mem_cons_of_mem _ hf))
        (fun g hg => hgs g (List.mem_cons_of_mem _ hg))
        ⟨t,by rw [List.append_assoc]; exact hrest⟩
      exact List.cons_prefix_cons.mpr ⟨rfl,htail⟩

/-- A reader that starts between frames and is fed any first part of the written bytes
returns a first part of the written frames. -/
theorem frameReader_out_prefix {fs : List Frame} {xs : List UInt8} (hfs : ∀ f ∈ fs, f.Fits)
    (h : xs <+: writeFrames fs) : frameReader.out fresh xs <+: fs := by
  have hcons := frameReader_conserves fresh xs fresh_wellFormed
  refine writeFrames_prefix (r := (frameReader.state fresh xs).consumed) hfs
    (frameReader_fits fresh xs fresh_wellFormed) ?_
  rw [hcons]
  simpa using h

/-- Bytes that a future still holds do not begin with a whole frame. -/
theorem consumed_no_frame {s : ReadFrame} (h : s.WellFormed) {f : Frame} (hf : f.Fits) :
    ¬writeFrame f <+: s.consumed := by
  rintro ⟨more,he⟩
  cases s with
  | header got =>
    have hlen := congrArg List.length he
    simp only [WellFormed] at h
    simp only [writeFrame,List.cons_append,List.length_cons,List.length_append,
      BigEndian.encode_length,consumed_header] at hlen
    omega
  | payload tag len got =>
    obtain ⟨hgot,hbound⟩ := h
    rw [writeFrame,consumed_payload,List.cons_append,List.append_assoc] at he
    obtain ⟨hheader,hrest⟩ := List.append_inj (List.cons.inj he).2 (by simp)
    have hsame := congrArg BigEndian.decode hheader
    rw [BigEndian.decode_encode_of_lt (by simpa [Frame.Fits] using hf),
      BigEndian.decode_encode_of_lt (by simpa using hbound)] at hsame
    have := congrArg List.length hrest
    rw [List.length_append] at this
    omega

theorem consumed_ne_writeFrames {s : ReadFrame} (h : s.WellFormed) {f : Frame} {fs : List Frame}
    (hf : f.Fits) : writeFrames (f::fs) ≠ s.consumed :=
  fun he => consumed_no_frame h hf ⟨writeFrames fs,he⟩

/-- Frames that fit are read back as they were written. -/
theorem frameReader_writeFrames {fs : List Frame} (hfs : ∀ f ∈ fs, f.Fits) :
    frameReader.out fresh (writeFrames fs) = fs := by
  obtain ⟨rest,hrest⟩ := frameReader_out_prefix hfs List.prefix_rfl
  have hcons := frameReader_conserves fresh (writeFrames fs) fresh_wellFormed
  rw [consumed_fresh,List.nil_append] at hcons
  nth_rewrite 3 [← hrest] at hcons
  rw [writeFrames_append] at hcons
  have hheld := (List.append_cancel_left hcons).symm
  cases rest with
  | nil => rw [List.append_nil] at hrest; exact hrest
  | cons f rest =>
    have hf : f ∈ fs := by rw [← hrest]; simp
    exact absurd hheld (consumed_ne_writeFrames (frameReader_wellFormed _ _ fresh_wellFormed) (hfs f hf))

/-- Behind whole frames the reader is where it began. -/
theorem frameReader_writeFrames_append {fs : List Frame} (hfs : ∀ f ∈ fs, f.Fits)
    (bytes : List UInt8) :
    frameReader.out fresh (writeFrames fs ++ bytes) = fs ++ frameReader.out fresh bytes := by
  have hcons := frameReader_conserves fresh (writeFrames fs) fresh_wellFormed
  rw [frameReader_writeFrames hfs,consumed_fresh,List.nil_append,List.append_right_eq_self,
    consumed_eq_nil] at hcons
  rw [Mealy.out_append,frameReader_writeFrames hfs,hcons]

/-- A truncated length cuts the payload, and its rest is read as what follows. -/
theorem writeFrame_cut (f : Frame) :
    writeFrame f = writeFrame ⟨f.tag,f.payload.take (f.payload.length % 2^32)⟩ ++
      f.payload.drop (f.payload.length % 2^32) := by
  have hle : f.payload.length % 2^32 ≤ f.payload.length := Nat.mod_le _ _
  have hencode := BigEndian.encode_mod 4 f.payload.length
  rw [show 256^4 = 2^32 by norm_num] at hencode
  simp only [writeFrame,List.length_take,Nat.min_eq_left hle,hencode,List.cons_append,
    List.append_assoc,List.take_append_drop]

end Babysit
