import Babysit.Frame

/-! `read_frame` over a stream that arrives in pieces and ends anywhere. What the two
`read_exact` calls take is what the machine `frameReader` takes byte by byte, so a stream that
is cut gives the frames before the cut and no part of another one. -/
namespace Babysit
open ReadFrame

/-- The pieces in which the bytes arrive; behind the last one the peer has closed. -/
abbrev Arrivals := List (List UInt8)

inductive ReadError
  | unexpectedEof
  deriving DecidableEq, Repr

/-- Takes what a piece has until the buffer is full. -/
def readExact : ℕ → Arrivals → Except ReadError (List UInt8 × Arrivals)
  | 0,s => .ok ([],s)
  | _+1,[] => .error .unexpectedEof
  | want+1,piece::rest =>
    if want+1 ≤ piece.length then .ok (piece.take (want+1),piece.drop (want+1) :: rest)
    else (readExact (want+1-piece.length) rest).map fun p => (piece++p.1,p.2)

/-- A stream that ends in the header is a clean end. -/
def readFrame (s : Arrivals) : Except ReadError (Option (Frame × Arrivals)) :=
  match readExact 5 s with
  | .error .unexpectedEof => .ok none
  | .ok (hdr,s) =>
    if BigEndian.decode hdr.tail = 0 then .ok (some (⟨hdr.headD 0,[]⟩,s))
    else (readExact (BigEndian.decode hdr.tail) s).map fun p => some (⟨hdr.headD 0,p.1⟩,p.2)

variable {s : Arrivals} {xs : List UInt8} {want : ℕ}

theorem readExact_of_le (want : ℕ) (h : want ≤ s.flatten.length) :
    ∃ rest, readExact want s = .ok (s.flatten.take want,rest) ∧
      rest.flatten = s.flatten.drop want := by
  induction s generalizing want with
  | nil =>
    obtain rfl : want = 0 := by simpa using h
    exact ⟨[],rfl,rfl⟩
  | cons piece rest ih =>
    cases want with
    | zero => exact ⟨piece::rest,rfl,rfl⟩
    | succ want =>
      rw [List.flatten_cons,List.length_append] at h
      rw [readExact,List.flatten_cons]
      split_ifs with hpiece
      · exact ⟨_,by rw [List.take_append_of_le_length hpiece],
          by rw [List.flatten_cons,List.drop_append_of_le_length hpiece]⟩
      · obtain ⟨later,hread,hlater⟩ := ih (want+1-piece.length) (by omega)
        refine ⟨later,?_,?_⟩
        · rw [hread,List.take_append,List.take_of_length_le (by omega : piece.length ≤ want+1)]
          rfl
        · rw [hlater,List.drop_append,List.drop_of_length_le (by omega : piece.length ≤ want+1),
            List.nil_append]

theorem readExact_of_lt (h : s.flatten.length < want) :
    readExact want s = .error .unexpectedEof := by
  induction s generalizing want with
  | nil =>
    cases want with
    | zero => exact absurd h (Nat.not_lt_zero _)
    | succ want => rfl
  | cons piece rest ih =>
    cases want with
    | zero => exact absurd h (Nat.not_lt_zero _)
    | succ want =>
      rw [List.flatten_cons,List.length_append] at h
      rw [readExact,if_neg (by omega),ih (by omega)]
      rfl

/-! What the machine does with the bytes of one `read_exact`. -/

theorem frameReader_header_short (got xs : List UInt8) (h : got.length + xs.length < 5) :
    frameReader.out (.header got) xs = [] ∧
      frameReader.state (.header got) xs = .header (got++xs) := by
  induction xs generalizing got with
  | nil => simp
  | cons x xs ih =>
    rw [List.length_cons] at h
    have hshort : got.length < 4 := by omega
    obtain ⟨hout,hstate⟩ := ih (got++[x]) (by simp; omega)
    rw [Mealy.out_cons,Mealy.state_cons]
    simp only [frameReader,completes,advance,hshort,if_true] at hout hstate ⊢
    exact ⟨by simpa using hout,by simpa using hstate⟩

/-- The fifth byte decides between an empty frame and a payload. -/
theorem frameReader_header (h : xs.length = 5) :
    (BigEndian.decode xs.tail = 0 →
      frameReader.out fresh xs = [⟨xs.headD 0,[]⟩] ∧ frameReader.state fresh xs = fresh) ∧
    (BigEndian.decode xs.tail ≠ 0 → frameReader.out fresh xs = [] ∧
      frameReader.state fresh xs = .payload (xs.headD 0) (BigEndian.decode xs.tail) []) := by
  obtain ⟨got,b,rfl⟩ := (List.eq_nil_or_concat' xs).resolve_left (by rintro rfl; simp at h)
  have hgot : got.length = 4 := by simpa using h
  obtain ⟨hout,hstate⟩ := frameReader_header_short [] got (by simp [hgot])
  rw [List.nil_append] at hstate
  rw [frameReader.out_append,frameReader.state_append,fresh,hout,hstate,List.nil_append]
  constructor <;> intro hlen <;> simp [frameReader,completes,advance,hgot,hlen,fresh]

theorem frameReader_payload_short (tag : UInt8) (len : ℕ) (got xs : List UInt8)
    (h : got.length + xs.length < len) :
    frameReader.out (.payload tag len got) xs = [] ∧
      frameReader.state (.payload tag len got) xs = .payload tag len (got++xs) := by
  induction xs generalizing got with
  | nil => simp
  | cons x xs ih =>
    rw [List.length_cons] at h
    have hshort : got.length+1 < len := by omega
    obtain ⟨hout,hstate⟩ := ih (got++[x]) (by simp; omega)
    rw [Mealy.out_cons,Mealy.state_cons]
    simp only [frameReader,completes,advance,hshort,if_true] at hout hstate ⊢
    exact ⟨by simpa using hout,by simpa using hstate⟩

theorem frameReader_payload (tag : UInt8) (xs : List UInt8) (h : xs ≠ []) :
    frameReader.out (.payload tag xs.length []) xs = [⟨tag,xs⟩] ∧
      frameReader.state (.payload tag xs.length []) xs = fresh := by
  obtain ⟨got,b,rfl⟩ := (List.eq_nil_or_concat' xs).resolve_left h
  rw [List.length_append,List.length_singleton]
  obtain ⟨hout,hstate⟩ :=
    frameReader_payload_short tag (got.length+1) [] got (by simp)
  rw [List.nil_append] at hstate
  rw [frameReader.out_append,frameReader.state_append,hout,hstate]
  simp [frameReader,completes,advance]

/-- A call of `read_frame` in the machine's terms: it ends in the header, or in the payload, or
it takes the bytes of one frame and leaves the machine fresh. -/
inductive FrameRead (s : Arrivals) : Except ReadError (Option (Frame × Arrivals)) → Prop
  | closed (hout : frameReader.out fresh s.flatten = [])
      (hstate : frameReader.state fresh s.flatten = .header s.flatten) : FrameRead s (.ok none)
  | cut (tag : UInt8) (len : ℕ) (got : List UInt8)
      (hout : frameReader.out fresh s.flatten = [])
      (hstate : frameReader.state fresh s.flatten = .payload tag len got) :
      FrameRead s (.error .unexpectedEof)
  | frame (f : Frame) (rest : Arrivals) (bytes : List UInt8) (hne : bytes ≠ [])
      (hbytes : s.flatten = bytes ++ rest.flatten) (hout : frameReader.out fresh bytes = [f])
      (hstate : frameReader.state fresh bytes = fresh) : FrameRead s (.ok (some (f,rest)))

theorem readFrame_spec (s : Arrivals) : FrameRead s (readFrame s) := by
  by_cases hshort : s.flatten.length < 5
  · obtain ⟨hout,hstate⟩ := frameReader_header_short [] s.flatten
      (by rw [List.length_nil,Nat.zero_add]; exact hshort)
    rw [readFrame,readExact_of_lt hshort]
    exact .closed hout hstate
  · obtain ⟨rest,hread,hrest⟩ := readExact_of_le 5 (Nat.le_of_not_lt hshort)
    have hsplit : s.flatten = s.flatten.take 5 ++ rest.flatten := by
      rw [hrest,List.take_append_drop]
    have hfive : (s.flatten.take 5).length = 5 := by
      rw [List.length_take]
      omega
    have hne : s.flatten.take 5 ≠ [] := by
      intro hnil
      simp [hnil] at hfive
    obtain ⟨hempty,hmore⟩ := frameReader_header hfive
    rw [readFrame,hread]
    dsimp only
    generalize s.flatten.take 5 = hdr at *
    split_ifs with hlen
    · exact .frame _ rest hdr hne hsplit (hempty hlen).1 (hempty hlen).2
    · obtain ⟨hout,hstate⟩ := hmore hlen
      by_cases hpayload : BigEndian.decode hdr.tail ≤ rest.flatten.length
      · obtain ⟨later,hread,hlater⟩ := readExact_of_le _ hpayload
        have htake : (rest.flatten.take (BigEndian.decode hdr.tail)).length =
            BigEndian.decode hdr.tail := by
          rw [List.length_take]
          omega
        have hfull := frameReader_payload (hdr.headD 0)
          (rest.flatten.take (BigEndian.decode hdr.tail)) (by
            intro hnil
            rw [hnil] at htake
            exact hlen htake.symm)
        rw [htake] at hfull
        rw [hread]
        refine .frame _ later (hdr ++ rest.flatten.take (BigEndian.decode hdr.tail)) (by simp [hne])
          ?_ ?_ ?_
        · rw [hlater,List.append_assoc,List.take_append_drop,hsplit]
        · rw [frameReader.out_append,hout,hstate,hfull.1,List.nil_append]
        · rw [frameReader.state_append,hstate,hfull.2]
      · have hpart := frameReader_payload_short (hdr.headD 0) (BigEndian.decode hdr.tail) []
          rest.flatten (by rw [List.length_nil]; omega)
        rw [readExact_of_lt (by omega)]
        refine .cut (hdr.headD 0) (BigEndian.decode hdr.tail) ([] ++ rest.flatten) ?_ ?_
        · rw [hsplit,frameReader.out_append,hout,hstate,hpart.1,List.nil_append]
        · rw [hsplit,frameReader.state_append,hstate,hpart.2]

theorem readFrame_shorter {f : Frame} {rest : Arrivals} (h : readFrame s = .ok (some (f,rest))) :
    rest.flatten.length < s.flatten.length := by
  have hspec := readFrame_spec s
  rw [h] at hspec
  obtain - | - | ⟨_,_,bytes,hne,hbytes,-,-⟩ := hspec
  rw [hbytes,List.length_append]
  have := List.length_pos_iff.mpr hne
  omega

/-- The calls of `read_frame` until one gives no frame, and what that one gives. -/
def readFrames (s : Arrivals) : List Frame × Except ReadError Unit :=
  match _ : readFrame s with
  | .ok none => ([],.ok ())
  | .error e => ([],.error e)
  | .ok (some (f,rest)) => (f :: (readFrames rest).1,(readFrames rest).2)
termination_by s.flatten.length
decreasing_by exact readFrame_shorter ‹_›

/-- How the stream ends for a reader that holds the bytes of an unfinished frame. -/
def ReadFrame.ending : ReadFrame → Except ReadError Unit
  | .header _ => .ok ()
  | .payload _ _ _ => .error .unexpectedEof

/-- However the bytes are cut into pieces, the calls give what the machine gives. -/
theorem readFrames_eq (s : Arrivals) :
    readFrames s = (frameReader.out fresh s.flatten,(frameReader.state fresh s.flatten).ending) := by
  induction h : s.flatten.length using Nat.strongRecOn generalizing s with
  | ind n ih =>
    have hspec := readFrame_spec s
    rw [readFrames]
    split <;> rename_i hread <;> rw [hread] at hspec
    · obtain ⟨hout,hstate⟩ | - | - := hspec
      rw [hout,hstate]
      rfl
    · obtain - | ⟨tag,len,got,hout,hstate⟩ | - := hspec
      rw [hout,hstate]
      rfl
    · rename_i f rest
      have hshort := readFrame_shorter hread
      obtain - | - | ⟨_,_,bytes,-,hbytes,hout,hstate⟩ := hspec
      change (f :: (readFrames rest).1,(readFrames rest).2) = _
      rw [ih rest.flatten.length (h ▸ hshort) rest rfl,hbytes,frameReader.out_append,
        frameReader.state_append,hout,hstate]
      rfl

/-- A stream that is cut anywhere, in whatever pieces it arrives, gives the frames that lie
before the cut and then a clean end, or an error where the cut is in a payload. -/
theorem frames_before_a_cut (fs : List Frame) (hfs : ∀ f ∈ fs, f.Fits) (s : Arrivals) (cut : ℕ)
    (hcut : s.flatten = (writeFrames fs).take cut) :
    ∃ whole later part, fs = whole++later ∧ s.flatten = writeFrames whole ++ part ∧
      (∀ f ∈ later.head?, part.length < (writeFrame f).length) ∧ (later = [] → part = []) ∧
      readFrames s =
        (whole,if part.length < 5 then .ok () else .error ReadError.unexpectedEof) := by
  have hprefix : s.flatten <+: writeFrames fs := hcut ▸ List.take_prefix cut _
  have hwell := frameReader_wellFormed fresh s.flatten fresh_wellFormed
  have hcons := frameReader_conserves fresh s.flatten fresh_wellFormed
  rw [consumed_fresh,List.nil_append] at hcons
  obtain ⟨later,hlater⟩ := frameReader_out_prefix hfs hprefix
  rw [readFrames_eq]
  generalize frameReader.out fresh s.flatten = whole at *
  generalize frameReader.state fresh s.flatten = held at *
  have hpart : held.consumed <+: writeFrames later := by
    rw [← hcons,← hlater,writeFrames_append] at hprefix
    exact (List.prefix_append_right_inj _).mp hprefix
  refine ⟨whole,later,held.consumed,hlater.symm,hcons.symm,?_,?_,?_⟩
  · intro f hf
    obtain ⟨rest,rfl⟩ := List.head?_eq_some_iff.mp hf
    have hfits : f.Fits := hfs f (by rw [← hlater]; simp)
    by_contra hlong
    refine consumed_no_frame hwell hfits (List.prefix_of_prefix_length_le ?_ hpart (by omega))
    exact List.prefix_append _ _
  · rintro rfl
    exact List.prefix_nil.mp hpart
  · cases held with
    | header got =>
      have hshort : got.length < 5 := hwell
      rw [consumed_header,if_pos hshort]
      rfl
    | payload tag len got =>
      rw [if_neg (by simp)]
      rfl

theorem frames_before_a_cut_in_a_header :
    ∃ whole later part, [(⟨1,[7,8]⟩ : Frame),⟨5,[]⟩] = whole++later ∧
      ([[1,0],[0,0,2,7],[8,5,0]] : Arrivals).flatten = writeFrames whole ++ part ∧
      (∀ f ∈ later.head?, part.length < (writeFrame f).length) ∧ (later = [] → part = []) ∧
      readFrames [[1,0],[0,0,2,7],[8,5,0]] =
        (whole,if part.length < 5 then .ok () else .error ReadError.unexpectedEof) :=
  frames_before_a_cut [⟨1,[7,8]⟩,⟨5,[]⟩] (by simp [Frame.Fits]) [[1,0],[0,0,2,7],[8,5,0]] 9
    (by decide)

end Babysit
