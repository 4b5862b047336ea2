import Babysit.Lib.Vt
import Babysit.ReadSlice

/-! Reading a log in polls against reading it at once. A poll restarts the stripping parser
from its ground state, so what the polls return is the stripped text as long as no cut falls
inside an escape sequence whose rest has something to print. -/
namespace Babysit
open Utf8 Vt

/-- Read at every log length in turn, each time from where the last read stopped. -/
def readAll (strip : List UInt8 → List UInt8) (log : List UInt8) (off : ℕ) :
    List ℕ → List Char × ℕ
  | [] => ([],off)
  | n::ns =>
    let r := readSlice strip (some (log.take n)) off false
    let rest := readAll strip log r.2 ns
    (r.1 ++ rest.1,rest.2)

/-- The texts of all reads are the text of one pass over the bytes they cover. -/
def IncrementalExact (strip : List UInt8 → List UInt8) (log : List UInt8) (ns : List ℕ) : Prop :=
  (readAll strip log 0 ns).1 = decodeLossy (strip (log.take (readAll strip log 0 ns).2))

/-- Nothing is held back for the sake of an escape sequence. -/
def LastEscapeComplete (bytes : List UInt8) : Prop :=
  ∀ esc ∈ rposition (· = 0x1b) bytes, escapeComplete (bytes.drop esc) = true

/-- The text between two polls is harmless where the first one cuts. -/
def CutsHarmlessly (shift : Bool) (cs : List Char) (n m : ℕ) : Prop :=
  LastEscapeComplete ((encode cs).take n) →
    Harmless shift ((parser shift).state .ground (wholeWithin n cs))
      ((wholeWithin m cs).drop (wholeWithin n cs).length)

/-- The text a poll at log length n has returned the last of: all whole characters, or
those before an escape sequence that is held back. -/
inductive CutAt (cs : List Char) (n : ℕ) : List Char → Prop
  | whole : LastEscapeComplete ((encode cs).take n) → CutAt cs n (wholeWithin n cs)
  | held {kept post : List Char} : wholeWithin n cs = kept ++ Vt.ESC::post →
      ¬LastEscapeComplete ((encode cs).take n) → CutAt cs n kept

variable {cs kept : List Char} {n m : ℕ}

theorem escape_byte_iff (c : Char) : (0x1b : UInt8) ∈ String.utf8EncodeChar c ↔ c = Vt.ESC := by
  have hseq := isSequence_encodeChar c
  by_cases hlen : (String.utf8EncodeChar c).length = 1
  · generalize String.utf8EncodeChar c = bs at hseq hlen
    cases hseq with
    | one a ha hn =>
      rw [List.mem_singleton,← UInt8.toNat_inj,hn]
      constructor
      · intro h
        apply Char.ext
        apply UInt32.toNat_inj.mp
        exact h.symm
      · rintro rfl
        rfl
    | _ => simp at hlen
  · constructor
    · intro h
      have := hseq.high hlen _ h
      simp at this
    · rintro rfl
      exact absurd rfl hlen

theorem not_escape_of_high {part : List UInt8} (h : ∀ b ∈ part, 0x80 ≤ b.toNat) :
    ∀ b ∈ part, decide (b = 0x1b) = false := by
  intro b hb
  have := h b hb
  rw [decide_eq_false_iff_not]
  rintro rfl
  simp at this

theorem rposition_encode_of_not_mem (h : Vt.ESC ∉ cs) (part : List UInt8)
    (hpart : ∀ b ∈ part, 0x80 ≤ b.toNat) :
    rposition (· = 0x1b) (encode cs ++ part) = none := by
  apply rposition_of_forall_not
  intro b hb
  rcases List.mem_append.mp hb with hb | hb
  · obtain ⟨c,hc,hb⟩ := List.mem_flatMap.mp hb
    rw [decide_eq_false_iff_not]
    rintro rfl
    obtain rfl := (escape_byte_iff c).mp hb
    exact h hc
  · exact not_escape_of_high hpart b hb

theorem lastEscapeComplete_of_no_escape (h : Vt.ESC ∉ cs) : LastEscapeComplete (encode cs) := by
  have hno := rposition_encode_of_not_mem h [] (by simp)
  rw [List.append_nil] at hno
  intro esc hesc
  rw [hno] at hesc
  cases hesc

/-- The last escape of a text is the last escape byte of its encoding. -/
theorem rposition_encode {pre post : List Char} (h : Vt.ESC ∉ post) (part : List UInt8)
    (hpart : ∀ b ∈ part, 0x80 ≤ b.toNat) :
    rposition (· = 0x1b) (encode (pre ++ Vt.ESC::post) ++ part) = some (encode pre).length := by
  have hsplit : encode (pre ++ Vt.ESC::post) ++ part = encode pre ++ 0x1b::(encode post ++ part) := by
    rw [encode_append,encode_cons,List.append_assoc]
    rfl
  rw [hsplit,rposition_append,rposition,rposition_encode_of_not_mem h part hpart]
  simp

/-- A text without an escape, or the text up to and behind the last one. -/
theorem last_escape (cs : List Char) :
    Vt.ESC ∉ cs ∨ ∃ pre post, cs = pre ++ Vt.ESC::post ∧ Vt.ESC ∉ post := by
  induction cs with
  | nil => exact .inl List.not_mem_nil
  | cons c cs ih =>
    rcases ih with hnone | ⟨pre,post,rfl,hpost⟩
    · by_cases hc : c = Vt.ESC
      · exact .inr ⟨[],cs,by rw [hc]; rfl,hnone⟩
      · exact .inl (by simp [hnone,Ne.symm hc])
    · exact .inr ⟨c::pre,post,rfl,hpost⟩

theorem safePrefixLen_of_complete (h : LastEscapeComplete ((encode cs).take n)) :
    safePrefixLen ((encode cs).take n) = (encode (wholeWithin n cs)).length := by
  obtain ⟨part,htake,-,hcheck⟩ := checkFrom_take n cs 0
  have hstop : escapeStop ((encode cs).take n) = ((encode cs).take n).length := by
    unfold escapeStop
    split
    next esc hesc => rw [if_neg (not_not_intro (h esc hesc))]
    next => rfl
  simp only [safePrefixLen,hstop,List.take_length,check,hcheck]
  split_ifs with hpart
  · rw [htake,hpart,List.append_nil]
  · exact Nat.zero_add _

theorem safePrefixLen_of_incomplete {pre post : List Char}
    (hwhole : wholeWithin n cs = pre ++ Vt.ESC::post) (hpost : Vt.ESC ∉ post)
    (h : ¬LastEscapeComplete ((encode cs).take n)) :
    safePrefixLen ((encode cs).take n) = (encode pre).length := by
  obtain ⟨part,htake,hhigh,-⟩ := checkFrom_take n cs 0
  have hlast : rposition (· = 0x1b) ((encode cs).take n) = some (encode pre).length := by
    rw [htake,hwhole,rposition_encode hpost part hhigh]
  have hincomplete : ¬escapeComplete (((encode cs).take n).drop (encode pre).length) = true := by
    intro hcomplete
    apply h
    intro esc hesc
    rw [hlast] at hesc
    obtain rfl := Option.some.inj hesc
    exact hcomplete
  have hpre : ((encode cs).take n).take (encode pre).length = encode pre := by
    rw [htake,hwhole,encode_append,List.append_assoc,List.take_left']
    rfl
  simp only [safePrefixLen,escapeStop,hlast,if_pos hincomplete,hpre,check,checkFrom_encode]

/-- The safe part of the beginning of a text is a text. -/
theorem exists_of_safePrefixLen {bytes more : List UInt8} (h : bytes++more <+: encode cs)
    (hsafe : safePrefixLen (bytes++more) = bytes.length) :
    ∃ piece rest, cs = piece ++ rest ∧ bytes = encode piece := by
  obtain ⟨n,hbytes⟩ : ∃ n,bytes++more = (encode cs).take n := ⟨_,List.prefix_iff_eq_take.mp h⟩
  obtain ⟨part,htake,hhigh,-⟩ := checkFrom_take n cs 0
  have hpiece : ∀ piece, safePrefixLen (bytes++more) = (encode piece).length →
      piece <+: wholeWithin n cs →
      ∃ piece rest, cs = piece ++ rest ∧ bytes = encode piece := by
    intro piece hlen hpre
    obtain ⟨rest,hrest⟩ := hpre.trans (wholeWithin_isPrefix _ cs)
    refine ⟨piece,rest,hrest.symm,?_⟩
    have hpieces : encode piece <+: bytes++more := by
      obtain ⟨left,hleft⟩ := hpre
      rw [hbytes,htake,← hleft,encode_append,List.append_assoc]
      exact List.prefix_append _ _
    have hfirst : bytes <+: bytes++more := List.prefix_append _ _
    exact (List.prefix_of_prefix_length_le hfirst hpieces (by omega)).eq_of_length (by omega)
  by_cases hcomplete : LastEscapeComplete (bytes++more)
  · refine hpiece _ ?_ List.prefix_rfl
    rw [hbytes] at hcomplete ⊢
    exact safePrefixLen_of_complete hcomplete
  · rcases last_escape (wholeWithin n cs) with hnone | ⟨pre,post,hlast,hpost⟩
    · refine absurd (fun esc hesc => ?_) hcomplete
      rw [hbytes,htake,rposition_encode_of_not_mem hnone part hhigh] at hesc
      cases hesc
    · refine hpiece pre ?_ (by rw [hlast]; exact List.prefix_append _ _)
      rw [hbytes] at hcomplete ⊢
      exact safePrefixLen_of_incomplete hlast hpost hcomplete

/-- Behind an earlier cut the same escape sequence decides, with the same tail. -/
theorem lastEscapeComplete_append {xs bytes : List UInt8}
    (h : (rposition (· = 0x1b) bytes).isSome = true) :
    LastEscapeComplete (xs++bytes) ↔ LastEscapeComplete bytes := by
  obtain ⟨esc,hesc⟩ := Option.isSome_iff_exists.mp h
  have happend : rposition (· = 0x1b) (xs++bytes) = some (xs.length + esc) := by
    rw [rposition_append,hesc]
    rfl
  simp [LastEscapeComplete,hesc,happend,List.drop_length_add_append]

/-- A later poll that meets no further escape finds the last one still complete. -/
theorem lastEscapeComplete_mono {xs part more : List UInt8}
    (hpart : rposition (· = 0x1b) part = none) (hmore : rposition (· = 0x1b) (part++more) = none)
    (h : LastEscapeComplete (xs++part)) : LastEscapeComplete (xs++(part++more)) := by
  intro esc hesc
  rw [rposition_append,hmore] at hesc
  have hlt := rposition_lt hesc
  have hcomplete := h esc (by rw [rposition_append,hpart]; exact hesc)
  rw [← List.append_assoc,List.drop_append_of_le_length (by rw [List.length_append]; omega)]
  exact escapeComplete_append more hcomplete

theorem CutAt.inv (h : CutAt cs n kept) :
    (LastEscapeComplete ((encode cs).take n) ∧ kept = wholeWithin n cs) ∨
      ∃ post, wholeWithin n cs = kept ++ Vt.ESC::post ∧ ¬LastEscapeComplete ((encode cs).take n) := by
  cases h with
  | whole hcomplete => exact .inl ⟨hcomplete,rfl⟩
  | held hwhole hincomplete => exact .inr ⟨_,hwhole,hincomplete⟩

theorem CutAt.isPrefix_whole (h : CutAt cs n kept) : kept <+: wholeWithin n cs := by
  cases h with
  | whole hcomplete => exact List.prefix_rfl
  | held hwhole hincomplete =>
    rw [hwhole]
    exact List.prefix_append _ _

theorem CutAt.isPrefix_text (h : CutAt cs n kept) : kept <+: cs :=
  h.isPrefix_whole.trans (wholeWithin_isPrefix n cs)

theorem CutAt.length_le (h : CutAt cs n kept) : (encode kept).length ≤ n := by
  obtain ⟨rest,hrest⟩ := h.isPrefix_whole
  have := encode_wholeWithin_length n cs
  rw [← hrest,encode_append,List.length_append] at this
  omega

/-- A read returns the safe prefix of the new bytes, stripped, and where it ends. -/
theorem readSlice_safe {shift : Bool} {strip : List UInt8 → List UInt8}
    (hstrip : ∀ cs, strip (encode cs) = encode (Vt.strip shift cs)) {rest piece more : List Char}
    {k : ℕ} (hmore : wholeWithin k rest = piece ++ more)
    (hsafe : safePrefixLen ((encode rest).take k) = (encode piece).length) :
    readSlice strip (some (encode kept ++ (encode rest).take k)) (encode kept).length false =
      (Vt.strip shift piece,(encode (kept++piece)).length) := by
  obtain ⟨part,hbytes,-,-⟩ := checkFrom_take k rest 0
  rw [hmore,encode_append,List.append_assoc] at hbytes
  unfold readSlice
  by_cases hdone : (encode kept ++ (encode rest).take k).length ≤ (encode kept).length
  · have hpiece : encode piece = [] := by
      rw [hbytes] at hdone
      simp only [List.length_append] at hdone
      apply List.length_eq_zero_iff.mp
      omega
    obtain rfl : piece = [] := encode_injective hpiece
    simp only [if_pos hdone,List.append_nil]
    simp only [List.length_append] at hdone ⊢
    refine Prod.ext rfl ?_
    dsimp only
    omega
  · simp only [if_neg hdone,List.drop_left,hsafe]
    simp only [hbytes,List.take_left,Bool.false_eq_true,if_false,hstrip,decodeLossy_encode,
      encode_append,List.length_append]

/-- Where the new text has no escape, the last one before the cut was complete and stays so. -/
theorem CutAt.complete_of_no_escape {rest : List Char} {k : ℕ} (hcut : CutAt (kept++rest) n kept)
    (hnm : n ≤ m) (htake : (encode (kept++rest)).take m = encode kept ++ (encode rest).take k)
    (hwhole : wholeWithin m (kept++rest) = kept ++ wholeWithin k rest)
    (hnone : Vt.ESC ∉ wholeWithin k rest)
    (hno : rposition (· = 0x1b) ((encode rest).take k) = none) :
    LastEscapeComplete ((encode (kept++rest)).take m) := by
  rcases hcut.inv with ⟨hbefore,hkept⟩ | ⟨post,hheld,-⟩
  · obtain ⟨before,hn,hlow,-⟩ := checkFrom_take n (kept++rest) 0
    rw [← hkept] at hn
    obtain ⟨more,hmore⟩ : before <+: (encode rest).take k := by
      apply (List.prefix_append_right_inj (encode kept)).mp
      rw [← hn,← htake]
      exact List.take_prefix_take_left hnm
    rw [hn] at hbefore
    rw [htake,← hmore]
    rw [← hmore] at hno
    exact lastEscapeComplete_mono (rposition_of_forall_not (not_escape_of_high hlow)) hno hbefore
  · -- the cut held an escape back, which is in the new text
    obtain ⟨more,hmore⟩ := wholeWithin_mono hnm (kept++rest)
    rw [hheld,hwhole,List.append_assoc] at hmore
    have := List.append_cancel_left hmore
    exact absurd (this ▸ List.mem_append_left more List.mem_cons_self) hnone

/-- One poll: the text since the last cut, stripped, and the next cut. -/
theorem readSlice_poll {shift : Bool} {strip : List UInt8 → List UInt8}
    (hstrip : ∀ cs, strip (encode cs) = encode (Vt.strip shift cs)) (hcut : CutAt cs n kept)
    (hnm : n ≤ m) : ∃ piece, CutAt cs m (kept++piece) ∧
      readSlice strip (some ((encode cs).take m)) (encode kept).length false =
        (Vt.strip shift piece,(encode (kept++piece)).length) := by
  obtain ⟨rest,rfl⟩ := hcut.isPrefix_text
  have hlen : (encode kept).length ≤ m := hcut.length_le.trans hnm
  have htake : (encode (kept++rest)).take m =
      encode kept ++ (encode rest).take (m - (encode kept).length) := by
    rw [encode_append,List.take_append,List.take_of_length_le hlen]
  have hwhole := wholeWithin_append kept rest hlen
  generalize hk : m - (encode kept).length = k at htake hwhole
  obtain ⟨part,hbytes,hhigh,-⟩ := checkFrom_take k rest 0
  rcases last_escape (wholeWithin k rest) with hnone | ⟨pre,post,hlast,hpost⟩
  · -- no escape in the new text: everything whole is returned
    have hno : rposition (· = 0x1b) ((encode rest).take k) = none := by
      rw [hbytes]
      exact rposition_encode_of_not_mem hnone part hhigh
    have hcomplete := hcut.complete_of_no_escape hnm htake hwhole hnone hno
    refine ⟨wholeWithin k rest,hwhole ▸ .whole hcomplete,?_⟩
    rw [htake]
    apply readSlice_safe hstrip (List.append_nil _).symm
    apply safePrefixLen_of_complete
    intro esc hesc
    rw [hno] at hesc
    cases hesc
  · -- the last escape is new, and its tail decides
    have hsome : (rposition (· = 0x1b) ((encode rest).take k)).isSome = true := by
      rw [hbytes,hlast,rposition_encode hpost part hhigh]
      rfl
    have hiff : LastEscapeComplete ((encode (kept++rest)).take m) ↔
        LastEscapeComplete ((encode rest).take k) := by
      rw [htake]
      exact lastEscapeComplete_append hsome
    by_cases hcomplete : LastEscapeComplete ((encode rest).take k)
    · refine ⟨wholeWithin k rest,hwhole ▸ .whole (hiff.mpr hcomplete),?_⟩
      rw [htake]
      exact readSlice_safe hstrip (List.append_nil _).symm (safePrefixLen_of_complete hcomplete)
    · have hheld : wholeWithin m (kept++rest) = (kept++pre) ++ Vt.ESC::post := by
        rw [hwhole,hlast,List.append_assoc]
      refine ⟨pre,.held hheld (mt hiff.mp hcomplete),?_⟩
      rw [htake]
      exact readSlice_safe hstrip hlast (safePrefixLen_of_incomplete hlast hpost hcomplete)

/-- Between two cuts the stripped piece is what one pass prints there exactly when the
first cut is harmless. -/
theorem agrees_iff {shift : Bool} {piece : List Char} (hn : CutAt cs n kept)
    (hm : CutAt cs m (kept++piece)) (hnm : n ≤ m) :
    (parser shift).out ((parser shift).state .ground kept) piece =
      (parser shift).out .ground piece ↔ CutsHarmlessly shift cs n m := by
  rw [out_eq_iff]
  unfold CutsHarmlessly
  rcases hn.inv with ⟨hcomplete,rfl⟩ | ⟨post,hheld,hincomplete⟩
  · rw [imp_iff_right hcomplete]
    rcases hm.inv with ⟨-,hpiece⟩ | ⟨post,hpiece,-⟩
    · rw [← hpiece,List.drop_left]
    · rw [hpiece,List.append_assoc,List.drop_left,harmless_append_escape]
  · -- held back: the next piece is empty or begins with the escape
    refine iff_of_true ?_ (fun hcomplete => absurd hcomplete hincomplete)
    have hstart : piece <+: Vt.ESC::(post ++ (wholeWithin m cs).drop (wholeWithin n cs).length) := by
      obtain ⟨more,hmore⟩ := wholeWithin_mono hnm cs
      have hbegins := hm.isPrefix_whole
      rw [← hmore,hheld,List.append_assoc] at hbegins
      rw [← hmore,List.drop_left]
      exact (List.prefix_append_right_inj kept).mp hbegins
    cases piece with
    | nil => exact harmless_nil
    | cons c cs =>
      obtain ⟨rfl,-⟩ := List.cons_prefix_cons.mp hstart
      exact harmless_cons_of_resets resets_escape

/-- All polls: the stripped pieces, which agree with one pass when every cut is harmless. -/
theorem readAll_run {shift : Bool} {strip : List UInt8 → List UInt8}
    (hstrip : ∀ cs, strip (encode cs) = encode (Vt.strip shift cs)) {ns : List ℕ}
    (hcut : CutAt cs n kept) (hns : (n::ns).IsChain (· ≤ ·)) :
    ∃ pieces : List (List Char), kept ++ pieces.flatten <+: cs ∧
      readAll strip (encode cs) (encode kept).length ns =
        ((parser shift).restarted .ground pieces,(encode (kept ++ pieces.flatten)).length) ∧
      ((parser shift).Agrees .ground ((parser shift).state .ground kept) pieces ↔
        (n::ns).IsChain (CutsHarmlessly shift cs)) := by
  induction ns generalizing n kept with
  | nil => exact ⟨[],by simpa using hcut.isPrefix_text,by simp [readAll],by simp [Mealy.Agrees]⟩
  | cons m ns ih =>
    rw [List.isChain_cons_cons] at hns
    obtain ⟨piece,hnext,hread⟩ := readSlice_poll hstrip hcut hns.1
    obtain ⟨pieces,hbegins,hrest,hagrees⟩ := ih hnext hns.2
    refine ⟨piece::pieces,?_,?_,?_⟩
    · rwa [List.flatten_cons,← List.append_assoc]
    · simp only [readAll,hread,hrest,Mealy.restarted_cons,List.flatten_cons,List.append_assoc]
      rfl
    · rw [Mealy.Agrees,List.isChain_cons_cons,agrees_iff hcut hnext hns.1,← hagrees,
        Mealy.state_append]

/-- Incremental reading returns the text of one pass exactly when every poll that does not
hold back the last escape sequence leaves the parser where the text up to the next poll is
harmless. -/
theorem incrementalExact_iff (shift : Bool) (strip : List UInt8 → List UInt8)
    (hstrip : ∀ cs, strip (encode cs) = encode (Vt.strip shift cs)) (cs : List Char) (ns : List ℕ)
    (hns : ns.IsChain (· ≤ ·)) :
    IncrementalExact strip (encode cs) ns ↔ ns.IsChain (CutsHarmlessly shift cs) := by
  have hstart : CutAt cs 0 [] := by
    rw [← wholeWithin_zero cs]
    apply CutAt.whole
    intro esc hesc
    cases hesc
  have hfirst : CutsHarmlessly shift cs 0 = fun _ => True := by
    funext m
    simp [CutsHarmlessly,wholeWithin_zero]
  have hzero : (0::ns).IsChain (· ≤ ·) := by
    cases ns with
    | nil => exact .singleton 0
    | cons n ns => exact .cons_cons (Nat.zero_le n) hns
  obtain ⟨pieces,⟨rest,hrest⟩,hread,hagrees⟩ := readAll_run hstrip hstart hzero
  rw [List.nil_append] at hrest hread
  simp only [encode_nil,List.length_nil] at hread
  have hchain : (0::ns).IsChain (CutsHarmlessly shift cs) ↔ ns.IsChain (CutsHarmlessly shift cs) := by
    cases ns with
    | nil => simp
    | cons n ns => rw [List.isChain_cons_cons,hfirst,true_and]
  have hpass : decodeLossy (strip ((encode cs).take (encode pieces.flatten).length)) =
      (parser shift).out .ground pieces.flatten := by
    rw [← hrest,encode_append,List.take_left,hstrip,decodeLossy_encode,Vt.strip]
  rw [← hchain,← hagrees,IncrementalExact,hread,hpass]
  exact (parser shift).restarted_eq_iff (covers_ground shift) .ground pieces

/-- The parser on bytes, as a stand-in for the package. -/
def stripBytes (bytes : List UInt8) : List UInt8 := encode (Vt.strip false (decodeLossy bytes))

/-- A colour escape cut in two is held back. -/
theorem incrementalExact_iff_colour : IncrementalExact stripBytes
      (encode ['a',Vt.ESC,'[','3','1','m','b']) [3,7] ↔
    [3,7].IsChain (CutsHarmlessly false ['a',Vt.ESC,'[','3','1','m','b']) :=
  incrementalExact_iff false stripBytes (fun cs => by rw [stripBytes,decodeLossy_encode]) _ _
    (by decide)

/-- A character set escape is cut before its final character, which is then printed. -/
theorem charset_escape_prints_final :
    ¬IncrementalExact stripBytes (encode [Vt.ESC,'(','B']) [2,3] := by
  unfold IncrementalExact
  decide +kernel

end Babysit
