import Babysit.Lib.AppendLog
import Babysit.Lib.Utf8Pieces
import Babysit.ReadSlice

/-! Reading a log in polls with `raw`, against decoding it at once. An unfinished character
at the end of a poll is held back only when nothing before it in the poll is invalid. -/
namespace Babysit
open AppendLog Utf8

/-- What each poll returns: the log has every length in turn, and each poll begins at the
offset the one before returned. -/
def readAllRaw (strip : List UInt8 → List UInt8) (log : List UInt8) (off : ℕ) :
    List ℕ → List (List Char × ℕ)
  | [] => []
  | n::ns =>
    let r := readSlice strip (some (log.take n)) off true
    r::readAllRaw strip log r.2 ns

def lastOffset (off : ℕ) (rs : List (List Char × ℕ)) : ℕ := (rs.getLast?.map Prod.snd).getD off

/-- A character that is complete in the log begins before the offset and ends behind it. -/
def SplitsCharacter (log : List UInt8) (off : ℕ) : Prop :=
  ∃ start seq n, IsSequence n seq ∧ HoldsAt log start seq ∧ start < off ∧ off < start+seq.length

/-- The polls return the text of one decoding of what they cover, and none ends inside a
character. -/
def RawExact (strip : List UInt8 → List UInt8) (log : List UInt8) (ns : List ℕ) : Prop :=
  let rs := readAllRaw strip log 0 ns
  rs.flatMap Prod.fst = decodeLossy (log.take (lastOffset 0 rs)) ∧
    ∀ r ∈ rs, ¬SplitsCharacter log r.2

/-- The poll ends inside a sequence, behind something invalid: the log completes that
sequence, or a later poll sees a byte that continues it. -/
def EndsInside (log : List UInt8) (off n : ℕ) (later : List ℕ) : Prop :=
  let bytes := (log.take n).drop off
  let unfinished := lossy.state [] bytes
  (∃ valid len, check bytes = .error valid (some len)) ∧ unfinished ≠ [] ∧
    ((∃ more c, more ≠ [] ∧ IsSequence c (unfinished++more) ∧ HoldsAt log n more) ∨
      ((∃ m ∈ later, n < m) ∧ ∃ b ∈ (log.drop n).head?, continues unfinished b = true))

/-- No poll does, each begun behind the safe prefix of the one before. -/
def NoPollEndsInside (log : List UInt8) : ℕ → List ℕ → Prop
  | _, [] => True
  | off, n::ns => ¬EndsInside log off n ns ∧
      NoPollEndsInside log (off+safePrefixLen ((log.take n).drop off)) ns

/-- What a poll decodes. -/
def rawPiece (log : List UInt8) (off n : ℕ) : List UInt8 :=
  ((log.take n).drop off).take (safePrefixLen ((log.take n).drop off))

def rawPieces (log : List UInt8) : ℕ → List ℕ → List (List UInt8)
  | _, [] => []
  | off, n::ns => rawPiece log off n::rawPieces log (off+(rawPiece log off n).length) ns

variable {strip : List UInt8 → List UInt8} {log : List UInt8} {off n : ℕ} {ns : List ℕ}

theorem rawPiece_length (log : List UInt8) (off n : ℕ) :
    (rawPiece log off n).length = safePrefixLen ((log.take n).drop off) := by
  rw [rawPiece,List.length_take,min_eq_left (safePrefixLen_le _)]

theorem rawPiece_holdsAt (log : List UInt8) (off n : ℕ) : HoldsAt log off (rawPiece log off n) := by
  refine (List.take_prefix _ _).trans ?_
  rw [List.drop_take]
  exact List.take_prefix _ _

/-- A poll from within the log returns its piece decoded, and the offset behind it. -/
theorem readSlice_rawPiece (hoff : off ≤ (log.take n).length) :
    readSlice strip (some (log.take n)) off true =
      (decodeLossy (rawPiece log off n),off+(rawPiece log off n).length) := by
  rw [rawPiece_length]
  unfold readSlice rawPiece
  by_cases hend : (log.take n).length ≤ off
  · have hempty : (log.take n).drop off = [] := List.drop_eq_nil_of_le hend
    simp only [if_pos hend,hempty]
    exact Prod.ext rfl (Nat.le_antisymm hend hoff)
  · simp only [if_neg hend,if_true]

/-- A poll ends between characters, or it returns all it read and some of it is invalid. -/
theorem rawPiece_cases (hesc : 0x1b ∉ log) (off n : ℕ) :
    lossy.state [] (rawPiece log off n) = [] ∨
      (rawPiece log off n = (log.take n).drop off ∧
        ∃ valid len, check ((log.take n).drop off) = .error valid (some len)) := by
  have hbytes : 0x1b ∉ (log.take n).drop off :=
    fun h => hesc (List.mem_of_mem_take (List.mem_of_mem_drop h))
  unfold rawPiece safePrefixLen
  simp only [escapeStop_of_no_escape hbytes,List.take_length]
  generalize (log.take n).drop off = bytes
  cases hcheck : check bytes with
  | ok =>
    simp only [List.take_length]
    exact .inl (state_of_check_ok hcheck)
  | error valid len =>
    cases len with
    | none =>
      left
      simp only
      rcases state_of_check_unfinished hcheck with rfl | ⟨-,hstate⟩
      · rfl
      · simpa using hstate
    | some len =>
      simp only [List.take_length]
      exact .inr ⟨trivial,valid,len,rfl⟩

@[simp] theorem lastOffset_nil (off : ℕ) : lastOffset off [] = off := rfl

theorem lastOffset_cons (off : ℕ) (r : List Char × ℕ) (rs : List (List Char × ℕ)) :
    lastOffset off (r::rs) = lastOffset r.2 rs := by
  cases rs with
  | nil => rfl
  | cons s rs => simp [lastOffset,List.getLast?_cons]

theorem rawPiece_fits (hoff : off ≤ (log.take n).length) :
    off+(rawPiece log off n).length ≤ (log.take n).length := by
  have hsafe := safePrefixLen_le ((log.take n).drop off)
  rw [List.length_drop] at hsafe
  rw [rawPiece_length]
  omega

/-- A later poll begins within the log it sees, and ends there. -/
theorem rawPiece_bounds {m : ℕ} (hoff : off ≤ log.length) (hm : off ≤ m) (hmn : m ≤ n) :
    off ≤ (log.take n).length ∧ off+(rawPiece log off n).length ≤ log.length ∧
      off+(rawPiece log off n).length ≤ n := by
  have hlen : off ≤ (log.take n).length := by
    rw [List.length_take]
    omega
  have hfits := rawPiece_fits hlen
  rw [List.length_take] at hfits
  exact ⟨hlen,by omega,by omega⟩

/-- All polls: the pieces, decoded one by one, which follow one another in the log. -/
theorem readAllRaw_run {m : ℕ} (hoff : off ≤ log.length) (hm : off ≤ m)
    (hns : (m::ns).IsChain (· ≤ ·)) :
    (readAllRaw strip log off ns).flatMap Prod.fst = (rawPieces log off ns).flatMap decodeLossy ∧
      lastOffset off (readAllRaw strip log off ns) = off+(rawPieces log off ns).flatten.length ∧
      HoldsAt log off (rawPieces log off ns).flatten := by
  induction ns generalizing off m with
  | nil => exact ⟨rfl,rfl,List.nil_prefix⟩
  | cons n ns ih =>
    rw [List.isChain_cons_cons] at hns
    obtain ⟨hlen,hoff',hm'⟩ := rawPiece_bounds hoff hm hns.1
    obtain ⟨htexts,hlast,hholds⟩ := ih hoff' hm' hns.2
    simp only [readAllRaw,readSlice_rawPiece hlen,rawPieces,List.flatMap_cons,List.flatten_cons,
      List.length_append,lastOffset_cons]
    refine ⟨by rw [htexts],?_,(rawPiece_holdsAt log off n).concat hholds⟩
    rw [hlast]
    omega

/-- A poll that returns nothing has read nothing, or only the start of a character. -/
theorem rawPiece_eq_nil (hesc : 0x1b ∉ log) (h : rawPiece log off n = []) :
    n ≤ off ∨ ∀ b ∈ (log.drop off).head?, ∀ u, continues u b = false := by
  rw [or_iff_not_imp_left]
  intro hn b hb u
  obtain ⟨bs,hdrop⟩ := List.head?_eq_some_iff.mp hb
  obtain ⟨k,hk⟩ : ∃ k, n-off = k+1 := ⟨n-off-1,by omega⟩
  have hbytes : (log.take n).drop off = b::bs.take k := by
    rw [List.drop_take,hdrop,hk,List.take_succ_cons]
  have hno : 0x1b ∉ (log.take n).drop off :=
    fun hin => hesc (List.mem_of_mem_take (List.mem_of_mem_drop hin))
  rw [rawPiece,List.take_eq_nil_iff,hbytes] at h
  rw [hbytes] at hno
  rcases h with hsafe | hempty
  · by_contra hcontinues
    have hzero := seqLen_of_continues (Bool.not_eq_false _ ▸ hcontinues)
    have hcheck : check (b::bs.take k) = .error 0 (some 1) := by simp [check,checkFrom,hzero]
    simp only [safePrefixLen,escapeStop_of_no_escape hno,List.take_length,hcheck] at hsafe
    cases hsafe
  · cases hempty

/-- What the polls from here on read does not continue this unfinished sequence. -/
def Unharmed (log : List UInt8) (unfinished : List UInt8) (off : ℕ) (ns : List ℕ) : Prop :=
  unfinished = [] ∨ (∀ n ∈ ns, n ≤ off) ∨
    ∀ b ∈ (log.drop off).head?, continues unfinished b = false

/-- The byte after a cut is read by the first later poll that sees it, be it the start of a
character that is held back. -/
theorem cutsWhole_rawPieces (hesc : 0x1b ∉ log) (unfinished : List UInt8) (off : ℕ) (ns : List ℕ) :
    CutsWhole unfinished (rawPieces log off ns) ↔
      Unharmed log unfinished off ns ∧ CutsWhole [] (rawPieces log off ns) := by
  induction ns generalizing off with
  | nil => simp [rawPieces,CutsWhole,Unharmed]
  | cons n ns ih =>
    rw [rawPieces]
    cases hpiece : rawPiece log off n with
    | cons b bs =>
      obtain ⟨rest,hrest⟩ := rawPiece_holdsAt log off n
      rw [hpiece] at hrest
      have hread : off < n := by
        have hlen := congrArg List.length hpiece
        rw [rawPiece_length,List.length_cons] at hlen
        have hsafe := safePrefixLen_le ((log.take n).drop off)
        rw [List.length_drop,List.length_take] at hsafe
        omega
      have hhead : (log.drop off).head? = some b := by
        rw [← hrest]
        rfl
      simp only [CutsWhole,Unharmed,hhead,Option.mem_def,Option.some.injEq,forall_eq',true_or,
        true_and,List.forall_mem_cons,Nat.not_le.mpr hread,false_and,false_or]
    | nil =>
      simp only [CutsWhole,List.length_nil,Nat.add_zero]
      rw [ih]
      refine and_congr_left fun _ => ?_
      unfold Unharmed
      rcases rawPiece_eq_nil hesc hpiece with hbehind | hstart
      · simp only [List.forall_mem_cons,hbehind,true_and]
      · have hunharmed : ∀ b ∈ (log.drop off).head?, continues unfinished b = false :=
          fun b hb => hstart b hb unfinished
        exact iff_of_true (.inr (.inr hunharmed)) (.inr (.inr hunharmed))

theorem cutsWhole_cons (hesc : 0x1b ∉ log) (off n : ℕ) (ns : List ℕ) :
    CutsWhole [] (rawPieces log off (n::ns)) ↔
      Unharmed log (lossy.state [] (rawPiece log off n)) (off+(rawPiece log off n).length) ns ∧
        CutsWhole [] (rawPieces log (off+(rawPiece log off n).length) ns) := by
  rw [rawPieces]
  cases rawPiece log off n with
  | nil => simp [CutsWhole,Unharmed]
  | cons b bs =>
    rw [CutsWhole,cutsWhole_rawPieces hesc]
    simp

theorem rawPiece_of_invalid (hesc : 0x1b ∉ log) {valid len : ℕ}
    (h : check ((log.take n).drop off) = .error valid (some len)) :
    rawPiece log off n = (log.take n).drop off := by
  have hno : 0x1b ∉ (log.take n).drop off :=
    fun hin => hesc (List.mem_of_mem_take (List.mem_of_mem_drop hin))
  simp only [rawPiece,safePrefixLen,escapeStop_of_no_escape hno,List.take_length,h]

/-- Where a poll ends that returns all it read. -/
theorem rawPiece_end (hoff : off ≤ (log.take n).length)
    (h : rawPiece log off n = (log.take n).drop off) :
    off+(rawPiece log off n).length = min n log.length := by
  rw [List.length_take] at hoff
  rw [h,List.length_drop,List.length_take]
  omega

theorem unharmed_of_not_endsInside (hesc : 0x1b ∉ log) (hoff : off ≤ (log.take n).length)
    (h : ¬EndsInside log off n ns) : Unharmed log (lossy.state [] (rawPiece log off n))
      (off+(rawPiece log off n).length) ns := by
  rcases rawPiece_cases hesc off n with hwhole | ⟨hpiece,hinvalid⟩
  · exact .inl hwhole
  · rw [rawPiece_end hoff hpiece,hpiece]
    by_cases hunfinished : lossy.state [] ((log.take n).drop off) = []
    · exact .inl hunfinished
    · right
      rcases Nat.le_total n log.length with hn | hn
      · rw [min_eq_left hn,or_iff_not_imp_left]
        intro hlater b hb
        simp only [not_forall,Nat.not_le] at hlater
        obtain ⟨m,hm,hnm⟩ := hlater
        by_contra hcontinues
        rw [Bool.not_eq_false] at hcontinues
        exact h ⟨hinvalid,hunfinished,.inr ⟨⟨m,hm,hnm⟩,b,hb,hcontinues⟩⟩
      · right
        rw [min_eq_right hn,List.drop_length]
        intro b hb
        cases hb

/-- A poll that ends inside a sequence splits a character, or the next byte is decoded as if
nothing had come before it. -/
theorem splits_or_harmed (hesc : 0x1b ∉ log) (hoff : off ≤ (log.take n).length)
    (h : EndsInside log off n ns) : SplitsCharacter log (off+(rawPiece log off n).length) ∨
      ¬Unharmed log (lossy.state [] (rawPiece log off n))
        (off+(rawPiece log off n).length) ns := by
  obtain ⟨⟨valid,len,hinvalid⟩,hunfinished,hnext⟩ := h
  have hpiece := rawPiece_of_invalid hesc hinvalid
  have hhere := rawPiece_holdsAt log off n
  rw [rawPiece_end hoff hpiece]
  rw [hpiece] at hhere ⊢
  rcases hnext with ⟨more,c,hmore,hseq,hmoreat⟩ | ⟨⟨m,hm,hnm⟩,b,hb,hcontinues⟩
  · left
    obtain ⟨before,hbefore⟩ := state_suffix [] ((log.take n).drop off)
    have hn : n < log.length := by
      have := hmoreat.length_le
      rw [List.length_drop] at this
      have := List.length_pos_iff.mpr hmore
      omega
    rw [min_eq_left hn.le]
    have hlen := congrArg List.length hbefore
    rw [List.nil_append,List.length_append,List.length_drop,List.length_take] at hlen
    rw [List.length_take] at hoff
    have hpos := List.length_pos_iff.mpr hunfinished
    have hmorepos := List.length_pos_iff.mpr hmore
    rw [List.nil_append] at hbefore
    rw [← hbefore] at hhere
    have hat : off+before.length+(lossy.state [] ((log.take n).drop off)).length = n := by omega
    refine ⟨off+before.length,lossy.state [] ((log.take n).drop off)++more,c,hseq,
      hhere.parts.2.concat (by rwa [hat]),by omega,?_⟩
    rw [List.length_append]
    omega
  · right
    have hn : n < log.length := by
      by_contra hbeyond
      rw [List.drop_eq_nil_of_le (Nat.not_lt.mp hbeyond)] at hb
      cases hb
    rw [min_eq_left hn.le]
    rintro (hnone | hlater | hharmless)
    · exact hunfinished hnone
    · exact absurd (hlater m hm) (Nat.not_le.mpr hnm)
    · rw [hharmless b hb] at hcontinues
      cases hcontinues

/-- A poll that does not end inside a sequence splits no character, unless the one before it
did. -/
theorem not_splits_of_not_endsInside (hesc : 0x1b ∉ log) (hoff : off ≤ (log.take n).length)
    (h : ¬EndsInside log off n ns) (hbefore : ¬SplitsCharacter log off) :
    ¬SplitsCharacter log (off+(rawPiece log off n).length) := by
  rintro ⟨start,seq,c,hseq,hat,hstart,hend⟩
  by_cases hinside : start < off
  · exact hbefore ⟨start,seq,c,hseq,hat,hinside,by omega⟩
  · -- the sequence begins in this poll, which leaves its start unfinished
    obtain ⟨before,u,more,hpiece,hsplit,hbegin,hmoreat⟩ := (rawPiece_holdsAt log off n).overlap hat
      (Nat.not_lt.mp hinside) hstart.le hend.le
    have hulen : start+u.length = off+(rawPiece log off n).length := by
      rw [hpiece,List.length_append]
      omega
    have hne : u ≠ [] := by
      rintro rfl
      rw [List.length_nil] at hulen
      omega
    have hmore : more ≠ [] := by
      rintro rfl
      rw [hsplit,List.append_nil] at hend
      omega
    have hstate : lossy.state [] (rawPiece log off n) = u := by
      rw [hpiece,Mealy.state_append]
      refine state_of_sequence_start hseq (hsplit ▸ List.prefix_append u more) hne ?_ _
      rintro rfl
      exact hmore (List.append_right_eq_self.mp hsplit.symm)
    rcases rawPiece_cases hesc off n with hwhole | ⟨hall,hinvalid⟩
    · exact hne (hstate.symm.trans hwhole)
    · have hlog := hat.length_le
      rw [List.length_drop] at hlog
      have hn : off+(rawPiece log off n).length = n := by
        have := rawPiece_end hoff hall
        omega
      rw [hn] at hmoreat
      rw [hall] at hstate
      exact h ⟨hinvalid,by rwa [hstate],.inl ⟨more,c,hmore,by rwa [hstate,← hsplit],hmoreat⟩⟩

theorem exact_of_noPollEndsInside {m : ℕ} (hesc : 0x1b ∉ log) (hoff : off ≤ log.length)
    (hm : off ≤ m) (hns : (m::ns).IsChain (· ≤ ·)) (hbefore : ¬SplitsCharacter log off)
    (h : NoPollEndsInside log off ns) : CutsWhole [] (rawPieces log off ns) ∧
      ∀ r ∈ readAllRaw strip log off ns, ¬SplitsCharacter log r.2 := by
  induction ns generalizing off m with
  | nil => exact ⟨trivial,fun r hr => absurd hr List.not_mem_nil⟩
  | cons n ns ih =>
    rw [List.isChain_cons_cons] at hns
    obtain ⟨hlen,hoff',hm'⟩ := rawPiece_bounds hoff hm hns.1
    have hnext := not_splits_of_not_endsInside hesc hlen h.1 hbefore
    have hrest : NoPollEndsInside log (off+(rawPiece log off n).length) ns := by
      rw [rawPiece_length]
      exact h.2
    obtain ⟨hcuts,hsplits⟩ := ih hoff' hm' hns.2 hnext hrest
    rw [cutsWhole_cons hesc]
    simp only [readAllRaw,readSlice_rawPiece hlen,List.forall_mem_cons]
    exact ⟨⟨unharmed_of_not_endsInside hesc hlen h.1,hcuts⟩,hnext,hsplits⟩

theorem noPollEndsInside_of_exact {m : ℕ} (hesc : 0x1b ∉ log) (hoff : off ≤ log.length)
    (hm : off ≤ m) (hns : (m::ns).IsChain (· ≤ ·)) (hcuts : CutsWhole [] (rawPieces log off ns))
    (hsplits : ∀ r ∈ readAllRaw strip log off ns, ¬SplitsCharacter log r.2) :
    NoPollEndsInside log off ns := by
  induction ns generalizing off m with
  | nil => trivial
  | cons n ns ih =>
    rw [List.isChain_cons_cons] at hns
    obtain ⟨hlen,hoff',hm'⟩ := rawPiece_bounds hoff hm hns.1
    rw [cutsWhole_cons hesc] at hcuts
    simp only [readAllRaw,readSlice_rawPiece hlen,List.forall_mem_cons] at hsplits
    have hrest := ih hoff' hm' hns.2 hcuts.2 hsplits.2
    rw [rawPiece_length] at hrest
    refine ⟨fun hinside => ?_,hrest⟩
    rcases splits_or_harmed hesc hlen hinside with hsplit | hharmed
    · exact hsplits.1 hsplit
    · exact hharmed hcuts.1

/-- On a log without escapes, polling is exact if and only if no poll ends inside a sequence
behind something invalid. -/
theorem rawExact_iff (strip : List UInt8 → List UInt8) (log : List UInt8) (hesc : 0x1b ∉ log)
    (ns : List ℕ) (hns : ns.IsChain (· ≤ ·)) :
    RawExact strip log ns ↔ NoPollEndsInside log 0 ns := by
  have hzero : (0::ns).IsChain (· ≤ ·) := by
    cases ns with
    | nil => exact .singleton 0
    | cons n ns => exact .cons_cons (Nat.zero_le n) hns
  have hstart : ¬SplitsCharacter log 0 := by
    rintro ⟨start,seq,c,-,-,hstart,-⟩
    exact absurd hstart (Nat.not_lt_zero _)
  obtain ⟨htexts,hlast,hholds⟩ := readAllRaw_run (Nat.zero_le _) (Nat.le_refl 0)
    hzero
  have hcovered : log.take (lastOffset 0 (readAllRaw strip log 0 ns)) =
      (rawPieces log 0 ns).flatten := by
    rw [hlast,Nat.zero_add]
    exact (List.prefix_iff_eq_take.mp hholds).symm
  simp only [RawExact,htexts,hcovered,flatMap_decodeLossy_iff]
  constructor
  · rintro ⟨hcuts,hsplits⟩
    exact noPollEndsInside_of_exact hesc (Nat.zero_le _) (Nat.le_refl 0) hzero hcuts hsplits
  · exact exact_of_noPollEndsInside hesc (Nat.zero_le _) (Nat.le_refl 0) hzero hstart

/-- A euro sign cut in two is held back. -/
theorem rawExact_iff_euro : RawExact id [0xe2,0x82,0xac] [2,3] ↔
    NoPollEndsInside [0xe2,0x82,0xac] 0 [2,3] :=
  rawExact_iff id _ (by decide) _ (by decide)

/-- Behind an invalid byte it is not, and comes out as two replacement characters. -/
theorem euro_behind_invalid_splits : ¬RawExact id [0xff,0xe2,0x82,0xac] [3,4] := by
  rintro ⟨htexts,-⟩
  revert htexts
  decide +kernel

end Babysit
