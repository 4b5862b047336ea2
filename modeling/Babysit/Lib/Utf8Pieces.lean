import Babysit.Lib.Utf8
import Mathlib.Data.List.Induction

/-! Lossy decoding piece by piece. Pieces that are decoded on their own give the text of the
whole exactly when no cut is followed by a byte that continues the sequence it left
unfinished; otherwise they give more replacement characters than the whole has. -/
namespace Utf8

/-- What the end of the input adds to an unfinished sequence. -/
def replaced (pending : List UInt8) : List Char := if pending = [] then [] else [REPLACEMENT]

/-- The decoding of what follows an unfinished sequence. -/
def decodeFrom (pending bs : List UInt8) : List Char :=
  lossy.out pending bs ++ replaced (lossy.state pending bs)

/-- No piece begins with a byte that continues what the piece before it, apart from empty
ones, left unfinished. -/
def CutsWhole : List UInt8 → List (List UInt8) → Prop
  | _, [] => True
  | pending, []::pieces => CutsWhole pending pieces
  | pending, (b::bs)::pieces => (pending = [] ∨ continues pending b = false) ∧
      CutsWhole (lossy.state [] (b::bs)) pieces

variable {pending bs : List UInt8}

theorem decodeFrom_nil_left (bs : List UInt8) : decodeFrom [] bs = decodeLossy bs := rfl

@[simp] theorem decodeFrom_nil (pending : List UInt8) :
    decodeFrom pending [] = replaced pending := rfl

@[simp] theorem replaced_nil : replaced [] = [] := rfl

theorem replaced_length (h : pending ≠ []) : (replaced pending).length = 1 := by
  simp [replaced,h]

theorem decodeFrom_cons (pending : List UInt8) (b : UInt8) (bs : List UInt8) :
    decodeFrom pending (b::bs) = lossy.emit pending b ++ decodeFrom (lossy.next pending b) bs :=
  List.append_assoc _ _ _

theorem decodeFrom_append (pending bs more : List UInt8) :
    decodeFrom pending (bs++more) =
      lossy.out pending bs ++ decodeFrom (lossy.state pending bs) more := by
  simp [decodeFrom,Mealy.out_append,Mealy.state_append]

theorem seqLen_of_continues {b : UInt8} (h : continues pending b = true) : seqLen b = 0 := by
  have hlow := continues_high h
  have hhigh : b.toNat ≤ 0xBF := by
    unfold continues at h
    split at h
    · simp only [decide_eq_true_eq] at h
      split_ifs at h <;> omega
    · simp only [decide_eq_true_eq] at h
      exact h.2
  unfold seqLen
  split_ifs <;> omega

theorem lossy_of_not_continues {b : UInt8} (h : pending = [] ∨ continues pending b = false) :
    lossy.emit pending b = replaced pending ++ opened b ∧ lossy.next pending b = opens b := by
  rcases h with rfl | h
  · exact ⟨rfl,rfl⟩
  · by_cases hpending : pending = []
    · subst hpending
      exact ⟨rfl,rfl⟩
    · simp [lossy,replaced,hpending,h]

/-- A byte that does not continue the sequence: the end of the input in its place would have
given the same. -/
theorem decodeFrom_of_not_continues {b : UInt8} (h : pending = [] ∨ continues pending b = false)
    (bs : List UInt8) : decodeFrom pending (b::bs) = replaced pending ++ decodeLossy (b::bs) := by
  obtain ⟨hemit,hnext⟩ := lossy_of_not_continues h
  rw [decodeFrom_cons,hemit,hnext,← decodeFrom_nil_left,decodeFrom_cons,List.append_assoc]
  rfl

/-- A byte that may continue a sequence is replaced where there is none. -/
theorem decodeLossy_of_continues {b : UInt8} (h : continues pending b = true) (bs : List UInt8) :
    decodeLossy (b::bs) = REPLACEMENT::decodeLossy bs := by
  have hlen := seqLen_of_continues h
  rw [← decodeFrom_nil_left,decodeFrom_cons]
  simp [lossy,opened,opens,hlen,decodeFrom_nil_left]

theorem decodeFrom_of_continues {b : UInt8} (hpending : pending ≠ [])
    (hcontinues : continues pending b = true) (bs : List UInt8) : decodeFrom pending (b::bs) =
      if finishes pending then Char.ofNat (codepoint (pending++[b]))::decodeLossy bs
      else decodeFrom (pending++[b]) bs := by
  rw [decodeFrom_cons]
  simp only [lossy,hpending,hcontinues,not_true_eq_false,or_self,if_false]
  split_ifs <;> rfl

/-- What is decoded behind an unfinished sequence is never more than the replacement of it
and what is decoded afresh. -/
theorem decodeFrom_length_le (pending bs : List UInt8) :
    (decodeFrom pending bs).length ≤ (replaced pending).length + (decodeLossy bs).length := by
  induction bs generalizing pending with
  | nil => exact Nat.le_add_right _ _
  | cons b bs ih =>
    by_cases hcontinues : pending = [] ∨ continues pending b = false
    · rw [decodeFrom_of_not_continues hcontinues,List.length_append]
    · rw [not_or,Bool.not_eq_false] at hcontinues
      obtain ⟨hpending,hcontinues⟩ := hcontinues
      rw [decodeFrom_of_continues hpending hcontinues,decodeLossy_of_continues hcontinues,
        replaced_length hpending,List.length_cons]
      split_ifs
      · rw [List.length_cons]
        omega
      · have hnext := ih (pending++[b])
        rw [replaced_length (by simp)] at hnext
        omega

/-- It is less when a byte continues the sequence: decoded afresh that byte is replaced too. -/
theorem decodeFrom_length_lt {b : UInt8} (hpending : pending ≠ [])
    (hcontinues : continues pending b = true) (bs : List UInt8) :
    (decodeFrom pending (b::bs)).length < 1 + (decodeLossy (b::bs)).length := by
  rw [decodeFrom_of_continues hpending hcontinues,decodeLossy_of_continues hcontinues,
    List.length_cons]
  split_ifs
  · rw [List.length_cons]
    omega
  · have hnext := decodeFrom_length_le (pending++[b]) bs
    rw [replaced_length (by simp)] at hnext
    omega

theorem decodeFrom_flatten_length_le (pending : List UInt8) (pieces : List (List UInt8)) :
    (decodeFrom pending pieces.flatten).length ≤
      (replaced pending).length + (pieces.flatMap decodeLossy).length := by
  induction pieces generalizing pending with
  | nil => simp
  | cons piece pieces ih =>
    have hpiece := decodeFrom_length_le pending piece
    have hrest := ih (lossy.state pending piece)
    rw [List.flatten_cons,decodeFrom_append,List.flatMap_cons,List.length_append,List.length_append]
    have hsplit : (decodeFrom pending piece).length =
        (lossy.out pending piece).length + (replaced (lossy.state pending piece)).length := by
      rw [decodeFrom,List.length_append]
    omega

/-- Pieces behind an unfinished sequence. -/
theorem decodeFrom_flatten_iff (pending : List UInt8) (pieces : List (List UInt8)) :
    replaced pending ++ pieces.flatMap decodeLossy = decodeFrom pending pieces.flatten ↔
      CutsWhole pending pieces := by
  induction pieces generalizing pending with
  | nil => simp [CutsWhole]
  | cons piece pieces ih =>
    cases piece with
    | nil =>
      rw [CutsWhole,← ih]
      rfl
    | cons b bs =>
      rw [CutsWhole,List.flatMap_cons,List.flatten_cons]
      by_cases hcut : pending = [] ∨ continues pending b = false
      · have hafresh : decodeLossy (b::bs) =
            lossy.out [] (b::bs) ++ replaced (lossy.state [] (b::bs)) := rfl
        rw [and_iff_right hcut,← ih,List.cons_append,decodeFrom_of_not_continues hcut,
          ← List.cons_append,← decodeFrom_nil_left ((b::bs)++pieces.flatten),decodeFrom_append,
          hafresh,List.append_assoc,List.append_cancel_left_eq,List.append_cancel_left_eq]
      · refine iff_of_false (fun heq => ?_) (fun h => hcut h.1)
        rw [not_or,Bool.not_eq_false] at hcut
        have hless := decodeFrom_length_lt hcut.1 hcut.2 (bs++pieces.flatten)
        have hpieces := decodeFrom_flatten_length_le [] ((b::bs)::pieces)
        have hlen := congrArg List.length heq
        rw [List.flatten_cons,List.flatMap_cons,decodeFrom_nil_left,List.length_append] at hpieces
        rw [List.length_append,List.length_append,replaced_length hcut.1] at hlen
        simp only [replaced_nil,List.length_nil,List.cons_append] at hpieces hless hlen
        omega

theorem flatMap_decodeLossy_iff (pieces : List (List UInt8)) :
    pieces.flatMap decodeLossy = decodeLossy pieces.flatten ↔ CutsWhole [] pieces :=
  decodeFrom_flatten_iff [] pieces

/-- The unfinished sequence is the end of what has been read. -/
theorem state_suffix (pending bs : List UInt8) : lossy.state pending bs <:+ pending++bs := by
  induction bs generalizing pending with
  | nil =>
    rw [List.append_nil]
    exact List.suffix_rfl
  | cons b bs ih =>
    have hnext : lossy.next pending b <:+ pending++[b] := by
      simp only [lossy,opens]
      split_ifs
      · exact List.suffix_append _ _
      · exact List.nil_suffix
      · exact List.nil_suffix
      · exact List.suffix_rfl
    have hlonger : lossy.next pending b ++ bs <:+ pending++b::bs := by
      obtain ⟨t,ht⟩ := hnext
      exact ⟨t,by rw [← List.append_assoc,ht,List.append_assoc]; rfl⟩
    exact (ih _).trans hlonger

/-- A check that finds nothing wrong ends between characters. -/
theorem state_of_check_ok {done : ℕ} (h : checkFrom pending done bs = .ok) :
    lossy.state pending bs = [] := by
  induction bs generalizing pending done with
  | nil =>
    simp only [checkFrom] at h
    split_ifs at h with hpending
    exact hpending
  | cons b bs ih =>
    simp only [checkFrom] at h
    rw [Mealy.state_cons]
    split_ifs at h with hpending hzero hone hcontinues hfinishes
    · simpa [lossy,hpending,opens,hone] using ih h
    · have htwo : 2 ≤ seqLen b := by omega
      simpa [lossy,hpending,opens,htwo] using ih h
    · simpa [lossy,hpending,hcontinues,hfinishes] using ih h
    · simpa [lossy,hpending,hcontinues,hfinishes] using ih h

/-- A check that finds the end unfinished and nothing else wrong: the part it calls valid ends
between characters. -/
theorem state_of_check_unfinished {done valid : ℕ}
    (h : checkFrom pending done bs = .error valid none) : valid = done ∨
      (done+pending.length ≤ valid ∧
        lossy.state pending (bs.take (valid-(done+pending.length))) = []) := by
  induction bs generalizing pending done with
  | nil =>
    simp only [checkFrom] at h
    split_ifs at h
    cases h
    exact .inl rfl
  | cons b bs ih =>
    simp only [checkFrom] at h
    -- one byte further on, where the check is either between characters or still where it was
    have hstep : ∀ pending' done', lossy.next pending b = pending' →
        done'+pending'.length = done+pending.length+1 → (done' = done ∨ pending' = []) →
        checkFrom pending' done' bs = .error valid none → valid = done ∨
          (done+pending.length ≤ valid ∧
            lossy.state pending ((b::bs).take (valid-(done+pending.length))) = []) := by
      intro pending' done' hnext hlen hwhere hcheck
      rcases ih hcheck with hvalid | ⟨hvalid,hstate⟩
      · rcases hwhere with hdone | rfl
        · exact .inl (hvalid.trans hdone)
        · have hone : valid-(done+pending.length) = 0+1 := by
            rw [List.length_nil] at hlen
            omega
          refine .inr ⟨by omega,?_⟩
          rw [hone,List.take_succ_cons,Mealy.state_cons,hnext,List.take_zero,Mealy.state_nil]
      · have hmore : valid-(done+pending.length) = valid-(done'+pending'.length)+1 := by omega
        refine .inr ⟨by omega,?_⟩
        rw [hmore,List.take_succ_cons,Mealy.state_cons,hnext,hstate]
    split_ifs at h with hpending hzero hone hcontinues hfinishes
    · cases h
    · exact hstep [] (done+1) (by simp [lossy,hpending,opens,hone]) (by simp [hpending]) (.inr rfl) h
    · have htwo : 2 ≤ seqLen b := by omega
      exact hstep [b] done (by simp [lossy,hpending,opens,htwo]) (by simp [hpending]) (.inl rfl) h
    · exact hstep [] (done+pending.length+1) (by simp [lossy,hpending,hcontinues,hfinishes])
        (by simp) (.inr rfl) h
    · exact hstep (pending++[b]) done (by simp [lossy,hpending,hcontinues,hfinishes])
        (by simp [Nat.add_assoc]) (.inl rfl) h
    · cases h

/-- The start of a sequence stays unfinished, whatever was unfinished before it. -/
theorem state_of_sequence_start {n : ℕ} {seq u : List UInt8} (h : IsSequence n seq)
    (hu : u <+: seq) (hne : u ≠ []) (hshort : u ≠ seq) (pending : List UInt8) :
    lossy.state pending u = u := by
  have hnext : ∀ a, 2 ≤ seqLen a → lossy.next pending a = [a] := by
    intro a ha
    have hcontinues : continues pending a = false := by
      by_contra hcontinues
      have := seqLen_of_continues (Bool.not_eq_false _ ▸ hcontinues)
      omega
    rw [(lossy_of_not_continues (.inr hcontinues)).2,opens,if_pos ha]
  cases h with
  | one a ha hn =>
    rcases u with _ | ⟨x,u⟩
    · exact absurd rfl hne
    · obtain ⟨rfl,hu⟩ := List.cons_prefix_cons.mp hu
      exact absurd (by simpa using hu) hshort
  | two a b ha hb hn =>
    have ha2 := hnext a (by omega)
    rcases u with _ | ⟨x,_ | ⟨y,u⟩⟩
    · exact absurd rfl hne
    · simp_all [Mealy.state]
    · simp_all
  | three a b c ha hb hc hn =>
    have ha2 := hnext a (by omega)
    rcases u with _ | ⟨x,_ | ⟨y,_ | ⟨z,u⟩⟩⟩
    · exact absurd rfl hne
    · simp_all [Mealy.state]
    · simp_all [Mealy.state,lossy,finishes]
    · simp_all
  | four a b c d ha hb hc hd hn =>
    have ha2 := hnext a (by omega)
    rcases u with _ | ⟨x,_ | ⟨y,_ | ⟨z,_ | ⟨w,u⟩⟩⟩⟩
    · exact absurd rfl hne
    · simp_all [Mealy.state]
    · simp_all [Mealy.state,lossy,finishes]
    · simp_all [Mealy.state,lossy,finishes]
    · simp_all

end Utf8
