import Babysit.Lib.Mealy
import Mathlib.Algebra.Order.Group.Nat

/-! UTF-8 decoding of byte streams, one byte at a time. The state is the unfinished
sequence; `lossy` replaces what cannot be part of a character, `check` reports the first
fault, as the standard library's decoders do. -/
namespace Utf8

/-- The replacement character. -/
def REPLACEMENT : Char := Char.ofNat 0xFFFD

/-- The length of the sequences a byte starts; 0 when it starts none. -/
def seqLen (b : UInt8) : ℕ :=
  if b.toNat < 0x80 then 1
  else if b.toNat < 0xC2 then 0
  else if b.toNat < 0xE0 then 2
  else if b.toNat < 0xF0 then 3
  else if b.toNat < 0xF5 then 4
  else 0

/-- The byte may follow this unfinished sequence. The bounds on the second byte exclude
overlong forms, surrogates and values past the last code point. -/
def continues (pending : List UInt8) (b : UInt8) : Bool :=
  match pending with
  | [a] =>
    let low := if a = 0xE0 then 0xA0 else if a = 0xF0 then 0x90 else 0x80
    let high := if a = 0xED then 0x9F else if a = 0xF4 then 0x8F else 0xBF
    low ≤ b.toNat ∧ b.toNat ≤ high
  | _ => 0x80 ≤ b.toNat ∧ b.toNat ≤ 0xBF

/-- The byte is the last one of the sequence. -/
def finishes (pending : List UInt8) : Bool := pending.length+1 = seqLen (pending.headD 0)

def codepoint : List UInt8 → ℕ
  | [a] => a.toNat
  | [a,b] => a.toNat%32*64 + b.toNat%64
  | [a,b,c] => (a.toNat%16*64 + b.toNat%64)*64 + c.toNat%64
  | [a,b,c,d] => ((a.toNat%8*64 + b.toNat%64)*64 + c.toNat%64)*64 + d.toNat%64
  | _ => 0

/-- The state after a byte between characters. -/
def opens (b : UInt8) : List UInt8 := if 2 ≤ seqLen b then [b] else []

def opened (b : UInt8) : List Char :=
  if seqLen b = 0 then [REPLACEMENT]
  else if seqLen b = 1 then [Char.ofNat b.toNat]
  else []

/-- The lossy decoder without its end of input. -/
def lossy : Mealy (List UInt8) UInt8 Char where
  next pending b :=
    if pending = [] ∨ ¬continues pending b then opens b
    else if finishes pending then [] else pending++[b]
  emit pending b :=
    if pending = [] then opened b
    else if ¬continues pending b then REPLACEMENT::opened b
    else if finishes pending then [Char.ofNat (codepoint (pending++[b]))] else []

/-- The lossy decoding of a whole input: an unfinished sequence at its end is replaced. -/
def decodeLossy (bs : List UInt8) : List Char :=
  lossy.out [] bs ++ if lossy.state [] bs = [] then [] else [REPLACEMENT]

/-- The result of a strict check: the length of the valid part before the first fault, and
the length of the faulty sequence, `none` when the input ends inside it. -/
inductive Check
  | ok
  | error (validUpTo : ℕ) (errorLen : Option ℕ)
  deriving DecidableEq, Repr

def checkFrom (pending : List UInt8) (done : ℕ) : List UInt8 → Check
  | [] => if pending = [] then .ok else .error done none
  | b::bs =>
    if pending = [] then
      if seqLen b = 0 then .error done (some 1)
      else if seqLen b = 1 then checkFrom [] (done+1) bs
      else checkFrom [b] done bs
    else if ¬continues pending b then .error done (some pending.length)
    else if finishes pending then checkFrom [] (done+pending.length+1) bs
    else checkFrom (pending++[b]) done bs

def check (bs : List UInt8) : Check := checkFrom [] 0 bs

def encode (cs : List Char) : List UInt8 := cs.flatMap String.utf8EncodeChar

@[simp] theorem encode_nil : encode [] = [] := rfl
@[simp] theorem encode_cons (c : Char) (cs : List Char) :
    encode (c::cs) = String.utf8EncodeChar c ++ encode cs := rfl
theorem encode_append (cs ds : List Char) : encode (cs++ds) = encode cs ++ encode ds := by
  simp [encode]

/-- One encoded character: its first byte announces its length, every other byte
continues what precedes it, and the sequence has the character's value. -/
inductive IsSequence (n : ℕ) : List UInt8 → Prop
  | one (a : UInt8) : seqLen a = 1 → a.toNat = n → IsSequence n [a]
  | two (a b : UInt8) : seqLen a = 2 → continues [a] b → codepoint [a,b] = n →
      IsSequence n [a,b]
  | three (a b c : UInt8) : seqLen a = 3 → continues [a] b → continues [a,b] c →
      codepoint [a,b,c] = n → IsSequence n [a,b,c]
  | four (a b c d : UInt8) : seqLen a = 4 → continues [a] b → continues [a,b] c →
      continues [a,b,c] d → codepoint [a,b,c,d] = n → IsSequence n [a,b,c,d]

lemma toNat_ofNat_lt {n : ℕ} (h : n < 256) : (UInt8.ofNat n).toNat = n := by
  rw [UInt8.toNat_ofNat']
  omega

/-- The bounds on the second byte, by the value of the first. -/
theorem continues_second (a b : UInt8) : continues [a] b = true ↔
    (if a.toNat = 0xE0 then 0xA0 else if a.toNat = 0xF0 then 0x90 else 0x80) ≤ b.toNat ∧
      b.toNat ≤ if a.toNat = 0xED then 0x9F else if a.toNat = 0xF4 then 0x8F else 0xBF := by
  simp only [continues,← UInt8.toNat_inj,UInt8.reduceToNat,decide_eq_true_eq]

theorem isSequence_encodeChar (c : Char) :
    IsSequence c.val.toNat (String.utf8EncodeChar c) := by
  have hvalid : c.val.toNat < 0xD800 ∨ (0xDFFF < c.val.toNat ∧ c.val.toNat < 0x110000) := c.valid
  unfold String.utf8EncodeChar
  generalize c.val.toNat = v at hvalid
  dsimp only
  split_ifs with h1 h2 h3
  · apply IsSequence.one
    · rw [seqLen,toNat_ofNat_lt (by omega)]
      split_ifs <;> omega
    · exact toNat_ofNat_lt (by omega)
  · have ha : (UInt8.ofNat (v/64%0x20 + 0xc0)).toNat = v/64%0x20 + 0xc0 :=
      toNat_ofNat_lt (by omega)
    have hb : (UInt8.ofNat (v%0x40 + 0x80)).toNat = v%0x40 + 0x80 := toNat_ofNat_lt (by omega)
    apply IsSequence.two
    · rw [seqLen,ha]
      split_ifs <;> omega
    · rw [continues_second,ha,hb]
      split_ifs <;> omega
    · simp only [codepoint,ha,hb]
      omega
  · have ha : (UInt8.ofNat (v/4096%0x10 + 0xe0)).toNat = v/4096%0x10 + 0xe0 :=
      toNat_ofNat_lt (by omega)
    have hb : (UInt8.ofNat (v/64%0x40 + 0x80)).toNat = v/64%0x40 + 0x80 :=
      toNat_ofNat_lt (by omega)
    have hc : (UInt8.ofNat (v%0x40 + 0x80)).toNat = v%0x40 + 0x80 := toNat_ofNat_lt (by omega)
    apply IsSequence.three
    · rw [seqLen,ha]
      split_ifs <;> omega
    · rw [continues_second,ha,hb]
      split_ifs <;> omega
    · simp only [continues,hc,decide_eq_true_eq]
      omega
    · simp only [codepoint,ha,hb,hc]
      omega
  · have ha : (UInt8.ofNat (v/262144%0x08 + 0xf0)).toNat = v/262144%0x08 + 0xf0 :=
      toNat_ofNat_lt (by omega)
    have hb : (UInt8.ofNat (v/4096%0x40 + 0x80)).toNat = v/4096%0x40 + 0x80 :=
      toNat_ofNat_lt (by omega)
    have hc : (UInt8.ofNat (v/64%0x40 + 0x80)).toNat = v/64%0x40 + 0x80 :=
      toNat_ofNat_lt (by omega)
    have hd : (UInt8.ofNat (v%0x40 + 0x80)).toNat = v%0x40 + 0x80 := toNat_ofNat_lt (by omega)
    apply IsSequence.four
    · rw [seqLen,ha]
      split_ifs <;> omega
    · rw [continues_second,ha,hb]
      split_ifs <;> omega
    · simp only [continues,hc,decide_eq_true_eq]
      omega
    · simp only [continues,hd,decide_eq_true_eq]
      omega
    · simp only [codepoint,ha,hb,hc,hd]
      omega

theorem lossy_of_isSequence {n : ℕ} {bs : List UInt8} (h : IsSequence n bs) :
    lossy.out [] bs = [Char.ofNat n] ∧ lossy.state [] bs = [] := by
  cases h with
  | one a ha hn => simp [lossy,opens,opened,ha,hn]
  | two a b ha hb hn => simp [lossy,opens,opened,finishes,ha,hb,hn]
  | three a b c ha hb hc hn => simp [lossy,opens,opened,finishes,ha,hb,hc,hn]
  | four a b c d ha hb hc hd hn => simp [lossy,opens,opened,finishes,ha,hb,hc,hd,hn]

theorem lossy_encode (cs : List Char) :
    lossy.out [] (encode cs) = cs ∧ lossy.state [] (encode cs) = [] := by
  induction cs with
  | nil => exact ⟨rfl,rfl⟩
  | cons c cs ih =>
    obtain ⟨hout,hstate⟩ := lossy_of_isSequence (isSequence_encodeChar c)
    rw [encode_cons,Mealy.out_append,Mealy.state_append,hout,hstate,ih.1,ih.2]
    exact ⟨congrArg (· :: cs) (Char.ofNat_toNat c),rfl⟩

/-- Decoding is the identity on valid text. -/
@[simp] theorem decodeLossy_encode (cs : List Char) : decodeLossy (encode cs) = cs := by
  simp [decodeLossy,lossy_encode cs]

theorem encode_injective {cs ds : List Char} (h : encode cs = encode ds) : cs = ds := by
  rw [← decodeLossy_encode cs,h,decodeLossy_encode]

/-- A fault lies within what has been checked. -/
theorem checkFrom_error_le {pending bs : List UInt8} {done valid : ℕ} {len : Option ℕ}
    (h : checkFrom pending done bs = .error valid len) :
    valid ≤ done + pending.length + bs.length := by
  induction bs generalizing pending done with
  | nil =>
    simp only [checkFrom] at h
    split_ifs at h
    cases h
    omega
  | cons b bs ih =>
    simp only [checkFrom] at h
    rw [List.length_cons]
    split_ifs at h with hnil
    · cases h
      omega
    · have := ih h
      simp only [List.length_nil] at this
      omega
    · have := ih h
      simp only [List.length_singleton] at this
      omega
    · have := ih h
      simp only [List.length_nil] at this
      omega
    · have := ih h
      simp only [List.length_append,List.length_singleton] at this
      omega
    · cases h
      omega

theorem checkFrom_append {n : ℕ} {bs : List UInt8} (h : IsSequence n bs) (done : ℕ)
    (rest : List UInt8) :
    checkFrom [] done (bs++rest) = checkFrom [] (done+bs.length) rest := by
  cases h with
  | one a ha hn => simp [checkFrom,ha]
  | two a b ha hb hn => simp [checkFrom,finishes,ha,hb]
  | three a b c ha hb hc hn => simp [checkFrom,finishes,ha,hb,hc]
  | four a b c d ha hb hc hd hn => simp [checkFrom,finishes,ha,hb,hc,hd]

theorem checkFrom_encode (cs : List Char) (done : ℕ) : checkFrom [] done (encode cs) = .ok := by
  induction cs generalizing done with
  | nil => rfl
  | cons c cs ih => rw [encode_cons,checkFrom_append (isSequence_encodeChar c),ih]

/-- A sequence that stops short is a fault at its own start, of unknown length. -/
theorem checkFrom_unfinished {n : ℕ} {bs p : List UInt8} (h : IsSequence n bs) (hp : p <+: bs)
    (hne : p ≠ []) (hshort : p ≠ bs) (done : ℕ) : checkFrom [] done p = .error done none := by
  cases h with
  | one a ha hn =>
    rcases p with _ | ⟨x,p⟩
    · exact absurd rfl hne
    · obtain ⟨rfl,hp⟩ := List.cons_prefix_cons.mp hp
      exact absurd (by simpa using hp) hshort
  | two a b ha hb hn =>
    rcases p with _ | ⟨x,_ | ⟨y,p⟩⟩
    · exact absurd rfl hne
    · simp_all [checkFrom]
    · simp_all
  | three a b c ha hb hc hn =>
    rcases p with _ | ⟨x,_ | ⟨y,_ | ⟨z,p⟩⟩⟩
    · exact absurd rfl hne
    · simp_all [checkFrom]
    · simp_all [checkFrom,finishes]
    · simp_all
  | four a b c d ha hb hc hd hn =>
    rcases p with _ | ⟨x,_ | ⟨y,_ | ⟨z,_ | ⟨w,p⟩⟩⟩⟩
    · exact absurd rfl hne
    · simp_all [checkFrom]
    · simp_all [checkFrom,finishes]
    · simp_all [checkFrom,finishes]
    · simp_all

/-- The characters of a text that lie whole within its first n bytes. -/
def wholeWithin : ℕ → List Char → List Char
  | _, [] => []
  | n, c::cs =>
    let len := (String.utf8EncodeChar c).length
    if len ≤ n then c :: wholeWithin (n-len) cs else []

theorem wholeWithin_isPrefix (n : ℕ) (cs : List Char) : wholeWithin n cs <+: cs := by
  induction cs generalizing n with
  | nil => exact List.prefix_rfl
  | cons c cs ih =>
    simp only [wholeWithin]
    split_ifs
    · exact List.cons_prefix_cons.mpr ⟨rfl,ih _⟩
    · exact List.nil_prefix

theorem wholeWithin_zero (cs : List Char) : wholeWithin 0 cs = [] := by
  cases cs with
  | nil => rfl
  | cons c cs =>
    have := c.utf8Size_pos
    simp [wholeWithin]
    omega

theorem wholeWithin_append {n : ℕ} (cs ds : List Char) (h : (encode cs).length ≤ n) :
    wholeWithin n (cs++ds) = cs ++ wholeWithin (n-(encode cs).length) ds := by
  induction cs generalizing n with
  | nil => simp
  | cons c cs ih =>
    rw [encode_cons,List.length_append] at h
    have hc : (String.utf8EncodeChar c).length ≤ n := by omega
    simp only [List.cons_append,wholeWithin,if_pos hc]
    rw [ih (by omega),encode_cons,List.length_append,Nat.sub_sub]

theorem wholeWithin_length (cs : List Char) : wholeWithin (encode cs).length cs = cs := by
  have hall := wholeWithin_append cs [] (Nat.le_refl _)
  simpa [wholeWithin] using hall

theorem encode_wholeWithin_length (n : ℕ) (cs : List Char) :
    (encode (wholeWithin n cs)).length ≤ n := by
  induction cs generalizing n with
  | nil => exact Nat.zero_le n
  | cons c cs ih =>
    simp only [wholeWithin]
    split_ifs with h
    · have := ih (n - (String.utf8EncodeChar c).length)
      rw [encode_cons,List.length_append]
      omega
    · exact Nat.zero_le n

theorem wholeWithin_mono {n m : ℕ} (h : n ≤ m) (cs : List Char) :
    wholeWithin n cs <+: wholeWithin m cs := by
  obtain ⟨rest,hrest⟩ := wholeWithin_isPrefix n cs
  have hlen := (encode_wholeWithin_length n cs).trans h
  conv_rhs => rw [← hrest,wholeWithin_append _ _ hlen]
  exact List.prefix_append _ _

theorem continues_high {pending : List UInt8} {b : UInt8} (h : continues pending b = true) :
    0x80 ≤ b.toNat := by
  unfold continues at h
  split at h
  · simp only [decide_eq_true_eq] at h
    split_ifs at h <;> omega
  · simp only [decide_eq_true_eq] at h
    exact h.1

/-- Every byte of a sequence of more than one is high. -/
theorem IsSequence.high {n : ℕ} {bs : List UInt8} (h : IsSequence n bs) (hlen : bs.length ≠ 1) :
    ∀ b ∈ bs, 0x80 ≤ b.toNat := by
  have hfirst : ∀ a, 2 ≤ seqLen a → 0x80 ≤ a.toNat := by
    intro a ha
    unfold seqLen at ha
    split_ifs at ha <;> omega
  cases h with
  | one a ha hn => exact absurd rfl hlen
  | two a b ha hb hn =>
    have := hfirst a ha.ge
    have := continues_high hb
    simp_all
  | three a b c ha hb hc hn =>
    have := hfirst a (by omega)
    have := continues_high hb
    have := continues_high hc
    simp_all
  | four a b c d ha hb hc hd hn =>
    have := hfirst a (by omega)
    have := continues_high hb
    have := continues_high hc
    have := continues_high hd
    simp_all

/-- The first n bytes of a text: its whole characters, and the start of the next one. The
check accepts them when they end with a character, and otherwise reports where the
unfinished one starts. -/
theorem checkFrom_take (n : ℕ) (cs : List Char) (done : ℕ) :
    ∃ part, (encode cs).take n = encode (wholeWithin n cs) ++ part ∧ (∀ b ∈ part, 0x80 ≤ b.toNat) ∧
      checkFrom [] done ((encode cs).take n) =
        if part = [] then .ok else .error (done + (encode (wholeWithin n cs)).length) none := by
  induction cs generalizing n done with
  | nil => exact ⟨[],by simp [wholeWithin],by simp,by simp [checkFrom]⟩
  | cons c cs ih =>
    have hseq := isSequence_encodeChar c
    simp only [encode_cons,wholeWithin]
    split_ifs with hlen
    · obtain ⟨part,htake,hhigh,hcheck⟩ := ih (n - (String.utf8EncodeChar c).length)
        (done + (String.utf8EncodeChar c).length)
      refine ⟨part,?_,hhigh,?_⟩
      · rw [List.take_append,List.take_of_length_le hlen,htake,encode_cons,List.append_assoc]
      · rw [List.take_append,List.take_of_length_le hlen,checkFrom_append hseq,hcheck,encode_cons,
          List.length_append,Nat.add_assoc]
    · have htake : (String.utf8EncodeChar c ++ encode cs).take n =
          (String.utf8EncodeChar c).take n := List.take_append_of_le_length (by omega)
      refine ⟨(String.utf8EncodeChar c).take n,htake,?_,?_⟩
      · intro b hb
        have hpos : n ≠ 0 := by
          rintro rfl
          simp at hb
        exact hseq.high (by omega) b (List.mem_of_mem_take hb)
      · rw [htake]
        split_ifs with hnil
        · rw [hnil]
          rfl
        · refine checkFrom_unfinished hseq (List.take_prefix _ _) hnil ?_ done
          intro he
          have := congrArg List.length he
          rw [List.length_take] at this
          omega

theorem continues_le {pending : List UInt8} {b : UInt8} (h : continues pending b = true) :
    b.toNat ≤ 0xBF := by
  unfold continues at h
  split at h
  · simp only [decide_eq_true_eq] at h
    split_ifs at h <;> omega
  · simp only [decide_eq_true_eq] at h
    exact h.2

/-- The bytes from 0xF8 on stand in no text. -/
theorem IsSequence.lt {n : ℕ} {bs : List UInt8} (h : IsSequence n bs) :
    ∀ b ∈ bs, b.toNat < 0xF8 := by
  have hfirst : ∀ a, 1 ≤ seqLen a → a.toNat < 0xF8 := by
    intro a ha
    unfold seqLen at ha
    split_ifs at ha <;> omega
  cases h with
  | one a ha hn =>
    have := hfirst a (by omega)
    simp_all
  | two a b ha hb hn =>
    have := hfirst a (by omega)
    have := continues_le hb
    simp_all
    omega
  | three a b c ha hb hc hn =>
    have := hfirst a (by omega)
    have := continues_le hb
    have := continues_le hc
    simp_all
    omega
  | four a b c d ha hb hc hd hn =>
    have := hfirst a (by omega)
    have := continues_le hb
    have := continues_le hc
    have := continues_le hd
    simp_all
    omega

theorem encode_lt {cs : List Char} {b : UInt8} (h : b ∈ encode cs) : b.toNat < 0xF8 := by
  obtain ⟨c,-,hb⟩ := List.mem_flatMap.mp h
  exact (isSequence_encodeChar c).lt b hb

/-! The start of a character. -/

/-- The bytes begin a character and do not end it. -/
def Truncated (p : List UInt8) : Prop := p ≠ [] ∧ ∃ n rest, rest ≠ [] ∧ IsSequence n (p++rest)

/-- The starts by their lengths; the last bytes can always be made up. -/
theorem truncated_iff {p : List UInt8} : Truncated p ↔
    (∃ a, p = [a] ∧ 2 ≤ seqLen a) ∨
    (∃ a b, p = [a,b] ∧ 3 ≤ seqLen a ∧ continues [a] b = true) ∨
    (∃ a b c, p = [a,b,c] ∧ 4 ≤ seqLen a ∧ continues [a] b = true ∧ continues [a,b] c = true) := by
  constructor
  · rintro ⟨hne,n,rest,hrest,hseq⟩
    generalize hbs : p++rest = bs at hseq
    cases hseq with
    | one a ha hn => rcases p with _ | ⟨x,_ | ⟨y,p⟩⟩ <;> simp_all
    | two a b ha hb hn => rcases p with _ | ⟨x,_ | ⟨y,_ | ⟨z,p⟩⟩⟩ <;> simp_all
    | three a b c ha hb hc hn => rcases p with _ | ⟨x,_ | ⟨y,_ | ⟨z,_ | ⟨u,p⟩⟩⟩⟩ <;> simp_all
    | four a b c d ha hb hc hd hn =>
      rcases p with _ | ⟨x,_ | ⟨y,_ | ⟨z,_ | ⟨u,_ | ⟨v,p⟩⟩⟩⟩⟩ <;> simp_all
  · have hle : ∀ a, seqLen a ≤ 4 := by
      intro a
      unfold seqLen
      split_ifs <;> omega
    have hthird : ∀ a b, continues [a,b] 0x80 = true := by simp [continues]
    have hfourth : ∀ a b c, continues [a,b,c] 0x80 = true := by simp [continues]
    have hsecond : ∀ a, ∃ b, continues [a] b = true := by
      intro a
      refine ⟨if a.toNat = 0xE0 then 0xA0 else if a.toNat = 0xF0 then 0x90 else 0x80,?_⟩
      rw [continues_second]
      split_ifs <;> simp_all
    rintro (⟨a,rfl,ha⟩ | ⟨a,b,rfl,ha,hb⟩ | ⟨a,b,c,rfl,ha,hb,hc⟩)
    · obtain ⟨b,hb⟩ := hsecond a
      refine ⟨by simp,?_⟩
      obtain hlen | hlen | hlen : seqLen a = 2 ∨ seqLen a = 3 ∨ seqLen a = 4 := by
        have := hle a
        omega
      · exact ⟨_,[b],by simp,.two a b hlen hb rfl⟩
      · exact ⟨_,[b,0x80],by simp,.three a b 0x80 hlen hb (hthird a b) rfl⟩
      · exact ⟨_,[b,0x80,0x80],by simp,.four a b 0x80 0x80 hlen hb (hthird a b) (hfourth a b _) rfl⟩
    · refine ⟨by simp,?_⟩
      obtain hlen | hlen : seqLen a = 3 ∨ seqLen a = 4 := by
        have := hle a
        omega
      · exact ⟨_,[0x80],by simp,.three a b 0x80 hlen hb (hthird a b) rfl⟩
      · exact ⟨_,[0x80,0x80],by simp,.four a b 0x80 0x80 hlen hb (hthird a b) (hfourth a b _) rfl⟩
    · exact ⟨by simp,_,[0x80],by simp,.four a b c 0x80 ((hle a).antisymm ha) hb hc (hfourth a b c) rfl⟩

namespace Truncated
variable {p : List UInt8} {b : UInt8}

theorem high (h : Truncated p) : ∀ b ∈ p, 0x80 ≤ b.toNat := by
  obtain ⟨hne,n,rest,hrest,hseq⟩ := h
  have hlen : (p++rest).length ≠ 1 := by
    have := List.length_pos_of_ne_nil hne
    have := List.length_pos_of_ne_nil hrest
    rw [List.length_append]
    omega
  exact fun b hb => hseq.high hlen b (List.mem_append_left _ hb)

theorem start {a : UInt8} (ha : 2 ≤ seqLen a) : Truncated [a] := truncated_iff.mpr (.inl ⟨a,rfl,ha⟩)

/-- A byte that continues a start ends the character. -/
theorem finish (h : Truncated p) (hb : continues p b = true) (hend : finishes p = true) :
    IsSequence (codepoint (p++[b])) (p++[b]) := by
  simp only [finishes,decide_eq_true_eq] at hend
  obtain ⟨a,rfl,-⟩ | ⟨a,c,rfl,-,hc⟩ | ⟨a,c,d,rfl,-,hc,hd⟩ := truncated_iff.mp h
  · exact .two a b hend.symm hb rfl
  · exact .three a c b hend.symm hc hb rfl
  · exact .four a c d b hend.symm hc hd hb rfl

/-- Or it leaves a start. -/
theorem snoc (h : Truncated p) (hb : continues p b = true) (hmore : ¬finishes p = true) :
    Truncated (p++[b]) := by
  simp only [finishes,decide_eq_true_eq] at hmore
  have hle : ∀ a, seqLen a ≤ 4 := by
    intro a
    unfold seqLen
    split_ifs <;> omega
  obtain ⟨a,rfl,ha⟩ | ⟨a,c,rfl,ha,hc⟩ | ⟨a,c,d,rfl,ha,hc,hd⟩ := truncated_iff.mp h
  · refine truncated_iff.mpr (.inr (.inl ⟨a,b,rfl,?_,hb⟩))
    simp only [List.length_singleton,List.headD_cons] at hmore
    omega
  · refine truncated_iff.mpr (.inr (.inr ⟨a,c,b,rfl,?_,hc,hb⟩))
    simp only [List.length_cons,List.length_nil,List.headD_cons] at hmore
    omega
  · refine absurd ?_ hmore
    simp only [List.length_cons,List.length_nil,List.headD_cons]
    have := hle a
    omega

/-- A start prints nothing by itself. -/
theorem lossy_eq (h : Truncated p) : lossy.out [] p = [] ∧ lossy.state [] p = p := by
  obtain ⟨a,rfl,ha⟩ | ⟨a,b,rfl,ha,hb⟩ | ⟨a,b,c,rfl,ha,hb,hc⟩ := truncated_iff.mp h
  · have hone : seqLen a ≠ 0 ∧ seqLen a ≠ 1 := by omega
    simp [lossy,opens,opened,ha,hone]
  · have hlen : seqLen a ≠ 0 ∧ seqLen a ≠ 1 ∧ 2 ≤ seqLen a ∧ 2 ≠ seqLen a := by omega
    simp [lossy,opens,opened,finishes,hlen,hb]
  · have hlen : seqLen a ≠ 0 ∧ seqLen a ≠ 1 ∧ 2 ≤ seqLen a ∧ 2 ≠ seqLen a ∧ 3 ≠ seqLen a := by
      omega
    simp [lossy,opens,opened,finishes,hlen,hb,hc]

end Truncated

/-- The check that finds nothing wrong but the end leaves the start of a character. -/
theorem truncated_of_check {p bs : List UInt8} {done valid : ℕ} (hp : p = [] ∨ Truncated p)
    (h : checkFrom p done bs = .error valid none) :
    done ≤ valid ∧ Truncated ((p++bs).drop (valid-done)) := by
  induction bs generalizing p done with
  | nil =>
    simp only [checkFrom] at h
    split_ifs at h with hnil
    cases h
    rw [Nat.sub_self,List.append_nil]
    exact ⟨Nat.le_refl _,hp.resolve_left hnil⟩
  | cons b bs ih =>
    simp only [checkFrom] at h
    split_ifs at h with hnil hzero hone hcontinues hfinishes
    · cases h
    · obtain ⟨hle,htruncated⟩ := ih (.inl rfl) h
      rw [hnil,List.nil_append,show valid-done = (valid-(done+1))+1 by omega]
      exact ⟨by omega,htruncated⟩
    · obtain ⟨hle,htruncated⟩ := ih (.inr (.start (by omega))) h
      rw [hnil]
      exact ⟨hle,htruncated⟩
    · obtain ⟨hle,htruncated⟩ := ih (.inl rfl) h
      refine ⟨by omega,?_⟩
      have hdrop : (p++b::bs).drop (valid-done) = bs.drop (valid-(done+p.length+1)) := by
        rw [show valid-done = (p++[b]).length+(valid-(done+p.length+1)) by
          rw [List.length_append,List.length_singleton]; omega,← List.drop_drop,
          show p++b::bs = (p++[b])++bs by simp,List.drop_left]
      rw [hdrop]
      exact htruncated
    · have htruncated := hp.resolve_left hnil
      have hcontinues : continues p b = true := by simpa using hcontinues
      obtain ⟨hle,hrest⟩ := ih (.inr (htruncated.snoc hcontinues hfinishes)) h
      rw [List.append_assoc] at hrest
      exact ⟨hle,hrest⟩
    · cases h

/-- Only one byte makes a character below 0x80. -/
theorem IsSequence.ge {n : ℕ} {bs : List UInt8} (h : IsSequence n bs) (hlen : bs.length ≠ 1) :
    0x80 ≤ n := by
  have hlow : ∀ a, 2 ≤ seqLen a → 0xC2 ≤ a.toNat ∧ a.toNat < 0xF5 ∧
      (seqLen a = 2 → a.toNat < 0xE0) ∧ (seqLen a = 3 → 0xE0 ≤ a.toNat ∧ a.toNat < 0xF0) ∧
      (seqLen a = 4 → 0xF0 ≤ a.toNat) := by
    intro a ha
    unfold seqLen at ha ⊢
    split_ifs at ha ⊢ <;> omega
  cases h with
  | one a ha hn => exact absurd rfl hlen
  | two a b ha hb hn =>
    have := hlow a (by omega)
    simp only [codepoint] at hn
    omega
  | three a b c ha hb hc hn =>
    have := hlow a (by omega)
    rw [continues_second] at hb
    simp only [codepoint] at hn
    split_ifs at hb <;> omega
  | four a b c d ha hb hc hd hn =>
    have := hlow a (by omega)
    rw [continues_second] at hb
    simp only [codepoint] at hn
    split_ifs at hb <;> omega

/-- What is no character is the first one. -/
theorem toNat_char (n : ℕ) :
    (Char.ofNat n).toNat = n ∨ (0xD7FF < n ∧ (Char.ofNat n).toNat = 0) := by
  by_cases hvalid : n.isValidChar
  · left
    rw [show Char.ofNat n = Char.ofNatAux n hvalid from dif_pos hvalid]
    rfl
  · refine .inr ⟨?_,?_⟩
    · by_contra hle
      exact hvalid (.inl (by omega))
    · rw [show Char.ofNat n = _ from dif_neg hvalid]
      rfl

theorem mem_opened {b : UInt8} {c : Char} (h : c ∈ opened b) (hlow : c.toNat < 0x80) :
    c.toNat = b.toNat := by
  unfold opened at h
  split_ifs at h with hzero hone
  · obtain rfl := List.mem_singleton.mp h
    exact absurd hlow (by decide)
  · obtain rfl := List.mem_singleton.mp h
    have hb := b.toNat_lt
    exact (toNat_char b.toNat).resolve_right (by omega)
  · cases h

/-- A character below 0x80 stands as its byte. -/
theorem byte_mem_of_mem_out {p bs : List UInt8} (hp : p = [] ∨ Truncated p) {c : Char}
    (hc : c ∈ lossy.out p bs) (hlow : c.toNat < 0x80) (hpos : 0 < c.toNat) :
    ∃ b ∈ bs, b.toNat = c.toNat := by
  induction bs generalizing p with
  | nil => cases hc
  | cons b bs ih =>
    have hrest : ∀ {q},q = [] ∨ Truncated q → c ∈ lossy.out q bs → ∃ x ∈ b::bs,x.toNat = c.toNat := by
      intro q hq hmem
      obtain ⟨x,hx,he⟩ := ih hq hmem
      exact ⟨x,List.mem_cons_of_mem _ hx,he⟩
    have hopens : opens b = [] ∨ Truncated (opens b) := by
      unfold opens
      split_ifs with htwo
      · exact .inr (.start htwo)
      · exact .inl rfl
    rw [Mealy.out_cons,List.mem_append] at hc
    simp only [lossy] at hc
    by_cases hnil : p = []
    · simp only [hnil,true_or,if_true] at hc
      rcases hc with hc | hc
      · exact ⟨b,List.mem_cons_self,(mem_opened hc hlow).symm⟩
      · exact hrest hopens hc
    have htruncated := hp.resolve_left hnil
    by_cases hcontinues : continues p b = true
    · simp only [hnil,hcontinues,not_true_eq_false,or_self,if_false] at hc
      by_cases hfinishes : finishes p = true
      · simp only [hfinishes,if_true] at hc
        rcases hc with hc | hc
        · have hge := (htruncated.finish hcontinues hfinishes).ge (by
            have := List.length_pos_of_ne_nil hnil
            rw [List.length_append,List.length_singleton]
            omega)
          obtain rfl := List.mem_singleton.mp hc
          rcases toNat_char (codepoint (p++[b])) with he | he <;> omega
        · exact hrest (.inl rfl) hc
      · rw [if_neg hfinishes,if_neg hfinishes] at hc
        rcases hc with hc | hc
        · cases hc
        · exact hrest (.inr (htruncated.snoc hcontinues hfinishes)) hc
    · rw [if_neg hnil,if_pos hcontinues,if_pos (.inr hcontinues)] at hc
      rcases hc with hc | hc
      · rcases List.mem_cons.mp hc with rfl | hc
        · exact absurd hlow (by decide)
        · exact ⟨b,List.mem_cons_self,(mem_opened hc hlow).symm⟩
      · exact hrest hopens hc

/-- A byte below 0x80 is a character, also where it cuts another one short. -/
theorem mem_out_of_byte_mem {p bs : List UInt8} {b : UInt8} (hb : b ∈ bs) (hlow : b.toNat < 0x80) :
    Char.ofNat b.toNat ∈ lossy.out p bs := by
  induction bs generalizing p with
  | nil => cases hb
  | cons x bs ih =>
    rw [Mealy.out_cons,List.mem_append]
    rcases List.mem_cons.mp hb with rfl | hb
    · left
      have hone : seqLen b = 1 := by simp [seqLen,hlow]
      have hnot : continues p b = false := by
        by_contra hcontinues
        have := continues_high (Bool.of_not_eq_false hcontinues)
        omega
      by_cases hp : p = []
      · simp [lossy,hp,opened,hone]
      · simp [lossy,hp,hnot,opened,hone]
    · exact .inr (ih hb)

end Utf8
