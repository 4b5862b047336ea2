import Babysit.Lib.Utf8

/-! `read_slice` of the log commands: the text from a raw offset on, without an unfinished
escape sequence or character at its end, and the offset to resume from. -/
namespace Babysit

/-- The position of the last element that satisfies the predicate. -/
def rposition (p : UInt8 → Bool) : List UInt8 → Option ℕ
  | [] => none
  | b::bs =>
    match rposition p bs with
    | some i => some (i+1)
    | none => if p b then some 0 else none

/-- Two neighbouring bytes of the list. -/
def hasWindow (a b : UInt8) : List UInt8 → Bool
  | x::y::rest => (x = a ∧ y = b) || hasWindow a b (y::rest)
  | _ => false

/-- The escape sequence at the start of the bytes has its terminator. Forms that are not
classified count as complete. -/
def escapeComplete (tail : List UInt8) : Bool :=
  match tail[1]? with
  | none => false
  | some b =>
    if b = 0x5b then (tail.drop 2).any fun b => 0x40 ≤ b.toNat ∧ b.toNat ≤ 0x7e
    else if b = 0x5d then (tail.drop 2).contains 0x07 || hasWindow 0x1b 0x5c tail
    else if b = 0x4f then 3 ≤ tail.length
    else true

/-- Where an unfinished escape sequence at the end begins, or the end. -/
def escapeStop (bytes : List UInt8) : ℕ :=
  match rposition (· = 0x1b) bytes with
  | some esc => if ¬escapeComplete (bytes.drop esc) then esc else bytes.length
  | none => bytes.length

/-- Without an unfinished escape sequence, then without an unfinished character. -/
def safePrefixLen (bytes : List UInt8) : ℕ :=
  let stop := escapeStop bytes
  match Utf8.check (bytes.take stop) with
  | .error validUpTo none => validUpTo
  | _ => stop

/-- One read of the log from a raw offset; `strip` is `strip_ansi_escapes::strip`, and
there may be no log yet. -/
def readSlice (strip : List UInt8 → List UInt8) (file : Option (List UInt8)) (off : ℕ)
    (raw : Bool) : List Char × ℕ :=
  match file with
  | none => ([],off)
  | some log =>
    if log.length ≤ off then ([],log.length)
    else
      let bytes := log.drop off
      let safe := safePrefixLen bytes
      let chunk := bytes.take safe
      (Utf8.decodeLossy (if raw then chunk else strip chunk),off+safe)

theorem forall_not_of_rposition {p : UInt8 → Bool} {bs : List UInt8} (h : rposition p bs = none) :
    ∀ b ∈ bs,p b = false := by
  induction bs with
  | nil => simp
  | cons b bs ih =>
    unfold rposition at h
    split at h
    next => cases h
    next hnone =>
      split_ifs at h with hb
      exact List.forall_mem_cons.mpr ⟨Bool.of_not_eq_true hb,ih hnone⟩

theorem rposition_lt {p : UInt8 → Bool} {bs : List UInt8} {i : ℕ}
    (h : rposition p bs = some i) : i < bs.length := by
  induction bs generalizing i with
  | nil => cases h
  | cons b bs ih =>
    unfold rposition at h
    split at h
    next j hj =>
      obtain rfl := Option.some.inj h
      exact Nat.succ_lt_succ (ih hj)
    next =>
      split_ifs at h
      obtain rfl := Option.some.inj h
      exact Nat.succ_pos _

theorem escapeStop_le (bytes : List UInt8) : escapeStop bytes ≤ bytes.length := by
  unfold escapeStop
  split
  next esc hesc =>
    split_ifs
    · exact Nat.le_refl _
    · exact (rposition_lt hesc).le
  next => exact Nat.le_refl _

theorem safePrefixLen_le (bytes : List UInt8) : safePrefixLen bytes ≤ bytes.length := by
  have hstop := escapeStop_le bytes
  simp only [safePrefixLen]
  split
  next valid hcheck =>
    have hvalid := Utf8.checkFrom_error_le hcheck
    simp only [List.length_nil,Nat.zero_add,List.length_take] at hvalid
    omega
  next => exact hstop

theorem rposition_eq_some {p : UInt8 → Bool} {bs : List UInt8} {i : ℕ}
    (h : rposition p bs = some i) :
    ∃ pre b post, bs = pre++b::post ∧ pre.length = i ∧ p b = true ∧ ∀ x ∈ post,p x = false := by
  induction bs generalizing i with
  | nil => cases h
  | cons b bs ih =>
    unfold rposition at h
    split at h
    next j hj =>
      obtain rfl := Option.some.inj h
      obtain ⟨pre,x,post,rfl,rfl,hx,hpost⟩ := ih hj
      exact ⟨b::pre,x,post,rfl,rfl,hx,hpost⟩
    next hnone =>
      split_ifs at h with hb
      obtain rfl := Option.some.inj h
      exact ⟨[],b,bs,rfl,rfl,hb,forall_not_of_rposition hnone⟩

theorem rposition_append (p : UInt8 → Bool) (xs ys : List UInt8) :
    rposition p (xs++ys) = ((rposition p ys).map (xs.length + ·)).or (rposition p xs) := by
  induction xs with
  | nil => cases h : rposition p ys <;> simp [h,rposition]
  | cons x xs ih =>
    simp only [List.cons_append,rposition,ih]
    cases h : rposition p ys with
    | none => simp
    | some i =>
      simp only [Option.map_some,Option.some_or,List.length_cons]
      congr 1
      omega

theorem rposition_of_forall_not {p : UInt8 → Bool} {xs : List UInt8} (h : ∀ b ∈ xs, p b = false) :
    rposition p xs = none := by
  induction xs with
  | nil => rfl
  | cons x xs ih =>
    simp only [List.forall_mem_cons] at h
    simp [rposition,ih h.2,h.1]

theorem escapeStop_of_no_escape {bytes : List UInt8} (h : 0x1b ∉ bytes) :
    escapeStop bytes = bytes.length := by
  have hnone : rposition (· = 0x1b) bytes = none := by
    apply rposition_of_forall_not
    intro b hb
    rw [decide_eq_false_iff_not]
    rintro rfl
    exact h hb
  simp only [escapeStop,hnone]

theorem hasWindow_append {a b : UInt8} {xs : List UInt8} (ys : List UInt8)
    (h : hasWindow a b xs = true) : hasWindow a b (xs++ys) = true := by
  induction xs with
  | nil => cases h
  | cons x xs ih =>
    cases xs with
    | nil => cases h
    | cons y rest =>
      simp only [hasWindow,Bool.or_eq_true] at h
      simp only [List.cons_append,hasWindow,Bool.or_eq_true]
      exact h.imp_right ih

/-- What has its terminator keeps it. -/
theorem escapeComplete_append {xs : List UInt8} (ys : List UInt8) (h : escapeComplete xs = true) :
    escapeComplete (xs++ys) = true := by
  rcases xs with _ | ⟨x,_ | ⟨y,rest⟩⟩
  · cases h
  · cases h
  · simp only [escapeComplete,List.getElem?_cons_succ,List.getElem?_cons_zero,List.drop_succ_cons,
      List.drop_zero,List.length_cons,List.cons_append] at h ⊢
    split_ifs at h ⊢ with h1 h2 h3
    · simp only [List.any_append,h,Bool.true_or]
    · rw [Bool.or_eq_true] at h ⊢
      refine h.imp (fun hbell => ?_) (hasWindow_append ys)
      simp_all
    · simp only [List.length_append,decide_eq_true_eq] at h ⊢
      omega
    · exact h

/-- An escape sequence that is not complete. -/
theorem incomplete_cases {rest : List UInt8} (h : ¬escapeComplete (0x1b::rest) = true) :
    rest = [] ∨ (∃ ps,rest = 0x5b::ps ∧ ∀ b ∈ ps,¬(0x40 ≤ b.toNat ∧ b.toNat ≤ 0x7e)) ∨
      (∃ ps,rest = 0x5d::ps ∧ 0x07 ∉ ps) ∨ rest = [0x4f] := by
  rcases rest with _ | ⟨b,ps⟩
  · exact .inl rfl
  · simp only [escapeComplete,List.getElem?_cons_succ,List.getElem?_cons_zero,List.drop_succ_cons,
      List.drop_zero,List.length_cons] at h
    split_ifs at h with hcsi hosc hss3
    · refine .inr (.inl ⟨ps,by rw [hcsi],fun b hb hfinal => h ?_⟩)
      exact List.any_eq_true.mpr ⟨b,hb,by simpa using hfinal⟩
    · refine .inr (.inr (.inl ⟨ps,by rw [hosc],fun hbell => h ?_⟩))
      simp [hbell]
    · refine .inr (.inr (.inr ?_))
      simp only [decide_eq_true_eq] at h
      rw [hss3,List.length_eq_zero_iff.mp (by omega : ps.length = 0)]
    · exact absurd rfl h

/-- What a read leaves: nothing, the start of a character, an incomplete escape sequence, or one
behind the start of a character. -/
theorem unread_cases (bytes : List UInt8) :
    bytes.drop (safePrefixLen bytes) = [] ∨ Utf8.Truncated (bytes.drop (safePrefixLen bytes)) ∨
    (∃ rest,bytes.drop (safePrefixLen bytes) = 0x1b::rest ∧ 0x1b ∉ rest ∧
      ¬escapeComplete (0x1b::rest) = true) ∨
    ∃ part rest,bytes.drop (safePrefixLen bytes) = part++0x1b::rest ∧ Utf8.Truncated part := by
  have hwhole : escapeStop bytes = bytes.length →
      bytes.drop (safePrefixLen bytes) = [] ∨ Utf8.Truncated (bytes.drop (safePrefixLen bytes)) := by
    intro hstop
    simp only [safePrefixLen,hstop,List.take_length]
    split
    next valid hcheck => exact .inr (Utf8.truncated_of_check (.inl rfl) hcheck).2
    next => exact .inl (List.drop_length ..)
  unfold escapeStop at hwhole
  split at hwhole
  next esc hesc =>
    split_ifs at hwhole with hincomplete
    · rcases hwhole rfl with hnil | htruncated
      · exact .inl hnil
      · exact .inr (.inl htruncated)
    · obtain ⟨pre,b,rest,rfl,rfl,hb,hrest⟩ := rposition_eq_some hesc
      obtain rfl : b = 0x1b := by simpa using hb
      have hnone : 0x1b ∉ rest := fun hmem => by simpa using hrest _ hmem
      rw [List.drop_left] at hincomplete
      have hstop : escapeStop (pre++0x1b::rest) = pre.length := by
        simp only [escapeStop,hesc,List.drop_left,if_pos hincomplete]
      simp only [safePrefixLen,hstop,List.take_left]
      right; right
      split
      next valid hcheck =>
        have hle := Utf8.checkFrom_error_le hcheck
        simp only [List.length_nil,Nat.zero_add] at hle
        refine .inr ⟨pre.drop valid,rest,List.drop_append_of_le_length hle,?_⟩
        exact (Utf8.truncated_of_check (.inl rfl) hcheck).2
      next => exact .inl ⟨rest,List.drop_left ..,hnone,hincomplete⟩
  next =>
    rcases hwhole rfl with hnil | htruncated
    · exact .inl hnil
    · exact .inr (.inl htruncated)

end Babysit
