import Babysit.DetachFilter
import Babysit.Lib.Decimal
import Mathlib.Data.Nat.Bitwise

/-! The encodings of Ctrl-\\ that the detach filter knows, as a grammar, and the parser that
accepts exactly these. The parser is modelled a second time with every slice and subtraction
that could fail. -/
namespace Babysit

/-- The value of an ASCII digit. -/
def byteDigit (b : UInt8) : Option ℕ := if 48 ≤ b ∧ b ≤ 57 then some (b-48).toNat else none

/-- A decimal number, leading zeros allowed. -/
def IsDecimal (bytes : List UInt8) (n : ℕ) : Prop := Decimal.IsNumeral byteDigit bytes n

/-- A separator behind the first part, or the end. -/
def Behind (sep : UInt8) (bytes : List UInt8) : Prop := bytes = [] ∨ ∃ rest, bytes = sep::rest

/-- Any parameters, each behind a semicolon. -/
def Params (bytes : List UInt8) : Prop := Behind 59 bytes

/-- Any subparameters of one parameter, each behind a colon. -/
def SubParams (bytes : List UInt8) : Prop := 59 ∉ bytes ∧ Behind 58 bytes

/-- A modifier parameter, which is one more than the modifiers: Ctrl, and perhaps the locks. -/
def IsCtrl (m : ℕ) : Prop :=
  1 ≤ m ∧ m ≤ 65535 ∧ ∀ k, k ≠ 6 → k ≠ 7 → (m-1).testBit k = decide (k = 2)

/-- The event behind a modifier: none stands for a press. -/
inductive IsEvent : List UInt8 → DetachEvent → Prop
  | absent : IsEvent [] .press
  | press {value subs : List UInt8} : IsDecimal value 1 → SubParams subs →
      IsEvent (58::(value++subs)) .press
  | repeatOrRelease {value subs : List UInt8} {n : ℕ} : IsDecimal value n → n = 2 ∨ n = 3 →
      SubParams subs → IsEvent (58::(value++subs)) .repeatOrRelease

/-- An encoding of Ctrl-\\ with its event. -/
inductive Encodes : List UInt8 → DetachEvent → Prop
  | kitty {code subs modifier field params : List UInt8} {m : ℕ} {event : DetachEvent} :
      IsDecimal code 92 → SubParams subs → IsDecimal modifier m → IsCtrl m → IsEvent field event →
      Params params → Encodes
        ([ESC,91] ++ (code ++ subs ++ 59::(modifier ++ field ++ params)) ++ [117]) event
  | xterm {lead modifier code params : List UInt8} {m : ℕ} : IsDecimal lead 27 →
      IsDecimal modifier m → IsCtrl m → IsDecimal code 92 → Params params → Encodes
        ([ESC,91] ++ (lead ++ 59::(modifier ++ 59::(code ++ params))) ++ [126]) .press

/-- What a debug build stops at. -/
inductive Panic
  | slice
  | underflow
  deriving DecidableEq, Repr

abbrev Checked := OptionT (Except Panic)

/-- `&bytes[start..stop]` -/
def checkedSlice (bytes : List UInt8) (start stop : ℕ) : Checked (List UInt8) :=
  if start ≤ stop ∧ stop ≤ bytes.length then pure ((bytes.take stop).drop start)
  else OptionT.mk (.error .slice)

/-- A subtraction of unsigned numbers. -/
def checkedSub (a b : ℕ) : Checked ℕ :=
  if b ≤ a then pure (a-b) else OptionT.mk (.error .underflow)

def parseDigitsChecked (value : ℕ) : List UInt8 → Checked ℕ
  | [] => pure value
  | byte::rest =>
    if 48 ≤ byte ∧ byte ≤ 57 then do
      let digit ← checkedSub byte.toNat 48
      let next := value*10 + digit
      if next < 65536 then parseDigitsChecked next rest else failure
    else failure

def parseDecimalChecked (bytes : List UInt8) : Checked UInt16 :=
  if bytes = [] then failure else do
    let value ← parseDigitsChecked 0 bytes
    pure (UInt16.ofNat value)

/-- `checked_sub(1)` is none at 0. -/
def parseModifierChecked (bytes : List UInt8) : Checked UInt16 := do
  let m ← parseDecimalChecked bytes
  if m = 0 then failure else pure (m-1)

def kittyEventChecked (body : List UInt8) : Checked DetachEvent :=
  match body.splitOn 59 with
  | codes::modifiers::_ => do
    let codepoint ← parseDecimalChecked ((codes.splitOn 58).headD [])
    let fields := modifiers.splitOn 58
    let modifier ← parseModifierChecked (fields.headD [])
    let event ← match fields.tail with
      | [] => pure 1
      | value::_ => parseDecimalChecked value
    if codepoint ≠ 92 ∨ ¬ctrlOnly modifier then failure
    else if event = 1 then pure .press
    else if event = 2 ∨ event = 3 then pure .repeatOrRelease
    else failure
  | _ => failure

def xtermEventChecked (body : List UInt8) : Checked DetachEvent :=
  match body.splitOn 59 with
  | lead::modifiers::codes::_ => do
    let first ← parseDecimalChecked lead
    let modifier ← parseModifierChecked modifiers
    let codepoint ← parseDecimalChecked codes
    if first = 27 ∧ codepoint = 92 ∧ ctrlOnly modifier then pure .press else failure
  | _ => failure

def enhancedDetachEventChecked (sequence : List UInt8) : Checked DetachEvent :=
  if ¬[ESC,91].isPrefixOf sequence then failure
  else if sequence.getLast? = some 117 then do
    let stop ← checkedSub sequence.length 1
    let body ← checkedSlice sequence 2 stop
    kittyEventChecked body
  else if sequence.getLast? = some 126 then do
    let stop ← checkedSub sequence.length 1
    let body ← checkedSlice sequence 2 stop
    xtermEventChecked body
  else failure

/-- The checked computation does not panic and has this result. -/
def Checked.Gives {α : Type} (c : Checked α) (r : Option α) : Prop := c.run = .ok r

theorem gives_pure {α : Type} (a : α) : Checked.Gives (pure a) (some a) := rfl

theorem gives_failure {α : Type} : Checked.Gives (failure : Checked α) none := rfl

theorem Checked.Gives.bind {α β : Type} {c : Checked α} {r : Option α} {f : α → Checked β}
    {g : α → Option β} (h : c.Gives r) (hf : ∀ a, (f a).Gives (g a)) :
    Checked.Gives (c >>= f) (r.bind g) := by
  unfold Checked.Gives at h ⊢
  rw [OptionT.run_bind,h]
  cases r with
  | none => rfl
  | some a => exact hf a

theorem gives_bindPure {α β : Type} {c : Checked α} {r : Option α} (h : c.Gives r) (f : α → β) :
    Checked.Gives (c >>= fun a => pure (f a)) (r.map f) := by
  rw [Option.map_eq_bind]
  exact h.bind fun a => gives_pure (f a)

theorem parseDigitsChecked_gives (value : ℕ) (bytes : List UInt8) :
    (parseDigitsChecked value bytes).Gives (parseDigits value bytes) := by
  induction bytes generalizing value with
  | nil => exact gives_pure value
  | cons byte rest ih =>
    rw [parseDigitsChecked,parseDigits]
    by_cases hdigit : 48 ≤ byte ∧ byte ≤ 57
    · have hle : 48 ≤ byte.toNat := UInt8.le_iff_toNat_le.mp hdigit.1
      have hsub : (byte-48).toNat = byte.toNat-48 := UInt8.toNat_sub_of_le _ _ hdigit.1
      rw [if_pos hdigit,if_pos hdigit,checkedSub,if_pos hle]
      dsimp only
      rw [pure_bind,hsub]
      split_ifs
      · exact ih _
      · exact gives_failure
    · rw [if_neg hdigit,if_neg hdigit]
      exact gives_failure

theorem parseDecimalChecked_gives (bytes : List UInt8) :
    (parseDecimalChecked bytes).Gives (parseDecimal bytes) := by
  unfold parseDecimalChecked parseDecimal
  split_ifs
  · exact gives_failure
  · exact gives_bindPure (parseDigitsChecked_gives 0 bytes) _

theorem parseModifierChecked_gives (bytes : List UInt8) :
    (parseModifierChecked bytes).Gives (parseModifier bytes) := by
  refine (parseDecimalChecked_gives bytes).bind fun m => ?_
  split_ifs
  · exact gives_failure
  · exact gives_pure _

theorem kittyEventChecked_gives (body : List UInt8) :
    (kittyEventChecked body).Gives (kittyEvent body) := by
  have hverdict : ∀ codepoint event modifier : UInt16, Checked.Gives
      (if codepoint ≠ 92 ∨ ¬ctrlOnly modifier then failure
        else if event = 1 then pure DetachEvent.press
        else if event = 2 ∨ event = 3 then pure DetachEvent.repeatOrRelease
        else failure)
      (if codepoint ≠ 92 ∨ ¬ctrlOnly modifier then none
        else if event = 1 then some DetachEvent.press
        else if event = 2 ∨ event = 3 then some DetachEvent.repeatOrRelease
        else none) := by
    intro codepoint event modifier
    split_ifs
    · exact gives_failure
    · exact gives_pure _
    · exact gives_pure _
    · exact gives_failure
  unfold kittyEventChecked kittyEvent
  rcases body.splitOn 59 with _ | ⟨codes,_ | ⟨modifiers,params⟩⟩
  · exact gives_failure
  · exact gives_failure
  · refine (parseDecimalChecked_gives _).bind fun codepoint => ?_
    refine (parseModifierChecked_gives _).bind fun modifier => ?_
    dsimp only
    rcases (modifiers.splitOn 58).tail with _ | ⟨value,more⟩
    · exact hverdict codepoint 1 modifier
    · exact (parseDecimalChecked_gives value).bind fun event => hverdict codepoint event modifier

theorem xtermEventChecked_gives (body : List UInt8) :
    (xtermEventChecked body).Gives (xtermEvent body) := by
  unfold xtermEventChecked xtermEvent
  rcases body.splitOn 59 with _ | ⟨lead,_ | ⟨modifiers,_ | ⟨codes,params⟩⟩⟩
  · exact gives_failure
  · exact gives_failure
  · exact gives_failure
  · refine (parseDecimalChecked_gives _).bind fun first => ?_
    refine (parseModifierChecked_gives _).bind fun modifier => ?_
    refine (parseDecimalChecked_gives _).bind fun codepoint => ?_
    split_ifs
    · exact gives_pure _
    · exact gives_failure

/-- A sequence with the introducer and a final byte of its own. -/
theorem body_of_final {sequence : List UInt8} {final : UInt8}
    (hintroduced : [ESC,91].isPrefixOf sequence = true) (hfinal : sequence.getLast? = some final)
    (hne : final ≠ 91) : sequence = [ESC,91] ++ (sequence.drop 2).dropLast ++ [final] := by
  obtain ⟨rest,rfl⟩ := List.isPrefixOf_iff_prefix.mp hintroduced
  rcases List.eq_nil_or_concat rest with rfl | ⟨body,last,rfl⟩
  · cases hfinal
    exact absurd rfl hne
  · rw [List.concat_eq_append,← List.append_assoc,List.getLast?_concat] at hfinal
    cases hfinal
    simp

theorem checkedBody_gives {α : Type} {body : List UInt8} {final : UInt8}
    {f : List UInt8 → Checked α} {g : Option α} (hf : (f body).Gives g) :
    Checked.Gives (do
      let stop ← checkedSub ([ESC,91] ++ body ++ [final]).length 1
      let inner ← checkedSlice ([ESC,91] ++ body ++ [final]) 2 stop
      f inner) g := by
  have hlen : ([ESC,91] ++ body ++ [final]).length = body.length+3 := by simp
  have hslice : (([ESC,91] ++ body ++ [final]).take (body.length+2)).drop 2 = body := by
    simp
  rw [hlen,checkedSub,if_pos (by omega),pure_bind,checkedSlice,if_pos ⟨by omega,by omega⟩,pure_bind,
    show body.length+3-1 = body.length+2 from rfl,hslice]
  exact hf

/-- No slice and no subtraction of the parser can fail. -/
theorem enhancedDetachEventChecked_gives (sequence : List UInt8) :
    (enhancedDetachEventChecked sequence).Gives (enhancedDetachEvent sequence) := by
  unfold enhancedDetachEventChecked enhancedDetachEvent
  by_cases hintroduced : [ESC,91].isPrefixOf sequence = true
  · rw [if_neg (not_not.mpr hintroduced),if_neg (not_not.mpr hintroduced)]
    split_ifs with hkitty hxterm
    · have hbody := body_of_final hintroduced hkitty (by decide)
      generalize (sequence.drop 2).dropLast = body at hbody
      subst hbody
      exact checkedBody_gives (kittyEventChecked_gives body)
    · have hbody := body_of_final hintroduced hxterm (by decide)
      generalize (sequence.drop 2).dropLast = body at hbody
      subst hbody
      exact checkedBody_gives (xtermEventChecked_gives body)
    · exact gives_failure
  · rw [if_pos hintroduced,if_pos hintroduced]
    exact gives_failure

theorem parseDigits_eq (value : ℕ) (bytes : List UInt8) :
    parseDigits value bytes = Decimal.readFrom byteDigit 65535 value bytes := by
  induction bytes generalizing value with
  | nil => rfl
  | cons byte rest ih =>
    rw [parseDigits,Decimal.readFrom,byteDigit]
    by_cases hdigit : 48 ≤ byte ∧ byte ≤ 57
    · rw [if_pos hdigit,if_pos hdigit,Option.bind_some]
      simp only [Nat.lt_succ_iff,ih]
    · rw [if_neg hdigit,if_neg hdigit]
      rfl

theorem parseDecimal_eq_some_iff {bytes : List UInt8} {v : UInt16} :
    parseDecimal bytes = some v ↔ IsDecimal bytes v.toNat := by
  have hread : parseDecimal bytes = (Decimal.read byteDigit 65535 bytes).map UInt16.ofNat := by
    rw [parseDecimal,Decimal.read,parseDigits_eq]
    split_ifs <;> rfl
  rw [hread,Option.map_eq_some_iff]
  constructor
  · rintro ⟨n,hn,rfl⟩
    obtain ⟨hdecimal,hle⟩ := Decimal.read_eq_some_iff.mp hn
    rw [IsDecimal,UInt16.toNat_ofNat',Nat.mod_eq_of_lt (by omega)]
    exact hdecimal
  · intro h
    have hlt := v.toNat_lt
    exact ⟨v.toNat,Decimal.read_eq_some_iff.mpr ⟨h,by omega⟩,UInt16.ofNat_toNat⟩

theorem parseModifier_eq_some_iff {bytes : List UInt8} {v : UInt16} :
    parseModifier bytes = some v ↔ IsDecimal bytes (v.toNat+1) ∧ v.toNat+1 ≤ 65535 := by
  rw [parseModifier,Option.bind_eq_some_iff]
  constructor
  · rintro ⟨m,hm,h⟩
    split_ifs at h with hzero
    obtain rfl := Option.some.inj h
    have hpos : m.toNat ≠ 0 := fun hm => hzero (UInt16.toNat_inj.mp hm)
    have hle : (1 : UInt16) ≤ m := UInt16.le_iff_toNat_le.mpr (by simp; omega)
    have hlt := m.toNat_lt
    rw [UInt16.toNat_sub_of_le _ _ hle,show (1 : UInt16).toNat = 1 from rfl,
      Nat.sub_add_cancel (by omega)]
    exact ⟨parseDecimal_eq_some_iff.mp hm,by omega⟩
  · rintro ⟨h,hle⟩
    have hnext : (v+1).toNat = v.toNat+1 := by
      rw [UInt16.toNat_add]
      exact Nat.mod_eq_of_lt (by simp; omega)
    refine ⟨v+1,parseDecimal_eq_some_iff.mpr (by rw [hnext]; exact h),?_⟩
    rw [if_neg]
    · simp
    · intro hzero
      rw [hzero] at hnext
      simp at hnext

/-- The bits of the mask that is left without the locks. -/
theorem testBit_locks {k : ℕ} (hk : k < 16) : (65343).testBit k = (decide (k ≠ 6) && decide (k ≠ 7)) ∧
    (4).testBit k = decide (k = 2) := by
  revert k
  decide

theorem ctrlOnly_iff (v : UInt16) :
    ctrlOnly v = true ↔ ∀ k, k ≠ 6 → k ≠ 7 → v.toNat.testBit k = decide (k = 2) := by
  have hmask : ctrlOnly v = true ↔ v.toNat &&& 65343 = 4 := by
    rw [ctrlOnly,beq_iff_eq,← UInt16.toNat_inj,UInt16.toNat_and]
    rfl
  have hhigh : ∀ k, 16 ≤ k → v.toNat.testBit k = false := by
    intro k hk
    have hpow := Nat.pow_le_pow_right (Nat.succ_pos 1) hk
    exact Nat.testBit_lt_two_pow (v.toNat_lt.trans_le hpow)
  rw [hmask]
  constructor
  · intro h k h6 h7
    by_cases hk : k < 16
    · obtain ⟨hmask,hfour⟩ := testBit_locks hk
      have hbit := congrArg (Nat.testBit · k) h
      simpa [hmask,hfour,h6,h7] using hbit
    · rw [hhigh k (by omega)]
      exact (decide_eq_false (by omega)).symm
  · intro h
    refine Nat.eq_of_testBit_eq fun k => ?_
    rw [Nat.testBit_and]
    by_cases hk : k < 16
    · obtain ⟨hmask,hfour⟩ := testBit_locks hk
      rw [hmask,hfour]
      by_cases h6 : k = 6
      · simp [h6]
      · by_cases h7 : k = 7
        · simp [h7]
        · simp [h k h6 h7,h6,h7]
    · have hpow := Nat.pow_le_pow_right (Nat.succ_pos 1) (Nat.le_of_not_lt hk)
      rw [hhigh k (by omega),Bool.false_and]
      exact (Nat.testBit_lt_two_pow (Nat.lt_of_lt_of_le (by decide) hpow)).symm

section split
variable {sep : UInt8} {first behind : List UInt8}

/-- The parts behind the first one. -/
def partsBehind (sep : UInt8) : List UInt8 → List (List UInt8)
  | [] => []
  | _::rest => rest.splitOn sep

theorem splitOn_append (h : sep ∉ first) (hbehind : Behind sep behind) :
    (first ++ behind).splitOn sep = first::partsBehind sep behind := by
  rcases hbehind with rfl | ⟨rest,rfl⟩
  · rw [List.append_nil,List.splitOn_eq_singleton h]
    rfl
  · exact List.splitOn_append_cons_self_of_not_mem h rest

/-- The first part ends at the first separator. -/
theorem exists_first (sep : UInt8) (bytes : List UInt8) :
    ∃ first behind, bytes = first ++ behind ∧ sep ∉ first ∧ Behind sep behind := by
  by_cases h : sep ∈ bytes
  · obtain ⟨first,rest,rfl,hfirst⟩ := List.eq_append_cons_of_mem h
    exact ⟨first,sep::rest,rfl,hfirst,.inr ⟨rest,rfl⟩⟩
  · exact ⟨bytes,[],(List.append_nil _).symm,h,.inl rfl⟩

end split

/-- The event that a modifier parameter has behind its first subparameter. -/
def eventOf (field : List UInt8) : Option UInt16 :=
  match partsBehind 58 field with
  | [] => some 1
  | value::_ => parseDecimal value

def verdict (codepoint modifier event : UInt16) : Option DetachEvent :=
  if codepoint ≠ 92 ∨ ¬ctrlOnly modifier then none
  else if event = 1 then some .press
  else if event = 2 ∨ event = 3 then some .repeatOrRelease
  else none

theorem kittyEvent_eq {code subs modifier field params : List UInt8}
    (hcode : 58 ∉ code ∧ 59 ∉ code) (hsubs : SubParams subs)
    (hmodifier : 58 ∉ modifier ∧ 59 ∉ modifier) (hfield : SubParams field) (hparams : Params params) :
    kittyEvent (code ++ subs ++ 59::(modifier ++ field ++ params)) =
      (parseDecimal code).bind fun c => (parseModifier modifier).bind fun m =>
        (eventOf field).bind fun e => verdict c m e := by
  have hfirst : (59 : UInt8) ∉ code ++ subs := by simp [hcode.2,hsubs.1]
  have hsecond : (59 : UInt8) ∉ modifier ++ field := by simp [hmodifier.2,hfield.1]
  rw [kittyEvent,List.splitOn_append_cons_self_of_not_mem hfirst,splitOn_append hsecond hparams]
  dsimp only
  rw [splitOn_append hcode.1 hsubs.2,splitOn_append hmodifier.1 hfield.2]
  unfold eventOf
  dsimp only [List.headD_cons,List.tail_cons]
  rcases partsBehind 58 field with _ | ⟨value,more⟩
  · rfl
  · rfl

theorem xtermEvent_eq {lead modifier code params : List UInt8} (hlead : 59 ∉ lead)
    (hmodifier : 59 ∉ modifier) (hcode : 59 ∉ code) (hparams : Params params) :
    xtermEvent (lead ++ 59::(modifier ++ 59::(code ++ params))) =
      (parseDecimal lead).bind fun l => (parseModifier modifier).bind fun m =>
        (parseDecimal code).bind fun c =>
          if l = 27 ∧ c = 92 ∧ ctrlOnly m then some .press else none := by
  rw [xtermEvent,List.splitOn_append_cons_self_of_not_mem hlead,
    List.splitOn_append_cons_self_of_not_mem hmodifier,splitOn_append hcode hparams]
  rfl

theorem IsDecimal.no_separator {bytes : List UInt8} {n : ℕ} (h : IsDecimal bytes n) :
    58 ∉ bytes ∧ 59 ∉ bytes := by
  have hdigit := Decimal.IsNumeral.isSome h
  constructor
  · intro hmem
    exact absurd (hdigit 58 hmem) (by decide)
  · intro hmem
    exact absurd (hdigit 59 hmem) (by decide)

theorem IsEvent.subParams {field : List UInt8} {event : DetachEvent} (h : IsEvent field event) :
    SubParams field := by
  cases h with
  | absent => exact ⟨by simp,.inl rfl⟩
  | press hvalue hsubs => exact ⟨by simp [hvalue.no_separator.2,hsubs.1],.inr ⟨_,rfl⟩⟩
  | repeatOrRelease hvalue _ hsubs => exact ⟨by simp [hvalue.no_separator.2,hsubs.1],.inr ⟨_,rfl⟩⟩

/-- The modifiers of the encodings are Ctrl with the locks ignored. -/
theorem ctrl_iff {modifier : List UInt8} :
    (∃ v, parseModifier modifier = some v ∧ ctrlOnly v = true) ↔
      ∃ m, IsDecimal modifier m ∧ IsCtrl m := by
  constructor
  · rintro ⟨v,hv,hctrl⟩
    obtain ⟨hdecimal,hle⟩ := parseModifier_eq_some_iff.mp hv
    exact ⟨_,hdecimal,Nat.succ_pos _,hle,(ctrlOnly_iff v).mp hctrl⟩
  · rintro ⟨m,hdecimal,hpos,hle,hbits⟩
    have hv : (UInt16.ofNat (m-1)).toNat = m-1 := by
      rw [UInt16.toNat_ofNat']
      omega
    refine ⟨UInt16.ofNat (m-1),parseModifier_eq_some_iff.mpr ?_,(ctrlOnly_iff _).mpr ?_⟩
    · rw [hv,Nat.sub_add_cancel hpos]
      exact ⟨hdecimal,hle⟩
    · rw [hv]
      exact hbits

theorem eventOf_iff {field : List UInt8} (hfield : SubParams field) {event : DetachEvent} :
    (∃ e, eventOf field = some e ∧ (if e = 1 then some DetachEvent.press
      else if e = 2 ∨ e = 3 then some DetachEvent.repeatOrRelease else none) = some event) ↔
        IsEvent field event := by
  constructor
  · rintro ⟨e,he,hevent⟩
    obtain ⟨hsemi,rfl | ⟨rest,rfl⟩⟩ := hfield
    · obtain rfl := Option.some.inj he
      cases hevent
      exact .absent
    · obtain ⟨value,subs,rfl,hvalue,hsubs⟩ := exists_first 58 rest
      have hsub : SubParams subs := ⟨fun hmem => hsemi (by simp [hmem]),hsubs⟩
      rw [eventOf,partsBehind,splitOn_append hvalue hsubs] at he
      have hdecimal := parseDecimal_eq_some_iff.mp he
      split_ifs at hevent with hone htwo
      · cases hevent
        subst hone
        exact .press hdecimal hsub
      · cases hevent
        refine .repeatOrRelease hdecimal ?_ hsub
        rcases htwo with rfl | rfl
        · exact .inl rfl
        · exact .inr rfl
  · intro h
    have hvalue : ∀ {value subs : List UInt8} {n : UInt16}, IsDecimal value n.toNat →
        SubParams subs → eventOf (58::(value++subs)) = some n := by
      intro value subs n hdecimal hsubs
      rw [eventOf,partsBehind,splitOn_append hdecimal.no_separator.1 hsubs.2]
      exact parseDecimal_eq_some_iff.mpr hdecimal
    cases h with
    | absent => exact ⟨1,rfl,rfl⟩
    | press hdecimal hsubs => exact ⟨1,hvalue hdecimal hsubs,rfl⟩
    | repeatOrRelease hdecimal hn hsubs =>
      rcases hn with rfl | rfl
      · exact ⟨2,hvalue hdecimal hsubs,rfl⟩
      · exact ⟨3,hvalue hdecimal hsubs,rfl⟩

/-- A body of parameters is split at its first semicolons and colons. -/
theorem exists_kitty (body : List UInt8) : kittyEvent body = none ∨
    ∃ code subs modifier field params, body = code ++ subs ++ 59::(modifier ++ field ++ params) ∧
      (58 ∉ code ∧ 59 ∉ code) ∧ SubParams subs ∧ (58 ∉ modifier ∧ 59 ∉ modifier) ∧
      SubParams field ∧ Params params := by
  obtain ⟨first,behind,rfl,hfirst,rfl | ⟨rest,rfl⟩⟩ := exists_first 59 body
  · left
    rw [List.append_nil,kittyEvent,List.splitOn_eq_singleton hfirst]
  · obtain ⟨second,params,rfl,hsecond,hparams⟩ := exists_first 59 rest
    obtain ⟨code,subs,rfl,hcode,hsubs⟩ := exists_first 58 first
    obtain ⟨modifier,field,rfl,hmodifier,hfield⟩ := exists_first 58 second
    rw [List.mem_append,not_or] at hfirst hsecond
    exact .inr ⟨code,subs,modifier,field,params,rfl,⟨hcode,hfirst.1⟩,⟨hfirst.2,hsubs⟩,
      ⟨hmodifier,hsecond.1⟩,⟨hsecond.2,hfield⟩,hparams⟩

theorem verdict_eq_some_iff {c m e : UInt16} {event : DetachEvent} :
    verdict c m e = some event ↔ c = 92 ∧ ctrlOnly m = true ∧
      (if e = 1 then some DetachEvent.press
        else if e = 2 ∨ e = 3 then some DetachEvent.repeatOrRelease else none) = some event := by
  unfold verdict
  by_cases hbad : c ≠ 92 ∨ ¬ctrlOnly m = true
  · rw [if_pos hbad]
    refine iff_of_false (by simp) ?_
    rintro ⟨hc,hm,-⟩
    exact hbad.elim (fun h => h hc) fun h => h hm
  · rw [if_neg hbad]
    rw [not_or,not_not,not_not] at hbad
    exact ⟨fun h => ⟨hbad.1,hbad.2,h⟩,fun h => h.2.2⟩

theorem kittyEvent_iff (body : List UInt8) (event : DetachEvent) :
    kittyEvent body = some event ↔ ∃ code subs modifier field params m,
      body = code ++ subs ++ 59::(modifier ++ field ++ params) ∧ IsDecimal code 92 ∧
      SubParams subs ∧ IsDecimal modifier m ∧ IsCtrl m ∧ IsEvent field event ∧ Params params := by
  constructor
  · intro h
    rcases exists_kitty body with hnone | ⟨code,subs,modifier,field,params,rfl,hcode,hsubs,
      hmodifier,hfield,hparams⟩
    · rw [hnone] at h
      cases h
    · rw [kittyEvent_eq hcode hsubs hmodifier hfield hparams] at h
      obtain ⟨c,hc,h⟩ := Option.bind_eq_some_iff.mp h
      obtain ⟨v,hv,h⟩ := Option.bind_eq_some_iff.mp h
      obtain ⟨e,he,h⟩ := Option.bind_eq_some_iff.mp h
      obtain ⟨rfl,hctrl,hevent⟩ := verdict_eq_some_iff.mp h
      obtain ⟨m,hm,hctrl⟩ := ctrl_iff.mp ⟨v,hv,hctrl⟩
      exact ⟨code,subs,modifier,field,params,m,rfl,parseDecimal_eq_some_iff.mp hc,hsubs,hm,hctrl,
        (eventOf_iff hfield).mp ⟨e,he,hevent⟩,hparams⟩
  · rintro ⟨code,subs,modifier,field,params,m,rfl,hcode,hsubs,hm,hctrl,hevent,hparams⟩
    obtain ⟨v,hv,hctrl⟩ := ctrl_iff.mpr ⟨m,hm,hctrl⟩
    obtain ⟨e,he,hevent'⟩ := (eventOf_iff hevent.subParams).mpr hevent
    have hc : parseDecimal code = some 92 := parseDecimal_eq_some_iff.mpr hcode
    rw [kittyEvent_eq hcode.no_separator hsubs hm.no_separator hevent.subParams hparams,hc,hv,he]
    exact verdict_eq_some_iff.mpr ⟨rfl,hctrl,hevent'⟩

theorem exists_xterm (body : List UInt8) : xtermEvent body = none ∨
    ∃ lead modifier code params, body = lead ++ 59::(modifier ++ 59::(code ++ params)) ∧
      59 ∉ lead ∧ 59 ∉ modifier ∧ 59 ∉ code ∧ Params params := by
  obtain ⟨lead,behind,rfl,hlead,rfl | ⟨rest,rfl⟩⟩ := exists_first 59 body
  · left
    rw [List.append_nil,xtermEvent,List.splitOn_eq_singleton hlead]
  · obtain ⟨modifier,behind,rfl,hmodifier,rfl | ⟨rest,rfl⟩⟩ := exists_first 59 rest
    · left
      rw [List.append_nil,xtermEvent,List.splitOn_append_cons_self_of_not_mem hlead,
        List.splitOn_eq_singleton hmodifier]
    · obtain ⟨code,params,rfl,hcode,hparams⟩ := exists_first 59 rest
      exact .inr ⟨lead,modifier,code,params,rfl,hlead,hmodifier,hcode,hparams⟩

theorem xtermEvent_iff (body : List UInt8) (event : DetachEvent) :
    xtermEvent body = some event ↔ event = .press ∧ ∃ lead modifier code params m,
      body = lead ++ 59::(modifier ++ 59::(code ++ params)) ∧ IsDecimal lead 27 ∧
      IsDecimal modifier m ∧ IsCtrl m ∧ IsDecimal code 92 ∧ Params params := by
  constructor
  · intro h
    rcases exists_xterm body with hnone | ⟨lead,modifier,code,params,rfl,hlead,hmodifier,hcode,hparams⟩
    · rw [hnone] at h
      cases h
    · rw [xtermEvent_eq hlead hmodifier hcode hparams] at h
      obtain ⟨l,hl,h⟩ := Option.bind_eq_some_iff.mp h
      obtain ⟨v,hv,h⟩ := Option.bind_eq_some_iff.mp h
      obtain ⟨c,hc,h⟩ := Option.bind_eq_some_iff.mp h
      split_ifs at h with hall
      cases h
      obtain ⟨rfl,rfl,hctrl⟩ := hall
      obtain ⟨m,hm,hctrl⟩ := ctrl_iff.mp ⟨v,hv,hctrl⟩
      exact ⟨rfl,lead,modifier,code,params,m,rfl,parseDecimal_eq_some_iff.mp hl,hm,hctrl,
        parseDecimal_eq_some_iff.mp hc,hparams⟩
  · rintro ⟨rfl,lead,modifier,code,params,m,rfl,hlead,hm,hctrl,hcode,hparams⟩
    obtain ⟨v,hv,hctrl⟩ := ctrl_iff.mpr ⟨m,hm,hctrl⟩
    have hl : parseDecimal lead = some 27 := parseDecimal_eq_some_iff.mpr hlead
    have hc : parseDecimal code = some 92 := parseDecimal_eq_some_iff.mpr hcode
    rw [xtermEvent_eq hlead.no_separator.2 hm.no_separator.2 hcode.no_separator.2 hparams,hl,hv,hc]
    exact if_pos ⟨rfl,rfl,hctrl⟩

/-- The parser on a sequence with a body. -/
theorem enhancedDetachEvent_body (body : List UInt8) (final : UInt8) :
    enhancedDetachEvent ([ESC,91] ++ body ++ [final]) =
      if final = 117 then kittyEvent body else if final = 126 then xtermEvent body else none := by
  have hintroduced : [ESC,91].isPrefixOf ([ESC,91] ++ body ++ [final]) = true :=
    List.isPrefixOf_iff_prefix.mpr ⟨body++[final],by rw [List.append_assoc]⟩
  have hbody : (([ESC,91] ++ body ++ [final]).drop 2).dropLast = body := by simp
  rw [enhancedDetachEvent,if_neg (not_not.mpr hintroduced),List.getLast?_concat,hbody]
  simp only [Option.some.injEq]

/-- What the parser accepts has a body. -/
theorem exists_body {sequence : List UInt8} {event : DetachEvent}
    (h : enhancedDetachEvent sequence = some event) :
    ∃ body, sequence = [ESC,91] ++ body ++ [117] ∨ sequence = [ESC,91] ++ body ++ [126] := by
  unfold enhancedDetachEvent at h
  split_ifs at h with hintroduced hkitty hxterm
  · exact ⟨_,.inl (body_of_final hintroduced hkitty (by decide))⟩
  · exact ⟨_,.inr (body_of_final hintroduced hxterm (by decide))⟩

theorem enhancedDetachEvent_iff (sequence : List UInt8) (event : DetachEvent) :
    enhancedDetachEvent sequence = some event ↔ Encodes sequence event := by
  constructor
  · intro h
    obtain ⟨body,rfl | rfl⟩ := exists_body h
    · rw [enhancedDetachEvent_body,if_pos rfl] at h
      obtain ⟨code,subs,modifier,field,params,m,rfl,hcode,hsubs,hm,hctrl,hevent,hparams⟩ :=
        (kittyEvent_iff body event).mp h
      exact .kitty hcode hsubs hm hctrl hevent hparams
    · rw [enhancedDetachEvent_body,if_neg (by decide),if_pos rfl] at h
      obtain ⟨rfl,lead,modifier,code,params,m,rfl,hlead,hm,hctrl,hcode,hparams⟩ :=
        (xtermEvent_iff body event).mp h
      exact .xterm hlead hm hctrl hcode hparams
  · intro h
    cases h with
    | kitty hcode hsubs hm hctrl hevent hparams =>
      rw [enhancedDetachEvent_body,if_pos rfl]
      exact (kittyEvent_iff _ event).mpr ⟨_,_,_,_,_,_,rfl,hcode,hsubs,hm,hctrl,hevent,hparams⟩
    | xterm hlead hm hctrl hcode hparams =>
      rw [enhancedDetachEvent_body,if_neg (by decide),if_pos rfl]
      exact (xtermEvent_iff _ _).mpr ⟨rfl,_,_,_,_,_,rfl,hlead,hm,hctrl,hcode,hparams⟩

/-- The parser accepts exactly the encodings of Ctrl-\, each with its event; it gives nothing
on any other sequence, and neither a slice nor a subtraction in it fails. -/
theorem detach_encodings (sequence : List UInt8) :
    (∀ event, (enhancedDetachEventChecked sequence).run = .ok (some event) ↔
      Encodes sequence event) ∧
    ((enhancedDetachEventChecked sequence).run = .ok none ↔ ∀ event, ¬Encodes sequence event) ∧
    (enhancedDetachEventChecked sequence).run = .ok (enhancedDetachEvent sequence) := by
  have hgives : (enhancedDetachEventChecked sequence).run = .ok (enhancedDetachEvent sequence) :=
    enhancedDetachEventChecked_gives sequence
  refine ⟨fun event => ?_,?_,hgives⟩
  · rw [hgives,← enhancedDetachEvent_iff,Except.ok.injEq]
  · rw [hgives,Except.ok.injEq,Option.eq_none_iff_forall_ne_some]
    exact forall_congr' fun event => not_congr (enhancedDetachEvent_iff sequence event)

end Babysit
