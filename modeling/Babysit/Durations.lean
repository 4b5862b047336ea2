import Babysit.Lib.Decimal
import Babysit.Session
import Mathlib.Data.List.DropRight

/-! `parse_duration` and `parse_timeout`, and the argument with which a limit is handed to the
worker. A written duration comes out exactly, and survives being handed on, as long as its
milliseconds fit 64 bits. -/
namespace Babysit
open Decimal

/-- `std::time::Duration`. -/
structure Duration where
  secs : UInt64
  nanos : ℕ
  nanos_lt : nanos < 10^9
  deriving DecidableEq

namespace Duration

def fromSecs (n : UInt64) : Duration := ⟨n,0,by decide⟩

def fromMillis (n : UInt64) : Duration := ⟨n/1000,n.toNat%1000*10^6,by omega⟩

def isZero (d : Duration) : Bool := d.secs = 0 ∧ d.nanos = 0

def asNanos (d : Duration) : ℕ := d.secs.toNat*10^9 + d.nanos

/-- The result is 128 bits wide. -/
def asMillis (d : Duration) : ℕ := d.secs.toNat*1000 + d.nanos/10^6

end Duration

/-- The Unicode property `White_Space`. -/
def isWhitespace (c : Char) : Bool :=
  (0x09 ≤ c.toNat ∧ c.toNat ≤ 0x0d) ∨ (0x2000 ≤ c.toNat ∧ c.toNat ≤ 0x200a) ∨
    c.toNat ∈ [0x20,0x85,0xa0,0x1680,0x2028,0x2029,0x202f,0x205f,0x3000]

def trim (s : List Char) : List Char := (s.dropWhile isWhitespace).rdropWhile isWhitespace

def stripSuffix (suffix s : List Char) : Option (List Char) :=
  if suffix <:+ s then some (s.take (s.length-suffix.length)) else none

/-- `u64::from_str`: a plus sign may stand before the digits. -/
def u64FromStr (s : List Char) : Option UInt64 :=
  (read charDigit U64_MAX (if s.head? = some '+' then s.tail else s)).map UInt64.ofNat

/-- An error of the parser, or the panic of a build that checks for overflow. -/
inductive DurationFault
  | rejected (message : String)
  | panicked
  deriving DecidableEq

inductive DurationUnit
  | ms
  | s
  | m
  | h
  | d
  deriving DecidableEq

namespace DurationUnit

def ofLetter (c : Char) : Option DurationUnit :=
  if c = 's' ∨ c = 'S' then some .s
  else if c = 'm' ∨ c = 'M' then some .m
  else if c = 'h' ∨ c = 'H' then some .h
  else if c = 'd' ∨ c = 'D' then some .d
  else none

/-- `Duration::from_secs(n * unit_secs)`: the product panics in a build that checks for
overflow, and wraps around in one that does not. -/
def fromProduct (checks : Bool) (n unitSecs : UInt64) : Except DurationFault Duration :=
  if checks ∧ U64_MAX < n.toNat*unitSecs.toNat then .error .panicked
  else .ok (.fromSecs (n*unitSecs))

def duration (checks : Bool) (n : UInt64) : DurationUnit → Except DurationFault Duration
  | .ms => .ok (.fromMillis n)
  | .s => fromProduct checks n 1
  | .m => fromProduct checks n 60
  | .h => fromProduct checks n 3600
  | .d => fromProduct checks n 86400

end DurationUnit

/-- The number and the unit of a trimmed text. Milliseconds come first, since `ms` ends in `s`. -/
def durationParts (s : List Char) : List Char × DurationUnit :=
  match (stripSuffix ['m','s'] s).or (stripSuffix ['M','S'] s) with
  | some num => (num,.ms)
  | none =>
    match s.getLast?.bind DurationUnit.ofLetter with
    | some u => (s.dropLast,u)
    | none => (s,.s)

def invalidDuration (s : List Char) : DurationFault :=
  .rejected ("invalid duration `" ++ String.ofList s ++ "` (use e.g. 500ms, 30s, 10m, 2h)")

def parseDuration (checks : Bool) (s : List Char) : Except DurationFault Duration :=
  let s := trim s
  if s = [] then .error (.rejected "empty duration")
  else
    let parts := durationParts s
    match u64FromStr (trim parts.1) with
    | none => .error (invalidDuration s)
    | some n => parts.2.duration checks n

/-- The sentinels and zero mean that there is no limit. -/
def parseTimeout (checks : Bool) (s : List Char) : Except DurationFault (Option Duration) :=
  let t := trim s
  if t = [] ∨ t.map Char.toLower ∈ ["none".toList,"off".toList,"never".toList] then .ok none
  else match parseDuration checks t with
    | .error fault => .error fault
    | .ok d => .ok (if d.isZero then none else some d)

/-- `format!("{}ms", d.as_millis())` of `spawn_worker_process`. -/
def timeoutArgument (d : Duration) : List Char := Nat.toDigits 10 d.asMillis ++ ['m','s']

/-- The spellings of a unit; seconds may be left out. -/
def DurationUnit.spellings : DurationUnit → List (List Char)
  | .ms => [['m','s'],['M','S']]
  | .s => [['s'],['S'],[]]
  | .m => [['m'],['M']]
  | .h => [['h'],['H']]
  | .d => [['d'],['D']]

def DurationUnit.millis : DurationUnit → ℕ
  | .ms => 1
  | .s => 1000
  | .m => 60*1000
  | .h => 3600*1000
  | .d => 86400*1000

def Blank (s : List Char) : Prop := ∀ c ∈ s, isWhitespace c = true

/-- A decimal number, with or without a plus sign. -/
def IsNumber (s : List Char) (n : ℕ) : Prop :=
  ∃ ds, (s = ds ∨ s = '+'::ds) ∧ IsNumeral charDigit ds n

/-- The text writes that many of the unit: a number and a spelling of the unit, with blanks
anywhere around the two. -/
def Writes (s : List Char) (n : ℕ) (u : DurationUnit) : Prop :=
  ∃ a number b suffix c, s = a ++ (number ++ (b ++ (suffix ++ c))) ∧ Blank a ∧ Blank b ∧ Blank c ∧
    IsNumber number n ∧ suffix ∈ u.spellings

/-- The duration is exactly what the text writes, and the build does not panic on it. -/
def Exact (checks : Bool) (s : List Char) : Prop :=
  parseDuration checks s ≠ .error .panicked ∧ ∀ d, parseDuration checks s = .ok d →
    ∃ n u, Writes s n u ∧ d.asNanos = n*u.millis*10^6

/-- The worker that is handed the limit reads the same limit. -/
def Survives (checks : Bool) (s : List Char) : Prop := ∀ d, parseTimeout checks s = .ok (some d) →
  parseTimeout checks (timeoutArgument d) = .ok (some d)

section Trim
variable {a c s x : List Char}

/-- Neither end is a blank. -/
def Bare (x : List Char) : Prop :=
  (∀ y ∈ x.head?, isWhitespace y = false) ∧ ∀ y ∈ x.getLast?, isWhitespace y = false

theorem rdropWhile_blank (x : List Char) (hc : Blank c) :
    (x++c).rdropWhile isWhitespace = x.rdropWhile isWhitespace := by
  rw [List.rdropWhile,List.reverse_append,List.dropWhile_append_of_pos fun y hy =>
    hc y (List.mem_reverse.mp hy)]
  rfl

theorem rdropWhile_bare (hx : Bare x) : x.rdropWhile isWhitespace = x := by
  induction x using List.reverseRecOn with
  | nil => rfl
  | append_singleton x y ih =>
    have hy := hx.2 y (by simp)
    exact List.rdropWhile_concat_neg _ _ _ (by simp [hy])

/-- Trimming takes away the blanks at both ends. -/
theorem trim_of_bare (ha : Blank a) (hx : Bare x) (hc : Blank c) : trim (a++(x++c)) = x := by
  rw [trim,List.dropWhile_append_of_pos ha]
  cases x with
  | nil =>
    have hnone : c.dropWhile isWhitespace = [] := List.dropWhile_eq_nil_iff.mpr hc
    rw [List.nil_append,hnone]
    rfl
  | cons y x =>
    have hy := hx.1 y rfl
    rw [List.cons_append,List.dropWhile_cons_of_neg (by simp [hy]),← List.cons_append,
      rdropWhile_blank _ hc,rdropWhile_bare hx]

theorem trim_bare (s : List Char) : Bare (trim s) := by
  constructor
  · intro y hy
    obtain ⟨rest,hrest⟩ : trim s <+: s.dropWhile isWhitespace := List.rdropWhile_prefix _ _
    obtain ⟨t,ht⟩ := List.head?_eq_some_iff.mp hy
    have := List.head?_dropWhile_not isWhitespace s
    rw [← hrest,ht] at this
    simpa using this
  · intro y hy
    have hne : trim s ≠ [] := by
      rintro hnil
      rw [hnil] at hy
      cases hy
    have hlast := List.rdropWhile_last_not isWhitespace (s.dropWhile isWhitespace) hne
    rw [List.getLast?_eq_some_getLast hne,Option.mem_def,Option.some.injEq] at hy
    subst hy
    simpa [trim] using hlast

theorem trim_split (s : List Char) : ∃ a c, s = a++(trim s++c) ∧ Blank a ∧ Blank c := by
  have hfront := List.takeWhile_append_dropWhile (p := isWhitespace) (l := s)
  have hback : (s.dropWhile isWhitespace).rdropWhile isWhitespace ++
      (s.dropWhile isWhitespace).rtakeWhile isWhitespace = s.dropWhile isWhitespace :=
    List.rdropWhile_append_rtakeWhile
  refine ⟨s.takeWhile isWhitespace,(s.dropWhile isWhitespace).rtakeWhile isWhitespace,?_,
    fun y hy => List.mem_takeWhile_imp hy,fun y hy => List.mem_rtakeWhile_imp hy⟩
  rw [trim,hback,hfront]

theorem trim_trim (s : List Char) : trim (trim s) = trim s := by
  have h := trim_of_bare (a := []) (c := []) (by simp [Blank]) (trim_bare s) (by simp [Blank])
  rwa [List.append_nil,List.nil_append] at h

end Trim

section Numbers
variable {s num x : List Char} {n m : ℕ} {u v : DurationUnit} {checks : Bool}

theorem u64FromStr_eq_some_iff {k : UInt64} :
    u64FromStr x = some k ↔ ∃ n, IsNumber x n ∧ n ≤ U64_MAX ∧ k = UInt64.ofNat n := by
  unfold u64FromStr
  rw [Option.map_eq_some_iff]
  constructor
  · rintro ⟨n,hread,rfl⟩
    obtain ⟨hnumeral,hle⟩ := read_eq_some_iff.mp hread
    refine ⟨n,⟨_,?_,hnumeral⟩,hle,rfl⟩
    split_ifs with hplus
    · obtain ⟨ds,rfl⟩ := List.head?_eq_some_iff.mp hplus
      exact .inr rfl
    · exact .inl rfl
  · rintro ⟨n,⟨ds,hx,hnumeral⟩,hle,rfl⟩
    refine ⟨n,read_eq_some_iff.mpr ⟨?_,hle⟩,rfl⟩
    rcases hx with rfl | rfl
    · have hdigit : x.head? ≠ some '+' := by
        intro hplus
        have := hnumeral.isSome '+' (List.mem_of_mem_head? hplus)
        exact absurd this (by decide)
      rwa [if_neg hdigit]
    · exact hnumeral

theorem IsNumber.unique (hn : IsNumber x n) (hm : IsNumber x m) : n = m := by
  obtain ⟨ds,hx,hds⟩ := hn
  obtain ⟨es,hy,hes⟩ := hm
  have hplus : ∀ {cs : List Char} {k : ℕ}, ¬IsNumeral charDigit ('+'::cs) k := by
    intro cs k h
    exact absurd (h.isSome '+' List.mem_cons_self) (by decide)
  rcases hx with rfl | rfl <;> rcases hy with hy | hy
  · exact (hy ▸ hds).unique hes
  · exact absurd (hy ▸ hds) hplus
  · exact absurd (hy ▸ hes) hplus
  · exact (List.cons_injective hy ▸ hds).unique hes

/-- The characters of a number. -/
def IsNumberChar (c : Char) : Prop := c = '+' ∨ c.isDigit = true

theorem IsNumber.chars (h : IsNumber x n) : ∀ c ∈ x, IsNumberChar c := by
  obtain ⟨ds,hx,hds⟩ := h
  have hdigits : ∀ c ∈ ds, IsNumberChar c := by
    intro c hc
    have := hds.isSome c hc
    unfold charDigit at this
    split_ifs at this with hdigit
    · exact .inr hdigit
    · cases this
  rcases hx with rfl | rfl
  · exact hdigits
  · intro c hc
    rcases List.mem_cons.mp hc with rfl | hc
    · exact .inl rfl
    · exact hdigits c hc

theorem IsNumber.ne_nil (h : IsNumber x n) : x ≠ [] := by
  obtain ⟨ds,hx,hds⟩ := h
  rcases hx with rfl | rfl
  · exact hds.ne_nil
  · exact List.cons_ne_nil _ _

theorem IsNumberChar.mem {c : Char} (h : IsNumberChar c) : c ∈ "+0123456789".toList := by
  rcases h with rfl | hdigit
  · decide
  · have hbounds : 48 ≤ c.toNat ∧ c.toNat ≤ 57 := by
      simp only [Char.isDigit,Bool.and_eq_true,decide_eq_true_eq] at hdigit
      exact ⟨UInt32.le_iff_toNat_le.mp hdigit.1,UInt32.le_iff_toNat_le.mp hdigit.2⟩
    rw [← Char.ofNat_toNat c]
    generalize c.toNat = k at hbounds
    have hcases : k = 48 ∨ k = 49 ∨ k = 50 ∨ k = 51 ∨ k = 52 ∨ k = 53 ∨ k = 54 ∨ k = 55 ∨
        k = 56 ∨ k = 57 := by omega
    rcases hcases with rfl | rfl | rfl | rfl | rfl | rfl | rfl | rfl | rfl | rfl <;> decide

/-- A number has no blank in it, no letter of a unit and none that a sentinel has. -/
theorem IsNumberChar.spec {c : Char} (h : IsNumberChar c) : isWhitespace c = false ∧
    DurationUnit.ofLetter c = none ∧ c.toLower ≠ 'n' ∧ c.toLower ≠ 'o' := by
  have hall : ("+0123456789".toList.all fun c => decide (isWhitespace c = false ∧
      DurationUnit.ofLetter c = none ∧ c.toLower ≠ 'n' ∧ c.toLower ≠ 'o')) = true := by decide
  exact of_decide_eq_true (List.all_eq_true.mp hall c h.mem)

theorem IsNumber.bare (h : IsNumber x n) : Bare x :=
  ⟨fun y hy => (h.chars y (List.mem_of_mem_head? hy)).spec.1,
    fun y hy => (h.chars y (List.mem_of_mem_getLast? hy)).spec.1⟩

theorem ofLetter_blank {c : Char} (h : isWhitespace c = true) : DurationUnit.ofLetter c = none := by
  have hletters : ("sSmMhHdD".toList.all fun c => !isWhitespace c) = true := by decide
  by_contra hunit
  have hc : c ∈ "sSmMhHdD".toList := by
    unfold DurationUnit.ofLetter at hunit
    split_ifs at hunit with hs hm hh hd
    · rcases hs with rfl | rfl <;> decide
    · rcases hm with rfl | rfl <;> decide
    · rcases hh with rfl | rfl <;> decide
    · rcases hd with rfl | rfl <;> decide
    · exact absurd rfl hunit
  have hnot := List.all_eq_true.mp hletters c hc
  rw [h] at hnot
  cases hnot

/-- No letter of a unit. -/
def Unitless (w : List Char) : Prop := ∀ c ∈ w, DurationUnit.ofLetter c = none

theorem stripSuffix_append (w suffix : List Char) : stripSuffix suffix (w++suffix) = some w := by
  rw [stripSuffix,if_pos (List.suffix_append w suffix),List.length_append,Nat.add_sub_cancel,
    List.take_left]

theorem eq_of_stripSuffix {suffix w t : List Char} (h : stripSuffix suffix t = some w) :
    t = w++suffix := by
  unfold stripSuffix at h
  split_ifs at h with hsuffix
  obtain ⟨p,rfl⟩ := hsuffix
  rw [List.length_append,Nat.add_sub_cancel,List.take_left,Option.some.injEq] at h
  rw [h]

theorem stripSuffix_unitless {x y : Char} {w : List Char} (hw : Unitless w)
    (hy : DurationUnit.ofLetter y ≠ none) : stripSuffix [x,y] w = none := by
  refine if_neg fun hsuffix => hy (hw y ?_)
  exact hsuffix.subset (by simp)

theorem stripSuffix_letter {x y c : Char} {w : List Char} (hw : Unitless w)
    (hx : DurationUnit.ofLetter x ≠ none) : stripSuffix [x,y] (w++[c]) = none := by
  refine if_neg fun hsuffix => hx (hw x ?_)
  obtain ⟨p,hp⟩ := hsuffix
  have hsplit : (p++[x])++[y] = w++[c] := by simpa using hp
  obtain ⟨rfl,-⟩ := List.append_inj' hsplit rfl
  simp

/-- The parts of a text are what stands before the unit, and the unit. -/
theorem durationParts_spelling {w suffix : List Char} (hw : Unitless w)
    (hsuffix : suffix ∈ u.spellings) : durationParts (w++suffix) = (w,u) := by
  have hletter : ∀ c, DurationUnit.ofLetter c = some u → durationParts (w++[c]) = (w,u) := by
    intro c hc
    unfold durationParts
    rw [stripSuffix_letter hw (by decide),stripSuffix_letter hw (by decide)]
    simp [hc]
  cases u with
  | ms =>
    unfold durationParts
    rcases List.mem_pair.mp hsuffix with rfl | rfl
    · rw [stripSuffix_append]
      rfl
    · have hother : stripSuffix ['m','s'] (w++['M','S']) = none := by
        refine if_neg ?_
        rintro ⟨p,hp⟩
        have := (List.append_inj' hp rfl).2
        exact absurd this (by decide)
      rw [hother,stripSuffix_append]
      rfl
  | s =>
    simp only [DurationUnit.spellings,List.mem_cons,List.not_mem_nil,or_false] at hsuffix
    rcases hsuffix with rfl | rfl | rfl
    · exact hletter 's' (by decide)
    · exact hletter 'S' (by decide)
    · unfold durationParts
      rw [List.append_nil,stripSuffix_unitless hw (by decide),stripSuffix_unitless hw (by decide)]
      cases hlast : w.getLast? with
      | none => rfl
      | some c => simp [hw c (List.mem_of_mem_getLast? hlast)]
  | m => rcases List.mem_pair.mp hsuffix with rfl | rfl <;> exact hletter _ (by decide)
  | h => rcases List.mem_pair.mp hsuffix with rfl | rfl <;> exact hletter _ (by decide)
  | d => rcases List.mem_pair.mp hsuffix with rfl | rfl <;> exact hletter _ (by decide)

theorem ofLetter_spelling {c : Char} (h : DurationUnit.ofLetter c = some u) : [c] ∈ u.spellings := by
  unfold DurationUnit.ofLetter at h
  split_ifs at h with hs hm hh hd <;> obtain rfl := Option.some.inj h
  · rcases hs with rfl | rfl <;> decide
  · rcases hm with rfl | rfl <;> decide
  · rcases hh with rfl | rfl <;> decide
  · rcases hd with rfl | rfl <;> decide

/-- Whatever the parts are, the text is the first with a spelling of the unit behind it. -/
theorem spelling_of_durationParts {t : List Char} (h : durationParts t = (num,u)) :
    ∃ suffix ∈ u.spellings, t = num++suffix := by
  unfold durationParts at h
  split at h
  next w hw =>
    obtain ⟨rfl,rfl⟩ := Prod.mk.inj h
    rcases Option.or_eq_some_iff.mp hw with hw | ⟨-,hw⟩
    · exact ⟨['m','s'],by decide,eq_of_stripSuffix hw⟩
    · exact ⟨['M','S'],by decide,eq_of_stripSuffix hw⟩
  next =>
    split at h
    next v hv =>
      obtain ⟨rfl,rfl⟩ := Prod.mk.inj h
      obtain ⟨c,hc,hletter⟩ := Option.bind_eq_some_iff.mp hv
      obtain ⟨w,rfl⟩ := List.getLast?_eq_some_iff.mp hc
      exact ⟨[c],ofLetter_spelling hletter,by simp⟩
    next =>
      obtain ⟨rfl,rfl⟩ := Prod.mk.inj h
      exact ⟨[],by decide,(List.append_nil _).symm⟩

/-- The parts of a text that writes a duration. -/
theorem Writes.parts (h : Writes s n u) : trim s ≠ [] ∧
    ∃ num, durationParts (trim s) = (num,u) ∧ IsNumber (trim num) n := by
  obtain ⟨a,number,b,suffix,c,rfl,ha,hb,hc,hnumber,hsuffix⟩ := h
  have hnone : Blank [] := fun y hy => absurd hy List.not_mem_nil
  have hunitless : Unitless (number++b) := by
    intro y hy
    rcases List.mem_append.mp hy with hy | hy
    · exact (hnumber.chars y hy).spec.2.1
    · exact ofLetter_blank (hb y hy)
  have htrim : trim (number++b) = number := by
    have := trim_of_bare hnone hnumber.bare hb
    rwa [List.nil_append] at this
  by_cases hempty : suffix = []
  · -- no spelling: the blanks behind the number are those at the end
    subst hempty
    have hblank : Blank (b++c) := by
      intro y hy
      exact (List.mem_append.mp hy).elim (hb y) (hc y)
    rw [List.nil_append,trim_of_bare ha hnumber.bare hblank]
    have hparts := durationParts_spelling (fun y hy => hunitless y (List.mem_append_left b hy))
      hsuffix
    rw [List.append_nil] at hparts
    have hagain := trim_of_bare hnone hnumber.bare hnone
    rw [List.nil_append,List.append_nil] at hagain
    exact ⟨hnumber.ne_nil,number,hparts,by rwa [hagain]⟩
  · have hbare : Bare (number++(b++suffix)) := by
      constructor
      · intro y hy
        rw [List.head?_append_of_ne_nil _ hnumber.ne_nil] at hy
        exact hnumber.bare.1 y hy
      · intro y hy
        rw [← List.append_assoc,List.getLast?_append_of_ne_nil _ hempty] at hy
        have hspelled : ∀ v : DurationUnit, (v.spellings.all fun t =>
            t.getLast?.all fun z => !isWhitespace z) = true := by
          intro v
          cases v <;> decide
        have hlast := List.all_eq_true.mp (hspelled u) suffix hsuffix
        exact Bool.eq_false_of_not_eq_true' ((Option.all_eq_true _ _).mp hlast y hy)
    have hassoc : a++(number++(b++(suffix++c))) = a++((number++(b++suffix))++c) := by simp
    rw [hassoc,trim_of_bare ha hbare hc]
    refine ⟨by simp [hnumber.ne_nil],number++b,?_,by rwa [htrim]⟩
    rw [← List.append_assoc]
    exact durationParts_spelling hunitless hsuffix

/-- A text with these parts writes that duration. -/
theorem writes_of_parts (hparts : durationParts (trim s) = (num,u)) (h : IsNumber (trim num) n) :
    Writes s n u := by
  obtain ⟨a,c,hs,ha,hc⟩ := trim_split s
  obtain ⟨suffix,hsuffix,ht⟩ := spelling_of_durationParts hparts
  obtain ⟨a',b,hnum,ha',hb⟩ := trim_split num
  refine ⟨a++a',trim num,b,suffix,c,?_,?_,hb,hc,h,hsuffix⟩
  · conv_lhs => rw [hs,ht,hnum]
    simp
  · intro y hy
    exact (List.mem_append.mp hy).elim (ha y) (ha' y)

/-- A text writes one duration in one way. -/
theorem Writes.unique (h : Writes s n u) (h' : Writes s m v) : n = m ∧ u = v := by
  obtain ⟨-,num,hparts,hnumber⟩ := h.parts
  obtain ⟨-,num',hparts',hnumber'⟩ := h'.parts
  obtain ⟨rfl,rfl⟩ := Prod.mk.inj (hparts.symm.trans hparts')
  exact ⟨hnumber.unique hnumber',rfl⟩

end Numbers

section Parsing
variable {s : List Char} {n : ℕ} {u : DurationUnit} {checks : Bool} {d : Duration}

@[simp] theorem Duration.asNanos_fromMillis (k : UInt64) :
    (Duration.fromMillis k).asNanos = k.toNat*10^6 := by
  simp only [Duration.asNanos,Duration.fromMillis,UInt64.toNat_div]
  have := Nat.div_add_mod k.toNat 1000
  have hthousand : (1000 : UInt64).toNat = 1000 := rfl
  rw [hthousand]
  omega

@[simp] theorem Duration.asMillis_fromMillis (k : UInt64) :
    (Duration.fromMillis k).asMillis = k.toNat := by
  simp only [Duration.asMillis,Duration.fromMillis,UInt64.toNat_div]
  have hthousand : (1000 : UInt64).toNat = 1000 := rfl
  rw [hthousand]
  omega

@[simp] theorem Duration.asNanos_fromSecs (k : UInt64) :
    (Duration.fromSecs k).asNanos = k.toNat*10^9 := by
  rw [Duration.asNanos,Duration.fromSecs,Nat.add_zero]

@[simp] theorem Duration.asMillis_fromSecs (k : UInt64) :
    (Duration.fromSecs k).asMillis = k.toNat*1000 := by
  rw [Duration.asMillis,Duration.fromSecs,Nat.zero_div,Nat.add_zero]

theorem Duration.isZero_iff : d.isZero = true ↔ d.asNanos = 0 := by
  have hsecs : d.secs = 0 ↔ d.secs.toNat = 0 := UInt64.toNat_inj.symm
  rw [Duration.isZero,decide_eq_true_eq,hsecs,Duration.asNanos]
  omega

/-- Seconds are milliseconds, as long as these fit. -/
theorem Duration.fromSecs_eq {k : UInt64} (h : k.toNat*1000 ≤ U64_MAX) :
    Duration.fromSecs k = .fromMillis (UInt64.ofNat (k.toNat*1000)) := by
  have hfits : (UInt64.ofNat (k.toNat*1000)).toNat = k.toNat*1000 :=
    UInt64.toNat_ofNat_of_lt (Nat.lt_succ_of_le h)
  have hsecs : k = UInt64.ofNat (k.toNat*1000)/1000 := by
    apply UInt64.toNat_inj.mp
    rw [UInt64.toNat_div,hfits]
    exact (Nat.mul_div_cancel _ (by decide)).symm
  simp only [Duration.fromSecs,Duration.fromMillis,hfits,Nat.mul_mod_left,Nat.zero_mul,← hsecs]

/-- Every unit but the millisecond is a number of seconds. -/
theorem DurationUnit.duration_cases (checks : Bool) (u : DurationUnit) :
    (u = .ms ∧ ∀ k, u.duration checks k = .ok (.fromMillis k)) ∨
    ∃ unitSecs : UInt64, u.millis = unitSecs.toNat*1000 ∧
      ∀ k, u.duration checks k = fromProduct checks k unitSecs := by
  cases u with
  | ms => exact .inl ⟨rfl,fun _ => rfl⟩
  | s => exact .inr ⟨1,rfl,fun _ => rfl⟩
  | m => exact .inr ⟨60,rfl,fun _ => rfl⟩
  | h => exact .inr ⟨3600,rfl,fun _ => rfl⟩
  | d => exact .inr ⟨86400,rfl,fun _ => rfl⟩

theorem DurationUnit.fromProduct_of_fits {k l : UInt64} (checks : Bool)
    (h : k.toNat*l.toNat ≤ U64_MAX) :
    fromProduct checks k l = .ok (.fromSecs (k*l)) ∧ (k*l).toNat = k.toNat*l.toNat := by
  refine ⟨if_neg fun hover => Nat.not_lt.mpr h hover.2,?_⟩
  rw [UInt64.toNat_mul]
  exact Nat.mod_eq_of_lt (Nat.lt_succ_of_le h)

/-- The product that does not fit comes out wrong, if it comes out. -/
theorem DurationUnit.fromProduct_of_over {k l : UInt64} (checks : Bool)
    (h : U64_MAX < k.toNat*l.toNat) :
    fromProduct checks k l = .error .panicked ∨
      ∃ d, fromProduct checks k l = .ok d ∧ d.asNanos ≠ k.toNat*l.toNat*10^9 := by
  cases checks with
  | true => exact .inl (if_pos ⟨rfl,h⟩)
  | false =>
    refine .inr ⟨_,if_neg (by simp),?_⟩
    rw [Duration.asNanos_fromSecs]
    have hlt := (k*l).toNat_lt
    unfold U64_MAX at h
    omega

/-- A unit that fits comes out exactly. -/
theorem duration_of_fits (h : n*u.millis ≤ U64_MAX) :
    u.duration checks (UInt64.ofNat n) = .ok (.fromMillis (UInt64.ofNat (n*u.millis))) := by
  have hpos : 0 < u.millis := by cases u <;> decide
  have hn : n ≤ U64_MAX := (Nat.le_mul_of_pos_right n hpos).trans h
  have hofNat : (UInt64.ofNat n).toNat = n := UInt64.toNat_ofNat_of_lt (Nat.lt_succ_of_le hn)
  rcases u.duration_cases checks with ⟨rfl,hduration⟩ | ⟨l,hmillis,hduration⟩
  · rw [hduration,DurationUnit.millis,Nat.mul_one]
  · have hassoc : n*u.millis = n*l.toNat*1000 := by rw [hmillis,Nat.mul_assoc]
    have hfits : (UInt64.ofNat n).toNat*l.toNat ≤ U64_MAX := by
      rw [hofNat]
      omega
    obtain ⟨hproduct,hvalue⟩ := DurationUnit.fromProduct_of_fits checks hfits
    rw [hofNat] at hvalue
    rw [hduration,hproduct,Duration.fromSecs_eq (by omega),hvalue,hassoc]

/-- A text is read as what it writes, if the number fits, and is rejected otherwise. -/
theorem parseDuration_cases (checks : Bool) (s : List Char) :
    (∃ n u, Writes s n u ∧ n ≤ U64_MAX ∧
      parseDuration checks s = u.duration checks (UInt64.ofNat n)) ∨
    ((∃ message, parseDuration checks s = .error (.rejected message)) ∧
      ∀ n u, Writes s n u → U64_MAX < n) := by
  by_cases hempty : trim s = []
  · refine .inr ⟨⟨_,if_pos hempty⟩,fun n u hwrites => ?_⟩
    exact absurd hempty hwrites.parts.1
  obtain ⟨num,u,hparts⟩ : ∃ num u, durationParts (trim s) = (num,u) := ⟨_,_,rfl⟩
  cases hread : u64FromStr (trim num) with
  | some k =>
    obtain ⟨n,hnumber,hle,rfl⟩ := u64FromStr_eq_some_iff.mp hread
    refine .inl ⟨n,u,writes_of_parts hparts hnumber,hle,?_⟩
    simp only [parseDuration,if_neg hempty,hparts,hread]
  | none =>
    refine .inr ⟨⟨_,by simp only [parseDuration,if_neg hempty,hparts,hread]; rfl⟩,?_⟩
    intro n v hwrites
    obtain ⟨-,num',hparts',hnumber⟩ := hwrites.parts
    obtain ⟨rfl,rfl⟩ := Prod.mk.inj (hparts.symm.trans hparts')
    by_contra hle
    have hsome := u64FromStr_eq_some_iff.mpr ⟨n,hnumber,Nat.not_lt.mp hle,rfl⟩
    rw [hread] at hsome
    cases hsome

theorem Writes.parseDuration (h : Writes s n u) (checks : Bool) (hn : n ≤ U64_MAX) :
    parseDuration checks s = u.duration checks (UInt64.ofNat n) := by
  rcases parseDuration_cases checks s with ⟨m,v,hwrites,-,hparse⟩ | ⟨-,hover⟩
  · obtain ⟨rfl,rfl⟩ := h.unique hwrites
    exact hparse
  · exact absurd (hover n u h) (Nat.not_lt.mpr hn)

example : parseDuration true " 2 h ".toList = .ok (.fromSecs 7200) := by decide +kernel

theorem parseDuration_trim (checks : Bool) (s : List Char) :
    Babysit.parseDuration checks (trim s) = Babysit.parseDuration checks s := by
  simp only [Babysit.parseDuration,trim_trim]

/-- The first character of the number is the first of the trimmed text. -/
theorem Writes.head (h : Writes s n u) : ∃ c, (trim s).head? = some c ∧ IsNumberChar c := by
  obtain ⟨-,num,hparts,hnumber⟩ := h.parts
  obtain ⟨suffix,-,ht⟩ := spelling_of_durationParts hparts
  obtain ⟨a,c,hnum,ha,-⟩ := trim_split num
  obtain ⟨y,ys,hy⟩ := List.exists_cons_of_ne_nil hnumber.ne_nil
  have hsplit : trim s = a++(y::(ys++(c++suffix))) := by
    rw [ht]
    conv_lhs => rw [hnum,hy]
    simp
  cases a with
  | nil => exact ⟨y,by rw [hsplit]; rfl,hnumber.chars y (by simp [hy])⟩
  | cons z a =>
    have hbare := (trim_bare s).1 z (by rw [hsplit]; rfl)
    rw [ha z List.mem_cons_self] at hbare
    cases hbare

/-- The texts that say that there is no limit. -/
def Unlimited (s : List Char) : Prop := trim s = [] ∨
  (trim s).map Char.toLower ∈ ["none".toList,"off".toList,"never".toList]

/-- What writes a duration is no sentinel. -/
theorem Writes.not_unlimited (h : Writes s n u) : ¬Unlimited s := by
  rintro (hempty | hsentinel)
  · exact h.parts.1 hempty
  · obtain ⟨c,hc,hchar⟩ := h.head
    have hlower : ((trim s).map Char.toLower).head? = some c.toLower := by
      rw [List.head?_map,hc,Option.map_some]
    have hletters : ∀ w ∈ ["none".toList,"off".toList,"never".toList],
        w.head? = some 'n' ∨ w.head? = some 'o' := by decide
    obtain ⟨-,-,hn,ho⟩ := hchar.spec
    rcases hletters _ hsentinel with hw | hw <;> rw [hlower,Option.some.injEq] at hw
    · exact hn hw
    · exact ho hw

theorem parseTimeout_unlimited (checks : Bool) (h : Unlimited s) :
    parseTimeout checks s = .ok none := if_pos h

theorem parseTimeout_error {fault : DurationFault} (h : ¬Unlimited s)
    (hparse : parseDuration checks s = .error fault) :
    parseTimeout checks s = .error fault := by
  rw [← parseDuration_trim] at hparse
  refine (if_neg h).trans ?_
  rw [hparse]

theorem parseTimeout_ok (h : ¬Unlimited s) (hparse : parseDuration checks s = .ok d) :
    parseTimeout checks s = .ok (if d.isZero then none else some d) := by
  rw [← parseDuration_trim] at hparse
  refine (if_neg h).trans ?_
  rw [hparse]

/-- Beyond the sentinels, a limit is a duration that is not zero. -/
theorem parseTimeout_eq_some_iff : parseTimeout checks s = .ok (some d) ↔ ¬Unlimited s ∧
    parseDuration checks s = .ok d ∧ d.asNanos ≠ 0 := by
  by_cases hsentinel : Unlimited s
  · rw [parseTimeout_unlimited checks hsentinel]
    simp [hsentinel]
  cases hparse : parseDuration checks s with
  | error fault =>
    rw [parseTimeout_error hsentinel hparse]
    simp
  | ok d' =>
    rw [parseTimeout_ok hsentinel hparse,Except.ok.injEq,Except.ok.injEq]
    by_cases hzero : d'.isZero = true
    · have hnanos := Duration.isZero_iff.mp hzero
      rw [if_pos hzero]
      refine iff_of_false nofun ?_
      rintro ⟨-,rfl,hd⟩
      exact hd hnanos
    · have hnanos := mt Duration.isZero_iff.mpr hzero
      rw [if_neg hzero,Option.some.injEq]
      constructor
      · rintro rfl
        exact ⟨hsentinel,rfl,hnanos⟩
      · exact fun h => h.2.1

theorem writes_timeoutArgument (d : Duration) : Writes (timeoutArgument d) d.asMillis .ms := by
  have hblank : Blank [] := fun y hy => absurd hy List.not_mem_nil
  refine ⟨[],Nat.toDigits 10 d.asMillis,[],['m','s'],[],?_,hblank,hblank,hblank,?_,by decide⟩
  · rw [timeoutArgument,List.append_nil,List.nil_append,List.nil_append]
  · exact ⟨_,.inl rfl,isNumeral_toDigits _⟩

/-- A limit whose milliseconds do not fit is lost on the worker, which rejects its argument. -/
theorem timeoutArgument_rejected (checks : Bool) (h : U64_MAX < d.asMillis) :
    ∃ message, parseTimeout checks (timeoutArgument d) = .error (.rejected message) := by
  have hwrites := writes_timeoutArgument d
  rcases parseDuration_cases checks (timeoutArgument d) with ⟨n,u,hn,hle,-⟩ | ⟨⟨message,hparse⟩,-⟩
  · obtain ⟨rfl,rfl⟩ := hwrites.unique hn
    exact absurd hle (Nat.not_le.mpr h)
  · exact ⟨message,parseTimeout_error hwrites.not_unlimited hparse⟩

/-- A limit whose milliseconds fit is the one its argument writes. -/
theorem timeoutArgument_parses {k : UInt64} (checks : Bool) (h : (Duration.fromMillis k).asNanos ≠ 0) :
    parseTimeout checks (timeoutArgument (.fromMillis k)) = .ok (some (.fromMillis k)) := by
  have hwrites := writes_timeoutArgument (.fromMillis k)
  rw [Duration.asMillis_fromMillis] at hwrites
  have hle : k.toNat ≤ U64_MAX := Nat.le_of_lt_succ k.toNat_lt
  refine parseTimeout_eq_some_iff.mpr ⟨hwrites.not_unlimited,?_,h⟩
  rw [hwrites.parseDuration checks hle,UInt64.ofNat_toNat]
  rfl

/-- A number that does not fit in milliseconds either comes out wrong, or is a limit that the
worker rejects. -/
theorem Writes.not_exact_and_survives (h : Writes s n u) (hn : n ≤ U64_MAX)
    (hover : U64_MAX < n*u.millis) : ¬(Exact checks s ∧ Survives checks s) := by
  rintro ⟨⟨hpanic,hexact⟩,hsurvives⟩
  have hparse := h.parseDuration checks hn
  have hofNat : (UInt64.ofNat n).toNat = n := UInt64.toNat_ofNat_of_lt (Nat.lt_succ_of_le hn)
  rcases u.duration_cases checks with ⟨rfl,-⟩ | ⟨l,hmillis,hduration⟩
  · rw [DurationUnit.millis,Nat.mul_one] at hover
    exact absurd hn (Nat.not_le.mpr hover)
  rw [hduration] at hparse
  by_cases hseconds : n*l.toNat ≤ U64_MAX
  · -- exact here, but more milliseconds than the worker can read
    have hfits : (UInt64.ofNat n).toNat*l.toNat ≤ U64_MAX := by rwa [hofNat]
    obtain ⟨hproduct,hvalue⟩ := DurationUnit.fromProduct_of_fits checks hfits
    rw [hofNat] at hvalue
    rw [hproduct] at hparse
    have hmany : U64_MAX < (Duration.fromSecs (UInt64.ofNat n*l)).asMillis := by
      rw [Duration.asMillis_fromSecs,hvalue,Nat.mul_assoc,← hmillis]
      exact hover
    have hnonzero : (Duration.fromSecs (UInt64.ofNat n*l)).asNanos ≠ 0 := by
      rw [Duration.asMillis_fromSecs] at hmany
      rw [Duration.asNanos_fromSecs]
      omega
    have hsame := hsurvives _ (parseTimeout_eq_some_iff.mpr ⟨h.not_unlimited,hparse,hnonzero⟩)
    obtain ⟨message,hrejected⟩ := timeoutArgument_rejected checks hmany
    rw [hrejected] at hsame
    cases hsame
  · have hbig : U64_MAX < (UInt64.ofNat n).toNat*l.toNat := by
      rw [hofNat]
      exact Nat.not_le.mp hseconds
    rcases DurationUnit.fromProduct_of_over checks hbig with hpanicked | ⟨d,hd,hwrong⟩
    · exact hpanic (hparse.trans hpanicked)
    · obtain ⟨m,v,hwrites,hnanos⟩ := hexact d (hparse.trans hd)
      obtain ⟨rfl,rfl⟩ := h.unique hwrites
      refine hwrong ?_
      rw [hnanos,hmillis,hofNat]
      ring

/-- A duration comes out exactly and survives being handed to the worker, or is rejected, if and
only if every number that 64 bits hold gives milliseconds that they hold as well. -/
theorem durations_exact_and_survive_iff (checks : Bool) (s : List Char) :
    (Exact checks s ∧ Survives checks s) ↔
      ∀ n u, Writes s n u → n ≤ U64_MAX → n*u.millis ≤ U64_MAX := by
  constructor
  · intro h n u hwrites hn
    by_contra hover
    exact hwrites.not_exact_and_survives hn (Nat.not_le.mp hover) h
  · intro hfits
    rcases parseDuration_cases checks s with ⟨n,u,hwrites,hn,hparse⟩ | ⟨⟨message,hparse⟩,-⟩
    · have hmillis := hfits n u hwrites hn
      rw [duration_of_fits hmillis] at hparse
      refine ⟨⟨by rw [hparse]; exact nofun,fun d hd => ⟨n,u,hwrites,?_⟩⟩,fun d hd => ?_⟩
      · obtain rfl := Except.ok.inj (hparse.symm.trans hd)
        have hofNat : (UInt64.ofNat (n*u.millis)).toNat = n*u.millis :=
          UInt64.toNat_ofNat_of_lt (Nat.lt_succ_of_le hmillis)
        rw [Duration.asNanos_fromMillis,hofNat]
      · obtain ⟨-,hsame,hnonzero⟩ := parseTimeout_eq_some_iff.mp hd
        obtain rfl := Except.ok.inj (hparse.symm.trans hsame)
        exact timeoutArgument_parses checks hnonzero
    · refine ⟨⟨by rw [hparse]; exact nofun,fun d hd => ?_⟩,fun d hd => ?_⟩
      · exact nomatch hparse.symm.trans hd
      · exact nomatch hparse.symm.trans (parseTimeout_eq_some_iff.mp hd).2.1

/-- So many days wrap around, or panic; so many seconds are a limit that the worker rejects. -/
theorem long_durations_are_lost :
    (¬Exact true "213503982334602d".toList ∧ ¬Exact false "213503982334602d".toList) ∧
    ¬Survives true "18446744073709552s".toList ∧ ¬Survives false "18446744073709552s".toList := by
  refine ⟨⟨fun h => h.1 (by decide +kernel),fun h => ?_⟩,fun h => ?_,fun h => ?_⟩
  · obtain ⟨n,u,hwrites,hnanos⟩ := h.2 (.fromSecs 61184) (by decide +kernel)
    have hblank : Blank [] := fun y hy => absurd hy List.not_mem_nil
    have hdays : Writes "213503982334602d".toList 213503982334602 .d := by
      have hnumber := isNumeral_toDigits 213503982334602
      have hdigits : Nat.toDigits 10 213503982334602 = "213503982334602".toList := by decide +kernel
      rw [hdigits] at hnumber
      exact ⟨[],_,[],['d'],[],rfl,hblank,hblank,hblank,⟨_,.inl rfl,hnumber⟩,by decide⟩
    obtain ⟨rfl,rfl⟩ := hwrites.unique hdays
    exact absurd hnanos (by decide +kernel)
  · have := h (.fromSecs 18446744073709552) (by decide +kernel)
    exact absurd this (by decide +kernel)
  · have := h (.fromSecs 18446744073709552) (by decide +kernel)
    exact absurd this (by decide +kernel)

end Parsing

end Babysit
