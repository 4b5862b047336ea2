import Mathlib.Data.List.Basic
import Mathlib.Tactic.SplitIfs

/-! The streaming filter for the detach hotkey: Ctrl-\\ twice, in its legacy one-byte form
or in an enhanced keyboard encoding. -/
namespace Babysit

/-- The legacy encoding of Ctrl-\\. -/
def DETACH_KEY : UInt8 := 0x1c
def ESC : UInt8 := 0x1b
def MAX_WITHHELD_INPUT : ℕ := 1024

inductive DetachEvent
  | press
  | repeatOrRelease
  deriving DecidableEq, Repr

def parseDigits (value : ℕ) : List UInt8 → Option ℕ
  | [] => some value
  | byte::rest =>
    if 48 ≤ byte ∧ byte ≤ 57 then
      -- checked_mul and checked_add on u16
      let next := value*10 + (byte-48).toNat
      if next < 65536 then parseDigits next rest else none
    else none

def parseDecimal (bytes : List UInt8) : Option UInt16 :=
  if bytes = [] then none else (parseDigits 0 bytes).map UInt16.ofNat

/-- `modifier & !(64 | 128) == 4`: Ctrl, with the lock keys ignored. -/
def ctrlOnly (modifier : UInt16) : Bool := modifier &&& ~~~(64 ||| 128) == 4

/-- A modifier parameter, which the encodings shift by one. -/
def parseModifier (bytes : List UInt8) : Option UInt16 :=
  (parseDecimal bytes).bind fun m => if m = 0 then none else some (m-1)

/-- The Kitty form: `CSI codepoint[:..] ; modifier[:event[:..]] [;..] u`. -/
def kittyEvent (body : List UInt8) : Option DetachEvent :=
  match body.splitOn 59 with
  | codes::modifiers::_ => do
    let codepoint ← parseDecimal ((codes.splitOn 58).headD [])
    let fields := modifiers.splitOn 58
    let modifier ← parseModifier (fields.headD [])
    let event ← match fields.tail with
      | [] => some 1
      | value::_ => parseDecimal value
    if codepoint ≠ 92 ∨ ¬ctrlOnly modifier then none
    else if event = 1 then some .press
    else if event = 2 ∨ event = 3 then some .repeatOrRelease
    else none
  | _ => none

/-- The xterm modifyOtherKeys form: `CSI 27 ; modifier ; codepoint [;..] ~`. -/
def xtermEvent (body : List UInt8) : Option DetachEvent :=
  match body.splitOn 59 with
  | lead::modifiers::codes::_ => do
    let first ← parseDecimal lead
    let modifier ← parseModifier modifiers
    let codepoint ← parseDecimal codes
    if first = 27 ∧ codepoint = 92 ∧ ctrlOnly modifier then some .press else none
  | _ => none

def enhancedDetachEvent (sequence : List UInt8) : Option DetachEvent :=
  if ¬[ESC,91].isPrefixOf sequence then none
  else if sequence.getLast? = some 117 then kittyEvent (sequence.drop 2).dropLast
  else if sequence.getLast? = some 126 then xtermEvent (sequence.drop 2).dropLast
  else none

/-- `withheld`: the first detach press and the repeat/release events belonging to it;
`escape`: a possibly incomplete sequence split across stdin reads. -/
structure DetachFilter where
  withheld : List UInt8
  escape : List UInt8
  deriving DecidableEq, Repr

namespace DetachFilter

def default : DetachFilter := ⟨[],[]⟩

/-- What one step of the filter yields: the new filter, the bytes it forwards, and
whether the hotkey has been completed. -/
structure Pushed where
  filter : DetachFilter
  forward : List UInt8
  detach : Bool
  deriving DecidableEq, Repr

def handleOther (f : DetachFilter) (token : List UInt8) : Pushed :=
  ⟨{ f with withheld := [] },f.withheld ++ token,false⟩

def handleToken (f : DetachFilter) (token : List UInt8) : Pushed :=
  let event := if token = [DETACH_KEY] then some .press else enhancedDetachEvent token
  match event with
  | some .press =>
    if f.withheld ≠ [] then ⟨f,[],true⟩ else ⟨{ f with withheld := token },[],false⟩
  | some .repeatOrRelease =>
    if f.withheld ≠ [] ∧ f.withheld.length + token.length ≤ MAX_WITHHELD_INPUT then
      ⟨{ f with withheld := f.withheld ++ token },[],false⟩
    else f.handleOther token
  | none => f.handleOther token

/-- One input byte: it extends an open escape sequence, opens one, or is a token. -/
def pushByte (f : DetachFilter) (byte : UInt8) : Pushed :=
  if f.escape ≠ [] then
    let escape := f.escape ++ [byte]
    let notCsi := escape.length = 2 ∧ byte ≠ 91
    let csiComplete := 3 ≤ escape.length ∧ 0x40 ≤ byte ∧ byte ≤ 0x7e
    if notCsi ∨ csiComplete ∨ 128 < escape.length then
      { f with escape := [] }.handleToken escape
    else ⟨{ f with escape := escape },[],false⟩
  else if byte = ESC then ⟨{ f with escape := [byte] },[],false⟩
  else f.handleToken [byte]

/-- A chunk of input; the bytes after a completed hotkey are dropped. -/
def push (f : DetachFilter) : List UInt8 → Pushed
  | [] => ⟨f,[],false⟩
  | byte::chunk =>
    let first := f.pushByte byte
    if first.detach then first
    else
      let rest := first.filter.push chunk
      ⟨rest.filter,first.forward ++ rest.forward,rest.detach⟩

def hasPartialEscape (f : DetachFilter) : Bool := f.escape ≠ []

def discardPending (_ : DetachFilter) : DetachFilter := default

def flushPartialEscape (f : DetachFilter) : Pushed :=
  { f with escape := [] }.handleOther f.escape

/-- What a byte makes of an unfinished sequence: the sequence then, and the token that is
complete. -/
def nextToken (escape : List UInt8) (byte : UInt8) : List UInt8 × Option (List UInt8) :=
  if escape ≠ [] then
    let sequence := escape ++ [byte]
    let notCsi := sequence.length = 2 ∧ byte ≠ 91
    let csiComplete := 3 ≤ sequence.length ∧ 0x40 ≤ byte ∧ byte ≤ 0x7e
    if notCsi ∨ csiComplete ∨ 128 < sequence.length then ([],some sequence) else (sequence,none)
  else if byte = ESC then ([byte],none)
  else ([],some [byte])

/-- What a token is to the detach hotkey. -/
def tokenEvent (token : List UInt8) : Option DetachEvent :=
  if token = [DETACH_KEY] then some .press else enhancedDetachEvent token

theorem handleToken_none (f : DetachFilter) {token : List UInt8} (h : tokenEvent token = none) :
    f.handleToken token = f.handleOther token := by
  unfold tokenEvent at h
  simp only [handleToken,h]

theorem handleToken_press (f : DetachFilter) {token : List UInt8}
    (h : tokenEvent token = some .press) : f.handleToken token =
      if f.withheld ≠ [] then ⟨f,[],true⟩ else ⟨{ f with withheld := token },[],false⟩ := by
  unfold tokenEvent at h
  simp only [handleToken,h]

theorem handleToken_repeatOrRelease (f : DetachFilter) {token : List UInt8}
    (h : tokenEvent token = some .repeatOrRelease) : f.handleToken token =
      if f.withheld ≠ [] ∧ f.withheld.length + token.length ≤ MAX_WITHHELD_INPUT then
        ⟨{ f with withheld := f.withheld ++ token },[],false⟩
      else f.handleOther token := by
  unfold tokenEvent at h
  simp only [handleToken,h]

theorem pushByte_eq (f : DetachFilter) (byte : UInt8) : f.pushByte byte =
    match nextToken f.escape byte with
    | (escape,none) => ⟨{ f with escape := escape },[],false⟩
    | (escape,some token) => { f with escape := escape }.handleToken token := by
  unfold pushByte nextToken
  by_cases hescape : f.escape = []
  · simp only [hescape,ne_eq,not_true_eq_false,if_false]
    split_ifs
    · rfl
    · rw [← hescape]
  · simp only [ne_eq,hescape,not_false_eq_true,if_true]
    split_ifs <;> rfl

end DetachFilter

example : (DetachFilter.default.push [0x1c,0x1c]).detach = true := by decide
example : (DetachFilter.default.push [0x1c,97]).forward = [0x1c,97] := by decide

end Babysit
