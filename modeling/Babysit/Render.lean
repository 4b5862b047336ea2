import Babysit.ControlConn
import Babysit.Durations
import Babysit.Lib.Decimal
import Babysit.Lib.Json
import Babysit.Lib.Utf8
import Mathlib.Data.List.DropRight

/-! `render_screen`: the grid of a terminal as plain text, with escapes, or as JSON. The JSON
leaves out what is blank, and yet the grid that is seen can be read back from it. -/
namespace Babysit

/-- `vt100::Color`. -/
inductive Color
  | default
  | idx (i : UInt8)
  | rgb (r g b : UInt8)
  deriving DecidableEq, Repr

/-- What is seen of a cell. -/
structure CellLook where
  contents : List Char
  fgcolor : Color
  bgcolor : Color
  bold : Bool
  italic : Bool
  underline : Bool
  inverse : Bool
  deriving DecidableEq, Repr

/-- A cell; the second half of a wide character is a cell of its own, and one without contents
has no text. -/
structure Cell extends CellLook where
  wideContinuation : Bool
  hasContents : Bool
  empty : hasContents = false → contents = []
  deriving DecidableEq, Repr

/-- What `vt100` gives of its screen. -/
structure Screen where
  rows : ℕ
  cols : ℕ
  cursorRow : ℕ
  cursorCol : ℕ
  hideCursor : Bool
  alternateScreen : Bool
  cell : ℕ → ℕ → Option Cell
  lines : List (List Char)
  formatted : List (List UInt8)

def hexDigit (n : ℕ) : Char := Nat.digitChar n

/-- `{:02x}`. -/
def hexByte (b : UInt8) : List Char := [hexDigit (b.toNat/16),hexDigit (b.toNat%16)]

def colorStr : Color → List Char
  | .default => "default".toList
  | .idx i => "idx".toList ++ Nat.toDigits 10 i.toNat
  | .rgb r g b => '#' :: (hexByte r ++ (hexByte g ++ hexByte b))

/-- `{:016x}`. -/
def hex64 (n : UInt64) : List Char :=
  (List.range 16).map fun i => hexDigit (n.toNat / 16^(15-i) % 16)

/-- What the hasher is fed with: a `str` ends with the byte 255, and a row with a zero. -/
def hashFeed (lines : List (List Char)) : List UInt8 :=
  lines.flatMap fun line => Utf8.encode line ++ [255,0]

def textHash (hash : List UInt8 → UInt64) (screen : Screen) : List Char :=
  hex64 (hash (hashFeed screen.lines))

/-- One behind the last row with visible content. -/
def lastNonblank (lines : List (List Char)) : ℕ :=
  (lines.rdropWhile fun line => (trim line).isEmpty).length

/-- `lines.truncate(..)`, by what the plain rows show. -/
def truncated {α : Type*} (trim : Bool) (plain : List (List Char)) (lines : List α) : List α :=
  if trim then lines.take (lastNonblank plain) else lines

namespace CellLook

def styled (cell : CellLook) : Bool :=
  cell.bold || cell.italic || cell.underline || cell.inverse ||
    cell.fgcolor ≠ .default || cell.bgcolor ≠ .default

def blank : CellLook := ⟨[],.default,.default,false,false,false,false⟩

def colorField (c : Color) : Option Json := if c = .default then none else some (.str (colorStr c))

def flagField (b : Bool) : Option Json := if b then some (.bool true) else none

/-- The object of a cell. -/
def json (r c : ℕ) (cell : CellLook) : Json :=
  .obj (("row",.num r) :: ("col",.num c) :: ("char",.str cell.contents) ::
    (Json.field "fg" (colorField cell.fgcolor) ++ (Json.field "bg" (colorField cell.bgcolor) ++
    (Json.field "bold" (flagField cell.bold) ++ (Json.field "italic" (flagField cell.italic) ++
    (Json.field "underline" (flagField cell.underline) ++
    Json.field "inverse" (flagField cell.inverse)))))))

end CellLook

namespace Screen

/-- Cells are emitted that carry content or styling. -/
def emitted (screen : Screen) (r c : ℕ) : Option CellLook :=
  match screen.cell r c with
  | none => none
  | some cell =>
    if cell.wideContinuation then none
    else if ¬cell.hasContents ∧ ¬cell.styled then none
    else some cell.toCellLook

def cells (screen : Screen) : List Json :=
  (List.range screen.rows).flatMap fun r => (List.range screen.cols).filterMap fun c =>
    (screen.emitted r c).map (CellLook.json r c)

def metaFields (hash : List UInt8 → UInt64) (screen : Screen) : List (String × Json) :=
  [("rows",.num screen.rows),("cols",.num screen.cols),
    ("cursor",.obj [("row",.num screen.cursorRow),("col",.num screen.cursorCol),
      ("hidden",.bool screen.hideCursor)]),
    ("alternate_screen",.bool screen.alternateScreen),
    ("screen_hash",.str (textHash hash screen))]

def joined (lines : List (List Char)) : List Char := List.intercalate ['\n'] lines

end Screen

def RESET : List Char := [Char.ofNat 27,'[','0','m']

def renderScreen (hash : List UInt8 → UInt64) (screen : Screen) (format : ShotFormat)
    (trim : Bool) : Json :=
  match format with
  | .plain => .obj (screen.metaFields hash ++ [("format",.str "plain".toList),
      ("text",.str (Screen.joined (truncated trim screen.lines screen.lines)))])
  | .ansi => .obj (screen.metaFields hash ++ [("format",.str "ansi".toList),
      ("text",.str (Screen.joined
        (truncated trim screen.lines (screen.formatted.map Utf8.decodeLossy)) ++ RESET))])
  | .json => .obj (screen.metaFields hash ++ [("format",.str "json".toList),
      ("cells",.arr screen.cells)])

/-- What is seen of a screen. -/
structure VisibleScreen where
  rows : ℕ
  cols : ℕ
  cursorRow : ℕ
  cursorCol : ℕ
  hideCursor : Bool
  alternateScreen : Bool
  cell : ℕ → ℕ → CellLook

/-- Outside of the grid and under a wide character there is nothing to be seen. -/
def Screen.visible (screen : Screen) : VisibleScreen where
  rows := screen.rows
  cols := screen.cols
  cursorRow := screen.cursorRow
  cursorCol := screen.cursorCol
  hideCursor := screen.hideCursor
  alternateScreen := screen.alternateScreen
  cell r c :=
    if r < screen.rows ∧ c < screen.cols then
      match screen.cell r c with
      | none => .blank
      | some cell => if cell.wideContinuation then .blank else cell.toCellLook
    else .blank

def hexValue (c : Char) : Option ℕ :=
  if c.isDigit then some (c.toNat-48)
  else if 97 ≤ c.toNat ∧ c.toNat ≤ 102 then some (c.toNat-87) else none

def readHexByte (a b : Char) : Option UInt8 := do
  some (UInt8.ofNat ((← hexValue a)*16+(← hexValue b)))

def readColor : List Char → Option Color
  | 'i' :: 'd' :: 'x' :: digits => (Decimal.read Decimal.charDigit 255 digits).map fun n =>
    .idx (UInt8.ofNat n)
  | ['#',a,b,c,d,e,f] => do some (.rgb (← readHexByte a b) (← readHexByte c d) (← readHexByte e f))
  | s => if s = "default".toList then some .default else none

namespace CellLook

/-- A reader of the JSON: a color that is not given is the default, a flag that is not given is
off. -/
def read (j : Json) : Option ((ℕ × ℕ) × CellLook) := do
  let r ← (j.get "row").bind Json.asNum
  let c ← (j.get "col").bind Json.asNum
  let contents ← (j.get "char").bind Json.asStr
  let fgcolor ← color (j.get "fg")
  let bgcolor ← color (j.get "bg")
  let bold ← flag (j.get "bold")
  let italic ← flag (j.get "italic")
  let underline ← flag (j.get "underline")
  let inverse ← flag (j.get "inverse")
  some ((r,c),⟨contents,fgcolor,bgcolor,bold,italic,underline,inverse⟩)
where
  color : Option Json → Option Color
    | none => some .default
    | some j => j.asStr.bind readColor
  flag : Option Json → Option Bool
    | none => some false
    | some j => j.asBool

end CellLook

def VisibleScreen.read (j : Json) : Option VisibleScreen := do
  let rows ← (j.get "rows").bind Json.asNum
  let cols ← (j.get "cols").bind Json.asNum
  let cursor ← j.get "cursor"
  let cursorRow ← (cursor.get "row").bind Json.asNum
  let cursorCol ← (cursor.get "col").bind Json.asNum
  let hideCursor ← (cursor.get "hidden").bind Json.asBool
  let alternateScreen ← (j.get "alternate_screen").bind Json.asBool
  let cells ← (j.get "cells").bind Json.asArr
  let entries ← cells.mapM CellLook.read
  some ⟨rows,cols,cursorRow,cursorCol,hideCursor,alternateScreen,
    fun r c => (entries.lookup (r,c)).getD .blank⟩

/-- Each digit reads back. -/
theorem hexValue_hexDigit {n : ℕ} (h : n < 16) : hexValue (hexDigit n) = some n := by
  have hall : ∀ n < 16, hexValue (hexDigit n) = some n := by decide
  exact hall n h

@[simp] theorem readHexByte_hexByte (b : UInt8) :
    readHexByte (hexDigit (b.toNat/16)) (hexDigit (b.toNat%16)) = some b := by
  have hlt := b.toNat_lt
  rw [readHexByte,hexValue_hexDigit (by omega),hexValue_hexDigit (by omega)]
  show some (UInt8.ofNat (b.toNat/16*16+b.toNat%16)) = some b
  rw [Nat.div_add_mod',UInt8.ofNat_toNat]

/-- The names of two colors differ. -/
theorem readColor_colorStr (c : Color) : readColor (colorStr c) = some c := by
  cases c with
  | default => decide
  | idx i =>
    have hdigits : Decimal.read Decimal.charDigit 255 (Nat.toDigits 10 i.toNat) = some i.toNat :=
      Decimal.read_eq_some_iff.mpr ⟨Decimal.isNumeral_toDigits _,by have := i.toNat_lt; omega⟩
    have hread : readColor (colorStr (.idx i)) = (Decimal.read Decimal.charDigit 255
        (Nat.toDigits 10 i.toNat)).map fun n => .idx (UInt8.ofNat n) := rfl
    rw [hread,hdigits,Option.map_some,UInt8.ofNat_toNat]
  | rgb r g b =>
    show (do some (Color.rgb (← readHexByte _ _) (← readHexByte _ _) (← readHexByte _ _))) = _
    simp

namespace CellLook

@[simp] theorem color_colorField (c : Color) : read.color (colorField c) = some c := by
  unfold colorField
  split_ifs with h
  · rw [h]
    rfl
  · exact readColor_colorStr c

@[simp] theorem flag_flagField (b : Bool) : read.flag (flagField b) = some b := by
  cases b <;> rfl

/-- The object of a cell says where it is and what is seen of it. -/
theorem read_json (p : ℕ × ℕ) (cell : CellLook) : read (json p.1 p.2 cell) = some (p,cell) := by
  have hne : ∀ (key key' : String) value, key' ≠ key →
      (Json.field key value).lookup key' = none := fun _ _ value h => Json.lookup_field_ne h value
  simp [read,json,List.lookup_cons,List.lookup_append,hne]

end CellLook

namespace Screen

/-- The cells of the grid, row by row. -/
def positions (screen : Screen) : List (ℕ × ℕ) :=
  (List.range screen.rows).flatMap fun r => (List.range screen.cols).map fun c => (r,c)

theorem mem_positions {screen : Screen} {r c : ℕ} :
    (r,c) ∈ screen.positions ↔ r < screen.rows ∧ c < screen.cols := by
  simp [positions]

theorem cells_eq (screen : Screen) : screen.cells =
    (screen.positions.filterMap fun p => (screen.emitted p.1 p.2).map fun cell => (p,cell)).map
      fun e => CellLook.json e.1.1 e.1.2 e.2 := by
  simp [cells,positions,List.filterMap_flatMap,List.map_flatMap,List.filterMap_map,
    List.map_filterMap,Function.comp_def]

theorem emitted_getD (screen : Screen) (r c : ℕ) :
    (screen.emitted r c).getD .blank =
      match screen.cell r c with
      | none => .blank
      | some cell => if cell.wideContinuation then .blank else cell.toCellLook := by
  unfold emitted
  split
  · rfl
  next cell _ =>
    split_ifs with hwide hblank
    · rfl
    · -- without content and styling there is nothing to be seen
      have hcontents := cell.empty (eq_false_of_ne_true hblank.1)
      obtain ⟨⟨contents,fg,bg,bold,italic,underline,inverse⟩,wide,has,hempty⟩ := cell
      simp_all [CellLook.styled,CellLook.blank]
    · rfl

theorem read_cells (screen : Screen) : screen.cells.mapM CellLook.read =
    some (screen.positions.filterMap fun p =>
      (screen.emitted p.1 p.2).map fun cell => (p,cell)) := by
  rw [cells_eq]
  exact Table.mapM_written CellLook.read_json _

/-- Whatever is on a screen, its JSON says all that is to be seen of it. -/
theorem read_renderScreen (hash : List UInt8 → UInt64) (screen : Screen) (trim : Bool) :
    VisibleScreen.read (renderScreen hash screen .json trim) = some screen.visible := by
  have hcell : (fun r c => ((screen.positions.filterMap fun p =>
      (screen.emitted p.1 p.2).map fun cell => (p,cell)).lookup (r,c)).getD .blank) =
      screen.visible.cell := by
    funext r c
    rw [Table.lookup_entries screen.positions (fun p => screen.emitted p.1 p.2) (r,c)]
    simp only [visible,mem_positions]
    by_cases h : r < screen.rows ∧ c < screen.cols
    · rw [if_pos h,if_pos h]
      exact screen.emitted_getD r c
    · rw [if_neg h,if_neg h]
      rfl
  have hcells := screen.read_cells
  simp [VisibleScreen.read,renderScreen,metaFields,List.lookup_cons,hcells]
  rw [hcell]
  rfl

/-- The hasher is fed differently for different rows, also where their texts run together. -/
theorem hashFeed_injective {xs ys : List (List Char)} (h : hashFeed xs = hashFeed ys) :
    xs = ys := by
  have hrow : ∀ (line : List Char) (rest : List UInt8),
      (Utf8.encode line ++ [255,0] ++ rest).takeWhile (· ≠ 255) = Utf8.encode line := by
    intro line rest
    rw [List.append_assoc,List.takeWhile_append_of_pos]
    · simp
    · intro b hb
      have := Utf8.encode_lt hb
      simp only [ne_eq,decide_not,Bool.not_eq_true',decide_eq_false_iff_not]
      rintro rfl
      simp at this
  induction xs generalizing ys with
  | nil =>
    cases ys with
    | nil => rfl
    | cons y ys => simp [hashFeed] at h
  | cons x xs ih =>
    cases ys with
    | nil => simp [hashFeed] at h
    | cons y ys =>
      simp only [hashFeed,List.flatMap_cons] at h ih
      have hfirst := congrArg (List.takeWhile (· ≠ 255)) h
      rw [hrow,hrow] at hfirst
      obtain rfl := Utf8.encode_injective hfirst
      rw [ih (List.append_cancel_left h)]

/-- The rows are those before the cut, and blank ones. -/
theorem lastNonblank_split (lines : List (List Char)) : ∃ left,
    lines = lines.take (lastNonblank lines) ++ left ∧ (∀ line ∈ left, trim line = []) ∧
      (lines.take (lastNonblank lines)).length = lastNonblank lines ∧
      ∀ line ∈ (lines.take (lastNonblank lines)).getLast?, trim line ≠ [] := by
  have hpre := List.rdropWhile_prefix (fun line => (trim line).isEmpty) lines
  have htake : lines.take (lastNonblank lines) = lines.rdropWhile fun line => (trim line).isEmpty :=
    (List.prefix_iff_eq_take.mp hpre).symm
  refine ⟨lines.rtakeWhile fun line => (trim line).isEmpty,?_,fun line hline => ?_,?_,?_⟩
  · rw [htake,List.rdropWhile_append_rtakeWhile]
  · have := List.mem_rtakeWhile_imp hline
    simpa using this
  · rw [htake]
    rfl
  · rw [htake]
    intro line hline
    have hne : (lines.rdropWhile fun line => (trim line).isEmpty) ≠ [] := by
      intro hnil
      rw [hnil] at hline
      cases hline
    have hlast := List.rdropWhile_last_not _ _ hne
    rw [List.getLast?_eq_some_getLast hne] at hline
    rw [Option.some.inj hline] at hlast
    simpa using hlast

/-- A text shows the rows up to the last one with content, in both formats the same, and both
read back line by line; and the hash is made from the rows. -/
theorem renderScreen_rows (hash : List UInt8 → UInt64) (screen : Screen)
    (hlines : ∀ line ∈ screen.lines, '\n' ∉ line) (trims : Bool) :
    ∃ kept left rows, screen.lines = kept ++ left ∧
      (∀ line ∈ left, trims = true ∧ trim line = []) ∧
      (trims = true → ∀ line ∈ kept.getLast?, trim line ≠ []) ∧
      rows = (screen.formatted.map Utf8.decodeLossy).take
        (if trims then kept.length else screen.formatted.length) ∧
      (screen.formatted.length = screen.lines.length → rows.length = kept.length) ∧
      (∃ text, ((renderScreen hash screen .plain trims).get "text").bind Json.asStr = some text ∧
        (kept ≠ [] → text.splitOn '\n' = kept)) ∧
      (∃ text, ((renderScreen hash screen .ansi trims).get "text").bind Json.asStr =
          some (text ++ RESET) ∧ text = joined rows ∧
        ((∀ row ∈ rows, '\n' ∉ row) → rows ≠ [] → text.splitOn '\n' = rows)) ∧
      ∀ lines, hashFeed lines = hashFeed screen.lines → lines = screen.lines := by
  have hsplit : ∀ kept : List (List Char), kept <+: screen.lines → kept ≠ [] →
      (joined kept).splitOn '\n' = kept := by
    intro kept hpre hne
    exact List.splitOn_intercalate '\n' (fun line hline => hlines line (hpre.subset hline)) hne
  have hrows : ∀ rows : List (List Char), (∀ row ∈ rows, '\n' ∉ row) → rows ≠ [] →
      (joined rows).splitOn '\n' = rows := fun rows hrow hne =>
    List.splitOn_intercalate '\n' hrow hne
  cases trims with
  | false =>
    refine ⟨screen.lines,[],screen.formatted.map Utf8.decodeLossy,by simp,by simp,by simp,?_,by simp,
      ⟨joined screen.lines,?_,hsplit _ List.prefix_rfl⟩,⟨_,?_,rfl,hrows _⟩,
      fun lines => hashFeed_injective⟩
    · rw [if_neg Bool.false_ne_true,List.take_of_length_le (by simp)]
    · simp [renderScreen,metaFields,truncated,List.lookup_cons]
    · simp [renderScreen,metaFields,truncated,List.lookup_cons]
  | true =>
    obtain ⟨left,hleft,hblank,hlen,hlast⟩ := lastNonblank_split screen.lines
    refine ⟨_,left,(screen.formatted.map Utf8.decodeLossy).take (lastNonblank screen.lines),hleft,
      fun line hline => ⟨rfl,hblank line hline⟩,fun _ => hlast,?_,fun hsame => ?_,
      ⟨joined (screen.lines.take (lastNonblank screen.lines)),?_,hsplit _ (List.take_prefix _ _)⟩,
      ⟨_,?_,rfl,hrows _⟩,fun lines => hashFeed_injective⟩
    · rw [if_pos rfl,hlen]
    · rw [List.length_take,List.length_take,List.length_map,hsame]
    · simp [renderScreen,metaFields,truncated,List.lookup_cons]
    · simp [renderScreen,metaFields,truncated,List.lookup_cons]

/-- A prompt in the first of two rows. -/
def promptScreen : Screen where
  rows := 2
  cols := 3
  cursorRow := 0
  cursorCol := 2
  hideCursor := false
  alternateScreen := false
  cell r c :=
    if r = 0 ∧ c = 0 then some ⟨{ CellLook.blank with contents := ['$'] },false,true,nofun⟩
    else some ⟨.blank,false,false,fun _ => rfl⟩
  lines := [['$'],[]]
  formatted := [[36],[]]

theorem renderScreen_rows_prompt : ∃ kept left rows, promptScreen.lines = kept ++ left ∧
    (∀ line ∈ left, trim line = []) ∧ (∀ line ∈ kept.getLast?, trim line ≠ []) ∧
    rows.length = kept.length ∧
    ((renderScreen (fun _ => 0) promptScreen .ansi true).get "text").bind Json.asStr =
      some (joined rows ++ RESET) := by
  obtain ⟨kept,left,rows,hlines,hleft,hlast,-,hlength,-,⟨text,htext,rfl,-⟩,-⟩ :=
    renderScreen_rows (fun _ => 0) promptScreen (by decide) true
  exact ⟨kept,left,rows,hlines,fun line hline => (hleft line hline).2,hlast rfl,hlength rfl,htext⟩

end Screen
end Babysit
