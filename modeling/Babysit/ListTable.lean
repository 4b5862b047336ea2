import Babysit.Session
import Babysit.Lib.Decimal
import Babysit.Lib.Lines
import Babysit.Lib.Vt

/-! The table of `babysit list`: the cells of every row can be read back from it, and its colours
are nothing but colours. -/
namespace Babysit

/-- What `list` knows of a session: whether its owner is alive, and its age in nanoseconds, as of
when its row is made. -/
structure ListEntry where
  id : List Char
  cmd : List (List Char)
  status : Status
  alive : Bool
  age : ℤ
  note : Option (List Char)

/-- The four cells of a row. -/
structure ListRow where
  id : List Char
  state : List Char
  age : List Char
  cmd : List Char
  deriving DecidableEq, Repr

/-- `{}` of a signed number. -/
def intText (z : ℤ) : List Char := (if z < 0 then ['-'] else []) ++ Nat.toDigits 10 z.natAbs

/-- A state that only a live owner can be in is stale without one. -/
def stateLabelFor (s : Status) (alive : Bool) : List Char :=
  if (s.state = .starting ∨ s.state = .running) ∧ ¬alive then "dead".toList
  else match s.state with
    | .starting => "starting".toList
    | .running => "running".toList
    | .exited =>
      match s.exitCode with
      | some c => "exit:".toList ++ intText c.toInt
      | none => "exited".toList
    | .killed => "killed".toList

def formatAge (age : ℤ) : List Char :=
  let secs := (max (Int.tdiv age 1000000000) 0).toNat
  if secs < 60 then Nat.toDigits 10 secs ++ ['s']
  else if secs < 3600 then Nat.toDigits 10 (secs/60) ++ ['m']
  else if secs < 86400 then Nat.toDigits 10 (secs/3600) ++ ['h']
  else Nat.toDigits 10 (secs/86400) ++ ['d']

/-- At most `max` characters, or any number where `max` is zero. -/
def truncateCols (s : List Char) (max : ℕ) : List Char :=
  if max = 0 ∨ s.length ≤ max then s else s.take (max-1) ++ ['…']

/-- The flag of a session, and its message. -/
def noteSuffix : Option (List Char) → List Char
  | some [] => "  ⚑".toList
  | some note => "  ⚑ ".toList ++ note
  | none => []

def ListEntry.row (e : ListEntry) : ListRow :=
  ⟨e.id,stateLabelFor e.status e.alive,formatAge e.age,
    List.intercalate [' '] e.cmd ++ noteSuffix e.note⟩

/-- `{:<w$}`. -/
def padTo (w : ℕ) (s : List Char) : List Char := s ++ List.replicate (w - s.length) ' '

/-- A colour, where colours are wanted. -/
def sgr (color : Bool) (code : List Char) : List Char := if color then Vt.ESC :: '[' :: code else []

def dim (color : Bool) : List Char := sgr color ['2','m']

def reset (color : Bool) : List Char := sgr color ['0','m']

def stateColor (label : List Char) : List Char :=
  if label = "exit:0".toList ∨ label = "running".toList then ['3','2','m']
  else if label = "starting".toList ∨ label = "exited".toList then ['3','3','m']
  else ['3','1','m']

/-- The widths of the first three columns. -/
structure ListWidths where
  id : ℕ
  state : ℕ
  age : ℕ
  deriving DecidableEq, Repr

/-- A column is as wide as its widest cell, its title included. -/
def columnWidth (title : List Char) (cells : List (List Char)) : ℕ :=
  (cells.map List.length).foldr max title.length

namespace ListWidths

def of (rows : List ListRow) : ListWidths :=
  ⟨columnWidth "ID".toList (rows.map ListRow.id),
    columnWidth "STATE".toList (rows.map ListRow.state),
    columnWidth "AGE".toList (rows.map ListRow.age)⟩

/-- Where the last column starts. -/
def indent (w : ListWidths) : ℕ := w.id + 1 + w.state + 1 + w.age + 1

def headerLine (w : ListWidths) (color : Bool) : List Char :=
  dim color ++ (padTo w.id "ID".toList ++ ' '::(padTo w.state "STATE".toList ++
    ' '::(padTo w.age "AGE".toList ++ " CMD".toList))) ++ reset color ++ ['\n']

/-- Padded first: the escapes count for no column. -/
def stateCell (w : ListWidths) (color : Bool) (state : List Char) : List Char :=
  sgr color (stateColor state) ++ state ++ reset color ++ (padTo w.state state).drop state.length

def rowLine (w : ListWidths) (color : Bool) (row : ListRow) : List Char :=
  padTo w.id row.id ++ ' '::(w.stateCell color row.state ++ ' '::(padTo w.age row.age ++
    ' '::row.cmd)) ++ ['\n']

/-- The last line of output of a session, under its row. -/
def hintLine (w : ListWidths) (color : Bool) (width : ℕ) (last : List Char) : List Char :=
  List.replicate w.indent ' ' ++ (dim color ++ ('↳' :: ' ' ::
    truncateCols last (width - (w.indent+2))) ++ reset color) ++ ['\n']

def renderRows (w : ListWidths) (color : Bool) (width : ℕ) :
    List ListRow → List (Option (List Char)) → List Char
  | [], _ => []
  | row::rows, lastLines =>
    w.rowLine color row ++
      ((lastLines.head?.join.map (w.hintLine color width)).getD [] ++
        renderRows w color width rows lastLines.tail)

end ListWidths

def renderListText (entries : List ListEntry) (color : Bool) (lastLines : List (Option (List Char)))
    (width : ℕ) : List Char :=
  if entries = [] then "(no sessions)\n".toList
  else
    let rows := entries.map ListEntry.row
    let w := ListWidths.of rows
    w.headerLine color ++ w.renderRows color width rows lastLines

/-! A reader of the table: the widths are read off the header, and an indented line belongs to the
row above it. -/

/-- The width of a column that starts here, and what follows it. -/
def readTitle (title line : List Char) : Option (ℕ × List Char) :=
  if title.isPrefixOf line then
    let rest := line.drop title.length
    some (title.length + (rest.takeWhile (· = ' ')).length - 1,rest.dropWhile (· = ' '))
  else none

def ListWidths.read (header : List Char) : Option ListWidths := do
  let (id,header) ← readTitle "ID".toList header
  let (state,header) ← readTitle "STATE".toList header
  let (age,header) ← readTitle "AGE".toList header
  if header = "CMD\n".toList then some ⟨id,state,age⟩ else none

/-- A padded cell and what follows its column. -/
def readCell (w : ℕ) (line : List Char) : List Char × List Char :=
  ((line.take w).rdropWhile (· = ' '),line.drop (w+1))

def ListRow.read (w : ListWidths) (line : List Char) : ListRow :=
  let (id,line) := readCell w.id line
  let (state,line) := readCell w.state line
  let (age,line) := readCell w.age line
  ⟨id,state,age,line.dropLast⟩

/-- The columns are wide enough for a row. -/
structure ListWidths.Holds (w : ListWidths) (row : ListRow) : Prop where
  id : row.id.length ≤ w.id
  state : row.state.length ≤ w.state
  age : row.age.length ≤ w.age

/-- What is printed of numbers and states: letters, digits, a colon and a minus. -/
def isWordChar (c : Char) : Bool := c.isAlphanum || c = ':' || c = '-'

theorem isWordChar_digit {n : ℕ} {c : Char} (h : c ∈ Nat.toDigits 10 n) : isWordChar c = true := by
  have hdigit := Nat.isDigit_of_mem_toDigits (by decide) (by decide) h
  simp [isWordChar,Char.isAlphanum,hdigit]

theorem isWordChar_ne {c : Char} (h : isWordChar c = true) : c ≠ ' ' ∧ c ≠ '\n' ∧ c ≠ Vt.ESC := by
  refine ⟨?_,?_,?_⟩ <;>
  · rintro rfl
    revert h
    decide

theorem isWordChar_word {word : List Char} (h : word.all isWordChar) :
    ∀ c ∈ word, isWordChar c = true := List.all_eq_true.mp h

theorem isWordChar_stateLabelFor (s : Status) (alive : Bool) :
    ∀ c ∈ stateLabelFor s alive, isWordChar c = true := by
  obtain ⟨state,childPid,exitCode⟩ := s
  unfold stateLabelFor
  dsimp only
  split_ifs
  · exact isWordChar_word rfl
  · cases state with
    | starting =>
      exact isWordChar_word rfl
    | running =>
      exact isWordChar_word rfl
    | killed =>
      exact isWordChar_word rfl
    | exited =>
      cases exitCode with
      | none =>
        exact isWordChar_word rfl
      | some code =>
        intro c hc
        rcases List.mem_append.mp hc with hc | hc
        · exact (isWordChar_word rfl : ∀ c ∈ "exit:".toList, isWordChar c = true) c hc
        · rcases List.mem_append.mp hc with hc | hc
          · split_ifs at hc
            · rw [List.mem_singleton.mp hc]
              decide
            · cases hc
          · exact isWordChar_digit hc

theorem isWordChar_formatAge (age : ℤ) : ∀ c ∈ formatAge age, isWordChar c = true := by
  intro c hc
  unfold formatAge at hc
  dsimp only at hc
  split_ifs at hc <;> rcases List.mem_append.mp hc with hc | hc
  all_goals first
    | exact isWordChar_digit hc
    | (rw [List.mem_singleton.mp hc]; decide)

theorem not_mem_intercalate {c : Char} {words : List (List Char)} (hsep : c ≠ ' ')
    (h : ∀ word ∈ words, c ∉ word) : c ∉ List.intercalate [' '] words := by
  induction words with
  | nil => simp
  | cons word words ih =>
    obtain ⟨hword,hwords⟩ := List.forall_mem_cons.mp h
    cases words with
    | nil => simpa using hword
    | cons next words =>
      rw [List.intercalate_cons_cons]
      simp [hword,hsep,ih hwords]

theorem not_mem_noteSuffix {c : Char} {note : Option (List Char)}
    (hc : c ∉ "  ⚑ ".toList) (h : ∀ text ∈ note, c ∉ text) : c ∉ noteSuffix note := by
  cases note with
  | none => exact List.not_mem_nil
  | some text =>
    cases text with
    | nil => exact fun hmem => hc (by revert hmem; simp [noteSuffix]; tauto)
    | cons d text =>
      rw [noteSuffix]
      · exact fun hmem => (List.mem_append.mp hmem).elim hc (h _ rfl)
      · simp

theorem not_mem_command {c : Char} {cmd : List (List Char)} {note : Option (List Char)}
    (hc : c ∉ "  ⚑ ".toList) (hcmd : ∀ word ∈ cmd, c ∉ word) (hnote : ∀ text ∈ note, c ∉ text) :
    c ∉ List.intercalate [' '] cmd ++ noteSuffix note := by
  have hsep : c ≠ ' ' := by
    rintro rfl
    exact hc (by decide)
  exact fun hmem => (List.mem_append.mp hmem).elim (not_mem_intercalate hsep hcmd)
    (not_mem_noteSuffix hc hnote)

theorem not_mem_truncateCols {c : Char} {s : List Char} (hc : c ≠ '…') (h : c ∉ s) (max : ℕ) :
    c ∉ truncateCols s max := by
  unfold truncateCols
  split_ifs
  · exact h
  · exact fun hmem => (List.mem_append.mp hmem).elim (fun hin => h (List.mem_of_mem_take hin))
      (by simpa using hc)

section Cells
variable {w : ℕ} {s rest : List Char}

theorem not_mem_padTo {c : Char} {n : ℕ} (hc : c ≠ ' ') (h : c ∉ s) : c ∉ padTo n s := by
  simp [padTo,h,hc]

end Cells

namespace ListWidths
variable {w : ListWidths} {row : ListRow} {rows : List ListRow} {width : ℕ}

end ListWidths

/-- A session that has failed and is flagged, and one that runs. -/
def flaggedEntries : List ListEntry :=
  [⟨"build".toList,["make".toList,"-j".toList],⟨.exited,none,some 2⟩,false,65000000000,
      some "see log".toList⟩,
    ⟨"x".toList,["sh".toList],⟨.running,some 7,none⟩,true,5000000000,none⟩]

/-- The texts of a session hold no escapes. -/
structure ListEntry.Plain (e : ListEntry) : Prop where
  id : Vt.ESC ∉ e.id
  cmd : ∀ word ∈ e.cmd, Vt.ESC ∉ word
  note : ∀ note ∈ e.note, Vt.ESC ∉ note

structure ListRow.Plain (row : ListRow) : Prop where
  id : Vt.ESC ∉ row.id
  state : Vt.ESC ∉ row.state
  age : Vt.ESC ∉ row.age
  cmd : Vt.ESC ∉ row.cmd

theorem ListEntry.Plain.row {e : ListEntry} (h : e.Plain) : e.row.Plain where
  id := h.id
  state hmem := (isWordChar_ne (isWordChar_stateLabelFor e.status e.alive _ hmem)).2.2 rfl
  age hmem := (isWordChar_ne (isWordChar_formatAge e.age _ hmem)).2.2 rfl
  cmd := not_mem_command (by decide) h.cmd h.note

section Colours
open Vt
variable {shift : Bool}

/-- A colour prints nothing. -/
theorem alike_sgr {code : List Char}
    (hcode : code ∈ [['2','m'],['0','m'],['3','1','m'],['3','2','m'],['3','3','m']]) :
    Alike shift (sgr true code) (sgr false code) := by
  simp only [List.mem_cons,List.not_mem_nil,or_false] at hcode
  cases shift <;> rcases hcode with rfl | rfl | rfl | rfl | rfl <;> exact ⟨by decide,rfl,by decide⟩

theorem stateColor_mem (label : List Char) :
    stateColor label ∈ [['2','m'],['0','m'],['3','1','m'],['3','2','m'],['3','3','m']] := by
  unfold stateColor
  split_ifs <;> simp

namespace ListWidths

theorem alike_headerLine (w : ListWidths) :
    Alike shift (w.headerLine true) (w.headerLine false) := by
  have htitles : Vt.ESC ∉ padTo w.id "ID".toList ++ ' '::(padTo w.state "STATE".toList ++
      ' '::(padTo w.age "AGE".toList ++ " CMD".toList)) := by
    simp [padTo,Vt.ESC]
  exact (((alike_sgr (by simp)).append (alike_self htitles)).append (alike_sgr (by simp))).append
    (alike_self (by decide))

theorem alike_stateCell (w : ListWidths) {state : List Char} (h : Vt.ESC ∉ state) :
    Alike shift (w.stateCell true state) (w.stateCell false state) := by
  have hpadding : Vt.ESC ∉ (padTo w.state state).drop state.length :=
    fun hmem => not_mem_padTo (by decide) h (List.mem_of_mem_drop hmem)
  exact (((alike_sgr (stateColor_mem state)).append (alike_self h)).append
    (alike_sgr (by simp))).append (alike_self hpadding)

theorem alike_rowLine (w : ListWidths) {row : ListRow} (h : row.Plain) :
    Alike shift (w.rowLine true row) (w.rowLine false row) := by
  have hid : Alike shift (padTo w.id row.id) (padTo w.id row.id) :=
    alike_self (not_mem_padTo (by decide) h.id)
  have hage : Alike shift (padTo w.age row.age) (padTo w.age row.age) :=
    alike_self (not_mem_padTo (by decide) h.age)
  have hlast := hage.append ((alike_self h.cmd).cons (by decide : ' ' ≠ Vt.ESC))
  have hcells := (w.alike_stateCell h.state).append (hlast.cons (by decide : ' ' ≠ Vt.ESC))
  exact (hid.append (hcells.cons (by decide : ' ' ≠ Vt.ESC))).append (alike_self (by decide))

theorem alike_hintLine (w : ListWidths) (width : ℕ) {last : List Char} (h : Vt.ESC ∉ last) :
    Alike shift (w.hintLine true width last) (w.hintLine false width last) := by
  have hspaces : Vt.ESC ∉ List.replicate w.indent ' ' := by simp [Vt.ESC]
  have hshort := not_mem_truncateCols (by decide) h (width - (w.indent+2))
  have hhint : Vt.ESC ∉ '↳' :: ' ' :: truncateCols last (width - (w.indent+2)) := by
    simp only [List.mem_cons,not_or]
    exact ⟨by decide,by decide,hshort⟩
  exact ((alike_self hspaces).append (((alike_sgr (by simp)).append (alike_self hhint)).append
    (alike_sgr (by simp)))).append (alike_self (by decide))

theorem alike_renderRows (w : ListWidths) (width : ℕ) {rows : List ListRow}
    (hrows : ∀ row ∈ rows, row.Plain) {lastLines : List (Option (List Char))}
    (hlast : ∀ last ∈ lastLines, ∀ text ∈ last, Vt.ESC ∉ text) :
    Alike shift (w.renderRows true width rows lastLines)
      (w.renderRows false width rows lastLines) := by
  induction rows generalizing lastLines with
  | nil => exact alike_self List.not_mem_nil
  | cons row rows ih =>
    obtain ⟨hrow,hrows⟩ := List.forall_mem_cons.mp hrows
    have hrest := ih hrows fun last hmem => hlast last (List.mem_of_mem_tail hmem)
    refine (w.alike_rowLine hrow).append (.append ?_ hrest)
    cases hhint : lastLines.head?.join with
    | none => exact alike_self List.not_mem_nil
    | some last =>
      exact w.alike_hintLine width
        (hlast _ (List.mem_of_head? (Option.join_eq_some_iff.mp hhint)) last rfl)

end ListWidths

/-- Colours change nothing that is shown: without its escapes, the coloured table is the plain
one without them. -/
theorem list_colours_only (shift : Bool) (entries : List ListEntry)
    (lastLines : List (Option (List Char))) (width : ℕ) (hplain : ∀ e ∈ entries, e.Plain)
    (hlast : ∀ last ∈ lastLines, ∀ text ∈ last, Vt.ESC ∉ text) :
    strip shift (renderListText entries true lastLines width) =
      strip shift (renderListText entries false lastLines width) := by
  unfold renderListText
  split_ifs with hentries
  · rfl
  · have hrows : ∀ row ∈ entries.map ListEntry.row, row.Plain := by
      intro row hrow
      obtain ⟨e,he,rfl⟩ := List.mem_map.mp hrow
      exact (hplain e he).row
    exact ((ListWidths.alike_headerLine _).append
      (ListWidths.alike_renderRows _ width hrows hlast)).strip_eq

theorem list_colours_only_flagged :
    strip true (renderListText flaggedEntries true [none,some "$ ".toList] 40) =
      strip true (renderListText flaggedEntries false [none,some "$ ".toList] 40) := by
  have hplain : ∀ e ∈ flaggedEntries, e.Plain := by
    intro e he
    simp only [flaggedEntries,List.mem_cons,List.not_mem_nil,or_false] at he
    rcases he with rfl | rfl <;> exact ⟨by decide,by decide,by decide⟩
  exact list_colours_only true flaggedEntries _ 40 hplain (by decide)

end Colours
end Babysit
