import Babysit.HubOffsets
import Babysit.Lib.Lines
import Babysit.Lib.Transition

/-! The capture-time sidecar: `broadcast` writes one row for each captured chunk, and
`clip_capture_rows` reads them back through the JSON parser, which is a parameter. A torn row
stays in the file and swallows the row that is appended behind it. -/
namespace Babysit
open AppendLog

/-- A row: the offset, the length and the time in milliseconds. -/
abbrev CaptureRow := ℕ × ℕ × ℕ

/-- The text of a row without its newline. -/
def rowText : CaptureRow → List Char
  | (start,length,time) => ("[" ++ toString start ++ "," ++ toString length ++ "," ++
      toString time ++ "]").toList

/-- What a JSON number or the space around it may consist of. -/
def numeric (c : Char) : Bool :=
  c.isDigit || c = ' ' || c = '\t' || c = '\n' || c = '\r'

/-- An array of three unsigned numbers, as far as its shape goes. -/
def IsTriple (line : List Char) : Prop :=
  ∃ before a b c after, line = before ++ '[' :: a ++ ',' :: b ++ ',' :: c ++ ']' :: after ∧
    ∀ x ∈ before ++ a ++ b ++ c ++ after, numeric x = true

/-- `serde_json::from_str::<[u64; 3]>`: it reads three numbers of 64 bits back, and accepts
nothing but an array of three numbers. -/
structure RowParser where
  parse : List Char → Option CaptureRow
  reads : ∀ start length time, start ≤ U64_MAX → length ≤ U64_MAX → time ≤ U64_MAX →
    parse (rowText (start,length,time)) = some (start,length,time)
  triple : ∀ line row, parse line = some row → IsTriple line

/-- The rows that overlap `[lo, hi)`, clipped to it; `previousEnd` is where the last row that
was not skipped ends. -/
def clipLines (parse : List Char → Option CaptureRow) (lo hi : ℕ) :
    ℕ → List (List Char) → List CaptureRow
  | _, [] => []
  | previousEnd, line::rest =>
    match parse line with
    | none => clipLines parse lo hi previousEnd rest
    | some (start,length,time) =>
      -- checked_add
      if U64_MAX < start+length then clipLines parse lo hi previousEnd rest
      else if length = 0 ∨ start < previousEnd then clipLines parse lo hi previousEnd rest
      else if max start lo < min (start+length) hi then
        (max start lo,min (start+length) hi - max start lo,time) ::
          clipLines parse lo hi (start+length) rest
      else clipLines parse lo hi (start+length) rest

def clipCaptureRows (parse : List Char → Option CaptureRow) (text : List Char) (lo hi : ℕ) :
    List CaptureRow := clipLines parse lo hi 0 (Lines.lines text)

/-- A chunk that has been written to the log whole, with its offset there and its time. -/
structure Captured where
  offset : ℕ
  data : List UInt8
  time : ℕ
  deriving DecidableEq, Repr

def Captured.row (c : Captured) : CaptureRow := (c.offset,c.data.length,c.time)

/-- The hub, the files, and the chunks captured so far. -/
structure CaptureWorld where
  hub : HubInner
  disk : Disk
  chunks : List Captured

inductive CaptureEvent
  | configureLog (io : ConfigureIo)
  | broadcast (data : List UInt8) (now : UInt64) (log timestamps : WriteResult)

namespace CaptureWorld

def start : CaptureWorld := ⟨.default,⟨[],[]⟩,[]⟩

def step (w : CaptureWorld) : CaptureEvent → Option CaptureWorld
  | .configureLog io =>
    let after := w.hub.configureLog w.disk io
    some { w with hub := after.1, disk := after.2 }
  | .broadcast data now log timestamps =>
    -- no file system writes past the largest offset
    if w.hub.log ∧ MAX_FILE_LEN < w.disk.log.length + (log.written data).length then none
    else
      let after := w.hub.broadcast w.disk data ⟨now.toNat,log,timestamps⟩
      some ⟨after.1,after.2,if w.hub.log ∧ log = .ok
        then w.chunks ++ [⟨w.disk.log.length,data,now.toNat⟩] else w.chunks⟩

/-- Every row lies in the window and inside one captured chunk, with the time of that chunk. -/
def RowsCaptured (p : RowParser) (w : CaptureWorld) : Prop :=
  ∀ lo hi, ∀ row ∈ clipCaptureRows p.parse w.disk.timestamps lo hi,
    lo ≤ row.1 ∧ 0 < row.2.1 ∧ row.1+row.2.1 ≤ hi ∧
      ∃ c ∈ w.chunks, HoldsAt w.disk.log c.offset c.data ∧ c.time = row.2.2 ∧
        c.offset ≤ row.1 ∧ row.1+row.2.1 ≤ c.offset+c.data.length

/-- The rows stand one behind the other from one offset to another. -/
def Tiles : ℕ → List CaptureRow → ℕ → Prop
  | start, [], stop => start = stop
  | start, row::rows, stop => row.1 = start ∧ 0 < row.2.1 ∧ Tiles (start+row.2.1) rows stop

/-- The rows of every window cover it up to the log's end, each byte once and in order. -/
def RowsCover (p : RowParser) (w : CaptureWorld) : Prop :=
  ∀ lo hi, Tiles lo (clipCaptureRows p.parse w.disk.timestamps lo hi)
    (max lo (min hi w.disk.log.length))

end CaptureWorld

section Text

/-- What rows are made of. -/
def IsRowText (text : List Char) : Prop :=
  ∀ c ∈ text, c.isDigit = true ∨ c = '[' ∨ c = ',' ∨ c = ']'

/-- Whole lines, each with its newline. -/
def unlines (ls : List (List Char)) : List Char := ls.flatMap (· ++ ['\n'])

@[simp] theorem unlines_nil : unlines [] = [] := rfl

theorem unlines_snoc (ls : List (List Char)) (line : List Char) :
    unlines (ls++[line]) = unlines ls ++ (line ++ ['\n']) := by
  simp [unlines]

theorem isRowText_append {xs ys : List Char} :
    IsRowText (xs++ys) ↔ IsRowText xs ∧ IsRowText ys := by
  simp only [IsRowText,List.mem_append,or_imp,forall_and]

theorem IsRowText.not_newline {text : List Char} (h : IsRowText text) : '\n' ∉ text := by
  intro hmem
  have := h _ hmem
  revert this
  decide

theorem IsRowText.not_return {text : List Char} (h : IsRowText text) : '\r' ∉ text := by
  intro hmem
  have := h _ hmem
  revert this
  decide

theorem lines_unlines {ls : List (List Char)} {tail : List Char} (hls : ∀ l ∈ ls, IsRowText l)
    (htail : IsRowText tail) :
    Lines.lines (unlines ls ++ tail) = ls ++ if tail = [] then [] else [tail] := by
  induction ls with
  | nil => exact Lines.lines_of_not_mem htail.not_newline
  | cons line ls ih =>
    have hline := hls line List.mem_cons_self
    have hlast : line.getLast? ≠ some '\r' :=
      fun h => hline.not_return (List.mem_of_getLast? h)
    have hcons : unlines (line::ls) ++ tail = line ++ '\n' :: (unlines ls ++ tail) := by
      simp [unlines]
    rw [hcons,Lines.lines_cons hline.not_newline,Lines.stripCr,if_neg hlast,List.cons_append]
    exact congrArg _ (ih fun l hl => hls l (List.mem_cons_of_mem line hl))

theorem isDigit_toString (n : ℕ) : ∀ c ∈ (toString n).toList, c.isDigit = true := by
  intro c hc
  rw [Nat.toString_eq_ofList_toDigits,String.toList_ofList] at hc
  exact Nat.isDigit_of_mem_toDigits (by omega) (by omega) hc

/-- A row's text is a bracket, digits and commas, and a bracket. -/
theorem rowText_eq (row : CaptureRow) : ∃ inner, rowText row = '[' :: (inner ++ [']']) ∧
    ∀ c ∈ inner, c.isDigit = true ∨ c = ',' := by
  obtain ⟨start,length,time⟩ := row
  refine ⟨(toString start).toList ++ ',' :: ((toString length).toList ++
    ',' :: (toString time).toList),by simp [rowText,String.toList_append],?_⟩
  intro c hc
  simp only [List.mem_append,List.mem_cons] at hc
  rcases hc with hc | rfl | hc | rfl | hc
  · exact .inl (isDigit_toString _ c hc)
  · exact .inr rfl
  · exact .inl (isDigit_toString _ c hc)
  · exact .inr rfl
  · exact .inl (isDigit_toString _ c hc)

theorem isRowText_rowText (row : CaptureRow) : IsRowText (rowText row) := by
  obtain ⟨inner,htext,hinner⟩ := rowText_eq row
  intro c hc
  rw [htext] at hc
  simp only [List.mem_cons,List.mem_append,List.not_mem_nil,or_false] at hc
  rcases hc with rfl | hc | rfl
  · exact .inr (.inl rfl)
  · rcases hinner c hc with hdigit | hcomma
    · exact .inl hdigit
    · exact .inr (.inr (.inl hcomma))
  · exact .inr (.inr (.inr rfl))

theorem captureRow_eq (start length time : ℕ) :
    captureRow start length time = rowText (start,length,time) ++ ['\n'] := by
  simp [captureRow,rowText,String.toList_append]

variable (p : RowParser)

theorem count_bracket {line : List Char} (h : IsTriple line) : line.count '[' = 1 := by
  obtain ⟨before,a,b,c,after,rfl,hnumeric⟩ := h
  have hnone : ∀ xs : List Char, (∀ x ∈ xs, numeric x = true) → xs.count '[' = 0 := by
    intro xs hxs
    apply List.count_eq_zero.mpr
    intro hmem
    have := hxs _ hmem
    revert this
    decide
  simp only [List.forall_mem_append] at hnumeric
  obtain ⟨⟨⟨⟨hbefore,ha⟩,hb⟩,hc⟩,hafter⟩ := hnumeric
  simp [List.count_append,hnone _ hbefore,hnone _ ha,hnone _ hb,hnone _ hc,
    hnone _ hafter]

theorem RowParser.parse_glued {line : List Char} (h : 2 ≤ line.count '[') :
    p.parse line = none := by
  cases hrow : p.parse line with
  | none => rfl
  | some row =>
    have hone := count_bracket (p.triple line row hrow)
    omega

/-- A row that is cut before its last bracket is not read. -/
theorem RowParser.parse_cut {line : List Char} {row : CaptureRow} (h : line <+: rowText row)
    (hne : line ≠ rowText row) : p.parse line = none := by
  obtain ⟨inner,htext,hinner⟩ := rowText_eq row
  have hcut : line <+: '[' :: inner := by
    rw [htext,← List.cons_append] at h hne
    rcases List.prefix_concat_iff.mp h with he | hcut
    · exact absurd he hne
    · exact hcut
  have hnot : ']' ∉ line := by
    intro hmem
    rcases List.mem_cons.mp (hcut.subset hmem) with he | hmem
    · revert he
      decide
    · have := hinner _ hmem
      revert this
      decide
  cases hrow : p.parse line with
  | none => rfl
  | some row' =>
    obtain ⟨before,a,b,c,after,rfl,-⟩ := p.triple line row' hrow
    exact absurd (by simp) hnot

end Text

/-- A captured chunk whose numbers fit the row. -/
structure Captured.Fits (c : Captured) : Prop where
  stop : c.offset+c.data.length ≤ U64_MAX
  time : c.time ≤ U64_MAX

theorem RowParser.parse_row (p : RowParser) {c : Captured} (h : c.Fits) :
    p.parse (rowText c.row) = some c.row := by
  have := h.stop
  exact p.reads _ _ _ (by omega) (by omega) h.time

/-- The text of the sidecar: whole lines, which are read as rows of some of the chunks, and a
tail that is empty, hopeless, or the beginning of the row of a later chunk. -/
structure Sidecar (p : RowParser) (chunks : List Captured) (text : List Char)
    (ls : List (List Char)) (tail : List Char) (read : List Captured) : Prop where
  text : text = unlines ls ++ tail
  lines : ∀ l ∈ ls, IsRowText l
  last : IsRowText tail
  rows : ls.filterMap p.parse = read.map Captured.row
  tail : (tail = [] ∨ 2 ≤ tail.count '[') ∧ List.Sublist read chunks ∨
    ∃ c, tail ≠ [] ∧ tail <+: rowText c.row ∧ List.Sublist (read++[c]) chunks

def Readable (p : RowParser) (chunks : List Captured) (text : List Char) : Prop :=
  ∃ ls tail read, Sidecar p chunks text ls tail read

section Sidecar
variable {p : RowParser} {chunks : List Captured} {text : List Char}

theorem readable_nil : Readable p chunks [] :=
  ⟨[],[],[],rfl,by simp,by simp [IsRowText],rfl,.inl ⟨.inl rfl,List.nil_sublist _⟩⟩

/-- The rows read from the sidecar are those of some of the chunks, in order. -/
theorem Readable.parsed (h : Readable p chunks text) (hfits : ∀ c ∈ chunks, c.Fits) :
    ∃ read, List.Sublist read chunks ∧
      (Lines.lines text).filterMap p.parse = read.map Captured.row := by
  obtain ⟨ls,tail,read,h⟩ := h
  have hlines := lines_unlines h.lines h.last
  rw [← h.text] at hlines
  rw [hlines,List.filterMap_append,h.rows]
  rcases h.tail with ⟨hempty | hglued,hsub⟩ | ⟨c,hne,hpre,hsub⟩
  · exact ⟨read,hsub,by simp [hempty]⟩
  · have hne : tail ≠ [] := by
      rintro rfl
      simp at hglued
    exact ⟨read,hsub,by simp [hne,p.parse_glued hglued]⟩
  · by_cases hwhole : tail = rowText c.row
    · have hc : c.Fits := hfits c (hsub.subset (by simp))
      refine ⟨read++[c],hsub,?_⟩
      rw [if_neg hne,hwhole]
      simp [p.parse_row hc]
    · have hread := (List.sublist_append_left read [c]).trans hsub
      exact ⟨read,hread,by simp [hne,p.parse_cut hpre hwhole]⟩

/-- A chunk without a row. -/
theorem Readable.more (h : Readable p chunks text) (c : Captured) :
    Readable p (chunks++[c]) text := by
  obtain ⟨ls,tail,read,h⟩ := h
  have hgrow := List.sublist_append_left chunks [c]
  refine ⟨ls,tail,read,h.text,h.lines,h.last,h.rows,?_⟩
  rcases h.tail with ⟨htail,hsub⟩ | ⟨d,hne,hpre,hsub⟩
  · exact .inl ⟨htail,hsub.trans hgrow⟩
  · exact .inr ⟨d,hne,hpre,hsub.trans hgrow⟩

/-- The tail that is not empty begins with a bracket. -/
theorem Sidecar.count_tail {ls : List (List Char)} {tail : List Char} {read : List Captured}
    (h : Sidecar p chunks text ls tail read) (hne : tail ≠ []) : 1 ≤ tail.count '[' := by
  rcases h.tail with ⟨htail,-⟩ | ⟨c,-,hpre,-⟩
  · have := htail.resolve_left hne
    omega
  · obtain ⟨inner,htext,-⟩ := rowText_eq c.row
    rw [htext] at hpre
    obtain ⟨x,tail,rfl⟩ := List.exists_cons_of_ne_nil hne
    obtain rfl := (List.cons_prefix_cons.mp hpre).1
    simp

theorem Sidecar.read_sublist {ls : List (List Char)} {tail : List Char} {read : List Captured}
    (h : Sidecar p chunks text ls tail read) : List.Sublist read chunks := by
  rcases h.tail with ⟨-,hsub⟩ | ⟨c,-,-,hsub⟩
  · exact hsub
  · exact (List.sublist_append_left read [c]).trans hsub

/-- The row of a chunk is appended whole. -/
theorem Readable.wrote (h : Readable p chunks text) {c : Captured} (hc : c.Fits) :
    Readable p (chunks++[c]) (text ++ (rowText c.row ++ ['\n'])) := by
  obtain ⟨ls,tail,read,h⟩ := h
  have hrow := isRowText_rowText c.row
  have htext : text ++ (rowText c.row ++ ['\n']) = unlines (ls++[tail ++ rowText c.row]) := by
    rw [unlines_snoc,h.text]
    simp only [List.append_assoc]
  have hlines : ∀ l ∈ ls++[tail ++ rowText c.row], IsRowText l := by
    intro l hl
    rcases List.mem_append.mp hl with hl | hl
    · exact h.lines l hl
    · rw [List.mem_singleton.mp hl]
      exact isRowText_append.mpr ⟨h.last,hrow⟩
  have hread := h.read_sublist
  by_cases hempty : tail = []
  · refine ⟨_,[],read++[c],by rw [htext,List.append_nil],hlines,by simp [IsRowText],?_,
      .inl ⟨.inl rfl,hread.append (List.Sublist.refl _)⟩⟩
    rw [List.filterMap_append,h.rows,hempty]
    simp [p.parse_row hc]
  · -- the row is glued to the torn one
    have hglued : 2 ≤ (tail ++ rowText c.row).count '[' := by
      have := h.count_tail hempty
      obtain ⟨inner,hinner,-⟩ := rowText_eq c.row
      rw [List.count_append,hinner,List.count_cons_self]
      omega
    refine ⟨_,[],read,by rw [htext,List.append_nil],hlines,by simp [IsRowText],?_,
      .inl ⟨.inl rfl,hread.trans (List.sublist_append_left _ _)⟩⟩
    rw [List.filterMap_append,h.rows]
    simp [p.parse_glued hglued]

/-- The row of a chunk is torn after any prefix. -/
theorem Readable.torn (h : Readable p chunks text) {c : Captured} (hc : c.Fits) (k : ℕ) :
    Readable p (chunks++[c]) (text ++ (rowText c.row ++ ['\n']).take k) := by
  by_cases hwhole : (rowText c.row).length < k
  · rw [List.take_of_length_le (by rw [List.length_append,List.length_singleton]; omega)]
    exact h.wrote hc
  rw [List.take_append_of_le_length (by omega)]
  have hpre := List.take_prefix k (rowText c.row)
  generalize (rowText c.row).take k = torn at hpre
  have hchars : IsRowText torn := fun x hx => isRowText_rowText c.row x (hpre.subset hx)
  by_cases hnone : torn = []
  · rw [hnone,List.append_nil]
    exact h.more c
  obtain ⟨ls,tail,read,h⟩ := h
  have hread := h.read_sublist
  refine ⟨ls,tail++torn,read,by rw [h.text,List.append_assoc],h.lines,
    isRowText_append.mpr ⟨h.last,hchars⟩,h.rows,?_⟩
  by_cases hempty : tail = []
  · rw [hempty,List.nil_append]
    exact .inr ⟨c,hnone,hpre,hread.append (List.Sublist.refl _)⟩
  · refine .inl ⟨.inr ?_,hread.trans (List.sublist_append_left _ _)⟩
    have hfirst := h.count_tail hempty
    have hsecond : 1 ≤ torn.count '[' := by
      obtain ⟨inner,htext,-⟩ := rowText_eq c.row
      rw [htext] at hpre
      obtain ⟨x,torn,rfl⟩ := List.exists_cons_of_ne_nil hnone
      obtain rfl := (List.cons_prefix_cons.mp hpre).1
      simp
    rw [List.count_append]
    omega

end Sidecar

section Clip

/-- The loop over the rows that the parser accepts. -/
def clipRows (lo hi : ℕ) : ℕ → List CaptureRow → List CaptureRow
  | _, [] => []
  | previousEnd, (start,length,time)::rows =>
    if U64_MAX < start+length ∨ length = 0 ∨ start < previousEnd then
      clipRows lo hi previousEnd rows
    else if max start lo < min (start+length) hi then
      (max start lo,min (start+length) hi - max start lo,time) :: clipRows lo hi (start+length) rows
    else clipRows lo hi (start+length) rows

theorem clipLines_eq (parse : List Char → Option CaptureRow) (lo hi previousEnd : ℕ)
    (ls : List (List Char)) : clipLines parse lo hi previousEnd ls =
      clipRows lo hi previousEnd (ls.filterMap parse) := by
  induction ls generalizing previousEnd with
  | nil => rfl
  | cons line ls ih =>
    rw [clipLines]
    cases hrow : parse line with
    | none => rw [List.filterMap_cons_none hrow,ih]
    | some row =>
      obtain ⟨start,length,time⟩ := row
      rw [List.filterMap_cons_some hrow,clipRows]
      simp only [ih]
      by_cases hmax : U64_MAX < start+length
      · simp only [hmax,if_true,true_or]
      · simp only [hmax,if_false,false_or]

/-- Every row of a window is the part of one row in that window. -/
theorem mem_clipRows {lo hi previousEnd : ℕ} {rows : List CaptureRow} {row : CaptureRow}
    (h : row ∈ clipRows lo hi previousEnd rows) : ∃ start length time,
      (start,length,time) ∈ rows ∧ max start lo < min (start+length) hi ∧
        row = (max start lo,min (start+length) hi - max start lo,time) := by
  induction rows generalizing previousEnd with
  | nil => cases h
  | cons first rows ih =>
    obtain ⟨start,length,time⟩ := first
    have hrest : ∀ {stop}, row ∈ clipRows lo hi stop rows → ∃ start' length' time',
        (start',length',time') ∈ (start,length,time)::rows ∧
          max start' lo < min (start'+length') hi ∧
            row = (max start' lo,min (start'+length') hi - max start' lo,time') := by
      intro stop hmem
      obtain ⟨start',length',time',hmem',hrow⟩ := ih hmem
      exact ⟨start',length',time',List.mem_cons_of_mem _ hmem',hrow⟩
    rw [clipRows] at h
    split_ifs at h with hskip hoverlap
    · exact hrest h
    · rcases List.mem_cons.mp h with rfl | h
      · exact ⟨start,length,time,List.mem_cons_self,hoverlap,rfl⟩
      · exact hrest h
    · exact hrest h

/-- Rows that stand one behind the other, empty ones among them. -/
def Abuts : ℕ → List CaptureRow → ℕ → Prop
  | start, [], stop => start = stop
  | start, row::rows, stop => row.1 = start ∧ Abuts (start+row.2.1) rows stop

theorem Abuts.le {rows : List CaptureRow} {start stop : ℕ} (h : Abuts start rows stop) :
    start ≤ stop := by
  induction rows generalizing start with
  | nil => exact Nat.le_of_eq h
  | cons row rows ih =>
    have := ih h.2
    omega

theorem Abuts.snoc {rows : List CaptureRow} {start stop : ℕ} (h : Abuts start rows stop)
    (length time : ℕ) : Abuts start (rows++[(stop,length,time)]) (stop+length) := by
  induction rows generalizing start with
  | nil =>
    obtain rfl : start = stop := h
    exact ⟨rfl,rfl⟩
  | cons row rows ih => exact ⟨h.1,ih h.2⟩

theorem Tiles.le {rows : List CaptureRow} {start stop : ℕ} (h : CaptureWorld.Tiles start rows stop) :
    start ≤ stop := by
  induction rows generalizing start with
  | nil => exact Nat.le_of_eq h
  | cons row rows ih =>
    have := ih h.2.2
    omega

theorem Tiles.eq_nil {rows : List CaptureRow} {start : ℕ}
    (h : CaptureWorld.Tiles start rows start) : rows = [] := by
  cases rows with
  | nil => rfl
  | cons row rows =>
    have := h.2.1
    have := Tiles.le h.2.2
    omega

/-- The window's part of abutting rows is covered. -/
theorem tiles_clipRows {lo hi previousEnd start stop : ℕ} {rows : List CaptureRow}
    (h : Abuts start rows stop) (hmax : stop ≤ U64_MAX) (hprevious : previousEnd ≤ start) :
    CaptureWorld.Tiles (max start lo) (clipRows lo hi previousEnd rows)
      (max (max start lo) (min hi stop)) := by
  induction rows generalizing start previousEnd with
  | nil =>
    obtain rfl : start = stop := h
    exact (by omega : max start lo = max (max start lo) (min hi start))
  | cons row rows ih =>
    obtain ⟨first,length,time⟩ := row
    obtain ⟨hfirst,hrest⟩ := h
    dsimp only at hfirst hrest
    subst hfirst
    have hle := hrest.le
    rw [clipRows]
    by_cases hempty : length = 0
    · subst hempty
      rw [if_pos (.inr (.inl rfl))]
      exact ih hrest hprevious
    rw [if_neg (by omega)]
    have htail := ih hrest (Nat.le_refl (first+length))
    by_cases hoverlap : max first lo < min (first+length) hi
    · rw [if_pos hoverlap]
      refine ⟨rfl,by dsimp only; omega,?_⟩
      dsimp only
      by_cases hinside : first+length ≤ hi
      · convert htail using 1 <;> omega
      · -- the window ends inside this row
        have hstop : max (max (first+length) lo) (min hi stop) = max (first+length) lo := by omega
        rw [hstop] at htail
        rw [Tiles.eq_nil htail]
        exact (by omega : max first lo + (min (first+length) hi - max first lo) =
          max (max first lo) (min hi stop))
    · rw [if_neg hoverlap]
      by_cases hbefore : first+length ≤ lo
      · convert htail using 1 <;> omega
      · have hstop : max (max (first+length) lo) (min hi stop) = max (first+length) lo := by omega
        rw [hstop] at htail
        rw [Tiles.eq_nil htail]
        exact (by omega : max first lo = max (max first lo) (min hi stop))

end Clip

section PlainRows

/-- A number of 64 bits in digits. -/
def parseNumber (digits : List Char) : Option ℕ :=
  if digits.all Char.isDigit ∧ Nat.ofDigitChars 10 digits 0 ≤ U64_MAX
    then some (Nat.ofDigitChars 10 digits 0) else none

/-- A row without any space in it. -/
def parsePlainRow (line : List Char) : Option CaptureRow :=
  if line = '[' :: (line.tail.dropLast ++ [']']) then
    match line.tail.dropLast.splitOn ',' with
    | [a,b,c] => do
      let start ← parseNumber a
      let length ← parseNumber b
      let time ← parseNumber c
      some (start,length,time)
    | _ => none
  else none

theorem parseNumber_toString {n : ℕ} (h : n ≤ U64_MAX) :
    parseNumber (toString n).toList = some n := by
  have hdigits : (toString n).toList.all Char.isDigit = true :=
    List.all_eq_true.mpr (isDigit_toString n)
  have hvalue : Nat.ofDigitChars 10 (toString n).toList 0 = n := by
    rw [Nat.toString_eq_ofList_toDigits,String.toList_ofList]
    exact Nat.ofDigitChars_ten_toDigits
  rw [parseNumber,hvalue,if_pos ⟨hdigits,h⟩]

theorem numeric_of_parseNumber {digits : List Char} {n : ℕ} (h : parseNumber digits = some n) :
    ∀ c ∈ digits, numeric c = true := by
  unfold parseNumber at h
  split_ifs at h with hdigits
  intro c hc
  have := List.all_eq_true.mp hdigits.1 c hc
  simp [numeric,this]

theorem comma_not_mem (n : ℕ) : ',' ∉ (toString n).toList := by
  intro hmem
  have := isDigit_toString n _ hmem
  revert this
  decide

/-- The reader of plain rows. -/
def plainRows : RowParser where
  parse := parsePlainRow
  reads start length time hstart hlength htime := by
    have htext : rowText (start,length,time) = '[' :: (((toString start).toList ++
        ',' :: ((toString length).toList ++ ',' :: (toString time).toList)) ++ [']']) := by
      simp [rowText,String.toList_append]
    have hsplit : ((toString start).toList ++ ',' :: ((toString length).toList ++
        ',' :: (toString time).toList)).splitOn ',' =
          [(toString start).toList,(toString length).toList,(toString time).toList] := by
      rw [List.splitOn_append_cons_self_of_not_mem (comma_not_mem start),
        List.splitOn_append_cons_self_of_not_mem (comma_not_mem length),
        List.splitOn_eq_singleton (comma_not_mem time)]
    rw [parsePlainRow,htext,List.tail_cons,List.dropLast_concat,if_pos rfl,hsplit]
    simp only [parseNumber_toString hstart,parseNumber_toString hlength,parseNumber_toString htime]
    rfl
  triple line row h := by
    unfold parsePlainRow at h
    split_ifs at h with hline
    split at h
    next a b c hsplit =>
      simp only [Option.bind_eq_bind,Option.bind_eq_some_iff] at h
      obtain ⟨start,ha,length,hb,time,hc,-⟩ := h
      have hbody : line.tail.dropLast = a ++ ',' :: (b ++ ',' :: c) := by
        have hjoin : [','].intercalate (line.tail.dropLast.splitOn ',') = line.tail.dropLast :=
          List.intercalate_splitOn ','
        rw [← hjoin,hsplit]
        simp [List.intercalate]
      refine ⟨[],a,b,c,[],?_,?_⟩
      · rw [hline,hbody]
        simp
      · simp only [List.nil_append,List.append_nil,List.forall_mem_append]
        exact ⟨⟨numeric_of_parseNumber ha,numeric_of_parseNumber hb⟩,numeric_of_parseNumber hc⟩
    next => cases h

end PlainRows

/-- No write fails, and the sidecar can be opened to be written. -/
def CaptureEvent.Succeeds : CaptureEvent → Prop
  | .configureLog io => io.timestamps = true
  | .broadcast _ _ log timestamps => log = .ok ∧ timestamps = .ok

namespace CaptureWorld
variable {p : RowParser} {w w' : CaptureWorld}

/-- The invariant: open, the hub knows the log's end, and the sidecar can be read. -/
structure Good (p : RowParser) (w : CaptureWorld) : Prop where
  nextOffset : w.hub.log = true → w.hub.nextOffset = w.disk.log.length
  fits : w.disk.log.length ≤ MAX_FILE_LEN
  chunks : ∀ c ∈ w.chunks, HoldsAt w.disk.log c.offset c.data ∧
    c.offset+c.data.length ≤ w.disk.log.length ∧ c.time ≤ U64_MAX
  sidecar : Readable p w.chunks w.disk.timestamps

theorem good_start (p : RowParser) : start.Good p where
  nextOffset h := by cases h
  fits := Nat.zero_le _
  chunks c hc := by cases hc
  sidecar := readable_nil

theorem Good.chunk_fits (h : w.Good p) : ∀ c ∈ w.chunks, c.Fits := by
  intro c hc
  obtain ⟨-,hle,htime⟩ := h.chunks c hc
  have := h.fits
  have := MAX_FILE_LEN_lt
  exact ⟨by omega,htime⟩

theorem Good.rowsCaptured (h : w.Good p) : w.RowsCaptured p := by
  intro lo hi row hrow
  obtain ⟨read,hsub,hparsed⟩ := h.sidecar.parsed h.chunk_fits
  rw [clipCaptureRows,clipLines_eq,hparsed] at hrow
  obtain ⟨start,length,time,hmem,hoverlap,rfl⟩ := mem_clipRows hrow
  obtain ⟨c,hc,hcrow⟩ := List.mem_map.mp hmem
  cases hcrow
  have hchunk := hsub.subset hc
  dsimp only
  exact ⟨by omega,by omega,by omega,c,hchunk,(h.chunks c hchunk).1,rfl,by omega,by omega⟩

/-- What a broadcast leaves in the sidecar. -/
theorem broadcast_timestamps (g : HubInner) (d : Disk) (data : List UInt8) (io : BroadcastIo) :
    (g.broadcast d data io).2.timestamps = if g.log = true ∧ io.log = .ok ∧ g.timestamps = true
      then d.timestamps ++ io.timestamps.written (captureRow g.nextOffset data.length io.now)
      else d.timestamps := by
  unfold HubInner.broadcast HubInner.broadcastUpTo HubInner.capture
  obtain ⟨now,log,timestamps⟩ := io
  cases hlog : g.log with
  | false => simp
  | true =>
    cases log with
    | failed k error => simp
    | ok => cases htimestamps : g.timestamps <;> simp

theorem broadcast_timestamps_open {g : HubInner} (d : Disk) (data : List UInt8)
    {io : BroadcastIo} (hlog : io.log = .ok) (htimestamps : io.timestamps = .ok) :
    (g.broadcast d data io).1.timestamps = g.timestamps := by
  obtain ⟨now,log,timestamps⟩ := io
  dsimp only at hlog htimestamps
  subst hlog htimestamps
  unfold HubInner.broadcast HubInner.broadcastUpTo HubInner.capture
  cases hopen : g.log with
  | false => simp [HubInner.deliver,HubInner.retain]
  | true => cases hrow : g.timestamps <;> simp [HubInner.deliver,HubInner.retain,hrow,WriteResult.isOk]

/-- A broadcast that is captured: the chunk is appended to the log. -/
theorem step_broadcast {data : List UInt8} {now : UInt64} {log timestamps : WriteResult}
    (h : w.step (.broadcast data now log timestamps) = some w') :
    (w.hub.log = true → w.disk.log.length + (log.written data).length ≤ MAX_FILE_LEN) ∧
      w' = ⟨(w.hub.broadcast w.disk data ⟨now.toNat,log,timestamps⟩).1,
        (w.hub.broadcast w.disk data ⟨now.toNat,log,timestamps⟩).2,
        if w.hub.log ∧ log = .ok then w.chunks ++ [⟨w.disk.log.length,data,now.toNat⟩]
          else w.chunks⟩ := by
  simp only [step] at h
  split_ifs at h with hbig hcaptured
  · obtain rfl := Option.some.inj h
    exact ⟨fun hlog => by by_contra hlt; exact hbig ⟨hlog,by omega⟩,by rw [if_pos hcaptured]⟩
  · obtain rfl := Option.some.inj h
    exact ⟨fun hlog => by by_contra hlt; exact hbig ⟨hlog,by omega⟩,by rw [if_neg hcaptured]⟩

/-- The capture is configured: a fresh log starts with an empty sidecar. -/
theorem Good.configureLog (h : w.Good p) (io : ConfigureIo) :
    Good p { w with
      hub := (w.hub.configureLog w.disk io).1, disk := (w.hub.configureLog w.disk io).2 } := by
  refine ⟨?_,?_,?_,?_⟩
  · intro hlog
    dsimp only at hlog ⊢
    rw [HubInner.configureLog_disk]
    unfold HubInner.configureLog at hlog ⊢
    split_ifs at hlog ⊢ with hnoop
    · exact h.nextOffset hlog
    · rfl
    · rfl
  · dsimp only
    rw [HubInner.configureLog_disk]
    exact h.fits
  · intro c hc
    dsimp only
    rw [HubInner.configureLog_disk]
    exact h.chunks c hc
  · dsimp only
    unfold HubInner.configureLog
    split_ifs
    · exact h.sidecar
    · exact readable_nil
    · exact h.sidecar

/-- A chunk that the log has taken whole, with what its row has become. -/
theorem Good.captured (h : w.Good p) (hlog : w.hub.log = true) {data : List UInt8}
    (hroom : w.disk.log.length + data.length ≤ MAX_FILE_LEN) (now : UInt64)
    (timestamps : WriteResult) :
    Good p ⟨(w.hub.broadcast w.disk data ⟨now.toNat,.ok,timestamps⟩).1,
      (w.hub.broadcast w.disk data ⟨now.toNat,.ok,timestamps⟩).2,
      w.chunks ++ [⟨w.disk.log.length,data,now.toNat⟩]⟩ := by
  have hdisk : (w.hub.broadcast w.disk data ⟨now.toNat,.ok,timestamps⟩).2.log =
      w.disk.log ++ data := by
    rw [HubInner.broadcast_disk,if_pos hlog]
    rfl
  have hnow : now.toNat ≤ U64_MAX := by
    have := now.toNat_lt
    unfold U64_MAX
    omega
  have hmax := MAX_FILE_LEN_lt
  have hfits : Captured.Fits ⟨w.disk.log.length,data,now.toNat⟩ :=
    ⟨by dsimp only; omega,hnow⟩
  refine ⟨fun _ => ?_,?_,?_,?_⟩
  · dsimp only
    rw [HubInner.broadcast_nextOffset,hdisk,h.nextOffset hlog,List.length_append]
    omega
  · dsimp only
    rw [hdisk,List.length_append]
    exact hroom
  · intro c hc
    dsimp only at hc ⊢
    rw [hdisk,List.length_append]
    rcases List.mem_append.mp hc with hc | hc
    · obtain ⟨hholds,hle,htime⟩ := h.chunks c hc
      exact ⟨hholds.append data,by omega,htime⟩
    · obtain rfl := List.mem_singleton.mp hc
      exact ⟨holdsAt_end _ _,by dsimp only; omega,hnow⟩
  · dsimp only
    rw [broadcast_timestamps]
    split_ifs
    · rw [captureRow_eq,h.nextOffset hlog]
      cases timestamps with
      | ok => exact h.sidecar.wrote hfits
      | failed k error => exact h.sidecar.torn hfits k
    · exact h.sidecar.more _

/-- A chunk that the log has not taken whole: there is no capture, or it is closed now. -/
theorem Good.uncaptured (h : w.Good p) {data : List UInt8} {log : WriteResult}
    (hroom : w.hub.log = true → w.disk.log.length + (log.written data).length ≤ MAX_FILE_LEN)
    (hcaptured : ¬(w.hub.log = true ∧ log = .ok)) (now : UInt64) (timestamps : WriteResult) :
    Good p { w with
      hub := (w.hub.broadcast w.disk data ⟨now.toNat,log,timestamps⟩).1
      disk := (w.hub.broadcast w.disk data ⟨now.toNat,log,timestamps⟩).2 } := by
  have hstamps : (w.hub.broadcast w.disk data ⟨now.toNat,log,timestamps⟩).2.timestamps =
      w.disk.timestamps := by
    rw [broadcast_timestamps,if_neg]
    rintro ⟨hlog,hok,-⟩
    exact hcaptured ⟨hlog,hok⟩
  have hgrows : ∃ more, (w.hub.broadcast w.disk data ⟨now.toNat,log,timestamps⟩).2.log =
      w.disk.log ++ more ∧ w.disk.log.length + more.length ≤ MAX_FILE_LEN := by
    rw [HubInner.broadcast_disk]
    split_ifs with hlog
    · exact ⟨_,rfl,hroom hlog⟩
    · exact ⟨[],(List.append_nil _).symm,h.fits⟩
  obtain ⟨more,hdisk,hfits⟩ := hgrows
  refine ⟨?_,?_,?_,?_⟩
  · intro hopen
    dsimp only at hopen
    rw [HubInner.broadcast_log,Bool.and_eq_true] at hopen
    refine absurd ⟨hopen.1,?_⟩ hcaptured
    cases log with
    | ok => rfl
    | failed k error => cases hopen.2
  · dsimp only
    rw [hdisk,List.length_append]
    exact hfits
  · intro c hc
    dsimp only
    obtain ⟨hholds,hle,htime⟩ := h.chunks c hc
    rw [hdisk,List.length_append]
    exact ⟨hholds.append more,by omega,htime⟩
  · dsimp only
    rw [hstamps]
    exact h.sidecar

theorem good_step (w : CaptureWorld) (e : CaptureEvent) (w' : CaptureWorld)
    (hstep : w.step e = some w') (h : w.Good p) : w'.Good p := by
  cases e with
  | configureLog io =>
    obtain rfl := Option.some.inj hstep
    exact h.configureLog io
  | broadcast data now log timestamps =>
    obtain ⟨hroom,rfl⟩ := step_broadcast hstep
    by_cases hcaptured : w.hub.log = true ∧ log = .ok
    · obtain ⟨hlog,rfl⟩ := hcaptured
      rw [if_pos ⟨hlog,rfl⟩]
      exact h.captured hlog (hroom hlog) now timestamps
    · rw [if_neg hcaptured]
      exact h.uncaptured hroom hcaptured now timestamps

/-- The invariant of a run without failures: the sidecar has the row of every chunk, and the
chunks are the whole log. -/
structure Whole (w : CaptureWorld) : Prop where
  closed : w.hub.log = false → w.chunks = [] ∧ w.disk = ⟨[],[]⟩
  opened : w.hub.log = true → w.hub.timestamps = true
  abuts : Abuts 0 (w.chunks.map Captured.row) w.disk.log.length
  text : w.disk.timestamps = unlines (w.chunks.map fun c => rowText c.row)

theorem whole_start : start.Whole where
  closed _ := ⟨rfl,rfl⟩
  opened h := by cases h
  abuts := rfl
  text := rfl

theorem Whole.rowsCover (h : w.Whole) (hgood : w.Good p) : w.RowsCover p := by
  intro lo hi
  have hchars : ∀ l ∈ w.chunks.map fun c => rowText c.row, IsRowText l := by
    intro l hl
    obtain ⟨c,-,rfl⟩ := List.mem_map.mp hl
    exact isRowText_rowText c.row
  have hlines : Lines.lines w.disk.timestamps = w.chunks.map fun c => rowText c.row := by
    have htail : IsRowText [] := by simp [IsRowText]
    have := lines_unlines hchars htail
    rwa [if_pos rfl,List.append_nil,List.append_nil,← h.text] at this
  have hparsed : (Lines.lines w.disk.timestamps).filterMap p.parse = w.chunks.map Captured.row := by
    rw [hlines,List.filterMap_map,← List.filterMap_eq_map]
    apply List.filterMap_congr
    intro c hc
    exact p.parse_row (hgood.chunk_fits c hc)
  have hfits := hgood.fits
  have hmax := MAX_FILE_LEN_lt
  have htiles : Tiles (max 0 lo) (clipRows lo hi 0 (w.chunks.map Captured.row)) _ :=
    tiles_clipRows h.abuts (by omega) (Nat.le_refl 0)
  rwa [← hparsed,← clipLines_eq,Nat.zero_max] at htiles

theorem whole_step (w : CaptureWorld) (e : CaptureEvent) (w' : CaptureWorld)
    (hstep : w.step e = some w') (he : e.Succeeds) (h : w.Whole) (hgood : w.Good p) :
    w'.Whole := by
  cases e with
  | configureLog io =>
    obtain rfl := Option.some.inj hstep
    have htimestamps : io.timestamps = true := he
    by_cases hnoop : w.hub.log = true ∨ ¬io.log = true
    · have hsame : w.hub.configureLog w.disk io = (w.hub,w.disk) := if_pos hnoop
      rw [hsame]
      exact h
    · have hclosed : w.hub.log = false := Bool.eq_false_iff.mpr (not_or.mp hnoop).1
      obtain ⟨hchunks,hdisk⟩ := h.closed hclosed
      unfold HubInner.configureLog
      simp only [if_neg hnoop,hdisk,htimestamps]
      refine ⟨?_,fun _ => rfl,?_,?_⟩
      · intro hlog
        cases hlog
      · rw [hchunks]
        rfl
      · rw [hchunks]
        rfl
  | broadcast data now log timestamps =>
    obtain ⟨hlog,htimestamps⟩ := he
    subst hlog htimestamps
    obtain ⟨-,rfl⟩ := step_broadcast hstep
    have hstamps : (w.hub.broadcast w.disk data ⟨now.toNat,.ok,.ok⟩).1.timestamps =
        w.hub.timestamps := broadcast_timestamps_open w.disk data rfl rfl
    cases hopen : w.hub.log with
    | false =>
      obtain ⟨hchunks,hdisk⟩ := h.closed hopen
      have hlog : (w.hub.broadcast w.disk data ⟨now.toNat,.ok,.ok⟩).2 = w.disk := by
        simp [HubInner.broadcast,HubInner.broadcastUpTo,HubInner.capture,hopen]
      simp only [Bool.false_eq_true,false_and,if_false,hlog]
      refine ⟨fun _ => ⟨hchunks,hdisk⟩,?_,h.abuts,h.text⟩
      intro hlog'
      dsimp only at hlog'
      rw [HubInner.broadcast_log,hopen] at hlog'
      cases hlog'
    | true =>
      have hdisk : (w.hub.broadcast w.disk data ⟨now.toNat,.ok,.ok⟩).2.log =
          w.disk.log ++ data := by
        rw [HubInner.broadcast_disk,if_pos hopen]
        rfl
      simp only [true_and,if_true]
      refine ⟨?_,fun _ => hstamps.trans (h.opened hopen),?_,?_⟩
      · intro hlog'
        dsimp only at hlog'
        rw [HubInner.broadcast_log,hopen] at hlog'
        cases hlog'
      · dsimp only
        rw [hdisk,List.map_append,List.length_append]
        exact h.abuts.snoc data.length now.toNat
      · dsimp only
        rw [broadcast_timestamps,if_pos ⟨hopen,rfl,h.opened hopen⟩,h.text,List.map_append,
          List.map_singleton,unlines_snoc,hgood.nextOffset hopen,captureRow_eq]
        rfl

/-- Whatever fails, the rows that a window shows are captured chunks, clipped; and in a run
without failures they cover the window up to the log's end. -/
theorem always_rows_decode (p : RowParser) (es : List CaptureEvent) :
    Transition.Always step (RowsCaptured p) start es ∧
      ((∀ e ∈ es, e.Succeeds) → Transition.Always step (RowsCover p) start es) := by
  constructor
  · exact Transition.always_of_meets (C := fun _ _ => True)
      (fun w e w' hstep _ => good_step w e w' hstep) (fun _ h => h.rowsCaptured)
      (Transition.meets_true _ _) (good_start p)
  · intro hsucceeds
    exact Transition.always_of_meets (I := fun w => w.Whole ∧ w.Good p)
      (C := fun _ e => e.Succeeds)
      (fun w e w' hstep he h => ⟨whole_step w e w' hstep he h.1 h.2,good_step w e w' hstep h.2⟩)
      (fun _ h => h.1.rowsCover h.2) (Transition.meets_of_forall hsucceeds _)
      ⟨whole_start,good_start p⟩

/-- Two chunks, the second one empty. -/
def capturedRun : List CaptureEvent :=
  [.configureLog ⟨true,true⟩,.broadcast [65,66] 7 .ok .ok,.broadcast [] 8 .ok .ok]

theorem always_rows_decode_plain :
    Transition.Always step (RowsCaptured plainRows) start capturedRun ∧
      Transition.Always step (RowsCover plainRows) start capturedRun :=
  ⟨(always_rows_decode plainRows capturedRun).1,
    (always_rows_decode plainRows capturedRun).2
      (by simp [capturedRun,CaptureEvent.Succeeds])⟩

end CaptureWorld
end Babysit
