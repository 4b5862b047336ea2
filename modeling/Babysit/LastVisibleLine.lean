import Babysit.Durations
import Babysit.Lib.Splits
import Babysit.Lib.Utf8

/-! The line that `list` shows of a session: `read_last_output_line` takes the log's tail through
`strip_ansi_escapes::strip`, which is a parameter, and `last_visible_line` looks for the latest
frame at carriage returns and newlines. The strip has dropped the carriage returns by then. -/
namespace Babysit
open Splits

/-- The Unicode category `Cc`. -/
def isControl (c : Char) : Bool := c.toNat < 0x20 ∨ (0x7f ≤ c.toNat ∧ c.toNat ≤ 0x9f)

def trimEnd (s : List Char) : List Char := s.rdropWhile isWhitespace

def lastVisibleLine (text : List Char) : Option (List Char) :=
  (lastWith (fun l => trim l ≠ [])
      ((text.splitOnP fun c => c = '\n' || c = '\r').map trimEnd)).bind fun line =>
    let cleaned := trim (line.filter fun c => !isControl c)
    if cleaned = [] then none else some cleaned

def TAIL_BYTES : ℕ := 8192

/-- A log that cannot be opened has no line. -/
def readLastOutputLine (strip : List UInt8 → List UInt8) (log : Option (List UInt8)) :
    Option (List Char) :=
  log.bind fun bytes =>
    lastVisibleLine (Utf8.decodeLossy (strip (bytes.drop (bytes.length - TAIL_BYTES))))

/-- What the strip leaves of the visible text: no C0 control but the newline. -/
def kept (c : Char) : Bool := c = '\n' || !decide (c.toNat < 0x20)

/-- The strip writes the visible text, without its C0 controls, in UTF-8. -/
structure Strips (strip : List UInt8 → List UInt8) (visible : List UInt8 → List Char) : Prop where
  writes : ∀ bytes, strip bytes = Utf8.encode ((visible bytes).filter kept)

def isVisible (c : Char) : Bool := !isWhitespace c && !isControl c

/-- A character that the strip leaves and that is not a blank. -/
def isSolid (c : Char) : Bool := !isWhitespace c && !decide (c.toNat < 0x20)

/-- The last piece between carriage returns and newlines with a visible character, trimmed and
without control characters. -/
def latestFrame (visible : List Char) : Option (List Char) :=
  (lastWith (fun piece => piece.any isVisible)
      (visible.splitOnP fun c => c = '\n' || c = '\r')).map fun piece =>
    trim (piece.filter fun c => !isControl c)

/-- There is nothing to see, or the last line with a solid character has, between its carriage
returns, one piece with a visible character. -/
def OneFrame (visible : List Char) : Prop :=
  (∀ c ∈ visible, isVisible c = false) ∨
    ∃ line, lastWith (fun l => l.any isSolid) (visible.splitOnP (· = '\n')) = some line ∧
      (line.splitOnP (· = '\r')).countP (fun piece => piece.any isVisible) = 1

section Chars
variable {c : Char} {s x : List Char}

theorem isSolid_of_visible (h : isVisible c = true) : isSolid c = true := by
  simp only [isVisible,isControl,isSolid,Bool.and_eq_true] at h ⊢
  refine ⟨h.1,?_⟩
  have := h.2
  simp only [Bool.not_eq_true',decide_eq_false_iff_not] at this ⊢
  omega

theorem separators_not_visible (h : isVisible c = true) : c ≠ '\n' ∧ c ≠ '\r' := by
  constructor
  · rintro rfl
    exact absurd h (by decide)
  · rintro rfl
    exact absurd h (by decide)

theorem trim_eq_nil : trim s = [] ↔ Blank s := by
  constructor
  · intro h
    obtain ⟨a,c,hs,ha,hc⟩ := trim_split s
    rw [hs,h]
    intro y hy
    rcases List.mem_append.mp hy with hy | hy
    · exact ha y hy
    · exact hc y hy
  · intro h
    have := trim_of_bare (a := s) (c := []) (x := []) h (by simp [Bare]) (by simp [Blank])
    simpa using this

/-- Blanks around a text do not change what trimming leaves. -/
theorem trim_blank {a c : List Char} (ha : Blank a) (x : List Char) (hc : Blank c) :
    trim (a++(x++c)) = trim x := by
  obtain ⟨b,d,hx,hb,hd⟩ := trim_split x
  have hab : Blank (a++b) := fun y hy => (List.mem_append.mp hy).elim (ha y) (hb y)
  have hdc : Blank (d++c) := fun y hy => (List.mem_append.mp hy).elim (hd y) (hc y)
  have := trim_of_bare hab (trim_bare x) hdc
  rw [← this]
  nth_rewrite 1 [hx]
  simp only [List.append_assoc]

theorem trim_append_blank {c : List Char} (x : List Char) (hc : Blank c) : trim (x++c) = trim x :=
  trim_blank (a := []) (by simp [Blank]) x hc

theorem trimEnd_split (x : List Char) : ∃ c, x = trimEnd x ++ c ∧ Blank c :=
  ⟨x.rtakeWhile isWhitespace,List.rdropWhile_append_rtakeWhile.symm,
    fun _ hy => List.mem_rtakeWhile_imp hy⟩

/-- The text without its control characters, trimmed. -/
def cleaned (x : List Char) : List Char := trim (x.filter fun c => !isControl c)

theorem Blank.filter (h : Blank s) (p : Char → Bool) : Blank (s.filter p) :=
  fun y hy => h y (List.mem_of_mem_filter hy)

/-- A text without a visible character is cleaned away. -/
theorem blank_of_not_visible (h : ∀ c ∈ x, isVisible c = false) :
    Blank (x.filter fun c => !isControl c) := by
  intro c hc
  obtain ⟨hmem,hcontrol⟩ := List.mem_filter.mp hc
  have := h c hmem
  rw [isVisible,hcontrol,Bool.and_true,Bool.not_eq_false'] at this
  exact this

theorem cleaned_eq_nil : cleaned x = [] ↔ ∀ c ∈ x, isVisible c = false := by
  rw [cleaned,trim_eq_nil]
  refine ⟨fun h c hc => ?_,blank_of_not_visible⟩
  rw [isVisible]
  cases hcontrol : isControl c with
  | true => rw [Bool.not_true,Bool.and_false]
  | false =>
    rw [h c (List.mem_filter.mpr ⟨hc,by rw [hcontrol]; rfl⟩)]
    rfl

theorem countP_blank (h : Blank x) : x.countP isVisible = 0 := by
  rw [List.countP_eq_zero]
  intro c hc
  rw [isVisible,h c hc]
  simp

/-- Cleaning takes no visible character away. -/
theorem countP_cleaned (x : List Char) : (cleaned x).countP isVisible = x.countP isVisible := by
  obtain ⟨a,c,hx,ha,hc⟩ := trim_split (x.filter fun c => !isControl c)
  have hcount := congrArg (List.countP isVisible) hx
  rw [List.countP_append,List.countP_append,countP_blank ha,countP_blank hc,List.countP_filter]
    at hcount
  rw [cleaned]
  have hsame : x.countP (fun c => isVisible c && !isControl c) = x.countP isVisible := by
    apply List.countP_congr
    intro c _
    simp [isVisible]
  omega

theorem cleaned_trimEnd (x : List Char) : cleaned (trimEnd x) = cleaned x := by
  obtain ⟨c,hx,hc⟩ := trimEnd_split x
  conv_rhs => rw [hx]
  rw [cleaned,cleaned,List.filter_append,trim_append_blank _ (hc.filter _)]

theorem cleaned_filter_kept (x : List Char) : cleaned (x.filter kept) = cleaned x := by
  rw [cleaned,cleaned,List.filter_filter]
  congr 1
  apply List.filter_congr
  intro c _
  simp only [isControl,kept]
  by_cases hc : c.toNat < 0x20 <;> simp [hc]

theorem trim_kept_ne_nil (x : List Char) :
    decide (trim (trimEnd (x.filter kept)) ≠ []) = x.any isSolid := by
  obtain ⟨c,hx,hc⟩ := trimEnd_split (x.filter kept)
  have htrim : trim (trimEnd (x.filter kept)) = trim (x.filter kept) := by
    conv_rhs => rw [hx]
    rw [trim_append_blank _ hc]
  have hnewline : isWhitespace '\n' = true := by decide
  rw [htrim,Bool.eq_iff_iff,decide_eq_true_eq,List.any_eq_true,Ne,trim_eq_nil]
  simp only [Blank,List.mem_filter,isSolid,kept,not_forall]
  constructor
  · rintro ⟨c,⟨hmem,hkept⟩,hblank⟩
    refine ⟨c,hmem,?_⟩
    rcases Bool.or_eq_true _ _ |>.mp hkept with hc | hc
    · rw [decide_eq_true_eq] at hc
      rw [hc] at hblank
      exact absurd hnewline hblank
    · simp [hblank,hc]
  · rintro ⟨c,hmem,hsolid⟩
    obtain ⟨hblank,hc⟩ := Bool.and_eq_true _ _ |>.mp hsolid
    refine ⟨c,⟨hmem,by rw [hc,Bool.or_true]⟩,?_⟩
    simpa using hblank

end Chars

/-- On what the strip leaves, the last solid line is cleaned as a whole. -/
theorem lastVisibleLine_kept (visible : List Char) : lastVisibleLine (visible.filter kept) =
    (lastWith (fun l => l.any isSolid) (visible.splitOnP (· = '\n'))).bind fun line =>
      if cleaned line = [] then none else some (cleaned line) := by
  have hsplit : (visible.filter kept).splitOnP (fun c => c = '\n' || c = '\r') =
      (visible.splitOnP (· = '\n')).map (List.filter kept) := by
    rw [← splitOnP_filter (by simp [kept])]
    apply splitOnP_congr
    intro c hc
    have hkept := (List.mem_filter.mp hc).2
    by_cases hreturn : c = '\r'
    · rw [hreturn] at hkept
      exact absurd hkept (by decide)
    · simp [hreturn]
  rw [lastVisibleLine,hsplit,lastWith_map,lastWith_map]
  simp only [trim_kept_ne_nil]
  cases lastWith (fun l => l.any isSolid) (visible.splitOnP (· = '\n')) with
  | none => rfl
  | some line =>
    have hline : trim ((trimEnd (line.filter kept)).filter fun c => !isControl c) = cleaned line := by
      rw [← cleaned_filter_kept line,← cleaned_trimEnd]
      rfl
    simp only [Option.map_some,Option.bind_some,hline]

section Frames
variable {visible line frame : List Char}

theorem any_eq_false {p : Char → Bool} {x : List Char} : x.any p = false ↔ ∀ c ∈ x, p c = false := by
  simp

theorem cleaned_append_of_not_visible {a c : List Char} (ha : ∀ y ∈ a, isVisible y = false)
    (x : List Char) (hc : ∀ y ∈ c, isVisible y = false) : cleaned (a++(x++c)) = cleaned x := by
  rw [cleaned,List.filter_append,List.filter_append,
    trim_blank (blank_of_not_visible ha) _ (blank_of_not_visible hc)]
  rfl

/-- A line looks like its last frame exactly when no other frame of it shows anything. -/
theorem cleaned_line_iff (hframe : lastWith (fun piece => piece.any isVisible)
    (line.splitOnP (· = '\r')) = some frame) : cleaned line = cleaned frame ↔
      (line.splitOnP (· = '\r')).countP (fun piece => piece.any isVisible) = 1 := by
  obtain ⟨hvisible,before,after,hpieces,hafter⟩ := lastWith_eq_some.mp hframe
  have hafterNone : ∀ y ∈ after.flatten, isVisible y = false := by
    intro y hy
    obtain ⟨piece,hpiece,hmem⟩ := List.mem_flatten.mp hy
    exact any_eq_false.mp (hafter piece hpiece) y hmem
  have hline : cleaned line = cleaned (before.flatten ++ (frame ++ after.flatten)) := by
    have hflat := flatten_splitOnP (· = '\r') line
    rw [hpieces,List.flatten_append,List.flatten_cons] at hflat
    rw [hflat,cleaned,cleaned,List.filter_filter]
    congr 1
    apply List.filter_congr
    intro c _
    by_cases hc : c = '\r' <;> simp [hc,isControl]
  have hcount : (line.splitOnP (· = '\r')).countP (fun piece => piece.any isVisible) =
      before.countP (fun piece => piece.any isVisible) + 1 := by
    have hzero : after.countP (fun piece => piece.any isVisible) = 0 :=
      List.countP_eq_zero.mpr fun piece hpiece => by rw [hafter piece hpiece]; exact nofun
    rw [hpieces,List.countP_append,List.countP_cons,if_pos hvisible,hzero]
  rw [hline,hcount]
  constructor
  · intro hsame
    have hcounts := congrArg (List.countP isVisible) hsame
    rw [countP_cleaned,countP_cleaned,List.countP_append,List.countP_append] at hcounts
    have hnone : before.flatten.countP isVisible = 0 := by omega
    have hzero : before.countP (fun piece => piece.any isVisible) = 0 := by
      rw [List.countP_eq_zero] at hnone ⊢
      intro piece hpiece hany
      obtain ⟨c,hc,hvis⟩ := List.any_eq_true.mp hany
      exact hnone c (List.mem_flatten_of_mem hpiece hc) hvis
    rw [hzero]
  · intro hone
    have hzero : before.countP (fun piece => piece.any isVisible) = 0 := by omega
    refine cleaned_append_of_not_visible ?_ frame hafterNone
    intro y hy
    obtain ⟨piece,hpiece,hmem⟩ := List.mem_flatten.mp hy
    have := List.countP_eq_zero.mp hzero piece hpiece
    exact any_eq_false.mp (eq_false_of_ne_true this) y hmem

/-- The latest frame is the last one of the last solid line, where that line shows anything. -/
theorem latestFrame_of_line (hline : lastWith (fun l => l.any isSolid)
    (visible.splitOnP (· = '\n')) = some line) (hvisible : line.any isVisible = true) :
    ∃ frame, lastWith (fun piece => piece.any isVisible) (line.splitOnP (· = '\r')) = some frame ∧
      latestFrame visible = some (cleaned frame) := by
  obtain ⟨-,before,after,hlines,hafter⟩ := lastWith_eq_some.mp hline
  obtain ⟨frame,hframe⟩ : ∃ frame,
      lastWith (fun piece => piece.any isVisible) (line.splitOnP (· = '\r')) = some frame := by
    rw [← Option.ne_none_iff_exists']
    intro hnone
    obtain ⟨c,hc,hvis⟩ := List.any_eq_true.mp hvisible
    obtain ⟨piece,hpiece,hmem⟩ := exists_mem_splitOnP (p := (· = '\r')) hc
      (decide_eq_false (separators_not_visible hvis).2)
    have := any_eq_false.mp (lastWith_eq_none.mp hnone piece hpiece) c hmem
    rw [hvis] at this
    cases this
  have hlater : lastWith (fun piece => piece.any isVisible)
      (after.flatMap fun l => l.splitOnP (· = '\r')) = none := by
    rw [lastWith_eq_none]
    intro piece hpiece
    obtain ⟨l,hl,hmem⟩ := List.mem_flatMap.mp hpiece
    rw [any_eq_false]
    intro c hc
    by_contra hvis
    have hsolid := isSolid_of_visible (eq_true_of_ne_false hvis)
    rw [any_eq_false.mp (hafter l hl) c (mem_of_mem_splitOnP hmem hc)] at hsolid
    cases hsolid
  refine ⟨frame,hframe,?_⟩
  rw [latestFrame,splitOnP_or,hlines,List.flatMap_append,List.flatMap_cons,lastWith_append,
    lastWith_append,hlater,hframe]
  rfl

theorem exists_solid_line {c : Char} (hc : c ∈ visible) (hvisible : isVisible c = true) :
    ∃ line, lastWith (fun l => l.any isSolid) (visible.splitOnP (· = '\n')) = some line := by
  rw [← Option.ne_none_iff_exists']
  intro hnone
  obtain ⟨l,hl,hmem⟩ := exists_mem_splitOnP (p := (· = '\n')) hc
    (decide_eq_false (separators_not_visible hvisible).1)
  have := any_eq_false.mp (lastWith_eq_none.mp hnone l hl) c hmem
  rw [isSolid_of_visible hvisible] at this
  cases this

theorem latestFrame_eq_none : latestFrame visible = none ↔ ∀ c ∈ visible, isVisible c = false := by
  rw [latestFrame,Option.map_eq_none_iff,lastWith_eq_none]
  constructor
  · intro h c hc
    by_contra hvis
    have hvisible := eq_true_of_ne_false hvis
    obtain ⟨hnewline,hreturn⟩ := separators_not_visible hvisible
    obtain ⟨piece,hpiece,hmem⟩ := exists_mem_splitOnP (p := fun c => c = '\n' || c = '\r') hc
      (by simp [hnewline,hreturn])
    rw [any_eq_false.mp (h piece hpiece) c hmem] at hvisible
    cases hvisible
  · intro h piece hpiece
    rw [any_eq_false]
    exact fun c hc => h c (mem_of_mem_splitOnP hpiece hc)

theorem lastVisibleLine_kept_iff (visible : List Char) :
    lastVisibleLine (visible.filter kept) = latestFrame visible ↔ OneFrame visible := by
  rw [lastVisibleLine_kept]
  by_cases hnone : ∀ c ∈ visible, isVisible c = false
  · refine iff_of_true ?_ (.inl hnone)
    rw [latestFrame_eq_none.mpr hnone]
    cases hline : lastWith (fun l => l.any isSolid) (visible.splitOnP (· = '\n')) with
    | none => rfl
    | some line =>
      obtain ⟨-,before,after,hlines,-⟩ := lastWith_eq_some.mp hline
      have hmem : line ∈ visible.splitOnP (· = '\n') := by
        rw [hlines]
        simp
      exact if_pos (cleaned_eq_nil.mpr fun c hc => hnone c (mem_of_mem_splitOnP hmem hc))
  · have hsome := hnone
    push Not at hsome
    obtain ⟨c,hc,hvis⟩ := hsome
    obtain ⟨line,hline⟩ := exists_solid_line hc (eq_true_of_ne_false hvis)
    have hone : OneFrame visible ↔
        (line.splitOnP (· = '\r')).countP (fun piece => piece.any isVisible) = 1 := by
      rw [OneFrame,or_iff_right hnone,hline]
      simp
    rw [hone,hline,Option.bind_some]
    cases hvisible : line.any isVisible with
    | true =>
      obtain ⟨frame,hframe,hlatest⟩ := latestFrame_of_line hline hvisible
      have hne : cleaned line ≠ [] := by
        rw [Ne,cleaned_eq_nil,← any_eq_false,hvisible]
        nofun
      rw [if_neg hne,hlatest,Option.some.injEq]
      exact cleaned_line_iff hframe
    | false =>
      have hblank := any_eq_false.mp hvisible
      rw [if_pos (cleaned_eq_nil.mpr hblank)]
      refine iff_of_false ?_ ?_
      · intro hlatest
        exact hnone (latestFrame_eq_none.mp hlatest.symm)
      · intro hone
        have hzero : (line.splitOnP (· = '\r')).countP (fun piece => piece.any isVisible) = 0 := by
          rw [List.countP_eq_zero]
          intro piece hpiece hany
          obtain ⟨c,hc,hvis⟩ := List.any_eq_true.mp hany
          rw [hblank c (mem_of_mem_splitOnP hpiece hc)] at hvis
          cases hvis
        omega

end Frames

/-- For a log within the tail, `list` shows the latest frame, or nothing where nothing is
visible, exactly when the last line of the log has one frame to show. -/
theorem shows_latest_frame_iff (strip : List UInt8 → List UInt8) (visible : List UInt8 → List Char)
    (hstrip : Strips strip visible) (log : List UInt8) (hlog : log.length < TAIL_BYTES) :
    readLastOutputLine strip (some log) = latestFrame (visible log) ↔ OneFrame (visible log) := by
  have htail : log.drop (log.length - TAIL_BYTES) = log := by
    rw [Nat.sub_eq_zero_of_le (Nat.le_of_lt hlog),List.drop_zero]
  rw [readLastOutputLine,Option.bind_some,htail,hstrip.writes,Utf8.decodeLossy_encode]
  exact lastVisibleLine_kept_iff (visible log)

/-- What text without escape sequences shows: a C1 control is executed, not printed. -/
def plainVisible (bytes : List UInt8) : List Char :=
  (Utf8.decodeLossy bytes).filter fun c => c.toNat < 0x80 || decide (0x9f < c.toNat)

/-- The strip on text without escape sequences, as a stand-in for the package. -/
def plainStrip (bytes : List UInt8) : List UInt8 := Utf8.encode ((plainVisible bytes).filter kept)

theorem plainStrip_strips : Strips plainStrip plainVisible := ⟨fun _ => rfl⟩

/-- A progress display that is drawn twice on one line: `50%`, a carriage return, `100%`. -/
def redrawn : List UInt8 := [53,48,37,13,49,48,48,37]

theorem shows_latest_frame_iff_redrawn :
    readLastOutputLine plainStrip (some redrawn) = latestFrame (plainVisible redrawn) ↔
      OneFrame (plainVisible redrawn) :=
  shows_latest_frame_iff plainStrip plainVisible plainStrip_strips redrawn (by decide)

theorem redrawn_line_is_glued :
    readLastOutputLine plainStrip (some redrawn) = some ['5','0','%','1','0','0','%'] ∧
      latestFrame (plainVisible redrawn) = some ['1','0','0','%'] := by
  decide +kernel

end Babysit
