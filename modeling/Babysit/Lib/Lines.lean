import Babysit.Lib.Mealy
import Mathlib.Data.List.DropRight

/-! The lines of a text, and a filter on lines that sees the text in pieces. A piece is cut
into lines on its own, so what it prints is what the whole text would print there exactly
when neither of the two lines that the cuts divide makes a difference. -/
namespace Lines

/-- The line without the carriage return of a line ending. -/
def stripCr (line : List Char) : List Char :=
  if line.getLast? = some '\r' then line.dropLast else line

/-- The state is the line that is not finished. -/
def machine : Mealy (List Char) Char (List Char) where
  next line c := if c = '\n' then [] else line++[c]
  emit line c := if c = '\n' then [stripCr line] else []

def complete (text : List Char) : List (List Char) := machine.out [] text

def unfinished (text : List Char) : List Char := machine.state [] text

/-- An unfinished line at the end counts as a line, unless it is empty. -/
def lines (text : List Char) : List (List Char) :=
  complete text ++ if unfinished text = [] then [] else [unfinished text]

/-- The text without the line that is not finished. -/
def completeText (text : List Char) : List Char := text.rdropWhile (· ≠ '\n')

/-- The lines that match, each with its number. -/
def numbered (re : List Char → Bool) (n : ℕ) (ls : List (List Char)) : List (List Char × ℕ) :=
  (ls.zipIdx n).filter fun p => re p.1

/-- The cuts before and behind a piece do not matter: the unfinished line at its end does not
match; and the rest of the line the piece begins in is that line, or neither matches. -/
def CutsHarmless (re : List Char → Bool) (line piece : List Char) : Prop :=
  (unfinished piece = [] ∨ re (unfinished piece) = false) ∧
    ('\n' ∈ piece →
      let rest := piece.takeWhile (· ≠ '\n')
      stripCr rest = stripCr (line++rest) ∨
        (re (stripCr rest) = false ∧ re (stripCr (line++rest)) = false))

instance (re : List Char → Bool) (line piece : List Char) :
    Decidable (CutsHarmless re line piece) := inferInstanceAs (Decidable (_ ∧ _))

variable {re : List Char → Bool} {text piece line rest : List Char} {n : ℕ}

theorem machine_of_not_mem (h : '\n' ∉ piece) (line : List Char) :
    machine.out line piece = [] ∧ machine.state line piece = line++piece := by
  induction piece generalizing line with
  | nil => simp
  | cons c piece ih =>
    obtain ⟨hc,hpiece⟩ := not_or.mp (List.mem_cons.not.mp h)
    obtain ⟨hout,hstate⟩ := ih hpiece (line++[c])
    rw [Mealy.out_cons,Mealy.state_cons]
    simp only [machine,Ne.symm hc,if_false] at hout hstate ⊢
    exact ⟨hout,by simpa using hstate⟩

/-- Behind its first line end a piece has the same lines whatever came before it. -/
theorem machine_of_line_end (h : '\n' ∉ rest) (line more : List Char) :
    machine.out line (rest ++ '\n'::more) = stripCr (line++rest)::machine.out [] more ∧
      machine.state line (rest ++ '\n'::more) = machine.state [] more := by
  obtain ⟨hout,hstate⟩ := machine_of_not_mem h line
  rw [Mealy.out_append,Mealy.state_append,hout,hstate]
  exact ⟨rfl,rfl⟩

/-- A text without a line end is one line, unless it is empty. -/
theorem lines_of_not_mem (h : '\n' ∉ line) : lines line = if line = [] then [] else [line] := by
  obtain ⟨hout,hstate⟩ := machine_of_not_mem h []
  rw [lines,complete,unfinished,hout,hstate]
  rfl

/-- The first line of a text, and the lines behind it. -/
theorem lines_cons (h : '\n' ∉ line) (more : List Char) :
    lines (line ++ '\n'::more) = stripCr line :: lines more := by
  obtain ⟨hout,hstate⟩ := machine_of_line_end h [] more
  rw [lines,complete,unfinished,hout,hstate]
  rfl

theorem complete_append (text more : List Char) :
    complete (text++more) = complete text ++ machine.out (unfinished text) more :=
  machine.out_append [] text more

theorem unfinished_append (text more : List Char) :
    unfinished (text++more) = machine.state (unfinished text) more :=
  machine.state_append [] text more

theorem unfinished_snoc_newline (text : List Char) : unfinished (text++['\n']) = [] := by
  rw [unfinished_append]
  rfl

/-- The lines of a text without its unfinished line are the complete ones. -/
theorem lines_completeText (text : List Char) : lines (completeText text) = complete text := by
  induction text using List.reverseRecOn with
  | nil => rfl
  | append_singleton text c ih =>
    by_cases hc : c = '\n'
    · subst hc
      rw [completeText,List.rdropWhile_concat_neg _ _ _ (by simp),lines,unfinished_snoc_newline]
      simp
    · have hdrop : completeText (text++[c]) = completeText text :=
        List.rdropWhile_concat_pos _ _ _ (by simpa using hc)
      rw [hdrop,ih,complete_append]
      simp [machine,hc]

theorem numbered_append (re : List Char → Bool) (n : ℕ) (ls ms : List (List Char)) :
    numbered re n (ls++ms) = numbered re n ls ++ numbered re (n+ls.length) ms := by
  rw [numbered,List.zipIdx_append,List.filter_append]
  rfl

theorem numbered_cons (re : List Char → Bool) (n : ℕ) (l : List Char) (ls : List (List Char)) :
    numbered re n (l::ls) = (if re l then [(l,n)] else []) ++ numbered re (n+1) ls := by
  rw [numbered,List.zipIdx_cons,List.filter_cons]
  split_ifs <;> rfl

theorem number_le {p : List Char × ℕ} {ls : List (List Char)} (h : p ∈ numbered re n ls) :
    n ≤ p.2 := by
  exact List.le_snd_of_mem_zipIdx (List.mem_of_mem_filter h)

theorem texts_numbered (re : List Char → Bool) (n : ℕ) (ls : List (List Char)) :
    (numbered re n ls).map Prod.fst = ls.filter re := by
  induction ls generalizing n with
  | nil => rfl
  | cons l ls ih =>
    rw [numbered_cons,List.map_append,ih,List.filter_cons]
    split_ifs <;> rfl

theorem numbered_singleton_eq_nil (n : ℕ) (l : List Char) :
    numbered re n [l] = [] ↔ re l = false := by
  rw [numbered_cons]
  cases re l <;> simp [numbered]

/-- The matches of later lines do not hide what the first line is. -/
theorem numbered_cons_eq_iff (re : List Char → Bool) (n : ℕ) (x y : List Char)
    (ls tail : List (List Char)) :
    numbered re n (x::(ls++tail)) = numbered re n (y::ls) ↔
      (x = y ∨ (re x = false ∧ re y = false)) ∧ numbered re (n+1+ls.length) tail = [] := by
  have hlater : ∀ ms, (numbered re (n+1) ms).filter (fun p => p.2 = n) = [] := by
    intro ms
    rw [List.filter_eq_nil_iff]
    intro p hp
    have := number_le hp
    simp only [decide_eq_true_eq]
    omega
  have hfirst : ∀ l, (if re l then [(l,n)] else []).filter (fun p => p.2 = n) =
      if re l then [(l,n)] else [] := by
    intro l
    split_ifs <;> simp
  rw [numbered_cons,numbered_cons]
  constructor
  · intro h
    have hxy : (if re x then [(x,n)] else []) = if re y then [(y,n)] else [] := by
      have := congrArg (List.filter fun p => p.2 = n) h
      rwa [List.filter_append,List.filter_append,hlater,hlater,List.append_nil,List.append_nil,
        hfirst,hfirst] at this
    rw [hxy,List.append_cancel_left_eq,numbered_append,List.append_right_eq_self] at h
    refine ⟨?_,h⟩
    cases hx : re x <;> cases hy : re y <;> simp_all
  · rintro ⟨hxy,htail⟩
    rw [numbered_append,htail,List.append_nil]
    congr 1
    rcases hxy with rfl | ⟨hx,hy⟩
    · rfl
    · simp [hx,hy]

/-- What a piece prints is what the whole text prints in its place exactly when its cuts are
harmless. -/
theorem numbered_piece_iff (re : List Char → Bool) (n : ℕ) (line piece : List Char) :
    numbered re n (lines piece) = numbered re n (machine.out line piece) ↔
      CutsHarmless re line piece := by
  by_cases hend : '\n' ∈ piece
  · have hrest : '\n' ∉ piece.takeWhile (· ≠ '\n') := by
      intro h
      simpa using List.mem_takeWhile_imp h
    obtain ⟨more,hmore⟩ : ∃ more, piece = piece.takeWhile (· ≠ '\n') ++ '\n'::more := by
      have hsplit := List.takeWhile_append_dropWhile (p := (· ≠ '\n')) (l := piece)
      cases hdrop : piece.dropWhile (· ≠ '\n') with
      | nil =>
        rw [List.dropWhile_eq_nil_iff] at hdrop
        simpa using hdrop '\n' hend
      | cons c more =>
        have hc : c = '\n' := by
          have := List.head?_dropWhile_not (· ≠ '\n') piece
          rw [hdrop] at this
          simpa using this
        rw [hdrop,hc] at hsplit
        exact ⟨more,hsplit.symm⟩
    simp only [CutsHarmless,hend,true_imp_iff]
    generalize piece.takeWhile (· ≠ '\n') = rest at hrest hmore
    subst hmore
    obtain ⟨hout,-⟩ := machine_of_line_end hrest line more
    obtain ⟨hfresh,hstate⟩ := machine_of_line_end hrest [] more
    rw [List.nil_append] at hfresh
    rw [lines,complete,unfinished,hfresh,hstate,hout,List.cons_append,numbered_cons_eq_iff,and_comm]
    refine and_congr_left fun _ => ?_
    split_ifs with hnone
    · simp [hnone,numbered]
    · rw [numbered_singleton_eq_nil]
      simp [hnone]
  · obtain ⟨hout,-⟩ := machine_of_not_mem hend line
    obtain ⟨hfresh,hstate⟩ := machine_of_not_mem hend []
    rw [List.nil_append] at hstate
    simp only [CutsHarmless,hend,false_imp_iff,and_true]
    rw [lines,complete,unfinished,hfresh,hstate,hout,List.nil_append]
    split_ifs with hnone
    · simp [hnone,numbered]
    · have hnil : numbered re n [] = [] := rfl
      rw [hnil,numbered_singleton_eq_nil]
      simp [hnone]

theorem machine_not_mem (line text : List Char) (h : '\n' ∉ line) :
    (∀ l ∈ machine.out line text, '\n' ∉ l) ∧ '\n' ∉ machine.state line text := by
  induction text generalizing line with
  | nil => exact ⟨by simp,h⟩
  | cons c text ih =>
    rw [Mealy.out_cons,Mealy.state_cons]
    by_cases hc : c = '\n'
    · obtain ⟨hout,hstate⟩ := ih (machine.next line c) (by simp [machine,hc])
      refine ⟨fun l hl => ?_,hstate⟩
      rcases List.mem_append.mp hl with hl | hl
      · rw [show machine.emit line c = [stripCr line] from if_pos hc,List.mem_singleton] at hl
        rw [hl,stripCr]
        split_ifs
        · exact fun hmem => h ((List.dropLast_sublist line).subset hmem)
        · exact h
      · exact hout l hl
    · obtain ⟨hout,hstate⟩ := ih (machine.next line c) (by simp [machine,hc,h,Ne.symm hc])
      rw [show machine.emit line c = [] from if_neg hc]
      exact ⟨hout,hstate⟩

theorem not_mem_of_mem_lines {l : List Char} (h : l ∈ lines text) : '\n' ∉ l := by
  obtain ⟨hout,hstate⟩ := machine_not_mem [] text List.not_mem_nil
  rcases List.mem_append.mp h with h | h
  · exact hout l h
  · split_ifs at h
    · exact absurd h List.not_mem_nil
    · rw [List.mem_singleton.mp h]
      exact hstate

/-! The lines with their line ends. -/

/-- As `machine`, with the line end kept. -/
def endsKept : Mealy (List Char) Char (List Char) where
  next := machine.next
  emit line c := if c = '\n' then [line++['\n']] else []

/-- A line that nothing ends counts as in `lines`. -/
def withEnds (text : List Char) : List (List Char) :=
  endsKept.out [] text ++ if unfinished text = [] then [] else [unfinished text]

/-- A text that is one line, ended or not. -/
def IsLine (line : List Char) : Prop :=
  ∃ rest, '\n' ∉ rest ∧ ((line = rest ∧ rest ≠ []) ∨ line = rest++['\n'])

theorem endsKept_state (line text : List Char) :
    endsKept.state line text = machine.state line text := rfl

theorem length_endsKept (line text : List Char) :
    (endsKept.out line text).length = (machine.out line text).length := by
  induction text generalizing line with
  | nil => rfl
  | cons c text ih =>
    have hhead : (endsKept.emit line c).length = (machine.emit line c).length := by
      simp only [endsKept,machine]
      split_ifs <;> rfl
    rw [Mealy.out_cons,Mealy.out_cons,List.length_append,List.length_append,hhead]
    exact congrArg _ (ih (machine.next line c))

/-- There are as many lines with their ends as without. -/
theorem length_withEnds (text : List Char) : (withEnds text).length = (lines text).length := by
  rw [withEnds,lines,List.length_append,List.length_append,length_endsKept]
  rfl

theorem endsKept_flatten (line text : List Char) :
    (endsKept.out line text).flatten ++ machine.state line text = line++text := by
  induction text generalizing line with
  | nil => simp
  | cons c text ih =>
    rw [Mealy.out_cons,Mealy.state_cons,List.flatten_append,List.append_assoc]
    have := ih (machine.next line c)
    simp only [endsKept,machine] at this ⊢
    rw [this]
    split_ifs with hc <;> simp [hc]

theorem withEnds_flatten (text : List Char) : (withEnds text).flatten = text := by
  have hflat := endsKept_flatten [] text
  rw [withEnds,List.flatten_append]
  split_ifs with hnone
  · rw [List.flatten_nil]
    rwa [show machine.state [] text = [] from hnone] at hflat
  · simpa [unfinished] using hflat

theorem withEnds_append {front : List Char} (h : unfinished front = []) (text : List Char) :
    withEnds (front++text) = withEnds front ++ withEnds text := by
  have hstate : endsKept.state [] front = [] := h
  rw [withEnds,withEnds,withEnds,endsKept.out_append,unfinished_append,hstate,h,if_pos rfl,
    List.append_nil,List.append_assoc]
  rfl

theorem unfinished_eq_nil_iff (text : List Char) :
    unfinished text = [] ↔ text = [] ∨ text.getLast? = some '\n' := by
  induction text using List.reverseRecOn with
  | nil => simp [unfinished]
  | append_singleton text c =>
    rw [unfinished_append]
    by_cases hc : c = '\n' <;> simp [machine,hc]

theorem endsKept_of_not_mem (h : '\n' ∉ text) (line : List Char) : endsKept.out line text = [] := by
  rw [← List.length_eq_zero_iff,length_endsKept,(machine_of_not_mem h line).1]
  rfl

theorem withEnds_line (h : IsLine line) : withEnds line = [line] := by
  obtain ⟨rest,hrest,hline⟩ := h
  have hout := endsKept_of_not_mem hrest []
  have hstate : machine.state [] rest = rest := (machine_of_not_mem hrest []).2
  rcases hline with ⟨rfl,hne⟩ | rfl
  · rw [withEnds,hout,unfinished,hstate,if_neg hne]
    rfl
  · rw [withEnds,unfinished_snoc_newline,if_pos rfl,endsKept.out_append,hout,endsKept_state,hstate]
    simp [endsKept]

theorem unfinished_completeText (text : List Char) : unfinished (completeText text) = [] := by
  rw [unfinished_eq_nil_iff]
  induction text using List.reverseRecOn with
  | nil => exact .inl rfl
  | append_singleton text c ih =>
    rw [completeText]
    by_cases hc : c = '\n'
    · rw [List.rdropWhile_concat_neg _ _ _ (by simpa using hc)]
      simp [hc]
    · rw [List.rdropWhile_concat_pos _ _ _ (by simpa using hc)]
      exact ih

/-- A text that is not empty ends in a line. -/
theorem exists_last_line (h : text ≠ []) :
    ∃ front line, text = front++line ∧ unfinished front = [] ∧ IsLine line := by
  have hcut : ∀ body : List Char, ∃ rest, '\n' ∉ rest ∧ body = completeText body ++ rest := by
    intro body
    refine ⟨body.rtakeWhile (· ≠ '\n'),?_,List.rdropWhile_append_rtakeWhile.symm⟩
    intro hmem
    simpa using List.mem_rtakeWhile_imp hmem
  obtain ⟨body,c,rfl⟩ := (List.eq_nil_or_concat' text).resolve_left h
  by_cases hc : c = '\n'
  · subst hc
    obtain ⟨rest,hrest,hbody⟩ := hcut body
    refine ⟨completeText body,rest++['\n'],?_,unfinished_completeText body,rest,hrest,.inr rfl⟩
    rw [← List.append_assoc,← hbody]
  · obtain ⟨rest,hrest,hbody⟩ := hcut (body++[c])
    refine ⟨completeText (body++[c]),rest,hbody,unfinished_completeText _,rest,hrest,
      .inl ⟨rfl,?_⟩⟩
    rintro rfl
    rw [List.append_nil] at hbody
    have hend := (unfinished_eq_nil_iff _).mp (unfinished_completeText (body++[c]))
    rw [← hbody] at hend
    simp [hc] at hend

/-- A text is made by writing one line behind another. -/
theorem line_induction {motive : List Char → Prop} (nil : motive [])
    (snoc : ∀ front line, unfinished front = [] → IsLine line → motive front →
      motive (front++line)) (text : List Char) : motive text := by
  induction h : text.length using Nat.strongRecOn generalizing text with
  | ind n ih =>
    by_cases hne : text = []
    · rw [hne]
      exact nil
    · obtain ⟨front,line,rfl,hfront,hline⟩ := exists_last_line hne
      refine snoc front line hfront hline (ih front.length ?_ front rfl)
      have hpos : 0 < line.length := by
        obtain ⟨rest,-,⟨rfl,hrest⟩ | rfl⟩ := hline
        · exact List.length_pos_iff.mpr hrest
        · simp
      rw [← h,List.length_append]
      omega

end Lines
