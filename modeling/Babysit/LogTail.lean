import Babysit.FollowLog

/-! `last_n_lines`, which looks for the line ends from the back, and the log that is filtered
before its tail is taken. -/
namespace Babysit
open Lines

/-- The text without one newline at its end. -/
def stripNewline (text : List Char) : List Char :=
  if text.getLast? = some '\n' then text.dropLast else text

/-- Where the newlines are, the last one first. -/
def rmatchIndices (text : List Char) : List ℕ :=
  ((text.zipIdx.filter fun p => p.1 = '\n').map Prod.snd).reverse

/-- The loop over the newlines that are left. -/
def tailStart (n seen : ℕ) : List ℕ → ℕ
  | [] => 0
  | i::rest => if seen+1 = n then i+1 else tailStart n (seen+1) rest

def lastNLines (text : List Char) (n : ℕ) : List Char :=
  if n = 0 then [] else text.drop (tailStart n 0 (rmatchIndices (stripNewline text)))

/-- The text of a log command: the worker cuts the tail unless there is a filter. -/
def loggedText (text : List Char) (re : Option (List Char → Bool)) (tail : Option ℕ) : List Char :=
  let serverTail := if re.isSome then none else tail
  let text := (serverTail.map (lastNLines text)).getD text
  match re with
  | some re =>
    let filtered := grepFilter text (some re)
    (tail.map (lastNLines filtered)).getD filtered
  | none => text

variable {front line text rest : List Char} {n m : ℕ}

theorem rmatchIndices_snoc (text : List Char) (c : Char) :
    rmatchIndices (text++[c]) =
      (if c = '\n' then [text.length] else []) ++ rmatchIndices text := by
  by_cases hc : c = '\n' <;> simp [rmatchIndices,List.zipIdx_append,hc]

theorem rmatchIndices_append (h : '\n' ∉ rest) (text : List Char) :
    rmatchIndices (text++rest) = rmatchIndices text := by
  induction rest using List.reverseRecOn with
  | nil => rw [List.append_nil]
  | append_singleton rest c ih =>
    obtain ⟨hrest,hc⟩ := not_or.mp (List.mem_append.not.mp h)
    rw [← List.append_assoc,rmatchIndices_snoc,ih hrest,
      if_neg fun heq => hc (List.mem_singleton.mpr heq.symm),List.nil_append]

theorem lt_of_mem_rmatchIndices {i : ℕ} (h : i ∈ rmatchIndices text) : i < text.length := by
  obtain ⟨p,hp,rfl⟩ := List.mem_map.mp (List.mem_reverse.mp h)
  simpa using List.snd_lt_of_mem_zipIdx (List.mem_of_mem_filter hp)

theorem tailStart_le (n seen : ℕ) {indices : List ℕ} (h : ∀ i ∈ indices, i < m) :
    tailStart n seen indices ≤ m := by
  induction indices generalizing seen with
  | nil => exact Nat.zero_le m
  | cons i rest ih =>
    obtain ⟨hi,hrest⟩ := List.forall_mem_cons.mp h
    rw [tailStart]
    split_ifs
    · exact hi
    · exact ih (seen+1) hrest

/-- One newline more is asked for and one more was seen. -/
theorem tailStart_succ (n seen : ℕ) (indices : List ℕ) :
    tailStart (n+1) (seen+1) indices = tailStart n seen indices := by
  induction indices generalizing seen with
  | nil => rfl
  | cons i rest ih =>
    simp only [tailStart,ih,Nat.add_right_cancel_iff]

theorem stripNewline_snoc (text : List Char) : stripNewline (text++['\n']) = text := by
  rw [stripNewline,if_pos (by simp),List.dropLast_concat]

theorem stripNewline_line (h : IsLine line) :
    ∃ rest, '\n' ∉ rest ∧ ∀ front, stripNewline (front++line) = front++rest := by
  obtain ⟨rest,hrest,⟨rfl,hne⟩ | rfl⟩ := h
  · refine ⟨line,hrest,fun front => ?_⟩
    rw [stripNewline,if_neg]
    rw [List.getLast?_append_of_ne_nil _ hne]
    exact fun hlast => hrest (List.mem_of_getLast? hlast)
  · refine ⟨rest,hrest,fun front => ?_⟩
    rw [← List.append_assoc,stripNewline_snoc]

theorem lastNLines_nil (n : ℕ) : lastNLines [] n = [] := by
  rw [lastNLines,List.drop_nil,ite_self]

/-- The last lines of a text are its last line behind those before it. -/
theorem lastNLines_snoc (hfront : unfinished front = []) (hline : IsLine line) (n : ℕ) :
    lastNLines (front++line) (n+1) = lastNLines front n ++ line := by
  obtain ⟨rest,hrest,hstrip⟩ := stripNewline_line hline
  rw [lastNLines,if_neg n.succ_ne_zero,hstrip,rmatchIndices_append hrest]
  rcases (unfinished_eq_nil_iff front).mp hfront with rfl | hend
  · rw [lastNLines_nil]
    rfl
  · obtain ⟨body,rfl⟩ : ∃ body, front = body++['\n'] :=
      ⟨front.dropLast,(List.dropLast_append_getLast? _ hend).symm⟩
    rw [rmatchIndices_snoc,if_pos rfl,List.singleton_append,tailStart,tailStart_succ,lastNLines,
      stripNewline_snoc]
    by_cases hn : n = 0
    · rw [if_pos hn,if_pos (by omega),List.nil_append,List.drop_left' (by simp)]
    · rw [if_neg hn,if_neg (by omega),List.drop_append_of_le_length]
      have hle : tailStart n 0 (rmatchIndices body) ≤ body.length :=
        tailStart_le n 0 fun _ h => lt_of_mem_rmatchIndices h
      rw [List.length_append]
      omega

/-- What a tail leaves out ends where a line does. -/
theorem lastNLines_suffix (text : List Char) (n : ℕ) :
    ∃ front, text = front ++ lastNLines text n ∧
      (lastNLines text n = [] ∨ unfinished front = []) := by
  induction text using line_induction generalizing n with
  | nil => exact ⟨[],by rw [lastNLines_nil]; rfl,.inr rfl⟩
  | snoc front line hfront hline ih =>
    cases n with
    | zero => exact ⟨front++line,(List.append_nil _).symm,.inl rfl⟩
    | succ n =>
      obtain ⟨earlier,htext,hend⟩ := ih n
      rw [lastNLines_snoc hfront hline]
      refine ⟨earlier,by rw [← List.append_assoc,← htext],.inr ?_⟩
      rcases hend with hnil | hend
      · rw [hnil,List.append_nil] at htext
        exact htext ▸ hfront
      · exact hend

/-- The tail of a text that ends in a line end does so too. -/
theorem unfinished_lastNLines (h : unfinished text = []) (n : ℕ) :
    unfinished (lastNLines text n) = [] := by
  rw [unfinished_eq_nil_iff] at h ⊢
  rw [lastNLines]
  split_ifs
  · exact .inl rfl
  · generalize tailStart _ _ _ = start
    by_cases hlen : text.length ≤ start
    · exact .inl (List.drop_eq_nil_of_le hlen)
    · rw [List.getLast?_drop,if_neg hlen]
      exact h.imp (fun hnil => by rw [hnil,List.drop_nil]) id

theorem withEnds_lastNLines (text : List Char) (n : ℕ) :
    withEnds (lastNLines text n) = (withEnds text).rtake n := by
  induction text using line_induction generalizing n with
  | nil =>
    rw [lastNLines_nil]
    simp [withEnds,unfinished]
  | snoc front line hfront hline ih =>
    cases n with
    | zero => simp [lastNLines,withEnds,unfinished]
    | succ n =>
      rw [lastNLines_snoc hfront hline,withEnds_append (unfinished_lastNLines hfront n),ih,
        withEnds_append hfront,withEnds_line hline,List.rtake_concat_succ]

theorem lastNLines_eq (text : List Char) (n : ℕ) :
    lastNLines text n = ((withEnds text).rtake n).flatten := by
  rw [← withEnds_lastNLines,withEnds_flatten]

theorem unfinished_terminated (ls : List (List Char)) :
    unfinished (ls.flatMap (·++['\n'])) = [] := by
  induction ls using List.reverseRecOn with
  | nil => rfl
  | append_singleton ls l =>
    rw [List.flatMap_append,List.flatMap_singleton,← List.append_assoc]
    exact unfinished_snoc_newline _

theorem withEnds_terminated {ls : List (List Char)} (h : ∀ l ∈ ls, '\n' ∉ l) :
    withEnds (ls.flatMap (·++['\n'])) = ls.map (·++['\n']) := by
  induction ls using List.reverseRecOn with
  | nil => rfl
  | append_singleton ls l ih =>
    have hline : IsLine (l++['\n']) := ⟨l,h l (by simp),.inr rfl⟩
    rw [List.flatMap_append,List.flatMap_singleton,withEnds_append (unfinished_terminated ls),
      ih fun l hl => h l (List.mem_append_left _ hl),withEnds_line hline,List.map_append]
    rfl

theorem rtake_map {α β : Type*} (f : α → β) (l : List α) (n : ℕ) :
    (l.map f).rtake n = (l.rtake n).map f := by
  rw [List.rtake,List.rtake,List.length_map,List.map_drop]

theorem rtake_rtake {α : Type*} (l : List α) (m n : ℕ) :
    (l.rtake m).rtake n = l.rtake (min m n) := by
  simp only [List.rtake_eq_reverse_take_reverse,List.reverse_reverse,List.take_take,Nat.min_comm]

/-- The tail of a log is its last lines: as many as were asked for or as there are, from the
beginning of a line; a tail of a tail is the shorter of the two; and what is left of a filtered
log is the last of the lines that match. -/
theorem tail_is_the_last_lines (text : List Char) (n m : ℕ) (re : List Char → Bool) :
    (∃ front, text = front ++ lastNLines text n ∧
      (lastNLines text n = [] ∨ front = [] ∨ front.getLast? = some '\n')) ∧
      withEnds (lastNLines text n) = (withEnds text).rtake n ∧
      (lines (lastNLines text n)).length = min n (lines text).length ∧
      lastNLines (lastNLines text m) n = lastNLines text (min m n) ∧
      lastNLines (grepFilter text (some re)) n =
        (((lines text).filter re).rtake n).flatMap (·++['\n']) ∧
      loggedText text (some re) (some n) = lastNLines (grepFilter text (some re)) n := by
  have hgrep : lastNLines (grepFilter text (some re)) n =
      (((lines text).filter re).rtake n).flatMap (·++['\n']) := by
    rw [lastNLines_eq,grepFilter,withEnds_terminated,rtake_map,List.flatMap_def]
    intro l hl
    exact not_mem_of_mem_lines (List.mem_of_mem_filter hl)
  refine ⟨?_,withEnds_lastNLines text n,?_,?_,hgrep,rfl⟩
  · obtain ⟨front,htext,hend⟩ := lastNLines_suffix text n
    exact ⟨front,htext,hend.imp_right (unfinished_eq_nil_iff front).mp⟩
  · rw [← length_withEnds,← length_withEnds,withEnds_lastNLines,List.rtake,List.length_drop]
    omega
  · rw [lastNLines_eq (lastNLines text m),withEnds_lastNLines,rtake_rtake,← lastNLines_eq]

example : lastNLines ['a','\n','b','\n','c','\n'] 2 = ['b','\n','c','\n'] ∧
    lastNLines ['a','\n','\n','c'] 2 = ['\n','c'] := by decide

end Babysit
